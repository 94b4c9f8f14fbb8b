/-
  Frg.Node.Backup — rotating backups (`core/statemachine/backup.go`, `cmd/frg-backup`).

  `CreateBackup` installs a snapshot under a name with the time in it, lists the directory, sorts
  the backups in it with the newest first, and removes those behind the first `retain`. It takes
  them with `backups[retain:]`, which panics where there are fewer than `retain`.

    - `createBackup_run`: a call whose snapshot is written panics or prunes, by the number of
      backups that are there with the new one.
    - `pruned_keepsNewest`: what pruning leaves.
    - `rotation_iff`: a call rotates exactly when there are enough backups, and so does every
      later call (`listBackups_written`: a snapshot takes no backup away).
    - `first_backup_panics`: the first call on an empty directory panics, with its default.
-/

import Frg.Core.Prim
import Frg.Lib.Bucket
import Mathlib.Data.List.Sort

namespace Frg.Node

open Frg.Lib Frg.Core

/-! ## The code -/

/-- What `Info` says of a directory entry. -/
structure FileInfo where
  regular : Bool
  modTime : Int
  deriving DecidableEq

structure DirEntry where
  isDir : Bool
  info : Option FileInfo
  deriving DecidableEq

/-- `ReadDir` lists a directory by name. -/
abbrev Dir := Bucket (List UInt8) DirEntry

/-- `backupEntry`. -/
structure Backup where
  name : List UInt8
  modTime : Int
  deriving DecidableEq

/-- `frg-` -/
def backupHead : List UInt8 := [0x66, 0x72, 0x67, 0x2D]
/-- `.db` -/
def backupTail : List UInt8 := [0x2E, 0x64, 0x62]

def backupOf (x : List UInt8 × DirEntry) : Option Backup :=
  if x.2.isDir = true ∨ ¬ backupHead <+: x.1 ∨ ¬ backupTail <:+ x.1 then none
  else
    match x.2.info with
    | none => none
    | some info => if info.regular = true then some ⟨x.1, info.modTime⟩ else none

def listBackups (dir : Dir) : List Backup := dir.entries.filterMap backupOf

/-- The order of `sort.Slice`: by time, and by name where the times are equal. -/
def Backup.newer (a b : Backup) : Prop := b.modTime < a.modTime ∨ a.modTime = b.modTime ∧ b.name ≤ a.name

instance decidableNewer (a b : Backup) : Decidable (a.newer b) := inferInstanceAs (Decidable (_ ∨ _ ∧ _))

def sortBackups (l : List Backup) : List Backup := l.insertionSort Backup.newer

/-- `backups[retain:]` -/
def oldBackups (retain : Nat) (backups : List Backup) : Res (List Backup) :=
  if retain ≤ backups.length then .ok (backups.drop retain) else .panic "slice bounds out of range"

/-- What a call finds outside the program: the time as it is written in the name, and how the
    calls to the file system end. A snapshot has the time of its last change. -/
structure Attempt where
  stamp : List UInt8
  mkdirAll : Res Unit
  backupDatabase : Res Int
  readDir : Res Unit
  remove : List UInt8 → Res Unit

def Attempt.name (e : Attempt) : List UInt8 := backupHead ++ e.stamp ++ backupTail

/-- The snapshot is installed. -/
def saved (dir : Dir) (e : Attempt) (modTime : Int) : Dir := dir.put e.name ⟨false, some ⟨true, modTime⟩⟩

def removeBackup (e : Attempt) (old : Backup) : Act Err Dir Unit := do
  Act.mapErr (.context ("remove old backup " ++ nameText old.name)) (Act.lift (e.remove old.name))
  Act.write fun dir => dir.delete old.name

def createBackup (retain : Int) (e : Attempt) : Act Err Dir (List UInt8) := do
  Act.check (1 ≤ retain) (.plain "backup retention must be positive")
  Act.mapErr (.context "create backup directory") (Act.lift e.mkdirAll)
  let modTime ← Act.lift e.backupDatabase
  Act.write fun dir => saved dir e modTime
  Act.mapErr (.context "list backups") (Act.lift e.readDir)
  let backups ← Act.read listBackups
  let old ← Act.lift (oldBackups retain.toNat (sortBackups backups))
  old.forM (removeBackup e)
  return e.name

/-! ## Backups in a directory -/

theorem backupOf_name {x : List UInt8 × DirEntry} {b : Backup} (h : backupOf x = some b) : b.name = x.1 := by
  unfold backupOf at h
  split at h
  · cases h
  · split at h
    · cases h
    · split at h
      · rw [← Option.some.inj h]
      · cases h

theorem mem_listBackups {dir : Dir} {b : Backup} :
    b ∈ listBackups dir ↔ ∃ entry, dir.get b.name = some entry ∧ backupOf (b.name, entry) = some b := by
  unfold listBackups
  rw [List.mem_filterMap]
  constructor
  · rintro ⟨⟨name, entry⟩, hx, hb⟩
    obtain rfl : b.name = name := backupOf_name hb
    exact ⟨entry, Bucket.mem_entries.mp hx, hb⟩
  · rintro ⟨entry, hget, hb⟩
    exact ⟨(b.name, entry), Bucket.mem_entries.mpr hget, hb⟩

theorem listBackups_names (dir : Dir) : ((listBackups dir).map Backup.name).Sublist dir.keys := by
  unfold listBackups Bucket.keys
  induction dir.entries with
  | nil => exact .slnil
  | cons x l ih =>
    cases hx : backupOf x with
    | none =>
      rw [List.filterMap_cons_none hx]
      exact ih.cons _
    | some b =>
      rw [List.filterMap_cons_some hx, List.map_cons, List.map_cons, backupOf_name hx]
      exact ih.cons_cons _

theorem listBackups_names_nodup (dir : Dir) : ((listBackups dir).map Backup.name).Nodup :=
  dir.keys_nodup.sublist (listBackups_names dir)

theorem listBackups_nodup (dir : Dir) : (listBackups dir).Nodup := (listBackups_names_nodup dir).of_map

theorem sortBackups_perm (l : List Backup) : (sortBackups l).Perm l := List.perm_insertionSort _ l

theorem sortBackups_newer (l : List Backup) : (sortBackups l).Pairwise Backup.newer := by
  have htotal : Std.Total Backup.newer := ⟨fun a b => by
    unfold Backup.newer
    rcases lt_trichotomy a.modTime b.modTime with h | h | h
    · exact .inr (.inl h)
    · exact (le_total b.name a.name).imp (fun hn => .inr ⟨h, hn⟩) fun hn => .inr ⟨h.symm, hn⟩
    · exact .inl (.inl h)⟩
  have htrans : IsTrans Backup Backup.newer := ⟨fun a b c hab hbc => by
    unfold Backup.newer at *
    rcases hab with hab | ⟨hab, hn⟩ <;> rcases hbc with hbc | ⟨hbc, hm⟩
    · exact .inl (lt_trans hbc hab)
    · exact .inl (hbc ▸ hab)
    · exact .inl (hab ▸ hbc)
    · exact .inr ⟨hab.trans hbc, le_trans hm hn⟩⟩
  exact List.pairwise_insertionSort _ l

/-! ## Pruning -/

/-- The directory without the old backups. -/
def without (dir : Dir) (old : List Backup) : Dir := old.foldl (fun dir b => dir.delete b.name) dir

theorem without_cons (dir : Dir) (b : Backup) (old : List Backup) :
    without dir (b :: old) = without (dir.delete b.name) old := rfl

theorem get_without_of_none {dir : Dir} {name : List UInt8} (h : dir.get name = none) (old : List Backup) :
    (without dir old).get name = none := by
  induction old generalizing dir with
  | nil => exact h
  | cons b old ih =>
    apply ih
    rw [Bucket.get_delete]
    split
    · rfl
    · exact h

theorem get_without_removed {dir : Dir} {old : List Backup} {b : Backup} (hb : b ∈ old) :
    (without dir old).get b.name = none := by
  induction old generalizing dir with
  | nil => cases hb
  | cons c old ih =>
    rw [without_cons]
    rcases List.mem_cons.mp hb with rfl | hb
    · exact get_without_of_none (by rw [Bucket.get_delete, if_pos rfl]) old
    · exact ih hb

theorem get_without_kept {dir : Dir} {old : List Backup} {name : List UInt8} (h : ∀ b ∈ old, b.name ≠ name) :
    (without dir old).get name = dir.get name := by
  induction old generalizing dir with
  | nil => rfl
  | cons c old ih =>
    obtain ⟨hc, hold⟩ := List.forall_mem_cons.mp h
    rw [without_cons, ih hold, Bucket.get_delete, if_neg (Ne.symm hc)]

theorem removeBackups_run {e : Attempt} (hremove : ∀ name, e.remove name = .ok ()) (dir : Dir) (old : List Backup) :
    old.forM (removeBackup e) dir = (.ok (), without dir old) := by
  induction old generalizing dir with
  | nil => rfl
  | cons b old ih =>
    have hone : removeBackup e b dir = (.ok (), dir.delete b.name) := by
      unfold removeBackup
      rw [hremove]
      rfl
    show (removeBackup e b >>= fun _ => old.forM (removeBackup e)) dir = _
    rw [Act.bind_of_ok hone, ih]
    rfl

/-- The newest `retain` backups of a directory are left in it, and everything that is no backup. -/
structure KeepsNewest (retain : Nat) (before after : Dir) : Prop where
  count : (listBackups after).length = min retain (listBackups before).length
  kept : ∀ b ∈ listBackups after, b ∈ listBackups before
  newest : ∀ b ∈ listBackups after, ∀ c ∈ listBackups before, c ∉ listBackups after → b.newer c
  others : ∀ name, (∀ b ∈ listBackups before, b.name ≠ name) → after.get name = before.get name

/-- The directory a call leaves that removes the backups behind the first `retain`. -/
def pruned (retain : Nat) (dir : Dir) : Dir := without dir ((sortBackups (listBackups dir)).drop retain)

theorem mem_pruned {retain : Nat} {dir : Dir} {b : Backup} :
    b ∈ listBackups (pruned retain dir) ↔ b ∈ (sortBackups (listBackups dir)).take retain := by
  have hperm := sortBackups_perm (listBackups dir)
  have hnames : ((sortBackups (listBackups dir)).map Backup.name).Nodup :=
    (hperm.map _).nodup_iff.mpr (listBackups_names_nodup dir)
  have hsplit := List.take_append_drop retain (sortBackups (listBackups dir))
  constructor
  · intro hleft
    obtain ⟨entry, hget, hb⟩ := mem_listBackups.mp hleft
    have hkeep : ∀ c ∈ (sortBackups (listBackups dir)).drop retain, c.name ≠ b.name := by
      intro c hc hname
      unfold pruned at hget
      rw [← hname, get_without_removed hc] at hget
      cases hget
    unfold pruned at hget
    rw [get_without_kept hkeep] at hget
    have hmem : b ∈ sortBackups (listBackups dir) := hperm.mem_iff.mpr (mem_listBackups.mpr ⟨entry, hget, hb⟩)
    rw [← hsplit, List.mem_append] at hmem
    exact hmem.resolve_right fun hdrop => hkeep b hdrop rfl
  · intro htake
    obtain ⟨entry, hget, hb⟩ := mem_listBackups.mp (hperm.mem_iff.mp (List.mem_of_mem_take htake))
    have hkeep : ∀ c ∈ (sortBackups (listBackups dir)).drop retain, c.name ≠ b.name := by
      intro c hc hname
      rw [← hsplit, List.map_append] at hnames
      exact List.disjoint_of_nodup_append hnames (List.mem_map_of_mem htake) (hname ▸ List.mem_map_of_mem hc)
    exact mem_listBackups.mpr ⟨entry, (get_without_kept hkeep).trans hget, hb⟩

theorem pruned_keepsNewest (retain : Nat) (dir : Dir) : KeepsNewest retain dir (pruned retain dir) := by
  have hperm := sortBackups_perm (listBackups dir)
  have hnodup : (sortBackups (listBackups dir)).Nodup := hperm.nodup_iff.mpr (listBackups_nodup dir)
  have hsplit := List.take_append_drop retain (sortBackups (listBackups dir))
  have hleft : (listBackups (pruned retain dir)).Perm ((sortBackups (listBackups dir)).take retain) :=
    (List.perm_ext_iff_of_nodup (listBackups_nodup _) (hnodup.sublist (List.take_sublist _ _))).mpr fun _ => mem_pruned
  constructor
  case count => rw [hleft.length_eq, List.length_take, hperm.length_eq]
  case kept =>
    intro b hb
    exact hperm.mem_iff.mp (List.mem_of_mem_take (mem_pruned.mp hb))
  case newest =>
    intro b hb c hc hgone
    have hdrop : c ∈ (sortBackups (listBackups dir)).drop retain := by
      have hmem := hperm.mem_iff.mpr hc
      rw [← hsplit, List.mem_append] at hmem
      exact hmem.resolve_left fun htake => hgone (mem_pruned.mpr htake)
    have hsorted := sortBackups_newer (listBackups dir)
    rw [← hsplit] at hsorted
    exact (List.pairwise_append.mp hsorted).2.2 b (mem_pruned.mp hb) c hdrop
  case others =>
    intro name hname
    apply get_without_kept
    intro b hb
    exact hname b (hperm.mem_iff.mp (List.mem_of_mem_drop hb))

/-! ## Calls -/

/-- The snapshot is written, the directory can be listed, and files can be removed. -/
structure Attempt.Writes (e : Attempt) (modTime : Int) : Prop where
  mkdirAll : e.mkdirAll = .ok ()
  backupDatabase : e.backupDatabase = .ok modTime
  readDir : e.readDir = .ok ()
  remove : ∀ name, e.remove name = .ok ()

theorem createBackup_run {retain : Int} (hretain : 1 ≤ retain) {e : Attempt} {modTime : Int} (he : e.Writes modTime)
    (dir : Dir) : createBackup retain e dir =
      if retain.toNat ≤ (listBackups (saved dir e modTime)).length then
        (.ok e.name, pruned retain.toNat (saved dir e modTime))
      else (.panic "slice bounds out of range", saved dir e modTime) := by
  have hmkdir : Act.mapErr (.context "create backup directory") (Act.lift e.mkdirAll) dir = (.ok (), dir) := by
    rw [he.mkdirAll]
    rfl
  have hlist : Act.mapErr (.context "list backups") (Act.lift e.readDir) (saved dir e modTime) =
      (.ok (), saved dir e modTime) := by
    rw [he.readDir]
    rfl
  have hwrite : (Act.write fun dir => saved dir e modTime : Act Err Dir Unit) dir = (.ok (), saved dir e modTime) := rfl
  unfold createBackup
  rw [Act.check_bind hretain, Act.bind_of_ok hmkdir, Act.lift_bind he.backupDatabase, Act.bind_of_ok hwrite,
    Act.bind_of_ok hlist, Act.read_bind]
  have hlen := (sortBackups_perm (listBackups (saved dir e modTime))).length_eq
  split
  · rename_i hmany
    have hold : oldBackups retain.toNat (sortBackups (listBackups (saved dir e modTime))) =
        .ok ((sortBackups (listBackups (saved dir e modTime))).drop retain.toNat) := if_pos (hlen ▸ hmany)
    rw [Act.lift_bind hold, Act.bind_of_ok (removeBackups_run he.remove _ _)]
    rfl
  · rename_i hfew
    have hold : oldBackups retain.toNat (sortBackups (listBackups (saved dir e modTime))) =
        .panic "slice bounds out of range" := if_neg (hlen ▸ hfew)
    rw [hold]
    rfl

/-- A call succeeds, and of the backups with its own the newest are left. -/
def Rotates (retain : Int) (dir : Dir) (e : Attempt) (modTime : Int) : Prop :=
  ∃ after, createBackup retain e dir = (.ok e.name, after) ∧ KeepsNewest retain.toNat (saved dir e modTime) after

theorem rotates_of_enough {retain : Int} (hretain : 1 ≤ retain) {dir : Dir} {e : Attempt} {modTime : Int}
    (he : e.Writes modTime) (hmany : retain.toNat ≤ (listBackups (saved dir e modTime)).length) :
    Rotates retain dir e modTime := by
  refine ⟨_, ?_, pruned_keepsNewest retain.toNat (saved dir e modTime)⟩
  rw [createBackup_run hretain he, if_pos hmany]

/-! ## Runs of calls -/

theorem listBackups_written (dir : Dir) (e : Attempt) (modTime : Int) :
    (listBackups dir).length ≤ (listBackups (saved dir e modTime)).length := by
  have hnew : (⟨e.name, modTime⟩ : Backup) ∈ listBackups (saved dir e modTime) := by
    have hhead : backupHead <+: e.name := ⟨e.stamp ++ backupTail, by rw [Attempt.name, List.append_assoc]⟩
    have htail : backupTail <:+ e.name := ⟨backupHead ++ e.stamp, rfl⟩
    refine mem_listBackups.mpr ⟨⟨false, some ⟨true, modTime⟩⟩, ?_, ?_⟩
    · rw [saved, Bucket.get_put, if_pos rfl]
    · simp [backupOf, hhead, htail]
  have hsub : (listBackups dir).map Backup.name ⊆ (listBackups (saved dir e modTime)).map Backup.name := by
    intro name hname
    obtain ⟨b, hb, rfl⟩ := List.mem_map.mp hname
    obtain ⟨entry, hget, hof⟩ := mem_listBackups.mp hb
    by_cases hsame : b.name = e.name
    · rw [hsame]
      exact List.mem_map_of_mem hnew
    · apply List.mem_map_of_mem
      exact mem_listBackups.mpr ⟨entry, by rw [saved, Bucket.get_put_ne _ _ hsame, hget], hof⟩
  have hle := ((listBackups_names_nodup dir).subperm hsub).length_le
  rwa [List.length_map, List.length_map] at hle

/-- The directory behind some calls. A call that panics leaves its snapshot. -/
def afterCalls (retain : Int) (dir : Dir) (calls : List Attempt) : Dir :=
  calls.foldl (fun dir e => (createBackup retain e dir).2) dir

theorem enough_step {retain : Int} (hretain : 1 ≤ retain) {dir : Dir} {e : Attempt} {modTime : Int}
    (he : e.Writes modTime)
    (hmany : retain.toNat ≤ (listBackups (saved dir e modTime)).length) :
    retain.toNat ≤ (listBackups (createBackup retain e dir).2).length := by
  obtain ⟨after, hrun, hkeeps⟩ := rotates_of_enough hretain he hmany
  rw [hrun, hkeeps.count, Nat.min_eq_left hmany]

theorem enough_run {retain : Int} (hretain : 1 ≤ retain) {calls : List Attempt} (hcalls : ∀ e ∈ calls, ∃ t, e.Writes t)
    {dir : Dir} (hmany : retain.toNat ≤ (listBackups dir).length) :
    retain.toNat ≤ (listBackups (afterCalls retain dir calls)).length := by
  induction calls generalizing dir with
  | nil => exact hmany
  | cons e calls ih =>
    obtain ⟨⟨t, he⟩, hrest⟩ := List.forall_mem_cons.mp hcalls
    exact ih hrest (enough_step hretain he (le_trans hmany (listBackups_written dir e t)))

/-- A call whose snapshot is written panics exactly when the directory has fewer than `retain`
    backups with it. Otherwise it rotates them, and so does every call after it. -/
theorem rotation_iff {retain : Int} (hretain : 1 ≤ retain) (dir : Dir) {e : Attempt} {modTime : Int}
    (he : e.Writes modTime) :
    ((createBackup retain e dir).1.panics = true ↔ (listBackups (saved dir e modTime)).length < retain.toNat) ∧
    (retain.toNat ≤ (listBackups (saved dir e modTime)).length → Rotates retain dir e modTime ∧
      ∀ calls : List Attempt, (∀ e ∈ calls, ∃ t, e.Writes t) → ∀ (e' : Attempt) (t' : Int), e'.Writes t' →
        Rotates retain (afterCalls retain (createBackup retain e dir).2 calls) e' t') := by
  constructor
  · rw [createBackup_run hretain he]
    split
    · exact iff_of_false Bool.noConfusion (by omega)
    · exact iff_of_true rfl (by omega)
  · intro hmany
    refine ⟨rotates_of_enough hretain he hmany, ?_⟩
    intro calls hcalls e' t' he'
    have hrun := enough_run hretain hcalls (enough_step hretain he hmany)
    exact rotates_of_enough hretain he' (le_trans hrun (listBackups_written _ e' t'))

/-- A snapshot where everything works. -/
def quietAttempt (stamp : List UInt8) (modTime : Int) : Attempt where
  stamp := stamp
  mkdirAll := .ok ()
  backupDatabase := .ok modTime
  readDir := .ok ()
  remove _ := .ok ()

theorem quietAttempt_writes (stamp : List UInt8) (modTime : Int) : (quietAttempt stamp modTime).Writes modTime :=
  ⟨rfl, rfl, rfl, fun _ => rfl⟩

/-- Backups of three times, of which the name of the oldest is the greatest. `frg-5.db` is a directory,
    and `db` is no backup. -/
def usedDir : Dir :=
  let older := [([0x33], 1), ([0x31], 2), ([0x32], 3)].foldl (fun dir x => saved dir (quietAttempt x.1 x.2) x.2) .empty
  (older.put (quietAttempt [0x35] 9).name ⟨true, some ⟨false, 9⟩⟩).put [0x64, 0x62] ⟨false, some ⟨true, 8⟩⟩

/-- With two to retain, two calls leave their own backups, the directory and the other file. -/
theorem rotation_iff_used : Rotates 2 usedDir (quietAttempt [0x34] 4) 4 ∧
    Rotates 2 (createBackup 2 (quietAttempt [0x34] 4) usedDir).2 (quietAttempt [0x36] 6) 6 ∧
    (createBackup 2 (quietAttempt [0x34] 4) usedDir).1.panics = false ∧
    listBackups (afterCalls 2 usedDir [quietAttempt [0x34] 4, quietAttempt [0x36] 6]) =
      [⟨(quietAttempt [0x34] 4).name, 4⟩, ⟨(quietAttempt [0x36] 6).name, 6⟩] ∧
    (afterCalls 2 usedDir [quietAttempt [0x34] 4, quietAttempt [0x36] 6]).keys.length = 4 := by
  obtain ⟨hpanics, hrotates⟩ := rotation_iff (show (1 : Int) ≤ 2 by decide) usedDir (quietAttempt_writes [0x34] 4)
  obtain ⟨hfirst, hlater⟩ := hrotates (by decide)
  have hsecond := hlater [] (fun _ h => absurd h List.not_mem_nil) _ 6 (quietAttempt_writes [0x36] 6)
  have hreturns := Bool.eq_false_iff.mpr (mt hpanics.mp (by decide))
  exact ⟨hfirst, hsecond, hreturns, by decide, by decide⟩

/-- The first backup of a directory, with the default of seven to retain. -/
theorem first_backup_panics : (quietAttempt [0x31] 5).Writes 5 ∧
    (createBackup 7 (quietAttempt [0x31] 5) .empty).1 = .panic "slice bounds out of range" ∧
    listBackups (createBackup 7 (quietAttempt [0x31] 5) .empty).2 = [⟨(quietAttempt [0x31] 5).name, 5⟩] :=
  ⟨quietAttempt_writes [0x31] 5, by decide, by decide⟩

end Frg.Node
