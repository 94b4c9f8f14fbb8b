/-
  Frg.Contract.Storage — a contract's state in the store, and under its root.

  `Set` takes keys of 1 to 32 bytes and values of up to 65536. `Serialize` writes the number
  of keys and the length of a value in 16 bits, and `DeserializeState` stops without an error
  where the bytes make no sense. `StateRoot` hashes the keys and values in a row, with nothing
  to say where one ends.

    - `stored_iff`: a state comes back from the store exactly when it has less than 65536
      keys, values of less than 65536 bytes, and an encoding that bbolt takes.
    - `value_lost`: a value of 65536 bytes does not come back.
    - `stateRoot_commits_iff`: two states with one root are one state exactly when their bytes
      are not the same in other pieces.
    - `pieces_collide`: "a" with "bc", and "ab" with "c".
-/

import Frg.Contract.Exec

namespace Frg.Contract

open Frg.Lib Frg.Core Frg.Chain

/-! ## States a contract can have -/

/-- The states `Set` makes of an empty or a loaded one. -/
inductive Built : StateStore → Prop
  | empty : Built .empty
  | loaded (db : DB) (addr : Key) : Built (loadStateOf db addr)
  | set {s s' : StateStore} {key value : List UInt8} : Built s → s.set key value = .ok s' → Built s'

/-- What `Set` and `Serialize` ask of an entry. -/
def InBounds (x : List UInt8 × List UInt8) : Prop :=
  x.1.length ≠ 0 ∧ x.1.length ≤ maxStateKeyLen ∧ x.2.length ≤ maxStateValLen

/-- An entry whose lengths the encoding has room for. -/
def Writable (x : List UInt8 × List UInt8) : Prop :=
  x.1.length ≠ 0 ∧ x.1.length ≤ maxStateKeyLen ∧ x.2.length < 65536

theorem Writable.inBounds {x : List UInt8 × List UInt8} (h : Writable x) : InBounds x :=
  ⟨h.1, h.2.1, Nat.le_of_lt h.2.2⟩

theorem mem_put {s : StateStore} {k v : List UInt8} {x : List UInt8 × List UInt8} (h : x ∈ (s.put k v).entries) :
    x = (k, v) ∨ x ∈ s.entries := mem_insertKey h

theorem readEntries_bounds (n : Nat) (raw : List UInt8) (s : StateStore) :
    (readEntries n raw s).entries.length ≤ s.entries.length + n ∧
      ((∀ x ∈ s.entries, Writable x) → ∀ x ∈ (readEntries n raw s).entries, Writable x) := by
  fun_induction readEntries n raw s with
  | case1 | case2 | case3 | case4 | case5 => exact ⟨by omega, fun h => h⟩
  | case6 n b raw s hlen key rest hrest valLen rest' hval ih =>
    obtain ⟨hcount, hkeep⟩ := ih
    refine ⟨hcount.trans ?_, fun h => hkeep fun x hx => ?_⟩
    · have hput : (s.put key (rest'.take valLen)).entries.length ≤ s.entries.length + 1 := length_insertKey _ _ _
      omega
    · rcases mem_put hx with rfl | hx
      · obtain ⟨hb, hlen⟩ := not_or.mp hlen
        obtain ⟨hmax, hraw⟩ := not_or.mp hlen
        have hb0 : b.toNat ≠ 0 := fun h0 => hb (UInt8.toNat_inj.mp h0)
        have hkey : key.length = b.toNat := by
          rw [List.length_take]
          omega
        have hvalLen : valLen < 65536 := by
          have := ofBE_lt (rest.take 2)
          rw [List.length_take, Nat.min_eq_left (by omega)] at this
          exact this
        have hvalue : (rest'.take valLen).length < 65536 := by
          rw [List.length_take]
          omega
        exact ⟨hkey ▸ hb0, hkey ▸ not_lt.mp hmax, hvalue⟩
      · exact h x hx

theorem deserializeState_bounds (raw : List UInt8) :
    (deserializeState raw).entries.length < 65536 ∧ ∀ x ∈ (deserializeState raw).entries, Writable x := by
  have hempty : ∀ x ∈ (Bucket.empty : StateStore).entries, Writable x := fun x hx => absurd hx List.not_mem_nil
  unfold deserializeState
  split
  · exact ⟨by decide, hempty⟩
  · rename_i hlen
    obtain ⟨hcount, hkeep⟩ := readEntries_bounds (ofBE (raw.take 2)) (raw.drop 2) .empty
    have hn : ofBE (raw.take 2) < 65536 := by
      have := ofBE_lt (raw.take 2)
      rw [List.length_take, Nat.min_eq_left (by omega)] at this
      exact this
    have h0 : (Bucket.empty : StateStore).entries.length = 0 := rfl
    exact ⟨by omega, hkeep hempty⟩

theorem loadStateOf_bounds (db : DB) (addr : Key) :
    (loadStateOf db addr).entries.length < 65536 ∧ ∀ x ∈ (loadStateOf db addr).entries, Writable x := by
  unfold loadStateOf
  split
  · exact ⟨by decide, fun x hx => absurd hx List.not_mem_nil⟩
  · exact deserializeState_bounds _

theorem Built.inBounds {s : StateStore} (h : Built s) : ∀ x ∈ s.entries, InBounds x := by
  induction h with
  | empty => exact fun x hx => absurd hx List.not_mem_nil
  | loaded db addr => exact fun x hx => ((loadStateOf_bounds db addr).2 x hx).inBounds
  | set _ hset ih =>
    rename_i key value
    unfold StateStore.set at hset
    obtain ⟨_, hkey, hset⟩ := Go.bind_eq_ok.mp hset
    obtain ⟨_, hval, hset⟩ := Go.bind_eq_ok.mp hset
    obtain ⟨hkey0, hkeyLen⟩ := Go.check_eq_ok.mp hkey
    have hvalLen := Go.check_eq_ok.mp hval
    obtain rfl := Go.ok.inj hset
    intro x hx
    split at hx
    · exact ih x ((eraseKey_sublist _ _).subset hx)
    · rcases mem_put hx with rfl | hx
      · exact ⟨hkey0, hkeyLen, hvalLen⟩
      · exact ih x hx

/-! ## The encoding -/

def encodeEntry (x : List UInt8 × List UInt8) : List UInt8 := toBE 1 x.1.length ++ x.1 ++ u16 x.2.length ++ x.2

/-- The bytes of the encoding: two for the number of keys, three for the lengths of an entry. -/
def encodedSize (s : StateStore) : Nat := 2 + (s.entries.map fun x => 3 + x.1.length + x.2.length).sum

theorem serialize_eq {s : StateStore} (h : ∀ x ∈ s.entries, InBounds x) :
    s.serialize = some (u16 s.entries.length ++ s.entries.flatMap encodeEntry) := by
  unfold StateStore.serialize
  rw [if_pos]
  · rfl
  · rw [List.all_eq_true]
    rintro ⟨k, v⟩ hx
    obtain ⟨h1, h2, h3⟩ := h _ hx
    simp [h1, h2, h3]

theorem length_encoding (s : StateStore) :
    (u16 s.entries.length ++ s.entries.flatMap encodeEntry).length = encodedSize s := by
  unfold encodedSize
  rw [List.length_append, List.length_flatMap, u16, length_toBE]
  congr 2
  refine List.map_congr_left fun x _ => ?_
  simp only [encodeEntry, u16, List.length_append, length_toBE]
  omega

theorem readEntries_encodeEntry {x : List UInt8 × List UInt8} (hx : Writable x) (n : Nat) (rest : List UInt8)
    (s : StateStore) : readEntries (n + 1) (encodeEntry x ++ rest) s = readEntries n rest (s.put x.1 x.2) := by
  obtain ⟨k, v⟩ := x
  obtain ⟨hk0, hk32, hv⟩ := hx
  dsimp only at hk0 hk32 hv
  have hmax : maxStateKeyLen = 32 := rfl
  have hbytes : encodeEntry (k, v) ++ rest = UInt8.ofNat k.length :: (k ++ (u16 v.length ++ (v ++ rest))) := by
    simp [encodeEntry, toBE]
  have hb : (UInt8.ofNat k.length).toNat = k.length := by
    rw [UInt8.toNat_ofNat']
    omega
  have hb0 : UInt8.ofNat k.length ≠ 0 := fun h => hk0 (hb.symm.trans (congrArg UInt8.toNat h))
  have hu16 : (u16 v.length).length = 2 := length_toBE 2 _
  rw [hbytes, readEntries, if_neg, hb, List.take_left, List.drop_left, if_neg, List.take_left' hu16,
    List.drop_left' hu16,
    u16, ofBE_toBE 2 _ hv, if_neg, List.take_left, List.drop_left]
  · simp
  · rw [List.length_append, hu16]
    omega
  · simp only [hb, not_or, not_lt]
    exact ⟨hb0, hk32, by simp⟩

theorem readEntries_entries : ∀ {l : List (List UInt8 × List UInt8)} (_ : ∀ x ∈ l, Writable x) (s : StateStore),
    readEntries l.length (l.flatMap encodeEntry) s = l.foldl (fun s x => s.put x.1 x.2) s := by
  intro l
  induction l with
  | nil => exact fun _ _ => rfl
  | cons x l ih =>
    intro h s
    rw [List.length_cons, List.flatMap_cons, readEntries_encodeEntry (h x List.mem_cons_self),
      ih fun y hy => h y (List.mem_cons_of_mem _ hy), List.foldl_cons]

/-- Within the room of the encoding, `DeserializeState` reverses `Serialize`. -/
theorem deserializeState_encoding {s : StateStore} (hcount : s.entries.length < 65536)
    (h : ∀ x ∈ s.entries, Writable x) :
    deserializeState (u16 s.entries.length ++ s.entries.flatMap encodeEntry) = s := by
  have hu16 : (u16 s.entries.length).length = 2 := length_toBE 2 _
  unfold deserializeState
  have hlong : ¬ (u16 s.entries.length ++ s.entries.flatMap encodeEntry).length < 2 := by
    rw [List.length_append, hu16]
    omega
  rw [if_neg hlong, List.take_left' hu16, List.drop_left' hu16, u16, ofBE_toBE 2 _ hcount, readEntries_entries h,
    Bucket.foldl_put_entries]

/-! ## Saving and loading -/

theorem load_save {s : StateStore} (h : ∀ x ∈ s.entries, InBounds x) (hsize : encodedSize s ≤ maxValueSize) (db : DB)
    (addr : Key) : loadStateOf (saveState addr s db).2 addr =
      deserializeState (u16 s.entries.length ++ s.entries.flatMap encodeEntry) := by
  have hdata : s.serialize.getD [] = u16 s.entries.length ++
      s.entries.flatMap encodeEntry := by rw [serialize_eq h]; rfl
  have hlen : (s.serialize.getD []).length ≤ maxValueSize := by rw [hdata, length_encoding]; exact hsize
  have hget : (saveState addr s db).2.contractState.get addr = some (s.serialize.getD []) := by
    show (if (s.serialize.getD []).length ≤ maxValueSize then _ else _ : Bucket Key (List UInt8)).get addr = _
    rw [if_pos hlen, Bucket.get_put_self]
  unfold loadStateOf
  rw [hget, ← hdata]

theorem load_refused {s : StateStore} (h : ∀ x ∈ s.entries, InBounds x)
    (hsize : ¬ encodedSize s ≤ maxValueSize) (db : DB)
    (addr : Key) : loadStateOf (saveState addr s db).2 addr = loadStateOf db addr := by
  have hlen : ¬ (s.serialize.getD []).length ≤ maxValueSize := by
    rw [serialize_eq h, Option.getD_some, length_encoding]
    exact hsize
  have hsame : (saveState addr s db).2.contractState = db.contractState := by
    show (if (s.serialize.getD []).length ≤ maxValueSize then _ else _ : Bucket Key (List UInt8)) = _
    rw [if_neg hlen]
  unfold loadStateOf
  rw [hsame]

/-- A state of a contract, saved over whatever was there, is what is loaded. -/
theorem stored_iff {s : StateStore} (hs : Built s) : (∀ db addr, loadStateOf (saveState addr s db).2 addr = s) ↔
    s.entries.length < 65536 ∧ (∀ x ∈ s.entries, x.2.length < 65536) ∧ encodedSize s ≤ maxValueSize := by
  have hin : ∀ x ∈ s.entries, InBounds x := hs.inBounds
  constructor
  · intro h
    obtain ⟨hcount, hvals⟩ := loadStateOf_bounds (saveState 0 s .new).2 0
    rw [h .new 0] at hcount hvals
    refine ⟨hcount, fun x hx => (hvals x hx).2.2, ?_⟩
    by_contra hsize
    have hempty : s = .empty := (h .new 0).symm.trans (load_refused hin hsize .new 0)
    rw [hempty] at hsize
    exact hsize (by decide)
  · rintro ⟨hcount, hvals, hsize⟩ db addr
    rw [load_save hin hsize]
    exact deserializeState_encoding hcount fun x hx => ⟨(hin x hx).1, (hin x hx).2.1, hvals x hx⟩

theorem stored_iff_small : ∃ s, StateStore.set .empty [1] [2, 3] = .ok s ∧
    ∀ db addr, loadStateOf (saveState addr s db).2 addr = s := by
  have hset : StateStore.set .empty [1] [2, 3] = .ok (Bucket.put .empty [1] [2, 3]) := rfl
  refine ⟨_, hset, (stored_iff (.set .empty hset)).mpr ?_⟩
  decide

/-- The longest value `Set` takes: its length is written as zero. -/
theorem value_lost : ∃ s, StateStore.set .empty [1] (List.replicate 65536 7) = .ok s ∧
    ∀ db addr, loadStateOf (saveState addr s db).2 addr ≠ s := by
  obtain ⟨v, hv, hlen⟩ : ∃ v : List UInt8, v = List.replicate 65536 7 ∧ v.length = 65536 :=
    ⟨_, rfl, List.length_replicate⟩
  rw [← hv]
  have hne : v ≠ [] := fun h => by rw [h] at hlen; cases hlen
  refine ⟨Bucket.put .empty [1] v, ?_, fun db addr h => ?_⟩
  · unfold StateStore.set
    rw [Go.check_pos (by decide), Go.ok_bind, Go.check_pos (by rw [hlen]; decide), Go.ok_bind, if_neg hne]
    rfl
  · have hbound := (loadStateOf_bounds (saveState addr (Bucket.put .empty [1] v) db).2 addr).2
    rw [h] at hbound
    have hlt : v.length < 65536 := (hbound ([1], v) List.mem_cons_self).2.2
    omega

/-! ## The root -/

/-- What `StateRoot` hashes behind the domain. -/
def rootBytes (s : StateStore) : List UInt8 := s.entries.flatMap fun x => x.1 ++ x.2

/-- Where the bytes are cut into keys and values. -/
def cuts (s : StateStore) : List (Nat × Nat) := s.entries.map fun x => (x.1.length, x.2.length)

theorem stateRoot_eq (P : Prim) (s : StateStore) : s.stateRoot P = P.hash (domainContractState ++ rootBytes s) := rfl

theorem pieces_inj : ∀ {l m : List (List UInt8 × List UInt8)},
    (l.map fun x => (x.1.length, x.2.length)) = (m.map fun x => (x.1.length, x.2.length)) →
    (l.flatMap fun x => x.1 ++ x.2) = (m.flatMap fun x => x.1 ++ x.2) → l = m := by
  intro l
  induction l with
  | nil =>
    intro m hcuts _
    exact (List.map_eq_nil_iff.mp hcuts.symm).symm
  | cons x l ih =>
    intro m hcuts hbytes
    cases m with
    | nil => cases hcuts
    | cons y m =>
      obtain ⟨hlen, hcuts⟩ := List.cons.inj hcuts
      obtain ⟨hk, hv⟩ := Prod.mk.inj hlen
      rw [List.flatMap_cons, List.flatMap_cons, List.append_assoc, List.append_assoc] at hbytes
      obtain ⟨hkey, hbytes⟩ := List.append_inj hbytes hk
      obtain ⟨hval, hbytes⟩ := List.append_inj hbytes hv
      rw [ih hcuts hbytes, Prod.ext hkey hval]

theorem state_ext {s s' : StateStore} (hcuts : cuts s = cuts s') (hbytes : rootBytes s = rootBytes s') : s = s' := by
  have hentries : s.entries = s'.entries := pieces_inj hcuts hbytes
  cases s
  cases s'
  cases hentries
  rfl

/-- Two states whose hashed bytes do not collide. -/
theorem stateRoot_commits_iff {P : Prim} {s s' : StateStore}
    (hc : NoCollision P.hash (domainContractState ++ rootBytes s) (domainContractState ++ rootBytes s')) :
    (s.stateRoot P = s'.stateRoot P → s = s') ↔ ¬ (rootBytes s = rootBytes s' ∧ cuts s ≠ cuts s') := by
  rw [stateRoot_eq, stateRoot_eq]
  constructor
  · rintro h ⟨hbytes, hcuts⟩
    have heq : s = s' := h (by rw [hbytes])
    exact hcuts (by rw [heq])
  · intro hno hroot
    have hbytes : rootBytes s = rootBytes s' := List.append_cancel_left (hc hroot)
    exact state_ext (not_not.mp fun hcuts => hno ⟨hbytes, hcuts⟩) hbytes

theorem stateRoot_commits_small :
    ∃ s s', StateStore.set .empty [1] [2] = .ok s ∧ StateStore.set .empty [1] [3] = .ok s' ∧
    (s.stateRoot Prim.sample = s'.stateRoot Prim.sample → s = s') := by
  refine ⟨_, _, rfl, rfl, (stateRoot_commits_iff fun h => ?_).mpr (by decide)⟩
  exact absurd h (by decide +kernel)

/-- "a" with "bc", and "ab" with "c". -/
theorem pieces_collide : ∃ s s', StateStore.set .empty [0x61] [0x62, 0x63] = .ok s ∧
    StateStore.set .empty [0x61, 0x62] [0x63] = .ok s' ∧ s ≠ s' ∧ ∀ P : Prim, s.stateRoot P = s'.stateRoot P :=
  ⟨_, _, rfl, rfl, by decide, fun _ => rfl⟩

end Frg.Contract
