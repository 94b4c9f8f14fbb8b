/-
  Frg.Consensus.Lock — the lock of an engine over whole runs, crashes included.

  Three paths break it: `broadcastProposal` prevotes the engine's own proposal without
  asking the lock, `restartRound` unlocks after any precommit quorum without a block, and
  the lock is persisted only with the engine's own precommit, so a crash can lose it.

    - `lock_discipline`: in every run that stays off these paths (`LockStep`), a prevote
      cast under a lock is for the locked block or nil, and a lock on a block gives way
      only to a later polka for another hash or to the block's refusal by the chain.
    - `lock_broken`: an engine prevotes its own proposal against its lock, and another one
      drops its lock on a mixed precommit quorum.
-/

import Frg.Consensus.Heights

namespace Frg.Consensus

open Frg.Lib Frg.Core Frg.Wire Frg.Chain Relation

/-! ## Why a lock may go -/

/-- More than two thirds prevoted another hash than `x` in a round after `lockedRound`. -/
def Entry.laterPolka (height : UInt64) (x : Hash) (lockedRound : Int32) : Entry → Bool
  | .polka h r y => h = height && y ≠ x && lockedRound.toInt < r.toNat
  | _ => false

/-- The history gives a reason to release the lock on `x`. -/
def Released (height : UInt64) (x : Hash) (lockedRound : Int32) (history : List Entry) : Prop :=
  (∃ a ∈ history, a.laterPolka height x lockedRound = true) ∨ Entry.refused height x ∈ history

instance (height : UInt64) (x : Hash) (lockedRound : Int32) (history : List Entry) :
    Decidable (Released height x lockedRound history) := inferInstanceAs (Decidable (_ ∨ _))

theorem Released.mono {height : UInt64} {x : Hash} {lr lr' : Int32} {l l' : List Entry}
    (h : Released height x lr' l) (hr : lr.toInt ≤ lr'.toInt) (hl : l <:+ l') : Released height x lr l' := by
  rcases h with ⟨a, ha, hp⟩ | h
  · refine Or.inl ⟨a, hl.subset ha, ?_⟩
    cases a with
    | polka h r y =>
      simp only [Entry.laterPolka, Bool.and_eq_true, decide_eq_true_eq] at hp ⊢
      exact ⟨hp.1, lt_of_le_of_lt hr hp.2⟩
    | _ => cases hp
  · exact Or.inr (hl.subset h)

variable {σ : Type} {c : Config σ} {order : MapOrder} {e e' : Engine σ} {i : Input}

/-- The steps that leave the lock alone: the engine puts its own proposal forward only
    unlocked or for the locked block; a round is restarted under a lock on `x` only when the
    precommits are for `x` and the engine holds it, or after a later polka for another hash;
    and the rounds stay below `2 ^ 31`. -/
structure Disciplined (c : Config σ) (order : MapOrder) (e : Engine σ) (i : Input) : Prop where
  own : ∀ p ∈ proposing c e i, e.rs.lockedBlock = none ∨
    e.rs.lockedBlock = some (blockHashForChain c.W.toPrim p c.chainID)
  restart : (pending c order e i).restarts = true → e.rs.round.toNat + 1 < 2 ^ 31 ∧
    ∀ x ∈ e.rs.lockedBlock, x ≠ 0 → (quorumOf order e i = some x ∧ Holds c e.rs x) ∨
      ∃ a ∈ e.history, a.laterPolka e.rs.height x e.rs.lockedRound = true
  rounds : i = .precommitTimeout → e.rs.round.toNat + 1 < 2 ^ 31

instance : Decidable (Disciplined c order e i) :=
  decidable_of_iff ((∀ p ∈ proposing c e i, _) ∧ (_ → _ ∧ ∀ x ∈ e.rs.lockedBlock, _) ∧ (_ → _))
    ⟨fun h => ⟨h.1, h.2.1, h.2.2⟩, fun h => ⟨h.own, h.restart, h.rounds⟩⟩

/-- A step of a node, or a crash after which the persisted round state has the same lock. -/
def LockStep : Config σ → Engine σ → Engine σ → Prop :=
  Regime.Step ⟨Disciplined, fun c e disk _ history =>
    disk = e.disk ∧ history = e.history ∧ (restored c e.disk).lockedBlock = e.rs.lockedBlock⟩

/-! ## The invariant -/

/-- A lock is from this round or an earlier one, from an earlier one before the precommit. -/
structure LockedBefore (rs : RoundState) : Prop where
  small : rs.round.toNat < 2 ^ 31
  le : rs.lockedBlock ≠ none → rs.lockedRound.toInt ≤ rs.round.toNat
  lt : rs.lockedBlock ≠ none → rs.phase = .propose ∨ rs.phase = .prevote → rs.lockedRound.toInt < rs.round.toNat

structure LockInv (s : Core) : Prop where
  casts : ∀ h r x y, Entry.cast .prevote h r x (some y) ∈ s.history → x = y ∨ x = 0
  rs : LockedBefore s.rs
  snapshot : ∀ rs, s.snapshot = some rs → LockedBefore rs

/-- The lock of `s` is still there, or there is a reason that it is not. -/
structure LockKept (s s' : Core) : Prop where
  height : s'.rs.height = s.rs.height
  history : s.history <:+ s'.history
  lock : ∀ x ∈ s.rs.lockedBlock, x ≠ 0 →
    (s'.rs.lockedBlock = some x ∧ s.rs.lockedRound.toInt ≤ s'.rs.lockedRound.toInt) ∨
      Released s.rs.height x s.rs.lockedRound s'.history

theorem LockKept.trans {s s' s'' : Core} (h : LockKept s s') (h' : LockKept s' s'') : LockKept s s'' := by
  refine ⟨h'.height.trans h.height, h.history.trans h'.history, fun x hx hne => ?_⟩
  rcases h.lock x hx hne with ⟨hl, hr⟩ | hrel
  · rcases h'.lock x hl hne with ⟨hl', hr'⟩ | hrel
    · exact Or.inl ⟨hl', hr.trans hr'⟩
    · rw [h.height] at hrel
      exact Or.inr (hrel.mono hr (List.suffix_refl _))
  · exact Or.inr (hrel.mono le_rfl h'.history)

theorem LockKept.same {s s' : Core} (hh : s'.rs.height = s.rs.height) (hl : s'.rs.lockedBlock = s.rs.lockedBlock)
    (hr : s'.rs.lockedRound = s.rs.lockedRound) (hs : s.history <:+ s'.history) : LockKept s s' :=
  ⟨hh, hs, fun x hx _ => Or.inl ⟨hl.trans hx, by rw [hr]⟩⟩

/-- The rules of `Disciplined`. -/
def lockRules : Rules where
  stakes _ := True
  vote _ := True
  own l h := l = some h
  restart s := ∀ x ∈ s.rs.lockedBlock, x ≠ 0 → Released s.rs.height x s.rs.lockedRound s.history
  advance r := r.toNat + 1 < 2 ^ 31
  reserve _ _ _ _ := True
  proposal _ _ := True
  tx _ := True

theorem toInt_toInt32 {r : UInt32} (h : r.toNat < 2 ^ 31) : r.toInt32.toInt = r.toNat := by
  show r.toBitVec.toInt = _
  rw [BitVec.toInt_eq_toNat_of_lt (show 2 * r.toNat < 2 ^ 32 by omega)]
  rfl

theorem cast_casts {s : Core} {t : VoteType} {h : Hash} {w : Bool}
    (hs : ∀ h r x y, Entry.cast .prevote h r x (some y) ∈ s.history → x = y ∨ x = 0)
    (hnew : t = .prevote → h = 0 ∨ s.rs.lockedBlock = none ∨ s.rs.lockedBlock = some h) :
    ∀ h' r x y, Entry.cast .prevote h' r x (some y) ∈ (s.cast t h w).history → x = y ∨ x = 0 := by
  intro h' r x y hm
  unfold Core.cast at hm
  split at hm
  · exact hs h' r x y hm
  · rcases List.mem_cons.mp hm with hm | hm
    · obtain ⟨ht, -, -, hx, hl⟩ := Entry.cast.inj hm
      rcases hnew ht.symm with h0 | hn | hsame
      · exact Or.inr (hx.trans h0)
      · rw [hn] at hl
        cases hl
      · rw [hsame] at hl
        exact Or.inl (hx.trans (Option.some.inj hl).symm)
    · exact hs h' r x y hm

theorem LockInv.move {s s' : Core} (h : LockInv s) (hm : Move c lockRules s s') : LockInv s' := by
  have hskip : ∀ {x : Entry}, (∀ h r y l, x ≠ .cast .prevote h r y (some l)) →
      ∀ h r y l, Entry.cast .prevote h r y (some l) ∈ x :: s.history → y = l ∨ y = 0 := by
    intro x hx h' r y l hm
    rcases List.mem_cons.mp hm with hm | hm
    · exact absurd hm.symm (hx _ _ _ _)
    · exact h.casts h' r y l hm
  cases hm with
  | prevote | precommit => exact ⟨h.casts, ⟨h.rs.small, h.rs.le, h.rs.lt⟩, h.snapshot⟩
  | polka => exact ⟨hskip (by simp), h.rs, h.snapshot⟩
  | refuse => exact ⟨hskip (by simp), h.rs, h.snapshot⟩
  | persist => exact ⟨h.casts, h.rs, fun rs hrs => Option.some.inj hrs ▸ h.rs⟩
  | lock x vals w hs hp hd hpol =>
    refine ⟨cast_casts (hskip (by simp)) nofun, ?_, by rw [Core.cast_snapshot]; exact h.snapshot⟩
    rw [Core.cast_rs]
    refine ⟨h.rs.small, fun _ => ?_, fun _ hp => ?_⟩
    · exact (toInt_toInt32 h.rs.small).le
    · rcases hp with hp | hp <;> cases hp
  | abstain w hp =>
    refine ⟨cast_casts h.casts nofun, ?_, by rw [Core.cast_snapshot]; exact h.snapshot⟩
    rw [Core.cast_rs]
    refine ⟨h.rs.small, h.rs.le, fun _ hp => ?_⟩
    rcases hp with hp | hp <;> cases hp
  | enter x p w hp hx =>
    refine ⟨cast_casts h.casts fun _ => ?_, ?_, by rw [Core.cast_snapshot]; exact h.snapshot⟩
    · rcases hx with hx | hx | hx | hx
      · exact Or.inl hx
      · exact Or.inr (Or.inl hx)
      · exact Or.inr (Or.inr hx)
      · exact Or.inr (Or.inr hx)
    · rw [Core.cast_rs]
      exact ⟨h.rs.small, h.rs.le, fun hl _ => h.rs.lt hl (Or.inl hp)⟩
  | next ha =>
    have hsucc : (s.rs.round + 1).toNat = s.rs.round.toNat + 1 := toNat_succ (lt_trans ha (by norm_num))
    have hlt : s.rs.lockedBlock ≠ none → s.rs.lockedRound.toInt < (s.rs.round + 1).toNat := fun hl => by
      have := h.rs.le hl
      omega
    exact ⟨h.casts, ⟨hsucc ▸ ha, fun hl => (hlt hl).le, fun hl _ => hlt hl⟩, h.snapshot⟩
  | restart hr ha =>
    have hsucc : (s.rs.round + 1).toNat = s.rs.round.toNat + 1 := toNat_succ (lt_trans ha (by norm_num))
    exact ⟨hskip (by simp), ⟨hsucc ▸ ha, fun hl => absurd rfl hl, fun hl => absurd rfl hl⟩, h.snapshot⟩
  | decide hp =>
    refine ⟨h.casts, ⟨h.rs.small, h.rs.le, fun _ hp => ?_⟩, h.snapshot⟩
    rcases hp with hp | hp <;> cases hp

theorem lockedBefore_first {rs : RoundState} (hr : rs.round = 0) (hl : rs.lockedBlock = none) : LockedBefore rs :=
  ⟨by rw [hr]; decide, fun h => absurd hl h, fun h => absurd hl h⟩

theorem LockInv.next {s s' : Core} {x : Hash} (h : LockInv s) (hn : Next s s' x) : LockInv s' := by
  have hbefore : LockedBefore s'.rs := lockedBefore_first (by rw [hn.rs]; rfl) (by rw [hn.rs]; rfl)
  refine ⟨fun h' r y l hm => ?_, hbefore, fun rs hsnap => ?_⟩
  · rw [hn.history] at hm
    simp only [List.mem_cons, reduceCtorEq, false_or] at hm
    exact h.casts h' r y l hm
  · rcases hn.snapshot with hs | hs | hs
    · rw [hs] at hsnap
      cases hsnap
    · exact h.snapshot rs (hs ▸ hsnap)
    · rw [hs] at hsnap
      exact Option.some.inj hsnap ▸ hbefore

theorem LockInv.kept {s s' : Core} (h : LockInv s) (hm : Move c lockRules s s') : LockKept s s' := by
  cases hm with
  | prevote | precommit | next | decide | persist => exact .same rfl rfl rfl (List.suffix_refl _)
  | polka | refuse => exact .same rfl rfl rfl (List.suffix_cons _ _)
  | abstain w hp => exact .same (by simp; rfl) (by simp; rfl) (by simp; rfl) (Core.cast_history (s.on _) _ _ _)
  | enter x p w hp hx => exact .same (by simp; rfl) (by simp; rfl) (by simp; rfl) (Core.cast_history (s.on _) _ _ _)
  | lock y vals w hs hp hd hpol =>
    have hhist := (Move.lock (c := c) (ρ := lockRules) s y vals w hs hp hd hpol trivial).history
    refine ⟨by simp; rfl, hhist, fun x hx hne => ?_⟩
    by_cases hxy : y = x
    · subst hxy
      refine Or.inl ⟨by simp; rfl, ?_⟩
      rw [Core.cast_rs]
      exact (h.rs.le (by rw [hx]; exact nofun)).trans (toInt_toInt32 h.rs.small).ge
    · -- the new lock comes with the polka that permits it
      refine Or.inr (Or.inl ⟨_, hhist.subset hpol, ?_⟩)
      have hlt := h.rs.lt (by rw [hx]; exact nofun) (Or.inr hp)
      simp [Entry.laterPolka, hxy, hlt]
  | restart hr ha =>
    exact ⟨rfl, List.suffix_cons _ _, fun x hx hne => Or.inr ((hr x hx hne).mono le_rfl (List.suffix_cons _ _))⟩

theorem LockInv.moves {s s' : Core} (h : LockInv s) (hm : Moves c lockRules s s') : LockInv s' :=
  run_keeps (fun h hm => h.move hm) hm h

theorem LockInv.movesKept {s s' : Core} (h : LockInv s) (hm : Moves c lockRules s s') : LockKept s s' := by
  induction hm with
  | refl => exact .same rfl rfl rfl (List.suffix_refl _)
  | tail hms hm ih => exact ih.trans ((h.moves hms).kept hm)

/-! ## Runs -/

theorem LockedBefore.decoded {rs rs' : RoundState} (h : LockedBefore rs) (hread : decodeRoundState c rs = some rs') :
    LockedBefore rs' := by
  obtain ⟨_, _, rfl⟩ := decodeRoundState_some c hread
  refine ⟨h.small, fun hl => ?_, fun hl hp => ?_⟩
  · dsimp only
    rw [if_neg hl]
    exact h.le hl
  · dsimp only
    rw [if_neg hl]
    exact h.lt hl hp

theorem start_lockInv {disk : Disk} {pool : σ} {history : List Entry}
    (hc : ∀ h r x y, Entry.cast .prevote h r x (some y) ∈ history → x = y ∨ x = 0)
    (hs : ∀ rs, disk.snapshot = some rs → LockedBefore rs) : LockInv (start c disk pool history).core := by
  obtain ⟨hrs, hsnap⟩ := start_keeps c (lockedBefore_first rfl rfl) LockedBefore.decoded hs pool history
  refine ⟨?_, hrs, hsnap⟩
  show ∀ h r x y, _ ∈ (start c disk pool history).history → _
  rw [(start_started c disk pool history).history]
  exact hc

theorem Disciplined.permits (h : Disciplined c order e i) : Permits c lockRules order e i := by
  refine ⟨trivial, fun _ _ _ => trivial, fun p hp => h.own p hp, fun e₁ he₁ => ?_, h.rounds, fun _ _ => trivial,
    .free (fun _ _ => trivial) (fun _ => trivial) _ _ _⟩
  obtain ⟨hround, hlock⟩ := h.restart (by rw [he₁]; rfl)
  have hund := (pending_restart (h := 0) he₁).1
  refine ⟨fun x hx hne => ?_, show e₁.rs.round.toNat + 1 < _ by rw [hund.round]; exact hround⟩
  have hhist : e.history <:+ e₁.history := by
    rcases hund.history with hh | ⟨y, hh⟩
    · exact hh ▸ List.suffix_refl _
    · exact hh ▸ List.suffix_cons _ _
  have hx' : e.rs.lockedBlock = some x := hund.lockedBlock.symm.trans hx
  show Released e₁.rs.height x e₁.rs.lockedRound e₁.history
  rw [hund.height, hund.lockedRound]
  rcases hlock x hx' hne with ⟨hq, hh⟩ | hp
  · exact Or.inr ((pending_restart he₁).2 hq hne hh)
  · exact Released.mono (Or.inl hp) le_rfl hhist

theorem LockStep.inv (hs : LockStep c e e') (h : LockInv e.core) : LockInv e'.core := by
  obtain ⟨_, hs⟩ := hs
  cases hs with
  | crash hf =>
    obtain ⟨rfl, rfl, -⟩ := hf
    exact start_lockInv h.casts h.snapshot
  | @input fault order i _ hd hs =>
    have hd : Disciplined (c.failing fault) order e i := hd
    obtain ⟨-, rfl⟩ := step_eq_some hs
    rcases handle_core hd.permits with hm | ⟨s, x, -, hm, -, hn⟩
    · exact h.moves hm
    · exact (h.moves hm).next hn

/-- Within a height the lock stays, or there is a reason that it does not. -/
theorem LockStep.kept (hs : LockStep c e e') (h : LockInv e.core) (hh : e'.rs.height = e.rs.height) {x : Hash}
    (hx : e.rs.lockedBlock = some x) (hne : x ≠ 0) :
    e'.rs.lockedBlock = some x ∨ Released e.rs.height x e.rs.lockedRound e'.history := by
  obtain ⟨_, hs⟩ := hs
  cases hs with
  | @crash _ pool _ hf =>
    obtain ⟨rfl, rfl, hl⟩ := hf
    rw [(start_started c e.disk pool e.history).rs, hl]
    exact Or.inl hx
  | @input fault order i _ hd hs =>
    have hd : Disciplined (c.failing fault) order e i := hd
    obtain ⟨-, rfl⟩ := step_eq_some hs
    have hno : ∀ x e₁, pending (c.failing fault) order e i ≠ .committed x e₁ := by
      intro x e₁ hp
      have hcom := (handle_commits (.free (c.failing fault) order e i) hp).1.height
      rw [popped_rs, hh] at hcom
      exact height_ne_succ _ hcom
    have hkept := LockInv.movesKept (c := c.failing fault) h
      (popped_core (e := e) (i := i) ▸ (handle_runs hd.permits hno).moves)
    exact (hkept.lock x hx hne).imp And.left id

/-- In every run without the three paths, prevotes obey the lock and the lock is released
    only for a reason. -/
theorem lock_discipline {db : DB} {slots : List (UInt64 × UInt32 × VoteType)} {pool : σ}
    (hrun : ReflTransGen (LockStep c) (start c ⟨db, slots, none⟩ pool []) e) :
    (∀ h r x y, Entry.cast .prevote h r x (some y) ∈ e.history → x = y ∨ x = 0) ∧
      ∀ e', LockStep c e e' → e'.rs.height = e.rs.height → ∀ x, e.rs.lockedBlock = some x → x ≠ 0 →
        e'.rs.lockedBlock = some x ∨ Released e.rs.height x e.rs.lockedRound e'.history := by
  suffices h : LockInv e.core from ⟨h.casts, fun e' hs hh x hx hne => hs.kept h hh hx hne⟩
  have hstart : LockInv (start c ⟨db, slots, none⟩ pool []).core :=
    start_lockInv (fun _ _ _ _ h => absurd h List.not_mem_nil) nofun
  exact run_keeps (I := fun e => LockInv e.core) (fun h hs => hs.inv h) hrun hstart

/-! ## Three validators -/

/-- Validators 1 and 3 with one share of the stake, validator 2 with two: two thirds are
    passed by 1 and 2, and by 2 and 3. -/
def threeDB : DB := { DB.new with
  validators := ((Bucket.empty.put 1 (.fresh (1000 * 10 ^ 18) 0)).put 2 (.fresh (2000 * 10 ^ 18) 0)).put 3
    (.fresh (1000 * 10 ^ 18) 0) }

def member (self : Key) : Engine Mempool :=
  start (.node World.sample defaultChainID self) ⟨threeDB, [], none⟩ (.new defaultCap) []

/-- Validator 2's proposal for the first round: no transactions. -/
def firstProposal : BlockProposal := propose Prim.sample 2 defaultChainID (.new defaultCap) 1 0 {} 0

def firstHash : Hash := blockHashForChain Prim.sample firstProposal defaultChainID

def sent (p : BlockProposal) : Input :=
  .proposal (match serializeProposal Prim.sample p with | .ok raw => raw | _ => [])

def ballot (self : Key) (type : VoteType) (round : UInt32) (h : Hash) : Input :=
  .vote (serializeVote (signVote (.node World.sample defaultChainID self) type 1 round h))

/-- The run of one member, as long as it keeps to the discipline. -/
def disciplinedRun (self : Key) (is : List Input) : Option (Engine Mempool) :=
  let c := Config.node World.sample defaultChainID self
  is.foldlM (fun e i => if Disciplined c .id e i then step c .id e i else none) (member self)

theorem disciplinedRun_reaches {self : Key} {is : List Input} {e : Engine Mempool}
    (h : disciplinedRun self is = some e) :
    ReflTransGen (LockStep (.node World.sample defaultChainID self)) (member self) e := by
  refine foldlM_reaches (fun a i b hf => ?_) h
  split at hf
  · exact .input (fun _ => none) ‹_› hf
  · cases hf

/-- Validator 3 prevotes and locks the first proposal. -/
def lockedFirst : List Input := [sent firstProposal, .resume, .resume, ballot 2 .prevote 0 firstHash, .resume]

theorem lock_discipline_lockedFirst : ∃ e, disciplinedRun 3 lockedFirst = some e ∧
    e.rs.lockedBlock = some firstHash ∧
    (∀ h r x y, Entry.cast .prevote h r x (some y) ∈ e.history → x = y ∨ x = 0) ∧
      ∀ e', LockStep (.node World.sample defaultChainID 3) e e' → e'.rs.height = e.rs.height →
        ∀ x, e.rs.lockedBlock = some x → x ≠ 0 →
          e'.rs.lockedBlock = some x ∨ Released e.rs.height x e.rs.lockedRound e'.history := by
  have hrun : (disciplinedRun 3 lockedFirst).map (·.rs.lockedBlock) = some (some firstHash) := by decide +kernel
  obtain ⟨e, he, hl⟩ := Option.map_eq_some_iff.mp hrun
  exact ⟨e, he, hl, lock_discipline (disciplinedRun_reaches he)⟩

def memberRun (self : Key) (is : List Input) : Option (Engine Mempool) :=
  is.foldlM (step (.node World.sample defaultChainID self) .id) (member self)

/-- Validator 2 proposes, prevotes and locks the first proposal. -/
def lockedOwn : List Input := [.delayElapsed, .proposeReady, .resume, ballot 1 .prevote 0 firstHash, .resume]

/-- Validator 3, locked on the first proposal, prevotes its own one after a timeout; validator
    2 drops the same lock when validator 3 precommits nil. -/
theorem lock_broken :
    (memberRun 3 lockedFirst).map (·.rs.lockedBlock) = some (some firstHash) ∧
    (memberRun 3 (lockedFirst ++ [.precommitTimeout])).map (fun e => e.history.any fun
      | .cast .prevote 1 1 x (some y) => y = firstHash && x ≠ y && x ≠ 0
      | _ => false) = some true ∧
    (memberRun 2 lockedOwn).map (fun e => (e.rs.height, e.rs.lockedBlock)) = some (1, some firstHash) ∧
    (memberRun 2 (lockedOwn ++ [ballot 3 .precommit 0 0])).map (fun e =>
      (e.rs.height, e.rs.lockedBlock, decide (Released 1 firstHash 0 e.history))) = some (1, none, false) := by
  decide +kernel

end Frg.Consensus
