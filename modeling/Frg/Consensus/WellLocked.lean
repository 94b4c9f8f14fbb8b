/-
  Frg.Consensus.WellLocked — the two fields of a lock, `LockedBlock` and `LockedRound`.

  Unlocked they are nil and -1; a lock is on a block and not from a later round. `Lock` and
  `Unlock` write both fields and the snapshot decoder puts -1 beside a missing block, but
  `startNextRound` resets the block alone, and the lock of a prevote quorum is also taken when
  the quorum is for nil. So the round of a lock outlives its height, and an engine can be
  locked on the nil hash.

    - `handle_lockView`: what one step does to the lock and the round, and which locks it may
      have persisted meanwhile.
    - `well_locked_iff`: as long as no block is committed under a lock and no prevote quorum is
      for nil, locks are well formed, over restarts too; and a step that does one of the two
      leaves one that is not.
    - `locks_malformed`: a committed block leaves the round of its lock, and a round without a
      proposal ends in a lock on nil.
-/

import Frg.Consensus.Lock
import Frg.Consensus.Attesting
import Frg.Consensus.Mempool

namespace Frg.Consensus

open Frg.Lib Frg.Core Frg.Wire Frg.Chain Relation

/-- The lock of a round state, and the round it is in. -/
structure LockView where
  lockedBlock : Option Hash
  lockedRound : Int32
  round : UInt32
  deriving DecidableEq, Repr

def RoundState.lockView (rs : RoundState) : LockView := ⟨rs.lockedBlock, rs.lockedRound, rs.round⟩

structure WellLocked (l : LockView) : Prop where
  unlocked : l.lockedBlock = none ↔ l.lockedRound = -1
  real : l.lockedBlock ≠ some 0
  past : l.lockedBlock ≠ none → l.lockedRound.toInt ≤ l.round.toNat

variable {σ : Type} {c : Config σ} {order : MapOrder} {vals : Stakes} {e e₁ e₂ : Engine σ} {i : Input}

/-! ## What a step does to the lock -/

/-- The lock and the round are `l` now, and every round state persisted since `e` has that
    lock or the one of `e`. -/
structure Locks (e : Engine σ) (l : LockView) (e₁ : Engine σ) : Prop where
  view : e₁.rs.lockView = l
  snapshot : ∀ rs, e₁.disk.snapshot = some rs → e.disk.snapshot = some rs ∨ rs.lockView = e.rs.lockView ∨
    rs.lockView = l

/-- The lock and the round stay as they are. -/
def Unmoved (e e₁ : Engine σ) : Prop := Locks e e.rs.lockView e₁

theorem Unmoved.of_eq (hrs : e₁.rs.lockView = e.rs.lockView) (hd : e₁.disk.snapshot = e.disk.snapshot) : Unmoved e e₁ :=
  ⟨hrs, fun _ h => .inl (hd ▸ h)⟩

theorem Unmoved.refl (e : Engine σ) : Unmoved e e := .of_eq rfl rfl

theorem Locks.then {l : LockView} (h : Locks e l e₁) (h' : Unmoved e₁ e₂) : Locks e l e₂ := by
  refine ⟨h'.view.trans h.view, fun rs hs => ?_⟩
  rcases h'.snapshot rs hs with hs | hs | hs
  · exact h.snapshot rs hs
  · exact .inr (.inr (hs.trans h.view))
  · exact .inr (.inr (hs.trans h.view))

theorem Locks.after {l : LockView} (h : Locks e₁ l e₂) (h' : Unmoved e e₁) : Locks e l e₂ := by
  refine ⟨h.view, fun rs hs => ?_⟩
  rcases h.snapshot rs hs with hs | hs | hs
  · exact (h'.snapshot rs hs).imp id fun hs => .inl (or_self_iff.mp hs)
  · exact .inr (.inl (hs.trans h'.view))
  · exact .inr (.inr hs)

theorem Unmoved.trans (h : Unmoved e e₁) (h' : Unmoved e₁ e₂) : Unmoved e e₂ := Locks.then h h'

theorem castVote_unmoved (t : VoteType) (h : Hash) : Unmoved e (castVote c t h vals e) := by
  unfold castVote
  split
  · exact .refl e
  · exact .of_eq rfl rfl

theorem Unmoved.cast {t : VoteType} {h : Hash} (hu : Unmoved e e₁) : Unmoved e (castVote c t h vals e₁) :=
  hu.trans (castVote_unmoved t h)

theorem persist_unmoved : Unmoved e (e.persist c) := by
  refine ⟨by rw [persist_rs], fun rs hs => ?_⟩
  unfold Engine.persist at hs
  split at hs
  · exact .inr (.inl (congrArg _ (Option.some.inj hs).symm))
  · exact .inl hs

theorem broadcastProposal_unmoved : Unmoved e (broadcastProposal c vals e) := by
  unfold broadcastProposal
  split
  · exact .refl e
  · split
    · exact .refl e
    · rename_i p _ _
      have hset : Unmoved e { e with rs := { e.rs with proposal := some p, phase := .prevote } } := .of_eq rfl rfl
      exact (hset.trans persist_unmoved).cast

theorem rejectProposal_unmoved : Unmoved e (rejectProposal c e) := by
  unfold rejectProposal
  split
  · exact .refl e
  · exact .of_eq rfl rfl

/-- The lock of a round that is given up, and the round behind it. -/
def RoundState.nextView (rs : RoundState) : LockView := ⟨rs.lockedBlock, rs.lockedRound, rs.round + 1⟩

theorem onPrecommitTimeout_locks : Locks e e.rs.nextView (onPrecommitTimeout c e) := by
  have hnext : Locks e e.rs.nextView (({ e with rs := e.rs.incrementRound
                                                proposeTimer := some (e.rs.height, e.rs.round + 1) } :
      Engine σ).push .persist) := ⟨rfl, fun _ h => .inl h⟩
  unfold onPrecommitTimeout
  dsimp only
  split
  · exact hnext.then broadcastProposal_unmoved
  · exact hnext

theorem restartRound_locks : Locks e ⟨none, -1, e.rs.round + 1⟩ (restartRound c e) := by
  have hnext : Locks e ⟨none, -1, e.rs.round + 1⟩ (({ e with rs := e.rs.unlock.incrementRound
                                                             history := .unlocked :: e.history
                                                             proposeTimer := some (e.rs.height, e.rs.round + 1) } :
      Engine σ).push .persist) := ⟨rfl, fun _ h => .inl h⟩
  unfold restartRound
  dsimp only
  split
  · exact hnext.then broadcastProposal_unmoved
  · exact hnext

theorem startNextRound_locks : Locks e ⟨none, e.rs.lockedRound, 0⟩ (startNextRound c vals e) := by
  obtain ⟨e₁, heq, hcore, -, hdisk, -, -⟩ := startNextRound_eq c vals e
  have hrs : e₁.rs = e.rs.nextHeight := congrArg Core.rs hcore
  have hnext : Locks e ⟨none, e.rs.lockedRound, 0⟩ e₁ := by
    refine ⟨by rw [hrs]; rfl, fun rs hs => .inl ?_⟩
    rw [hdisk] at hs
    exact hs
  rw [heq]
  exact hnext.then persist_unmoved

/-! ### Votes -/

/-- The hash a vote locks the engine on: it completes a prevote quorum, and the quorum is for
    one hash. -/
def locksOn (c : Config σ) (order : MapOrder) (e : Engine σ) (i : Input) : Option Hash :=
  match incoming e i with
  | none => none
  | some (v, vals) =>
    let prevotes := e.rs.prevotes.put v.validatorPK v
    if acceptable c v vals e = true ∧ v.type = VoteType.prevote.code ∧ e.rs.prevotes.get v.validatorPK = none ∧
        quorumReached prevotes vals = true ∧ e.rs.phase = .prevote then quorumBlock order prevotes vals
    else none

/-- The lock behind a prevote. -/
def lockedBy (rs : RoundState) : Option Hash → LockView
  | some h => ⟨some h, rs.round.toInt32, rs.round⟩
  | none => rs.lockView

theorem notePolka_unmoved (q : Option Hash) : Unmoved e (e.notePolka q) := by
  cases q with
  | none => exact .refl e
  | some h => exact .of_eq rfl rfl

theorem receivePrevote_locks (order : MapOrder) {v : Vote} : Locks e (lockedBy e.rs
    (if e.rs.prevotes.get v.validatorPK = none ∧ quorumReached (e.rs.prevotes.put v.validatorPK v) vals = true ∧
        e.rs.phase = .prevote then quorumBlock order (e.rs.prevotes.put v.validatorPK v) vals else none))
    (receivePrevote c order v vals e) := by
  unfold receivePrevote
  by_cases hdup : e.rs.prevotes.get v.validatorPK = none
  · have hfirst : ¬ (e.rs.prevotes.get v.validatorPK).isSome = true := by
      rw [hdup]
      exact Bool.false_ne_true
    rw [if_neg hfirst]
    dsimp only
    set e₁ : Engine σ := { e with rs := { e.rs with prevotes := e.rs.prevotes.put v.validatorPK v } } with he₁
    set q := quorumBlock order (e.rs.prevotes.put v.validatorPK v) vals with hq
    have h1 : Unmoved e ((e₁.notePolka q).persist c) := by
      have hset : Unmoved e e₁ := .of_eq rfl rfl
      exact (hset.trans (notePolka_unmoved q)).trans persist_unmoved
    have hrs : ((e₁.notePolka q).persist c).rs = e₁.rs := by
      rw [persist_rs]
      cases q <;> rfl
    rw [hrs]
    by_cases hdone : quorumReached (e.rs.prevotes.put v.validatorPK v) vals = true ∧ e.rs.phase = .prevote
    · rw [if_pos ⟨hdup, hdone⟩, if_pos hdone]
      cases hcase : q with
      | none =>
        rw [hcase] at h1
        dsimp only
        have hset : Unmoved ((e₁.notePolka none).persist c)
            { ((e₁.notePolka none).persist c).setPhase .precommit with
              prevoteTimer := none, precommitTimer := some (Engine.now ((e₁.notePolka none).persist c)) } :=
          .of_eq rfl rfl
        exact (h1.trans hset).cast
      | some h =>
        rw [hcase] at h1 hrs
        dsimp only
        have hset : Locks ((e₁.notePolka (some h)).persist c) ⟨some h, e.rs.round.toInt32, e.rs.round⟩
            (Engine.lock { ((e₁.notePolka (some h)).persist c).setPhase .precommit with
              prevoteTimer := none, precommitTimer := some (Engine.now ((e₁.notePolka (some h)).persist c)) } h) := by
          refine ⟨?_, fun _ h => .inl h⟩
          show LockView.mk (some h) ((e₁.notePolka (some h)).persist c).rs.round.toInt32
            ((e₁.notePolka (some h)).persist c).rs.round = _
          rw [hrs]
        exact (hset.then (castVote_unmoved _ _)).after h1
    · rw [if_neg fun h => hdone h.2, if_neg hdone]
      exact h1
  · have hsecond : (e.rs.prevotes.get v.validatorPK).isSome = true := Option.isSome_iff_ne_none.mpr hdup
    rw [if_pos hsecond, if_neg fun h => hdup h.1]
    exact Unmoved.refl e

theorem tryCommit_unmoved {h : Hash} : Unmoved e (tryCommit c order h e).engine := by
  unfold tryCommit
  split
  · rename_i e' hok
    obtain ⟨p, bytes, r, db, -, -, -, -, rfl⟩ := commit_ok c hok
    refine ⟨rfl, fun rs hs => .inl ?_⟩
    have hs : (if c.fault .clear = none then none else e.disk.snapshot) = some rs := hs
    split at hs
    · cases hs
    · exact hs
  · have hnote : Unmoved e (e.note (.refused e.rs.height h)) := .of_eq rfl rfl
    exact hnote.trans rejectProposal_unmoved
  · exact rejectProposal_unmoved
  · exact .refl e

theorem receivePrecommit_unmoved {v : Vote} : Unmoved e (receivePrecommit c order v vals e).engine := by
  unfold receivePrecommit
  split
  · exact .refl e
  · dsimp only
    set e₁ : Engine σ := { e with rs := { e.rs with precommits := e.rs.precommits.put v.validatorPK v } }
    have hset : Unmoved e e₁ := .of_eq rfl rfl
    have h1 : Unmoved e (e₁.persist c) := hset.trans persist_unmoved
    split
    · split
      · split
        · have h2 : Unmoved (e₁.persist c) { (e₁.persist c).setPhase .commit with precommitTimer := none } :=
            .of_eq rfl rfl
          exact (h1.trans h2).trans tryCommit_unmoved
        · exact h1.trans rejectProposal_unmoved
      · exact h1.trans rejectProposal_unmoved
    · exact h1

theorem recommit_unmoved : Unmoved e (recommit c order e).engine := by
  unfold recommit
  split
  · split
    · exact tryCommit_unmoved
    · exact .refl e
  · exact .refl e

/-- The lock behind the end of a round. -/
def endView (rs : RoundState) : Outcome σ → LockView
  | .stay _ | .crash _ => rs.lockView
  | .restart _ => ⟨none, -1, rs.round + 1⟩
  | .committed _ _ => ⟨none, rs.lockedRound, 0⟩

theorem finish_locks {o : Outcome σ} (h : Unmoved e o.engine) (refresh : Bool) :
    Locks e (endView e.rs o) (finish c refresh o) := by
  have hview : o.engine.rs.lockView = e.rs.lockView := h.view
  obtain ⟨-, hlocked, hround⟩ := LockView.mk.inj hview
  cases o with
  | stay e' => exact h
  | crash e' => exact h.trans (.of_eq rfl rfl)
  | restart e' =>
    have hlocks : Locks e' _ (restartRound c e') := restartRound_locks
    have hround : e'.rs.round = e.rs.round := hround
    rw [hround] at hlocks
    exact hlocks.after h
  | committed x e' =>
    set e₁ : Engine σ := { e' with
      rs := { e'.rs with lastAttestation := attestationFromPrecommits e'.rs.precommits x }
      validators := if refresh then bondedAmounts e'.disk.db else e'.validators }
    have hset : Unmoved e' e₁ := .of_eq rfl rfl
    have hlocks : Locks e₁ _ (startNextRound c (bondedAmounts e'.disk.db) e₁) := startNextRound_locks
    have hlocked : e₁.rs.lockedRound = e.rs.lockedRound := hlocked
    rw [hlocked] at hlocks
    exact (hlocks.after hset).after h

/-! ### Steps -/

/-- The lock a step leaves. -/
def lockAfter (c : Config σ) (order : MapOrder) (e : Engine σ) (i : Input) : LockView :=
  if i = .precommitTimeout then e.rs.nextView
  else
    match locksOn c order e i with
    | some h => ⟨some h, e.rs.round.toInt32, e.rs.round⟩
    | none => endView e.rs (pending c order e i)

theorem popped_unmoved : Unmoved e (e.popped i) := .of_eq (by rw [popped_rs]) (by rw [popped_disk])

theorem acceptable_popped {v : Vote} : acceptable c v vals (e.popped i) = acceptable c v vals e := by
  unfold acceptable
  rw [popped_rs]

theorem incoming_locks {v : Vote} (hi : incoming e i = some (v, vals)) :
    Locks e (lockAfter c order e i) (handle c order e i) := by
  have htimeout : i ≠ .precommitTimeout := by
    rintro rfl
    cases hi
  have hpend : pending c order e i = receiveVote c order v vals (e.popped i) := by simp only [pending, hi]
  unfold lockAfter locksOn
  rw [if_neg htimeout, hpend, handle_incoming hi, hi]
  dsimp only
  unfold receiveVote
  rw [acceptable_popped]
  by_cases hacc : acceptable c v vals e = true
  · rw [if_pos hacc]
    by_cases hty : v.type = VoteType.prevote.code
    · rw [if_pos hty]
      simp only [hacc, hty, true_and]
      have hlocks : Locks (e.popped i) _ (receivePrevote c order v vals (e.popped i)) := receivePrevote_locks order
      rw [popped_rs] at hlocks
      have hlocks := hlocks.after popped_unmoved
      revert hlocks
      cases (if e.rs.prevotes.get v.validatorPK = none ∧ quorumReached (e.rs.prevotes.put v.validatorPK v) vals = true ∧
        e.rs.phase = .prevote then quorumBlock order (e.rs.prevotes.put v.validatorPK v) vals else none) with
      | some h => exact id
      | none => exact id
    · rw [if_neg hty, if_neg fun h => hty h.2.1]
      exact finish_locks (popped_unmoved.trans receivePrecommit_unmoved) false
  · rw [if_neg hacc, if_neg fun h => hacc h.1]
    exact finish_locks popped_unmoved false

theorem quiet_unmoved (hi : incoming e i = none) (ht : i ≠ .precommitTimeout)
    (htop : ¬ (i = .resume ∧ e.stack.head? = some .recommit)) : Unmoved e (handle c order e i) := by
  by_cases hr : i = .resume
  · subst hr
    cases hst : e.stack with
    | nil =>
      simp only [handle, hst]
      exact .refl e
    | cons f s =>
      cases f with
      | vote v vals => simp [incoming, hst] at hi
      | persist =>
        simp only [handle, hst]
        have hset : Unmoved e { e with stack := s } := .of_eq rfl rfl
        exact hset.trans persist_unmoved
      | recommit => exact absurd ⟨rfl, by rw [hst]; rfl⟩ htop
  · by_cases htx : ∃ t, i = .enqueue t
    · obtain ⟨t, rfl⟩ := htx
      exact .of_eq rfl rfl
    · have hreacts : Reacts c e (handle c order e i) := handle_reacts hi ht (fun t h => htx ⟨t, h⟩) hr
      generalize handle c order e i = e₂ at hreacts ⊢
      cases hreacts with
      | drops e₁ hrs hdisk _ _ => exact .of_eq (by rw [hrs]) (by rw [hdisk])
      | votes t h e₁ hturned =>
        obtain ⟨proposal, phase, hrs⟩ := hturned.rs
        have hturn : Unmoved e e₁ := .of_eq (by rw [hrs]; rfl) (by rw [hturned.disk])
        exact hturn.cast
      | proposes =>
        have hset : Unmoved e { e with ready := false } := .of_eq rfl rfl
        exact hset.trans broadcastProposal_unmoved

/-- What a step does to the lock and the round. -/
theorem handle_lockView (c : Config σ) (order : MapOrder) (e : Engine σ) (i : Input) :
    Locks e (lockAfter c order e i) (handle c order e i) := by
  cases hi : incoming e i with
  | some x => exact incoming_locks hi
  | none =>
    by_cases htimeout : i = .precommitTimeout
    · subst htimeout
      have hset : Unmoved e { e with precommitTimer := none } := .of_eq rfl rfl
      exact onPrecommitTimeout_locks.after hset
    · have hlocks : locksOn c order e i = none := by simp only [locksOn, hi]
      unfold lockAfter
      rw [if_neg htimeout, hlocks]
      dsimp only
      by_cases htop : i = .resume ∧ e.stack.head? = some .recommit
      · obtain ⟨rfl, htop⟩ := htop
        have hpend : pending c order e .resume = recommit c order (e.popped .resume) := by
          simp only [pending, hi, htop, and_self, if_true]
        have hhandle : handle c order e .resume = finish c true (recommit c order (e.popped .resume)) := by
          cases hst : e.stack with
          | nil => rw [hst] at htop; cases htop
          | cons f s =>
            rw [hst] at htop
            obtain rfl : f = .recommit := Option.some.inj htop
            simp only [handle, hst, Engine.popped, List.tail_cons]
        rw [hpend, hhandle]
        exact finish_locks (popped_unmoved.trans recommit_unmoved) true
      · have hpend : pending c order e i = .stay e := by simp only [pending, hi, if_neg htop]
        rw [hpend]
        show Unmoved e (handle c order e i)
        exact quiet_unmoved hi htimeout htop

/-! ## Well-formed locks -/

def Outcome.commits : Outcome σ → Bool
  | .committed _ _ => true
  | _ => false

/-- No prevote quorum for nil is locked on, and no block is committed while the round of a
    lock stands. -/
structure WellLocking (c : Config σ) (order : MapOrder) (e : Engine σ) (i : Input) : Prop where
  real : locksOn c order e i ≠ some 0
  unlocked : (pending c order e i).commits = true → e.rs.lockedRound = -1

instance : Decidable (WellLocking c order e i) :=
  decidable_of_iff (locksOn c order e i ≠ some 0 ∧ ((pending c order e i).commits = true → e.rs.lockedRound = -1))
    ⟨fun h => ⟨h.1, h.2⟩, fun h => ⟨h.real, h.unlocked⟩⟩

theorem locksOn_stays {h : Hash} (hl : locksOn c order e i = some h) : ∃ e₁, pending c order e i = .stay e₁ := by
  unfold locksOn at hl
  cases hi : incoming e i with
  | none =>
    rw [hi] at hl
    cases hl
  | some x =>
    obtain ⟨v, vals⟩ := x
    rw [hi] at hl
    dsimp only at hl
    split at hl
    · rename_i hall
      refine ⟨receivePrevote c order v vals (e.popped i), ?_⟩
      simp only [pending, hi]
      unfold receiveVote
      rw [acceptable_popped, if_pos hall.1, if_pos hall.2.1]
    · cases hl

theorem wellLocked_lock {h : Hash} {r : UInt32} (hr : r.toNat < 2 ^ 31) :
    WellLocked ⟨some h, r.toInt32, r⟩ ↔ h ≠ 0 := by
  have hint : r.toInt32.toInt = r.toNat := toInt_toInt32 hr
  constructor
  · intro hw hz
    exact hw.real (congrArg some hz)
  · intro hz
    refine ⟨⟨fun h => absurd h (by simp), fun h => ?_⟩, fun h => hz (Option.some.inj h), fun _ => hint.le⟩
    have hneg : r.toInt32.toInt = -1 := congrArg Int32.toInt h
    omega

theorem wellLocked_none {lr : Int32} {r : UInt32} : WellLocked ⟨none, lr, r⟩ ↔ lr = -1 := by
  constructor
  · intro hw
    exact hw.unlocked.mp rfl
  · intro hlr
    exact ⟨⟨fun _ => hlr, fun _ => rfl⟩, by simp, fun h => absurd rfl h⟩

theorem wellLocked_next {rs : RoundState} (hw : WellLocked rs.lockView) (hr : rs.round.toNat < 2 ^ 31) :
    WellLocked rs.nextView := by
  have hsucc : (rs.round + 1).toNat = rs.round.toNat + 1 := toNat_succ (by omega)
  refine ⟨hw.unlocked, hw.real, fun hl => ?_⟩
  have hpast : rs.lockedRound.toInt ≤ rs.round.toNat := hw.past hl
  show rs.lockedRound.toInt ≤ (rs.round + 1).toNat
  omega

theorem wellLocked_after (hw : WellLocked e.rs.lockView) (hr : e.rs.round.toNat < 2 ^ 31) :
    WellLocked (lockAfter c order e i) ↔ WellLocking c order e i := by
  unfold lockAfter
  by_cases ht : i = .precommitTimeout
  · subst ht
    rw [if_pos rfl]
    refine ⟨fun _ => ⟨nofun, fun hc => ?_⟩, fun _ => wellLocked_next hw hr⟩
    cases hc
  · rw [if_neg ht]
    cases hl : locksOn c order e i with
    | some h =>
      dsimp only
      rw [wellLocked_lock hr]
      refine ⟨fun hz => ⟨fun h0 => hz ?_, fun hc => ?_⟩, fun hcare hz => hcare.real (by rw [hl, hz])⟩
      · exact Option.some.inj (hl.symm.trans h0)
      · obtain ⟨e₁, hstay⟩ := locksOn_stays hl
        rw [hstay] at hc
        cases hc
    | none =>
      dsimp only
      have hreal : locksOn c order e i ≠ some 0 := by
        rw [hl]
        exact nofun
      cases hp : pending c order e i with
      | stay | crash => exact ⟨fun _ => ⟨hreal, fun hc => by rw [hp] at hc; cases hc⟩, fun _ => hw⟩
      | restart e₁ =>
        exact ⟨fun _ => ⟨hreal, fun hc => by rw [hp] at hc; cases hc⟩, fun _ => wellLocked_none.mpr rfl⟩
      | committed h e₁ =>
        unfold endView
        rw [wellLocked_none]
        exact ⟨fun h => ⟨hreal, fun _ => h⟩, fun hcare => hcare.unlocked (by rw [hp]; rfl)⟩

/-! ## Runs -/

/-- A well-locking step of a node, in which writes may fail, or a crash and the restart behind it;
    the rounds stay below `2 ^ 31`. -/
def WellLockingStep : Config σ → Engine σ → Engine σ → Prop :=
  Regime.Step ⟨fun c order e i => WellLocking c order e i ∧ (handle c order e i).rs.round.toNat < 2 ^ 31,
    fun _ e disk _ _ => disk.snapshot = e.disk.snapshot⟩

/-- The lock is well formed, in the engine and in what is persisted of it. -/
structure LocksFormed (e : Engine σ) : Prop where
  rs : WellLocked e.rs.lockView ∧ e.rs.round.toNat < 2 ^ 31
  snapshot : ∀ rs, e.disk.snapshot = some rs → WellLocked rs.lockView ∧ rs.round.toNat < 2 ^ 31

theorem start_locksFormed {disk : Disk} {pool : σ} {history : List Entry}
    (hs : ∀ rs, disk.snapshot = some rs → WellLocked rs.lockView ∧ rs.round.toNat < 2 ^ 31) :
    LocksFormed (start c disk pool history) := by
  have hdec {rs rs' : RoundState} (h : WellLocked rs.lockView ∧ rs.round.toNat < 2 ^ 31)
      (hread : decodeRoundState c rs = some rs') : WellLocked rs'.lockView ∧ rs'.round.toNat < 2 ^ 31 := by
    obtain ⟨_, _, rfl⟩ := decodeRoundState_some c hread
    -- the decoder keeps a lock, and puts -1 where there is none
    have hlocked : (if rs.lockedBlock = none then -1 else rs.lockedRound) = rs.lockedRound :=
      ite_eq_right_iff.mpr fun hnone => (h.1.unlocked.mp hnone).symm
    rw [hlocked]
    exact h
  obtain ⟨hrs, hsnap⟩ := start_keeps c ⟨wellLocked_none.mpr rfl, Nat.two_pow_pos 31⟩ hdec hs pool history
  exact ⟨hrs, hsnap⟩

theorem LocksFormed.step {e' : Engine σ} (h : LocksFormed e) (hcare : WellLocking c order e i)
    (hs : step c order e i = some e') (hr : e'.rs.round.toNat < 2 ^ 31) : LocksFormed e' := by
  obtain ⟨-, rfl⟩ := step_eq_some hs
  have hlocks : Locks e _ (handle c order e i) := handle_lockView c order e i
  have hw : WellLocked (lockAfter c order e i) := (wellLocked_after h.rs.1 h.rs.2).mpr hcare
  have hround : (lockAfter c order e i).round = (handle c order e i).rs.round :=
    congrArg LockView.round hlocks.view.symm
  have hmem : ∀ rs : RoundState, rs.lockView = lockAfter c order e i → WellLocked rs.lockView ∧
      rs.round.toNat < 2 ^ 31 := by
    intro rs hrs
    have hrs' : rs.round = (lockAfter c order e i).round := congrArg LockView.round hrs
    rw [hrs, hrs', hround]
    exact ⟨hw, hr⟩
  refine ⟨hmem _ hlocks.view, fun rs hsnap => ?_⟩
  rcases hlocks.snapshot rs hsnap with hold | hold | hnew
  · exact h.snapshot rs hold
  · have hrs' : rs.round = e.rs.round := congrArg LockView.round hold
    rw [hold, hrs']
    exact h.rs
  · exact hmem rs hnew

theorem WellLockingStep.formed {e' : Engine σ} (hs : WellLockingStep c e e') (h : LocksFormed e) : LocksFormed e' := by
  obtain ⟨_, hs⟩ := hs
  cases hs with
  | input hg hs =>
    obtain ⟨hcare, hr⟩ := hg
    obtain ⟨ha, rfl⟩ := step_eq_some hs
    exact h.step hcare hs hr
  | crash hsnap => exact start_locksFormed fun rs hs => h.snapshot rs (hsnap ▸ hs)

/-- In every run of such steps the lock is well formed, and a step leaves it so exactly
    when it is one of them. -/
theorem well_locked_iff {disk : Disk} {pool : σ} {history : List Entry} (hd : disk.snapshot = none)
    (hrun : ReflTransGen (WellLockingStep c) (start c disk pool history) e) :
    WellLocked e.rs.lockView ∧ ∀ fault order i e', step (c.failing fault) order e i = some e' →
      (WellLocked e'.rs.lockView ↔ WellLocking (c.failing fault) order e i) := by
  have hstart : LocksFormed (start c disk pool history) := start_locksFormed fun rs hs => by
    rw [hd] at hs
    cases hs
  have h : LocksFormed e := run_keeps (fun h hs => hs.formed h) hrun hstart
  refine ⟨h.rs.1, fun fault order i e' hs => ?_⟩
  obtain ⟨-, rfl⟩ := step_eq_some hs
  rw [(handle_lockView (c.failing fault) order e i).view]
  exact wellLocked_after h.rs.1 h.rs.2

/-- The run of one of three validators, as long as its steps leave the lock well formed. -/
def wellLockingRun (self : Key) (is : List Input) : Option (Engine Mempool) :=
  let c := Config.node World.sample defaultChainID self
  is.foldlM (fun e i =>
    if WellLocking c .id e i then (step c .id e i).filter fun e' => e'.rs.round.toNat < 2 ^ 31 else none) (member self)

theorem wellLockingRun_reaches {self : Key} {is : List Input} {e : Engine Mempool}
    (h : wellLockingRun self is = some e) :
    ReflTransGen (WellLockingStep (.node World.sample defaultChainID self)) (member self) e := by
  refine foldlM_reaches (fun a i b hf => ?_) h
  split at hf
  · rename_i hcare
    obtain ⟨hs, hr⟩ := Option.filter_eq_some_iff.mp hf
    obtain ⟨-, rfl⟩ := step_eq_some hs
    exact .input (fun _ => none) ⟨hcare, of_decide_eq_true hr⟩ hs
  · cases hf

/-- Validator 3 locks the first proposal. -/
theorem well_locked_first : ∃ e, wellLockingRun 3 lockedFirst = some e ∧ e.rs.lockView = ⟨some firstHash, 0, 0⟩ ∧
    WellLocked e.rs.lockView := by
  have hrun : (wellLockingRun 3 lockedFirst).map (·.rs.lockView) = some ⟨some firstHash, 0, 0⟩ := by decide +kernel
  obtain ⟨e, he, hl⟩ := Option.map_eq_some_iff.mp hrun
  exact ⟨e, he, hl, (well_locked_iff rfl (wellLockingRun_reaches he)).1⟩

/-- Validator 3 commits the block it is locked on, and keeps the round of the lock; or the
    proposal does not come, validator 2 prevotes nil with it, and it locks on that. -/
theorem locks_malformed :
    (memberRun 3 (lockedFirst ++ [ballot 2 .precommit 0 firstHash])).map (fun e => (e.rs.height, e.rs.lockView)) =
      some (2, ⟨none, 0, 0⟩) ∧ ¬ WellLocked ⟨none, 0, 0⟩ ∧
    (memberRun 3 [.proposeTimeout, .resume, .resume, ballot 2 .prevote 0 0]).map
      (fun e => (e.rs.height, e.rs.lockView)) = some (1, ⟨some 0, 0, 0⟩) ∧ ¬ WellLocked ⟨some 0, 0, 0⟩ := by
  have hstale : ¬ WellLocked ⟨none, 0, 0⟩ := by
    rw [wellLocked_none]
    decide
  have hnil : ¬ WellLocked ⟨some 0, 0, 0⟩ := fun h => h.real rfl
  have hruns :
      (memberRun 3 (lockedFirst ++ [ballot 2 .precommit 0 firstHash])).map (fun e => (e.rs.height, e.rs.lockView)) =
      some (2, ⟨none, 0, 0⟩) ∧
    (memberRun 3 [.proposeTimeout, .resume, .resume, ballot 2 .prevote 0 0]).map
      (fun e => (e.rs.height, e.rs.lockView)) = some (1, ⟨some 0, 0, 0⟩) := by decide +kernel
  exact ⟨hruns.1, hstale, hruns.2, hnil⟩

end Frg.Consensus
