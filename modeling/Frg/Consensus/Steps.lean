/-
  Frg.Consensus.Steps — one step of the engine in terms of moves.

    - `handle_runs`: a step that commits nothing makes moves, keeps the validators, the
      chain and the height, and pushes frames only for its own votes.
    - `handle_commits`: a step that commits applies the block and moves on to the next
      height; the copy of the validators in the loop is renewed only by `Start` itself.
    - `handle_core`: the two cases as one, for invariants of the core.
    - `handle_reacts`: an input without a vote is dropped, or the engine votes or proposes.
    - `pending_cases`: a vote goes to its table, or its quorum ends the round.
    - `pending_restart`: the state a round is restarted from, and why.
    - `pending_committed`: the proposal behind a commit and the block it was applied as.
-/

import Frg.Consensus.Moves

namespace Frg.Consensus

open Frg.Lib Frg.Core Frg.Wire Frg.Chain Relation

variable {σ : Type} {c : Config σ} {ρ : Rules}

/-- The engine without the frame a `resume` runs. -/
def Engine.popped (e : Engine σ) : Input → Engine σ
  | .resume => { e with stack := e.stack.tail }
  | _ => e

section

variable {e : Engine σ} {i : Input}

@[simp] theorem popped_disk : (e.popped i).disk = e.disk := by cases i <;> rfl
@[simp] theorem popped_validators : (e.popped i).validators = e.validators := by cases i <;> rfl
@[simp] theorem popped_rs : (e.popped i).rs = e.rs := by cases i <;> rfl
@[simp] theorem popped_history : (e.popped i).history = e.history := by cases i <;> rfl
@[simp] theorem popped_core : (e.popped i).core = e.core := by cases i <;> rfl
@[simp] theorem popped_pool : (e.popped i).pool = e.pool := by cases i <;> rfl

end

/-- The validators a step is made with. -/
def valsFor (e : Engine σ) (i : Input) : Stakes :=
  match incoming e i with
  | some (_, vals) => vals
  | none => e.validators

/-- How the vote or the restored commit of a step ends. -/
def pending (c : Config σ) (order : MapOrder) (e : Engine σ) (i : Input) : Outcome σ :=
  match incoming e i with
  | some (v, vals) => receiveVote c order v vals (e.popped i)
  | none => if i = .resume ∧ e.stack.head? = some .recommit then recommit c order (e.popped i) else .stay e

/-- The proposal the engine puts forward on a timeout or on the delayed signal. -/
def proposing (c : Config σ) (e : Engine σ) : Input → Option BlockProposal
  | .precommitTimeout =>
    let e := { e with rs := e.rs.incrementRound }
    if proposerOf c e e.validators = c.self then ownProposal c e else none
  | .proposeReady => if e.rs.phase = .propose ∧ proposerOf c e e.validators = c.self then ownProposal c e else none
  | _ => none

/-- The rules allow the proposals a step may bring into the round (one that arrives, one the
    engine puts forward itself, one of its own after a round without a block) and the
    transaction it may bring into the pool. -/
structure Welcomes (c : Config σ) (ρ : Rules) (order : MapOrder) (e : Engine σ) (i : Input) : Prop where
  arriving : ∀ raw p, i = .proposal raw → parseProposal c raw = .ok (some p) → timely c p e = true →
    checkProposal c p e = .ok () → ρ.proposal e.rs p
  own : Offers c ρ e e.validators
  again : ∀ e₁, pending c order e i = .restart e₁ → Offers c ρ e₁ (bondedAmounts e₁.disk.db)
  tx : ∀ t, i = .enqueue t → ρ.tx t

/-- A step stays within the rules. -/
structure Permits (c : Config σ) (ρ : Rules) (order : MapOrder) (e : Engine σ) (i : Input) : Prop where
  stakes : ρ.stakes (valsFor e i)
  vote : ∀ v vals, incoming e i = some (v, vals) → ρ.vote v
  own : ∀ p, proposing c e i = some p → e.rs.lockedBlock = none ∨
    ρ.own e.rs.lockedBlock (blockHashForChain c.W.toPrim p c.chainID)
  restart : ∀ e₁, pending c order e i = .restart e₁ → ρ.restart e₁.core ∧ ρ.advance e₁.rs.round
  next : i = .precommitTimeout → ρ.advance e.rs.round
  reserve : Reserves c ρ
  proposals : Welcomes c ρ order e i

theorem Welcomes.free (h : ∀ rs p, ρ.proposal rs p) (ht : ∀ t, ρ.tx t) (order : MapOrder) (e : Engine σ) (i : Input) :
    Welcomes c ρ order e i :=
  ⟨fun _ p _ _ _ _ => h _ p, fun rs p _ _ => h rs p, fun _ _ rs p _ _ => h rs p, fun t _ => ht t⟩

theorem Permits.free (c : Config σ) (order : MapOrder) (e : Engine σ) (i : Input) : Permits c .free order e i :=
  ⟨trivial, fun _ _ _ => trivial, fun _ _ => Or.inr trivial, fun _ _ => ⟨trivial, trivial⟩, fun _ => trivial,
    fun _ _ => trivial, .free (fun _ _ => trivial) (fun _ => trivial) order e i⟩

/-- The next height after `s` committed `h`. -/
structure Next (s s' : Core) (h : Hash) : Prop where
  rs : s'.rs = { s.rs with lastAttestation := attestationFromPrecommits s.rs.precommits h }.nextHeight
  slots : s'.slots = s.slots
  snapshot : s'.snapshot = none ∨ s'.snapshot = s.snapshot ∨ s'.snapshot = some s'.rs
  history : s'.history = .unlocked :: .committed s.rs.height h :: s.history

/-- What a step does that tallies more than two thirds of precommits for `h` with `vals`,
    applies its block and leaves the chain `db`. -/
structure Commits (c : Config σ) (ρ : Rules) (order : MapOrder) (vals : Stakes) (h : Hash) (db : DB)
    (e e' : Engine σ) : Prop where
  applied : ∃ p bytes r, blockHashForChain c.W.toPrim p c.chainID = h ∧ serializeProposal c.W.toPrim p = .ok bytes ∧
    applyBlockForChain c.W order e.disk.db (blockOf e.rs.height p bytes) c.chainID = (.ok r, db)
  db : e'.disk.db = db
  stack : e'.stack = e.stack
  moves : ∃ s, Moves c ρ e.core s ∧ h ≠ 0 ∧ decided s.rs.precommits vals h = true ∧ Next s e'.core h
  pool : ∃ m txs, ReflTransGen (Feeds c ρ) e.pool m ∧ e'.pool = c.proposer.onCommit m e.rs.height txs

theorem Commits.height {order : MapOrder} {vals : Stakes} {h : Hash} {db : DB} {e e' : Engine σ}
    (hc : Commits c ρ order vals h db e e') : e'.rs.height = e.rs.height + 1 := by
  obtain ⟨s, hm, -, -, hn⟩ := hc.moves
  have hh : s.rs.height = e.rs.height := hm.height
  rw [← hh]
  exact congrArg RoundState.height hn.rs

section

variable {order : MapOrder} {vals : Stakes} {e e' : Engine σ} {h : Hash} {i : Input} {o : Outcome σ}

theorem finish_runs (hw : Reserves c ρ) (he : Ends c ρ order vals e o)
    (hr : ∀ e₁, o = .restart e₁ → ρ.restart e₁.core ∧ ρ.advance e₁.rs.round)
    (ho : ∀ e₁, o = .restart e₁ → Offers c ρ e₁ (bondedAmounts e₁.disk.db))
    (hno : ∀ h e₁, o ≠ .committed h e₁) (refresh : Bool) : Runs c ρ vals e (finish c refresh o) := by
  cases he with
  | stay e' h => exact h
  | restart e' h =>
    obtain ⟨h1, h2⟩ := hr e' rfl
    exact h.trans (restartRound_runs hw h1 h2 (ho e' rfl))
  | crash e' h => exact h.trans (.quiet rfl rfl rfl rfl rfl)
  | committed x e₁ e' => exact absurd rfl (hno x e')

theorem startNextRound_eq (c : Config σ) (vals : Stakes) (e : Engine σ) :
    ∃ e₁ : Engine σ, startNextRound c vals e = e₁.persist c ∧ e₁.core = (e.core.on (·.nextHeight)).note .unlocked ∧
      e₁.validators = e.validators ∧ e₁.disk = e.disk ∧ e₁.stack = e.stack ∧ e₁.pool = e.pool := by
  unfold startNextRound
  dsimp only
  split
  · exact ⟨_, rfl, rfl, rfl, rfl, rfl, rfl⟩
  · exact ⟨_, rfl, rfl, rfl, rfl, rfl, rfl⟩

theorem finish_commits (he : Ends c ρ order vals e (.committed h e')) (refresh : Bool) :
    Commits c ρ order vals h e'.disk.db e (finish c refresh (.committed h e')) ∧
      (finish c refresh (.committed h e')).validators =
        if refresh then bondedAmounts e'.disk.db else e.validators := by
  cases he with
  | committed _ e₁ _ hruns hstack hx hd hok =>
    obtain ⟨p, bytes, r, db, hp, hh, hb, happ, rfl⟩ := commit_ok c hok
    rw [hruns.db, hruns.height] at happ
    unfold finish
    dsimp only
    obtain ⟨e₂, heq, hcore, hval, hdisk, hst, hpool⟩ := startNextRound_eq c (bondedAmounts db)
      { e₁ with disk := { e₁.disk with db, snapshot := if c.fault .clear = none then none else e₁.disk.snapshot }
                pool := c.proposer.onCommit e₁.pool e₁.rs.height p.txs
                history := .committed e₁.rs.height h :: e₁.history
                rs := { e₁.rs with lastAttestation := attestationFromPrecommits e₁.rs.precommits h }
                validators := if refresh then bondedAmounts db else e₁.validators }
    rw [heq]
    have hpers : Runs c ρ vals e₂ (e₂.persist c) := persist_runs
    refine ⟨⟨⟨p, bytes, r, hh, hb, happ⟩, by rw [hpers.db, hdisk], ?_, ⟨e₁.core, hruns.moves, hx, hd, ?_⟩,
      e₁.pool, p.txs, hruns.pool, ?_⟩, ?_⟩
    · rw [persist_stack, hst]
      exact hstack
    · have hnext : Next e₁.core e₂.core h := by
        rw [hcore]
        refine ⟨rfl, rfl, ?_, rfl⟩
        by_cases hf : c.fault .clear = none
        · exact Or.inl (if_pos hf)
        · exact Or.inr (Or.inl (if_neg hf))
      rcases persist_core (c := c) (e := e₂) with hc | hc
      · rw [hc]
        exact hnext
      · rw [hc]
        exact ⟨hnext.rs, hnext.slots, Or.inr (Or.inr rfl), hnext.history⟩
    · rw [persist_pool, hpool, hruns.height]
    · rw [hpers.validators, hval, ← hruns.validators]

/-- A vote is handled by `receiveVote` and the end of the round it brings. -/
theorem handle_incoming {v : Vote} (hi : incoming e i = some (v, vals)) :
    handle c order e i = finish c false (receiveVote c order v vals (e.popped i)) := by
  cases i with
  | vote raw =>
    simp only [incoming] at hi
    cases hd : deserializeVote raw with
    | ok w =>
      rw [hd] at hi
      cases hi
      simp only [handle, hd]
      rfl
    | err x => rw [hd] at hi; cases hi
    | panic x => rw [hd] at hi; cases hi
  | resume =>
    simp only [incoming] at hi
    match hst : e.stack, hi with
    | .vote _ _ :: s, rfl =>
      simp only [handle, hst, Engine.popped]
      rfl
  | proposal | proposeTimeout | prevoteTimeout | precommitTimeout | proposeReady | delayElapsed | enqueue => cases hi

theorem onPrecommitTimeout_runs (hw : Reserves c ρ) (e : Engine σ) (ha : ρ.advance e.rs.round)
    (hown : ∀ p, proposing c e .precommitTimeout = some p → e.rs.lockedBlock = none ∨
      ρ.own e.rs.lockedBlock (blockHashForChain c.W.toPrim p c.chainID)) (ho : Offers c ρ e e.validators) :
    Runs c ρ e.validators e (onPrecommitTimeout c e) := by
  have hstart : Runs c ρ e.validators e (({ e with rs := e.rs.incrementRound
                                                   proposeTimer := some (e.rs.height, e.rs.round + 1) } :
      Engine σ).push .persist) :=
    ⟨rfl, rfl, ⟨[.persist], rfl, fun f hf => Or.inl (List.mem_singleton.mp hf)⟩, .single (.next e.core ha), .refl⟩
  unfold onPrecommitTimeout
  dsimp only
  split
  · rename_i hp
    refine hstart.trans (broadcastProposal_runs hw (fun p h => hown p ?_) fun p h => ho _ p hp h)
    exact (if_pos hp).trans h
  · exact hstart

theorem onProposeReady_runs (hw : Reserves c ρ) (e : Engine σ)
    (hown : ∀ p, proposing c e .proposeReady = some p → e.rs.lockedBlock = none ∨
      ρ.own e.rs.lockedBlock (blockHashForChain c.W.toPrim p c.chainID)) (ho : Offers c ρ e e.validators) :
    Runs c ρ e.validators e (onProposeReady c e) := by
  unfold onProposeReady
  split
  · rename_i hp
    exact broadcastProposal_runs hw (fun p h => hown p ((if_pos hp).trans h)) fun p h => ho _ p hp.2 h
  · exact .refl e

theorem handle_runs (hp : Permits c ρ order e i) (hno : ∀ h e₁, pending c order e i ≠ .committed h e₁) :
    Runs c ρ (valsFor e i) (e.popped i) (handle c order e i) := by
  cases hi : incoming e i with
  | some x =>
    obtain ⟨v, vals⟩ := x
    have hpend : pending c order e i = receiveVote c order v vals (e.popped i) := by simp only [pending, hi]
    have hvals : valsFor e i = vals := by simp only [valsFor, hi]
    rw [hpend] at hno
    have hs := hp.stakes
    rw [hvals] at hs ⊢
    rw [handle_incoming hi]
    exact finish_runs hp.reserve (receiveVote_ends hp.reserve (hp.vote v vals hi) hs order)
      (fun e₁ he₁ => hp.restart e₁ (hpend.trans he₁)) (fun e₁ he₁ => hp.proposals.again e₁ (hpend.trans he₁)) hno false
  | none =>
    have hvals : valsFor e i = e.validators := by simp only [valsFor, hi]
    rw [hvals]
    cases i with
    | vote raw =>
      simp only [incoming] at hi
      cases hd : deserializeVote raw with
      | ok w => rw [hd] at hi; cases hi
      | err x => simpa only [handle, hd] using .refl e
      | panic x => simpa only [handle, hd] using .refl e
    | proposal raw =>
      unfold handle
      dsimp only
      split
      · rename_i p hparse
        exact handleProposal_runs hp.reserve p (hp.proposals.arriving raw p rfl hparse)
      · exact .refl e
      · exact .refl e
      · exact .quiet rfl rfl rfl rfl rfl
    | proposeTimeout =>
      have hfired : Runs c ρ e.validators e { e with proposeTimer := none } := .quiet rfl rfl rfl rfl rfl
      exact hfired.trans (onProposeTimeout_runs hp.reserve { e with proposeTimer := none })
    | prevoteTimeout =>
      have hfired : Runs c ρ e.validators e { e with prevoteTimer := none } := .quiet rfl rfl rfl rfl rfl
      exact hfired.trans (onPrevoteTimeout_runs hp.reserve { e with prevoteTimer := none })
    | precommitTimeout =>
      have hfired : Runs c ρ e.validators e { e with precommitTimer := none } := .quiet rfl rfl rfl rfl rfl
      exact hfired.trans (onPrecommitTimeout_runs hp.reserve { e with precommitTimer := none } (hp.next rfl) hp.own
        hp.proposals.own)
    | proposeReady =>
      have hfired : Runs c ρ e.validators e { e with ready := false } := .quiet rfl rfl rfl rfl rfl
      exact hfired.trans (onProposeReady_runs hp.reserve { e with ready := false } hp.own hp.proposals.own)
    | delayElapsed => exact .quiet rfl rfl rfl rfl rfl
    | enqueue t =>
      exact ⟨rfl, rfl, ⟨[], rfl, fun _ h => nomatch h⟩, .refl, .single (Or.inr ⟨t, hp.proposals.tx t rfl, rfl⟩)⟩
    | resume =>
      match hst : e.stack with
      | [] =>
        simp only [handle, hst]
        refine .quiet rfl rfl ?_ rfl rfl
        simp [Engine.popped, hst]
      | .persist :: s =>
        have heq : ({ e with stack := s } : Engine σ) = e.popped .resume := by simp [Engine.popped, hst]
        simp only [handle, hst]
        rw [heq]
        exact persist_runs
      | .recommit :: s =>
        have heq : ({ e with stack := s } : Engine σ) = e.popped .resume := by simp [Engine.popped, hst]
        simp only [handle, hst]
        have hpend : pending c order e .resume = recommit c order (e.popped .resume) := by
          simp only [pending, hi, hst, List.head?_cons, and_self, if_true]
        rw [heq]
        rw [hpend] at hno
        exact finish_runs hp.reserve (recommit_ends order) (fun e₁ he₁ => hp.restart e₁ (hpend.trans he₁))
          (fun e₁ he₁ => hp.proposals.again e₁ (hpend.trans he₁)) hno true
      | .vote v vals :: s => simp [incoming, hst] at hi

/-- What a step does that commits: outside the commit branch of `Start`, the validators of
    the loop stay as they were. -/
theorem handle_commits (hp : Permits c ρ order e i) {e₁ : Engine σ} (hc : pending c order e i = .committed h e₁) :
    Commits c ρ order (valsFor e i) h e₁.disk.db (e.popped i) (handle c order e i) ∧
      (handle c order e i).validators =
        if e.stack.head? = some .recommit ∧ i = .resume then bondedAmounts e₁.disk.db else e.validators := by
  cases hi : incoming e i with
  | some x =>
    obtain ⟨v, vals⟩ := x
    have hpend : pending c order e i = receiveVote c order v vals (e.popped i) := by simp only [pending, hi]
    have hvals : valsFor e i = vals := by simp only [valsFor, hi]
    have hs := hp.stakes
    rw [hvals] at hs ⊢
    have hends := receiveVote_ends (e := e.popped i) hp.reserve (hp.vote v vals hi) hs order
    rw [← hpend, hc] at hends
    rw [handle_incoming hi, ← hpend, hc]
    obtain ⟨h1, h2⟩ := finish_commits hends false
    refine ⟨h1, h2.trans ?_⟩
    have hval : (e.popped i).validators = e.validators := by cases i <;> rfl
    rw [if_neg (by decide), hval, if_neg]
    rintro ⟨htop, rfl⟩
    match hst : e.stack, htop with
    | .recommit :: s, rfl => simp [incoming, hst] at hi
  | none =>
    by_cases htop : i = .resume ∧ e.stack.head? = some .recommit
    · obtain ⟨rfl, htop⟩ := htop
      have hpend : pending c order e .resume = recommit c order (e.popped .resume) := by
        simp only [pending, hi, htop, and_self, if_true]
      have hends := recommit_ends (c := c) (ρ := ρ) (e := e.popped .resume) order
      have hvals : valsFor e .resume = e.validators := by simp only [valsFor, hi]
      rw [hvals]
      rw [← hpend, hc] at hends
      have hhandle : handle c order e .resume = finish c true (pending c order e .resume) := by
        rw [hpend]
        match hst : e.stack, htop with
        | .recommit :: s, rfl => simp only [handle, hst, Engine.popped, List.tail_cons]
      rw [hhandle, hc]
      obtain ⟨h1, h2⟩ := finish_commits hends true
      refine ⟨h1, h2.trans ?_⟩
      rw [if_pos rfl, if_pos ⟨htop, rfl⟩]
    · simp only [pending, hi, htop, if_false] at hc
      cases hc

/-- What a step does before it restarts the round. -/
theorem pending_restart_runs {e₁ : Engine σ} (hs : ρ.stakes (valsFor e i)) (hw : Reserves c ρ)
    (hv : ∀ v vals, incoming e i = some (v, vals) → ρ.vote v) (hr : pending c order e i = .restart e₁) :
    Runs c ρ (valsFor e i) (e.popped i) e₁ := by
  have hends : ∀ {o : Outcome σ}, Ends c ρ order (valsFor e i) (e.popped i) o → o = .restart e₁ →
      Runs c ρ (valsFor e i) (e.popped i) e₁ := by
    rintro o ho rfl
    cases ho with
    | restart _ h => exact h
  unfold pending at hr
  split at hr
  · rename_i v vals hi
    have hvals : valsFor e i = vals := by simp only [valsFor, hi]
    rw [hvals] at hs
    exact hends (hvals ▸ receiveVote_ends hw (hv v vals hi) hs order) hr
  · rename_i hi
    have hvals : valsFor e i = (e.popped i).validators := by simp only [valsFor, hi, popped_validators]
    split at hr
    · exact hends (hvals ▸ recommit_ends order) hr
    · cases hr

/-- What a step does to the core: moves, and at most one commit behind them. -/
theorem handle_core (hp : Permits c ρ order e i) : Moves c ρ e.core (handle c order e i).core ∨
    ∃ s h vals, Moves c ρ e.core s ∧ decided s.rs.precommits vals h = true ∧ Next s (handle c order e i).core h := by
  rw [← popped_core (i := i)]
  cases hpend : pending c order e i with
  | committed x e₁ =>
    obtain ⟨s, hm, -, hd, hn⟩ := (handle_commits hp hpend).1.moves
    exact Or.inr ⟨s, x, valsFor e i, hm, hd, hn⟩
  | stay | restart | crash => exact Or.inl (handle_runs hp fun x e₁ => by rw [hpend]; exact nofun).moves

theorem height_ne_succ (n : UInt64) : n ≠ n + 1 := by
  intro h
  have h := congrArg UInt64.toNat h
  have hlt := n.toNat_lt
  have hone : (1 : UInt64).toNat = 1 := rfl
  rw [UInt64.toNat_add] at h
  omega

theorem step_eq_some (hs : step c order e i = some e') : accepts e i = true ∧ e' = handle c order e i := by
  unfold step at hs
  split at hs
  · rename_i hen
    exact ⟨(Bool.and_eq_true _ _ ▸ hen).1, (Option.some.inj hs).symm⟩
  · cases hs

end

/-! ## Inputs without a vote -/

/-- A later phase of the same round, still to be persisted. -/
structure Turned (e e₁ : Engine σ) : Prop where
  rs : ∃ proposal phase, e₁.rs = { e.rs with proposal, phase }
  disk : e₁.disk = e.disk
  pool : e₁.pool = e.pool
  stack : e₁.stack = .persist :: e.stack

/-- What the engine does about an input in which it counts no vote and begins no round. -/
inductive Reacts (c : Config σ) (e : Engine σ) : Engine σ → Prop
  | drops (e₁ : Engine σ) : e₁.rs = e.rs → e₁.disk = e.disk → e₁.pool = e.pool → e₁.stack = e.stack → Reacts c e e₁
  | votes (t : VoteType) (h : Hash) (e₁ : Engine σ) : Turned e e₁ → Reacts c e (castVote c t h e.validators e₁)
  | proposes : Reacts c e (broadcastProposal c e.validators { e with ready := false })

theorem handle_reacts {order : MapOrder} {e : Engine σ} {i : Input} (hinc : incoming e i = none)
    (ht : i ≠ .precommitTimeout) (htx : ∀ t, i ≠ .enqueue t) (hr : i ≠ .resume) : Reacts c e (handle c order e i) := by
  cases i with
  | precommitTimeout => exact absurd rfl ht
  | enqueue t => exact absurd rfl (htx t)
  | resume => exact absurd rfl hr
  | vote raw =>
    simp only [incoming] at hinc
    cases hd : deserializeVote raw with
    | ok w =>
      rw [hd] at hinc
      cases hinc
    | err | panic =>
      simp only [handle, hd]
      exact .drops e rfl rfl rfl rfl
  | proposal raw =>
    unfold handle handleProposal
    dsimp only
    split
    · split
      · split
        · exact .votes _ _ _ ⟨⟨_, _, rfl⟩, rfl, rfl, rfl⟩
        · exact .drops e rfl rfl rfl rfl
        · exact .drops _ rfl rfl rfl rfl
      · exact .drops e rfl rfl rfl rfl
    · exact .drops e rfl rfl rfl rfl
    · exact .drops e rfl rfl rfl rfl
    · exact .drops _ rfl rfl rfl rfl
  | proposeTimeout =>
    unfold handle onProposeTimeout
    dsimp only
    split
    · exact .drops _ rfl rfl rfl rfl
    · exact .votes _ _ _ ⟨⟨_, _, rfl⟩, rfl, rfl, rfl⟩
  | prevoteTimeout =>
    unfold handle onPrevoteTimeout
    dsimp only
    split
    · exact .drops _ rfl rfl rfl rfl
    · exact .votes _ _ _ ⟨⟨_, _, rfl⟩, rfl, rfl, rfl⟩
  | proposeReady =>
    unfold handle onProposeReady
    dsimp only
    split
    · exact .proposes
    · exact .drops _ rfl rfl rfl rfl
  | delayElapsed => exact .drops _ rfl rfl rfl rfl

/-! ## Rounds without a block -/

/-- The state a round is restarted from: the lock is still there, and at most the refusal of
    a block has been added to the history. -/
structure Undecided (e e₁ : Engine σ) : Prop where
  height : e₁.rs.height = e.rs.height
  round : e₁.rs.round = e.rs.round
  lockedBlock : e₁.rs.lockedBlock = e.rs.lockedBlock
  lockedRound : e₁.rs.lockedRound = e.rs.lockedRound
  history : e₁.history = e.history ∨ ∃ h, e₁.history = .refused e.rs.height h :: e.history

def Outcome.restarts : Outcome σ → Bool
  | .restart _ => true
  | _ => false

/-- The block the precommits are for, the vote that arrives included. -/
def quorumOf (order : MapOrder) (e : Engine σ) (i : Input) : Option Hash :=
  match incoming e i with
  | some (v, vals) => quorumBlock order (e.rs.precommits.put v.validatorPK v) vals
  | none => quorumBlock order e.rs.precommits e.validators

/-- The engine holds the block `h` as its proposal, and can serialise it. -/
def Holds (c : Config σ) (rs : RoundState) (h : Hash) : Prop :=
  ∃ p ∈ rs.proposal, blockHashForChain c.W.toPrim p c.chainID = h ∧ (serializeProposal c.W.toPrim p).isOk = true

instance (c : Config σ) (rs : RoundState) (h : Hash) : Decidable (Holds c rs h) :=
  inferInstanceAs (Decidable (∃ p ∈ rs.proposal, _))

section

variable {order : MapOrder} {vals : Stakes} {e e₁ : Engine σ} {h : Hash} {i : Input}

theorem rejectProposal_undecided : Undecided e (rejectProposal c e) := by
  unfold rejectProposal
  split <;> exact ⟨rfl, rfl, rfl, rfl, Or.inl rfl⟩

/-- A block at hand that is not committed has been refused by `ApplyBlockForChain`. -/
theorem commit_refused {f : CommitFault} (hc : commit c order h e = .err f) (hh : Holds c e.rs h) :
    ∃ x, f = .refused x := by
  obtain ⟨p, hp, hh, hb⟩ := hh
  obtain ⟨bytes, hb⟩ := Go.isOk_iff.mp hb
  unfold commit at hc
  rw [hp] at hc
  dsimp only at hc
  rw [if_neg (not_not.mpr hh), hb] at hc
  dsimp only at hc
  split at hc
  · exact ⟨_, (Go.err.inj hc).symm⟩
  · cases hc
  · split at hc
    · exact ⟨_, (Go.err.inj hc).symm⟩
    · cases hc

theorem tryCommit_restart (hr : tryCommit c order h e = .restart e₁) :
    Undecided e e₁ ∧ (Holds c e.rs h → Entry.refused e.rs.height h ∈ e₁.history) := by
  unfold tryCommit at hr
  split at hr
  · cases hr
  · cases hr
    obtain ⟨h1, h2, h3, h4, h5⟩ := rejectProposal_undecided (c := c) (e := e.note (.refused e.rs.height h))
    have hhist : (rejectProposal c (e.note (.refused e.rs.height h))).history =
        .refused e.rs.height h :: e.history := by
      unfold rejectProposal
      split <;> rfl
    exact ⟨⟨h1, h2, h3, h4, Or.inr ⟨h, hhist⟩⟩, fun _ => hhist ▸ List.mem_cons_self⟩
  · rename_i f hf hc
    cases hr
    refine ⟨rejectProposal_undecided, fun hh => ?_⟩
    obtain ⟨x, rfl⟩ := commit_refused hc hh
    exact absurd rfl (hf x)
  · cases hr

/-- What counting a vote leaves as it was. -/
structure Tallied (e e₀ : Engine σ) : Prop where
  height : e₀.rs.height = e.rs.height
  round : e₀.rs.round = e.rs.round
  lockedBlock : e₀.rs.lockedBlock = e.rs.lockedBlock
  lockedRound : e₀.rs.lockedRound = e.rs.lockedRound
  proposal : e₀.rs.proposal = e.rs.proposal
  history : e₀.history = e.history
  db : e₀.disk.db = e.disk.db
  pool : e₀.pool = e.pool

@[simp] theorem castVote_pool {t : VoteType} : (castVote c t h vals e).pool = e.pool := by
  unfold castVote
  split <;> rfl

theorem receivePrevote_pool {v : Vote} : (receivePrevote c order v vals e).pool = e.pool := by
  have hnote : ∀ (e : Engine σ) (q : Option Hash), (e.notePolka q).pool = e.pool := fun e q => by cases q <;> rfl
  unfold receivePrevote
  split
  · rfl
  · dsimp only
    split
    · split <;> exact castVote_pool.trans (persist_pool.trans (hnote _ _))
    · exact persist_pool.trans (hnote _ _)

theorem receivePrecommit_cases (c : Config σ) (order : MapOrder) (v : Vote) (vals : Stakes) (e : Engine σ) :
    (∃ e₁, receivePrecommit c order v vals e = .stay e₁ ∧ e₁.pool = e.pool) ∨ ∃ e₀, Tallied e e₀ ∧
      ((∃ h, quorumBlock order (e.rs.precommits.put v.validatorPK v) vals = some h ∧ h ≠ 0 ∧
          receivePrecommit c order v vals e = tryCommit c order h e₀) ∨
        (∀ h, quorumBlock order (e.rs.precommits.put v.validatorPK v) vals = some h → h = 0) ∧
          receivePrecommit c order v vals e = .restart (rejectProposal c e₀)) := by
  unfold receivePrecommit
  split
  · exact .inl ⟨e, rfl, rfl⟩
  · dsimp only
    set e₂ : Engine σ := { e with rs := { e.rs with precommits := e.rs.precommits.put v.validatorPK v } } with he₂
    have hpre : (e₂.persist c).rs.precommits = e.rs.precommits.put v.validatorPK v := by rw [persist_rs]
    have ht : Tallied e (e₂.persist c) := by
      refine ⟨?_, ?_, ?_, ?_, ?_, persist_history, persist_db, persist_pool⟩ <;> rw [persist_rs]
    rw [hpre]
    split
    · cases hq : quorumBlock order (e.rs.precommits.put v.validatorPK v) vals with
      | some h =>
        by_cases hz : h = 0
        · refine .inr ⟨_, ht, .inr ⟨fun x hx => (Option.some.inj hx).symm.trans hz, ?_⟩⟩
          dsimp only
          rw [if_neg (not_not.mpr hz)]
        · have htry : Tallied e { (e₂.persist c).setPhase .commit with precommitTimer := none } :=
            ⟨ht.1, ht.2, ht.3, ht.4, ht.5, ht.6, ht.7, ht.8⟩
          refine .inr ⟨_, htry, .inl ⟨h, rfl, hz, ?_⟩⟩
          dsimp only
          rw [if_pos hz]
      | none => exact .inr ⟨_, ht, .inr ⟨fun x hx => absurd hx (by simp), rfl⟩⟩
    · exact .inl ⟨_, rfl, persist_pool⟩

/-- A vote changes at most its own table, or its quorum ends the round: with the commit of
    the block it is for, or without one. -/
theorem pending_cases (c : Config σ) (order : MapOrder) (e : Engine σ) (i : Input) :
    (∃ e₁, pending c order e i = .stay e₁ ∧ e₁.pool = e.pool) ∨ ∃ e₀, Tallied e e₀ ∧
      ((∃ h, quorumOf order e i = some h ∧ h ≠ 0 ∧ pending c order e i = tryCommit c order h e₀) ∨
        (∀ h, quorumOf order e i = some h → h = 0) ∧ pending c order e i = .restart (rejectProposal c e₀)) := by
  have hpop : ∀ {e₀ : Engine σ}, Tallied (e.popped i) e₀ → Tallied e e₀ := fun ht => by
    cases i <;> exact ⟨ht.1, ht.2, ht.3, ht.4, ht.5, ht.6, ht.7, ht.8⟩
  unfold pending quorumOf
  cases hi : incoming e i with
  | some x =>
    obtain ⟨v, vals⟩ := x
    dsimp only
    unfold receiveVote
    split
    · split
      · exact .inl ⟨_, rfl, receivePrevote_pool.trans popped_pool⟩
      · have hcases := receivePrecommit_cases c order v vals (e.popped i)
        rw [popped_rs, popped_pool] at hcases
        rcases hcases with h | ⟨e₀, ht, h⟩
        · exact .inl h
        · exact .inr ⟨e₀, hpop ht, h⟩
    · exact .inl ⟨_, rfl, popped_pool⟩
  | none =>
    dsimp only
    split
    · unfold recommit
      rw [popped_rs, popped_validators]
      cases hq : quorumBlock order e.rs.precommits e.validators with
      | some h =>
        dsimp only
        split
        · exact .inr ⟨e.popped i, hpop ⟨rfl, rfl, rfl, rfl, rfl, rfl, rfl, rfl⟩, .inl ⟨h, rfl, ‹_›, rfl⟩⟩
        · exact .inl ⟨_, rfl, popped_pool⟩
      | none => exact .inl ⟨_, rfl, popped_pool⟩
    · exact .inl ⟨_, rfl, rfl⟩

theorem pending_committed (hc : pending c order e i = .committed h e₁) : ∃ p bytes r,
    e.rs.proposal = some p ∧ blockHashForChain c.W.toPrim p c.chainID = h ∧ serializeProposal c.W.toPrim p = .ok bytes ∧
      applyBlockForChain c.W order e.disk.db (blockOf e.rs.height p bytes) c.chainID = (.ok r, e₁.disk.db) := by
  rcases pending_cases c order e i with ⟨_, hs, -⟩ | ⟨e₀, ht, ⟨x, -, -, hs⟩ | ⟨-, hs⟩⟩ <;> rw [hc] at hs
  · cases hs
  · unfold tryCommit at hs
    split at hs
    · rename_i hok
      obtain ⟨rfl, rfl⟩ := Outcome.committed.inj hs
      obtain ⟨p, bytes, r, db, hp, hh, hb, happ, rfl⟩ := commit_ok c hok
      rw [ht.height, ht.db] at happ
      exact ⟨p, bytes, r, ht.proposal ▸ hp, hh, hb, happ⟩
    all_goals cases hs
  · cases hs

theorem pending_restart (hr : pending c order e i = .restart e₁) :
    Undecided e e₁ ∧ (quorumOf order e i = some h → h ≠ 0 → Holds c e.rs h →
      Entry.refused e.rs.height h ∈ e₁.history) := by
  have hund : ∀ {e₀ : Engine σ}, Tallied e e₀ → Undecided e₀ e₁ → Undecided e e₁ := fun ht hu =>
    ⟨hu.height.trans ht.height, hu.round.trans ht.round, hu.lockedBlock.trans ht.lockedBlock,
      hu.lockedRound.trans ht.lockedRound, ht.height ▸ ht.history ▸ hu.history⟩
  rcases pending_cases c order e i with ⟨_, hs, -⟩ | ⟨e₀, ht, ⟨x, hq, -, hs⟩ | ⟨hq, hs⟩⟩ <;> rw [hr] at hs
  · cases hs
  · obtain ⟨hu, href⟩ := tryCommit_restart hs.symm
    refine ⟨hund ht hu, fun hq' _ hh => ?_⟩
    obtain rfl := Option.some.inj (hq.symm.trans hq')
    rw [← ht.height]
    refine href ?_
    rwa [Holds, ht.proposal]
  · obtain rfl := Outcome.restart.inj hs
    exact ⟨hund ht rejectProposal_undecided, fun hq' hne => absurd (hq h hq') hne⟩

end

end Frg.Consensus
