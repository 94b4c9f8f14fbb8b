/-
  Frg.Consensus.Moves — what the handlers of the engine can do.

  `Core` is the part of an engine the voting rules are about: the round state, the
  reserved slots, the persisted round state and the history. `Move` lists everything that
  ever happens to it; `Rules` are the conditions under which votes, proposals and
  transactions arrive, the engine puts its own proposal forward, restarts a round or enters
  the next one, left open so that each result can fill in its own. A commit ends the height
  and is not a move.

  `Runs` is what a handler does short of a commit: it keeps the validators, the chain and
  the height, pushes frames only for votes it has just cast, feeds the mempool, and makes
  moves. `Ends` are the ways a vote can end. There is one lemma for each handler (`_runs`,
  `_ends`); invariants are proved over moves and never unfold a handler again.
-/

import Frg.Lib.Run
import Frg.Consensus.Engine

namespace Frg.Consensus

open Frg.Lib Frg.Core Frg.Wire Frg.Chain Relation

/-- The part of an engine that votes. -/
structure Core where
  rs : RoundState
  slots : List (UInt64 × UInt32 × VoteType)
  snapshot : Option RoundState
  history : List Entry

namespace Core

def on (s : Core) (f : RoundState → RoundState) : Core := { s with rs := f s.rs }

def note (s : Core) (x : Entry) : Core := { s with history := x :: s.history }

/-- A vote; its slot stays free when the write that reserves it fails. -/
def cast (s : Core) (type : VoteType) (blockHash : Hash) (written : Bool) : Core :=
  if (s.rs.height, s.rs.round, type) ∈ s.slots then s
  else
    { s with slots := if written then (s.rs.height, s.rs.round, type) :: s.slots else s.slots
             history := .cast type s.rs.height s.rs.round blockHash s.rs.lockedBlock :: s.history }

end Core

/-- The conditions of the moves. `reserve` is about the slot of a vote and whether it is written. -/
structure Rules where
  stakes : Stakes → Prop
  vote : Vote → Prop
  own : Option Hash → Hash → Prop
  restart : Core → Prop
  advance : UInt32 → Prop
  reserve : UInt64 → UInt32 → VoteType → Bool → Prop
  proposal : RoundState → BlockProposal → Prop
  tx : Tx → Prop

/-- No conditions. -/
def Rules.free : Rules :=
  ⟨fun _ => True, fun _ => True, fun _ _ => True, fun _ => True, fun _ => True, fun _ _ _ _ => True, fun _ _ => True,
    fun _ => True⟩

variable {σ : Type}

def Engine.core (e : Engine σ) : Core := ⟨e.rs, e.disk.slots, e.disk.snapshot, e.history⟩

/-- A vote of the round, checked against some validators. -/
structure Counts (c : Config σ) (ρ : Rules) (rs : RoundState) (v : Vote) (vals : Stakes) : Prop where
  allowed : ρ.vote v
  stakes : ρ.stakes vals
  height : v.height = rs.height
  round : v.round = rs.round
  verified : verifyVoteForChain c.W.toPrim v c.chainID = true
  validator : v.validatorPK ∈ vals.map (·.1)

inductive Move (c : Config σ) (ρ : Rules) : Core → Core → Prop
  | prevote (s : Core) (v : Vote) (vals : Stakes) : Counts c ρ s.rs v vals → v.type = VoteType.prevote.code →
      s.rs.prevotes.get v.validatorPK = none →
      Move c ρ s (s.on fun rs => { rs with prevotes := rs.prevotes.put v.validatorPK v })
  | precommit (s : Core) (v : Vote) (vals : Stakes) : Counts c ρ s.rs v vals → v.type = VoteType.precommit.code →
      s.rs.precommits.get v.validatorPK = none →
      Move c ρ s (s.on fun rs => { rs with precommits := rs.precommits.put v.validatorPK v })
  | polka (s : Core) (h : Hash) (vals : Stakes) : ρ.stakes vals → decided s.rs.prevotes vals h = true →
      Move c ρ s (s.note (.polka s.rs.height s.rs.round h))
  /-- More than two thirds prevoted `h`: lock and precommit it. -/
  | lock (s : Core) (h : Hash) (vals : Stakes) (written : Bool) : ρ.stakes vals → s.rs.phase = .prevote →
      decided s.rs.prevotes vals h = true → Entry.polka s.rs.height s.rs.round h ∈ s.history →
      ρ.reserve s.rs.height s.rs.round .precommit written →
      Move c ρ s (((s.on fun rs => (rs.toPhase .precommit).lock h rs.round).note (.locked h)).cast .precommit h written)
  /-- The prevotes are split, or time is up: precommit nil. -/
  | abstain (s : Core) (written : Bool) : s.rs.phase = .prevote → ρ.reserve s.rs.height s.rs.round .precommit written →
      Move c ρ s ((s.on (·.toPhase .precommit)).cast .precommit 0 written)
  /-- A prevote, after a proposal or without one. -/
  | enter (s : Core) (h : Hash) (proposal : Option BlockProposal) (written : Bool) : s.rs.phase = .propose →
      (h = 0 ∨ s.rs.lockedBlock = none ∨ s.rs.lockedBlock = some h ∨ ρ.own s.rs.lockedBlock h) →
      ρ.reserve s.rs.height s.rs.round .prevote written →
      (proposal = s.rs.proposal ∨ ∃ p, proposal = some p ∧ ρ.proposal s.rs p) →
      Move c ρ s ((s.on fun rs => { rs with proposal, phase := .prevote }).cast .prevote h written)
  | next (s : Core) : ρ.advance s.rs.round → Move c ρ s (s.on (·.incrementRound))
  /-- Precommits of more than two thirds are in and no block comes out of them. -/
  | restart (s : Core) : ρ.restart s → ρ.advance s.rs.round →
      Move c ρ s ((s.on (·.unlock.incrementRound)).note .unlocked)
  | decide (s : Core) : s.rs.phase = .precommit → Move c ρ s (s.on (·.toPhase .commit))
  | refuse (s : Core) (h : Hash) : Move c ρ s (s.note (.refused s.rs.height h))
  | persist (s : Core) : Move c ρ s { s with snapshot := some s.rs }

abbrev Moves (c : Config σ) (ρ : Rules) : Core → Core → Prop := ReflTransGen (Move c ρ)

variable {c : Config σ} {ρ : Rules}

theorem Core.cast_history (s : Core) (t : VoteType) (h : Hash) (w : Bool) : s.history <:+ (s.cast t h w).history := by
  unfold Core.cast
  split
  · exact List.suffix_refl _
  · exact List.suffix_cons _ _

@[simp] theorem Core.cast_rs (s : Core) (t : VoteType) (h : Hash) (w : Bool) : (s.cast t h w).rs = s.rs := by
  unfold Core.cast
  split <;> rfl

@[simp] theorem Core.cast_snapshot (s : Core) (t : VoteType) (h : Hash) (w : Bool) :
    (s.cast t h w).snapshot = s.snapshot := by
  unfold Core.cast
  split <;> rfl

theorem Core.cast_withSnapshot (s : Core) (t : VoteType) (h : Hash) (w : Bool) (x : Option RoundState) :
    { s with snapshot := x }.cast t h w = ⟨s.rs, (s.cast t h w).slots, x, (s.cast t h w).history⟩ := by
  unfold Core.cast
  split
  · rfl
  · rfl

theorem Move.history {s s' : Core} (h : Move c ρ s s') : s.history <:+ s'.history := by
  cases h with
  | prevote | precommit | next | decide | persist => exact List.suffix_refl _
  | polka | restart | refuse => exact List.suffix_cons _ _
  | lock h =>
    exact .trans (List.suffix_cons (Entry.locked h) s.history) (Core.cast_history (Core.note (s.on _) _) _ _ _)
  | abstain => exact Core.cast_history (s.on _) _ _ _
  | enter h p => exact Core.cast_history (s.on _) _ _ _

theorem Moves.history {s s' : Core} (h : Moves c ρ s s') : s.history <:+ s'.history := by
  induction h with
  | refl => exact List.suffix_refl _
  | tail _ hm ih => exact ih.trans hm.history

theorem Moves.height {s s' : Core} (h : Moves c ρ s s') : s'.rs.height = s.rs.height := by
  induction h with
  | refl => rfl
  | tail _ hm ih =>
    rw [← ih]
    cases hm with
    | lock | abstain | enter =>
      rw [Core.cast_rs]
      rfl
    | _ => rfl

/-! ## Handlers -/

/-- A frame pushed by a handler: a persist, or a vote of the engine's own that is in the
    history, to be tallied with the handler's validators or those of the store. -/
def Pushed (c : Config σ) (vals : Stakes) (db : DB) (history : List Entry) (f : Frame) : Prop :=
  f = .persist ∨ ∃ type height round blockHash lockedBlock w,
    f = .vote (signVote c type height round blockHash) w ∧
      Entry.cast type height round blockHash lockedBlock ∈ history ∧ (w = vals ∨ w = bondedAmounts db)

theorem Pushed.mono {vals : Stakes} {db : DB} {l l' : List Entry} {f : Frame} (h : Pushed c vals db l f)
    (hl : l <:+ l') :
    Pushed c vals db l' f := by
  rcases h with h | ⟨t, ht, r, x, lock, w, hf, hm, hw⟩
  · exact Or.inl h
  · exact Or.inr ⟨t, ht, r, x, lock, w, hf, hl.subset hm, hw⟩

/-- The proposer is told of a rejected block, or of a transaction. -/
def Feeds (c : Config σ) (ρ : Rules) (m m' : σ) : Prop :=
  (∃ height txs, m' = c.proposer.onReject m height txs) ∨ ∃ t, ρ.tx t ∧ m' = c.proposer.enqueue m t

/-- What a handler called with the validators `vals` does, short of a commit. -/
structure Runs (c : Config σ) (ρ : Rules) (vals : Stakes) (e e' : Engine σ) : Prop where
  validators : e'.validators = e.validators
  db : e'.disk.db = e.disk.db
  stack : ∃ fs, e'.stack = fs ++ e.stack ∧ ∀ f ∈ fs, Pushed c vals e.disk.db e'.history f
  moves : Moves c ρ e.core e'.core
  pool : ReflTransGen (Feeds c ρ) e.pool e'.pool

namespace Runs

variable {vals w : Stakes} {e e₁ e₂ : Engine σ}

theorem height (h : Runs c ρ vals e e₁) : e₁.rs.height = e.rs.height := h.moves.height

theorem refl (e : Engine σ) : Runs c ρ vals e e :=
  ⟨rfl, rfl, ⟨[], rfl, fun _ h => nomatch h⟩, .refl, .refl⟩

theorem trans (h : Runs c ρ vals e e₁) (h' : Runs c ρ vals e₁ e₂) : Runs c ρ vals e e₂ := by
  refine ⟨h'.validators.trans h.validators, h'.db.trans h.db, ?_, h.moves.trans h'.moves, h.pool.trans h'.pool⟩
  obtain ⟨fs, hfs, hp⟩ := h.stack
  obtain ⟨gs, hgs, hq⟩ := h'.stack
  refine ⟨gs ++ fs, by rw [hgs, hfs, List.append_assoc], ?_⟩
  intro f hf
  rcases List.mem_append.mp hf with hf | hf
  · have := hq f hf
    rwa [h.db] at this
  · exact (hp f hf).mono h'.moves.history

theorem quiet (hv : e₁.validators = e.validators) (hdb : e₁.disk.db = e.disk.db) (hs : e₁.stack = e.stack)
    (hc : e₁.core = e.core) (hp : e₁.pool = e.pool) : Runs c ρ vals e e₁ := by
  refine ⟨hv, hdb, ⟨[], hs, fun _ h => nomatch h⟩, ?_, ?_⟩
  · rw [hc]
  · rw [hp]

theorem move (hv : e₁.validators = e.validators) (hdb : e₁.disk.db = e.disk.db) (hs : e₁.stack = e.stack)
    (hm : Move c ρ e.core e₁.core) (hp : e₁.pool = e.pool) : Runs c ρ vals e e₁ :=
  ⟨hv, hdb, ⟨[], hs, fun _ h => nomatch h⟩, .single hm, hp ▸ .refl⟩

theorem ofStore (h : Runs c ρ (bondedAmounts e.disk.db) e e₁) : Runs c ρ vals e e₁ := by
  refine ⟨h.validators, h.db, ?_, h.moves, h.pool⟩
  obtain ⟨fs, hfs, hp⟩ := h.stack
  refine ⟨fs, hfs, fun f hf => ?_⟩
  rcases hp f hf with hp | ⟨t, ht, r, x, l, w, hf, hm, hw⟩
  · exact Or.inl hp
  · exact Or.inr ⟨t, ht, r, x, l, w, hf, hm, Or.inr (or_self_iff.mp hw)⟩

end Runs

section

variable {vals : Stakes} {e e₁ : Engine σ}

/-- The slot of a vote would be written. -/
def writes (c : Config σ) (rs : RoundState) (t : VoteType) : Bool := c.fault (.slot rs.height rs.round t) = none

/-- The rules allow the slots to be written, or not, as it happens. -/
def Reserves (c : Config σ) (ρ : Rules) : Prop := ∀ rs t, ρ.reserve rs.height rs.round t (writes c rs t)

theorem castVote_core (t : VoteType) (h : Hash) : (castVote c t h vals e).core = e.core.cast t h (writes c e.rs t) := by
  unfold castVote Core.cast recordConsensusVote writes
  by_cases hs : (e.rs.height, e.rs.round, t) ∈ e.disk.slots
  · simp [Engine.core, hs]
  · by_cases hf : c.fault (.slot e.rs.height e.rs.round t) = none
    · simp [Engine.core, hs, hf]
    · simp [Engine.core, hs, hf]

/-- A cast is the end of a move: the move's other half is what came before it. -/
theorem castVote_runs {t : VoteType} {h : Hash} (hv : e₁.validators = e.validators) (hdb : e₁.disk.db = e.disk.db)
    (hpool : e₁.pool = e.pool) (hs : ∃ fs, e₁.stack = fs ++ e.stack ∧ ∀ f ∈ fs, f = .persist)
    (hm : Moves c ρ e.core (e₁.core.cast t h (writes c e₁.rs t))) : Runs c ρ vals e (castVote c t h vals e₁) := by
  obtain ⟨fs, hfs, hp⟩ := hs
  have hcore : (castVote c t h vals e₁).core = e₁.core.cast t h (writes c e₁.rs t) := castVote_core t h
  rw [← hcore] at hm
  revert hm
  unfold castVote
  dsimp only
  split
  · exact fun hm => ⟨hv, hdb, ⟨fs, hfs, fun f hf => Or.inl (hp f hf)⟩, hm, hpool ▸ .refl⟩
  · refine fun hm => ⟨hv, hdb, ⟨.vote (signVote c t e₁.rs.height e₁.rs.round h) vals :: fs, ?_, ?_⟩, hm, hpool ▸ .refl⟩
    · exact congrArg (_ :: ·) hfs
    · intro f hf
      rcases List.mem_cons.mp hf with rfl | hf
      · exact Or.inr ⟨t, _, _, h, e₁.rs.lockedBlock, vals, rfl, List.mem_cons_self, Or.inl rfl⟩
      · exact Or.inl (hp f hf)

@[simp] theorem persist_rs : (e.persist c).rs = e.rs := by
  unfold Engine.persist
  split <;> rfl

theorem persist_core : (e.persist c).core = e.core ∨ (e.persist c).core = { e.core with snapshot := some e.rs } := by
  unfold Engine.persist
  split
  · exact Or.inr rfl
  · exact Or.inl rfl

theorem persist_moves : Moves c ρ e.core (e.persist c).core := by
  rcases persist_core (c := c) (e := e) with h | h
  · rw [h]
  · rw [h]
    exact .single (.persist e.core)

@[simp] theorem persist_db : (e.persist c).disk.db = e.disk.db := by
  unfold Engine.persist
  split <;> rfl

@[simp] theorem persist_pool : (e.persist c).pool = e.pool := by
  unfold Engine.persist
  split <;> rfl

theorem persist_runs : Runs c ρ vals e (e.persist c) := by
  refine ⟨?_, ?_, ⟨[], ?_, fun _ h => nomatch h⟩, persist_moves, persist_pool (c := c) (e := e) ▸ .refl⟩ <;>
    unfold Engine.persist <;> split <;> rfl

/-- The proposal the engine would put forward now. -/
def ownProposal (c : Config σ) (e : Engine σ) : Option BlockProposal :=
  c.proposer.propose e.pool e.rs.height e.rs.round e.rs.lastAttestation e.prevStateRoot

/-- The rules allow every proposal the engine would put forward when elected from `vals`. -/
def Offers (c : Config σ) (ρ : Rules) (e : Engine σ) (vals : Stakes) : Prop :=
  ∀ rs p, proposerOf c { e with rs } vals = c.self → ownProposal c { e with rs } = some p → ρ.proposal rs p

theorem broadcastProposal_runs (hw : Reserves c ρ)
    (hown : ∀ p, ownProposal c e = some p → e.rs.lockedBlock = none ∨
      ρ.own e.rs.lockedBlock (blockHashForChain c.W.toPrim p c.chainID))
    (hprop : ∀ p, ownProposal c e = some p → ρ.proposal e.rs p) :
    Runs c ρ vals e (broadcastProposal c vals e) := by
  unfold broadcastProposal
  split
  · exact .refl e
  · rename_i p hp
    split
    · exact .refl e
    · rename_i hphase
      have hphase : e.rs.phase = .propose := not_not.mp (not_or.mp hphase).1
      have henter := Move.enter (c := c) (ρ := ρ) e.core (blockHashForChain c.W.toPrim p c.chainID) (some p)
        (writes c e.rs .prevote) hphase (Or.inr ((hown p hp).imp id Or.inr)) (hw e.rs .prevote)
        (Or.inr ⟨p, rfl, hprop p hp⟩)
      -- the persist stands before the cast, which does not touch the round state
      refine castVote_runs ?_ ?_ ?_ ⟨[], ?_, fun _ h => nomatch h⟩ (.trans (.single henter) ?_)
      · unfold Engine.persist; split <;> rfl
      · unfold Engine.persist; split <;> rfl
      · unfold Engine.persist; split <;> rfl
      · unfold Engine.persist; split <;> rfl
      · set e₂ : Engine σ := { e with rs := { e.rs with proposal := some p, phase := .prevote } }
        have hcast : (e.core.on fun rs => { rs with proposal := some p, phase := .prevote }) = e₂.core := rfl
        rw [hcast, persist_rs]
        rcases persist_core (c := c) (e := e₂) with h | h
        · rw [h]
          exact .refl
        · rw [h, Core.cast_withSnapshot e₂.core .prevote _ _ (some e₂.rs)]
          have hlast := Move.persist (c := c) (ρ := ρ)
            (e₂.core.cast .prevote (blockHashForChain c.W.toPrim p c.chainID) (writes c e₂.rs .prevote))
          rw [Core.cast_rs] at hlast
          exact .single hlast

theorem persist_stack : (e.persist c).stack = e.stack := by
  unfold Engine.persist
  split <;> rfl

@[simp] theorem persist_history : (e.persist c).history = e.history := by
  unfold Engine.persist
  split <;> rfl

theorem restartRound_runs (hw : Reserves c ρ) (hr : ρ.restart e.core) (ha : ρ.advance e.rs.round)
    (ho : Offers c ρ e (bondedAmounts e.disk.db)) : Runs c ρ vals e (restartRound c e) := by
  have hstart : Runs c ρ (bondedAmounts e.disk.db) e
      (({ e with rs := e.rs.unlock.incrementRound, history := .unlocked :: e.history
                 proposeTimer := some (e.rs.height, e.rs.round + 1) } : Engine σ).push .persist) :=
    ⟨rfl, rfl, ⟨[.persist], rfl, fun f hf => Or.inl (List.mem_singleton.mp hf)⟩, .single (.restart e.core hr ha), .refl⟩
  apply Runs.ofStore
  unfold restartRound
  dsimp only
  split
  · rename_i helected
    exact hstart.trans (broadcastProposal_runs hw (fun p _ => Or.inl rfl) fun p hp => ho _ p helected hp)
  · exact hstart

theorem notePolka_runs (hs : ρ.stakes vals) {order : MapOrder} :
    Runs c ρ vals e (e.notePolka (quorumBlock order e.rs.prevotes vals)) := by
  cases hq : quorumBlock order e.rs.prevotes vals with
  | none => exact .refl e
  | some h => exact .move rfl rfl rfl (.polka e.core h vals hs (quorumBlock_some hq)) rfl

theorem receivePrevote_runs (hw : Reserves c ρ) {v : Vote} (hc : Counts c ρ e.rs v vals)
    (ht : v.type = VoteType.prevote.code)
    (order : MapOrder) : Runs c ρ vals e (receivePrevote c order v vals e) := by
  unfold receivePrevote
  split
  · exact .refl e
  · rename_i hdup
    dsimp only
    set e₁ : Engine σ := { e with rs := { e.rs with prevotes := e.rs.prevotes.put v.validatorPK v } }
    have h1 : Runs c ρ vals e e₁ := .move rfl rfl rfl
      (.prevote e.core v vals hc ht (Option.not_isSome_iff_eq_none.mp hdup)) rfl
    have h2 : Runs c ρ vals e₁ ((e₁.notePolka (quorumBlock order e₁.rs.prevotes vals)).persist c) :=
      (notePolka_runs hc.stakes).trans persist_runs
    have hrs : ((e₁.notePolka (quorumBlock order e₁.rs.prevotes vals)).persist c).rs = e₁.rs := by
      rw [persist_rs]
      cases quorumBlock order e₁.rs.prevotes vals <;> rfl
    refine (h1.trans h2).trans ?_
    split
    · rename_i hquorum
      obtain ⟨-, hphase⟩ := hquorum
      cases hq : quorumBlock order e₁.rs.prevotes vals with
      | none =>
        rw [hq] at hphase
        exact castVote_runs rfl rfl rfl ⟨[], rfl, fun _ h => nomatch h⟩
          (.single (.abstain (Engine.core _) _ hphase (hw _ .precommit)))
      | some h =>
        rw [hq] at hphase hrs
        refine castVote_runs rfl rfl rfl ⟨[], rfl, fun _ h => nomatch h⟩
          (.single (.lock (Engine.core _) h vals _ hc.stakes hphase ?_ ?_ (hw _ .precommit)))
        · show decided ((e₁.notePolka (some h)).persist c).rs.prevotes vals h = true
          rw [hrs]
          exact quorumBlock_some hq
        · show Entry.polka ((e₁.notePolka (some h)).persist c).rs.height
            ((e₁.notePolka (some h)).persist c).rs.round h ∈
            ((e₁.notePolka (some h)).persist c).history
          rw [hrs, persist_history]
          exact List.mem_cons_self
    · exact .refl _

theorem rejectProposal_runs : Runs c ρ vals e (rejectProposal c e) := by
  unfold rejectProposal
  split
  · exact .refl e
  · exact ⟨rfl, rfl, ⟨[], rfl, fun _ h => nomatch h⟩, .refl, .single (Or.inl ⟨_, _, rfl⟩)⟩

/-- The ways a vote, or the commit branch of `Start`, can end. -/
inductive Ends (c : Config σ) (ρ : Rules) (order : MapOrder) (vals : Stakes) (e : Engine σ) : Outcome σ → Prop
  | stay (e' : Engine σ) : Runs c ρ vals e e' → Ends c ρ order vals e (.stay e')
  | restart (e' : Engine σ) : Runs c ρ vals e e' → Ends c ρ order vals e (.restart e')
  | crash (e' : Engine σ) : Runs c ρ vals e e' → Ends c ρ order vals e (.crash e')
  | committed (h : Hash) (e₁ e' : Engine σ) : Runs c ρ vals e e₁ → e₁.stack = e.stack → h ≠ 0 →
      decided e₁.rs.precommits vals h = true → commit c order h e₁ = .ok e' → Ends c ρ order vals e (.committed h e')

theorem Ends.after {order : MapOrder} {o : Outcome σ} (h : Runs c ρ vals e e₁) (hs : e₁.stack = e.stack)
    (he : Ends c ρ order vals e₁ o) : Ends c ρ order vals e o := by
  cases he with
  | stay e' h' => exact .stay e' (h.trans h')
  | restart e' h' => exact .restart e' (h.trans h')
  | crash e' h' => exact .crash e' (h.trans h')
  | committed x e₂ e' h' hs' hx hd hc => exact .committed x e₂ e' (h.trans h') (hs'.trans hs) hx hd hc

theorem tryCommit_ends {order : MapOrder} {h : Hash} (hx : h ≠ 0) (hd : decided e.rs.precommits vals h = true) :
    Ends c ρ order vals e (tryCommit c order h e) := by
  unfold tryCommit
  split
  · exact .committed h e _ (.refl e) rfl hx hd ‹_›
  · have hnote : Runs c ρ vals e (e.note (.refused e.rs.height h)) := .move rfl rfl rfl (.refuse e.core h) rfl
    exact .restart _ (hnote.trans rejectProposal_runs)
  · exact .restart _ rejectProposal_runs
  · exact .crash _ (.refl e)

theorem receivePrecommit_ends {v : Vote} (hc : Counts c ρ e.rs v vals) (ht : v.type = VoteType.precommit.code)
    (order : MapOrder) : Ends c ρ order vals e (receivePrecommit c order v vals e) := by
  unfold receivePrecommit
  split
  · exact .stay e (.refl e)
  · rename_i hdup
    dsimp only
    set e₁ : Engine σ := { e with rs := { e.rs with precommits := e.rs.precommits.put v.validatorPK v } }
    have h1 : Runs c ρ vals e e₁ := .move rfl rfl rfl
      (.precommit e.core v vals hc ht (Option.not_isSome_iff_eq_none.mp hdup)) rfl
    apply Ends.after (h1.trans persist_runs) persist_stack
    split
    · rename_i hquorum
      split
      · rename_i h hq
        split
        · rename_i hx
          have h2 : Runs c ρ vals (e₁.persist c) { (e₁.persist c).setPhase .commit with precommitTimer := none } :=
            .move rfl rfl rfl (.decide (Engine.core _) hquorum.2) rfl
          exact Ends.after h2 rfl (tryCommit_ends hx (quorumBlock_some hq))
        · exact .restart _ rejectProposal_runs
      · exact .restart _ rejectProposal_runs
    · exact .stay _ (.refl _)

theorem counts_of_acceptable {v : Vote} (h : acceptable c v vals e = true) (hv : ρ.vote v) (hs : ρ.stakes vals) :
    Counts c ρ e.rs v vals := by
  simp only [acceptable, Bool.and_eq_true, decide_eq_true_eq] at h
  obtain ⟨⟨⟨h1, h2⟩, h3⟩, h4⟩ := h
  exact ⟨hv, hs, h1, h2, h3, h4⟩

theorem Counts.type_eq {v : Vote} (h : Counts c ρ e.rs v vals) (ht : v.type ≠ VoteType.prevote.code) :
    v.type = VoteType.precommit.code := by
  have h := h.verified
  simp only [verifyVoteForChain, Bool.and_eq_true, Bool.or_eq_true, decide_eq_true_eq] at h
  exact h.1.resolve_left ht

theorem receiveVote_ends (hw : Reserves c ρ) {v : Vote} (hv : ρ.vote v) (hs : ρ.stakes vals) (order : MapOrder) :
    Ends c ρ order vals e (receiveVote c order v vals e) := by
  unfold receiveVote
  split
  · rename_i hacc
    have hc := counts_of_acceptable hacc hv hs
    split
    · rename_i ht
      exact .stay _ (receivePrevote_runs hw hc ht order)
    · rename_i ht
      exact receivePrecommit_ends hc (hc.type_eq ht) order
  · exact .stay e (.refl e)

theorem recommit_ends (order : MapOrder) : Ends c ρ order e.validators e (recommit c order e) := by
  unfold recommit
  split
  · rename_i h hq
    split
    · rename_i hx
      exact tryCommit_ends hx (quorumBlock_some hq)
    · exact .stay e (.refl e)
  · exact .stay e (.refl e)

theorem handleProposal_runs (hw : Reserves c ρ) (p : BlockProposal)
    (hprop : timely c p e = true → checkProposal c p e = .ok () → ρ.proposal e.rs p) :
    Runs c ρ e.validators e (handleProposal c p e) := by
  unfold handleProposal
  split
  · rename_i ht
    have hphase : e.rs.phase = .propose := by
      simp only [timely, Bool.and_eq_true, decide_eq_true_eq] at ht
      exact ht.1.1.2
    split
    · rename_i hcheck
      refine castVote_runs rfl rfl rfl ⟨[.persist], rfl, fun _ h => List.mem_singleton.mp h⟩
        (.single (.enter e.core _ (some p) _ hphase ?_ (hw _ .prevote) (Or.inr ⟨p, rfl, hprop ht hcheck⟩)))
      -- the lock rule
      show prevoteFor e.rs.lockedBlock _ = 0 ∨ _
      unfold prevoteFor
      split
      · rename_i hl
        rcases hl with hl | hl
        · exact Or.inr (Or.inl hl)
        · exact Or.inr (Or.inr (Or.inl hl))
      · exact Or.inl rfl
    · exact .refl e
    · exact .quiet rfl rfl rfl rfl rfl
  · exact .refl e

theorem onProposeTimeout_runs (hw : Reserves c ρ) (e : Engine σ) : Runs c ρ e.validators e (onProposeTimeout c e) := by
  unfold onProposeTimeout
  split
  · exact .refl e
  · rename_i hp
    exact castVote_runs rfl rfl rfl ⟨[.persist], rfl, fun _ h => List.mem_singleton.mp h⟩
      (.single (.enter e.core 0 e.rs.proposal _ (not_not.mp hp) (Or.inl rfl) (hw _ .prevote) (Or.inl rfl)))

theorem onPrevoteTimeout_runs (hw : Reserves c ρ) (e : Engine σ) : Runs c ρ e.validators e (onPrevoteTimeout c e) := by
  unfold onPrevoteTimeout
  split
  · exact .refl e
  · rename_i hp
    exact castVote_runs rfl rfl rfl ⟨[.persist], rfl, fun _ h => List.mem_singleton.mp h⟩
      (.single (.abstain e.core _ (not_not.mp hp) (hw _ .precommit)))

end

end Frg.Consensus
