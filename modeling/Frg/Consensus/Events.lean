/-
  Frg.Consensus.Events — one vote, proposal or timeout, followed to its end.

  `handleVote`, `restartRound` and `broadcastProposal` call each other, and nothing counts the
  rounds they go through. A round that a call begins has no votes but the engine's own, and its
  proposal is the head of the mempool; when such a round is given up its block was refused, and
  `OnReject` takes the transactions out of the mempool. A block without transactions applies.
  So behind the round the event found, there is at most one round for each transaction and one
  for the empty block.

    - `removeCommitted_shorter`: a rejected proposal of the block loop shortens its mempool.
    - `handleVote_remains`: a vote costs its frame, or a round that the mempool pays for.
    - `event_ends`: whatever the handlers do with the event of a node whose mempool holds `M`
      transactions, they are through after `3 * M + 6` calls and `M + 2` rounds.
-/

import Frg.Chain.Replicas
import Frg.Consensus.Codec
import Frg.Consensus.WellLocked

namespace Frg.Consensus

open Frg.Lib Frg.Core Frg.Wire Frg.Chain Relation

/-! ## The mempool -/

namespace Mempool

variable {P : Prim} {m : Mempool}

/-- Every transaction is queued under its ID. -/
def Indexed (P : Prim) (m : Mempool) : Prop := ∀ x ∈ m.queue, x.2.id P = .ok x.1

theorem indexed_new (cap : Nat) : (Mempool.new cap).Indexed P := fun _ h => absurd h List.not_mem_nil

theorem Indexed.enqueue (h : m.Indexed P) (t : Tx) : (m.enqueue P t).Indexed P := by
  unfold Mempool.enqueue
  split
  · rename_i id hid
    split
    · exact h
    · intro x hx
      rcases List.mem_append.mp hx with hx | hx
      · exact h x (m.makeRoom_sublist.subset hx)
      · rw [List.mem_singleton.mp hx]
        exact hid
  · exact h

theorem Indexed.removeCommitted (h : m.Indexed P) (txs : List Tx) : (m.removeCommitted P txs).Indexed P :=
  fun x hx => h x ((removeCommitted_sublist P txs m).subset hx)

theorem removeCommitted_shorter (h : m.Indexed P) {txs : List Tx} (htxs : txs = (m.queue.take tMax).map (·.2))
    (hne : txs ≠ []) : (m.removeCommitted P txs).queue.length < m.queue.length := by
  have hsub := removeCommitted_sublist P txs m
  refine lt_of_le_of_ne hsub.length_le fun heq => ?_
  have hsame : (m.removeCommitted P txs).queue = m.queue := hsub.eq_of_length heq
  cases hq : m.queue with
  | nil =>
    rw [hq] at htxs
    exact hne htxs
  | cons x rest =>
    have hx : x ∈ m.queue := hq ▸ List.mem_cons_self
    have htx : x.2 ∈ txs := by
      rw [htxs, hq]
      exact List.mem_map_of_mem (List.mem_cons_self : x ∈ (x :: rest).take tMax)
    have hkept : (x.1, x.2) ∈ (m.removeCommitted P txs).queue := hsame ▸ hx
    exact (mem_removeCommitted.mp hkept).2 x.2 htx (h x hx)

end Mempool

/-! ## A round with one vote -/

theorem order_singleton (order : MapOrder) (k : Key) : order.list [k] = [k] :=
  List.perm_singleton.mp (order.perm [k])

theorem quorumBlock_single {v : Vote} {vals : Stakes} (order : MapOrder)
    (h : quorumReached (Bucket.empty.put v.validatorPK v) vals = true) :
    quorumBlock order (Bucket.empty.put v.validatorPK v) vals = some v.blockHash := by
  have hentries : (Bucket.empty.put v.validatorPK v).entries = [(v.validatorPK, v)] := rfl
  unfold quorumReached sumVoted at h
  rw [hentries, decide_eq_true_eq] at h
  have hsum : 2 * totalStake vals < 3 * (stakeOf vals v.validatorPK).getD 0 := by simpa using h
  have hstake : (stakeOf vals v.validatorPK).isSome = true := by
    cases hs : stakeOf vals v.validatorPK with
    | some n => rfl
    | none =>
      rw [hs] at hsum
      exact absurd hsum (by simp)
  have htallied : tallied (Bucket.empty.put v.validatorPK v) vals = [v.blockHash] := by
    unfold tallied
    rw [hentries]
    simp [hstake]
  have hdecided : decided (Bucket.empty.put v.validatorPK v) vals v.blockHash = true := by
    unfold decided tally
    rw [hentries, decide_eq_true_eq]
    simpa using hsum
  unfold quorumBlock
  rw [htallied, order_singleton, List.find?_cons_of_pos hdecided]

/-! ## Calls -/

variable {σ : Type} {c : Config σ} {order : MapOrder} {vals : Stakes} {e e₁ : Engine σ} {i : Input}

def Frame.weight : Frame → Nat
  | .vote v _ => if v.type = VoteType.prevote.code then 2 else 1
  | .persist | .recommit => 1

/-- What the calls still to be made come to, short of a new round. -/
def load (s : List Frame) : Nat := (s.map Frame.weight).sum

theorem load_cons (f : Frame) (s : List Frame) : load (f :: s) = f.weight + load s := rfl

def Persists (s : List Frame) : Prop := ∀ f ∈ s, f = .persist

theorem Frame.weight_pos (f : Frame) : 1 ≤ f.weight := by
  cases f with
  | vote v vals =>
    show 1 ≤ if v.type = VoteType.prevote.code then 2 else 1
    split
    · omega
    · omega
  | persist | recommit => exact le_rfl

theorem Frame.weight_le (f : Frame) : f.weight ≤ 2 := by
  cases f with
  | vote v vals =>
    show (if v.type = VoteType.prevote.code then 2 else 1) ≤ 2
    split
    · omega
    · omega
  | persist | recommit => exact Nat.le_succ 1

theorem castVote_stack (c : Config σ) (t : VoteType) (h : Hash) (vals : Stakes) (e : Engine σ) :
    (castVote c t h vals e).stack = e.stack ∨
      (castVote c t h vals e).stack = .vote (signVote c t e.rs.height e.rs.round h) vals :: e.stack := by
  unfold castVote
  split
  · exact .inl rfl
  · exact .inr rfl

/-- The block the round is about, the precommits on it, the chain and the mempool stay. -/
structure SameBlock (e e₁ : Engine σ) : Prop where
  height : e₁.rs.height = e.rs.height
  attestation : e₁.rs.lastAttestation = e.rs.lastAttestation
  proposal : e₁.rs.proposal = e.rs.proposal
  precommits : e₁.rs.precommits = e.rs.precommits
  db : e₁.disk.db = e.disk.db
  pool : e₁.pool = e.pool

theorem SameBlock.trans {e₂ : Engine σ} (h : SameBlock e e₁) (h' : SameBlock e₁ e₂) : SameBlock e e₂ :=
  ⟨h'.height.trans h.height, h'.attestation.trans h.attestation, h'.proposal.trans h.proposal,
    h'.precommits.trans h.precommits, h'.db.trans h.db, h'.pool.trans h.pool⟩

theorem castVote_rs (t : VoteType) (h : Hash) : (castVote c t h vals e).rs = e.rs := by
  unfold castVote
  split <;> rfl

theorem castVote_same (t : VoteType) (h : Hash) : SameBlock e (castVote c t h vals e) := by
  unfold castVote
  split
  · exact ⟨rfl, rfl, rfl, rfl, rfl, rfl⟩
  · exact ⟨rfl, rfl, rfl, rfl, rfl, rfl⟩

theorem persist_same : SameBlock e (e.persist c) :=
  ⟨by rw [persist_rs], by rw [persist_rs], by rw [persist_rs], by rw [persist_rs], persist_db, persist_pool⟩

theorem notePolka_same (q : Option Hash) : SameBlock e (e.notePolka q) := by
  cases q with
  | none => exact ⟨rfl, rfl, rfl, rfl, rfl, rfl⟩
  | some h => exact ⟨rfl, rfl, rfl, rfl, rfl, rfl⟩

/-- The proposer's call: nothing, or its own proposal and a prevote for it. -/
theorem broadcastProposal_cases (c : Config σ) (vals : Stakes) (e : Engine σ) : broadcastProposal c vals e = e ∨ ∃ p,
    ownProposal c e = some p ∧ (serializeProposal c.W.toPrim p).isOk = true ∧
      SameBlock { e with rs := { e.rs with proposal := some p, phase := .prevote } } (broadcastProposal c vals e) ∧
      (broadcastProposal c vals e).rs.prevotes = e.rs.prevotes ∧
      ((broadcastProposal c vals e).stack = e.stack ∨ (broadcastProposal c vals e).stack =
        .vote (signVote c .prevote e.rs.height e.rs.round (blockHashForChain c.W.toPrim p c.chainID)) vals ::
          e.stack) := by
  unfold broadcastProposal
  split
  · exact .inl rfl
  · rename_i p hp
    split
    · exact .inl rfl
    · rename_i hready
      right
      set e₂ : Engine σ := { e with rs := { e.rs with proposal := some p, phase := .prevote } }
      have hok : (serializeProposal c.W.toPrim p).isOk = true := (Bool.not_eq_false _).mp (not_or.mp hready).2
      refine ⟨p, hp, hok, persist_same.trans (castVote_same _ _), ?_, ?_⟩
      · rw [broadcastPrevote, castVote_rs, persist_rs]
      · have hstack := castVote_stack c .prevote (blockHashForChain c.W.toPrim p c.chainID) vals (e₂.persist c)
        rw [persist_stack, persist_rs] at hstack
        exact hstack

/-- A prevote is counted, and at most the engine's precommit follows it. -/
theorem receivePrevote_cases (c : Config σ) (order : MapOrder) (v : Vote) (vals : Stakes) (e : Engine σ) :
    SameBlock e (receivePrevote c order v vals e) ∧
    ((receivePrevote c order v vals e).stack = e.stack ∨ ∃ w, w.type = VoteType.precommit.code ∧
      w.blockHash = (quorumBlock order (e.rs.prevotes.put v.validatorPK v) vals).getD 0 ∧
      quorumReached (e.rs.prevotes.put v.validatorPK v) vals = true ∧
      (receivePrevote c order v vals e).stack = .vote w vals :: e.stack) := by
  unfold receivePrevote
  split
  · exact ⟨⟨rfl, rfl, rfl, rfl, rfl, rfl⟩, .inl rfl⟩
  · dsimp only
    set e₁ : Engine σ := { e with rs := { e.rs with prevotes := e.rs.prevotes.put v.validatorPK v } }
    set q := quorumBlock order (e.rs.prevotes.put v.validatorPK v) vals
    set e₂ : Engine σ := (e₁.notePolka q).persist c
    have h1 : SameBlock e e₂ := by
      have hset : SameBlock e e₁ := ⟨rfl, rfl, rfl, rfl, rfl, rfl⟩
      exact hset.trans ((notePolka_same q).trans persist_same)
    have hrs : e₂.rs = e₁.rs := by
      rw [persist_rs]
      cases q <;> rfl
    have hstack : e₂.stack = e.stack := by
      rw [persist_stack]
      cases q <;> rfl
    rw [hrs]
    split
    · rename_i hquorum
      have hcast : ∀ (h : Hash) (e₃ : Engine σ), SameBlock e₂ e₃ → e₃.stack = e₂.stack → h = q.getD 0 →
          SameBlock e (broadcastPrecommit c h vals e₃) ∧ ((broadcastPrecommit c h vals e₃).stack = e.stack ∨
            ∃ w, w.type = VoteType.precommit.code ∧ w.blockHash = q.getD 0 ∧
              quorumReached (e.rs.prevotes.put v.validatorPK v) vals = true ∧
              (broadcastPrecommit c h vals e₃).stack = .vote w vals :: e.stack) := by
        intro h e₃ hsame hst hh
        refine ⟨(h1.trans hsame).trans (castVote_same _ _), ?_⟩
        rcases castVote_stack c .precommit h vals e₃ with hs | hs
        · exact .inl (hs.trans (hst.trans hstack))
        · exact .inr ⟨_, rfl, hh, hquorum.1, hs.trans (by rw [hst, hstack])⟩
      clear_value e₂ q
      cases q with
      | some h => exact hcast h _ ⟨rfl, rfl, rfl, rfl, rfl, rfl⟩ rfl rfl
      | none => exact hcast 0 _ ⟨rfl, rfl, rfl, rfl, rfl, rfl⟩ rfl rfl
    · exact ⟨h1, .inl hstack⟩

/-! ### The end of a round -/

/-- The calls to come and the attestation of the last block stay. -/
structure Aside (e e₁ : Engine σ) : Prop where
  stack : e₁.stack = e.stack
  attestation : e₁.rs.lastAttestation = e.rs.lastAttestation

theorem Aside.trans {e₂ : Engine σ} (h : Aside e e₁) (h' : Aside e₁ e₂) : Aside e e₂ :=
  ⟨h'.stack.trans h.stack, h'.attestation.trans h.attestation⟩

theorem rejectProposal_aside : Aside e (rejectProposal c e) := by
  unfold rejectProposal
  split
  · exact ⟨rfl, rfl⟩
  · exact ⟨rfl, rfl⟩

theorem tryCommit_aside {h : Hash} : Aside e (tryCommit c order h e).engine := by
  unfold tryCommit
  split
  · rename_i hok
    obtain ⟨p, bytes, r, db, -, -, -, -, rfl⟩ := commit_ok c hok
    exact ⟨rfl, rfl⟩
  · have hnote : Aside e (e.note (.refused e.rs.height h)) := ⟨rfl, rfl⟩
    exact hnote.trans rejectProposal_aside
  · exact rejectProposal_aside
  · exact ⟨rfl, rfl⟩

/-- A precommit casts no vote; the next attestation comes with the next height. -/
theorem receivePrecommit_aside (c : Config σ) (order : MapOrder) (v : Vote) (vals : Stakes) (e : Engine σ) :
    Aside e (receivePrecommit c order v vals e).engine := by
  unfold receivePrecommit
  split
  · exact ⟨rfl, rfl⟩
  · dsimp only
    set e₁ : Engine σ := { e with rs := { e.rs with precommits := e.rs.precommits.put v.validatorPK v } }
    have hset : Aside e e₁ := ⟨rfl, rfl⟩
    have hput : Aside e (e₁.persist c) := hset.trans ⟨persist_stack, by rw [persist_rs]⟩
    have hstop : Aside e { (e₁.persist c).setPhase .commit with precommitTimer := none } :=
      ⟨hput.stack, hput.attestation⟩
    split
    · split
      · split
        · exact hstop.trans tryCommit_aside
        · exact hput.trans rejectProposal_aside
      · exact hput.trans rejectProposal_aside
    · exact hput

/-- A vote that ends a round casts none. -/
theorem receiveVote_aside {c : Config σ} {order : MapOrder} {v : Vote} {vals : Stakes} {e : Engine σ} {o : Outcome σ}
    (ho : receiveVote c order v vals e = o) (hend : ∀ e₁, o ≠ .stay e₁) : Aside e o.engine := by
  subst ho
  unfold receiveVote at hend ⊢
  by_cases hacc : acceptable c v vals e = true
  · rw [if_pos hacc] at hend ⊢
    by_cases hty : v.type = VoteType.prevote.code
    · rw [if_pos hty] at hend
      exact absurd rfl (hend _)
    · rw [if_neg hty]
      exact receivePrecommit_aside c order v vals e
  · rw [if_neg hacc] at hend
    exact absurd rfl (hend _)

/-- The round is given up: its proposal is rejected, and the chain is as it was. -/
structure GivesUp (c : Config σ) (e e₁ : Engine σ) : Prop where
  height : e₁.rs.height = e.rs.height
  db : e₁.disk.db = e.disk.db
  pool : e₁.pool = (rejectProposal c e).pool

theorem rejectProposal_givesUp (hh : e₁.rs.height = e.rs.height) (hp : e₁.rs.proposal = e.rs.proposal)
    (hdb : e₁.disk.db = e.disk.db) (hpool : e₁.pool = e.pool) : GivesUp c e (rejectProposal c e₁) := by
  have hruns : Runs c .free [] e₁ (rejectProposal c e₁) := rejectProposal_runs
  refine ⟨hruns.height.trans hh, hruns.db.trans hdb, ?_⟩
  unfold rejectProposal
  rw [hp]
  split
  · exact hpool
  · dsimp only
    rw [hpool, hh]

theorem pending_givesUp (hr : pending c order e i = .restart e₁) : GivesUp c e e₁ := by
  rcases pending_cases c order e i with ⟨_, hs, -⟩ | ⟨e₀, ht, ⟨x, -, -, hs⟩ | ⟨-, hs⟩⟩ <;> rw [hr] at hs
  · cases hs
  · unfold tryCommit at hs
    split at hs
    · cases hs
    · obtain rfl := Outcome.restart.inj hs
      exact rejectProposal_givesUp ht.height ht.proposal ht.db ht.pool
    · obtain rfl := Outcome.restart.inj hs
      exact rejectProposal_givesUp ht.height ht.proposal ht.db ht.pool
    · cases hs
  · obtain rfl := Outcome.restart.inj hs
    exact rejectProposal_givesUp ht.height ht.proposal ht.db ht.pool

/-! ## What is left of an event -/

section

variable {W : World} {chainID : List UInt8} {kp : Key} {e₀ e e₁ : Engine Mempool} {v : Vote}
  {p : BlockProposal} {b : Nat}

/-- A proposal of the node behind the last block, in some round. -/
structure OwnParent (kp : Key) (e : Engine Mempool) (p : BlockProposal) : Prop where
  height : p.height = e.rs.height
  proposer : p.proposerPK = kp
  parent : p.prevStateRoot = e.disk.db.stateRoot
  attestation : p.prevAttestations = e.rs.lastAttestation

/-- The empty blocks the node could propose now apply, and their hashes are not the nil hash,
    which is never committed. -/
structure EmptyApplies (W : World) (chainID : List UInt8) (kp : Key) (e : Engine Mempool) : Prop where
  applies : ∀ (p : BlockProposal) (bytes : List UInt8) (order : MapOrder), p.txs = [] → OwnParent kp e p →
    serializeProposal W.toPrim p = .ok bytes →
      (applyBlockForChain W order e.disk.db (blockOf e.rs.height p bytes) chainID).1.isOk = true
  real : ∀ p : BlockProposal, p.txs = [] → OwnParent kp e p → blockHashForChain W.toPrim p chainID ≠ 0

/-- The event has not moved the chain. -/
structure SameChain (W : World) (e₀ e : Engine Mempool) : Prop where
  height : e.rs.height = e₀.rs.height
  attestation : e.rs.lastAttestation = e₀.rs.lastAttestation
  db : e.disk.db = e₀.disk.db
  indexed : e.pool.Indexed W.toPrim

theorem SameChain.kept (h : SameChain W e₀ e) (hb : SameBlock e e₁) : SameChain W e₀ e₁ :=
  ⟨hb.height.trans h.height, hb.attestation.trans h.attestation, hb.db.trans h.db, by rw [hb.pool]; exact h.indexed⟩

theorem SameChain.proposed (h : SameChain W e₀ e)
    (hb : SameBlock { e with rs := { e.rs with proposal := some p, phase := .prevote } } e₁) : SameChain W e₀ e₁ := by
  have hmid : SameChain W e₀ { e with rs := { e.rs with proposal := some p, phase := .prevote } } :=
    ⟨h.height, h.attestation, h.db, h.indexed⟩
  exact hmid.kept hb

theorem OwnParent.found (h : OwnParent kp e p) (hs : SameChain W e₀ e) : OwnParent kp e₀ p :=
  ⟨h.height.trans hs.height, h.proposer, by rw [h.parent, hs.db], h.attestation.trans hs.attestation⟩

theorem OwnParent.kept (h : OwnParent kp e p) (hb : SameBlock e e₁) : OwnParent kp e₁ p :=
  ⟨by rw [hb.height, h.height], h.proposer, by rw [hb.db, h.parent], by rw [hb.attestation, h.attestation]⟩

/-- The vote `v` is the engine's first prevote, or its first precommit, in a round on its own
    proposal `p`, which is the head of the mempool as it is now. -/
structure OwnRound (W : World) (chainID : List UInt8) (kp : Key) (e : Engine Mempool) (v : Vote) (p : BlockProposal) :
    Prop where
  proposal : e.rs.proposal = some p
  txs : p.txs = (e.pool.queue.take tMax).map (·.2)
  parent : OwnParent kp e p
  bytes : (serializeProposal W.toPrim p).isOk = true
  vote : v.blockHash = blockHashForChain W.toPrim p chainID
  first : e.rs.precommits = .empty ∧ (v.type = VoteType.prevote.code → e.rs.prevotes = .empty)

/-- At most `b` rounds are still to come: there are no votes left to count, or the mempool has
    less than `b` transactions, or it has at most `b` and the round is one of its own. -/
inductive Remains (W : World) (chainID : List UInt8) (kp : Key) (e₀ : Engine Mempool) (b : Nat)
    (e : Engine Mempool) : Prop
  | done : Persists e.stack → Remains W chainID kp e₀ b e
  | found (v : Vote) (vals : Stakes) (s : List Frame) : e.stack = .vote v vals :: s → Persists s → SameChain W e₀ e →
      e.pool.queue.length < b → Remains W chainID kp e₀ b e
  | own (v : Vote) (vals : Stakes) (s : List Frame) (p : BlockProposal) : e.stack = .vote v vals :: s → Persists s →
      SameChain W e₀ e → e.pool.queue.length ≤ b → OwnRound W chainID kp e v p → Remains W chainID kp e₀ b e

theorem broadcastProposal_remains {vals : Stakes} (hs : Persists e.stack) (hsame : SameChain W e₀ e)
    (hpv : e.rs.prevotes = .empty) (hpc : e.rs.precommits = .empty) (hb : e.pool.queue.length ≤ b) :
    Remains W chainID kp e₀ b (broadcastProposal (.node W chainID kp) vals e) ∧
      load (broadcastProposal (.node W chainID kp) vals e).stack ≤ load e.stack + 2 := by
  rcases broadcastProposal_cases (.node W chainID kp) vals e with heq | ⟨p, hp, hok, hset, hprev, hstack⟩
  · rw [heq]
    exact ⟨.done hs, Nat.le_add_right _ _⟩
  · have hp : propose W.toPrim kp chainID e.pool e.rs.height e.rs.round e.rs.lastAttestation e.prevStateRoot = p :=
      Option.some.inj hp
    rcases hstack with hstack | hstack
    · rw [hstack]
      exact ⟨.done (hstack ▸ hs), Nat.le_add_right _ _⟩
    · refine ⟨.own _ vals e.stack p hstack hs (hsame.proposed hset) (by rw [hset.pool]; exact hb) ?_, ?_⟩
      · refine ⟨hset.proposal, ?_, ?_, hok, rfl, hset.precommits.trans hpc, fun _ => hprev.trans hpv⟩
        · rw [hset.pool, ← hp]
          rfl
        · refine OwnParent.kept ?_ hset
          rw [← hp]
          exact ⟨rfl, rfl, rfl, rfl⟩
      · rw [hstack, load_cons, Nat.add_comm]
        exact Nat.add_le_add_left (Frame.weight_le _) _

theorem Persists.cons {s : List Frame} (h : Persists s) : Persists (.persist :: s) := by
  intro f hf
  rcases List.mem_cons.mp hf with rfl | hf
  · rfl
  · exact h f hf

theorem begins_remains {vals : Stakes} {elected : Prop} [Decidable elected] (hstack : e₁.stack = .persist :: e.stack)
    (hs : Persists e.stack) (hsame : SameChain W e₀ e₁) (hpv : e₁.rs.prevotes = .empty)
    (hpc : e₁.rs.precommits = .empty)
    (hb : e₁.pool.queue.length ≤ b) :
    Remains W chainID kp e₀ b (if elected then broadcastProposal (.node W chainID kp) vals e₁ else e₁) ∧
      load (if elected then broadcastProposal (.node W chainID kp) vals e₁ else e₁).stack ≤ load e.stack + 3 := by
  have hpush : Persists e₁.stack := hstack ▸ hs.cons
  have hload : load e₁.stack = 1 + load e.stack := by
    rw [hstack]
    rfl
  split
  · obtain ⟨hrem, hle⟩ := broadcastProposal_remains hpush hsame hpv hpc hb
    exact ⟨hrem, by omega⟩
  · exact ⟨.done hpush, by omega⟩

theorem restartRound_remains (hs : Persists e.stack) (hsame : SameChain W e₀ e) (hb : e.pool.queue.length ≤ b) :
    Remains W chainID kp e₀ b (restartRound (.node W chainID kp) e) ∧
      load (restartRound (.node W chainID kp) e).stack ≤ load e.stack + 3 :=
  begins_remains rfl hs ⟨hsame.height, hsame.attestation, hsame.db, hsame.indexed⟩ rfl rfl hb

theorem onPrecommitTimeout_remains (hs : Persists e.stack) (hsame : SameChain W e₀ e) (hb : e.pool.queue.length ≤ b) :
    Remains W chainID kp e₀ b (onPrecommitTimeout (.node W chainID kp) e) ∧
      load (onPrecommitTimeout (.node W chainID kp) e).stack ≤ load e.stack + 3 :=
  begins_remains rfl hs ⟨hsame.height, hsame.attestation, hsame.db, hsame.indexed⟩ rfl rfl hb

/-- A round of its own is given up only with transactions to reject. -/
theorem OwnRound.refused (hempty : EmptyApplies W chainID kp e₀) (hsame : SameChain W e₀ e)
    (hown : OwnRound W chainID kp e v p) {order : MapOrder} {vals : Stakes} (htop : incoming e .resume = some (v, vals))
    (hr : pending (.node W chainID kp) order e .resume = .restart e₁) : p.txs ≠ [] := by
  intro hnil
  have hend :=
    concludes_of_restarts (show (pending (.node W chainID kp) order e .resume).restarts = true by rw [hr]; rfl)
  simp only [concludes, htop, Bool.and_eq_true, decide_eq_true_eq] at hend
  have hquorum : quorumReached (Bucket.empty.put v.validatorPK v) vals = true := hown.first.1 ▸ hend.1.2
  have hq : quorumOf order e .resume = some (blockHashForChain W.toPrim p chainID) := by
    simp only [quorumOf, htop]
    rw [hown.first.1, quorumBlock_single order hquorum, hown.vote]
  have hreal := hempty.real p hnil (hown.parent.found hsame)
  obtain ⟨p', bytes, hp', -, hbytes, hrefused⟩ := pending_refuses hr hq hreal ⟨p, hown.proposal, rfl, hown.bytes⟩
  obtain rfl := Option.some.inj (hown.proposal.symm.trans hp')
  have happ := hempty.applies p bytes order hnil (hown.parent.found hsame) hbytes
  rw [hsame.db, hsame.height] at hrefused
  rcases hrefused with ⟨x, d, hx⟩ | ⟨r, d, x, -, hx⟩
  · have hx : applyBlockForChain W order e₀.disk.db (blockOf e₀.rs.height p bytes) chainID = (.err x, d) := hx
    rw [hx] at happ
    cases happ
  · cases hx

/-- A vote may be counted: it is in the round the event found, or in one of its own. -/
def Affords (W : World) (chainID : List UInt8) (kp : Key) (b : Nat) (e : Engine Mempool) (v : Vote) : Prop :=
  e.pool.queue.length < b ∨ e.pool.queue.length ≤ b ∧ ∃ p, OwnRound W chainID kp e v p

/-- The calls to come have no part in it. -/
theorem Affords.calls (h : Affords W chainID kp b e v) (s : List Frame) :
    Affords W chainID kp b { e with stack := s } v := by
  rcases h with h | ⟨h, p, hown⟩
  · exact .inl h
  · have hparent : OwnParent kp { e with stack := s } p := hown.parent.kept ⟨rfl, rfl, rfl, rfl, rfl, rfl⟩
    exact .inr ⟨h, p, hown.proposal, hown.txs, hparent, hown.bytes, hown.vote, hown.first⟩

/-- The mempool pays for the round that is given up. -/
theorem restart_pool (hempty : EmptyApplies W chainID kp e₀) (hsame : SameChain W e₀ e) {order : MapOrder}
    {vals : Stakes}
    (htop : incoming e .resume = some (v, vals)) (hb : Affords W chainID kp b e v)
    (hr : pending (.node W chainID kp) order e .resume = .restart e₁) :
    SameChain W e₀ e₁ ∧ e₁.pool.queue.length + 1 ≤ b := by
  have hup := pending_givesUp hr
  have hpool : ∀ p, e.rs.proposal = some p → e₁.pool = e.pool.removeCommitted W.toPrim p.txs := by
    intro p hp
    rw [hup.pool, rejectProposal, hp]
    rfl
  have hindexed : e₁.pool.Indexed W.toPrim := by
    cases hp : e.rs.proposal with
    | none =>
      rw [hup.pool, rejectProposal, hp]
      exact hsame.indexed
    | some p =>
      rw [hpool p hp]
      exact hsame.indexed.removeCommitted p.txs
  have hle : e₁.pool.queue.length ≤ e.pool.queue.length := by
    cases hp : e.rs.proposal with
    | none =>
      rw [hup.pool, rejectProposal, hp]
    | some p =>
      rw [hpool p hp]
      exact (Mempool.removeCommitted_sublist W.toPrim p.txs e.pool).length_le
  have hattest : e₁.rs.lastAttestation = e₀.rs.lastAttestation := by
    simp only [pending, htop] at hr
    exact (receiveVote_aside hr (by simp)).attestation.trans hsame.attestation
  refine ⟨⟨hup.height.trans hsame.height, hattest, hup.db.trans hsame.db, hindexed⟩, ?_⟩
  rcases hb with hb | ⟨hb, p, hown⟩
  · omega
  · have hne := hown.refused hempty hsame htop hr
    have hlt := Mempool.removeCommitted_shorter hsame.indexed hown.txs hne
    rw [← hpool p hown.proposal] at hlt
    omega

theorem stay_remains {order : MapOrder} {vals : Stakes} (hs : Persists e.stack) (hsame : SameChain W e₀ e)
    (hb : Affords W chainID kp b e v) (ho : receiveVote (.node W chainID kp) order v vals e = .stay e₁) :
    Remains W chainID kp e₀ b e₁ ∧ load e₁.stack + 1 ≤ load e.stack + (Frame.vote v vals).weight := by
  have hpos : 1 ≤ (Frame.vote v vals).weight := Frame.weight_pos _
  unfold receiveVote at ho
  split at ho
  · split at ho
    · rename_i hty
      obtain rfl := Outcome.stay.inj ho
      obtain ⟨hblock, hstack⟩ := receivePrevote_cases (.node W chainID kp) order v vals e
      rcases hstack with hstack | ⟨w, hw, hhash, hquorum, hstack⟩
      · rw [hstack]
        exact ⟨.done (hstack ▸ hs), by omega⟩
      · have hchain : SameChain W e₀ (receivePrevote (.node W chainID kp) order v vals e) := hsame.kept hblock
        have hprevote : ¬ w.type = VoteType.prevote.code := by
          rw [hw]
          decide
        refine ⟨?_, ?_⟩
        · rcases hb with hb | ⟨hb, p, hown⟩
          · exact .found w vals e.stack hstack hs hchain (by rw [hblock.pool]; exact hb)
          · refine .own w vals e.stack p hstack hs hchain (by rw [hblock.pool]; exact hb) ?_
            rw [hown.first.2 hty] at hquorum hhash
            rw [quorumBlock_single order hquorum] at hhash
            refine ⟨hblock.proposal.trans hown.proposal, ?_, hown.parent.kept hblock, hown.bytes, hhash.trans hown.vote,
              hblock.precommits.trans hown.first.1, fun h => absurd h hprevote⟩
            rw [hblock.pool]
            exact hown.txs
        · have hone : (Frame.vote w vals).weight = 1 := if_neg hprevote
          have htwo : (Frame.vote v vals).weight = 2 := if_pos hty
          rw [hstack, load_cons, hone, htwo]
          omega
    · have haside := receivePrecommit_aside (.node W chainID kp) order v vals e
      rw [ho] at haside
      have hstack : e₁.stack = e.stack := haside.stack
      rw [hstack]
      exact ⟨.done (hstack ▸ hs), by omega⟩
  · obtain rfl := Outcome.stay.inj ho
    exact ⟨.done hs, by omega⟩

/-- One call of `handleVote`: it costs its frame, or a round that the mempool pays for. -/
theorem handleVote_remains (hempty : EmptyApplies W chainID kp e₀) (order : MapOrder) (vals : Stakes)
    (hs : Persists e.stack) (hsame : SameChain W e₀ e) (hb : Affords W chainID kp b e v) : ∃ b',
      Remains W chainID kp e₀ b' (handleVote (.node W chainID kp) order v vals e) ∧
      (if (receiveVote (.node W chainID kp) order v vals e).restarts then 1 else 0) + b' ≤ b ∧
      load (handleVote (.node W chainID kp) order v vals e).stack + 3 * b' + 1 ≤
        load e.stack + (Frame.vote v vals).weight + 3 * b := by
  have hpos : 1 ≤ (Frame.vote v vals).weight := Frame.weight_pos _
  unfold handleVote
  cases ho : receiveVote (.node W chainID kp) order v vals e with
  | stay e₁ =>
    obtain ⟨hrem, hload⟩ := stay_remains hs hsame hb ho
    refine ⟨b, hrem, Nat.le_of_eq (Nat.zero_add b), ?_⟩
    show load e₁.stack + 3 * b + 1 ≤ _
    omega
  | crash e₁ =>
    have hstack : e₁.stack = e.stack := (receiveVote_aside ho (by simp)).stack
    refine ⟨b, .done (hstack ▸ hs : Persists e₁.stack), Nat.le_of_eq (Nat.zero_add b), ?_⟩
    show load e₁.stack + 3 * b + 1 ≤ _
    rw [hstack]
    omega
  | committed x e₁ =>
    have hstack : e₁.stack = e.stack := (receiveVote_aside ho (by simp)).stack
    have hnext : (finish (.node W chainID kp) false (.committed x e₁)).stack = e.stack := by
      obtain ⟨e₂, heq, -, -, -, hst, -⟩ := startNextRound_eq (.node W chainID kp) (bondedAmounts e₁.disk.db)
        { e₁ with rs := { e₁.rs with lastAttestation := attestationFromPrecommits e₁.rs.precommits x } }
      show (startNextRound _ _ _).stack = _
      rw [if_neg Bool.false_ne_true, heq, persist_stack, hst]
      exact hstack
    refine ⟨b, .done (hnext ▸ hs), Nat.le_of_eq (Nat.zero_add b), ?_⟩
    rw [hnext]
    omega
  | restart e₁ =>
    have hstack : e₁.stack = e.stack := (receiveVote_aside ho (by simp)).stack
    set top : Engine Mempool := e.push (.vote v vals)
    have hpend : pending (.node W chainID kp) order top .resume = .restart e₁ := ho
    have hsame₁ : SameChain W e₀ top := hsame.kept ⟨rfl, rfl, rfl, rfl, rfl, rfl⟩
    obtain ⟨hchain, hlt⟩ := restart_pool hempty hsame₁ (v := v) rfl (hb.calls _) hpend
    obtain ⟨hrem, hload⟩ := restartRound_remains (b := b - 1) (hstack ▸ hs) hchain (by omega)
    refine ⟨b - 1, hrem, ?_, ?_⟩
    · show 1 + (b - 1) ≤ b
      omega
    · show load (restartRound (.node W chainID kp) e₁).stack + 3 * (b - 1) + 1 ≤ _
      rw [hstack] at hload
      omega

theorem castVote_remains {t : VoteType} {x : Hash} {vals : Stakes} (hs : Persists e.stack) (hsame : SameChain W e₀ e)
    (hb : e.pool.queue.length < b) : Remains W chainID kp e₀ b (castVote (.node W chainID kp) t x vals e) ∧
      load (castVote (.node W chainID kp) t x vals e).stack ≤ load e.stack + 2 := by
  have hset : SameBlock e (castVote (.node W chainID kp) t x vals e) := castVote_same t x
  rcases castVote_stack (.node W chainID kp) t x vals e with hstack | hstack
  · rw [hstack]
    exact ⟨.done (hstack ▸ hs), Nat.le_add_right _ _⟩
  · refine ⟨.found _ vals e.stack hstack hs (hsame.kept hset) (by rw [hset.pool]; exact hb), ?_⟩
    rw [hstack, load_cons, Nat.add_comm]
    exact Nat.add_le_add_left (Frame.weight_le _) _

end

/-! ## Events -/

def Input.isEvent : Input → Bool
  | .vote _ | .proposal _ | .proposeTimeout | .prevoteTimeout | .precommitTimeout | .proposeReady => true
  | .delayElapsed | .enqueue _ | .resume => false

/-- The rounds a step begins in its height. -/
def advanced (c : Config σ) (order : MapOrder) (e : Engine σ) (i : Input) : Nat :=
  if i = .precommitTimeout ∨ (pending c order e i).restarts = true then 1 else 0

/-- The handling of one event so far: its input and `n` calls behind it, in which `r` rounds
    were begun. The maps are walked in any order. -/
inductive Handling (c : Config σ) (e : Engine σ) (i : Input) : Nat → Nat → Engine σ → Prop
  | input (order : MapOrder) (e₁ : Engine σ) : step c order e i = some e₁ → Handling c e i 0 (advanced c order e i) e₁
  | call (n r : Nat) (order : MapOrder) (e₁ e₂ : Engine σ) : Handling c e i n r e₁ → step c order e₁ .resume = some e₂ →
      Handling c e i (n + 1) (r + advanced c order e₁ .resume) e₂

theorem handle_height (c : Config σ) (order : MapOrder) (e : Engine σ) (i : Input) : (handle c order e i).rs.height =
    if (pending c order e i).commits = true then e.rs.height + 1 else e.rs.height := by
  cases hp : pending c order e i with
  | committed x e₁ =>
    rw [(handle_commits (.free c order e i) hp).1.height, popped_rs]
    rfl
  | stay | restart | crash =>
    have hruns := handle_runs (.free c order e i) (fun x e₁ => by rw [hp]; simp)
    rw [hruns.height, popped_rs]
    rfl

theorem handle_round (c : Config σ) (order : MapOrder) (e : Engine σ) (i : Input) : (handle c order e i).rs.round =
    if (pending c order e i).commits = true then 0 else e.rs.round + .ofNat (advanced c order e i) := by
  have hview := congrArg LockView.round (handle_lockView c order e i).view
  have hview : (handle c order e i).rs.round = (lockAfter c order e i).round := hview
  rw [hview]
  unfold lockAfter advanced
  by_cases ht : i = .precommitTimeout
  · subst ht
    rw [if_pos rfl, if_pos (Or.inl rfl)]
    rfl
  · have hquiet : ∀ {o : Outcome σ}, o.commits = false → o.restarts = false → e.rs.round = if o.commits = true then 0
        else e.rs.round + .ofNat (if i = .precommitTimeout ∨ o.restarts = true then 1 else 0) := by
      intro o hc hr
      rw [hc, hr]
      simp [ht]
    rw [if_neg ht]
    cases hl : locksOn c order e i with
    | some h =>
      obtain ⟨e₁, hstay⟩ := locksOn_stays hl
      rw [hstay]
      exact hquiet rfl rfl
    | none =>
      cases hp : pending c order e i with
      | stay | crash => exact hquiet rfl rfl
      | restart e₁ =>
        have hrestart : i = .precommitTimeout ∨ (Outcome.restart e₁).restarts = true := Or.inr rfl
        rw [if_pos hrestart]
        rfl
      | committed x e₁ => rfl

section

variable {W : World} {chainID : List UInt8} {kp : Key} {e₀ e e₁ : Engine Mempool} {b : Nat}

/-- After `n` calls and `r` new rounds, what remains of the event of `e₀` is within its bounds. -/
def InBounds (W : World) (chainID : List UInt8) (kp : Key) (e₀ : Engine Mempool) (n r : Nat)
    (e : Engine Mempool) : Prop :=
  ∃ b, Remains W chainID kp e₀ b e ∧ r + b ≤ e₀.pool.queue.length + 1 ∧
    n + load e.stack + 3 * b ≤ 3 * e₀.pool.queue.length + 6

theorem inBounds_done {n r : Nat} (hs : Persists e.stack) (hr : r ≤ e₀.pool.queue.length + 1)
    (hn : n + load e.stack ≤ 3 * e₀.pool.queue.length + 6) : InBounds W chainID kp e₀ n r e :=
  ⟨0, .done hs, hr, hn⟩

theorem inBounds_cast {t : VoteType} {x : Hash} {vals : Stakes} (hs : e.stack = [.persist]) (hsame : SameChain W e₀ e)
    (hpool : e.pool = e₀.pool) : InBounds W chainID kp e₀ 0 0 (castVote (.node W chainID kp) t x vals e) := by
  have hpersists : Persists e.stack := by
    rw [hs]
    exact fun _ h => List.mem_singleton.mp h
  have hload : load e.stack = 1 := by
    rw [hs]
    rfl
  obtain ⟨hrem, hle⟩ := castVote_remains (b := e₀.pool.queue.length + 1) (t := t) (x := x) hpersists hsame
    (by rw [hpool]; omega)
  exact ⟨_, hrem, by omega, by omega⟩

theorem idle_stack {s : List Frame} (hs : s = []) : Persists s ∧ load s = 0 := by
  subst hs
  exact ⟨fun _ h => absurd h List.not_mem_nil, rfl⟩

theorem inBounds_idle (hs : e.stack = []) : InBounds W chainID kp e₀ 0 0 e := by
  obtain ⟨hpersists, hload⟩ := idle_stack hs
  exact inBounds_done hpersists (Nat.zero_le _) (by omega)

theorem inBounds_proposal {vals : Stakes} (hs : e.stack = []) (hsame : SameChain W e₀ e) (hpool : e.pool = e₀.pool) :
    InBounds W chainID kp e₀ 0 0 (broadcastProposal (.node W chainID kp) vals e) := by
  rcases broadcastProposal_cases (.node W chainID kp) vals e with heq | ⟨p, -, -, hset, -, hstack | hstack⟩
  · rw [heq]
    exact inBounds_idle hs
  · exact inBounds_idle (hstack.trans hs)
  · have hlt : (broadcastProposal (.node W chainID kp) vals e).pool.queue.length < e₀.pool.queue.length + 1 := by
      rw [hset.pool]
      show e.pool.queue.length < _
      rw [hpool]
      exact Nat.lt_succ_self _
    obtain ⟨hpersists, hload⟩ := idle_stack hs
    refine ⟨_, .found _ vals e.stack hstack hpersists (hsame.proposed hset) hlt, by omega, ?_⟩
    rw [hstack, load_cons, hload]
    have hweight := Frame.weight_le (.vote (signVote (.node W chainID kp) .prevote e.rs.height e.rs.round
      (blockHashForChain W.toPrim p chainID)) vals)
    show 0 + ((Frame.vote (signVote (.node W chainID kp) .prevote e.rs.height e.rs.round
      (blockHashForChain W.toPrim p chainID)) vals).weight + 0) + _ ≤ _
    omega

section

variable (hempty : EmptyApplies W chainID kp e) (hs : e.stack = []) (hindexed : e.pool.Indexed W.toPrim)

include hempty hs hindexed

theorem vote_inBounds {v : Vote} {vals : Stakes} (hi : i.isEvent = true) (hinc : incoming e i = some (v, vals)) :
    InBounds W chainID kp e 0 (advanced (.node W chainID kp) order e i) (handle (.node W chainID kp) order e i) := by
  have hpopped : e.popped i = e := by
    cases i with
    | resume => cases hi
    | _ => rfl
  have ht : i ≠ .precommitTimeout := by
    rintro rfl
    cases hinc
  obtain ⟨hpersists, hload⟩ := idle_stack hs
  have hweight := Frame.weight_le (.vote v vals)
  have hsame : SameChain W e e := ⟨rfl, rfl, rfl, hindexed⟩
  have hb : Affords W chainID kp (e.pool.queue.length + 1) e v := .inl (Nat.lt_succ_self _)
  obtain ⟨b, hrem, hr, hn⟩ := handleVote_remains hempty order vals hpersists hsame hb
  have hadvanced : advanced (.node W chainID kp) order e i =
      if (receiveVote (.node W chainID kp) order v vals e).restarts then 1 else 0 := by
    simp only [advanced, pending, hinc, hpopped, ht, false_or]
  have hhandle : handle (.node W chainID kp) order e i = handleVote (.node W chainID kp) order v vals e := by
    rw [handle_incoming hinc, hpopped]
    rfl
  rw [hadvanced, hhandle]
  exact ⟨b, hrem, hr, by omega⟩

theorem input_inBounds (hi : i.isEvent = true) : InBounds W chainID kp e 0 (advanced (.node W chainID kp) order e i)
    (handle (.node W chainID kp) order e i) := by
  by_cases ht : i = .precommitTimeout
  · -- the one input that begins a round by itself
    subst ht
    set e₁ : Engine Mempool := { e with precommitTimer := none }
    have hfired : SameChain W e e₁ := ⟨rfl, rfl, rfl, hindexed⟩
    obtain ⟨hpersists, hload⟩ := idle_stack (show e₁.stack = [] from hs)
    obtain ⟨hrem, hle⟩ := onPrecommitTimeout_remains hpersists hfired le_rfl
    refine ⟨e.pool.queue.length, hrem, ?_, ?_⟩
    · show 1 + e.pool.queue.length ≤ _
      omega
    · show 0 + load (onPrecommitTimeout (.node W chainID kp) e₁).stack + _ ≤ _
      omega
  · cases hinc : incoming e i with
    | some x =>
      obtain ⟨v, vals⟩ := x
      exact vote_inBounds hempty hs hindexed hi hinc
    | none =>
      have hr : i ≠ .resume := by
        rintro rfl
        cases hi
      have hzero : advanced (.node W chainID kp) order e i = 0 := by
        simp [advanced, pending, hinc, ht, hr, Outcome.restarts]
      rw [hzero]
      have hreacts : Reacts (.node W chainID kp) e (handle (.node W chainID kp) order e i) :=
        handle_reacts hinc ht (fun t h => by subst h; cases hi) hr
      generalize handle (.node W chainID kp) order e i = e₂ at hreacts ⊢
      cases hreacts with
      | drops e₁ _ _ _ hstack => exact inBounds_idle (hstack.trans hs)
      | votes t h e₁ hturned =>
        obtain ⟨proposal, phase, hrs⟩ := hturned.rs
        refine inBounds_cast (hturned.stack.trans (by rw [hs])) ⟨?_, ?_, ?_, ?_⟩ hturned.pool
        · rw [hrs]
        · rw [hrs]
        · rw [hturned.disk]
        · rw [hturned.pool]
          exact hindexed
      | proposes => exact inBounds_proposal hs ⟨rfl, rfl, rfl, hindexed⟩ rfl

end

theorem resume_inBounds {n r : Nat} (hempty : EmptyApplies W chainID kp e₀) (hin : InBounds W chainID kp e₀ n r e)
    (hs : e.stack ≠ []) : InBounds W chainID kp e₀ (n + 1) (r + advanced (.node W chainID kp) order e .resume)
      (handle (.node W chainID kp) order e .resume) := by
  obtain ⟨b, hrem, hr, hn⟩ := hin
  -- a vote on top is handed to `handleVote`
  have hvote : ∀ {v : Vote} {vals : Stakes} {s : List Frame}, e.stack = .vote v vals :: s → Persists s →
      SameChain W e₀ e → Affords W chainID kp b e v → InBounds W chainID kp e₀ (n + 1)
        (r + advanced (.node W chainID kp) order e .resume) (handle (.node W chainID kp) order e .resume) := by
    intro v vals s hst hpersists hsame hb
    set e₁ : Engine Mempool := { e with stack := s }
    have hb₁ : Affords W chainID kp b e₁ v := hb.calls s
    have hsame₁ : SameChain W e₀ e₁ := ⟨hsame.height, hsame.attestation, hsame.db, hsame.indexed⟩
    have hs₁ : Persists e₁.stack := hpersists
    obtain ⟨b', hrem', hr', hn'⟩ := handleVote_remains hempty order vals hs₁ hsame₁ hb₁
    have hhandle : handle (.node W chainID kp) order e .resume = handleVote (.node W chainID kp) order v vals e₁ := by
      simp only [handle, hst, e₁]
    have hadvanced : advanced (.node W chainID kp) order e .resume =
        if (receiveVote (.node W chainID kp) order v vals e₁).restarts then 1 else 0 := by
      simp only [advanced, pending, incoming, hst, Engine.popped, List.tail_cons, reduceCtorEq, false_or, e₁]
    rw [hst, load_cons] at hn
    have hload : load e₁.stack = load s := rfl
    rw [hhandle, hadvanced]
    exact ⟨b', hrem', by omega, by omega⟩
  cases hrem with
  | done hpersists =>
    cases hst : e.stack with
    | nil => exact absurd hst hs
    | cons f s =>
      rw [hst] at hpersists hn
      obtain rfl : f = .persist := hpersists f List.mem_cons_self
      have hzero : advanced (.node W chainID kp) order e .resume = 0 := by
        simp [advanced, pending, incoming, hst, Outcome.restarts]
      have hstack : (handle (.node W chainID kp) order e .resume).stack = s := by
        simp only [handle, hst, persist_stack]
      rw [hzero]
      refine inBounds_done ?_ (by omega) ?_
      · rw [hstack]
        exact fun g hg => hpersists g (List.mem_cons_of_mem _ hg)
      · have hone : Frame.persist.weight = 1 := rfl
        rw [load_cons] at hn
        rw [hstack]
        omega
  | found v vals s hst hpersists hsame hb => exact hvote hst hpersists hsame (.inl hb)
  | own v vals s p hst hpersists hsame hb hown => exact hvote hst hpersists hsame (.inr ⟨hb, p, hown⟩)

/-- One step of the count: in the height of the event, the round is the one it found and the
    rounds begun since. -/
theorem round_counted {c : Config Mempool} {r : Nat}
    (hround : e.rs.height = e₀.rs.height → e.rs.round = e₀.rs.round + .ofNat r)
    (hc : (pending c order e i).commits = true → e.rs.height = e₀.rs.height)
    (hh : (handle c order e i).rs.height = e₀.rs.height) :
    (handle c order e i).rs.round = e₀.rs.round + .ofNat (r + advanced c order e i) := by
  rw [handle_height] at hh
  rw [handle_round]
  by_cases hcommits : (pending c order e i).commits = true
  · rw [if_pos hcommits, hc hcommits] at hh
    exact absurd hh.symm (height_ne_succ _)
  · rw [if_neg hcommits] at hh ⊢
    rw [hround hh, UInt32.ofNat_add, UInt32.add_assoc]

theorem Remains.height {order : MapOrder} (hrem : Remains W chainID kp e₀ b e)
    (hc : (pending (.node W chainID kp) order e .resume).commits = true) : e.rs.height = e₀.rs.height := by
  cases hrem with
  | found v vals s _ _ hsame => exact hsame.height
  | own v vals s p _ _ hsame => exact hsame.height
  | done hpersists =>
    -- a persist commits nothing
    have hstay : pending (.node W chainID kp) order e .resume = .stay e := by
      cases hst : e.stack with
      | nil => simp [pending, incoming, hst]
      | cons f s =>
        obtain rfl : f = .persist := hpersists f (hst ▸ List.mem_cons_self)
        simp [pending, incoming, hst]
    rw [hstay] at hc
    cases hc

/-! ## Empty blocks -/

theorem length_emptyProposal {P : Prim} {p : BlockProposal} {bytes : List UInt8} (hp : p.txs = [])
    (h : serializeProposal P p = .ok bytes) : bytes.length ≤ 192 + 141 * maxProposalVotes := by
  obtain ⟨hv, -, txBytes, htx, hbytes⟩ := serializeProposal_ok.mp h
  have hnone : txBytes = [] := by
    rw [proposalTxs, if_pos hp] at htx
    exact (Go.ok.inj htx).symm
  rw [hbytes, hnone]
  simp only [List.length_append, length_toBE, length_bytes, length_flatMap_serializeVote, List.length_nil]
  omega

theorem emptyApplies_of_one (htel : ∀ b tree, W.telemetryLen b tree ≤ maxStoredBlockTelemetryBytes)
    (hhash : ∀ m, W.toPrim.hash m ≠ 0) {b : Block} (hb : b = ⟨e.rs.height, [], kp, e.disk.db.stateRoot, 0, []⟩)
    (hone : (applyBlockForChain W .id e.disk.db b chainID).1.isOk = true) : EmptyApplies W chainID kp e where
  real p _ _ := hhash _
  applies p bytes order hp hown hbytes := by
    have hlen := length_emptyProposal hp hbytes
    have hstored : ∀ root, ∃ data, serializeBlock W { b with stateRoot := root, proposalBytes := bytes } =
        .ok data := by
      intro root
      subst hb
      refine ⟨_, serializeBlock_ok.mpr ⟨[], rfl, ?_, ?_, rfl⟩⟩
      · show bytes.length ≤ _
        unfold maxProposalVotes at hlen
        unfold maxStoredBlockBytes
        omega
      · simp only [List.length_append, length_toBE, length_bytes, List.length_nil]
        show 13 + _ ≤ _
        unfold maxProposalVotes at hlen
        unfold maxStoredBlockBytes
        omega
    obtain ⟨r, hok⟩ := Go.run_eq hone
    obtain ⟨r, post, hok⟩ := accepted_any_proposal hok (fun tree => htel _ tree) hstored
    obtain ⟨_, r', post', -, -, hok'⟩ := accepted_any_order (by rw [hb]) hok
      fun tree (_ : TreeOf W e.disk.db { b with proposalBytes := bytes } chainID order tree) => htel _ tree
    have hblock : blockOf e.rs.height p bytes = { b with proposalBytes := bytes } := by
      rw [hb, blockOf, hp, hown.proposer, hown.parent]
    rw [hblock, hok']
    rfl

/-! ## Nodes -/

/-- A step of a node, in which writes may fail, or a restart with an empty mempool on whatever the disk holds. -/
def NodeStep : Config Mempool → Engine Mempool → Engine Mempool → Prop :=
  Regime.Step ⟨fun _ _ _ _ => True, fun _ _ _ pool _ => ∃ cap, pool = .new cap⟩

theorem NodeStep.indexed (hs : NodeStep (.node W chainID kp) e e₁) (h : e.pool.Indexed W.toPrim) :
    e₁.pool.Indexed W.toPrim := by
  obtain ⟨_, hs⟩ := hs
  cases hs with
  | crash hf =>
    obtain ⟨cap, rfl⟩ := hf
    rw [start_pool]
    exact Mempool.indexed_new cap
  | @input fault order i _ _ hs =>
    obtain ⟨-, rfl⟩ := step_eq_some hs
    have hpool := handle_pool ((Config.node W chainID kp).failing fault) order e i
    generalize (handle ((Config.node W chainID kp).failing fault) order e i).pool = m at hpool ⊢
    cases hpool with
    | same => exact h
    | arrived t => exact h.enqueue t
    | committed p => exact h.removeCommitted p.txs
    | rejected p => exact h.removeCommitted p.txs

/-- The next of the calls the handlers have to make. -/
def Calls (c : Config σ) (e e₁ : Engine σ) : Prop := ∃ order, step c order e .resume = some e₁

/-- The event is over: the goroutine is back in its loop, or down. -/
def Over (e : Engine σ) : Prop := e.stack = [] ∨ e.halted = true

theorem resume_accepted (c : Config σ) (order : MapOrder) {e : Engine σ} (h : ¬ Over e) :
    step c order e .resume = some (handle c order e .resume) := by
  obtain ⟨hs, hh⟩ := not_or.mp h
  unfold step
  rw [if_pos (by simp [accepts, armed, hs, hh])]

theorem handling_inBounds {n r : Nat} (hempty : EmptyApplies W chainID kp e) (hi : i.isEvent = true)
    (hindexed : e.pool.Indexed W.toPrim) (h : Handling (.node W chainID kp) e i n r e₁) :
    InBounds W chainID kp e n r e₁ ∧ (e₁.rs.height = e.rs.height → e₁.rs.round = e.rs.round + .ofNat r) := by
  induction h with
  | input order e₁ hs =>
    obtain ⟨hacc, rfl⟩ := step_eq_some hs
    have hstack : e.stack = [] := by
      cases i with
      | delayElapsed | enqueue | resume => cases hi
      | _ => exact of_decide_eq_true (Bool.and_eq_true _ _ ▸ hacc).2
    refine ⟨input_inBounds hempty hstack hindexed hi, fun hh => ?_⟩
    have hcount := round_counted (r := 0) (fun _ => (UInt32.add_zero _).symm) (fun _ => rfl) hh
    rwa [Nat.zero_add] at hcount
  | call n r order e₁ e₂ _ hs ih =>
    obtain ⟨hacc, rfl⟩ := step_eq_some hs
    have hstack : e₁.stack ≠ [] := of_decide_eq_true (Bool.and_eq_true _ _ ▸ hacc).2
    refine ⟨resume_inBounds hempty ih.1 hstack, fun hh => ?_⟩
    obtain ⟨b, hrem, -, -⟩ := ih.1
    exact round_counted ih.2 (fun hc => hrem.height hc) hh

theorem Handling.ends {c : Config Mempool} {bound : Nat} (hbound : ∀ n r e₁, Handling c e i n r e₁ → n ≤ bound) :
    ∀ {n r : Nat} {e₁ : Engine Mempool}, Handling c e i n r e₁ →
      ∃ n' r' e', Handling c e i n' r' e' ∧ ReflTransGen (Calls c) e₁ e' ∧ Over e' := by
  intro n r e₁ h
  -- on the calls that are left
  obtain ⟨k, hk⟩ : ∃ k, bound - n = k := ⟨_, rfl⟩
  induction k generalizing n r e₁ with
  | zero =>
    by_contra hno
    have hover : ¬ Over e₁ := fun ho => hno ⟨n, r, e₁, h, .refl, ho⟩
    have hnext := hbound _ _ _ (.call n r .id e₁ _ h (resume_accepted c .id hover))
    omega
  | succ k ih =>
    by_cases hover : Over e₁
    · exact ⟨n, r, e₁, h, .refl, hover⟩
    · have hcall := resume_accepted c .id hover
      obtain ⟨n', r', e', hend, hreach, hover'⟩ := ih (.call n r .id e₁ _ h hcall) (by omega)
      exact ⟨n', r', e', hend, .head ⟨.id, hcall⟩ hreach, hover'⟩

/-- One vote, proposal or timeout at a node, in any state it can reach: however its handling
    goes, it is over after `3 * M + 6` calls, and in `M + 2` rounds with the one it found, and
    it never stops before it is over. -/
theorem event_ends {disk : Disk} {cap : Nat} {history : List Entry}
    (hrun : ReflTransGen (NodeStep (.node W chainID kp)) (start (.node W chainID kp) disk (.new cap) history) e)
    (hempty : EmptyApplies W chainID kp e) (hi : i.isEvent = true) :
    (∀ n r e₁, Handling (.node W chainID kp) e i n r e₁ →
      n ≤ 3 * e.pool.queue.length + 6 ∧ r + 1 ≤ e.pool.queue.length + 2 ∧
      (e₁.rs.height = e.rs.height → e₁.rs.round = e.rs.round + .ofNat r) ∧
      (¬ Over e₁ → ∀ order, ∃ e₂, step (.node W chainID kp) order e₁ .resume = some e₂)) ∧
    ∀ n r e₁, Handling (.node W chainID kp) e i n r e₁ → ∃ n' r' e', Handling (.node W chainID kp) e i n' r' e' ∧
      ReflTransGen (Calls (.node W chainID kp)) e₁ e' ∧ Over e' := by
  have hindexed : e.pool.Indexed W.toPrim := by
    refine run_keeps (I := fun e : Engine Mempool => e.pool.Indexed W.toPrim) (fun h hs => hs.indexed h) hrun ?_
    rw [start_pool]
    exact Mempool.indexed_new cap
  have hbounds : ∀ n r e₁, Handling (.node W chainID kp) e i n r e₁ →
      n ≤ 3 * e.pool.queue.length + 6 ∧ r + 1 ≤ e.pool.queue.length + 2 := by
    intro n r e₁ h
    obtain ⟨b, -, hr, hn⟩ := (handling_inBounds hempty hi hindexed h).1
    exact ⟨by omega, by omega⟩
  refine ⟨fun n r e₁ h => ⟨(hbounds n r e₁ h).1, (hbounds n r e₁ h).2, ?_, ?_⟩, fun n r e₁ h => ?_⟩
  · exact (handling_inBounds hempty hi hindexed h).2
  · exact fun hno order => ⟨_, resume_accepted _ order hno⟩
  · exact h.ends fun n r e₁ h => (hbounds n r e₁ h).1

end

/-! ## A validator alone -/

/-- The sample world with a hash that is never the nil hash. -/
def aloneWorld : World :=
  { World.sample with toPrim := { Prim.sample with hash := fun m => if sampleHash m = 0 then 1 else sampleHash m } }

def alone : Config Mempool := .node aloneWorld defaultChainID 1

/-- A transfer from an account that has nothing. -/
def unfunded : Tx := (Tx.plain .transfer 5 3 10 1).signed aloneWorld.toPrim defaultChainID

def aloneStart : Engine Mempool := start alone ⟨soloDB, [], none⟩ (.new defaultCap) []

def aloneRun (is : List Input) : Option (Engine Mempool) := is.foldlM (step alone .id) aloneStart

/-- Validator 1 holds the whole stake and its mempool the transfer, whose block is refused: the
    proposal signal is handled in at most nine calls and three rounds. -/
theorem event_ends_refused : ∃ e n r e₁, aloneRun [.enqueue unfunded, .delayElapsed] = some e ∧
    e.pool.queue.length = 1 ∧ Handling alone e .proposeReady n r e₁ ∧ Over e₁ ∧ n ≤ 9 ∧ r + 1 ≤ 3 := by
  obtain ⟨e, he⟩ := Option.isSome_iff_exists.mp
    (show (aloneRun [.enqueue unfunded, .delayElapsed]).isSome = true by decide +kernel)
  have hstate : (aloneRun [.enqueue unfunded, .delayElapsed]).map (fun e => (e.pool.queue.length, e.rs.height,
      e.disk.db.stateRoot, (applyBlockForChain aloneWorld .id e.disk.db
        ⟨e.rs.height, [], 1, e.disk.db.stateRoot, 0, []⟩ defaultChainID).1.isOk,
      (step alone .id e .proposeReady).isSome)) = some (1, 1, 0, true, true) := by
    decide +kernel
  rw [he] at hstate
  simp only [Option.map_some, Option.some.injEq, Prod.mk.injEq] at hstate
  obtain ⟨hqueue, -, -, hone, hready⟩ := hstate
  have hreach : ReflTransGen (NodeStep alone) aloneStart e :=
    foldlM_reaches (fun _ _ _ hf => .input (fun _ => none) trivial hf) he
  have hempty : EmptyApplies aloneWorld defaultChainID 1 e := by
    refine emptyApplies_of_one (fun _ _ => Nat.zero_le _) (fun m => ?_) rfl hone
    show (if sampleHash m = 0 then 1 else sampleHash m) ≠ 0
    split
    · decide
    · assumption
  obtain ⟨e₀, hstep⟩ := Option.isSome_iff_exists.mp hready
  obtain ⟨hbounds, hends⟩ := event_ends hreach hempty (i := .proposeReady) rfl
  obtain ⟨n, r, e₁, hhandling, -, hover⟩ := hends 0 _ e₀ (.input .id e₀ hstep)
  obtain ⟨hn, hr, -, -⟩ := hbounds n r e₁ hhandling
  rw [hqueue] at hn hr
  exact ⟨e, n, r, e₁, he, hqueue, hhandling, hover, hn, hr⟩

end Frg.Consensus
