/-
  Frg.Consensus.Mempool — which transactions leave the mempool, and why.

  The mempool knows a transaction by its ID, the hash of its unsigned bytes. The sender's key
  is not among them, so two senders can have transactions of one ID.

    - `independent_iff`: below its capacity, and with no collision, the mempool keeps two
      transactions apart exactly when their unsigned bytes differ.

  The engine tells the block loop of a commit, and of a rejection whenever a precommit quorum
  ends a round without one: the block may not have been tried at all.

    - `handle_pool`: what one step of the engine does to its mempool.
    - `leaves_for_cause`: as long as a quorum that ends the round of a held proposal is for
      that proposal, and no two transactions share an ID, a transaction leaves the mempool
      only with a committed block, for the capacity, or with a block that was refused.
-/

import Frg.Consensus.Timers
import Frg.Wire.Signing

namespace Frg.Consensus

open Frg.Lib Frg.Core Frg.Wire Frg.Chain Relation

/-! ## Transactions of one ID -/

namespace Mempool

variable {P : Prim} {m : Mempool} {t u : Tx} {id x : Hash}

theorem mem_remove : (x, t) ∈ (m.remove id).queue ↔ (x, t) ∈ m.queue ∧ x ≠ id := by
  simp [remove]

theorem mem_removeCommitted : ∀ {txs : List Tx} {m : Mempool},
    (x, t) ∈ (m.removeCommitted P txs).queue ↔ (x, t) ∈ m.queue ∧ ∀ u ∈ txs, u.id P ≠ .ok x := by
  intro txs
  induction txs with
  | nil => intro m; simp [removeCommitted]
  | cons u txs ih =>
    intro m
    rw [List.forall_mem_cons, ← and_assoc]
    have hskip : (∀ id, u.id P ≠ .ok id) → m.removeCommitted P (u :: txs) = m.removeCommitted P txs := by
      intro hno
      unfold removeCommitted
      rw [List.foldl_cons]
      split
      · exact absurd ‹_› (hno _)
      · rfl
    cases hu : u.id P with
    | ok id =>
      have hstep : m.removeCommitted P (u :: txs) = (m.remove id).removeCommitted P txs := by
        simp only [removeCommitted, List.foldl_cons, hu]
      rw [hstep, ih]
      simp [mem_remove, eq_comm]
    | err | panic =>
      rw [hskip (by simp [hu]), ih]
      simp

theorem enqueue_cap (m : Mempool) (t : Tx) : (m.enqueue P t).cap = m.cap := by
  unfold enqueue
  split
  · split <;> rfl
  · rfl

theorem enqueue_new (ht : t.id P = .ok id) (hroom : m.queue.length < m.cap) (hnew : id ∉ m.queue.map (·.1)) :
    (m.enqueue P t).queue = m.queue ++ [(id, t)] := by
  unfold enqueue
  rw [ht]
  dsimp only
  rw [dif_neg hnew]
  show m.makeRoom ++ [(id, t)] = _
  rw [makeRoom, if_neg (by omega)]

theorem enqueue_known (ht : t.id P = .ok id) (h : id ∈ m.queue.map (·.1)) : m.enqueue P t = m := by
  unfold enqueue
  rw [ht]
  exact dif_pos h

end Mempool

/-- The mempool keeps the two apart: below its capacity `b` is taken behind `a`, and a block
    with `a`, committed or rejected, leaves `b` in the queue. -/
structure Independent (P : Prim) (a b : Tx) : Prop where
  taken : ∀ (m : Mempool) (id : Hash), b.id P = .ok id → m.queue.length + 1 < m.cap → id ∉ m.queue.map (·.1) →
    (id, b) ∈ ((m.enqueue P a).enqueue P b).queue
  committed : ∀ (kp : Key) (chainID : List UInt8) (m : Mempool) (height : UInt64) (id : Hash), b.id P = .ok id →
    (id, b) ∈ m.queue → (id, b) ∈ ((blockLoop P kp chainID).onCommit m height [a]).queue
  rejected : ∀ (kp : Key) (chainID : List UInt8) (m : Mempool) (height : UInt64) (id : Hash), b.id P = .ok id →
    (id, b) ∈ m.queue → (id, b) ∈ ((blockLoop P kp chainID).onReject m height [a]).queue

section

variable {P : Prim} {a b : Tx}

theorem independent_of_ids {x y : Hash} (ha : a.id P = .ok x) (hb : b.id P = .ok y) (hne : x ≠ y) :
    Independent P a b := by
  have hkept : ∀ (m : Mempool) (id : Hash), b.id P = .ok id → (id, b) ∈ m.queue →
      (id, b) ∈ (m.removeCommitted P [a]).queue := by
    intro m id hid hm
    obtain rfl := Go.ok.inj (hb.symm.trans hid)
    refine Mempool.mem_removeCommitted.mpr ⟨hm, fun u hu heq => ?_⟩
    rw [List.mem_singleton.mp hu, ha] at heq
    exact hne (Go.ok.inj heq)
  refine ⟨fun m id hid hroom hnew => ?_, fun _ _ m _ => hkept m, fun _ _ m _ => hkept m⟩
  obtain rfl := Go.ok.inj (hb.symm.trans hid)
  by_cases hin : x ∈ m.queue.map (·.1)
  · rw [Mempool.enqueue_known ha hin, Mempool.enqueue_new hb (by omega) hnew]
    exact List.mem_append_right _ (List.mem_singleton_self _)
  · have hqueue := Mempool.enqueue_new ha (by omega) hin
    rw [Mempool.enqueue_new hb]
    · exact List.mem_append_right _ (List.mem_singleton_self _)
    · rw [Mempool.enqueue_cap, hqueue, List.length_append, List.length_singleton]
      exact hroom
    · rw [hqueue, List.map_append, List.mem_append]
      rintro (h | h)
      · exact hnew h
      · exact hne (List.mem_singleton.mp h).symm

/-- For any two signed transactions whose bytes do not collide. -/
theorem independent_iff {chainID : List UInt8} (ha : verifySigsForChain P a chainID = .ok ())
    (hb : verifySigsForChain P b chainID = .ok ())
    (hap : ∀ s s', serializeUnsigned P a = .ok s → serializeUnsigned P b = .ok s' → NoCollision P.hash s s') :
    Independent P a b ↔ serializeUnsigned P a ≠ serializeUnsigned P b := by
  obtain ⟨s, hs, -⟩ := verifySigsForChain_ok ha
  obtain ⟨s', hs', -⟩ := verifySigsForChain_ok hb
  have hida : a.id P = .ok (P.hash s) := Go.bind_eq_ok.mpr ⟨s, hs, rfl⟩
  have hidb : b.id P = .ok (P.hash s') := Go.bind_eq_ok.mpr ⟨s', hs', rfl⟩
  constructor
  · intro h heq
    rw [hs, hs'] at heq
    obtain rfl := Go.ok.inj heq
    -- a block with `a` takes `b` out of a mempool that has nothing else
    have hqueue := Mempool.enqueue_new (m := .new 1) hidb Nat.one_pos List.not_mem_nil
    have hkept := h.committed 0 [] ((Mempool.new 1).enqueue P b) 0 _ hidb (hqueue ▸ List.mem_singleton_self _)
    exact (Mempool.mem_removeCommitted.mp hkept).2 a (List.mem_singleton_self a) hida
  · intro hne
    refine independent_of_ids hida hidb fun heq => hne ?_
    rw [hs, hs', hap s s' hs hs' heq]

end

def spending (k : Key) (amount : Int) : Tx := (Tx.plain .transfer k 3 amount 1).signed Prim.sample defaultChainID

theorem independent_iff_spending : Independent Prim.sample (spending 1 10) (spending 2 20) := by
  have hrun : (do
      let s ← serializeUnsigned Prim.sample (spending 1 10)
      let s' ← serializeUnsigned Prim.sample (spending 2 20)
      Go.check (s ≠ s' ∧ (Prim.sample.hash s = Prim.sample.hash s' → s = s')) (.plain "collision") : Res Unit) =
        .ok () := by
    decide +kernel
  obtain ⟨s, hs, hrun⟩ := Go.bind_eq_ok.mp hrun
  obtain ⟨s', hs', hrun⟩ := Go.bind_eq_ok.mp hrun
  obtain ⟨hne, hap⟩ := Go.check_eq_ok.mp hrun
  have hsigned : verifySigsForChain Prim.sample (spending 1 10) defaultChainID = .ok () ∧
      verifySigsForChain Prim.sample (spending 2 20) defaultChainID = .ok () := by
    decide +kernel
  refine (independent_iff hsigned.1 hsigned.2 fun x y hx hy => ?_).mpr ?_
  · obtain rfl := Go.ok.inj (hs.symm.trans hx)
    obtain rfl := Go.ok.inj (hs'.symm.trans hy)
    exact hap
  · rw [hs, hs']
    exact fun h => hne (Go.ok.inj h)

/-- An unbonding: nothing but the signature and the key tells two validators' apart. -/
def leaving (k : Key) : Tx := (Tx.plain .unbond k 0 0 1).signed Prim.sample defaultChainID

/-- The unbonding of validator 2 is dropped behind that of validator 1, and leaves the
    mempool with it. -/
theorem leaving_dropped : verifySigsForChain Prim.sample (leaving 1) defaultChainID = .ok () ∧
    verifySigsForChain Prim.sample (leaving 2) defaultChainID = .ok () ∧
    (leaving 1).senderPubKey ≠ (leaving 2).senderPubKey ∧
    (((Mempool.new defaultCap).enqueue Prim.sample (leaving 1)).enqueue Prim.sample (leaving 2)).queue.map (·.2) =
      [leaving 1] ∧
    ((Mempool.new defaultCap).enqueue Prim.sample (leaving 2)).queue.map (·.2) = [leaving 2] ∧
    ((blockLoop Prim.sample 3 defaultChainID).onCommit ((Mempool.new defaultCap).enqueue Prim.sample (leaving 2)) 1
      [leaving 1]).queue = [] ∧
    ((blockLoop Prim.sample 3 defaultChainID).onReject ((Mempool.new defaultCap).enqueue Prim.sample (leaving 2)) 1
      [leaving 1]).queue = [] := by
  decide +kernel

/-! ## The mempool and the engine -/

section

variable {σ : Type} {c : Config σ} {order : MapOrder} {vals : Stakes} {e e₁ : Engine σ} {h : Hash} {i : Input}

theorem broadcastProposal_pool : (broadcastProposal c vals e).pool = e.pool := by
  unfold broadcastProposal
  split
  · rfl
  · split
    · rfl
    · exact castVote_pool.trans persist_pool

theorem restartRound_pool : (restartRound c e).pool = e.pool := by
  unfold restartRound
  dsimp only
  split
  · exact broadcastProposal_pool
  · rfl

theorem startNextRound_pool : (startNextRound c vals e).pool = e.pool := by
  unfold startNextRound
  dsimp only
  rw [persist_pool]
  split <;> rfl

def Outcome.engine : Outcome σ → Engine σ
  | .stay e | .committed _ e | .restart e | .crash e => e

theorem finish_pool (refresh : Bool) (o : Outcome σ) : (finish c refresh o).pool = o.engine.pool := by
  cases o with
  | stay e => rfl
  | committed h e => exact startNextRound_pool
  | restart e => exact restartRound_pool
  | crash e => rfl

theorem handle_finishes (hi : ∀ t, i ≠ .enqueue t) : (handle c order e i).pool = (pending c order e i).engine.pool := by
  cases hinc : incoming e i with
  | some x =>
    obtain ⟨v, vals⟩ := x
    rw [handle_incoming hinc, finish_pool]
    simp only [pending, hinc]
  | none =>
    have hstay : ¬ (i = .resume ∧ e.stack.head? = some .recommit) → (pending c order e i).engine = e := fun hno => by
      simp only [pending, hinc, if_neg hno, Outcome.engine]
    by_cases hr : i = .resume
    · subst hr
      cases hst : e.stack with
      | nil =>
        rw [hstay (by simp [hst])]
        simp only [handle, hst]
      | cons f s =>
        cases f with
        | vote v vals => simp [incoming, hst] at hinc
        | persist =>
          rw [hstay (by simp [hst])]
          simp only [handle, hst]
          exact persist_pool
        | recommit =>
          simp only [handle, hst, finish_pool, pending, hinc, List.head?_cons, and_self, if_true, Engine.popped,
            List.tail_cons]
    · rw [hstay fun h => hr h.1]
      by_cases ht : i = .precommitTimeout
      · subst ht
        unfold handle onPrecommitTimeout
        dsimp only
        split
        · exact broadcastProposal_pool
        · rfl
      · have hreacts : Reacts c e (handle c order e i) := handle_reacts hinc ht hi hr
        generalize handle c order e i = e₂ at hreacts ⊢
        cases hreacts with
        | drops e₁ _ _ hpool _ => exact hpool
        | votes t h e₁ hturned => exact castVote_pool.trans hturned.pool
        | proposes => exact broadcastProposal_pool

/-- What a step does to the mempool, and when. -/
inductive PoolStep (c : Config σ) (order : MapOrder) (e : Engine σ) (i : Input) : σ → Prop where
  | same : PoolStep c order e i e.pool
  | arrived (t : Tx) : i = .enqueue t → PoolStep c order e i (c.proposer.enqueue e.pool t)
  | committed (p : BlockProposal) (bytes : List UInt8) (r : Result) (db : DB) : e.rs.proposal = some p →
      serializeProposal c.W.toPrim p = .ok bytes →
      applyBlockForChain c.W order e.disk.db (blockOf e.rs.height p bytes) c.chainID = (.ok r, db) →
      (handle c order e i).disk.db = db → PoolStep c order e i (c.proposer.onCommit e.pool e.rs.height p.txs)
  | rejected (p : BlockProposal) : e.rs.proposal = some p → (pending c order e i).restarts = true →
      PoolStep c order e i (c.proposer.onReject e.pool e.rs.height p.txs)

theorem rejectProposal_pool {e₀ : Engine σ} (ht : Tallied e e₀) (hr : (pending c order e i).restarts = true) :
    PoolStep c order e i (rejectProposal c e₀).pool := by
  unfold rejectProposal
  split
  · rw [ht.pool]
    exact .same
  · rename_i p hp
    dsimp only
    rw [ht.pool, ht.height]
    exact .rejected p (ht.proposal ▸ hp) hr

theorem handle_pool (c : Config σ) (order : MapOrder) (e : Engine σ) (i : Input) :
    PoolStep c order e i (handle c order e i).pool := by
  by_cases hi : ∃ t, i = .enqueue t
  · obtain ⟨t, rfl⟩ := hi
    exact .arrived t rfl
  rw [handle_finishes fun t ht => hi ⟨t, ht⟩]
  rcases pending_cases c order e i with ⟨e₁, hs, hpool⟩ | ⟨e₀, ht, ⟨x, -, -, hs⟩ | ⟨-, hs⟩⟩
  · rw [hs, Outcome.engine, hpool]
    exact .same
  · have hreject : tryCommit c order x e₀ = .restart (rejectProposal c e₀) ∨
        tryCommit c order x e₀ = .restart (rejectProposal c (e₀.note (.refused e₀.rs.height x))) →
        PoolStep c order e i (pending c order e i).engine.pool := by
      have hnote : (rejectProposal c (e₀.note (.refused e₀.rs.height x))).pool = (rejectProposal c e₀).pool := by
        unfold rejectProposal Engine.note
        dsimp only
        split <;> rfl
      rintro (hr | hr) <;> rw [hs, hr, Outcome.engine]
      · exact rejectProposal_pool ht (by rw [hs, hr]; rfl)
      · rw [hnote]
        exact rejectProposal_pool ht (by rw [hs, hr]; rfl)
    cases hc : commit c order x e₀ with
    | ok e₁ =>
      have hpend : pending c order e i = .committed x e₁ := by rw [hs, tryCommit, hc]
      have hdb := (handle_commits (Permits.free c order e i) hpend).1.db
      obtain ⟨p, bytes, r, db, hp, -, hb, happ, rfl⟩ := commit_ok c hc
      rw [ht.height, ht.db] at happ
      rw [hpend, Outcome.engine]
      dsimp only
      rw [ht.pool, ht.height]
      exact .committed p bytes r db (ht.proposal ▸ hp) hb happ hdb
    | err f =>
      refine hreject ?_
      unfold tryCommit
      rw [hc]
      cases f with
      | refused y => exact .inr rfl
      | noProposal | unserializable y => exact .inl rfl
    | panic w =>
      rw [hs, tryCommit, hc, Outcome.engine, ht.pool]
      exact .same
  · rw [hs, Outcome.engine]
    exact rejectProposal_pool ht (by rw [hs]; rfl)

/-- `ApplyBlockForChain` fails on the block, or its write transaction does. -/
def Refuses (c : Config σ) (order : MapOrder) (db : DB) (b : Block) : Prop :=
  (∃ x db', applyBlockForChain c.W order db b c.chainID = (.err x, db')) ∨
    ∃ r db' x, applyBlockForChain c.W order db b c.chainID = (.ok r, db') ∧ c.fault (.block b) = some x

theorem commit_refuses {f : CommitFault} (hc : commit c order h e = .err f) (hh : Holds c e.rs h) :
    ∃ p bytes, e.rs.proposal = some p ∧ blockHashForChain c.W.toPrim p c.chainID = h ∧
      serializeProposal c.W.toPrim p = .ok bytes ∧ Refuses c order e.disk.db (blockOf e.rs.height p bytes) := by
  obtain ⟨p, hp, hh, hb⟩ := hh
  obtain ⟨bytes, hb⟩ := Go.isOk_iff.mp hb
  refine ⟨p, bytes, hp, hh, hb, ?_⟩
  unfold commit at hc
  rw [hp] at hc
  dsimp only at hc
  rw [if_neg (not_not.mpr hh), hb] at hc
  dsimp only at hc
  split at hc
  · rename_i x db' happ
    exact .inl ⟨x, db', happ⟩
  · cases hc
  · rename_i r db' happ
    split at hc
    · rename_i x hx
      exact .inr ⟨r, db', x, happ, hx⟩
    · cases hc

/-- A round that is restarted on a quorum for the held block was restarted by its refusal. -/
theorem pending_refuses (hr : pending c order e i = .restart e₁) (hq : quorumOf order e i = some h) (hne : h ≠ 0)
    (hh : Holds c e.rs h) : ∃ p bytes, e.rs.proposal = some p ∧ blockHashForChain c.W.toPrim p c.chainID = h ∧
      serializeProposal c.W.toPrim p = .ok bytes ∧ Refuses c order e.disk.db (blockOf e.rs.height p bytes) := by
  rcases pending_cases c order e i with ⟨_, hs, -⟩ | ⟨e₀, ht, ⟨x, hx, -, hs⟩ | ⟨hx, -⟩⟩
  · rw [hr] at hs
    cases hs
  · obtain rfl := Option.some.inj (hx.symm.trans hq)
    have hheld : Holds c e₀.rs x := by rwa [Holds, ht.proposal]
    rw [hr] at hs
    cases hc : commit c order x e₀ with
    | err f =>
      have href := commit_refuses hc hheld
      rwa [ht.proposal, ht.height, ht.db] at href
    | ok | panic =>
      rw [tryCommit, hc] at hs
      cases hs
  · exact absurd (hx h hq) hne

end

/-! ## What leaves -/

section

variable {σ : Type}

/-- The precommits end the round: a precommit arrives that is acceptable, the first one of its
    validator and brings them to a quorum, or a restored round has one for a block. -/
def concludes (c : Config σ) (order : MapOrder) (e : Engine σ) (i : Input) : Bool :=
  match incoming e i with
  | some (v, vals) =>
    acceptable c v vals e && v.type ≠ VoteType.prevote.code && (e.rs.precommits.get v.validatorPK).isNone &&
      quorumReached (e.rs.precommits.put v.validatorPK v) vals && e.rs.phase = .precommit
  | none => i = .resume && e.stack.head? = some .recommit && (quorumOf order e i).any (· ≠ 0)

theorem concludes_of_restarts {c : Config σ} {order : MapOrder} {e : Engine σ} {i : Input}
    (hr : (pending c order e i).restarts = true) : concludes c order e i = true := by
  unfold pending at hr
  unfold concludes
  cases hi : incoming e i with
  | some x =>
    obtain ⟨v, vals⟩ := x
    simp only [hi] at hr
    unfold receiveVote at hr
    split at hr
    · rename_i hacc
      split at hr
      · cases hr
      · rename_i htype
        unfold receivePrecommit at hr
        split at hr
        · cases hr
        · rename_i hnew
          dsimp only at hr
          split at hr
          · rename_i hquorum
            rw [persist_rs, popped_rs] at hquorum
            rw [popped_rs] at hnew
            have hacc : acceptable c v vals e = true := by rwa [acceptable, popped_rs] at hacc
            have hnew : e.rs.precommits.get v.validatorPK = none := Option.not_isSome_iff_eq_none.mp hnew
            obtain ⟨hquorum, hphase⟩ : quorumReached (e.rs.precommits.put v.validatorPK v) vals = true ∧
              e.rs.phase = .precommit := hquorum
            simp [hacc, htype, hnew, hquorum, hphase]
          · cases hr
    · cases hr
  | none =>
    simp only [hi] at hr
    split at hr
    · rename_i htop
      unfold recommit at hr
      rw [popped_rs, popped_validators] at hr
      have hquorum : quorumOf order e i = quorumBlock order e.rs.precommits e.validators := by simp only [quorumOf, hi]
      split at hr
      · rename_i h hq
        split at hr
        · simpa [htop.1, htop.2, htop.1 ▸ hquorum, hq]
        · cases hr
      · cases hr
    · cases hr

end

/-- Precommits that end the round of a held proposal are a quorum for that proposal, which can
    be serialised; and no transaction of it has the ID of another one in the mempool. -/
def Attempted (c : Config Mempool) (order : MapOrder) (e : Engine Mempool) (i : Input) : Prop :=
  ∀ p ∈ e.rs.proposal,
    (concludes c order e i = true → quorumOf order e i = some (blockHashForChain c.W.toPrim p c.chainID) ∧
      blockHashForChain c.W.toPrim p c.chainID ≠ 0 ∧ (serializeProposal c.W.toPrim p).isOk = true) ∧
    ∀ u ∈ p.txs, ∀ x ∈ e.pool.queue, u.id c.W.toPrim = .ok x.1 → u = x.2

instance decidableAttempted (c : Config Mempool) (order : MapOrder) (e : Engine Mempool) (i : Input) :
    Decidable (Attempted c order e i) :=
  inferInstanceAs (Decidable (∀ p ∈ e.rs.proposal, (_ → _ ∧ _ ∧ _) ∧ _))

/-- Why a transaction leaves the mempool in a step: a block with it is committed, it is the
    oldest of a full queue, or a block with it is refused. -/
inductive Cause (c : Config Mempool) (order : MapOrder) (e : Engine Mempool) (i : Input) (t : Tx) : Prop where
  | committed (p : BlockProposal) (bytes : List UInt8) (r : Result) (db : DB) : e.rs.proposal = some p → t ∈ p.txs →
      serializeProposal c.W.toPrim p = .ok bytes →
      applyBlockForChain c.W order e.disk.db (blockOf e.rs.height p bytes) c.chainID = (.ok r, db) →
      (handle c order e i).disk.db = db → Cause c order e i t
  | evicted (u : Tx) (id : Hash) : i = .enqueue u → e.pool.cap ≤ e.pool.queue.length →
      e.pool.queue.head? = some (id, t) → Cause c order e i t
  | refused (p : BlockProposal) (bytes : List UInt8) (e₁ : Engine Mempool) : e.rs.proposal = some p → t ∈ p.txs →
      serializeProposal c.W.toPrim p = .ok bytes → Refuses c order e.disk.db (blockOf e.rs.height p bytes) →
      pending c order e i = .restart e₁ →
      Entry.refused e.rs.height (blockHashForChain c.W.toPrim p c.chainID) ∈ e₁.history → Cause c order e i t

section

variable {W : World} {chainID : List UInt8} {self : Key} {fault : Write → Option Err} {order : MapOrder}
  {e e' : Engine Mempool} {i : Input} {id : Hash} {t : Tx}

theorem Outcome.eq_restart {σ : Type} {o : Outcome σ} (h : o.restarts = true) : ∃ e, o = .restart e := by
  cases o with
  | restart e => exact ⟨e, rfl⟩
  | stay | committed | crash => cases h

theorem Mempool.enqueue_keeps {P : Prim} {m : Mempool} {u : Tx} (h : (id, t) ∈ m.queue) :
    (id, t) ∈ (m.enqueue P u).queue ∨ m.cap ≤ m.queue.length ∧ m.queue.head? = some (id, t) := by
  unfold Mempool.enqueue
  split
  · split
    · exact .inl h
    · show (id, t) ∈ m.makeRoom ++ _ ∨ _
      unfold Mempool.makeRoom
      split
      · rename_i hfull
        cases hm : m.queue with
        | nil => rw [hm] at h; exact absurd h List.not_mem_nil
        | cons x q =>
          rw [hm] at h
          rcases List.mem_cons.mp h with hx | hx
          · exact .inr ⟨hm ▸ hfull, by rw [hx]; rfl⟩
          · exact .inl (List.mem_append_left _ hx)
      · exact .inl (List.mem_append_left _ h)
  · exact .inl h

theorem step_leaves (ha : Attempted ((Config.node W chainID self).failing fault) order e i)
    (ht : (id, t) ∈ e.pool.queue) :
    (id, t) ∈ (handle ((Config.node W chainID self).failing fault) order e i).pool.queue ∨
      Cause ((Config.node W chainID self).failing fault) order e i t := by
  set c := (Config.node W chainID self).failing fault with hc
  -- a proposal that takes the transaction out has it
  have hmem : ∀ {p : BlockProposal}, e.rs.proposal = some p →
      (id, t) ∈ (e.pool.removeCommitted W.toPrim p.txs).queue ∨ t ∈ p.txs := by
    intro p hp
    by_cases hu : ∀ u ∈ p.txs, u.id W.toPrim ≠ .ok id
    · exact .inl (Mempool.mem_removeCommitted.mpr ⟨ht, hu⟩)
    · simp only [not_forall, not_not] at hu
      obtain ⟨u, hu, hid⟩ := hu
      have hsame : u = t := (ha p hp).2 u hu (id, t) ht hid
      exact .inr (hsame ▸ hu)
  have hstep := handle_pool c order e i
  generalize hm : (handle c order e i).pool = m at hstep ⊢
  cases hstep with
  | same => exact .inl ht
  | arrived u hi =>
    rcases Mempool.enqueue_keeps (P := W.toPrim) (u := u) ht with hkept | ⟨hfull, hfirst⟩
    · exact .inl hkept
    · exact .inr (.evicted u id hi hfull hfirst)
  | committed p bytes r db hp hb happ hdb =>
    exact (hmem hp).imp_right fun htx => .committed p bytes r db hp htx hb happ hdb
  | rejected p hp hr =>
    refine (hmem hp).imp_right fun htx => ?_
    obtain ⟨e₁, hr₁⟩ := Outcome.eq_restart hr
    obtain ⟨hq, hne, hser⟩ := (ha p hp).1 (concludes_of_restarts hr)
    have hh : Holds c e.rs (blockHashForChain c.W.toPrim p c.chainID) := ⟨p, hp, rfl, hser⟩
    obtain ⟨p', bytes, hp', -, hb, href⟩ := pending_refuses hr₁ hq hne hh
    obtain rfl := Option.some.inj (hp.symm.trans hp')
    exact .refused p bytes e₁ hp htx hb href hr₁ ((pending_restart hr₁).2 hq hne hh)

/-- A transaction that is gone at the end of a run left it in a step that had a cause. -/
theorem leaves_for_cause (hrun : ReflTransGen (GuardedStep Attempted (.node W chainID self)) e e')
    (ht : (id, t) ∈ e.pool.queue) (hgone : (id, t) ∉ e'.pool.queue) :
    ∃ fault order i e₁ e₂, ReflTransGen (GuardedStep Attempted (.node W chainID self)) e e₁ ∧ (id, t) ∈ e₁.pool.queue ∧
      step ((Config.node W chainID self).failing fault) order e₁ i = some e₂ ∧ (id, t) ∉ e₂.pool.queue ∧
      Cause ((Config.node W chainID self).failing fault) order e₁ i t ∧
      ReflTransGen (GuardedStep Attempted (.node W chainID self)) e₂ e' := by
  obtain ⟨e₁, e₂, hto, hin, hstep, hout, hfrom⟩ :=
    run_loses (I := fun e : Engine Mempool => (id, t) ∈ e.pool.queue) hrun ht hgone
  obtain ⟨fault, order, i, ha, hs⟩ := guardedStep_iff.mp hstep
  refine ⟨fault, order, i, e₁, e₂, hto, hin, hs, hout, ?_, hfrom⟩
  obtain ⟨-, rfl⟩ := step_eq_some hs
  exact (step_leaves ha hin).resolve_left hout

end

def attemptedRun (e : Engine Mempool) (is : List Input) : Option (Engine Mempool) :=
  let c := Config.node World.sample defaultChainID 1
  is.foldlM (fun e i => if Attempted c .id e i then step c .id e i else none) e

/-- Validator 1 commits the transfer, which leaves the mempool with the block. -/
theorem leaves_for_cause_spending : ∃ e e' id, soloRun [.enqueue (spending 2 10)] = some e ∧
    attemptedRun e soloBlock = some e' ∧
    (id, spending 2 10) ∈ e.pool.queue ∧ (id, spending 2 10) ∉ e'.pool.queue ∧ e'.disk.db.height = 1 ∧
    ∃ fault order i e₁,
      Cause ((Config.node World.sample defaultChainID 1).failing fault) order e₁ i (spending 2 10) := by
  have hrun : ((soloRun [.enqueue (spending 2 10)]).bind fun e => (attemptedRun e soloBlock).map fun e' =>
      (e.pool.queue.map (·.2), e'.pool.queue, e'.disk.db.height)) = some ([spending 2 10], [], 1) := by
    decide +kernel
  obtain ⟨e, he, hrun⟩ := Option.bind_eq_some_iff.mp hrun
  obtain ⟨e', he', hrun⟩ := Option.map_eq_some_iff.mp hrun
  simp only [Prod.mk.injEq] at hrun
  obtain ⟨hqueue, hempty, hheight⟩ := hrun
  obtain ⟨⟨id, t⟩, hmem, rfl⟩ := List.mem_map.mp (hqueue ▸ List.mem_singleton_self (spending 2 10))
  have hgone : (id, spending 2 10) ∉ e'.pool.queue := hempty ▸ List.not_mem_nil
  obtain ⟨fault, order, i, e₁, e₂, -, -, -, -, hcause, -⟩ := leaves_for_cause (guarded_reaches he') hmem hgone
  exact ⟨e, e', id, he, he', hmem, hgone, hheight, fault, order, i, e₁, hcause⟩

def fundedRun (is : List Input) : Option (Engine Mempool) :=
  let c := Config.node World.sample defaultChainID 2
  let db := { threeDB with balances := soloDB.balances, totalSupply := some (6000 * 10 ^ 18) }
  is.foldlM (step c .id) (start c ⟨db, [], none⟩ (.new defaultCap) [])

/-- The block of the held proposal would be applied. -/
def appliable (e : Engine Mempool) : Bool :=
  e.rs.proposal.any fun p => match serializeProposal Prim.sample p with
    | .ok bytes => (applyBlockForChain World.sample .id e.disk.db (blockOf e.rs.height p bytes) defaultChainID).1.isOk
    | _ => false

/-- Validator 2 proposes the transfer. Validator 1 prevotes nil, so validator 2 precommits nil;
    on the nil precommit of validator 3 the transfer is dropped, though its block was good and
    was not tried. -/
theorem spending_dropped :
    let proposed := [.enqueue (spending 2 10), .delayElapsed, .proposeReady, .resume, ballot 1 .prevote 0 0, .resume]
    (fundedRun proposed).map (fun e => (e.pool.queue.map (·.2), e.rs.proposal.map (·.txs), appliable e)) =
      some ([spending 2 10], some [spending 2 10], true) ∧
    (fundedRun (proposed ++ [ballot 3 .precommit 0 0])).map (fun e => (e.pool.queue, e.disk.db.height,
      e.history.any fun | .committed .. | .refused .. => true | _ => false)) = some ([], 0, false) := by
  decide +kernel

end Frg.Consensus
