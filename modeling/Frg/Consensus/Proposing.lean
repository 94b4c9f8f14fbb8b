/-
  Frg.Consensus.Proposing — proposals made from the mempool, from the queue to the bytes and
  back.

  A proposal takes the oldest 65536 transactions of the queue. Each was read by `Deserialize`,
  which allows 70000 bytes; its length in a batch has 16 bits, and so has the count.

    - `proposal_travels_iff`: the proposal is written, read back and verified exactly when the
      oldest transactions fit a batch (`FitsBatch`) and the attestation has at most 4096 votes.
    - `bulky_not_proposed`: a single transaction of 65827 bytes blocks every proposal.
-/

import Frg.Consensus.BlockLoop
import Frg.Consensus.Codec

namespace Frg.Consensus

open Frg.Lib Frg.Core Frg.Wire Frg.Chain

/-- The transactions a proposal takes. -/
def Mempool.oldest (m : Mempool) : List Tx := (m.queue.take tMax).map (·.2)

/-- Lengths, count and size of the transactions are within those of a batch. -/
def FitsBatch (P : Prim) (txs : List Tx) : Prop :=
  txs.length < 65536 ∧ (∀ t ∈ txs, (t.wire P).length ≤ 0xFFFF) ∧
    14 + (txs.map fun t => 2 + (t.wire P).length).sum ≤ maxBatchBytes

instance (P : Prim) (txs : List Tx) : Decidable (FitsBatch P txs) := inferInstanceAs (Decidable (_ ∧ _ ∧ _))

section

variable {P : Prim} {txs : List Tx}

/-- Decoded transactions that fit can be written, and what cannot be read back does not fit. -/
theorem fitsBatch_iff (hd : ∀ t ∈ txs, Decoded P t) :
    FitsBatch P txs ↔ txs.length < 65536 ∧ ∃ txBytes, proposalTxs P txs = .ok txBytes := by
  unfold FitsBatch proposalTxs
  refine and_congr_right fun hcount => ?_
  by_cases hnil : txs = []
  · subst hnil
    simp [maxBatchBytes]
  · rw [if_neg hnil, ← length_batchBody]
    constructor
    · rintro ⟨hlen, hmax⟩
      exact ⟨_, serializeBatch_ok.mpr ⟨hnil, by unfold maxBatchTxs; omega,
        fun t ht => ⟨(hd t ht).serialize, hlen t ht⟩, hmax, rfl⟩⟩
    · rintro ⟨txBytes, h⟩
      obtain ⟨-, -, hts, hmax, -⟩ := serializeBatch_ok.mp h
      exact ⟨fun t ht => (hts t ht).2, hmax⟩

theorem mem_enqueue {m : Mempool} {t x : Tx} (h : t ∈ (m.enqueue P x).queue.map (·.2)) :
    t = x ∨ t ∈ m.queue.map (·.2) := by
  unfold Mempool.enqueue at h
  split at h
  · rename_i id hid
    split at h
    · exact Or.inr h
    · have h : t ∈ (m.makeRoom ++ [(id, x)]).map (·.2) := h
      rw [List.map_append, List.mem_append] at h
      rcases h with h | h
      · exact Or.inr ((m.makeRoom_sublist.map _).subset h)
      · exact Or.inl (List.mem_singleton.mp h)
  · exact Or.inr h

theorem enqueued_mem {cap : Nat} {t : Tx} :
    t ∈ ((txs.foldl (Mempool.enqueue P) (.new cap)).queue.map (·.2)) → t ∈ txs := by
  suffices h : ∀ m : Mempool, t ∈ (txs.foldl (Mempool.enqueue P) m).queue.map (·.2) →
      t ∈ txs ∨ t ∈ m.queue.map (·.2) by
    intro ht
    exact (h _ ht).resolve_right List.not_mem_nil
  induction txs with
  | nil => exact fun m h => Or.inr h
  | cons x xs ih =>
    intro m h
    rcases ih (m.enqueue P x) h with h | h
    · exact Or.inl (List.mem_cons_of_mem x h)
    · exact (mem_enqueue h).imp (fun e => List.mem_cons.mpr (Or.inl e)) id

/-- A proposal from the mempool is written, read back and verified exactly when its
    transactions fit a batch and its attestation has room. -/
theorem proposal_travels_iff (P : Prim) (hsign : ∀ k m, P.verify k m (P.sign k m) = true) {txs : List Tx}
    (hd : ∀ t ∈ txs, Decoded P t) (cap : Nat) (kp : Key) (chainID : List UInt8) (height : UInt64) (round : UInt32)
    (prevAttest : AttestationSet) (prevRoot : Hash) :
    let m := txs.foldl (Mempool.enqueue P) (.new cap)
    let p := propose P kp chainID m height round prevAttest prevRoot
    (∃ bytes q, serializeProposal P p = .ok bytes ∧ deserializeProposal P bytes = .ok q ∧
      q.height = height ∧ q.round = round ∧ q.prevStateRoot = prevRoot ∧ q.proposerPK = kp ∧ q.txs = m.oldest ∧
      q.proposerSig = p.proposerSig ∧ verifyProposalForChain P q chainID = true) ↔
    FitsBatch P m.oldest ∧ prevAttest.votes.length ≤ maxProposalVotes := by
  intro m p
  have hdec : ∀ t ∈ m.oldest, Decoded P t := fun t ht =>
    hd t (enqueued_mem ((List.take_sublist _ _).map _ |>.subset ht))
  have hmax : m.oldest.length ≤ 65536 := by
    unfold Mempool.oldest
    rw [List.length_map, List.length_take]
    exact Nat.min_le_left _ _
  rw [fitsBatch_iff hdec]
  constructor
  · rintro ⟨bytes, q, hser, hdes, -⟩
    obtain ⟨hvotes, -, txBytes, hb, -⟩ := serializeProposal_ok.mp hser
    refine ⟨⟨lt_of_le_of_ne hmax fun hfull => ?_, txBytes, hb⟩, hvotes⟩
    rw [deserializeProposal_full hser hfull] at hdes
    cases hdes
  · rintro ⟨⟨hcount, txBytes, hb⟩, hvotes⟩
    have hser := serializeProposal_ok.mpr ⟨hvotes, show p.txs.length ≤ maxProposalTxs from hmax, txBytes, hb, rfl⟩
    refine ⟨_, p, hser, deserializeProposal_serializeProposal hser hdec hcount, rfl, rfl, rfl, rfl, rfl, rfl, ?_⟩
    -- the signature is not part of what it signs
    exact hsign kp (proposalSignBytesForChain P p chainID)

end

/-! ## Two transactions -/

theorem sample_verifies (k : Key) (m : List UInt8) : Prim.sample.verify k m (Prim.sample.sign k m) = true := by
  simp [Prim.sample]

def payment : Tx := Tx.plain .transfer 1 2 10 1

theorem payment_decoded : Decoded Prim.sample payment := by
  have hok : (serialize Prim.sample payment).isOk = true := by decide +kernel
  obtain ⟨b, hb⟩ := Go.isOk_iff.mp hok
  exact ⟨b, deserialize_serialize ⟨rfl, rfl, rfl, fun _ => rfl, fun _ => rfl, fun _ => ⟨rfl, rfl⟩⟩ hb⟩

def paying : Mempool := [payment].foldl (Mempool.enqueue Prim.sample) (.new defaultCap)

theorem proposal_travels_iff_payment : paying.oldest = [payment] ∧ ∃ bytes q,
    serializeProposal Prim.sample (propose Prim.sample 2 defaultChainID paying 1 0 {} 0) = .ok bytes ∧
      deserializeProposal Prim.sample bytes = .ok q ∧ q.height = 1 ∧ q.round = 0 ∧ q.prevStateRoot = 0 ∧
      q.proposerPK = 2 ∧ q.txs = paying.oldest ∧
      q.proposerSig = (propose Prim.sample 2 defaultChainID paying 1 0 {} 0).proposerSig ∧
      verifyProposalForChain Prim.sample q defaultChainID = true := by
  refine ⟨by decide +kernel,
    (proposal_travels_iff Prim.sample sample_verifies ?_ defaultCap 2 defaultChainID 1 0 {} 0).mpr
    ⟨by decide +kernel, by decide⟩⟩
  intro t ht
  rw [List.mem_singleton.mp ht]
  exact payment_decoded

def deployment (code : List UInt8) : Tx := { Tx.plain .contractDeploy 1 0 0 1 with wasmBytes := code }

theorem deployment_serialize {code : List UInt8} (h : code.length + 291 ≤ maxTxBytes) :
    ∃ b, serialize Prim.sample (deployment code) = .ok b ∧ b.length = code.length + 291 := by
  have hmax : maxTxBytes ≤ maxWasmBytes := by decide
  have hext : serializeExt (deployment code) = .ok (u32 code.length ++ code) := by
    show (Go.check (code.length ≤ maxWasmBytes) _ >>= fun _ => pure _) = _
    rw [Go.check_pos (by omega), Go.ok_bind]
    rfl
  have hval : uint256Of (deployment code).value = .ok 0 := rfl
  unfold serialize serializeUnsigned
  rw [Go.check_pos ⟨rfl, rfl⟩, Go.ok_bind, hval, Go.ok_bind, Go.check_pos ⟨Nat.zero_le _, Nat.zero_le _⟩, Go.ok_bind,
    hext, Go.ok_bind]
  simp only [Go.pure_eq, Go.ok_bind]
  rw [Go.check_pos, Go.ok_bind]
  · refine ⟨_, rfl, ?_⟩
    simp [u16, u32, u64, domainTx, deployment, Tx.plain, Prim.sample]
    omega
  · simp [u16, u32, u64, domainTx, deployment, Tx.plain, Prim.sample]
    omega

theorem deployment_decoded {code : List UInt8} (h : code.length + 291 ≤ maxTxBytes) :
    Decoded Prim.sample (deployment code) := by
  obtain ⟨b, hb, -⟩ := deployment_serialize h
  exact ⟨b, deserialize_serialize ⟨rfl, rfl, rfl, fun h => absurd rfl h, fun _ => rfl, fun _ => ⟨rfl, rfl⟩⟩ hb⟩

/-- A transaction longer than 65535 bytes keeps every proposal from being written. -/
theorem oversized_not_proposed {P : Prim} {t : Tx} {b : List UInt8} (hb : serialize P t = .ok b)
    (hlen : 0xFFFF < b.length) (kp : Key) (bytes : List UInt8) :
    serializeProposal P (propose P kp defaultChainID ([t].foldl (Mempool.enqueue P) (.new defaultCap)) 1 0 {} 0) ≠
      .ok bytes := by
  intro h
  obtain ⟨unsigned, hun, -⟩ := Go.bind_eq_ok.mp hb
  have hid : Tx.id P t = .ok (P.hash unsigned) := by
    unfold Tx.id
    rw [hun, Go.ok_bind, Go.pure_eq]
  have hmem : t ∈ ([t].foldl (Mempool.enqueue P) (.new defaultCap)).oldest := by
    simp [Mempool.oldest, Mempool.enqueue, hid, Mempool.add, Mempool.makeRoom, Mempool.new, defaultCap, tMax]
  obtain ⟨-, -, txBytes, htx, -⟩ := serializeProposal_ok.mp h
  have htx : proposalTxs P ([t].foldl (Mempool.enqueue P) (.new defaultCap)).oldest = .ok txBytes := htx
  rw [proposalTxs, if_neg (List.ne_nil_of_mem hmem)] at htx
  obtain ⟨-, -, hts, -, -⟩ := serializeBatch_ok.mp htx
  have hsmall := (hts t hmem).2
  rw [wire_eq hb] at hsmall
  omega

/-- A deployment of 65536 bytes of code, 65827 bytes in all. -/
def bulky : Tx := deployment (List.replicate 65536 0)

/-- A decoded transaction in the mempool of validator 2 that no proposal can carry. -/
theorem bulky_not_proposed : Decoded Prim.sample bulky ∧
    ∀ bytes, serializeProposal Prim.sample (propose Prim.sample 2 defaultChainID
      ([bulky].foldl (Mempool.enqueue Prim.sample) (.new defaultCap)) 1 0 {} 0) ≠ .ok bytes := by
  have hcode : (List.replicate 65536 (0 : UInt8)).length + 291 = 65827 := by rw [List.length_replicate]
  have hmax : (List.replicate 65536 (0 : UInt8)).length + 291 ≤ maxTxBytes := by rw [hcode]; decide
  obtain ⟨b, hb, hlen⟩ := deployment_serialize hmax
  exact ⟨deployment_decoded hmax, oversized_not_proposed hb (by omega) 2⟩

end Frg.Consensus
