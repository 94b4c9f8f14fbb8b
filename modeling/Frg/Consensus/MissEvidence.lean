/-
  Frg.Consensus.MissEvidence — what the miss evidence of a committed block proves.

  A block does not carry the round it was committed in, so `ApplyBlockForChain` checks the
  evidence against the rotation of proposers alone: `SkipIndex` is any 32-bit number, of
  which many elect the same validator.

    - `committed_evidence`: every miss evidence of a committed block is for its height, the
      accused is the proposer at its skip index, the reporter the proposer at the next one,
      no skip index occurs twice, and each of them is charged once, whatever the round.
    - `first_round_charged`: a block committed in round 0 charges the validator that
      proposed it with a miss of round 0.
-/

import Frg.Chain.Skipped
import Frg.Consensus.BlockLoop

namespace Frg.Consensus

open Frg.Lib Frg.Core Frg.Wire Frg.Chain

section

variable {W : World} {ctx : BlockCtx}

/-- Miss evidence that passed its check. -/
structure Accuses (W : World) (root : Hash) (height : UInt64) (validators : List Key) (t : Tx) : Prop where
  sameHeight : t.missedHeight = height
  index : t.skipIndex ≠ 0xFFFFFFFF
  accused : skipProposer W.toPrim root height validators t.skipIndex = .ok t.missedProposer
  reporter : skipProposer W.toPrim root height validators (t.skipIndex + 1) = .ok t.senderPubKey
  receiver : t.receiverPubKey = t.missedProposer
  value : t.value = some 0

theorem validateMissEvidenceTx_ok {t : Tx} {height : UInt64} {root : Hash} {validators : List Key} {u : Unit}
    (h : validateMissEvidenceTx W t height root validators = .ok u) : Accuses W root height validators t := by
  unfold validateMissEvidenceTx at h
  simp only [Go.bind_eq_ok, Go.check_eq_ok] at h
  obtain ⟨_, hv, _, hh, _, hr, _, hi, missed, hm, _, rfl, reporter, hrep, rfl⟩ := h
  exact ⟨hh, hi, hm, hrep, hr, hv⟩

theorem checkMissEvidence_ok {t : Tx} {seen seen' : List (UInt64 × UInt32 × Key)}
    (h : checkMissEvidence W ctx seen t = .ok seen') :
    (t.type ≠ .missEvidence ∧ seen' = seen) ∨
      (t.type = .missEvidence ∧ Accuses W ctx.prevStateRoot ctx.height ctx.validators t ∧
        missEvidenceKey t ∉ seen ∧ seen' = missEvidenceKey t :: seen) := by
  unfold checkMissEvidence at h
  by_cases ht : t.type = .missEvidence
  · rw [if_pos ht] at h
    simp only [Go.bind_eq_ok, Go.check_eq_ok, precheck, ht] at h
    obtain ⟨_, ⟨_, hv, -⟩, _, hs, h⟩ := h
    exact Or.inr ⟨ht, validateMissEvidenceTx_ok hv, hs, (Go.ok.inj h).symm⟩
  · rw [if_neg ht] at h
    exact Or.inl ⟨ht, (Go.ok.inj h).symm⟩

theorem checkMissEvidence_loop : ∀ {txs : List Tx} {seen seen' : List (UInt64 × UInt32 × Key)},
    txs.foldlM (checkMissEvidence W ctx) seen = .ok seen' →
    (∀ t ∈ missEvidenceIn txs, Accuses W ctx.prevStateRoot ctx.height ctx.validators t ∧ missEvidenceKey t ∉ seen) ∧
      ((missEvidenceIn txs).map missEvidenceKey).Nodup := by
  intro txs
  induction txs with
  | nil =>
    intro seen seen' _
    exact ⟨fun t ht => absurd ht List.not_mem_nil, List.nodup_nil⟩
  | cons t txs ih =>
    intro seen seen' h
    rw [List.foldlM_cons] at h
    obtain ⟨seen₁, h1, h2⟩ := Go.bind_eq_ok.mp h
    obtain ⟨hall, hnd⟩ := ih h2
    rcases checkMissEvidence_ok h1 with ⟨ht, rfl⟩ | ⟨ht, hacc, hs, rfl⟩
    · rw [missEvidenceIn, List.filter_cons_of_neg (by simpa using ht)]
      exact ⟨hall, hnd⟩
    · rw [missEvidenceIn, List.filter_cons_of_pos (by simpa using ht)]
      refine ⟨fun t' ht' => ?_, ?_⟩
      · rcases List.mem_cons.mp ht' with rfl | ht'
        · exact ⟨hacc, hs⟩
        · obtain ⟨ha, hn⟩ := hall t' ht'
          exact ⟨ha, fun hm => hn (List.mem_cons_of_mem _ hm)⟩
      · rw [List.map_cons, List.nodup_cons]
        refine ⟨fun hm => ?_, hnd⟩
        obtain ⟨t', ht', he⟩ := List.mem_map.mp hm
        exact (hall t' ht').2 (he ▸ List.mem_cons_self)

end

variable {σ : Type} {c : Config σ} {order : MapOrder} {e e' : Engine σ} {h : Hash}

/-- The miss evidence of a committed block: checked against the rotation of its height, each
    skip index once, each accused charged once. -/
theorem committed_evidence (hok : commit c order h e = .ok e') : ∃ p, e.rs.proposal = some p ∧
    (∀ t ∈ missEvidenceIn p.txs,
      Accuses c.W e.disk.db.stateRoot e.rs.height ((bondedAmounts e.disk.db).map (·.1)) t) ∧
    ((missEvidenceIn p.txs).map Tx.skipIndex).Nodup ∧
    missLog e'.disk.db = ((missEvidenceIn p.txs).map Tx.missedProposer).reverse ++ missLog e.disk.db := by
  obtain ⟨p, bytes, r, db, hp, -, -, happ, rfl⟩ := commit_ok c hok
  obtain ⟨run, -⟩ := applyBlockForChain_ok happ
  have hck := run.checked
  simp only [checkBlock, Go.bind_eq_ok] at hck
  obtain ⟨_, -, _, -, _, -, seen, hloop, -⟩ := hck
  obtain ⟨hall, hnd⟩ := checkMissEvidence_loop hloop
  refine ⟨p, hp, fun t ht => (hall t ht).1, ?_, run.missLog⟩
  -- the height is the block's, and the accused follows from the skip index
  rw [List.nodup_iff_pairwise_ne, List.pairwise_map] at hnd ⊢
  refine hnd.imp_of_mem fun {t u} ht hu hne hi => hne ?_
  have h1 := (hall t ht).1
  have h2 := (hall u hu).1
  have hacc := h1.accused
  rw [hi, h2.accused] at hacc
  unfold missEvidenceKey
  rw [h1.sameHeight, h2.sameHeight, hi, Go.ok.inj hacc]

/-! ## A miss in the round that was not missed -/

/-- Validator 2's proposal for the first round of height 1, with validator 1's evidence that
    validator 2 missed that round. -/
def ownMiss : BlockProposal :=
  let m : Mempool := (accusing 1).txs.foldl (fun m t => m.enqueue Prim.sample t) (.new defaultCap)
  propose Prim.sample 2 defaultChainID m 1 0 {} stakedDB.stateRoot

def ownMissHash : Hash := blockHashForChain Prim.sample ownMiss defaultChainID

/-- The vote of validator 2 for its proposal, as it arrives. -/
def secondVote (type : VoteType) : Input :=
  .vote (serializeVote (signVote (.node World.sample defaultChainID 2) type 1 0 ownMissHash))

/-- The engine of validator 1 on the proposal and the votes of validator 2. -/
def missRun : Option (Engine Mempool) :=
  let c := Config.node World.sample defaultChainID 1
  let raw := match serializeProposal Prim.sample ownMiss with | .ok raw => raw | _ => []
  [.proposal raw, .resume, .resume, secondVote .prevote, .resume, secondVote .precommit].foldlM (step c .id)
    (start c ⟨stakedDB, [], none⟩ (.new defaultCap) [])

/-- An engine that is about to commit the proposal. -/
def aboutToCommit : Engine Mempool :=
  let e := start (.node World.sample defaultChainID 1) ⟨stakedDB, [], none⟩ (.new defaultCap) []
  { e with rs := { e.rs with proposal := some ownMiss, phase := .commit } }

theorem committed_evidence_ownMiss :
    ∃ e', commit (.node World.sample defaultChainID 1) .id ownMissHash aboutToCommit = .ok e' ∧
      ∃ p, aboutToCommit.rs.proposal = some p ∧
        (∀ t ∈ missEvidenceIn p.txs, Accuses World.sample aboutToCommit.disk.db.stateRoot aboutToCommit.rs.height
          ((bondedAmounts aboutToCommit.disk.db).map (·.1)) t) ∧
        ((missEvidenceIn p.txs).map Tx.skipIndex).Nodup ∧
        missLog e'.disk.db = ((missEvidenceIn p.txs).map Tx.missedProposer).reverse ++
          missLog aboutToCommit.disk.db := by
  obtain ⟨e', he⟩ := Go.isOk_iff.mp (show (commit (.node World.sample defaultChainID 1) .id ownMissHash
    aboutToCommit).isOk = true by decide +kernel)
  exact ⟨e', he, committed_evidence he⟩

/-- Validator 2 proposes in round 0, its block is committed in round 0, and the block charges
    it with a miss of round 0. -/
theorem first_round_charged : ownMiss.round = 0 ∧
    skipProposer Prim.sample stakedDB.stateRoot 1 ((bondedAmounts stakedDB).map (·.1)) 0 = .ok ownMiss.proposerPK ∧
    (missEvidenceIn ownMiss.txs).map (fun t => (t.skipIndex, t.missedProposer)) = [(0, 2)] ∧
    missRun.map (fun e => (decide (Entry.committed 1 ownMissHash ∈ e.history), missLog e.disk.db,
      (e.disk.db.validators.get 2).map Record.missCount)) = some (true, [2], some 1) := by
  decide +kernel

end Frg.Consensus
