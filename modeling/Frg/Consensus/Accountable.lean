/-
  Frg.Consensus.Accountable — what two certificates for different blocks prove, and why the
  order of a vote map does not matter.

  `VerifyAttestationForChain` counts every validator once, by the key in its vote.
  `quorumBlock` adds up the stakes of the votes of a map, also by the key in the vote: it
  relies on the map having each vote under the key of its voter, as `handleVote` puts it.

    - `quorums_accountable`: the validators in two certificates of one height and round hold
      more than one third of the stake; of a map kept by voter, no two hashes have more than
      two thirds, and `quorumBlock` gives the same in every order.
-/

import Frg.Consensus.Certificates
import Frg.Lib.Orders

namespace Frg.Consensus

open Frg.Lib Frg.Core Frg.Wire Frg.Chain

/-- `validatorPK → vote`. -/
def Keyed (votes : Bucket Key Vote) : Prop := ∀ pk v, votes.get pk = some v → v.validatorPK = pk

/-- The validators that signed both. -/
def signedBoth (vals : Stakes) (a b : AttestationSet) : Stakes :=
  vals.filter fun v => v.1 ∈ a.votes.map (·.validatorPK) ∧ v.1 ∈ b.votes.map (·.validatorPK)

section

variable {P : Prim} {chainID chainID' : List UInt8} {vals : Stakes} {a b : AttestationSet} {votes : Bucket Key Vote}
  {h h' : Hash}

/-! ## Two certificates -/

theorem Certificate.signers (hc : Certificate P chainID vals a) (hnd : (vals.map (·.1)).Nodup) :
    Quorum (voters vals) (stakeWeight vals) (· ∈ a.votes.map (·.validatorPK)) := by
  have hstake : attestedStake vals a.votes ≤
      weight (voters vals) (stakeWeight vals) (· ∈ a.votes.map (·.validatorPK)) := by
    calc attestedStake vals a.votes
        = ∑ pk ∈ (a.votes.map (·.validatorPK)).toFinset, stakeWeight vals pk := by
          rw [List.sum_toFinset _ hc.distinct, List.map_map]
          rfl
      _ ≤ weight (voters vals) (stakeWeight vals) (· ∈ a.votes.map (·.validatorPK)) := by
          apply sum_le_weight
          intro pk hpk
          rw [List.mem_toFinset] at hpk
          obtain ⟨v, hv, rfl⟩ := List.mem_map.mp hpk
          exact ⟨List.mem_toFinset.mpr (hc.votes v hv).validator, hpk⟩
  have hquorum := hc.quorum
  unfold Quorum
  rw [← totalStake_eq hnd]
  omega

theorem signedBoth_weight (hnd : (vals.map (·.1)).Nodup) : totalStake (signedBoth vals a b) =
    weight (voters vals) (stakeWeight vals) fun pk =>
      pk ∈ a.votes.map (·.validatorPK) ∧ pk ∈ b.votes.map (·.validatorPK) := by
  rw [weight_eq_sum hnd]
  rfl

/-! ## One tally -/

theorem sumVoted_le (hnd : (vals.map (·.1)).Nodup) : sumVoted votes vals ≤ totalStake vals := by
  calc sumVoted votes vals
      = ∑ pk ∈ votes.keys.toFinset, stakeWeight vals pk := by
        rw [List.sum_toFinset _ votes.keys_nodup]
        unfold Bucket.keys
        rw [List.map_map]
        rfl
    _ ≤ ∑ pk ∈ voters vals, stakeWeight vals pk := by
        apply Finset.sum_le_sum_of_ne_zero
        intro pk _ hne
        by_contra hno
        have hnone : vals.reverse.lookup pk = none := by
          rw [List.lookup_eq_none_iff]
          intro x hx
          rw [bne_iff_ne]
          rintro rfl
          exact hno (List.mem_toFinset.mpr (List.mem_map_of_mem (List.mem_reverse.mp hx)))
        exact hne (by rw [stakeWeight, stakeOf, hnone]; rfl)
    _ = totalStake vals := (totalStake_eq hnd).symm

theorem tally_add_le (hk : Keyed votes) (hne : h ≠ h') :
    tally votes vals h + tally votes vals h' ≤ sumVoted votes vals := by
  unfold tally sumVoted
  rw [← List.sum_map_add]
  apply List.sum_le_sum
  intro x hx
  rw [hk x.1 x.2 (Bucket.mem_entries.mp hx)]
  by_cases hh : x.2.blockHash = h
  · rw [if_pos hh, if_neg fun hh' => hne (hh.symm.trans hh')]
    exact le_rfl
  · rw [if_neg hh, Nat.zero_add]
    split_ifs
    · exact le_rfl
    · exact Nat.zero_le _

theorem decided_unique (hnd : (vals.map (·.1)).Nodup) (hk : Keyed votes) (hd : decided votes vals h = true)
    (hd' : decided votes vals h' = true) : h = h' := by
  by_contra hne
  have hsum : tally votes vals h + tally votes vals h' ≤ sumVoted votes vals := tally_add_le hk hne
  have htotal : sumVoted votes vals ≤ totalStake vals := sumVoted_le hnd
  unfold decided at hd hd'
  rw [decide_eq_true_eq] at hd hd'
  omega

theorem quorumBlock_order (hnd : (vals.map (·.1)).Nodup) (hk : Keyed votes) (order order' : MapOrder) :
    quorumBlock order votes vals = quorumBlock order' votes vals :=
  find_perm ((order.perm _).trans (order'.perm _).symm) fun _ _ => decided_unique hnd hk

/-- For any distinct validators: two certificates of one height and round, and any map of
    votes kept by voter. -/
theorem quorums_accountable (hnd : (vals.map (·.1)).Nodup) :
    (∀ a b, verifyAttestationForChain P a vals chainID = .ok () → verifyAttestationForChain P b vals chainID' = .ok () →
      a.height = b.height → a.round = b.round → a.blockHash ≠ b.blockHash →
        totalStake vals < 3 * totalStake (signedBoth vals a b)) ∧
    ∀ votes, Keyed votes → (∀ h h', decided votes vals h = true → decided votes vals h' = true → h = h') ∧
      ∀ order order', quorumBlock order votes vals = quorumBlock order' votes vals := by
  refine ⟨fun a b ha hb _ _ _ => ?_, fun votes hk => ⟨fun h h' => decided_unique hnd hk, quorumBlock_order hnd hk⟩⟩
  obtain ⟨-, -, hca⟩ := verifyAttestationForChain_ok.mp ha
  obtain ⟨-, -, hcb⟩ := verifyAttestationForChain_ok.mp hb
  rw [signedBoth_weight hnd, totalStake_eq hnd]
  exact (hca.signers hnd).overlap (hcb.signers hnd)

end

def fourVals : Stakes := [(1, 1), (2, 1), (3, 1), (4, 1)]

/-- The precommit of a validator in the first round. -/
def precommitOf (k : Key) (h : Hash) : Vote := signVote (.node World.sample defaultChainID k) .precommit 1 0 h

def attestedBy (h : Hash) (ks : List Key) : AttestationSet :=
  { height := 1, round := 0, blockHash := h, votes := ks.map fun k => precommitOf k h }

/-- Three precommits for one block and one for another, each under its voter. -/
def threeToOne : Bucket Key Vote :=
  ((((Bucket.empty.put 1 (precommitOf 1 5)).put 2 (precommitOf 2 5)).put 3 (precommitOf 3 5)).put 4 (precommitOf 4 6))

/-- Validators 2 and 3 have signed for two blocks; a tally of four votes, from its other end. -/
theorem quorums_accountable_two :
    (verifyAttestationForChain Prim.sample (attestedBy 5 [1, 2, 3]) fourVals defaultChainID = .ok () ∧
      verifyAttestationForChain Prim.sample (attestedBy 6 [2, 3, 4]) fourVals defaultChainID = .ok () ∧
      totalStake fourVals < 3 * totalStake (signedBoth fourVals (attestedBy 5 [1, 2, 3]) (attestedBy 6 [2, 3, 4]))) ∧
    quorumBlock .rev threeToOne fourVals = some 5 := by
  have hok : verifyAttestationForChain Prim.sample (attestedBy 5 [1, 2, 3]) fourVals defaultChainID = .ok () ∧
      verifyAttestationForChain Prim.sample (attestedBy 6 [2, 3, 4]) fourVals defaultChainID = .ok () := by
    decide +kernel
  have hfound : quorumBlock .id threeToOne fourVals = some 5 := by decide +kernel
  have hall : ∀ x ∈ threeToOne.entries, x.2.validatorPK = x.1 := by decide +kernel
  have hkeyed : Keyed threeToOne := fun pk v hv => hall (pk, v) (Bucket.mem_entries.mpr hv)
  have hboth := @quorums_accountable Prim.sample defaultChainID defaultChainID fourVals (by decide)
  refine ⟨⟨hok.1, hok.2, hboth.1 _ _ hok.1 hok.2 rfl rfl (by decide)⟩, ?_⟩
  rw [(hboth.2 threeToOne hkeyed).2 .rev .id]
  exact hfound

end Frg.Consensus
