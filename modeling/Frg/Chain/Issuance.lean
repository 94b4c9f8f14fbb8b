/-
  Frg.Chain.Issuance — how fast the block rewards can grow the supply.

  `mint.MintPerBlock` takes a tenth of the supply, spreads it over the blocks of a year, and
  scales it down with the part of the staking target that is already met. `SplitReward` divides
  the reward among the validators and gives what is left over to the first of them. Every
  division rounds down, so none of them mints more than the exact share.

    - `mintPerBlock_eq`: the reward without the cases that never matter.
    - `accepted_supply_le`: an accepted block adds at most the reward of the supply before it.
    - `issuance_bounded`: the reward falls with the stake, stays within a tenth of the supply a
      year, is split exactly, and the supply of a run grows at most geometrically.
-/

import Frg.Chain.Supply
import Mathlib.Tactic.FieldSimp

namespace Frg.Chain

open Frg.Lib Frg.Core Frg.Wire Frg.Contract Frg.RG

/-! ## The reward of a block -/

/-- Without a target, or with the target met, there is no reward. -/
theorem mintPerBlock_eq {supply staked : Int} (h0 : 0 ≤ staked) : mintPerBlock supply staked =
    if staked < supply / 2 then supply / 10 / blocksPerYear * (supply / 2 - staked) / (supply / 2) else 0 := by
  have hhalf : supply * targetStakingRatioPct / 100 = supply / 2 := by
    unfold targetStakingRatioPct
    omega
  have htenth : supply * maxAnnualRatePct / 100 = supply / 10 := by
    unfold maxAnnualRatePct
    omega
  unfold mintPerBlock
  dsimp only
  rw [hhalf, htenth]
  by_cases hpos : supply ≤ 0
  · rw [if_pos hpos, if_neg (by omega)]
  · rw [if_neg hpos]
    by_cases hlt : staked < supply / 2
    · rw [if_pos hlt, if_neg (by omega)]
    · rw [if_neg hlt, if_pos (by omega)]

theorem maxPerBlock_nonneg {supply : Int} (h : 0 ≤ supply) : 0 ≤ supply / 10 / blocksPerYear := by
  unfold blocksPerYear
  omega

theorem mintPerBlock_antitone {supply staked staked' : Int} (h0 : 0 ≤ staked) (hle : staked ≤ staked') :
    mintPerBlock supply staked' ≤ mintPerBlock supply staked := by
  by_cases hlt : staked' < supply / 2
  · rw [mintPerBlock_eq h0, mintPerBlock_eq (le_trans h0 hle), if_pos hlt, if_pos (by omega)]
    apply Int.ediv_le_ediv (by omega)
    exact Int.mul_le_mul_of_nonneg_left (by omega) (maxPerBlock_nonneg (by omega))
  · rw [mintPerBlock_eq (le_trans h0 hle), if_neg hlt]
    exact mintPerBlock_nonneg _ _

theorem mintPerBlock_of_staked {supply staked : Int} (h0 : 0 ≤ staked) (h : supply / 2 ≤ staked) :
    mintPerBlock supply staked = 0 := by
  rw [mintPerBlock_eq h0, if_neg (by omega)]

/-- A year of rewards is at most a tenth of the supply. -/
theorem mintPerBlock_le {supply staked : Int} (hs : 0 ≤ supply) (h0 : 0 ≤ staked) :
    blocksPerYear * 10 * mintPerBlock supply staked ≤ supply := by
  rw [mintPerBlock_eq h0]
  by_cases hlt : staked < supply / 2
  · have hscaled : supply / 10 / blocksPerYear * (supply / 2 - staked) / (supply / 2) ≤
      supply / 10 / blocksPerYear := by
      apply Int.ediv_le_of_le_mul (by omega)
      exact Int.mul_le_mul_of_nonneg_left (by omega) (maxPerBlock_nonneg hs)
    rw [if_pos hlt]
    unfold blocksPerYear at *
    omega
  · rw [if_neg hlt, mul_zero]
    exact hs

/-! ## The shares -/

/-- The remainder of the division is all that tells the first share from the others. -/
theorem splitReward_mem {reward : Int} {n : Nat} (hn : 1 ≤ n) {s : Int} (hs : s ∈ splitReward reward n) :
    (if reward ≤ 0 then 0 else reward / n) ≤ s ∧ s < (if reward ≤ 0 then 0 else reward / n) + n := by
  unfold splitReward at hs
  by_cases hr : reward ≤ 0
  · rw [if_pos hr] at hs ⊢
    rw [List.eq_of_mem_replicate hs]
    omega
  · rw [if_neg hr] at hs ⊢
    obtain ⟨m, rfl⟩ := Nat.exists_eq_add_of_le' hn
    dsimp only at hs
    have hrest := Int.emod_nonneg reward (show ((m + 1 : Nat) : Int) ≠ 0 by omega)
    have hlt := Int.emod_lt_of_pos reward (show (0 : Int) < ((m + 1 : Nat) : Int) by omega)
    have hdiv := Int.mul_ediv_add_emod reward ((m + 1 : Nat) : Int)
    rw [mul_comm] at hdiv
    rcases List.mem_cons.mp hs with rfl | hs
    · omega
    · rw [List.eq_of_mem_replicate hs]
      omega

theorem splitReward_spread {reward : Int} {n : Nat} (hn : 1 ≤ n) {s t : Int} (hs : s ∈ splitReward reward n)
    (ht : t ∈ splitReward reward n) : |s - t| < n := by
  have h1 := splitReward_mem hn hs
  have h2 := splitReward_mem hn ht
  rw [abs_lt]
  omega

/-! ## The supply of a run -/

theorem mintAmountOf_le {db : DB} {s : Nat} (h : db.totalSupply = some s) :
    blocksPerYear * 10 * mintAmountOf db ≤ s := by
  unfold mintAmountOf
  rw [h]
  by_cases hnone : bondedAmounts db = []
  · rw [if_pos hnone, mul_zero]
    exact Int.natCast_nonneg s
  · rw [if_neg hnone]
    apply mintPerBlock_le (Int.natCast_nonneg s)
    apply List.sum_nonneg
    intro x hx
    obtain ⟨p, -, rfl⟩ := List.mem_map.mp hx
    exact Int.natCast_nonneg _

theorem accepted_supply_le {W : World} {order : MapOrder} {pre post : DB} {b : Block} {chainID : List UInt8}
    {r : Result}
    (h : applyBlockForChain W order pre b chainID = (.ok r, post)) {s : Nat} (hs : pre.totalSupply = some s) :
    ∃ n : Nat, post.totalSupply = some n ∧ (n : Int) ≤ s + mintAmountOf pre := by
  obtain ⟨run, -⟩ := applyBlockForChain_ok h
  obtain ⟨n, hn, heq⟩ := run.supply s hs
  have hburned : (0 : Int) ≤ (currentBaseFee pre).val * run.totalGas.toNat :=
    mul_nonneg (Int.natCast_nonneg _) (Int.natCast_nonneg _)
  exact ⟨n, hn, by omega⟩

/-- The factor a block can grow the supply by. -/
def growth : ℚ := 1 + 1 / (10 * blocksPerYear)

theorem growth_pos : 0 < growth := by
  unfold growth blocksPerYear
  norm_num

theorem accepted_supply_growth {W : World} {order : MapOrder} {pre post : DB} {b : Block} {chainID : List UInt8}
    {r : Result}
    (h : applyBlockForChain W order pre b chainID = (.ok r, post)) {s : Nat} (hs : pre.totalSupply = some s) :
    ∃ n : Nat, post.totalSupply = some n ∧ (n : ℚ) ≤ s * growth := by
  obtain ⟨n, hn, hle⟩ := accepted_supply_le h hs
  have hmint := mintAmountOf_le hs
  refine ⟨n, hn, ?_⟩
  have hscaled : blocksPerYear * 10 * (n : Int) ≤ (blocksPerYear * 10 + 1) * s := by
    unfold blocksPerYear at *
    omega
  have hcast : ((blocksPerYear * 10 * (n : Int) : Int) : ℚ) ≤ (((blocksPerYear * 10 + 1) * s : Int) : ℚ) := by
    exact_mod_cast hscaled
  unfold growth blocksPerYear at *
  push_cast at hcast ⊢
  linarith

theorem AcceptedRun.supply_le {W : World} {db : DB} {run : List Applied} (h : AcceptedRun W db run) :
    ∀ {s : Nat}, db.totalSupply = some s →
      ∃ n : Nat, (endOf db run).totalSupply = some n ∧ (n : ℚ) ≤ s * growth ^ run.length := by
  induction h with
  | start db =>
    intro s hs
    exact ⟨s, hs, by simp⟩
  | block happ _ ih =>
    intro s hs
    obtain ⟨m, hm, hgrown⟩ := accepted_supply_growth happ hs
    obtain ⟨n, hn, hrest⟩ := ih hm
    refine ⟨n, hn, le_trans hrest ?_⟩
    rw [List.length_cons, pow_succ', ← mul_assoc]
    exact mul_le_mul_of_nonneg_right hgrown (pow_nonneg growth_pos.le _)

/-- The reward of a block, its shares, and what a run of blocks makes of the supply. -/
theorem issuance_bounded :
    (∀ S T T' : Int, 0 ≤ S → 0 ≤ T → T ≤ T' → mintPerBlock S T' ≤ mintPerBlock S T) ∧
    (∀ S T : Int, 0 ≤ S → 0 ≤ T → S / 2 ≤ T → mintPerBlock S T = 0) ∧
    (∀ S T : Int, 0 ≤ S → 0 ≤ T → blocksPerYear * 10 * mintPerBlock S T ≤ S) ∧
    (∀ (reward : Int) (n : Nat), 0 ≤ reward → 1 ≤ n → (splitReward reward n).length = n ∧
      (∀ s ∈ splitReward reward n, 0 ≤ s) ∧ (∀ s ∈ splitReward reward n, ∀ t ∈ splitReward reward n, |s - t| < n) ∧
      (splitReward reward n).sum = reward) ∧
    ∀ {W : World} {db : DB} {run : List Applied} {s : Nat}, AcceptedRun W db run → db.totalSupply = some s →
      ∃ n : Nat, (endOf db run).totalSupply = some n ∧ (n : ℚ) ≤ s * (1 + 1 / (10 * blocksPerYear)) ^ run.length := by
  refine ⟨?_, ?_, ?_, ?_, ?_⟩
  · intro S T T' _ hT hle
    exact mintPerBlock_antitone hT hle
  · intro S T _ hT hhalf
    exact mintPerBlock_of_staked hT hhalf
  · intro S T hS hT
    exact mintPerBlock_le hS hT
  · intro reward n hr hn
    refine ⟨length_splitReward reward n, splitReward_nonneg reward n, ?_, splitReward_sum hr (by omega)⟩
    intro s hs t ht
    exact splitReward_spread hn hs ht
  · intro W db run s hrun hs
    exact hrun.supply_le hs

/-- Seven in three shares, and the supply behind the block of one transfer. -/
theorem issuance_bounded_paid : (splitReward 7 3).sum = 7 ∧
    ∃ n : Nat, (paid 2).2.totalSupply = some n ∧ (n : ℚ) ≤ (100 : Nat) * (1 + 1 / (10 * blocksPerYear)) ^ 1 := by
  obtain ⟨-, -, -, hsplit, hruns⟩ := issuance_bounded
  obtain ⟨r, happ⟩ := paid_accepted
  obtain ⟨n, hn, hle⟩ := hruns (.block happ (.start _)) genesisDB_supply
  dsimp only [endOf] at hn
  rw [List.length_singleton] at hle
  exact ⟨(hsplit 7 3 (by decide) (by decide)).2.2.2, n, hn, hle⟩

end Frg.Chain
