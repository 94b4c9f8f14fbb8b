/-
  Frg.Lib.Shares — an amount split among `n` parties, evenly or by weight, in whole units.

  An even split gives one more unit to the first parties until nothing is left (`sum_evenShares`,
  `evenShares_close`). A split by weight rounds every share down, and what is lost by that is
  less than one unit for each party (`sum_floorShares_le`, `lt_sum_floorShares`).
-/

import Mathlib.Algebra.BigOperators.Group.List.Basic
import Mathlib.Algebra.Order.Group.Int
import Mathlib.Algebra.Order.Ring.Abs
import Mathlib.Tactic.Linarith
import Mathlib.Tactic.Ring

namespace Frg.Lib

/-- The share of party `i`: the remainder goes to the first parties. -/
def evenShare (total : Int) (n i : Nat) : Int := total / n + if (i : Int) < total % n then 1 else 0

def evenShares (total : Int) (n : Nat) : List Int := (List.range n).map (evenShare total n)

/-- The share of each weight, rounded down. -/
def floorShares (pool : Int) (weights : List Int) : List Int := weights.map fun w => pool * w / weights.sum

@[simp] theorem length_evenShares (total : Int) (n : Nat) : (evenShares total n).length = n := by
  simp [evenShares]

@[simp] theorem length_floorShares (pool : Int) (weights : List Int) :
    (floorShares pool weights).length = weights.length := List.length_map _

theorem getElem_evenShares {total : Int} {n i : Nat} (hi : i < (evenShares total n).length) :
    (evenShares total n)[i] = evenShare total n i := by
  simp [evenShares]

/-! ## Even shares -/

theorem sum_first_evenShares {total : Int} {n : Nat} (hr : 0 ≤ total % n) (m : Nat) :
    ((List.range m).map (evenShare total n)).sum = m * (total / n) + min (m : Int) (total % n) := by
  induction m with
  | zero => simp [hr]
  | succ m ih =>
    rw [List.range_succ, List.map_append, List.sum_append, ih, List.map_singleton, List.sum_singleton, evenShare]
    push_cast
    rw [Int.add_mul, Int.one_mul]
    by_cases hm : (m : Int) < total % n
    · rw [if_pos hm, min_eq_left (le_of_lt hm), min_eq_left (by omega)]
      omega
    · rw [if_neg hm, min_eq_right (by omega), min_eq_right (by omega)]
      omega

theorem sum_evenShares (total : Int) {n : Nat} (hn : 0 < n) : (evenShares total n).sum = total := by
  have hpos : (0 : Int) < n := by omega
  have hlt : total % n < n := Int.emod_lt_of_pos total hpos
  rw [evenShares, sum_first_evenShares (Int.emod_nonneg _ (by omega)), min_eq_right (le_of_lt hlt)]
  exact Int.mul_ediv_add_emod total n

theorem evenShares_close {total : Int} {n : Nat} {s t : Int} (hs : s ∈ evenShares total n)
    (ht : t ∈ evenShares total n) :
    |s - t| ≤ 1 := by
  have hrange : ∀ u ∈ evenShares total n, u = total / n ∨ u = total / n + 1 := by
    intro u hu
    obtain ⟨i, -, rfl⟩ := List.mem_map.mp hu
    unfold evenShare
    split <;> omega
  rw [abs_le]
  rcases hrange s hs with rfl | rfl <;> rcases hrange t ht with rfl | rfl <;> omega

/-! ## Shares by weight -/

theorem length_pos_of_sum_pos {weights : List Int} (hpos : 0 < weights.sum) : 0 < weights.length := by
  apply List.length_pos_iff.mpr
  rintro rfl
  exact lt_irrefl _ hpos

/-- Every quotient is at most a whole below the exact share. -/
theorem sum_quotients (pool : Int) {total : Int} (hpos : 0 < total) (weights : List Int) :
    total * (weights.map fun w => pool * w / total).sum ≤ pool * weights.sum ∧
    pool * weights.sum ≤ total * (weights.map fun w => pool * w / total).sum + (total - 1) * weights.length := by
  induction weights with
  | nil => simp
  | cons w weights ih =>
    have hdiv := Int.mul_ediv_add_emod (pool * w) total
    have hlow := Int.emod_nonneg (pool * w) (ne_of_gt hpos)
    have hhigh := Int.emod_lt_of_pos (pool * w) hpos
    rw [List.map_cons, List.sum_cons, List.sum_cons, List.length_cons]
    push_cast
    constructor
    · linarith [ih.1, mul_add pool w weights.sum]
    · linarith [ih.2, mul_add pool w weights.sum]

theorem sum_floorShares_le (pool : Int) {weights : List Int} (hpos : 0 < weights.sum) :
    (floorShares pool weights).sum ≤ pool := by
  have h := (sum_quotients pool hpos weights).1
  rw [mul_comm pool] at h
  exact le_of_mul_le_mul_left h hpos

theorem lt_sum_floorShares (pool : Int) {weights : List Int} (hpos : 0 < weights.sum) :
    pool < (floorShares pool weights).sum + weights.length := by
  have h := (sum_quotients pool hpos weights).2
  have hlen := length_pos_of_sum_pos hpos
  apply lt_of_mul_lt_mul_left _ (le_of_lt hpos)
  calc weights.sum * pool = pool * weights.sum := mul_comm _ _
    _ ≤ weights.sum * (floorShares pool weights).sum + (weights.sum - 1) * weights.length := h
    _ < weights.sum * ((floorShares pool weights).sum + weights.length) := by
      rw [sub_mul, mul_add]
      omega

end Frg.Lib
