/-
  Frg.Lib.Lists — lists and options: lists compared position by position, sums over a part of a
  list, the numbers from a start on, and two guards in a row.
-/

import Mathlib.Algebra.BigOperators.Group.List.Basic
import Mathlib.Algebra.GroupWithZero.Nat
import Mathlib.Data.List.Flatten
import Mathlib.Data.List.Forall2

namespace Frg.Lib

variable {α β : Type}

theorem forall₂_iff_getElem? {R : α → β → Prop} {as : List α} {bs : List β} : List.Forall₂ R as bs ↔
    as.length = bs.length ∧ ∀ (i : Nat) (a : α) (b : β), as[i]? = some a → bs[i]? = some b → R a b := by
  rw [List.forall₂_iff_get]
  refine and_congr_right fun _ => ⟨fun h i a b ha hb => ?_, fun h i h1 h2 => ?_⟩
  · obtain ⟨h1, rfl⟩ := List.getElem?_eq_some_iff.mp ha
    obtain ⟨h2, rfl⟩ := List.getElem?_eq_some_iff.mp hb
    exact h i h1 h2
  · exact h i _ _ (List.getElem?_eq_getElem h1) (List.getElem?_eq_getElem h2)

/-- Lists of parts, each in the list it is part of. -/
theorem flatMap_eq_iff {f g : α → List β} {l : List α} (h : ∀ x ∈ l, (f x).Sublist (g x)) :
    l.flatMap f = l.flatMap g ↔ ∀ x ∈ l, f x = g x := by
  refine ⟨fun heq => ?_, fun heq => List.flatMap_congr heq⟩
  induction l with
  | nil => exact fun x hx => absurd hx List.not_mem_nil
  | cons x l ih =>
    obtain ⟨hx, hl⟩ := List.forall_mem_cons.mp h
    rw [List.flatMap_cons, List.flatMap_cons] at heq
    have hle : (l.flatMap f).length ≤ (l.flatMap g).length := (List.Sublist.flatMap_right l hl).length_le
    have hlen := congrArg List.length heq
    rw [List.length_append, List.length_append] at hlen
    have hfirst : f x = g x := hx.eq_of_length (by have := hx.length_le; omega)
    exact List.forall_mem_cons.mpr ⟨hfirst, ih hl (List.append_cancel_left (hfirst ▸ heq))⟩

theorem sum_filter_map (p : α → Prop) [DecidablePred p] (f : α → Nat) (l : List α) :
    ((l.filter p).map f).sum = (l.map fun x => if p x then f x else 0).sum := by
  induction l with
  | nil => rfl
  | cons x l ih =>
    by_cases hp : p x
    · simp [hp, ih]
    · simp [hp, ih]

/-- The numbers from `start` on, the first one apart. -/
theorem range_from_succ (start : UInt64) (n : Nat) : (List.range (n + 1)).map (fun i => start + .ofNat i) =
    start :: (List.range n).map fun i => start + 1 + .ofNat i := by
  rw [List.range_succ_eq_map, List.map_cons, List.map_map]
  refine congrArg₂ _ (UInt64.add_zero start) (List.map_congr_left fun i _ => ?_)
  show start + UInt64.ofNat (i + 1) = start + 1 + .ofNat i
  rw [UInt64.ofNat_add, UInt64.add_assoc, UInt64.add_comm (UInt64.ofNat i)]
  rfl

theorem bind_ite_ite {a b : Prop} [Decidable a] [Decidable b] (x y : α) (f : α → α → Option β) :
    ((if a then some x else none).bind fun u => (if b then some y else none).bind fun v => f u v) =
      if a ∧ b then f x y else none := by
  by_cases ha : a
  · by_cases hb : b
    · rw [if_pos ha, if_pos hb, if_pos ⟨ha, hb⟩]
      rfl
    · rw [if_pos ha, if_neg hb, if_neg fun h => hb h.2]
      rfl
  · have hboth : ¬ (a ∧ b) := fun h => ha h.1
    rw [if_neg ha, if_neg hboth]
    rfl

end Frg.Lib
