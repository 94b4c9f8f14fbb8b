/-
  Frg.Lib.Windows — what is admitted in fixed windows of time.

  A fixed window begins when something comes and no window is open, and lasts for `W`. Each item
  has its time and the start of its window. A limit on every window is not one on every interval
  of that length, but an interval meets no more than two windows:
    - `Windowed.append`: an item that comes into the latest window.
    - `Windowed.two_starts`, `Windowed.interval_sum_le`: items of an interval shorter than `W`
      weigh at most twice the limit of a window.
-/

import Mathlib.Algebra.Order.BigOperators.Group.List
import Mathlib.Algebra.Order.Group.Int
import Mathlib.Tactic.Linarith

namespace Frg.Lib

variable {α : Type} {time start : α → Int} {W : Int} {l : List α} {s t : Int}

/-- Every item lies in its window, and different windows do not overlap. -/
structure Windowed (time start : α → Int) (W : Int) (l : List α) : Prop where
  inside : ∀ x ∈ l, start x ≤ time x ∧ time x < start x + W
  apart : ∀ x ∈ l, ∀ y ∈ l, start x = start y ∨ start x + W ≤ start y ∨ start y + W ≤ start x

/-- The windows of all items were over at `t`. -/
def Over (start : α → Int) (W : Int) (l : List α) (t : Int) : Prop := ∀ x ∈ l, start x + W ≤ t

/-- No window began after `s`: an item is in the one of `s`, or in one that was over then. -/
def Latest (start : α → Int) (W : Int) (l : List α) (s : Int) : Prop := ∀ x ∈ l, start x = s ∨ start x + W ≤ s

/-- The items of the window of `s`. -/
def inWindow (start : α → Int) (l : List α) (s : Int) : List α := l.filter fun x => start x = s

/-! ## Windows one after the other -/

theorem Over.mono (h : Over start W l s) (hst : s ≤ t) : Over start W l t :=
  fun x hx => (h x hx).trans hst

theorem Over.latest (h : Over start W l t) : Latest start W l t := fun x hx => Or.inr (h x hx)

theorem Latest.over (h : Latest start W l s) (hW : 0 ≤ W) (ht : s + W ≤ t) : Over start W l t := by
  intro x hx
  rcases h x hx with hs | hs
  · rw [hs]
    exact ht
  · linarith

/-- A window that begins when the others are over is empty. -/
theorem Over.inWindow_nil (h : Over start W l t) (hW : 0 < W) : inWindow start l t = [] := by
  refine List.filter_eq_nil_iff.mpr fun x hx hs => ?_
  have hover := h x hx
  have hs := of_decide_eq_true hs
  linarith

theorem Latest.append (h : Latest start W l s) {x : α} (hx : start x = s) : Latest start W (l ++ [x]) s := by
  intro y hy
  rcases List.mem_append.mp hy with hy | hy
  · exact h y hy
  · rw [List.mem_singleton.mp hy]
    exact Or.inl hx

theorem Windowed.nil : Windowed time start W ([] : List α) :=
  ⟨fun _ h => absurd h List.not_mem_nil, fun _ h => absurd h List.not_mem_nil⟩

theorem Windowed.append (h : Windowed time start W l) (hlatest : Latest start W l s) {x : α} (hx : start x = s)
    (hin : s ≤ time x ∧ time x < s + W) : Windowed time start W (l ++ [x]) := by
  have hnew : ∀ y ∈ l, start y = start x ∨ start y + W ≤ start x := by
    rw [hx]
    exact hlatest
  constructor
  · intro y hy
    rcases List.mem_append.mp hy with hy | hy
    · exact h.inside y hy
    · rw [List.mem_singleton.mp hy, hx]
      exact hin
  · intro y hy z hz
    rcases List.mem_append.mp hy with hy | hy <;> rcases List.mem_append.mp hz with hz | hz
    · exact h.apart y hy z hz
    · rw [List.mem_singleton.mp hz]
      exact (hnew y hy).imp id Or.inl
    · rw [List.mem_singleton.mp hy]
      exact (hnew z hz).imp Eq.symm Or.inr
    · rw [List.mem_singleton.mp hy, List.mem_singleton.mp hz]
      exact Or.inl rfl

theorem inWindow_append_self {x : α} (hx : start x = s) (l : List α) :
    inWindow start (l ++ [x]) s = inWindow start l s ++ [x] := by
  simp [inWindow, List.filter_append, hx]

theorem inWindow_append_other {x : α} (hx : start x ≠ s) (l : List α) :
    inWindow start (l ++ [x]) s = inWindow start l s := by
  simp [inWindow, List.filter_append, hx]

/-! ## Intervals -/

/-- Of three windows, the middle one lies between the items of the others. -/
theorem Windowed.no_three_starts (h : Windowed time start W l) {a b : Int} (hab : b - a < W) {x y z : α} (hx : x ∈ l)
    (hy : y ∈ l) (hz : z ∈ l) (hax : a ≤ time x ∧ time x ≤ b) (hay : a ≤ time y ∧ time y ≤ b)
    (haz : a ≤ time z ∧ time z ≤ b) : start x = start y ∨ start x = start z ∨ start y = start z := by
  have ix := h.inside x hx
  have iy := h.inside y hy
  have iz := h.inside z hz
  have hxy := h.apart x hx y hy
  have hxz := h.apart x hx z hz
  have hyz := h.apart y hy z hz
  omega

theorem Windowed.two_starts (h : Windowed time start W l) {a b : Int} (hab : b - a < W) :
    ∃ s t, ∀ x ∈ l, a ≤ time x ∧ time x ≤ b → start x = s ∨ start x = t := by
  by_cases hone : ∃ s, ∀ x ∈ l, a ≤ time x ∧ time x ≤ b → start x = s
  · obtain ⟨s, hs⟩ := hone
    exact ⟨s, s, fun x hx hax => Or.inl (hs x hx hax)⟩
  · push Not at hone
    obtain ⟨x, hx, hax, -⟩ := hone 0
    obtain ⟨y, hy, hay, hne⟩ := hone (start x)
    refine ⟨start x, start y, fun z hz haz => ?_⟩
    rcases h.no_three_starts hab hx hy hz hax hay haz with e | e | e
    · exact absurd e.symm hne
    · exact Or.inl e.symm
    · exact Or.inr e.symm

theorem sum_filter_cons (p : α → Bool) (weight : α → Int) (x : α) (l : List α) :
    (((x :: l).filter p).map weight).sum = (if p x = true then weight x else 0) + ((l.filter p).map weight).sum := by
  by_cases hp : p x = true <;> simp [hp]

/-- Items that all lie in one of two windows weigh at most what the two windows do. -/
theorem sum_two_windows {weight : α → Int} {p : α → Bool} (hw : ∀ x ∈ l, 0 ≤ weight x)
    (hp : ∀ x ∈ l, p x = true → start x = s ∨ start x = t) :
    ((l.filter p).map weight).sum ≤ ((inWindow start l s).map weight).sum + ((inWindow start l t).map weight).sum := by
  unfold inWindow
  induction l with
  | nil => simp
  | cons x l ih =>
    have ih := ih (fun y hy => hw y (List.mem_cons_of_mem _ hy)) fun y hy => hp y (List.mem_cons_of_mem _ hy)
    have hx := hw x List.mem_cons_self
    have hhead : (if p x = true then weight x else 0) ≤ (if decide (start x = s) = true then weight x else 0) +
        (if decide (start x = t) = true then weight x else 0) := by
      by_cases hpos : p x = true
      · rw [if_pos hpos]
        rcases hp x List.mem_cons_self hpos with e | e
        · rw [if_pos (decide_eq_true e)]
          split <;> linarith
        · rw [if_pos (decide_eq_true e)]
          split <;> linarith
      · rw [if_neg hpos]
        split <;> split <;> linarith
    rw [sum_filter_cons, sum_filter_cons, sum_filter_cons]
    linarith

theorem Windowed.interval_sum_le (h : Windowed time start W l) {weight : α → Int} (hw : ∀ x ∈ l, 0 ≤ weight x)
    {limit : Int} (hlimit : ∀ s, ((inWindow start l s).map weight).sum ≤ limit) {a b : Int} (hab : b - a < W) :
    ((l.filter fun x => a ≤ time x ∧ time x ≤ b).map weight).sum ≤ 2 * limit := by
  obtain ⟨s, t, htwo⟩ := h.two_starts hab
  have hsum :=
    sum_two_windows (p := fun x => a ≤ time x ∧ time x ≤ b) hw fun x hx hp => htwo x hx (of_decide_eq_true hp)
  have hs := hlimit s
  have ht := hlimit t
  linarith

end Frg.Lib
