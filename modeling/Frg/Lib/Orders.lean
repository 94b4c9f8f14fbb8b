/-
  Frg.Lib.Orders — orders the language leaves open: the order in which a map is enumerated,
  and what a sort does with elements whose keys are equal.

    - `RangeOrder`, `UnstableSort`: any such order, as a function of the keys and of the list.
    - `dedupe`: one element a key, the last of each, enumerated in any order.
    - `mem_dedupe`, `sorted_dedupe`: what it keeps, and that sorting it again leaves no choice.
    - `find_perm`: what at most one value has is found in any order.
    - `bestOf_eq`: a value counted more often than every other is found in any order.
-/

import Mathlib.Data.List.Dedup
import Mathlib.Data.List.Sort

namespace Frg.Lib

/-- An order in which a map with the given keys may be enumerated. -/
structure RangeOrder (α : Type) where
  list : List α → List α
  perm : ∀ l, (list l).Perm l

/-- A sort by key that may return elements with the same key in any order. -/
structure UnstableSort {α : Type} (key : α → Int) where
  run : List α → List α
  perm : ∀ l, (run l).Perm l
  sorted : ∀ l, (run l).Pairwise fun a b => key a ≤ key b

variable {α : Type} {key : α → Int}

def RangeOrder.id : RangeOrder α := ⟨fun l => l, fun _ => .refl _⟩

def UnstableSort.stable (key : α → Int) : UnstableSort key where
  run l := l.insertionSort fun a b => key a ≤ key b
  perm l := List.perm_insertionSort _ l
  sorted l := by
    have htotal : Std.Total fun a b : α => key a ≤ key b := ⟨fun a b => le_total (key a) (key b)⟩
    have htrans : IsTrans α fun a b => key a ≤ key b := ⟨fun _ _ _ => le_trans⟩
    exact List.pairwise_insertionSort _ l

/-- At most one value has the property, so it is found in any order. -/
theorem find_perm {l l' : List α} {p : α → Bool} (hl : l.Perm l') (hone : ∀ x y, p x = true → p y = true → x = y) :
    l.find? p = l'.find? p := by
  cases hf : l.find? p with
  | none =>
    symm
    rw [List.find?_eq_none] at hf ⊢
    exact fun x hx => hf x (hl.mem_iff.mpr hx)
  | some x =>
    have hx : p x = true := List.find?_some hf
    have hmem : x ∈ l' := hl.mem_iff.mp (List.mem_of_find?_eq_some hf)
    cases hf' : l'.find? p with
    | none => exact absurd hx (List.find?_eq_none.mp hf' x hmem)
    | some y => rw [hone x y hx (List.find?_some hf')]

/-! ## The last element of a key -/

/-- The last element with key `k`. -/
def lastOf (key : α → Int) (l : List α) (k : Int) : Option α := l.reverse.find? fun a => key a = k

theorem lastOf_some {l : List α} {k : Int} {a : α} (h : lastOf key l k = some a) : a ∈ l ∧ key a = k := by
  unfold lastOf at h
  exact ⟨List.mem_reverse.mp (List.mem_of_find?_eq_some h), by simpa using List.find?_some h⟩

theorem lastOf_isSome {l : List α} {k : Int} : (lastOf key l k).isSome = true ↔ ∃ a ∈ l, key a = k := by
  rw [lastOf, List.find?_isSome]
  simp

/-- One element a key, the last of each: a map from keys to positions, enumerated. -/
def dedupe (key : α → Int) (order : RangeOrder Int) (l : List α) : List α :=
  (order.list (l.map key).dedup).filterMap (lastOf key l)

variable {order : RangeOrder Int} {l : List α}

theorem mem_dedupe {a : α} : a ∈ dedupe key order l ↔ lastOf key l (key a) = some a := by
  rw [dedupe, List.mem_filterMap]
  constructor
  · rintro ⟨k, -, hk⟩
    rwa [(lastOf_some hk).2]
  · intro h
    refine ⟨key a, (order.perm _).mem_iff.mpr (List.mem_dedup.mpr (List.mem_map_of_mem ?_)), h⟩
    exact (lastOf_some h).1

theorem dedupe_distinct : (dedupe key order l).Pairwise fun a b => key a ≠ key b := by
  have hnodup : (order.list (l.map key).dedup).Nodup := (order.perm _).nodup_iff.mpr (List.nodup_dedup _)
  refine List.Pairwise.filterMap _ (fun k k' hne a ha b hb => ?_) hnodup
  rw [(lastOf_some ha).2, (lastOf_some hb).2]
  exact hne

theorem mem_sorted_dedupe (s : UnstableSort key) {a : α} :
    a ∈ s.run (dedupe key order l) ↔ lastOf key l (key a) = some a := by
  rw [(s.perm _).mem_iff, mem_dedupe]

theorem sorted_dedupe (s : UnstableSort key) : (s.run (dedupe key order l)).Pairwise fun a b => key a < key b := by
  have hne : (s.run (dedupe key order l)).Pairwise fun a b => key a ≠ key b :=
    (s.perm _).symm.pairwise dedupe_distinct fun h => h.symm
  exact (s.sorted _).imp₂ (fun _ _ hle hne => lt_of_le_of_ne hle hne) hne

/-! ## The highest count -/

section

variable {β : Type} {f : α → Option (β × Nat)} {x : β × Nat}

/-- The first value with the highest count. -/
def bestOf (f : α → Option (β × Nat)) (l : List α) (best : Option (β × Nat)) : Option (β × Nat) :=
  l.foldl (fun best a =>
    match f a with
    | some x => if (best.map (·.2)).getD 0 < x.2 then some x else best
    | none => best) best

theorem bestOf_keeps {l : List α} (hmax : ∀ b ∈ l, ∀ y, f b = some y → y.2 ≤ x.2) : bestOf f l (some x) = some x := by
  induction l with
  | nil => rfl
  | cons b l ih =>
    rw [bestOf, List.foldl_cons]
    have hstay : (match f b with
        | some y => if ((some x).map (·.2)).getD 0 < y.2 then some y else some x
        | none => some x) = some x := by
      split
      · rename_i y hy
        have hle := hmax b List.mem_cons_self y hy
        exact if_neg (Nat.not_lt.mpr hle)
      · rfl
    rw [hstay]
    exact ih fun c hc => hmax c (List.mem_cons_of_mem _ hc)

/-- A value with a higher count than every other is found wherever it stands. -/
theorem bestOf_eq {a : α} (hx : f a = some x) {l : List α} (hmax : ∀ b ∈ l, b ≠ a → ∀ y, f b = some y → y.2 < x.2) :
    ∀ {best : Option (β × Nat)}, (best.map (·.2)).getD 0 < x.2 → a ∈ l → bestOf f l best = some x := by
  induction l with
  | nil => exact fun _ ha => absurd ha List.not_mem_nil
  | cons b l ih =>
    intro best hbest ha
    rw [bestOf, List.foldl_cons]
    by_cases hb : b = a
    · subst hb
      rw [hx]
      dsimp only
      rw [if_pos hbest]
      refine bestOf_keeps fun c hc y hy => ?_
      by_cases hcb : c = b
      · subst hcb
        exact Nat.le_of_eq (congrArg Prod.snd (Option.some.inj (hy.symm.trans hx)))
      · exact Nat.le_of_lt (hmax c (List.mem_cons_of_mem _ hc) hcb y hy)
    · refine ih (fun c hc => hmax c (List.mem_cons_of_mem _ hc)) ?_ ((List.mem_cons.mp ha).resolve_left (Ne.symm hb))
      split
      · rename_i y hy
        split
        · exact hmax b List.mem_cons_self hb y hy
        · exact hbest
      · exact hbest

end

end Frg.Lib
