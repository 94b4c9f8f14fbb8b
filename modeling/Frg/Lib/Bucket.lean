/-
  Frg.Lib.Bucket — an ordered key-value bucket: entries in strictly increasing key
  order, which is also the order a walk over the bucket visits them in.

  The order is a field of the structure, so no key occurs twice and two buckets that
  answer every `get` alike are equal (`ext_get`). `sumBy f` adds `f` over the stored
  values; a `put` changes it by the new value less the old one (`sumBy_put`), a
  `delete` by the old one (`sumBy_delete`), and two different keys together hold at
  most the whole sum (`two_le_sumBy`). Putting the entries of a bucket one by one into the
  empty one gives it back (`foldl_put_entries`).
-/

import Mathlib.Order.Basic
import Mathlib.Order.Lattice
import Mathlib.Data.List.Pairwise
import Mathlib.Algebra.Order.Group.Int
import Mathlib.Algebra.Order.BigOperators.Group.List
import Mathlib.Tactic.Linarith

namespace Frg.Lib

variable {κ ν : Type} [LinearOrder κ]

/-- Strictly increasing keys. -/
def SortedKeys (l : List (κ × ν)) : Prop := l.Pairwise fun a b => a.1 < b.1

def lookupKey (k : κ) : List (κ × ν) → Option ν
  | [] => none
  | (k', v) :: r => if k = k' then some v else lookupKey k r

def insertKey (k : κ) (v : ν) : List (κ × ν) → List (κ × ν)
  | [] => [(k, v)]
  | (k', v') :: r =>
    if k < k' then (k, v) :: (k', v') :: r else if k = k' then (k, v) :: r else (k', v') :: insertKey k v r

def eraseKey (k : κ) : List (κ × ν) → List (κ × ν)
  | [] => []
  | (k', v') :: r => if k = k' then r else (k', v') :: eraseKey k r

theorem mem_insertKey {k : κ} {v : ν} {l : List (κ × ν)} {x : κ × ν} (h : x ∈ insertKey k v l) :
    x = (k, v) ∨ x ∈ l := by
  induction l with
  | nil => simpa [insertKey] using h
  | cons p r ih =>
    obtain ⟨k', v'⟩ := p
    simp only [insertKey] at h
    split at h
    · simpa using h
    · split at h
      · rcases List.mem_cons.mp h with h | h
        · exact Or.inl h
        · exact Or.inr (List.mem_cons_of_mem _ h)
      · rcases List.mem_cons.mp h with h | h
        · exact Or.inr (h ▸ List.mem_cons_self)
        · exact (ih h).imp id (List.mem_cons_of_mem _)

theorem eraseKey_sublist (k : κ) (l : List (κ × ν)) : (eraseKey k l).Sublist l := by
  induction l with
  | nil => exact List.Sublist.slnil
  | cons p r ih =>
    obtain ⟨k', v'⟩ := p
    simp only [eraseKey]
    split
    · exact List.sublist_cons_self _ _
    · exact ih.cons_cons _

theorem sorted_insertKey (k : κ) (v : ν) {l : List (κ × ν)} (h : SortedKeys l) : SortedKeys (insertKey k v l) := by
  induction l with
  | nil => simp [insertKey, SortedKeys]
  | cons p r ih =>
    obtain ⟨k', v'⟩ := p
    obtain ⟨hlt, hr⟩ := List.pairwise_cons.mp h
    simp only [insertKey]
    split
    · rename_i hk
      refine List.pairwise_cons.mpr ⟨fun x hx => ?_, h⟩
      rcases List.mem_cons.mp hx with rfl | hx
      · exact hk
      · exact hk.trans (hlt x hx)
    · rename_i hk
      split
      · rename_i e
        subst e
        exact List.pairwise_cons.mpr ⟨hlt, hr⟩
      · rename_i hne
        refine List.pairwise_cons.mpr ⟨fun x hx => ?_, ih hr⟩
        rcases mem_insertKey hx with rfl | hx
        · exact lt_of_le_of_ne (not_lt.mp hk) (Ne.symm hne)
        · exact hlt x hx

theorem lookupKey_none {k : κ} {l : List (κ × ν)} (h : ∀ x ∈ l, k < x.1) : lookupKey k l = none := by
  induction l with
  | nil => rfl
  | cons p r ih =>
    obtain ⟨k', v'⟩ := p
    have hk : k < k' := h _ List.mem_cons_self
    rw [lookupKey, if_neg hk.ne, ih fun x hx => h x (List.mem_cons_of_mem _ hx)]

theorem lookupKey_insertKey (k j : κ) (v : ν) (l : List (κ × ν)) :
    lookupKey j (insertKey k v l) = if j = k then some v else lookupKey j l := by
  induction l with
  | nil => simp [insertKey, lookupKey]
  | cons p r ih =>
    obtain ⟨k', v'⟩ := p
    simp only [insertKey]
    split
    · simp [lookupKey]
    · split
      · rename_i e
        subst e
        by_cases hj : j = k <;> simp [lookupKey, hj]
      · rename_i hne
        simp only [lookupKey, ih]
        by_cases hj : j = k
        · subst hj; simp [hne]
        · simp [hj]

theorem lookupKey_eraseKey (k j : κ) {l : List (κ × ν)} (h : SortedKeys l) :
    lookupKey j (eraseKey k l) = if j = k then none else lookupKey j l := by
  induction l with
  | nil => simp [eraseKey, lookupKey]
  | cons p r ih =>
    obtain ⟨k', v'⟩ := p
    obtain ⟨hlt, hr⟩ := List.pairwise_cons.mp h
    simp only [eraseKey]
    split
    · rename_i e
      subst e
      by_cases hj : j = k
      · subst hj; simp [lookupKey_none hlt]
      · simp [lookupKey, hj]
    · rename_i hne
      simp only [lookupKey, ih hr]
      by_cases hj : j = k
      · subst hj; simp [hne]
      · simp [hj]

theorem lookupKey_eq_some {l : List (κ × ν)} (h : SortedKeys l) {k : κ} {v : ν} :
    lookupKey k l = some v ↔ (k, v) ∈ l := by
  induction l with
  | nil => simp [lookupKey]
  | cons p r ih =>
    obtain ⟨k', v'⟩ := p
    obtain ⟨hlt, hr⟩ := List.pairwise_cons.mp h
    simp only [lookupKey]
    split
    · rename_i e
      subst e
      constructor
      · intro hv
        cases hv
        exact List.mem_cons_self
      · intro hm
        rcases List.mem_cons.mp hm with e | hm
        · cases e; rfl
        · exact absurd (hlt _ hm) (lt_irrefl _)
    · rename_i hne
      rw [ih hr]
      simp [hne]

theorem sorted_ext {l m : List (κ × ν)} (hl : SortedKeys l) (hm : SortedKeys m)
    (h : ∀ k, lookupKey k l = lookupKey k m) : l = m := by
  have hmem : ∀ x, x ∈ l ↔ x ∈ m := fun ⟨k, v⟩ => by
    rw [← lookupKey_eq_some hl, ← lookupKey_eq_some hm, h]
  have hirr : ∀ {l : List (κ × ν)}, SortedKeys l → l.Nodup := fun hs => hs.imp fun hab e => by
    subst e; exact absurd hab (lt_irrefl _)
  refine ((List.perm_ext_iff_of_nodup (hirr hl) (hirr hm)).mpr hmem).eq_of_pairwise ?_ hl hm
  intro a b _ _ hab hba
  exact absurd (hab.trans hba) (lt_irrefl _)

theorem insertKey_last {k : κ} {l : List (κ × ν)} (h : ∀ x ∈ l, x.1 < k) (v : ν) : insertKey k v l = l ++ [(k, v)] := by
  induction l with
  | nil => rfl
  | cons p r ih =>
    have hlt : p.1 < k := h p List.mem_cons_self
    rw [insertKey, if_neg hlt.not_gt, if_neg hlt.ne', ih fun x hx => h x (List.mem_cons_of_mem _ hx)]
    rfl

theorem eraseKey_eq_filter (k : κ) {l : List (κ × ν)} (h : SortedKeys l) :
    eraseKey k l = l.filter fun x => decide (x.1 ≠ k) := by
  induction l with
  | nil => rfl
  | cons p r ih =>
    obtain ⟨hp, hr⟩ := List.pairwise_cons.mp h
    rw [eraseKey]
    split
    · rename_i hk
      have hall : ∀ x ∈ r, decide (x.1 ≠ k) = true := fun x hx => decide_eq_true (hk ▸ (hp x hx).ne')
      rw [List.filter_cons_of_neg (by simp [hk]), List.filter_eq_self.mpr hall]
    · rename_i hk
      rw [List.filter_cons_of_pos (by simpa using Ne.symm hk), ih hr]

theorem length_insertKey (k : κ) (v : ν) (l : List (κ × ν)) : (insertKey k v l).length ≤ l.length + 1 := by
  induction l with
  | nil => simp [insertKey]
  | cons p r ih =>
    obtain ⟨k', v'⟩ := p
    simp only [insertKey]
    split
    · simp
    · split
      · simp
      · simpa using ih

/-- The values' sum under `f`. -/
def sumList (f : ν → Int) (l : List (κ × ν)) : Int := (l.map fun x => f x.2).sum

def valueOr0 (f : ν → Int) : Option ν → Int
  | none => 0
  | some v => f v

theorem sumList_insertKey (f : ν → Int) (k : κ) (v : ν) {l : List (κ × ν)} (h : SortedKeys l) :
    sumList f (insertKey k v l) = sumList f l - valueOr0 f (lookupKey k l) + f v := by
  induction l with
  | nil => simp [insertKey, sumList, lookupKey, valueOr0]
  | cons p r ih =>
    obtain ⟨k', v'⟩ := p
    obtain ⟨hlt, hr⟩ := List.pairwise_cons.mp h
    simp only [insertKey]
    split
    · rename_i hk
      have hn : lookupKey k ((k', v') :: r) = none := lookupKey_none fun x hx => by
        rcases List.mem_cons.mp hx with rfl | hx
        · exact hk
        · exact hk.trans (hlt x hx)
      rw [hn]
      simp only [sumList, List.map_cons, List.sum_cons, valueOr0]
      omega
    · split
      · rename_i e
        subst e
        simp only [sumList, List.map_cons, List.sum_cons, lookupKey, if_true, valueOr0]
        omega
      · rename_i hne
        have := ih hr
        simp only [sumList, List.map_cons, List.sum_cons, lookupKey, if_neg hne] at this ⊢
        omega

theorem sumList_eraseKey (f : ν → Int) (k : κ) (l : List (κ × ν)) :
    sumList f (eraseKey k l) = sumList f l - valueOr0 f (lookupKey k l) := by
  induction l with
  | nil => simp [eraseKey, sumList, lookupKey, valueOr0]
  | cons p r ih =>
    obtain ⟨k', v'⟩ := p
    simp only [eraseKey]
    split
    · rename_i e
      subst e
      simp only [sumList, List.map_cons, List.sum_cons, lookupKey, if_true, valueOr0]
      omega
    · rename_i hne
      simp only [sumList, List.map_cons, List.sum_cons, lookupKey, if_neg hne] at ih ⊢
      omega

omit [LinearOrder κ] in
theorem sumList_nonneg (f : ν → Int) (hf : ∀ v, 0 ≤ f v) (l : List (κ × ν)) : 0 ≤ sumList f l :=
  List.sum_nonneg fun x hx => by
    obtain ⟨p, -, rfl⟩ := List.mem_map.mp hx
    exact hf _

/-- Keys in strictly increasing order, each with one value. -/
structure Bucket (κ ν : Type) [LinearOrder κ] where
  entries : List (κ × ν)
  sorted : SortedKeys entries

namespace Bucket

instance [DecidableEq ν] : DecidableEq (Bucket κ ν) := fun a b =>
  decidable_of_iff (a.entries = b.entries) (by cases a; cases b; simp)

def empty : Bucket κ ν := ⟨[], List.Pairwise.nil⟩

instance : Inhabited (Bucket κ ν) := ⟨empty⟩

def get (b : Bucket κ ν) (k : κ) : Option ν := lookupKey k b.entries

def put (b : Bucket κ ν) (k : κ) (v : ν) : Bucket κ ν := ⟨insertKey k v b.entries, sorted_insertKey k v b.sorted⟩

def delete (b : Bucket κ ν) (k : κ) : Bucket κ ν := ⟨eraseKey k b.entries, b.sorted.sublist (eraseKey_sublist k _)⟩

def keys (b : Bucket κ ν) : List κ := b.entries.map (·.1)

def sumBy (f : ν → Int) (b : Bucket κ ν) : Int := sumList f b.entries

@[simp] theorem get_empty (k : κ) : (empty : Bucket κ ν).get k = none := rfl

theorem get_put (b : Bucket κ ν) (k j : κ) (v : ν) : (b.put k v).get j = if j = k then some v else b.get j :=
  lookupKey_insertKey k j v b.entries

@[simp] theorem get_put_self (b : Bucket κ ν) (k : κ) (v : ν) : (b.put k v).get k = some v := by
  rw [get_put, if_pos rfl]

theorem get_put_ne (b : Bucket κ ν) {k j : κ} (v : ν) (h : j ≠ k) : (b.put k v).get j = b.get j := by
  rw [get_put, if_neg h]

theorem get_delete (b : Bucket κ ν) (k j : κ) : (b.delete k).get j = if j = k then none else b.get j :=
  lookupKey_eraseKey k j b.sorted

theorem mem_entries {b : Bucket κ ν} {k : κ} {v : ν} : (k, v) ∈ b.entries ↔ b.get k = some v :=
  (lookupKey_eq_some b.sorted).symm

theorem entries_put_last {b : Bucket κ ν} {k : κ} (h : ∀ x ∈ b.entries, x.1 < k) (v : ν) :
    (b.put k v).entries = b.entries ++ [(k, v)] := insertKey_last h v

theorem entries_delete (b : Bucket κ ν) (k : κ) : (b.delete k).entries = b.entries.filter fun x => decide (x.1 ≠ k) :=
  eraseKey_eq_filter k b.sorted

theorem keys_nodup (b : Bucket κ ν) : b.keys.Nodup :=
  List.pairwise_map.mpr (b.sorted.imp fun h => h.ne)

theorem mem_keys {b : Bucket κ ν} {k : κ} : k ∈ b.keys ↔ ∃ v, b.get k = some v := by
  simp only [keys, List.mem_map, ← mem_entries]
  constructor
  · rintro ⟨⟨k', v⟩, hm, rfl⟩
    exact ⟨v, hm⟩
  · rintro ⟨v, hm⟩
    exact ⟨(k, v), hm, rfl⟩

theorem ext_get {a b : Bucket κ ν} (h : ∀ k, a.get k = b.get k) : a = b := by
  have := sorted_ext a.sorted b.sorted h
  cases a; cases b; simp_all

theorem foldl_put_get (k : κ) : ∀ {l : List (κ × ν)} (_ : SortedKeys l) (acc : Bucket κ ν),
    (l.foldl (fun b x => b.put x.1 x.2) acc).get k = (lookupKey k l).or (acc.get k) := by
  intro l
  induction l with
  | nil => exact fun _ _ => rfl
  | cons p r ih =>
    obtain ⟨k', v⟩ := p
    intro hl acc
    obtain ⟨hlt, hr⟩ := List.pairwise_cons.mp hl
    rw [List.foldl_cons, ih hr, get_put, lookupKey]
    by_cases hk : k = k'
    · subst hk
      rw [lookupKey_none hlt, if_pos rfl, if_pos rfl]
      rfl
    · rw [if_neg hk, if_neg hk]

theorem foldl_put_entries (b : Bucket κ ν) : b.entries.foldl (fun b x => b.put x.1 x.2) empty = b := by
  apply ext_get
  intro k
  rw [foldl_put_get k b.sorted, get_empty, Option.or_none]
  rfl

theorem put_comm (b : Bucket κ ν) {j k : κ} (h : j ≠ k) (v w : ν) : (b.put j v).put k w = (b.put k w).put j v := by
  apply ext_get
  intro i
  rw [get_put, get_put, get_put, get_put]
  by_cases hk : i = k
  · rw [if_pos hk, if_pos hk, if_neg fun hj => h (hj.symm.trans hk)]
  · rw [if_neg hk, if_neg hk]

theorem foldl_put_perm {b : Bucket κ ν} {l : List (κ × ν)} (h : l.Perm b.entries) :
    l.foldl (fun b x => b.put x.1 x.2) empty = b := by
  refine (h.foldl_eq' (fun x hx y hy acc => ?_) empty).trans b.foldl_put_entries
  by_cases hxy : x.1 = y.1
  · have hx := mem_entries.mp (h.mem_iff.mp hx)
    have hy := mem_entries.mp (h.mem_iff.mp hy)
    rw [hxy] at hx
    rw [show x = y from Prod.ext hxy (Option.some.inj (hx.symm.trans hy))]
  · exact put_comm acc hxy x.2 y.2

theorem sumBy_put (f : ν → Int) (b : Bucket κ ν) (k : κ) (v : ν) :
    (b.put k v).sumBy f = b.sumBy f - valueOr0 f (b.get k) + f v := sumList_insertKey f k v b.sorted

theorem sumBy_delete (f : ν → Int) (b : Bucket κ ν) (k : κ) :
    (b.delete k).sumBy f = b.sumBy f - valueOr0 f (b.get k) := sumList_eraseKey f k b.entries

theorem length_put (b : Bucket κ ν) (k : κ) (v : ν) :
    ((b.put k v).entries.length : Int) = b.entries.length + 1 - valueOr0 (fun _ => 1) (b.get k) := by
  have hlength : ∀ b : Bucket κ ν, b.sumBy (fun _ => 1) = b.entries.length := by
    intro b
    simp [sumBy, sumList]
  rw [← hlength, ← hlength, sumBy_put]
  omega

theorem get_foldl_delete (p : κ × ν → Prop) [DecidablePred p] (k : κ) (l : List (κ × ν)) : ∀ b : Bucket κ ν,
    (l.foldl (fun b x => if p x then b.delete x.1 else b) b).get k = b.get k ∨
      (l.foldl (fun b x => if p x then b.delete x.1 else b) b).get k = none ∧ ∃ x ∈ l, x.1 = k ∧ p x := by
  induction l with
  | nil => exact fun b => Or.inl rfl
  | cons x l ih =>
    intro b
    rw [List.foldl_cons]
    rcases ih (if p x then b.delete x.1 else b) with h | ⟨h, y, hy, hk⟩
    · rw [h]
      by_cases hx : p x
      · rw [if_pos hx, get_delete]
        by_cases hk : k = x.1
        · rw [if_pos hk]
          exact Or.inr ⟨rfl, x, List.mem_cons_self, hk.symm, hx⟩
        · rw [if_neg hk]
          exact Or.inl rfl
      · rw [if_neg hx]
        exact Or.inl rfl
    · exact Or.inr ⟨h, y, List.mem_cons_of_mem _ hy, hk⟩

theorem length_foldl_delete (p : κ × ν → Prop) [DecidablePred p] (l : List (κ × ν)) : ∀ b : Bucket κ ν,
    (l.foldl (fun b x => if p x then b.delete x.1 else b) b).entries.length ≤ b.entries.length := by
  induction l with
  | nil => exact fun b => Nat.le_refl _
  | cons x l ih =>
    intro b
    rw [List.foldl_cons]
    refine (ih _).trans ?_
    split
    · exact (eraseKey_sublist x.1 b.entries).length_le
    · exact Nat.le_refl _

theorem two_le_sumBy (f : ν → Int) (hf : ∀ v, 0 ≤ f v) (b : Bucket κ ν) {j k : κ} (h : j ≠ k) :
    valueOr0 f (b.get j) + valueOr0 f (b.get k) ≤ b.sumBy f := by
  have h1 := sumBy_delete f b j
  have h2 := sumBy_delete f (b.delete j) k
  have h3 : 0 ≤ ((b.delete j).delete k).sumBy f := sumList_nonneg f hf _
  rw [get_delete, if_neg (Ne.symm h)] at h2
  omega

end Bucket

end Frg.Lib
