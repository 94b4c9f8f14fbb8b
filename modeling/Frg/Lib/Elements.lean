/-
  Frg.Lib.Elements — a linked list whose elements have addresses, and an index into it.

  The list is that of Go's `container/list` as far as `PushBack`, `Remove`, `Front` and `Len`
  go: an element keeps its address for as long as it is in the list, and no address is given
  out twice. So the addresses count the insertions, and they grow from front to back.

  An index maps the keys of the entries to the addresses of their elements. `Coupled` says that
  it maps exactly these: an entry that is pushed under a new key is indexed at its address, and
  an element that is removed through the index leaves both (`Coupled.pushBack`,
  `Coupled.remove`). With it no key is in the list twice (`Coupled.keys_nodup`).
-/

import Frg.Lib.Bucket
import Mathlib.Data.List.Nodup

namespace Frg.Lib

/-- The elements from front to back, each with its address, and the next address. -/
structure Elements (α : Type) where
  list : List (Nat × α)
  next : Nat
  sorted : (list.map (·.1)).Pairwise (· < ·)
  bound : ∀ x ∈ list, x.1 < next

namespace Elements

variable {α : Type}

def new : Elements α := ⟨[], 0, List.Pairwise.nil, fun _ h => absurd h List.not_mem_nil⟩

def len (q : Elements α) : Nat := q.list.length

def front (q : Elements α) : Option (Nat × α) := q.list.head?

/-- The entries without their addresses. -/
def values (q : Elements α) : List α := q.list.map (·.2)

def pushBack (q : Elements α) (a : α) : Elements α where
  list := q.list ++ [(q.next, a)]
  next := q.next + 1
  sorted := by
    rw [List.map_append, List.pairwise_append]
    refine ⟨q.sorted, List.pairwise_singleton _ _, ?_⟩
    intro x hx y hy
    obtain ⟨z, hz, rfl⟩ := List.mem_map.mp hx
    rw [List.mem_singleton.mp hy]
    exact q.bound z hz
  bound := by
    intro x hx
    rcases List.mem_append.mp hx with hx | hx
    · exact Nat.lt_succ_of_lt (q.bound x hx)
    · rw [List.mem_singleton.mp hx]
      exact Nat.lt_succ_self _

def remove (q : Elements α) (e : Nat) : Elements α where
  list := q.list.filter (·.1 ≠ e)
  next := q.next
  sorted := q.sorted.sublist (List.filter_sublist.map _)
  bound := fun x hx => q.bound x (List.mem_of_mem_filter hx)

variable {q : Elements α} {x : Nat × α} {a b : α} {e : Nat}

@[simp] theorem length_values (q : Elements α) : q.values.length = q.len := List.length_map _

@[simp] theorem values_pushBack (q : Elements α) (a : α) : (q.pushBack a).values = q.values ++ [a] := by
  simp [values, pushBack]

@[simp] theorem len_pushBack (q : Elements α) (a : α) : (q.pushBack a).len = q.len + 1 := by
  simp [len, pushBack]

theorem mem_pushBack : x ∈ (q.pushBack a).list ↔ x ∈ q.list ∨ x = (q.next, a) := by
  simp [pushBack]

theorem mem_remove : x ∈ (q.remove e).list ↔ x ∈ q.list ∧ x.1 ≠ e := by
  simp [remove]

theorem len_remove_le (q : Elements α) (e : Nat) : (q.remove e).len ≤ q.len := List.length_filter_le _ _

theorem unique (ha : (e, a) ∈ q.list) (hb : (e, b) ∈ q.list) : a = b := by
  have hnodup : (q.list.map (·.1)).Nodup := q.sorted.imp fun h => Nat.ne_of_lt h
  exact (Prod.mk.inj (List.inj_on_of_nodup_map hnodup ha hb rfl)).2

theorem remove_front (h : q.front = some x) : (q.remove x.1).values = q.values.tail ∧ x ∈ q.list := by
  obtain ⟨l, n, hs, hb⟩ := q
  cases l with
  | nil => cases h
  | cons y l =>
    obtain rfl := Option.some.inj h
    refine ⟨?_, List.mem_cons_self⟩
    have hrest : ∀ z ∈ l, decide (z.1 ≠ y.1) = true := by
      intro z hz
      have hlt : y.1 < z.1 := (List.pairwise_cons.mp hs).1 z.1 (List.mem_map.mpr ⟨z, hz, rfl⟩)
      exact decide_eq_true (by omega)
    show ((y :: l).filter fun z => decide (z.1 ≠ y.1)).map (·.2) = l.map (·.2)
    rw [List.filter_cons_of_neg (by simp), List.filter_eq_self.mpr hrest]

theorem len_remove_front (h : q.front = some x) : (q.remove x.1).len + 1 = q.len := by
  have hvalues := congrArg List.length (remove_front h).1
  have hpos : q.list ≠ [] := fun hnil => by rw [front, hnil] at h; cases h
  rw [length_values, List.length_tail, length_values] at hvalues
  have hlen : 0 < q.len := List.length_pos_iff.mpr hpos
  omega

theorem front_none (h : q.front = none) : q.list = [] := List.head?_eq_none_iff.mp h

end Elements

/-! ## An index into the list -/

section

variable {κ α : Type} [LinearOrder κ]

/-- The index maps exactly the keys of the entries to the addresses of their elements. -/
structure Coupled (key : α → Option κ) (q : Elements α) (index : Bucket κ Nat) : Prop where
  keyed : ∀ x ∈ q.list, (key x.2).isSome = true
  exact : ∀ k e, index.get k = some e ↔ ∃ a, (e, a) ∈ q.list ∧ key a = some k

variable {key : α → Option κ} {q : Elements α} {index : Bucket κ Nat} {k : κ} {a b : α} {e e' : Nat}

theorem Coupled.new (key : α → Option κ) : Coupled key .new .empty :=
  ⟨fun _ hx => absurd hx List.not_mem_nil, fun k e => by simp [Elements.new]⟩

theorem Coupled.key_inj (h : Coupled key q index) (ha : (e, a) ∈ q.list) (hb : (e', b) ∈ q.list)
    (hk : key a = key b) : e = e' := by
  obtain ⟨k, hka⟩ := Option.isSome_iff_exists.mp (h.keyed _ ha)
  have h1 := (h.exact k e).mpr ⟨a, ha, hka⟩
  have h2 := (h.exact k e').mpr ⟨b, hb, hk.symm.trans hka⟩
  exact Option.some.inj (h1.symm.trans h2)

theorem Coupled.keys_nodup (h : Coupled key q index) : (q.values.map key).Nodup := by
  have hnodup : (q.list.map (·.1)).Nodup := q.sorted.imp fun hlt => Nat.ne_of_lt hlt
  have hlist : q.list.Nodup := List.Nodup.of_map _ hnodup
  unfold Elements.values
  rw [List.map_map]
  refine List.Nodup.map_on ?_ hlist
  intro x hx y hy hkey
  have haddr : x.1 = y.1 := h.key_inj (a := x.2) (b := y.2) hx hy hkey
  exact Prod.ext haddr (Elements.unique (e := y.1) (haddr ▸ hx) hy)

theorem Coupled.absent (h : Coupled key q index) (hnone : index.get k = none) (ha : (e, a) ∈ q.list) :
    key a ≠ some k := by
  intro hk
  rw [(h.exact k e).mpr ⟨a, ha, hk⟩] at hnone
  cases hnone

theorem Coupled.values_remove (h : Coupled key q index) (he : index.get k = some e) :
    (q.remove e).values = q.values.filter fun a => key a ≠ some k := by
  obtain ⟨a, ha, hk⟩ := (h.exact k e).mp he
  unfold Elements.values Elements.remove
  rw [List.filter_map]
  dsimp only
  congr 1
  apply List.filter_congr
  intro x hx
  rw [Function.comp_apply, decide_eq_decide, ne_eq, ne_eq, not_iff_not]
  constructor
  · rintro rfl
    rw [Elements.unique hx ha, hk]
  · intro hkx
    exact h.key_inj (a := x.2) hx ha (hkx.trans hk.symm)

theorem Coupled.pushBack (h : Coupled key q index) (hk : key a = some k) (hnone : index.get k = none) :
    Coupled key (q.pushBack a) (index.put k q.next) := by
  refine ⟨?_, ?_⟩
  · intro x hx
    rcases Elements.mem_pushBack.mp hx with hx | rfl
    · exact h.keyed x hx
    · exact Option.isSome_iff_exists.mpr ⟨k, hk⟩
  · intro j e
    rw [Bucket.get_put]
    by_cases hj : j = k
    · subst hj
      rw [if_pos rfl]
      constructor
      · intro he
        exact ⟨a, Elements.mem_pushBack.mpr (Or.inr (by rw [Option.some.inj he])), hk⟩
      · rintro ⟨b, hb, hkb⟩
        rcases Elements.mem_pushBack.mp hb with hb | hb
        · exact absurd hkb (h.absent hnone hb)
        · rw [(Prod.mk.inj hb).1]
    · rw [if_neg hj, h.exact]
      constructor
      · rintro ⟨b, hb, hkb⟩
        exact ⟨b, Elements.mem_pushBack.mpr (Or.inl hb), hkb⟩
      · rintro ⟨b, hb, hkb⟩
        rcases Elements.mem_pushBack.mp hb with hb | hb
        · exact ⟨b, hb, hkb⟩
        · rw [(Prod.mk.inj hb).2, hk] at hkb
          exact absurd (Option.some.inj hkb).symm hj

theorem Coupled.remove (h : Coupled key q index) (he : (e, a) ∈ q.list) (hk : key a = some k) :
    Coupled key (q.remove e) (index.delete k) := by
  refine ⟨fun x hx => h.keyed x (Elements.mem_remove.mp hx).1, ?_⟩
  intro j e'
  rw [Bucket.get_delete]
  by_cases hj : j = k
  · subst hj
    rw [if_pos rfl]
    constructor
    · intro hnone
      cases hnone
    · rintro ⟨b, hb, hkb⟩
      obtain ⟨hb, hne⟩ := Elements.mem_remove.mp hb
      exact absurd (h.key_inj hb he (hkb.trans hk.symm)) hne
  · rw [if_neg hj, h.exact]
    constructor
    · rintro ⟨b, hb, hkb⟩
      refine ⟨b, Elements.mem_remove.mpr ⟨hb, ?_⟩, hkb⟩
      rintro rfl
      rw [Elements.unique hb he, hk] at hkb
      exact hj (Option.some.inj hkb).symm
    · rintro ⟨b, hb, hkb⟩
      exact ⟨b, (Elements.mem_remove.mp hb).1, hkb⟩

end

end Frg.Lib
