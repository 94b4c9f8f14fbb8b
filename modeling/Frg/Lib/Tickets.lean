/-
  Frg.Lib.Tickets — an ordered set that names its elements by tickets.

  `add` puts a new element behind the others under the next ticket and leaves an element that
  is there where it is; `drop` takes out the elements of some tickets. Tickets are numbers that
  are never issued twice, so one that was seen earlier stands for the same element or for none.
    - `mem_run_iff`: an element is there if and only if it was added after its last drop.
    - `run_latest`: the elements stand in the order of their latest insertions.
    - `ticket_names`: a ticket never comes to stand for another element.
-/

import Mathlib.Data.List.Induction
import Mathlib.Data.List.Nodup
import Mathlib.Data.List.Pairwise

namespace Frg.Lib

structure Tickets (α : Type) where
  items : List (Nat × α)
  /-- The last ticket issued. -/
  last : Nat
  sorted : items.Pairwise fun x y => x.1 < y.1
  issued : ∀ x ∈ items, x.1 ≤ last
  distinct : (items.map (·.2)).Nodup

namespace Tickets

variable {α : Type}

def empty : Tickets α := ⟨[], 0, .nil, fun _ h => absurd h List.not_mem_nil, .nil⟩

def values (T : Tickets α) : List α := T.items.map (·.2)

theorem mem_values {T : Tickets α} {a : α} : a ∈ T.values ↔ ∃ k, (k, a) ∈ T.items := by
  unfold values
  rw [List.mem_map]
  constructor
  · rintro ⟨⟨k, b⟩, hx, rfl⟩
    exact ⟨k, hx⟩
  · rintro ⟨k, hx⟩
    exact ⟨(k, a), hx, rfl⟩

theorem ticket_unique {T : Tickets α} {k : Nat} {a b : α} (ha : (k, a) ∈ T.items) (hb : (k, b) ∈ T.items) : a = b := by
  have hnodup : (T.items.map (·.1)).Nodup := List.pairwise_map.mpr (T.sorted.imp fun h => Nat.ne_of_lt h)
  exact congrArg Prod.snd (List.inj_on_of_nodup_map hnodup ha hb rfl)

theorem value_unique {T : Tickets α} {j k : Nat} {a : α} (hj : (j, a) ∈ T.items) (hk : (k, a) ∈ T.items) : j = k :=
  congrArg Prod.fst (List.inj_on_of_nodup_map T.distinct hj hk rfl)

/-! ## Operations -/

def drop (T : Tickets α) (ks : List Nat) : Tickets α where
  items := T.items.filter fun x => !ks.any (x.1 = ·)
  last := T.last
  sorted := T.sorted.filter _
  issued x hx := T.issued x (List.mem_of_mem_filter hx)
  distinct := T.distinct.sublist (List.filter_sublist.map _)

theorem mem_drop {T : Tickets α} {ks : List Nat} {x : Nat × α} :
    x ∈ (T.drop ks).items ↔ x ∈ T.items ∧ x.1 ∉ ks := by
  have hany : (!ks.any (x.1 = ·)) = true ↔ x.1 ∉ ks := by
    rw [Bool.not_eq_true', List.any_eq_false]
    exact ⟨fun h hx => h _ hx (decide_eq_true rfl), fun h k hk heq => h (of_decide_eq_true heq ▸ hk)⟩
  exact List.mem_filter.trans (and_congr_right' hany)

theorem mem_drop_one {T : Tickets α} {k : Nat} {a : α} :
    a ∈ (T.drop [k]).values ↔ a ∈ T.values ∧ (k, a) ∉ T.items := by
  rw [mem_values, mem_values]
  constructor
  · rintro ⟨j, hj⟩
    obtain ⟨hj, hne⟩ := mem_drop.mp hj
    refine ⟨⟨j, hj⟩, fun hk => hne ?_⟩
    rw [value_unique hk hj]
    exact List.mem_cons_self
  · rintro ⟨⟨j, hj⟩, hk⟩
    refine ⟨j, mem_drop.mpr ⟨hj, fun hjk => hk ?_⟩⟩
    rw [← List.mem_singleton.mp hjk]
    exact hj

theorem drop_nil (T : Tickets α) : T.drop [] = T := by
  have hitems : (T.drop []).items = T.items := List.filter_eq_self.mpr fun _ _ => rfl
  unfold drop at hitems ⊢
  congr

theorem drop_cons (T : Tickets α) (k : Nat) (ks : List Nat) : T.drop (k :: ks) = (T.drop [k]).drop ks := by
  have hitems : (T.drop (k :: ks)).items = ((T.drop [k]).drop ks).items := by
    show T.items.filter _ = (T.items.filter _).filter _
    rw [List.filter_filter]
    congr 1
    funext x
    simp [Bool.and_comm]
  unfold drop at hitems ⊢
  congr

variable [DecidableEq α]

def holds (T : Tickets α) (a : α) : Bool := T.items.any fun x => x.2 = a

theorem holds_iff {T : Tickets α} {a : α} : T.holds a = true ↔ a ∈ T.values := by
  simp [holds, values]

def push (T : Tickets α) (a : α) (h : a ∉ T.values) : Tickets α where
  items := T.items ++ [(T.last + 1, a)]
  last := T.last + 1
  sorted := by
    refine List.pairwise_append.mpr ⟨T.sorted, List.pairwise_singleton _ _, fun x hx y hy => ?_⟩
    rw [List.mem_singleton.mp hy]
    exact Nat.lt_succ_of_le (T.issued x hx)
  issued x hx := by
    rcases List.mem_append.mp hx with hx | hx
    · exact Nat.le_succ_of_le (T.issued x hx)
    · exact Nat.le_of_eq (congrArg Prod.fst (List.mem_singleton.mp hx))
  distinct := by
    rw [List.map_append]
    refine List.nodup_append.mpr ⟨T.distinct, List.nodup_singleton _, fun b hb c hc => ?_⟩
    rw [List.mem_singleton.mp hc]
    rintro rfl
    exact h hb

def add (T : Tickets α) (a : α) : Tickets α :=
  if h : T.holds a = true then T else T.push a fun ha => h (holds_iff.mpr ha)

theorem add_of_mem {T : Tickets α} {a : α} (h : a ∈ T.values) : T.add a = T := dif_pos (holds_iff.mpr h)

theorem add_of_notMem {T : Tickets α} {a : α} (h : a ∉ T.values) : T.add a = T.push a h :=
  dif_neg fun ha => h (holds_iff.mp ha)

/-- What `add` leaves: the items there were, and a new one only under a new ticket. -/
theorem mem_add {T : Tickets α} {a : α} {x : Nat × α} :
    x ∈ (T.add a).items ↔ x ∈ T.items ∨ (x = (T.last + 1, a) ∧ a ∉ T.values) := by
  by_cases h : a ∈ T.values
  · rw [add_of_mem h]
    exact ⟨Or.inl, fun hx => hx.elim id fun hx => absurd h hx.2⟩
  · rw [add_of_notMem h]
    show x ∈ T.items ++ [_] ↔ _
    rw [List.mem_append, List.mem_singleton]
    exact ⟨fun hx => hx.imp id fun hx => ⟨hx, h⟩, fun hx => hx.imp id fun hx => hx.1⟩

/-! ## Runs -/

inductive Call (α : Type) where
  | add (a : α)
  | drop (ks : List Nat)

def Call.apply (T : Tickets α) : Call α → Tickets α
  | .add a => T.add a
  | .drop ks => T.drop ks

def run (calls : List (Call α)) : Tickets α := calls.foldl Call.apply empty

@[simp] theorem run_snoc (calls : List (Call α)) (c : Call α) : run (calls ++ [c]) = c.apply (run calls) :=
  List.foldl_concat ..

theorem run_adds (l : List α) (h : l.Nodup) : (run (l.map Call.add)).values = l := by
  induction l using List.reverseRecOn with
  | nil => rfl
  | append_singleton l a ih =>
    obtain ⟨hl, -, hdisjoint⟩ := List.nodup_append.mp h
    have ha : a ∉ (run (l.map Call.add)).values := by
      rw [ih hl]
      exact fun hmem => hdisjoint a hmem a List.mem_cons_self rfl
    rw [List.map_append, List.map_singleton, run_snoc, Call.apply, add_of_notMem ha]
    show ((run (l.map Call.add)).items ++ [_]).map _ = _
    rw [List.map_append]
    exact congrArg (· ++ [a]) (ih hl)

/-- The call takes the element out. -/
def Call.Drops (T : Tickets α) (c : Call α) (a : α) : Prop := ∃ ks k, c = .drop ks ∧ k ∈ ks ∧ (k, a) ∈ T.items

/-- The call puts the element in. -/
def Call.Inserts (T : Tickets α) (c : Call α) (a : α) : Prop := c = .add a ∧ a ∉ T.values

theorem Call.mem_apply {T : Tickets α} {c : Call α} {a : α} :
    a ∈ (c.apply T).values ↔ c = .add a ∨ (a ∈ T.values ∧ ¬ c.Drops T a) := by
  cases c with
  | add b =>
    have hdrops : ¬ (Call.add b).Drops T a := by
      rintro ⟨ks, k, h, -⟩
      cases h
    rw [Call.apply, mem_values]
    constructor
    · rintro ⟨k, hk⟩
      rcases mem_add.mp hk with hk | ⟨hk, -⟩
      · exact Or.inr ⟨mem_values.mpr ⟨k, hk⟩, hdrops⟩
      · rw [(Prod.mk.inj hk).2]
        exact Or.inl rfl
    · rintro (h | ⟨h, -⟩)
      · obtain rfl : b = a := Call.add.inj h
        by_cases hb : b ∈ T.values
        · obtain ⟨k, hk⟩ := mem_values.mp hb
          exact ⟨k, mem_add.mpr (Or.inl hk)⟩
        · exact ⟨_, mem_add.mpr (Or.inr ⟨rfl, hb⟩)⟩
      · obtain ⟨k, hk⟩ := mem_values.mp h
        exact ⟨k, mem_add.mpr (Or.inl hk)⟩
  | drop ks =>
    rw [Call.apply, mem_values]
    constructor
    · rintro ⟨k, hk⟩
      obtain ⟨hk, hks⟩ := mem_drop.mp hk
      refine Or.inr ⟨mem_values.mpr ⟨k, hk⟩, ?_⟩
      rintro ⟨ks', j, h, hj, hja⟩
      cases h
      rw [value_unique hja hk] at hj
      exact hks hj
    · rintro (h | ⟨h, hdrops⟩)
      · cases h
      · obtain ⟨k, hk⟩ := mem_values.mp h
        exact ⟨k, mem_drop.mpr ⟨hk, fun hks => hdrops ⟨ks, k, rfl, hks, hk⟩⟩⟩

/-- `P` holds of the call at place `i` and the set before it. -/
def At (P : Tickets α → Call α → Prop) (calls : List (Call α)) (i : Nat) : Prop :=
  ∃ c, calls[i]? = some c ∧ P (run (calls.take i)) c

theorem At.lt {P : Tickets α → Call α → Prop} {calls : List (Call α)} {i : Nat} (h : At P calls i) :
    i < calls.length := by
  obtain ⟨c, hc, -⟩ := h
  exact (List.getElem?_eq_some_iff.mp hc).1

theorem at_snoc {P : Tickets α → Call α → Prop} {calls : List (Call α)} {c : Call α} {i : Nat} :
    At P (calls ++ [c]) i ↔ At P calls i ∨ (i = calls.length ∧ P (run calls) c) := by
  unfold At
  rcases Nat.lt_trichotomy i calls.length with h | h | h
  · rw [List.getElem?_append_left h, List.take_append_of_le_length (Nat.le_of_lt h)]
    exact ⟨Or.inl, fun hx => hx.elim id fun hx => absurd hx.1 (Nat.ne_of_lt h)⟩
  · subst h
    rw [List.getElem?_concat_length, List.take_left]
    constructor
    · rintro ⟨d, hd, hP⟩
      cases hd
      exact Or.inr ⟨rfl, hP⟩
    · rintro (⟨d, hd, -⟩ | ⟨-, hP⟩)
      · rw [List.getElem?_eq_none (Nat.le_refl _)] at hd
        cases hd
      · exact ⟨c, rfl, hP⟩
  · rw [List.getElem?_eq_none (by rw [List.length_append, List.length_singleton]; omega),
      List.getElem?_eq_none (Nat.le_of_lt h)]
    constructor
    · rintro ⟨d, hd, -⟩
      cases hd
    · rintro (⟨d, hd, -⟩ | ⟨hi, -⟩)
      · cases hd
      · omega

/-- An element is there if and only if it was added after its last drop. -/
theorem mem_run_iff (calls : List (Call α)) (a : α) :
    a ∈ (run calls).values ↔
      ∃ i, At (fun _ c => c = .add a) calls i ∧ ∀ j, i < j → ¬ At (fun T c => c.Drops T a) calls j := by
  induction calls using List.reverseRecOn with
  | nil =>
    constructor
    · exact fun h => absurd h List.not_mem_nil
    · rintro ⟨i, hi, -⟩
      exact absurd hi.lt (Nat.not_lt_zero _)
  | append_singleton calls c ih =>
    rw [run_snoc, Call.mem_apply, ih]
    simp only [at_snoc]
    constructor
    · rintro (h | ⟨⟨i, hi, hlast⟩, hc⟩)
      · refine ⟨calls.length, Or.inr ⟨rfl, h⟩, ?_⟩
        rintro j hj (hd | ⟨hd, -⟩)
        · exact absurd hd.lt (by omega)
        · omega
      · refine ⟨i, Or.inl hi, ?_⟩
        rintro j hj (hd | ⟨-, hd⟩)
        · exact hlast j hj hd
        · exact hc hd
    · rintro ⟨i, hi | ⟨-, hi⟩, hlast⟩
      · right
        refine ⟨⟨i, hi, fun j hj hd => hlast j hj (Or.inl hd)⟩, fun hd => ?_⟩
        exact hlast calls.length hi.lt (Or.inr ⟨rfl, hd⟩)
      · exact Or.inl hi

/-- The place of the latest insertion of an element. -/
def LatestAt (calls : List (Call α)) (i : Nat) (a : α) : Prop :=
  At (fun T c => c.Inserts T a) calls i ∧ ∀ j, i < j → ¬ At (fun T c => c.Inserts T a) calls j

theorem LatestAt.snoc {calls : List (Call α)} {c : Call α} {i : Nat} {a : α} (h : LatestAt calls i a)
    (hc : ¬ c.Inserts (run calls) a) : LatestAt (calls ++ [c]) i a := by
  refine ⟨at_snoc.mpr (Or.inl h.1), fun j hj hins => ?_⟩
  rcases at_snoc.mp hins with hins | ⟨-, hins⟩
  · exact h.2 j hj hins
  · exact hc hins

theorem push_latest {calls : List (Call α)} {place : α → Nat} {b : α} (hb : b ∉ (run calls).values)
    (hlatest : ∀ a ∈ (run calls).values, LatestAt calls (place a) a)
    (hsorted : (run calls).values.Pairwise fun a b => place a < place b) :
    ∃ place' : α → Nat, (∀ a ∈ ((run calls).push b hb).values, LatestAt (calls ++ [.add b]) (place' a) a) ∧
      ((run calls).push b hb).values.Pairwise fun a b => place' a < place' b := by
  have hvalues : ((run calls).push b hb).values = (run calls).values ++ [b] := List.map_append
  have hplace : ∀ a ∈ (run calls).values, Function.update place b calls.length a = place a := by
    intro a ha
    refine Function.update_of_ne ?_ _ _
    rintro rfl
    exact hb ha
  rw [hvalues]
  refine ⟨Function.update place b calls.length, fun a ha => ?_, ?_⟩
  · rcases List.mem_append.mp ha with ha | ha
    · rw [hplace a ha]
      refine (hlatest a ha).snoc ?_
      rintro ⟨h, -⟩
      cases h
      exact hb ha
    · rw [List.mem_singleton.mp ha, Function.update_self]
      refine ⟨at_snoc.mpr (Or.inr ⟨rfl, rfl, hb⟩), fun j hj hins => ?_⟩
      have hlt := hins.lt
      rw [List.length_append, List.length_singleton] at hlt
      omega
  · refine List.pairwise_append.mpr ⟨?_, List.pairwise_singleton _ _, fun a ha x hx => ?_⟩
    · refine hsorted.imp_of_mem fun {x y} hx hy hxy => ?_
      rw [hplace x hx, hplace y hy]
      exact hxy
    · rw [List.mem_singleton.mp hx, Function.update_self, hplace a ha]
      exact (hlatest a ha).1.lt

/-- The elements stand in the order of their latest insertions. -/
theorem run_latest (calls : List (Call α)) :
    ∃ place : α → Nat, (∀ a ∈ (run calls).values, LatestAt calls (place a) a) ∧
      (run calls).values.Pairwise fun a b => place a < place b := by
  induction calls using List.reverseRecOn with
  | nil => exact ⟨fun _ => 0, fun a h => absurd h List.not_mem_nil, .nil⟩
  | append_singleton calls c ih =>
    obtain ⟨place, hlatest, hsorted⟩ := ih
    rw [run_snoc]
    cases c with
    | drop ks =>
      have hsub : ((run calls).drop ks).values.Sublist (run calls).values := List.filter_sublist.map _
      refine ⟨place, fun a ha => (hlatest a (hsub.subset ha)).snoc ?_, hsorted.sublist hsub⟩
      rintro ⟨h, -⟩
      cases h
    | add b =>
      by_cases hb : b ∈ (run calls).values
      · rw [Call.apply, add_of_mem hb]
        refine ⟨place, fun a ha => (hlatest a ha).snoc ?_, hsorted⟩
        rintro ⟨h, hnot⟩
        cases h
        exact hnot ha
      · rw [Call.apply, add_of_notMem hb]
        exact push_latest hb hlatest hsorted

/-- What a run has later it had before, or issued since. -/
theorem mem_run_append (before after : List (Call α)) :
    (run before).last ≤ (run (before ++ after)).last ∧
      ∀ x ∈ (run (before ++ after)).items, x ∈ (run before).items ∨ (run before).last < x.1 := by
  induction after using List.reverseRecOn with
  | nil =>
    rw [List.append_nil]
    exact ⟨Nat.le_refl _, fun x hx => Or.inl hx⟩
  | append_singleton after c ih =>
    obtain ⟨hle, hmem⟩ := ih
    rw [← List.append_assoc, run_snoc]
    cases c with
    | drop ks => exact ⟨hle, fun x hx => hmem x (mem_drop.mp hx).1⟩
    | add b =>
      refine ⟨?_, fun x hx => ?_⟩
      · by_cases hb : b ∈ (run (before ++ after)).values
        · rw [Call.apply, add_of_mem hb]
          exact hle
        · rw [Call.apply, add_of_notMem hb]
          exact Nat.le_succ_of_le hle
      · rcases mem_add.mp hx with hx | ⟨rfl, -⟩
        · exact hmem x hx
        · exact Or.inr (Nat.lt_succ_of_le hle)

/-- A ticket stands for the element it was issued for, or for none. -/
theorem ticket_names {before after : List (Call α)} {k : Nat} {a b : α} (ha : (k, a) ∈ (run before).items)
    (hb : (k, b) ∈ (run (before ++ after)).items) : a = b := by
  have hissued : k ≤ (run before).last := (run before).issued _ ha
  rcases (mem_run_append before after).2 _ hb with h | h
  · exact ticket_unique ha h
  · exact absurd hissued (Nat.not_le.mpr h)

end Tickets

end Frg.Lib
