/-
  Frg.Lib.Run — runs of a step relation, and runs computed from a list of inputs.

    - `run_keeps`: what every step keeps holds in every state a run reaches.
    - `run_loses`: what a run does not keep is lost in one of its steps.
    - `Recorded.keeps`: the first for runs that keep a record of their steps.
    - `foldlM_keeps`, `foldlM_reaches`: the same for a step function that may refuse an input,
      and a computed run as a run of the relation.
-/

import Mathlib.Logic.Relation

namespace Frg.Lib

open Relation

variable {α ι : Type} {R : α → α → Prop} {I : α → Prop} {a b : α}

theorem run_keeps (hstep : ∀ {x y}, I x → R x y → I y) (hrun : ReflTransGen R a b) (h : I a) : I b := by
  induction hrun with
  | refl => exact h
  | tail _ hs ih => exact hstep ih hs

theorem run_loses (hrun : ReflTransGen R a b) (ha : I a) (hb : ¬ I b) :
    ∃ x y, ReflTransGen R a x ∧ I x ∧ R x y ∧ ¬ I y ∧ ReflTransGen R y b := by
  induction hrun with
  | refl => exact absurd ha hb
  | @tail x y hrun hs ih =>
    by_cases hx : I x
    · exact ⟨x, y, hrun, hx, hs, hb, .refl⟩
    · obtain ⟨u, v, hu, hIu, huv, hIv, hv⟩ := ih hx
      exact ⟨u, v, hu, hIu, huv, hIv, hv.tail hs⟩

/-- Runs from the states of `I` with a record of their labelled steps, which begins as `blank`. -/
inductive Recorded {τ : Type} (I : α → Prop) (R : α → ι → α → Prop) (blank : τ) (record : τ → α → ι → τ) : τ → α → Prop
  | start {x : α} : I x → Recorded I R blank record blank x
  | step {t : τ} {x y : α} {i : ι} : Recorded I R blank record t x → R x i y →
      Recorded I R blank record (record t x i) y

theorem Recorded.keeps {τ : Type} {R : α → ι → α → Prop} {blank t : τ} {record : τ → α → ι → τ} {J : τ → α → Prop}
    (hstart : ∀ {x}, I x → J blank x) (hstep : ∀ {t x i y}, J t x → R x i y → J (record t x i) y)
    (h : Recorded I R blank record t a) : J t a := by
  induction h with
  | start hx => exact hstart hx
  | step _ hi ih => exact hstep ih hi

theorem foldlM_keeps {f : α → ι → Option α} : ∀ {is : List ι} {a b : α},
    (∀ x, ∀ i ∈ is, ∀ y, I x → f x i = some y → I y) → is.foldlM f a = some b → I a → I b := by
  intro is
  induction is with
  | nil =>
    intro a b _ h ha
    cases h
    exact ha
  | cons i is ih =>
    intro a b hstep h ha
    rw [List.foldlM_cons] at h
    obtain ⟨c, hi, h⟩ := Option.bind_eq_some_iff.mp h
    have hc : I c := hstep a i List.mem_cons_self c ha hi
    exact ih (fun x j hj => hstep x j (List.mem_cons_of_mem i hj)) h hc

theorem foldlM_reaches {f : α → ι → Option α} (hf : ∀ x i y, f x i = some y → R x y) {is : List ι}
    (h : is.foldlM f a = some b) : ReflTransGen R a b :=
  foldlM_keeps (fun x i _ y hx hy => hx.tail (hf x i y hy)) h .refl

end Frg.Lib
