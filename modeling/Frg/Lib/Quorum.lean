/-
  Frg.Lib.Quorum — weighted quorums, and why locked voting in rounds decides one value.

  Voters carry weights; a quorum is a set of voters with more than two thirds of the
  whole weight. Two quorums have more than one third in common (`Quorum.overlap`); while
  the faulty voters hold less than that, they share a voter that is not faulty
  (`Quorum.inter`).

  Voting goes in numbered rounds with two kinds of votes. `Discipline` says what the
  voters that are not faulty keep to: one precommit in a round, no precommit without a
  quorum of prevotes, and no prevote against an earlier precommit unless a third value
  had its quorum of prevotes in between. Then:
    - `Discipline.polka`: after a quorum of precommits for a value, no other value ever
      has a quorum of prevotes in a later round.
    - `Discipline.agreement`: any two values with a quorum of precommits are equal.
-/

import Mathlib.Algebra.BigOperators.Group.Finset.Basic
import Mathlib.Algebra.Order.BigOperators.Group.Finset
import Mathlib.Tactic.Linarith

namespace Frg.Lib

open scoped Classical in
/-- The weight of the voters with a property. -/
noncomputable def weight {V : Type} (voters : Finset V) (w : V → ℕ) (p : V → Prop) : ℕ :=
  ∑ v ∈ voters, if p v then w v else 0

/-- More than two thirds of the whole weight. -/
def Quorum {V : Type} (voters : Finset V) (w : V → ℕ) (p : V → Prop) : Prop :=
  2 * ∑ v ∈ voters, w v < 3 * weight voters w p

section

variable {V : Type} {voters : Finset V} {w : V → ℕ} {p q faulty : V → Prop}

theorem weight_mono (h : ∀ v ∈ voters, p v → q v) : weight voters w p ≤ weight voters w q := by
  apply Finset.sum_le_sum
  intro v hv
  by_cases hp : p v
  · simp [hp, h v hv hp]
  · simp [hp]

theorem Quorum.mono (hp : Quorum voters w p) (h : ∀ v ∈ voters, p v → q v) : Quorum voters w q :=
  lt_of_lt_of_le hp (Nat.mul_le_mul_left 3 (weight_mono h))

theorem sum_le_weight {s : Finset V} (h : ∀ v ∈ s, v ∈ voters ∧ p v) : ∑ v ∈ s, w v ≤ weight voters w p := by
  classical
  calc ∑ v ∈ s, w v
      = ∑ v ∈ s, if p v then w v else 0 := Finset.sum_congr rfl fun v hv => by rw [if_pos (h v hv).2]
    _ ≤ ∑ v ∈ voters, if p v then w v else 0 := Finset.sum_le_sum_of_subset fun v hv => (h v hv).1
    _ = weight voters w p := by
      unfold weight
      congr!

theorem weight_and (p q : V → Prop) :
    weight voters w p + weight voters w q ≤ ∑ v ∈ voters, w v + weight voters w (fun v => p v ∧ q v) := by
  unfold weight
  rw [← Finset.sum_add_distrib, ← Finset.sum_add_distrib]
  apply Finset.sum_le_sum
  intro v _
  by_cases hp : p v <;> by_cases hq : q v <;> simp [hp, hq]

/-- Two quorums have more than one third of the weight in common. -/
theorem Quorum.overlap (hp : Quorum voters w p) (hq : Quorum voters w q) :
    ∑ v ∈ voters, w v < 3 * weight voters w fun v => p v ∧ q v := by
  have hand : weight voters w p + weight voters w q ≤ _ := weight_and p q
  unfold Quorum at hp hq
  omega

/-- Two quorums share a voter that is not faulty. -/
theorem Quorum.inter (hp : Quorum voters w p) (hq : Quorum voters w q)
    (hf : 3 * weight voters w faulty < ∑ v ∈ voters, w v) : ∃ v ∈ voters, p v ∧ q v ∧ ¬ faulty v := by
  by_contra hno
  push Not at hno
  have hmost := hp.overlap hq
  have hall : weight voters w (fun v => p v ∧ q v) ≤ weight voters w faulty :=
    weight_mono fun v hv h => hno v hv h.1 h.2
  omega

end

/-! ## Voting in rounds -/

/-- What the voters that are not faulty keep to. `live` are the values whose locks hold. -/
structure Discipline {V B : Type} (voters : Finset V) (w : V → ℕ) (faulty : V → Prop)
    (prevote precommit : V → ℕ → B → Prop) (null : B) (live : B → Prop) : Prop where
  bounded : 3 * weight voters w faulty < ∑ v ∈ voters, w v
  once : ∀ v ∈ voters, ¬ faulty v → ∀ r x y, precommit v r x → precommit v r y → x = y
  justified : ∀ v ∈ voters, ¬ faulty v → ∀ r x, x ≠ null → precommit v r x →
    Quorum voters w (fun u => prevote u r x)
  locked : ∀ v ∈ voters, ¬ faulty v → ∀ r x r' y, live x → x ≠ null → y ≠ null → y ≠ x → r < r' →
    precommit v r x → prevote v r' y →
    ∃ r'' z, r < r'' ∧ r'' < r' ∧ z ≠ x ∧ z ≠ null ∧ Quorum voters w (fun u => prevote u r'' z)

namespace Discipline

variable {V B : Type} {voters : Finset V} {w : V → ℕ} {faulty : V → Prop}
  {prevote precommit : V → ℕ → B → Prop} {null : B} {live : B → Prop}

/-- After a quorum of precommits for a live value, only that value gets a quorum of prevotes. -/
theorem polka (D : Discipline voters w faulty prevote precommit null live) {r : ℕ} {x : B} (hx : x ≠ null)
    (hl : live x) (hq : Quorum voters w (fun v => precommit v r x)) :
    ∀ r' y, r < r' → y ≠ null → Quorum voters w (fun v => prevote v r' y) → y = x := by
  intro r'
  induction r' using Nat.strong_induction_on with
  | _ r' ih =>
    intro y hr hy hp
    by_contra hne
    obtain ⟨v, hv, hc, hpv, hf⟩ := hq.inter hp D.bounded
    obtain ⟨r'', z, h1, h2, hz, hz0, hpz⟩ := D.locked v hv hf r x r' y hl hx hy hne hr hc hpv
    exact hz (ih r'' h2 z h1 hz0 hpz)

/-- A quorum of precommits comes with a quorum of prevotes in its round. -/
theorem prevoted (D : Discipline voters w faulty prevote precommit null live) {r : ℕ} {x : B} (hx : x ≠ null)
    (hq : Quorum voters w (fun v => precommit v r x)) : Quorum voters w (fun v => prevote v r x) := by
  obtain ⟨v, hv, hc, -, hf⟩ := hq.inter hq D.bounded
  exact D.justified v hv hf r x hx hc

/-- Two live values with a quorum of precommits are equal. -/
theorem agreement (D : Discipline voters w faulty prevote precommit null live) {r r' : ℕ} {x y : B}
    (hx : x ≠ null) (hy : y ≠ null) (hlx : live x) (hly : live y)
    (hqx : Quorum voters w (fun v => precommit v r x)) (hqy : Quorum voters w (fun v => precommit v r' y)) :
    x = y := by
  rcases Nat.lt_trichotomy r r' with h | h | h
  · exact (D.polka hx hlx hqx r' y h hy (D.prevoted hy hqy)).symm
  · subst h
    obtain ⟨v, hv, h1, h2, hf⟩ := hqx.inter hqy D.bounded
    exact D.once v hv hf r x y h1 h2
  · exact D.polka hy hly hqy r x h hx (D.prevoted hx hqx)

end Discipline

end Frg.Lib
