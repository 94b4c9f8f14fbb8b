/-
  Frg.Lib.Spend — actions that lower a quantity of the state by a bounded amount.

  `Lowers f n x` says that however the action `x` ends, `f` is at most `n` lower behind it.
  The bounds of a sequence add up (`lowers_bind`), and an action built from steps that never
  lower `f` costs nothing (`Steps.lowers`).
-/

import Frg.Lib.Act

namespace Frg.Lib.Act

variable {ε σ α β : Type} {f : σ → Int} {n m : Int}

/-- However `x` ends, `f` is at most `n` lower behind it. -/
def Lowers (f : σ → Int) (n : Int) (x : Act ε σ α) : Prop := Steps (fun s s' => f s ≤ f s' + n) x

/-- `f` did not fall. -/
def Holds (f : σ → Int) (s s' : σ) : Prop := f s ≤ f s'

instance : Std.Refl (Holds f) := ⟨fun _ => Int.le_refl _⟩
instance : IsTrans σ (Holds f) := ⟨fun _ _ _ h1 h2 => Int.le_trans h1 h2⟩

theorem Steps.lowers {x : Act ε σ α} (h0 : 0 ≤ n) (h : Steps (Holds f) x) : Lowers f n x := by
  intro s
  have h1 : f s ≤ f (x s).2 := h s
  omega

theorem lowers_bind {x : Act ε σ α} {k : α → Act ε σ β} (h0 : 0 ≤ m) (hx : Lowers f n x) (hk : ∀ a, Lowers f m (k a)) :
    Lowers f (n + m) (x >>= k) := by
  intro s
  have h1 := hx s
  rw [bind_run]
  generalize x s = r at h1 ⊢
  rcases r with ⟨a | e | w, s'⟩
  · have h2 := hk a s'
    dsimp only at h1 h2 ⊢
    omega
  · dsimp only at h1 ⊢
    omega
  · dsimp only at h1 ⊢
    omega

theorem lowers_after {x : Act ε σ α} {k : α → Act ε σ β} (h0 : 0 ≤ n) (hx : Steps (Holds f) x)
    (hk : ∀ a, Lowers f n (k a)) : Lowers f n (x >>= k) := by
  have h := lowers_bind h0 (hx.lowers (Int.le_refl 0)) hk
  rwa [Int.zero_add] at h

theorem lowers_before {x : Act ε σ α} {k : α → Act ε σ β} (hx : Lowers f n x) (hk : ∀ a, Steps (Holds f) (k a)) :
    Lowers f n (x >>= k) := by
  have h := lowers_bind (Int.le_refl 0) hx fun a => (hk a).lowers (Int.le_refl 0)
  rwa [Int.add_zero] at h

end Frg.Lib.Act
