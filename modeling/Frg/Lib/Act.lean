/-
  Frg.Lib.Act — computations that end well, with an error, or in a panic (`Go`), and
  the same over a state that keeps what was written before an error (`Act`): the
  caller of a failed action decides whether its writes stand.

  Proofs never unfold the binds: `Go.bind_eq_ok` and `Act.bind_ok` take a successful
  sequence apart into its successful parts, `Go.panics_bind` shows a sequence free of
  panics, `Act.foldlM_inv` carries a property of the state through a loop whose body keeps
  it, `Act.foldlM_traced` and `Act.mapM_traced` one of what the loop went through,
  `Act.Gives` says what an action gives on one state, step by step along a sequence, and
  `Act.Errs` which errors it can end with.
-/

import Mathlib.Data.List.Forall2
import Mathlib.Order.Defs.Unbundled

namespace Frg.Lib

inductive Go (ε α : Type) where
  | ok (a : α)
  | err (e : ε)
  | panic (why : String)
  deriving DecidableEq, Repr

namespace Go

variable {ε α β : Type}

def bind (x : Go ε α) (f : α → Go ε β) : Go ε β :=
  match x with
  | ok a => f a
  | err e => err e
  | panic w => panic w

instance : Monad (Go ε) where
  pure := ok
  bind := bind

instance : LawfulMonad (Go ε) :=
  LawfulMonad.mk' _ (fun x => by cases x <;> rfl) (fun _ _ => rfl) (fun x _ _ => by cases x <;> rfl)

@[simp] theorem pure_eq (a : α) : (pure a : Go ε α) = ok a := rfl
@[simp] theorem ok_bind (a : α) (f : α → Go ε β) : (ok a >>= f) = f a := rfl
@[simp] theorem err_bind (e : ε) (f : α → Go ε β) : ((err e : Go ε α) >>= f) = err e := rfl
@[simp] theorem panic_bind (w : String) (f : α → Go ε β) : ((panic w : Go ε α) >>= f) = panic w := rfl

/-- The value, where the error is not looked at. -/
def toOption : Go ε α → Option α
  | ok a => some a
  | _ => none

@[simp] theorem toOption_eq_some {x : Go ε α} {a : α} : x.toOption = some a ↔ x = ok a := by
  cases x <;> simp [toOption]

theorem bind_eq_ok {x : Go ε α} {f : α → Go ε β} {b : β} : (x >>= f) = ok b ↔ ∃ a, x = ok a ∧ f a = ok b := by
  cases x <;> simp

theorem mapM_eq_ok {f : α → Go ε β} : ∀ {l : List α} {bs : List β},
    l.mapM f = ok bs ↔ List.Forall₂ (fun a b => f a = ok b) l bs := by
  intro l
  induction l with
  | nil => intro bs; cases bs <;> simp
  | cons a l ih =>
    intro bs
    rw [List.mapM_cons, bind_eq_ok]
    simp only [bind_eq_ok, ih, pure_eq, ok.injEq, List.forall₂_cons_left_iff]
    constructor
    · rintro ⟨b, h1, bs', h2, rfl⟩
      exact ⟨b, bs', h1, h2, rfl⟩
    · rintro ⟨b, bs', h1, h2, rfl⟩
      exact ⟨b, h1, bs', h2, rfl⟩

/-- A map over a function that returns where `p` holds and stops elsewhere. -/
theorem mapM_ok_or_panic {f : α → Go ε β} {p : α → Prop} {w : String}
    (h : ∀ a, (p a ∧ ∃ b, f a = ok b) ∨ (¬ p a ∧ f a = panic w)) (l : List α) :
    ((∀ a ∈ l, p a) ∧ ∃ bs, l.mapM f = ok bs) ∨ ((¬ ∀ a ∈ l, p a) ∧ l.mapM f = panic w) := by
  induction l with
  | nil => exact Or.inl ⟨fun a ha => absurd ha List.not_mem_nil, [], rfl⟩
  | cons a l ih =>
    rw [List.mapM_cons, List.forall_mem_cons]
    rcases h a with ⟨hp, b, hb⟩ | ⟨hp, hb⟩
    · rw [hb, ok_bind]
      rcases ih with ⟨hl, bs, hbs⟩ | ⟨hl, hbs⟩
      · exact Or.inl ⟨⟨hp, hl⟩, b :: bs, by rw [hbs]; rfl⟩
      · exact Or.inr ⟨fun h => hl h.2, by rw [hbs]; rfl⟩
    · exact Or.inr ⟨fun h => hp h.1, by rw [hb]; rfl⟩

theorem forall₂_left {α β : Type} {R : α → β → Prop} {l : List α} {m : List β} (h : List.Forall₂ R l m) {b : β}
    (hb : b ∈ m) : ∃ a ∈ l, R a b := by
  induction h with
  | nil => exact absurd hb List.not_mem_nil
  | @cons a _ _ _ h1 _ ih =>
    rcases List.mem_cons.mp hb with rfl | hb
    · exact ⟨a, List.mem_cons_self, h1⟩
    · obtain ⟨x, hx, hxb⟩ := ih hb
      exact ⟨x, List.mem_cons_of_mem _ hx, hxb⟩

theorem mem_of_mapM {f : α → Go ε β} {l : List α} {bs : List β} (h : l.mapM f = ok bs) {b : β} (hb : b ∈ bs) :
    ∃ a ∈ l, f a = ok b := forall₂_left (mapM_eq_ok.mp h) hb

theorem forall₂_congr_mem {α β : Type} {R S : α → β → Prop} : ∀ {l : List α} {m : List β},
    (∀ a ∈ l, ∀ b, R a b ↔ S a b) → (List.Forall₂ R l m ↔ List.Forall₂ S l m) := by
  intro l
  induction l with
  | nil => intro m _; rw [List.forall₂_nil_left_iff, List.forall₂_nil_left_iff]
  | cons a l ih =>
    intro m h
    simp only [List.forall₂_cons_left_iff, h a List.mem_cons_self, ih fun x hx => h x (List.mem_cons_of_mem _ hx)]

theorem forall₂_mem {α β : Type} {R : α → β → Prop} {l : List α} {m : List β} (h : List.Forall₂ R l m) :
    List.Forall₂ (fun a b => a ∈ l ∧ b ∈ m ∧ R a b) l m := by
  induction h with
  | nil => exact .nil
  | cons h1 _ ih =>
    refine .cons ⟨List.mem_cons_self, List.mem_cons_self, h1⟩ (ih.imp fun a b hab => ?_)
    exact ⟨List.mem_cons_of_mem _ hab.1, List.mem_cons_of_mem _ hab.2.1, hab.2.2⟩

theorem forall₂_exists {α β : Type} {R : α → β → Prop} {l : List α} (h : ∀ a ∈ l, ∃ b, R a b) :
    ∃ bs, List.Forall₂ R l bs := by
  induction l with
  | nil => exact ⟨[], .nil⟩
  | cons a l ih =>
    obtain ⟨b, hb⟩ := h a List.mem_cons_self
    obtain ⟨bs, hbs⟩ := ih fun x hx => h x (List.mem_cons_of_mem _ hx)
    exact ⟨b :: bs, .cons hb hbs⟩

theorem foldlM_ok_mem {f : β → α → Go ε β} : ∀ {l : List α} {b b' : β}, l.foldlM f b = ok b' →
    ∀ a ∈ l, ∃ c c', f c a = ok c' := by
  intro l
  induction l with
  | nil => exact fun _ a ha => absurd ha List.not_mem_nil
  | cons x l ih =>
    intro b b' h a ha
    rw [List.foldlM_cons] at h
    obtain ⟨c, h1, h2⟩ := bind_eq_ok.mp h
    rcases List.mem_cons.mp ha with rfl | ha
    · exact ⟨b, c, h1⟩
    · exact ih h2 a ha

theorem forM_eq_err {f : α → Go ε Unit} {e : ε} : ∀ {l : List α}, l.forM f = err e → ∃ a ∈ l, f a = err e := by
  intro l
  induction l with
  | nil => intro h; cases h
  | cons a l ih =>
    intro h
    have h : (f a >>= fun _ => l.forM f) = err e := h
    cases ha : f a with
    | ok u =>
      rw [ha, ok_bind] at h
      obtain ⟨x, hx, hf⟩ := ih h
      exact ⟨x, List.mem_cons_of_mem _ hx, hf⟩
    | err e' =>
      rw [ha, err_bind] at h
      cases h
      exact ⟨a, List.mem_cons_self, ha⟩
    | panic w =>
      rw [ha, panic_bind] at h
      cases h

theorem forM_eq_ok {f : α → Go ε Unit} : ∀ {l : List α} {u : Unit}, l.forM f = ok u ↔ ∀ a ∈ l, f a = ok () := by
  intro l
  induction l with
  | nil => exact fun {u} => iff_of_true rfl fun a ha => nomatch ha
  | cons x l ih =>
    intro u
    rw [List.forall_mem_cons, ← ih (u := ())]
    exact bind_eq_ok.trans ⟨fun ⟨_, h1, h2⟩ => ⟨h1, h2⟩, fun ⟨h1, h2⟩ => ⟨(), h1, h2⟩⟩

/-- The computation stops in a panic. -/
def panics : Go ε α → Bool
  | panic _ => true
  | _ => false

@[simp] theorem panics_ok (a : α) : (ok a : Go ε α).panics = false := rfl
@[simp] theorem panics_err (e : ε) : (err e : Go ε α).panics = false := rfl
@[simp] theorem panics_panic (w : String) : (panic w : Go ε α).panics = true := rfl

theorem panics_bind {x : Go ε α} {f : α → Go ε β} (hx : x.panics = false) (hf : ∀ a, x = ok a → (f a).panics = false) :
    (x >>= f).panics = false := by
  cases x with
  | ok a => exact hf a rfl
  | err e => rfl
  | panic w => exact absurd hx (by simp)

theorem panics_forM {f : α → Go ε Unit} : ∀ {l : List α}, (∀ a ∈ l, (f a).panics = false) →
    (l.forM f).panics = false := by
  intro l
  induction l with
  | nil => exact fun _ => rfl
  | cons a l ih =>
    intro h
    exact panics_bind (h a List.mem_cons_self) fun _ _ => ih fun x hx => h x (List.mem_cons_of_mem _ hx)

/-- The error result of a call: nil when it returns a value. -/
def error : Go ε α → Option ε
  | err e => some e
  | _ => none

theorem error_eq_some {x : Go ε α} {e : ε} : x.error = some e ↔ x = err e := by
  cases x <;> simp [error]

theorem error_eq_none {x : Go ε Unit} (h : x.panics = false) : x.error = none ↔ x = ok () := by
  cases x with
  | ok u => simp [error]
  | err e => simp [error]
  | panic w => simp at h

/-- The check `c`, failing with `e`. -/
def check (c : Prop) [Decidable c] (e : ε) : Go ε Unit := if c then ok () else err e

@[simp] theorem check_eq_ok {c : Prop} [Decidable c] {e : ε} {u : Unit} : check c e = ok u ↔ c := by
  unfold check; split <;> simp_all

@[simp] theorem panics_check {c : Prop} [Decidable c] {e : ε} : (check c e).panics = false := by
  unfold check; split <;> rfl

theorem check_pos {c : Prop} [Decidable c] (h : c) (e : ε) : check c e = ok () := if_pos h
theorem check_neg {c : Prop} [Decidable c] (h : ¬ c) (e : ε) : check c e = err e := if_neg h

def isOk : Go ε α → Bool
  | ok _ => true
  | _ => false

theorem isOk_iff {x : Go ε α} : x.isOk = true ↔ ∃ a, x = ok a := by
  cases x <;> simp [isOk]

theorem run_eq {σ : Type} {p : Go ε α × σ} (h : p.1.isOk = true) : ∃ a, p = (ok a, p.2) := by
  obtain ⟨a, ha⟩ := isOk_iff.mp h
  exact ⟨a, Prod.ext ha rfl⟩

end Go

/-- An action on a state `σ`. What it wrote before an error is kept. -/
def Act (ε σ α : Type) := σ → Go ε α × σ

namespace Act

variable {ε σ α β : Type}

def bind (x : Act ε σ α) (f : α → Act ε σ β) : Act ε σ β := fun s =>
  match x s with
  | (.ok a, s') => f a s'
  | (.err e, s') => (.err e, s')
  | (.panic w, s') => (.panic w, s')

instance : Monad (Act ε σ) where
  pure a := fun s => (.ok a, s)
  bind := bind

theorem bind_run (x : Act ε σ α) (f : α → Act ε σ β) (s : σ) :
    (x >>= f) s = match x s with
      | (.ok a, s') => f a s'
      | (.err e, s') => (.err e, s')
      | (.panic w, s') => (.panic w, s') := rfl

theorem bind_pure_run (x : Act ε σ α) : bind x (fun a => pure a) = x := by
  funext s
  unfold bind
  rcases x s with ⟨_ | _ | _, _⟩ <;> rfl

theorem bind_assoc_run {γ : Type} (x : Act ε σ α) (f : α → Act ε σ β) (g : β → Act ε σ γ) :
    bind (bind x f) g = bind x (fun a => bind (f a) g) := by
  funext s
  unfold bind
  rcases x s with ⟨_ | _ | _, _⟩ <;> rfl

instance : LawfulMonad (Act ε σ) :=
  LawfulMonad.mk' _ (fun x => bind_pure_run x) (fun _ _ => rfl) (fun x f g => bind_assoc_run x f g)

def fail (e : ε) : Act ε σ α := fun s => (.err e, s)

def read (f : σ → α) : Act ε σ α := fun s => (.ok (f s), s)

def write (f : σ → σ) : Act ε σ Unit := fun s => (.ok (), f s)

def stop (w : String) : Act ε σ α := fun s => (.panic w, s)

/-- A stateless result. -/
def lift (x : Go ε α) : Act ε σ α := fun s => (x, s)

def check (c : Prop) [Decidable c] (e : ε) : Act ε σ Unit := lift (Go.check c e)

/-- Run an action and go on whether it failed or not. -/
def succeeded (x : Act ε σ α) : Act ε σ Bool := fun s =>
  match x s with
  | (.ok _, s') => (.ok true, s')
  | (.err _, s') => (.ok false, s')
  | (.panic w, s') => (.panic w, s')

def mapErr (f : ε → ε) (x : Act ε σ α) : Act ε σ α := fun s =>
  match x s with
  | (.err e, s') => (.err (f e), s')
  | r => r

@[simp] theorem pure_ok {a b : α} {s s' : σ} : (pure a : Act ε σ α) s = (.ok b, s') ↔ a = b ∧ s = s' := by
  show ((Go.ok a, s) : Go ε α × σ) = (.ok b, s') ↔ _
  simp

theorem bind_ok {x : Act ε σ α} {f : α → Act ε σ β} {s s'' : σ} {b : β} :
    (x >>= f) s = (.ok b, s'') ↔ ∃ a s', x s = (.ok a, s') ∧ f a s' = (.ok b, s'') := by
  rw [bind_run]
  rcases x s with ⟨_ | _ | _, s1⟩
  · constructor
    · intro h
      exact ⟨_, _, rfl, h⟩
    · rintro ⟨a, s', ⟨⟩, h⟩
      exact h
  · simp
  · simp

theorem bind_err {x : Act ε σ α} {f : α → Act ε σ β} {s s' : σ} {e : ε} (h : (x >>= f) s = (.err e, s')) :
    x s = (.err e, s') ∨ ∃ a s1, x s = (.ok a, s1) ∧ f a s1 = (.err e, s') := by
  rw [bind_run] at h
  cases hx : x s with
  | mk r s1 =>
    rw [hx] at h
    cases r with
    | ok a => exact .inr ⟨a, s1, rfl, h⟩
    | err e' =>
      cases h
      exact .inl rfl
    | panic w => cases h

/-- The error is that of the action before the `pure`. -/
theorem bind_pure_err {x : Act ε σ α} {f : α → β} {s s' : σ} {e : ε}
    (h : (x >>= fun a => pure (f a)) s = (.err e, s')) :
    x s = (.err e, s') := by
  rcases bind_err h with hx | ⟨a, s1, -, hf⟩
  · exact hx
  · cases hf

@[simp] theorem fail_ok {e : ε} {s s' : σ} {b : α} : ¬ (fail e : Act ε σ α) s = (.ok b, s') := by simp [fail]

@[simp] theorem read_ok {f : σ → α} {s s' : σ} {b : α} : (read f : Act ε σ α) s = (.ok b, s') ↔ f s = b ∧ s = s' := by
  simp [read]

@[simp] theorem write_ok {f : σ → σ} {s s' : σ} {u : Unit} : (write f : Act ε σ Unit) s = (.ok u, s') ↔ f s = s' := by
  simp [write]

@[simp] theorem lift_ok {x : Go ε α} {s s' : σ} {b : α} :
    (lift x : Act ε σ α) s = (.ok b, s') ↔ x = .ok b ∧ s = s' := by
  simp [lift]

@[simp] theorem check_ok {c : Prop} [Decidable c] {e : ε} {s s' : σ} {u : Unit} :
    (check c e : Act ε σ Unit) s = (.ok u, s') ↔ c ∧ s = s' := by
  simp [check]

/-! Running the first action of a sequence. -/

theorem bind_of_ok {x : Act ε σ α} {a : α} {s s' : σ} (h : x s = (.ok a, s')) (g : α → Act ε σ β) :
    (x >>= g) s = g a s' := by
  rw [bind_run, h]

theorem read_bind (f : σ → α) (g : α → Act ε σ β) (s : σ) : (read f >>= g) s = g (f s) s := rfl

theorem write_bind (f : σ → σ) (g : Unit → Act ε σ β) (s : σ) : (write f >>= g) s = g () (f s) := rfl

theorem lift_bind {x : Go ε α} {a : α} (h : x = .ok a) (g : α → Act ε σ β) (s : σ) : (lift x >>= g) s = g a s := by
  rw [h]
  rfl

theorem check_bind {c : Prop} [Decidable c] (h : c) (e : ε) (g : Unit → Act ε σ β) (s : σ) :
    (check c e >>= g) s = g () s := lift_bind (Go.check_pos h e) g s

theorem lift_bind_fails {x : Go ε α} (h : ∀ a, x ≠ .ok a) (g : α → Act ε σ β) (s : σ) :
    ∃ r, (lift x >>= g) s = (r, s) ∧ ∀ b, r ≠ .ok b := by
  cases x with
  | ok a => exact absurd rfl (h a)
  | err e => exact ⟨.err e, rfl, fun b hb => by cases hb⟩
  | panic w => exact ⟨.panic w, rfl, fun b hb => by cases hb⟩

theorem check_bind_fails {c : Prop} [Decidable c] (h : ¬ c) (e : ε) (g : Unit → Act ε σ β) (s : σ) :
    ∃ r, (check c e >>= g) s = (r, s) ∧ ∀ b, r ≠ .ok b :=
  lift_bind_fails (fun a ha => by rw [Go.check_neg h] at ha; cases ha) g s

/-- What the action gives on `s`: a value, leaving `s'`, or none. -/
def Gives (x : Act ε σ α) (s : σ) (o : Option α) (s' : σ) : Prop :=
  match o with
  | some a => x s = (.ok a, s')
  | none => (x s).1.toOption = none

theorem Gives.toOption {x : Act ε σ α} {s s' : σ} {o : Option α} (h : x.Gives s o s') : (x s).1.toOption = o := by
  cases o with
  | none => exact h
  | some a => exact congrArg (fun r => r.1.toOption) h

theorem Gives.of_eq {x : Act ε σ α} {s s' : σ} {o o' : Option α} (h : x.Gives s o s') (ho : o = o') : x.Gives s o' s' :=
  ho ▸ h

theorem Gives.bind {x : Act ε σ α} {f : α → Act ε σ β} {g : α → Option β} {s s' s'' : σ} {o : Option α}
    (hx : x.Gives s o s') (hf : ∀ a, (f a).Gives s' (g a) s'') : (x >>= f).Gives s (o.bind g) s'' := by
  cases o with
  | some a =>
    have hx : x s = (.ok a, s') := hx
    have hf := hf a
    unfold Gives at hf ⊢
    rw [bind_of_ok hx]
    exact hf
  | none =>
    have hx : (x s).1.toOption = none := hx
    show ((x >>= f) s).1.toOption = none
    rw [bind_run]
    cases hr : x s with
    | mk r s₁ =>
      cases r with
      | ok a =>
        rw [hr] at hx
        cases hx
      | err e => rfl
      | panic w => rfl

theorem Gives.after {x : Act ε σ α} {f : α → Act ε σ β} {s s' s'' : σ} {a : α} {o : Option β} (hx : x s = (.ok a, s'))
    (hf : (f a).Gives s' o s'') : (x >>= f).Gives s o s'' := by
  unfold Gives at hf ⊢
  rw [bind_of_ok hx]
  exact hf

theorem Gives.checked {c : Prop} [Decidable c] {e : ε} {f : Unit → Act ε σ β} {s s' : σ} {o : Option β} (hc : c)
    (hf : (f ()).Gives s o s') : (Act.check c e >>= f).Gives s o s' :=
  .after (check_ok.mpr ⟨hc, rfl⟩) hf

theorem Gives.lift (x : Go ε α) (s : σ) : (Act.lift x).Gives s x.toOption s := by
  cases x <;> rfl

theorem Gives.check {c : Prop} [Decidable c] (e : ε) (s : σ) :
    (Act.check c e).Gives s (if c then some () else none) s := by
  by_cases hc : c
  · rw [if_pos hc]
    exact check_ok.mpr ⟨hc, rfl⟩
  · rw [if_neg hc, Act.check, Go.check_neg hc]
    rfl

theorem foldlM_inv {γ : Type} {P : γ → σ → Prop} {f : γ → α → Act ε σ γ} {l : List α}
    (hf : ∀ g a s g' s', a ∈ l → P g s → f g a s = (.ok g', s') → P g' s') :
    ∀ {g g' : γ} {s s' : σ}, P g s → l.foldlM f g s = (.ok g', s') → P g' s' := by
  induction l with
  | nil =>
    intro g g' s s' hp h
    obtain ⟨rfl, rfl⟩ := pure_ok.mp h
    exact hp
  | cons a l ih =>
    intro g g' s s' hp h
    rw [List.foldlM_cons] at h
    obtain ⟨g1, s1, h1, h2⟩ := bind_ok.mp h
    exact ih (fun g b s g' s' hb => hf g b s g' s' (List.mem_cons_of_mem _ hb))
      (hf _ _ _ _ _ List.mem_cons_self hp h1) h2

@[simp] theorem mapErr_ok {f : ε → ε} {x : Act ε σ α} {s s' : σ} {b : α} :
    mapErr f x s = (.ok b, s') ↔ x s = (.ok b, s') := by
  unfold mapErr
  split
  · rename_i h
    simp [h]
  · rfl

theorem foldlM_cons_ok {γ : Type} {f : γ → α → Act ε σ γ} {a : α} {l : List α} {g g' : γ} {s s' : σ} :
    (a :: l).foldlM f g s = (.ok g', s') ↔ ∃ g1 s1, f g a s = (.ok g1, s1) ∧ l.foldlM f g1 s1 = (.ok g', s') := by
  rw [List.foldlM_cons]; exact bind_ok

theorem mapM_nil_ok {f : α → Act ε σ β} {bs : List β} {s s' : σ} :
    [].mapM f s = (.ok bs, s') ↔ bs = [] ∧ s' = s := by
  rw [List.mapM_nil, pure_ok]
  exact ⟨fun h => ⟨h.1.symm, h.2.symm⟩, fun h => ⟨h.1.symm, h.2.symm⟩⟩

theorem mapM_cons_ok {f : α → Act ε σ β} {a : α} {l : List α} {bs : List β} {s s' : σ} :
    (a :: l).mapM f s = (.ok bs, s') ↔
      ∃ b s1 bs', f a s = (.ok b, s1) ∧ l.mapM f s1 = (.ok bs', s') ∧ bs = b :: bs' := by
  rw [List.mapM_cons, bind_ok]
  constructor
  · rintro ⟨b, s1, h1, h2⟩
    obtain ⟨bs', s2, h3, h4⟩ := bind_ok.mp h2
    obtain ⟨rfl, rfl⟩ := pure_ok.mp h4
    exact ⟨b, s1, bs', h1, h3, rfl⟩
  · rintro ⟨b, s1, bs', h1, h2, rfl⟩
    exact ⟨b, s1, h1, bind_ok.mpr ⟨bs', s', h2, pure_ok.mpr ⟨rfl, rfl⟩⟩⟩

theorem mapM_append_ok {f : α → Act ε σ β} {l m : List α} :
    ∀ {bs : List β} {s s' : σ}, (l ++ m).mapM f s = (.ok bs, s') ↔
      ∃ bs1 s1 bs2, l.mapM f s = (.ok bs1, s1) ∧ m.mapM f s1 = (.ok bs2, s') ∧ bs = bs1 ++ bs2 := by
  intro bs s s'
  rw [List.mapM_append, bind_ok]
  constructor
  · rintro ⟨bs1, s1, h1, h2⟩
    obtain ⟨bs2, s2, h3, h4⟩ := bind_ok.mp h2
    obtain ⟨rfl, rfl⟩ := pure_ok.mp h4
    exact ⟨bs1, s1, bs2, h1, h3, rfl⟩
  · rintro ⟨bs1, s1, bs2, h1, h2, rfl⟩
    exact ⟨bs1, s1, h1, bind_ok.mpr ⟨bs2, s', h2, pure_ok.mpr ⟨rfl, rfl⟩⟩⟩

theorem mapM_length {f : α → Act ε σ β} {l : List α} :
    ∀ {bs : List β} {s s' : σ}, l.mapM f s = (.ok bs, s') → bs.length = l.length := by
  induction l with
  | nil =>
    intro bs s s' h
    obtain ⟨rfl, -⟩ := mapM_nil_ok.mp h
    rfl
  | cons a l ih =>
    intro bs s s' h
    obtain ⟨b, s1, bs', -, h2, rfl⟩ := mapM_cons_ok.mp h
    rw [List.length_cons, ih h2, List.length_cons]

theorem mem_of_mapM {f : α → Act ε σ β} {l : List α} :
    ∀ {bs : List β} {s s' : σ}, l.mapM f s = (.ok bs, s') → ∀ {b}, b ∈ bs → ∃ a ∈ l, ∃ t t', f a t = (.ok b, t') := by
  induction l with
  | nil =>
    intro bs s s' h b hb
    obtain ⟨rfl, -⟩ := mapM_nil_ok.mp h
    cases hb
  | cons a l ih =>
    intro bs s s' h b hb
    obtain ⟨b0, s1, bs', h1, h2, rfl⟩ := mapM_cons_ok.mp h
    rcases List.mem_cons.mp hb with rfl | hb
    · exact ⟨a, List.mem_cons_self, s, s1, h1⟩
    · obtain ⟨a', ha', t, t', hrun⟩ := ih h2 hb
      exact ⟨a', List.mem_cons_of_mem _ ha', t, t', hrun⟩

/-! ## Errors -/

/-- Every error the action can end with is one of `Q`. -/
def Errs (Q : ε → Prop) (x : Act ε σ α) : Prop := ∀ s e s', x s = (.err e, s') → Q e

section Errors

variable {Q : ε → Prop}

theorem errs_pure (a : α) : Errs Q (pure a : Act ε σ α) := fun _ _ _ h => by cases h

theorem errs_read (f : σ → α) : Errs Q (read f : Act ε σ α) := fun _ _ _ h => by cases h

theorem errs_write (f : σ → σ) : Errs Q (write f : Act ε σ Unit) := fun _ _ _ h => by cases h

theorem errs_stop (w : String) : Errs Q (stop w : Act ε σ α) := fun _ _ _ h => by cases h

theorem errs_fail {e : ε} (h : Q e) : Errs Q (fail e : Act ε σ α) := fun _ _ _ he => by
  cases he
  exact h

theorem errs_lift {x : Go ε α} (h : ∀ e, x = .err e → Q e) : Errs Q (lift x : Act ε σ α) := fun _ e _ he =>
  h e (Prod.mk.inj he).1

theorem errs_bind {x : Act ε σ α} {f : α → Act ε σ β} (hx : Errs Q x) (hf : ∀ a, Errs Q (f a)) : Errs Q (x >>= f) := by
  intro s e s' h
  rw [bind_run] at h
  cases hxs : x s with
  | mk r s1 =>
    rw [hxs] at h
    cases r with
    | ok a => exact hf a s1 e s' h
    | err e1 =>
      cases h
      exact hx s e s' hxs
    | panic w => cases h

theorem errs_succeeded (x : Act ε σ α) : Errs Q (succeeded x) := by
  intro s e s' h
  unfold succeeded at h
  split at h <;> cases h

theorem errs_mapErr {f : ε → ε} {x : Act ε σ α} (hx : Errs (fun e => Q (f e)) x) : Errs Q (mapErr f x) := by
  intro s e s' h
  unfold mapErr at h
  split at h
  · rename_i hxs
    cases h
    exact hx _ _ _ hxs
  · rename_i hne
    exact absurd h (hne e s')

end Errors

/-! ## Traces

What `f` reads off the states a loop goes through. -/

/-- `f` in front of each element, where `next` is the state behind it. -/
def traceOf {δ : Type} (next : σ → α → σ) (f : σ → α → List δ) : σ → List α → List δ
  | _, [] => []
  | s, a :: l => f s a ++ traceOf next f (next s a) l

theorem foldlM_traced {γ δ : Type} {x : γ → α → Act ε σ γ} {next : σ → α → σ} (hnext : ∀ g a s, (x g a s).2 = next s a)
    {f : σ → α → List δ} {I : List δ → σ → Prop} : ∀ {l : List α} {done : List δ} {g g' : γ} {s s' : σ},
    (∀ a ∈ l, ∀ done g g' s s', x g a s = (.ok g', s') → I done s → I (done ++ f s a) s') →
    l.foldlM x g s = (.ok g', s') → I done s → I (done ++ traceOf next f s l) s' := by
  intro l
  induction l with
  | nil =>
    intro done g g' s s' _ h hi
    obtain ⟨-, rfl⟩ := pure_ok.mp h
    simpa [traceOf] using hi
  | cons a l ih =>
    intro done g g' s s' hstep h hi
    obtain ⟨g1, s1, h1, h2⟩ := foldlM_cons_ok.mp h
    have hs1 : next s a = s1 := by rw [← hnext g, h1]
    rw [traceOf, hs1, ← List.append_assoc]
    exact ih (fun b hb => hstep b (List.mem_cons_of_mem _ hb)) h2 (hstep a List.mem_cons_self _ _ _ _ _ h1 hi)

theorem mapM_traced {δ : Type} {x : α → Act ε σ β} {f : σ → α → List δ} {I : List δ → σ → Prop} :
    ∀ {l : List α} {done : List δ} {bs : List β} {s s' : σ},
    (∀ a ∈ l, ∀ done b s s', x a s = (.ok b, s') → I done s → I (done ++ f s a) s') →
    l.mapM x s = (.ok bs, s') → I done s → I (done ++ traceOf (fun s a => (x a s).2) f s l) s' := by
  intro l
  induction l with
  | nil =>
    intro done bs s s' _ h hi
    obtain ⟨-, rfl⟩ := mapM_nil_ok.mp h
    simpa [traceOf] using hi
  | cons a l ih =>
    intro done bs s s' hstep h hi
    obtain ⟨b, s1, bs', h1, h2, -⟩ := mapM_cons_ok.mp h
    have hs1 : (x a s).2 = s1 := by rw [h1]
    rw [traceOf, hs1, ← List.append_assoc]
    exact ih (fun b hb => hstep b (List.mem_cons_of_mem _ hb)) h2 (hstep a List.mem_cons_self _ _ _ _ h1 hi)

/-! ## What every run of an action does to the state

`Steps R x` holds of failed runs too: an action that fails half-way has still taken the
steps before the failure. -/

def Steps (R : σ → σ → Prop) (x : Act ε σ α) : Prop := ∀ s, R s (x s).2

section Steps

variable {R : σ → σ → Prop}

theorem Steps.run {x : Act ε σ α} (h : Steps R x) {s s' : σ} {r : Go ε α} (hx : x s = (r, s')) : R s s' := by
  have := h s
  rwa [hx] at this

theorem steps_write {f : σ → σ} (h : ∀ s, R s (f s)) : Steps R (write f : Act ε σ Unit) := h

variable [hr : Std.Refl R]

theorem steps_pure (a : α) : Steps R (pure a : Act ε σ α) := fun s => hr.refl s
theorem steps_fail (e : ε) : Steps R (fail e : Act ε σ α) := fun s => hr.refl s
theorem steps_stop (w : String) : Steps R (stop w : Act ε σ α) := fun s => hr.refl s
theorem steps_read (f : σ → α) : Steps R (read f : Act ε σ α) := fun s => hr.refl s
theorem steps_lift (x : Go ε α) : Steps R (lift x : Act ε σ α) := fun s => hr.refl s
theorem steps_check (c : Prop) [Decidable c] (e : ε) : Steps R (check c e : Act ε σ Unit) := steps_lift _

theorem steps_lift_bind {x : Go ε α} {f : α → Act ε σ β} (hf : ∀ a, x = .ok a → Steps R (f a)) :
    Steps R (lift x >>= f) := by
  cases x with
  | ok a => exact hf a rfl
  | err e => exact fun s => hr.refl s
  | panic w => exact fun s => hr.refl s

omit hr in
theorem steps_succeeded {x : Act ε σ α} (h : Steps R x) : Steps R (succeeded x) := by
  intro s
  have := h s
  unfold succeeded
  generalize x s = r at this ⊢
  rcases r with ⟨_ | _ | _, s'⟩ <;> exact this

omit hr in
theorem steps_mapErr {x : Act ε σ α} (f : ε → ε) (h : Steps R x) : Steps R (mapErr f x) := by
  intro s
  have := h s
  unfold mapErr
  generalize x s = r at this ⊢
  rcases r with ⟨_ | _ | _, s'⟩ <;> exact this

variable [ht : IsTrans σ R]

omit hr in
theorem steps_bind {x : Act ε σ α} {f : α → Act ε σ β} (hx : Steps R x) (hf : ∀ a, Steps R (f a)) :
    Steps R (x >>= f) := by
  intro s
  have h1 := hx s
  rw [bind_run]
  generalize x s = r at h1 ⊢
  rcases r with ⟨a | e | w, s1⟩
  · exact ht.trans _ _ _ h1 (hf a s1)
  · exact h1
  · exact h1

theorem steps_foldlM {γ : Type} {f : γ → α → Act ε σ γ} {l : List α} (hf : ∀ g, ∀ a ∈ l, Steps R (f g a)) :
    ∀ g, Steps R (l.foldlM f g) := by
  induction l with
  | nil => exact fun g => steps_pure g
  | cons a l ih =>
    intro g
    rw [List.foldlM_cons]
    exact steps_bind (hf g a List.mem_cons_self) fun g' => ih (fun g b hb => hf g b (List.mem_cons_of_mem _ hb)) g'

theorem steps_forM {f : α → Act ε σ PUnit} {l : List α} (hf : ∀ a ∈ l, Steps R (f a)) : Steps R (l.forM f) := by
  induction l with
  | nil => exact steps_pure _
  | cons a l ih =>
    exact steps_bind (hf a List.mem_cons_self) fun _ => ih fun a ha => hf a (List.mem_cons_of_mem _ ha)

theorem steps_mapM {f : α → Act ε σ β} {l : List α} (hf : ∀ a ∈ l, Steps R (f a)) : Steps R (l.mapM f) := by
  induction l with
  | nil => exact steps_pure []
  | cons a l ih =>
    rw [List.mapM_cons]
    exact steps_bind (hf a List.mem_cons_self) fun b =>
      steps_bind (ih fun a ha => hf a (List.mem_cons_of_mem _ ha)) fun bs => steps_pure _

end Steps

end Act

end Frg.Lib
