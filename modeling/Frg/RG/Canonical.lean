/-
  Frg.RG.Canonical — `VerifyProofCanonical` against `VerifyProof` (`core/tree/proof.go`).

  The canonical verifier builds a node for each step of a proof and asks it for its root, so
  that the node's checks of scale and arity are made; the fast one writes the same bytes into
  a buffer without them. They also place the siblings differently: the canonical verifier
  hands them out from the left and leaves a slot empty when none is left, the fast one
  computes an index, which a child index of four or more takes out of the array.

    - `children_canonical`: for a child index below four the slots are filled alike.
    - `fast_agrees_iff`: the two agree on every root exactly when each step above the leaf
      has such an index and the scale of an inner node.
    - `fast_diverges`: a proof the fast verifier accepts and the canonical one does not, and
      one on which the fast verifier stops.
-/

import Frg.RG.Proof

namespace Frg.RG

open Frg.Lib Frg.Core Frg.Wire

variable (P : Prim)

/-- `Root` of a node made from a step; its signature may be any byte. -/
def ProofStep.root (step : ProofStep) (scale : UInt32) (children : List Hash) : Res Hash := do
  Go.check (validScale scale.toNat) (.rg .scaleDomainFault s!"invalid scale {scale}")
  let expectedChildren := if scale = 1 then 1 else 4
  Go.check (children.length = expectedChildren)
    (.rg .invalidChildArity s!"expected {expectedChildren} children, got {children.length}")
  return P.hash (step.header scale children.length ++ children.flatMap Word.bytes)

/-- The slots filled so far and the number of siblings used. -/
def ProofStep.fillSlot (step : ProofStep) (current : Hash) (filled : List Hash × Nat) (j : Nat) : List Hash × Nat :=
  if j = step.childIdx.toNat then (filled.1 ++ [current], filled.2)
  else match step.siblings[filled.2]? with
    | some sibling => (filled.1 ++ [sibling], filled.2 + 1)
    | none => (filled.1 ++ [0], filled.2)

def ProofStep.canonicalChildren (step : ProofStep) (current : Hash) : List Hash :=
  ((List.range 4).foldl (step.fillSlot current) ([], 0)).1

def climbCanonical (current : Hash) (step : ProofStep) : Res Hash :=
  step.root P step.scale (step.canonicalChildren current)

def verifyProofCanonical (p : Option InclusionProof) (txID expectedRoot : Hash) : Bool :=
  match p with
  | none => false
  | some ⟨[]⟩ => false
  | some ⟨leaf :: steps⟩ =>
    if leaf.scale ≠ 1 then false
    else match leaf.root P 1 [txID] >>= fun current => steps.foldlM (climbCanonical P) current with
      | .ok current => current = expectedRoot
      | _ => false

variable {P}

/-! ## The slots -/

theorem length_canonicalChildren (step : ProofStep) (current : Hash) : (step.canonicalChildren current).length = 4 := by
  have hfill : ∀ (js : List Nat) (filled : List Hash × Nat),
      (js.foldl (step.fillSlot current) filled).1.length = filled.1.length + js.length := by
    intro js
    induction js with
    | nil => exact fun _ => rfl
    | cons j js ih =>
      intro filled
      have hone : (step.fillSlot current filled j).1.length = filled.1.length + 1 := by
        unfold ProofStep.fillSlot
        split
        · exact List.length_append
        · split <;> exact List.length_append
      rw [List.foldl_cons, ih, hone, List.length_cons]
      omega
  exact hfill _ _

/-- Below four slots, around the child the siblings stand in their order in both verifiers. -/
theorem children_canonical {step : ProofStep} (h : step.childIdx < 4) (current : Hash) :
    step.children current = .ok (step.canonicalChildren current) := by
  have hlt : step.childIdx.toNat < 4 := UInt8.lt_iff_toNat_lt.mp h
  unfold ProofStep.children ProofStep.canonicalChildren
  obtain hc | hc | hc | hc : step.childIdx.toNat = 0 ∨ step.childIdx.toNat = 1 ∨ step.childIdx.toNat = 2 ∨
      step.childIdx.toNat = 3 := by omega
  all_goals simp [List.range_succ, ProofStep.child, ProofStep.fillSlot, hc]

/-! ## One step -/

/-- What the canonical verifier asks of a step above the leaf, and a slot for the child. -/
structure Inner (step : ProofStep) : Prop where
  slot : step.childIdx < 4
  scale : validScale step.scale.toNat = true
  above : step.scale ≠ 1

theorem climb_eq {step : ProofStep} (h : step.childIdx < 4) (current : Hash) :
    climb P current step = .ok (P.hash (step.nodeBytes (step.canonicalChildren current))) := by
  rw [climb, children_canonical h]
  rfl

theorem climbCanonical_ok {step : ProofStep} {current next : Hash} : climbCanonical P current step = .ok next ↔
    (validScale step.scale.toNat = true ∧ step.scale ≠ 1) ∧
      next = P.hash (step.nodeBytes (step.canonicalChildren current)) := by
  have hlen := length_canonicalChildren step current
  unfold climbCanonical ProofStep.root
  simp only [Go.bind_eq_ok, Go.check_eq_ok, exists_const, hlen, Go.pure_eq, Go.ok.injEq]
  rw [ProofStep.nodeBytes, eq_comm (a := next), and_assoc]
  by_cases hone : step.scale = 1
  · simp [hone]
  · simp [hone]

theorem leaf_root (leaf : ProofStep) (txID : Hash) : leaf.root P 1 [txID] = .ok (P.hash (leaf.leafBytes txID)) := by
  unfold ProofStep.root
  rw [Go.check_pos (show validScale (1 : UInt32).toNat = true by decide), Go.ok_bind]
  dsimp only
  rw [Go.check_pos (by rfl), ProofStep.leafBytes]
  simp

/-! ## All steps -/

theorem climb_inner : ∀ {steps : List ProofStep}, (∀ step ∈ steps, Inner step) → ∀ current,
    steps.foldlM (climbCanonical P) current = steps.foldlM (climb P) current := by
  intro steps
  induction steps with
  | nil => exact fun _ _ => rfl
  | cons step steps ih =>
    intro h current
    have hstep := h step List.mem_cons_self
    rw [List.foldlM_cons, List.foldlM_cons, climb_eq hstep.slot,
      climbCanonical_ok.mpr ⟨⟨hstep.scale, hstep.above⟩, rfl⟩, Go.ok_bind, Go.ok_bind]
    exact ih (fun s hs => h s (List.mem_cons_of_mem _ hs)) _

/-- The fast verifier returns only when every child has a slot. -/
theorem climb_slots {steps : List ProofStep} {current top : Hash} (h : steps.foldlM (climb P) current = .ok top) :
    ∀ step ∈ steps, step.childIdx < 4 := by
  intro step hstep
  obtain ⟨c, c', hc⟩ := Go.foldlM_ok_mem h step hstep
  obtain ⟨children, hch, -⟩ := Go.bind_eq_ok.mp hc
  exact ProofStep.children_slot hch

theorem climbCanonical_scales {steps : List ProofStep} {current top : Hash}
    (h : steps.foldlM (climbCanonical P) current = .ok top) :
    ∀ step ∈ steps, validScale step.scale.toNat = true ∧ step.scale ≠ 1 := by
  intro step hstep
  obtain ⟨c, c', hc⟩ := Go.foldlM_ok_mem h step hstep
  exact (climbCanonical_ok.mp hc).1

/-! ## The two verifiers -/

theorem verifyProof_cons {leaf : ProofStep} (hleaf : leaf.scale = 1) (steps : List ProofStep)
    (txID expectedRoot : Hash) :
    verifyProof P (some ⟨leaf :: steps⟩) txID expectedRoot =
      steps.foldlM (climb P) (P.hash (leaf.leafBytes txID)) >>= fun current =>
        pure (decide (current = expectedRoot)) := by
  unfold verifyProof
  exact if_neg (not_not.mpr hleaf)

theorem verifyProofCanonical_cons {leaf : ProofStep} (hleaf : leaf.scale = 1) (steps : List ProofStep)
    (txID expectedRoot : Hash) : verifyProofCanonical P (some ⟨leaf :: steps⟩) txID expectedRoot = true ↔
      steps.foldlM (climbCanonical P) (P.hash (leaf.leafBytes txID)) = .ok expectedRoot := by
  unfold verifyProofCanonical
  dsimp only
  rw [if_neg (not_not.mpr hleaf), leaf_root, Go.ok_bind]
  cases hclimb : steps.foldlM (climbCanonical P) (P.hash (leaf.leafBytes txID)) with
  | ok top => simp
  | err e => simp
  | panic w => simp

/-- A proof above whose leaf every step is that of an inner node with a slot for the child; a
    proof both verifiers turn down at once is one too. -/
def Guarded : Option InclusionProof → Prop
  | none => True
  | some ⟨[]⟩ => True
  | some ⟨leaf :: steps⟩ => leaf.scale = 1 → ∀ step ∈ steps, Inner step

theorem guarded_agrees {leaf : ProofStep} (hleaf : leaf.scale = 1) {steps : List ProofStep}
    (h : ∀ step ∈ steps, Inner step) (txID expectedRoot : Hash) :
    verifyProof P (some ⟨leaf :: steps⟩) txID expectedRoot =
      .ok (verifyProofCanonical P (some ⟨leaf :: steps⟩) txID expectedRoot) := by
  obtain ⟨top, htop⟩ := climb_isOk (P := P) (fun s hs => (h s hs).slot) (P.hash (leaf.leafBytes txID))
  have hcanonical := verifyProofCanonical_cons (P := P) hleaf steps txID expectedRoot
  rw [climb_inner h, htop, Go.ok.injEq] at hcanonical
  rw [verifyProof_cons hleaf, htop]
  exact congrArg Go.ok (Bool.eq_iff_iff.mpr (by rw [hcanonical, decide_eq_true_iff]))

theorem off_scale_agrees {leaf : ProofStep} (hleaf : leaf.scale ≠ 1) (steps : List ProofStep)
    (txID expectedRoot : Hash) :
    verifyProof P (some ⟨leaf :: steps⟩) txID expectedRoot =
      .ok (verifyProofCanonical P (some ⟨leaf :: steps⟩) txID expectedRoot) := by
  unfold verifyProof verifyProofCanonical
  dsimp only
  rw [if_pos hleaf, if_pos hleaf]

/-- For one proof and one ID: the fast verifier returns what the canonical one does, whatever the
    root, exactly for a guarded proof. -/
theorem fast_agrees_iff (p : Option InclusionProof) (txID : Hash) :
    (∀ expectedRoot, verifyProof P p txID expectedRoot = .ok (verifyProofCanonical P p txID expectedRoot)) ↔
      Guarded p := by
  cases p with
  | none => exact iff_of_true (fun _ => rfl) trivial
  | some p =>
    obtain ⟨steps⟩ := p
    cases steps with
    | nil => exact iff_of_true (fun _ => rfl) trivial
    | cons leaf steps =>
      by_cases hleaf : leaf.scale = 1
      · refine ⟨fun hagree _ step hstep => ?_, fun h => guarded_agrees hleaf (h hleaf) txID⟩
        have hfast := hagree 0
        rw [verifyProof_cons hleaf] at hfast
        obtain ⟨top, htop, -⟩ := Go.bind_eq_ok.mp hfast
        -- the root the fast verifier climbs to is accepted by both
        have haccept := hagree top
        rw [verifyProof_cons hleaf, htop] at haccept
        have htrue : verifyProofCanonical P (some ⟨leaf :: steps⟩) txID top = true := by
          rw [← Go.ok.inj haccept]
          exact decide_eq_true rfl
        obtain ⟨hscale, habove⟩ := climbCanonical_scales ((verifyProofCanonical_cons hleaf _ _ _).mp htrue) step hstep
        exact ⟨climb_slots htop step hstep, hscale, habove⟩
      · exact iff_of_true (off_scale_agrees hleaf steps txID) fun h => absurd h hleaf

/-- A leaf below one more step. -/
def twoSteps (scale : UInt32) (childIdx : UInt8) : InclusionProof :=
  ⟨[⟨1, 0, 0, 1, Vector.replicate 3 0, 0⟩, ⟨scale, 0, 0, 3, Vector.replicate 3 0, childIdx⟩]⟩

/-- What the fast verifier climbs to, if it gets there. -/
def climbedTo (p : InclusionProof) (txID : Hash) : Hash :=
  match p.steps with
  | [] => 0
  | leaf :: steps =>
    match steps.foldlM (climb Prim.sample) (Prim.sample.hash (leaf.leafBytes txID)) with
    | .ok top => top
    | _ => 0

/-- The scale 5 is none a node can have; a fifth child has no slot. -/
theorem fast_diverges :
    (verifyProof Prim.sample (some (twoSteps 5 0)) 7 (climbedTo (twoSteps 5 0) 7) = .ok true ∧
      verifyProofCanonical Prim.sample (some (twoSteps 5 0)) 7 (climbedTo (twoSteps 5 0) 7) = false) ∧
    (verifyProof Prim.sample (some (twoSteps 4 4)) 7 0 = .panic "index out of range" ∧
      verifyProofCanonical Prim.sample (some (twoSteps 4 4)) 7 0 = false) := by
  decide +kernel

end Frg.RG
