/-
  Frg.RG.Proof — inclusion proofs (`core/tree/proof.go`): what `VerifyProof` accepts.

  The verifier writes the bytes of a leaf and of each node above it itself, from numbers and
  siblings the proof gives. The children of a tree's nodes are roots of its nodes or of the
  padding (`Topped.closed`), so a climb that ends at the tree's root never left it
  (`climb_inside`), and the number of children tells a leaf from the nodes above it.

    - `verifyProof_returns`: the verifier returns when every child index is below four.
    - `proof_sound`: whatever the proof, an accepted ID is that of a listed transaction.
-/

import Frg.RG.Commitment
import Frg.Wire.Signing

namespace Frg.RG

open Frg.Lib Frg.Core Frg.Wire

structure ProofStep where
  scale : UInt32
  volume : Word 32
  variance : Word 32
  sig : UInt8
  siblings : Vector Hash 3
  childIdx : UInt8

structure InclusionProof where
  steps : List ProofStep

/-- The bytes of a node before its children. -/
def ProofStep.header (step : ProofStep) (scale : UInt32) (arity : Nat) : List UInt8 :=
  domainRGNode ++ u32 scale.toNat ++ step.volume.bytes ++ step.variance.bytes ++ [step.sig] ++ u16 arity

def ProofStep.leafBytes (leaf : ProofStep) (txID : Hash) : List UInt8 := leaf.header 1 1 ++ txID.bytes

/-- The child in slot `j`: the siblings stand around the root climbed to so far. -/
def ProofStep.child (step : ProofStep) (current : Hash) (j : Nat) : Res Hash :=
  if j = step.childIdx.toNat then .ok current
  else
    let sibIdx := if step.childIdx.toNat < j then j - 1 else j
    match step.siblings[sibIdx]? with
    | some sibling => .ok sibling
    | none => .panic "index out of range"

def ProofStep.children (step : ProofStep) (current : Hash) : Res (List Hash) :=
  (List.range 4).mapM (step.child current)

def ProofStep.nodeBytes (step : ProofStep) (children : List Hash) : List UInt8 :=
  step.header step.scale 4 ++ children.flatMap Word.bytes

variable (P : Prim)

def climb (current : Hash) (step : ProofStep) : Res Hash := do
  let children ← step.children current
  return P.hash (step.nodeBytes children)

def verifyProof (p : Option InclusionProof) (txID expectedRoot : Hash) : Res Bool :=
  match p with
  | none => .ok false
  | some ⟨[]⟩ => .ok false
  | some ⟨leaf :: steps⟩ =>
    if leaf.scale ≠ 1 then .ok false
    else do
      let current ← steps.foldlM (climb P) (P.hash (leaf.leafBytes txID))
      return current = expectedRoot

/-- The bytes the verifier hashes on its way up. -/
def climbed : Hash → List ProofStep → List (List UInt8)
  | _, [] => []
  | current, step :: steps =>
    match step.children current with
    | .ok children => step.nodeBytes children :: climbed (P.hash (step.nodeBytes children)) steps
    | _ => []

/-- All the bytes the verifier hashes. -/
def proofInputs (p : InclusionProof) (txID : Hash) : List (List UInt8) :=
  match p.steps with
  | [] => []
  | leaf :: steps => leaf.leafBytes txID :: climbed P (P.hash (leaf.leafBytes txID)) steps

variable {P}

/-! ## The verifier returns -/

theorem ProofStep.children_isOk {step : ProofStep} (h : step.childIdx < 4) (current : Hash) :
    ∃ children, step.children current = .ok children := by
  have hidx : step.childIdx.toNat < 4 := UInt8.lt_iff_toNat_lt.mp h
  obtain ⟨children, hch⟩ :=
    Go.forall₂_exists (R := fun j n => step.child current j = .ok n) (l := List.range 4) fun j hj => by
    have hj := List.mem_range.mp hj
    unfold ProofStep.child
    by_cases hcur : j = step.childIdx.toNat
    · exact ⟨current, if_pos hcur⟩
    · -- three siblings fill the slots around the child's
      have hsib : (if step.childIdx.toNat < j then j - 1 else j) < 3 := by split <;> omega
      rw [if_neg hcur]
      dsimp only
      rw [Vector.getElem?_eq_getElem hsib]
      exact ⟨_, rfl⟩
  exact ⟨children, Go.mapM_eq_ok.mpr hch⟩

theorem climb_isOk : ∀ {steps : List ProofStep}, (∀ step ∈ steps, step.childIdx < 4) → ∀ current,
    ∃ top, steps.foldlM (climb P) current = .ok top := by
  intro steps
  induction steps with
  | nil => exact fun _ current => ⟨current, rfl⟩
  | cons step steps ih =>
    intro h current
    obtain ⟨children, hch⟩ := ProofStep.children_isOk (h step List.mem_cons_self) current
    obtain ⟨top, htop⟩ := ih (fun s hs => h s (List.mem_cons_of_mem _ hs)) (P.hash (step.nodeBytes children))
    refine ⟨top, ?_⟩
    rw [List.foldlM_cons, climb, hch]
    exact htop

theorem verifyProof_returns {p : InclusionProof} (h : ∀ step ∈ p.steps, step.childIdx < 4) (txID expectedRoot : Hash) :
    ∃ accepted, verifyProof P (some p) txID expectedRoot = .ok accepted := by
  obtain ⟨steps⟩ := p
  cases steps with
  | nil => exact ⟨false, rfl⟩
  | cons leaf steps =>
    obtain ⟨top, htop⟩ :=
      climb_isOk (P := P) (fun s hs => h s (List.mem_cons_of_mem _ hs)) (P.hash (leaf.leafBytes txID))
    unfold verifyProof
    dsimp only
    rw [htop]
    split
    · exact ⟨false, rfl⟩
    · exact ⟨_, rfl⟩

/-! ## The nodes of a tree -/

/-- A node above roots of nodes of `N`. -/
structure Above (P : Prim) (N : List RGNode) (n : RGNode) : Prop where
  arity : n.children.length = 4
  children : ∀ r ∈ n.children, ∃ c ∈ N, r = hashOf P c

theorem Above.mono {N N' : List RGNode} {n : RGNode} (h : Above P N n) (hsub : ∀ c ∈ N, c ∈ N') : Above P N' n := by
  refine ⟨h.arity, fun r hr => ?_⟩
  obtain ⟨c, hc, hrc⟩ := h.children r hr
  exact ⟨c, hsub c hc, hrc⟩

theorem nullNodes_above {n : RGNode} (h : n ∈ nullNodes P) : n = nullNodeAt P 0 ∨ Above P (nullNodes P) n := by
  obtain ⟨l, hl, rfl⟩ := List.mem_map.mp h
  have hl := List.mem_range.mp hl
  cases l with
  | zero => exact .inl rfl
  | succ l =>
    refine .inr ⟨by simp [nullNodeAt], fun r hr => ⟨nullNodeAt P l, nullNodeAt_mem P (by omega), ?_⟩⟩
    exact List.eq_of_mem_replicate hr

theorem Parents.above {l : Nat} (hl : l ≤ 8) {layer parents : List RGNode} (hlay : Layer l layer)
    (h : Parents P l layer parents) : ∀ p ∈ parents, Above P (layer ++ nullNodes P) p := by
  intro p hp
  obtain ⟨c, hc, hpiece⟩ := Go.forall₂_left (h.pieces hl hlay) hp
  obtain ⟨-, hlen, hsub⟩ := mem_chunks hc
  have hch := hpiece.2.children
  refine ⟨by rw [hch, List.length_map, length_padded hlen]; rfl, fun r hr => ?_⟩
  rw [hch] at hr
  obtain ⟨x, hx, rfl⟩ := List.mem_map.mp hr
  exact ⟨x, mem_padded hl hsub hx, rfl⟩

/-- Every node of a coarsened layer is one of its own or stands above others. -/
theorem coarsen_above : ∀ {n l : Nat} {layer : List RGNode} {ls : List (List RGNode)}, l ≤ 8 → layer ≠ [] →
    Layer l layer → coarsen P n layer = .ok ls →
    ∀ x ∈ ls.flatten, x ∈ layer ∨ Above P (ls.flatten ++ nullNodes P) x := by
  intro n
  induction n with
  | zero => intro l layer ls _ _ _ h; cases h
  | succ n ih =>
    intro l layer ls hl hne hlay h x hx
    by_cases h1 : layer.length ≤ 1
    · rw [coarsen_one h1] at h
      obtain rfl := Go.ok.inj h
      exact .inl (by simpa using hx)
    · obtain ⟨parents, rest, hc, hrest, rfl⟩ := (coarsen_cons (by omega)).mp h
      obtain ⟨hl', hp⟩ := (coarsenLayer_ok hl hne hlay).mp hc
      obtain ⟨hlay', -, -, hplen⟩ := hp.facts hl hlay
      have hgrow : ∀ {N : List RGNode}, (∀ c ∈ N, c ∈ (layer :: rest).flatten) →
          ∀ c ∈ N ++ nullNodes P, c ∈ (layer :: rest).flatten ++ nullNodes P := fun hN c hc =>
        (List.mem_append.mp hc).elim (fun hc => List.mem_append_left _ (hN c hc)) (List.mem_append_right _)
      rw [List.flatten_cons] at hx hgrow ⊢
      rcases List.mem_append.mp hx with hx | hx
      · exact .inl hx
      · rcases ih hl' (List.length_pos_iff.mp (by omega)) hlay' hrest x hx with hx | hx
        · exact .inr ((hp.above hl hlay x hx).mono (hgrow fun c hc => List.mem_append_left _ hc))
        · exact .inr (hx.mono (hgrow fun c hc => List.mem_append_right _ hc))

/-! ## Climbing -/

theorem ProofStep.children_get {step : ProofStep} {current : Hash} {children : List Hash}
    (h : step.children current = .ok children) : children.length = 4 ∧
      ∀ (j : Nat) (hj : j < children.length), step.child current j = .ok children[j] := by
  have h := Go.mapM_eq_ok.mp h
  have hlen : children.length = 4 := h.length_eq.symm
  exact ⟨hlen, fun j hj => by simpa using h.get (i := j) (by simpa [hlen] using hj) hj⟩

/-- With no slot for the child the last one takes a fourth sibling. -/
theorem ProofStep.children_slot {step : ProofStep} {current : Hash} {children : List Hash}
    (h : step.children current = .ok children) : step.childIdx < 4 := by
  obtain ⟨hlen, hslot⟩ := ProofStep.children_get h
  rw [UInt8.lt_iff_toNat_lt]
  by_contra hidx
  have hidx : 4 ≤ step.childIdx.toNat := not_lt.mp hidx
  have hlast := hslot 3 (by omega)
  rw [ProofStep.child, if_neg (by omega)] at hlast
  dsimp only at hlast
  rw [if_neg (by omega), Vector.getElem?_eq_none (le_refl 3)] at hlast
  cases hlast

theorem ProofStep.children_ok {step : ProofStep} {current : Hash} {children : List Hash}
    (h : step.children current = .ok children) : children.length = 4 ∧ current ∈ children := by
  obtain ⟨hlen, hslot⟩ := ProofStep.children_get h
  have hidx : step.childIdx.toNat < 4 := UInt8.lt_iff_toNat_lt.mp (ProofStep.children_slot h)
  refine ⟨hlen, ?_⟩
  have hcur := hslot step.childIdx.toNat (by omega)
  rw [ProofStep.child, if_pos rfl] at hcur
  rw [Go.ok.inj hcur]
  exact List.getElem_mem _

theorem header_append_inj {step : ProofStep} {scale : UInt32} {arity : Nat} {children : List Hash} {n : RGNode}
    (h : step.header scale arity ++ children.flatMap Word.bytes = n.bytes) : n.children = children := by
  unfold RGNode.bytes at h
  exact (flatMap_bytes_inj (List.append_inj h (by simp [ProofStep.header, u32, u16])).2).symm

/-- No two different byte strings, of those the verifier hashes and of the nodes', collide. -/
def InputsApart (P : Prim) (inputs : List (List UInt8)) (N : List RGNode) : Prop :=
  ∀ b ∈ inputs, ∀ n ∈ N, NoCollision P.hash b n.bytes

/-- A climb that ends at the root of a node of a tree began at one. -/
theorem climb_inside {N : List RGNode} (hN : ∀ n ∈ N, n.children.length = 1 ∨ Above P N n) :
    ∀ {steps : List ProofStep} {current top : Hash}, steps.foldlM (climb P) current = .ok top →
    InputsApart P (climbed P current steps) N → (∃ n ∈ N, top = hashOf P n) → ∃ n ∈ N, current = hashOf P n := by
  intro steps
  induction steps with
  | nil =>
    intro current top h _ htop
    obtain rfl := Go.ok.inj h
    exact htop
  | cons step steps ih =>
    intro current top h hap htop
    rw [List.foldlM_cons] at h
    obtain ⟨next, h1, h⟩ := Go.bind_eq_ok.mp h
    obtain ⟨children, hch, h1⟩ := Go.bind_eq_ok.mp h1
    obtain rfl := Go.ok.inj h1
    rw [climbed, hch] at hap
    obtain ⟨n, hn, hnext⟩ := ih h (fun b hb => hap b (List.mem_cons_of_mem _ hb)) htop
    obtain rfl := header_append_inj (hap _ List.mem_cons_self n hn hnext)
    obtain ⟨hlen, hmem⟩ := ProofStep.children_ok hch
    rcases hN n hn with hone | habove
    · omega
    · exact habove.children current hmem

theorem id_ne_nullPad {t : Tx} {x : Hash} (h : t.id P = .ok x)
    (hap : ∀ s, serializeUnsigned P t = .ok s → NoCollision P.hash s domainNullPad) : x ≠ nullPadChildRoot P := by
  rintro rfl
  obtain ⟨s, hs, h⟩ := Go.bind_eq_ok.mp h
  have hpad := hap s hs (Go.ok.inj h)
  obtain ⟨_, _, -, -, -, -, -, rfl⟩ := serializeUnsigned_ok hs
  exact absurd (List.cons.inj hpad).1 (by decide)

/-! ## Soundness -/

theorem Topped.closed {tree : Tree} {top : RGNode} (h : Topped P tree top) (hleaves : ∀ n ∈ tree.leaves, Leaf n) :
    ∀ n ∈ tree.layers.flatten ++ nullNodes P,
      n ∈ tree.leaves ∨ n = nullNodeAt P 0 ∨ Above P (tree.layers.flatten ++ nullNodes P) n := by
  intro n hn
  rcases List.mem_append.mp hn with hn | hn
  · exact (coarsen_above (Nat.zero_le 8) h.leaves (fun n hn => (hleaves n hn).level) h.coarsened n hn).imp_right .inr
  · exact .inr ((nullNodes_above hn).imp_right fun h => h.mono fun c hc => List.mem_append_right _ hc)

theorem verifyProof_ok {leaf : ProofStep} {steps : List ProofStep} {txID expectedRoot : Hash}
    (h : verifyProof P (some ⟨leaf :: steps⟩) txID expectedRoot = .ok true) :
    steps.foldlM (climb P) (P.hash (leaf.leafBytes txID)) = .ok expectedRoot := by
  unfold verifyProof at h
  dsimp only at h
  split at h
  · cases h
  · obtain ⟨current, hcur, h⟩ := Go.bind_eq_ok.mp h
    rw [hcur, of_decide_eq_true (Go.ok.inj h)]

/-- A proof that is accepted against the root of a tree is for a listed transaction. -/
theorem proof_sound {txs : List Tx} {tree : Tree} (hne : txs ≠ []) (hbuild : buildTree P txs [] = .ok tree) {t : Tx}
    {x : Hash} (hid : t.id P = .ok x) {p : InclusionProof}
    (hap : InputsApart P (proofInputs P p x) (tree.layers.flatten ++ nullNodes P))
    (hpad : ∀ s, serializeUnsigned P t = .ok s → NoCollision P.hash s domainNullPad)
    (h : verifyProof P (some p) x tree.root = .ok true) : ∃ u ∈ txs, u.id P = .ok x := by
  obtain ⟨⟨leaves, hl, hhead⟩, hleaves, hcase⟩ := buildTree_leaves (fun n hn => absurd hn List.not_mem_nil) hbuild
  rw [List.append_nil] at hhead
  rcases hcase with ⟨hnil, -⟩ | ⟨top, htop⟩
  · have hlen := (atomicLayer_layer hl).2
    rw [← hhead, hnil] at hlen
    exact absurd (List.length_eq_zero_iff.mp hlen.symm) hne
  have hclosed := htop.closed hleaves
  obtain ⟨steps⟩ := p
  cases steps with
  | nil => cases h
  | cons leaf steps =>
    have hone : ∀ n ∈ tree.layers.flatten ++ nullNodes P,
        n.children.length = 1 ∨ Above P (tree.layers.flatten ++ nullNodes P) n := fun n hn => by
      rcases hclosed n hn with hn | rfl | hn
      · exact .inl (hleaves n hn).level.arity
      · exact .inl rfl
      · exact .inr hn
    obtain ⟨n, hn, hhash⟩ := climb_inside hone (verifyProof_ok h) (fun b hb => hap b (List.mem_cons_of_mem _ hb))
      ⟨top, List.mem_append_left _ htop.mem_layers, htop.root⟩
    -- the bytes of the node the climb began at have the ID as their only child
    have hbytes := hap _ List.mem_cons_self n hn hhash
    rw [ProofStep.leafBytes, show x.bytes = [x].flatMap Word.bytes by simp] at hbytes
    have hchild := header_append_inj hbytes
    rcases hclosed n hn with hleaf | rfl | habove
    · rw [hhead] at hleaf
      obtain ⟨u, hu, hnode⟩ := Go.mem_of_mapM hl hleaf
      obtain ⟨-, -, -, y, hy, hych⟩ := makeAtomicNode_ok hnode
      obtain rfl := List.singleton_inj.mp (hych.symm.trans hchild)
      exact ⟨u, hu, hy⟩
    · exact absurd (List.singleton_inj.mp hchild).symm (id_ne_nullPad hid hpad)
    · have harity := habove.arity
      rw [hchild] at harity
      cases harity

/-- The proof for the first of two leaves. -/
def firstOfTwo (tree : Tree) : InclusionProof :=
  match tree.layers with
  | [[first, second], [top]] =>
    let pads := Vector.replicate 3 (hashOf Prim.sample (nullNodeAt Prim.sample 0))
    ⟨[⟨1, first.volume, first.variance, first.sig.byte, pads, 0⟩,
      ⟨4, top.volume, top.variance, top.sig.byte, pads.set 0 (hashOf Prim.sample second), 0⟩]⟩
  | _ => ⟨[]⟩

theorem proof_sound_transfers : ∃ tree x, buildTree Prim.sample (transfersOf 1) [] = .ok tree ∧
    verifyProof Prim.sample (some (firstOfTwo tree)) x tree.root = .ok true ∧
    ∃ u ∈ transfersOf 1, u.id Prim.sample = .ok x := by
  have hrun : (do
      let tree ← buildTree Prim.sample (transfersOf 1) []
      let s ← serializeUnsigned Prim.sample (Tx.plain .transfer 1 9 10 1)
      let p := firstOfTwo tree
      let x := Prim.sample.hash s
      Go.check (verifyProof Prim.sample (some p) x tree.root = .ok true ∧
        (∀ b ∈ proofInputs Prim.sample p x, ∀ n ∈ tree.layers.flatten ++ nullNodes Prim.sample,
          Prim.sample.hash b = Prim.sample.hash n.bytes → b = n.bytes) ∧
        (Prim.sample.hash s = Prim.sample.hash domainNullPad → s = domainNullPad)) (.plain "collision") : Res Unit) =
      .ok () := by
    decide +kernel
  obtain ⟨tree, hbuild, hrun⟩ := Go.bind_eq_ok.mp hrun
  obtain ⟨s, hs, hrun⟩ := Go.bind_eq_ok.mp hrun
  obtain ⟨haccept, hap, hpad⟩ := Go.check_eq_ok.mp hrun
  have hid : (Tx.plain .transfer 1 9 10 1).id Prim.sample = .ok (Prim.sample.hash s) := by rw [Tx.id, hs]; rfl
  have hpad' : ∀ s', serializeUnsigned Prim.sample (Tx.plain .transfer 1 9 10 1) = .ok s' →
      NoCollision Prim.sample.hash s' domainNullPad := by
    intro s' hs'
    obtain rfl := Go.ok.inj (hs.symm.trans hs')
    exact hpad
  exact ⟨tree, _, hbuild, haccept, proof_sound (List.cons_ne_nil _ _) hbuild hid hap hpad' haccept⟩

end Frg.RG
