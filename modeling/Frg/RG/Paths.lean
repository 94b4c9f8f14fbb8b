/-
  Frg.RG.Paths — generating inclusion proofs (`core/tree/proof.go`): `Tree.GenerateProof` over
  retained layers, and `GenerateProof` which coarsens the layers again as it climbs.

  A step of a proof has the numbers of the parent and the roots of the other nodes of the
  chunk, padded; put back around the child they are the parent's children (`children_around`).

    - `path_complete`: the steps from any node of a tower climb to the root of its top, and
      each is one the canonical verifier takes.
    - `proofSteps_eq`: climbing with fresh layers gives the steps of the tower.
-/

import Frg.RG.Canonical
import Frg.RG.Tower

namespace Frg.RG

open Frg.Lib Frg.Core Frg.Wire

variable (P : Prim)

/-- An array of three, filled from the left. -/
def arrayOf3 (roots : List Hash) : Res (Vector Hash 3) :=
  if h : roots.length = 3 then .ok ⟨roots.toArray, by simp [h]⟩ else .panic "index out of range"

/-- The roots of the other nodes of a chunk, behind them those of the padding. -/
def siblingsOf (layer : List RGNode) (idx : Nat) : Res (Vector Hash 3) :=
  match layer with
  | [] => .panic "index out of range"
  | first :: _ => do
    let chunkIdx := idx / K
    let childPos := idx - chunkIdx * K
    let roots ← ((chunkAt layer chunkIdx).eraseIdx childPos).mapM (RGNode.root P)
    let pads ← (List.range (3 - roots.length)).mapM fun _ => do
      let nn ← nullNode P first.scale
      nn.root P
    arrayOf3 (roots ++ pads)

/-- The step to a parent. -/
def stepTo (parent : RGNode) (siblings : Vector Hash 3) (idx : Nat) : ProofStep :=
  { scale := parent.scale.toUInt32, volume := parent.volume, variance := parent.variance, sig := parent.sig.byte
    siblings, childIdx := (idx - idx / K * K).toUInt8 }

def leafStep (leaf : RGNode) : ProofStep :=
  { scale := leaf.scale.toUInt32, volume := leaf.volume, variance := leaf.variance, sig := leaf.sig.byte
    siblings := Vector.replicate 3 0, childIdx := 0 }

/-- The steps of `Tree.GenerateProof` above the leaf. -/
def pathSteps : List (List RGNode) → Nat → Res (List ProofStep)
  | layer :: parents :: rest, idx => do
    let siblings ← siblingsOf P layer idx
    match parents[idx / K]? with
    | none => .panic "index out of range"
    | some parent => do
      let steps ← pathSteps (parents :: rest) (idx / K)
      return stepTo parent siblings idx :: steps
  | _, _ => .ok []

def proofOutOfBounds (idx : Int) (len : Nat) : Err :=
  .rg .canonicalEncodingDistortion s!"proof index {idx} out of bounds [0, {len})"

/-- `Tree.GenerateProof`. -/
def proofIn (layers : List (List RGNode)) (idx : Int) : Res InclusionProof := do
  let leaves := layers.headD []
  Go.check (0 ≤ idx ∧ idx < leaves.length) (proofOutOfBounds idx leaves.length)
  match leaves[idx.toNat]? with
  | none => .panic "index out of range"
  | some leaf => do
    let steps ← pathSteps P layers idx.toNat
    return ⟨leafStep leaf :: steps⟩

/-- The loop of `generateStepProof`. -/
def proofSteps : Nat → List RGNode → Nat → Res (List ProofStep)
  | 0, _, _ => .panic "out of rounds"
  | n + 1, layer, idx =>
    if layer.length ≤ 1 then .ok []
    else do
      let siblings ← siblingsOf P layer idx
      let nextLayer ← coarsenLayer P layer
      match nextLayer[idx / K]? with
      | none => .panic "index out of range"
      | some parent => do
        let steps ← proofSteps n nextLayer (idx / K)
        return stepTo parent siblings idx :: steps

/-- `GenerateProof`. -/
def generateProof (txs : List Tx) (idx : Int) : Res InclusionProof := do
  Go.check (0 ≤ idx ∧ idx < txs.length) (proofOutOfBounds idx txs.length)
  let layer ← atomicLayer P txs
  match layer[idx.toNat]? with
  | none => .panic "index out of range"
  | some leaf => do
    let steps ← proofSteps P 10 layer idx.toNat
    return ⟨leafStep leaf :: steps⟩

variable {P}

/-! ## One step -/

theorem arrayOf3_ok {roots : List Hash} (h : roots.length = 3) :
    ∃ v : Vector Hash 3, arrayOf3 roots = .ok v ∧ ∀ i : Nat, v[i]? = roots[i]? := by
  refine ⟨_, dif_pos h, fun i => ?_⟩
  simp

theorem mapM_root {l : Nat} (hl : l ≤ 8) {ns : List RGNode} (h : Layer l ns) :
    ns.mapM (RGNode.root P) = .ok (ns.map (hashOf P)) := by
  rw [Go.mapM_eq_ok, List.forall₂_map_right_iff, List.forall₂_same]
  exact fun n hn => (h n hn).root_eq hl

theorem mapM_nullRoot {l : Nat} (hl : l ≤ 8) (k : Nat) :
    (List.range k).mapM (fun _ => do let nn ← nullNode P (4 ^ l); nn.root P) =
      .ok (List.replicate k (hashOf P (nullNodeAt P l))) := by
  rw [Go.mapM_eq_ok, List.forall₂_iff_get]
  refine ⟨by simp, fun i h1 h2 => ?_⟩
  rw [nullNode_eq hl, Go.ok_bind, (nullNodeAt_level P l).root_eq hl]
  simp [hashOf]

theorem siblingsOf_ok {l : Nat} (hl : l ≤ 8) {layer : List RGNode} (hlay : Layer l layer) {idx : Nat}
    (hidx : idx < layer.length) : ∃ v : Vector Hash 3, siblingsOf P layer idx = .ok v ∧
      ∀ i : Nat, v[i]? =
        (((padded P l (chunkAt layer (idx / K))).map (hashOf P)).eraseIdx (idx - idx / K * K))[i]? := by
  have hchunk : Layer l (chunkAt layer (idx / K)) := fun n hn => hlay n (mem_chunkAt hn)
  have hpos : idx - idx / K * K < (chunkAt layer (idx / K)).length := by
    simp only [chunkAt, List.length_take, List.length_drop, K]
    omega
  have hlen := length_chunkAt layer (idx / K)
  have herase : Layer l ((chunkAt layer (idx / K)).eraseIdx (idx - idx / K * K)) :=
    fun n hn => hchunk n (List.mem_of_mem_eraseIdx hn)
  have heraseLen : ((chunkAt layer (idx / K)).eraseIdx (idx - idx / K * K)).length =
      (chunkAt layer (idx / K)).length - 1 :=
    List.length_eraseIdx_of_lt hpos
  have hK : K = 4 := rfl
  have hpads : 3 - ((chunkAt layer (idx / K)).length - 1) = K - (chunkAt layer (idx / K)).length := by omega
  cases layer with
  | nil => exact absurd hidx (by simp)
  | cons first rest =>
    have hscale := (hlay first List.mem_cons_self).scale
    unfold siblingsOf
    dsimp only
    rw [mapM_root hl herase, Go.ok_bind, hscale, mapM_nullRoot hl, Go.ok_bind, List.length_map, heraseLen, hpads]
    have hthree : (((chunkAt (first :: rest) (idx / K)).eraseIdx (idx - idx / K * K)).map (hashOf P) ++
        List.replicate (K - (chunkAt (first :: rest) (idx / K)).length) (hashOf P (nullNodeAt P l))).length = 3 := by
      rw [List.length_append, List.length_map, heraseLen, List.length_replicate]
      omega
    obtain ⟨v, hv, hget⟩ := arrayOf3_ok hthree
    refine ⟨v, hv, fun i => ?_⟩
    rw [hget, padded, List.map_append, List.map_replicate, List.eraseIdx_append_of_lt_length (by rwa [List.length_map]),
      List.eraseIdx_map]

theorem children_around {hs : List Hash} (hlen : hs.length = 4) {pos : Nat} {current : Hash}
    (hcur : hs[pos]? = some current)
    {step : ProofStep} (hidx : step.childIdx.toNat = pos)
    (hsib : ∀ i : Nat, step.siblings[i]? = (hs.eraseIdx pos)[i]?) : step.children current = .ok hs := by
  obtain ⟨a, b, c, d, rfl⟩ : ∃ a b c d, hs = [a, b, c, d] := by
    rcases hs with _ | ⟨a, _ | ⟨b, _ | ⟨c, _ | ⟨d, _ | ⟨e, hs⟩⟩⟩⟩⟩
    · cases hlen
    · cases hlen
    · cases hlen
    · cases hlen
    · exact ⟨a, b, c, d, rfl⟩
    · exact absurd hlen (by simp)
  have hlt : pos < 4 := (List.getElem?_eq_some_iff.mp hcur).1
  have h0 := hsib 0
  have h1 := hsib 1
  have h2 := hsib 2
  unfold ProofStep.children
  obtain rfl | rfl | rfl | rfl : pos = 0 ∨ pos = 1 ∨ pos = 2 ∨ pos = 3 := by omega
  all_goals
    obtain rfl := Option.some.inj hcur
    simp only [Vector.getElem?_eq_getElem, Nat.zero_lt_succ, Nat.one_lt_succ_succ, Nat.lt_add_one, List.eraseIdx_zero,
      List.eraseIdx_cons_succ, List.tail_cons, List.getElem?_cons_zero, List.getElem?_cons_succ,
        Option.some.injEq] at h0 h1 h2
    simp [List.range_succ, ProofStep.child, hidx, h0, h1, h2]

theorem scale_toNat {l : Nat} {n : RGNode} (h : AtLevel l n) (hl : l ≤ 8) : n.scale.toUInt32.toNat = 4 ^ l := by
  rw [h.scale, Nat.toUInt32_eq, UInt32.toNat_ofNat_of_lt']
  exact lt_of_le_of_lt (Nat.pow_le_pow_right (by decide) hl) (by decide)

theorem childPos_lt (idx : Nat) : idx - idx / K * K < 4 := by
  simp only [K]
  omega

theorem childIdx_toNat (parent : RGNode) (siblings : Vector Hash 3) (idx : Nat) :
    (stepTo parent siblings idx).childIdx.toNat = idx - idx / K * K := by
  rw [stepTo, Nat.toUInt8_eq, UInt8.toNat_ofNat_of_lt']
  exact lt_trans (childPos_lt idx) (by decide)

theorem stepTo_bytes {l : Nat} (hl : l + 1 ≤ 8) {parent : RGNode} (h : AtLevel (l + 1) parent)
    (siblings : Vector Hash 3)
    (idx : Nat) : (stepTo parent siblings idx).nodeBytes parent.children = parent.bytes := by
  have harity : parent.children.length = 4 := h.arity
  rw [ProofStep.nodeBytes, ProofStep.header, RGNode.bytes, harity]
  show domainRGNode ++ u32 parent.scale.toUInt32.toNat ++ _ ++ _ ++ _ ++ _ ++ _ = _
  rw [scale_toNat h hl, h.scale]
  rfl

theorem leafStep_bytes {leaf : RGNode} (h : AtLevel 0 leaf) {x : Hash} (hx : leaf.children = [x]) :
    (leafStep leaf).leafBytes x = leaf.bytes := by
  rw [ProofStep.leafBytes, ProofStep.header, RGNode.bytes, hx, h.scale]
  simp [leafStep]

theorem getElem?_padded {layer : List RGNode} {l idx : Nat} {n : RGNode} (h : layer[idx]? = some n) :
    (padded P l (chunkAt layer (idx / K)))[idx - idx / K * K]? = some n := by
  have hlt := (List.getElem?_eq_some_iff.mp h).1
  have hchunk : idx - idx / K * K < (chunkAt layer (idx / K)).length := by
    simp only [chunkAt, List.length_take, List.length_drop, K]
    omega
  have hsum : K * (idx / K) + (idx - idx / K * K) = idx := by
    simp only [K]
    omega
  rw [padded, List.getElem?_append_left hchunk, chunkAt, List.getElem?_take_of_lt (show _ < K from childPos_lt idx),
    List.getElem?_drop, hsum, h]

theorem step_complete {l : Nat} (hl : l + 1 ≤ 8) {layer parents : List RGNode} (hlay : Layer l layer)
    (hp : Parents P l layer parents) {idx : Nat} {n : RGNode} (hn : layer[idx]? = some n) :
    ∃ parent siblings, parents[idx / K]? = some parent ∧ siblingsOf P layer idx = .ok siblings ∧
      climb P (hashOf P n) (stepTo parent siblings idx) = .ok (hashOf P parent) ∧
      Inner (stepTo parent siblings idx) := by
  have hlt := (List.getElem?_eq_some_iff.mp hn).1
  obtain ⟨hlen, hget⟩ := parents_iff.mp hp
  have hidx : idx / K < parents.length := by
    rw [hlen]
    simp only [K]
    omega
  obtain ⟨parent, hparent⟩ : ∃ parent, parents[idx / K]? = some parent := ⟨_, List.getElem?_eq_getElem hidx⟩
  obtain ⟨siblings, hsib, hsibs⟩ := siblingsOf_ok (P := P) (show l ≤ 8 by omega) hlay hlt
  have hchunk : Layer l (padded P l (chunkAt layer (idx / K))) := padded_layer fun m hm => hlay m (mem_chunkAt hm)
  have hisParent := (coarseGrain_parent (show l ≤ 8 by omega) hchunk (hget _ _ hparent)).2
  have hlevel : AtLevel (l + 1) parent := (hp.facts (by omega) hlay).1 parent (List.mem_of_getElem? hparent)
  have hchildren : (stepTo parent siblings idx).children (hashOf P n) = .ok parent.children := by
    rw [hisParent.children]
    refine children_around ?_ ?_ (childIdx_toNat parent siblings idx) hsibs
    · rw [List.length_map, length_padded (length_chunkAt _ _)]
      rfl
    · rw [List.getElem?_map, getElem?_padded hn]
      rfl
  refine ⟨parent, siblings, hparent, hsib, ?_, ?_, ?_, ?_⟩
  · rw [climb, hchildren, Go.ok_bind, stepTo_bytes hl hlevel]
    rfl
  · rw [UInt8.lt_iff_toNat_lt, childIdx_toNat]
    exact childPos_lt idx
  · show validScale parent.scale.toUInt32.toNat = true
    rw [scale_toNat hlevel hl]
    exact (validScale_pow _).mpr hl
  · intro hone
    have hscale := scale_toNat hlevel hl
    rw [show parent.scale.toUInt32 = 1 from hone] at hscale
    exact absurd hscale (Nat.one_lt_pow (Nat.succ_ne_zero l) (by decide)).ne

/-! ## All steps -/

theorem path_complete {l : Nat} {ls : List (List RGNode)} (h : Tower P l ls) : ∀ {layer : List RGNode} {idx : Nat}
    {n : RGNode}, ls.head? = some layer → layer[idx]? = some n →
    ∃ steps top, pathSteps P ls idx = .ok steps ∧ ls.getLast? = some [top] ∧
      steps.foldlM (climb P) (hashOf P n) = .ok (hashOf P top) ∧ ∀ step ∈ steps, Inner step := by
  induction h with
  | @top l t hl hlev =>
    intro layer idx n hhead hn
    obtain rfl := Option.some.inj hhead
    cases idx with
    | zero =>
      obtain rfl := Option.some.inj hn
      exact ⟨[], t, rfl, rfl, rfl, fun _ hs => absurd hs List.not_mem_nil⟩
    | succ idx => cases hn
  | @cons l layer parents rest hl hlay hlen hp _ ih =>
    intro layer' idx n hhead hn
    obtain rfl := Option.some.inj hhead
    obtain ⟨parent, siblings, hparent, hsib, hclimb, hinner⟩ := step_complete hl hlay hp hn
    obtain ⟨steps, top, hsteps, htop, hrest, hinners⟩ := ih rfl hparent
    refine ⟨stepTo parent siblings idx :: steps, top, ?_, ?_, ?_, ?_⟩
    · unfold pathSteps
      rw [hsib, Go.ok_bind, hparent]
      dsimp only
      rw [hsteps]
      rfl
    · rw [List.getLast?_cons_cons, htop]
    · rw [List.foldlM_cons, hclimb, Go.ok_bind, hrest]
    · intro step hstep
      rcases List.mem_cons.mp hstep with rfl | hstep
      · exact hinner
      · exact hinners step hstep

theorem proofSteps_eq {l : Nat} {ls : List (List RGNode)} (h : Tower P l ls) : ∀ {layer : List RGNode} {n idx : Nat},
    9 ≤ n + l → ls.head? = some layer → proofSteps P n layer idx = pathSteps P ls idx := by
  induction h with
  | @top l t hl hlev =>
    intro layer n idx hn hhead
    obtain rfl := Option.some.inj hhead
    cases n with
    | zero => omega
    | succ n => rfl
  | @cons l layer parents rest hl hlay hlen hp _ ih =>
    intro layer' n idx hn hhead
    obtain rfl := Option.some.inj hhead
    cases n with
    | zero => omega
    | succ n =>
      have hne : layer ≠ [] := List.length_pos_iff.mp (by omega)
      unfold proofSteps pathSteps
      rw [if_neg (by omega), (coarsenLayer_ok (by omega) hne hlay).mpr ⟨hl, hp⟩]
      simp only [Go.ok_bind]
      rw [ih (by omega) rfl]

/-- A generated proof is accepted by both verifiers for the leaf's child and the top's root. -/
theorem proofIn_complete {ls : List (List RGNode)} (h : Tower P 0 ls) {leaves : List RGNode}
    (hhead : ls.head? = some leaves) {idx : Nat} {leaf : RGNode} (hleaf : leaves[idx]? = some leaf) {x : Hash}
    (hx : leaf.children = [x]) : ∃ p top, proofIn P ls idx = .ok p ∧ ls.getLast? = some [top] ∧
      verifyProof P (some p) x (hashOf P top) = .ok true ∧ verifyProofCanonical P (some p) x (hashOf P top) = true := by
  obtain ⟨layer, rest, rfl, -, hlay, -⟩ := h.coarsen (n := 9) (by decide)
  obtain rfl := Option.some.inj hhead
  have hlt := (List.getElem?_eq_some_iff.mp hleaf).1
  have hlevel := hlay leaf (List.mem_of_getElem? hleaf)
  obtain ⟨steps, top, hsteps, htop, hclimb, hinner⟩ := path_complete h rfl hleaf
  have hscale : (leafStep leaf).scale = 1 := by
    show leaf.scale.toUInt32 = 1
    rw [hlevel.scale]
    rfl
  have haccept : verifyProof P (some ⟨leafStep leaf :: steps⟩) x (hashOf P top) = .ok true := by
    rw [verifyProof_cons hscale, leafStep_bytes hlevel hx, ← hashOf, hclimb, Go.ok_bind, Go.pure_eq, decide_eq_true rfl]
  refine ⟨⟨leafStep leaf :: steps⟩, top, ?_, htop, haccept, ?_⟩
  · unfold proofIn
    dsimp only [List.headD_cons]
    rw [Go.check_pos ⟨Int.natCast_nonneg idx, by exact_mod_cast hlt⟩, Go.ok_bind, Int.toNat_natCast, hleaf]
    dsimp only
    rw [hsteps]
    rfl
  · rw [guarded_agrees hscale hinner] at haccept
    exact Go.ok.inj haccept

/-- Over transactions only, the proof from the list is the proof from the tree. -/
theorem generateProof_eq {txs : List Tx} {leaves : List RGNode} {ls : List (List RGNode)}
    (hleaves : atomicLayer P txs = .ok leaves) (h : Tower P 0 ls) (hhead : ls.head? = some leaves) (idx : Int) :
    generateProof P txs idx = proofIn P ls idx := by
  have hlen : leaves.length = txs.length := (atomicLayer_layer hleaves).2
  have hD : ls.headD [] = leaves := by rw [List.headD_eq_head?_getD, hhead]; rfl
  unfold generateProof proofIn
  dsimp only
  rw [hD, hlen, hleaves]
  by_cases hidx : 0 ≤ idx ∧ idx < txs.length
  · rw [Go.check_pos hidx]
    simp only [Go.ok_bind]
    rw [proofSteps_eq h (by decide) hhead]
  · rw [Go.check_neg hidx]
    rfl

end Frg.RG
