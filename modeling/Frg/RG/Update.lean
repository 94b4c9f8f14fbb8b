/-
  Frg.RG.Update — incremental updates of a retained tree (`core/tree/tree.go`: `UpdateLeaf`,
  `UpdateLeaves`, `rebuildChunk`, `Root`).

  An update sorts the changes by index, keeps the last of each index, writes the new leaves
  into the tree one by one, and then rebuilds the parents above them level by level. The sort
  is not stable and the maps are enumerated in any order (`Choices`). Errors are returned from
  the middle of this, with what was written left in place and `dirty` not set.

    - `writeLeaves_run`: the leaves are written up to the first change that is refused.
    - `rebuildLevels_ok`: rebuilding the parents above the changed positions gives the tower
      over the new leaves.
    - `rebuildLevels_fixed`: over leaves that have not changed it changes nothing.
    - `updateLeaves_ok`, `updateLeaves_err`: what a whole update leaves behind.
-/

import Frg.RG.Paths
import Frg.Lib.Orders

namespace Frg.RG

open Frg.Lib Frg.Core Frg.Wire

structure LeafUpdate where
  index : Int
  tx : Tx
  deriving DecidableEq, Repr

/-- A retained tree. While it is dirty its root is that of the tree before. -/
structure LiveTree extends Tree where
  dirty : Bool

def Tree.live (tree : Tree) : LiveTree := { tree with dirty := false }

/-- What the language leaves open in one call: the sort, and the orders of its maps. -/
structure Choices where
  sort : UnstableSort LeafUpdate.index
  keys : RangeOrder Int
  parents : Nat → RangeOrder Nat

abbrev OnTree := Act Err LiveTree

variable (P : Prim)

/-- `t.layers[level][i] = n`. -/
def storeNode (level i : Nat) (n : RGNode) : OnTree Unit := fun t =>
  match t.layers[level]? with
  | none => (.panic "index out of range", t)
  | some layer =>
    if i < layer.length then (.ok (), { t with layers := t.layers.set level (layer.set i n) })
    else (.panic "index out of range", t)

/-- One change of the first loop of `UpdateLeaves`. -/
def writeLeaf (u : LeafUpdate) : OnTree Unit := do
  let leafLayer ← Act.read fun t => t.leaves
  Act.check (0 ≤ u.index ∧ u.index < leafLayer.length)
    (.rg .canonicalEncodingDistortion s!"leaf index {u.index} out of bounds [0, {leafLayer.length})")
  match leafLayer[u.index.toNat]? with
  | none => Act.stop "index out of range"
  | some leaf => do
    Act.check (leaf.sig = .atomic) (.rg .canonicalEncodingDistortion s!"leaf at index {u.index} is not an atomic node")
    let newNode ← Act.lift (makeAtomicNode P u.tx)
    storeNode 0 u.index.toNat newNode

def rebuildChunk (layers : List (List RGNode)) (level parent : Nat) : Res RGNode :=
  match layers[level]? with
  | none => .panic "index out of range"
  | some [] => .panic "index out of range"
  | some (first :: rest) =>
    if (first :: rest).length < parent * K then .panic "slice bounds out of range"
    else do
      let chunk := chunkAt (first :: rest) parent
      let pads ← (List.range (K - chunk.length)).mapM fun _ => nullNode P first.scale
      coarseGrain P (chunk ++ pads) (first.scale * K)

def rebuildParent (level parent : Nat) : OnTree Unit := do
  let layers ← Act.read fun t => t.layers
  let newNode ← Act.lift (rebuildChunk P layers level parent)
  storeNode (level + 1) parent newNode

/-- One level: the dirty positions above the given ones, rebuilt in the order of their map. -/
def rebuildLevel (parents : Nat → RangeOrder Nat) (dirtyPositions : List Nat) (level : Nat) : OnTree (List Nat) := do
  let parentDirty := (dirtyPositions.map (· / K)).dedup
  ((parents level).list parentDirty).forM (rebuildParent P level)
  return parentDirty

/-- The changes in the order they are written: the last of each index after the sort. -/
def winners (c : Choices) (updates : List LeafUpdate) : List LeafUpdate :=
  c.sort.run (dedupe LeafUpdate.index c.keys (c.sort.run updates))

/-- `UpdateLeaves`. -/
def updateLeaves (c : Choices) (updates : List LeafUpdate) : OnTree Unit :=
  if updates = [] then pure ()
  else do
    let sorted := winners c updates
    sorted.forM (writeLeaf P)
    let depth ← Act.read fun t => t.layers.length
    let _ ← (List.range (depth - 1)).foldlM (rebuildLevel P c.parents) (sorted.map fun u => u.index.toNat)
    Act.write fun t => { t with dirty := true }

def updateLeaf (c : Choices) (index : Int) (newTx : Tx) : OnTree Unit := updateLeaves P c [⟨index, newTx⟩]

/-- `Root`: recomputes a dirty root and keeps it. -/
def liveRoot : OnTree Hash := fun t =>
  if t.dirty then
    match t.layers.getLast? with
    | some (top :: _) =>
      match top.root P with
      | .ok root => (.ok root, { t with root, dirty := false })
      | .err _ => (.ok t.root, t)
      | .panic w => (.panic w, t)
    | _ => (.panic "index out of range", t)
  else (.ok t.root, t)

variable {P}

/-! ## Writing leaves -/

/-- The change `u` is made to `leaves` with the leaf `n`. -/
structure Accepted (P : Prim) (leaves : List RGNode) (u : LeafUpdate) (n : RGNode) : Prop where
  range : 0 ≤ u.index ∧ u.index < leaves.length
  atomic : (leaves[u.index.toNat]?.map RGNode.sig) = some .atomic
  node : makeAtomicNode P u.tx = .ok n

/-- The change `u` is turned down. -/
def Refused (P : Prim) (leaves : List RGNode) (u : LeafUpdate) : Prop := ∀ n, ¬ Accepted P leaves u n

theorem Accepted.lt {leaves : List RGNode} {u : LeafUpdate} {n : RGNode} (h : Accepted P leaves u n) :
    u.index.toNat < leaves.length := by
  have := h.range
  omega

theorem storeNode_ok {t : LiveTree} {level i : Nat} {layer : List RGNode} (hl : t.layers[level]? = some layer)
    (hi : i < layer.length) (n : RGNode) :
    storeNode level i n t = (.ok (), { t with layers := t.layers.set level (layer.set i n) }) := by
  unfold storeNode
  rw [hl]
  exact if_pos hi

theorem writeLeaf_cases {t : LiveTree} {leaves : List RGNode} {rest : List (List RGNode)}
    (ht : t.layers = leaves :: rest) (u : LeafUpdate) :
    (∃ n, Accepted P leaves u n ∧
      writeLeaf P u t = (.ok (), { t with layers := leaves.set u.index.toNat n :: rest })) ∨
    (Refused P leaves u ∧ ∃ r, writeLeaf P u t = (r, t) ∧ ∀ b, r ≠ .ok b) := by
  have hleaves : t.leaves = leaves := by rw [Tree.leaves, ht]; rfl
  unfold writeLeaf
  rw [Act.read_bind, hleaves]
  by_cases hrange : 0 ≤ u.index ∧ u.index < leaves.length
  · have hlt : u.index.toNat < leaves.length := by omega
    rw [Act.check_bind hrange, List.getElem?_eq_getElem hlt]
    dsimp only
    by_cases hatomic : leaves[u.index.toNat].sig = .atomic
    · rw [Act.check_bind hatomic]
      by_cases hnode : ∃ n, makeAtomicNode P u.tx = .ok n
      · obtain ⟨n, hn⟩ := hnode
        rw [Act.lift_bind hn, storeNode_ok (by rw [ht]; rfl) hlt, ht]
        exact .inl ⟨n, ⟨hrange, by rw [List.getElem?_eq_getElem hlt, Option.map_some, hatomic], hn⟩, rfl⟩
      · exact .inr ⟨fun n hn => hnode ⟨n, hn.node⟩, Act.lift_bind_fails (fun n hn => hnode ⟨n, hn⟩) _ _⟩
    · refine .inr ⟨fun n hn => hatomic ?_, Act.check_bind_fails hatomic _ _ _⟩
      have := hn.atomic
      rw [List.getElem?_eq_getElem hlt, Option.map_some] at this
      exact Option.some.inj this
  · exact .inr ⟨fun n hn => hrange hn.range, Act.check_bind_fails hrange _ _ _⟩

/-- `leaves'` is `leaves` with the changes `us` made, one an index. -/
structure Laid (P : Prim) (us : List LeafUpdate) (leaves leaves' : List RGNode) : Prop where
  length : leaves'.length = leaves.length
  accepted : ∀ u ∈ us, ∃ n, Accepted P leaves u n ∧ leaves'[u.index.toNat]? = some n
  others : ∀ i : Nat, (∀ u ∈ us, u.index ≠ i) → leaves'[i]? = leaves[i]?

theorem Laid.nil (leaves : List RGNode) : Laid P [] leaves leaves :=
  ⟨rfl, fun _ hu => absurd hu List.not_mem_nil, fun _ _ => rfl⟩

theorem Accepted.set_iff {leaves : List RGNode} {u v : LeafUpdate} {n m : RGNode} (hu : Accepted P leaves u n)
    (hne : v.index ≠ u.index) : Accepted P (leaves.set u.index.toNat n) v m ↔ Accepted P leaves v m := by
  have hget : 0 ≤ v.index → (leaves.set u.index.toNat n)[v.index.toNat]? = leaves[v.index.toNat]? := fun hv => by
    have := hu.range
    exact List.getElem?_set_ne (by omega)
  constructor
  · intro h
    have hrange := h.range
    rw [List.length_set] at hrange
    exact ⟨hrange, hget hrange.1 ▸ h.atomic, h.node⟩
  · intro h
    exact ⟨by rw [List.length_set]; exact h.range, by rw [hget h.range.1]; exact h.atomic, h.node⟩

theorem Laid.cons {us : List LeafUpdate} {leaves leaves' : List RGNode} {u : LeafUpdate} {n : RGNode}
    (hu : Accepted P leaves u n) (hne : ∀ v ∈ us, v.index ≠ u.index)
    (h : Laid P us (leaves.set u.index.toNat n) leaves') :
    Laid P (u :: us) leaves leaves' := by
  have hrange := hu.range
  refine ⟨by rw [h.length, List.length_set], fun v hv => ?_, fun i hi => ?_⟩
  · rcases List.mem_cons.mp hv with rfl | hv
    · refine ⟨n, hu, ?_⟩
      rw [h.others _ fun w hw => by have := hne w hw; omega, List.getElem?_set_self hu.lt]
    · obtain ⟨m, hm, hget⟩ := h.accepted v hv
      exact ⟨m, (hu.set_iff (hne v hv)).mp hm, hget⟩
  · rw [h.others i fun v hv => hi v (List.mem_cons_of_mem _ hv), List.getElem?_set_ne]
    have := hi u List.mem_cons_self
    omega

theorem writeLeaves_run : ∀ {us : List LeafUpdate} {t : LiveTree} {leaves : List RGNode} {rest : List (List RGNode)},
    us.Pairwise (fun u v => u.index < v.index) → t.layers = leaves :: rest →
    ∃ a b leaves', us = a ++ b ∧ Laid P a leaves leaves' ∧
      ((b = [] ∧ us.forM (writeLeaf P) t = (.ok (), { t with layers := leaves' :: rest })) ∨
        ∃ u b' r, b = u :: b' ∧ Refused P leaves u ∧ (∀ x, r ≠ .ok x) ∧
          us.forM (writeLeaf P) t = (r, { t with layers := leaves' :: rest })) := by
  intro us
  induction us with
  | nil =>
    intro t leaves rest _ ht
    refine ⟨[], [], leaves, rfl, .nil leaves, .inl ⟨rfl, ?_⟩⟩
    rw [← ht]
    rfl
  | cons u us ih =>
    intro t leaves rest hsorted ht
    obtain ⟨hlt, hsorted⟩ := List.pairwise_cons.mp hsorted
    have hrun : (u :: us).forM (writeLeaf P) t = (writeLeaf P u >>= fun _ => us.forM (writeLeaf P)) t := rfl
    rw [hrun, Act.bind_run]
    rcases writeLeaf_cases (P := P) ht u with ⟨n, hu, hwrite⟩ | ⟨hrefused, r, hwrite, hr⟩
    · obtain ⟨a, b, leaves', rfl, hlaid, hcase⟩ := ih hsorted
        (t := { t with layers := leaves.set u.index.toNat n :: rest }) rfl
      have hne : ∀ v ∈ a, v.index ≠ u.index := fun v hv => (hlt v (List.mem_append_left _ hv)).ne'
      rw [hwrite]
      refine ⟨u :: a, b, leaves', rfl, hlaid.cons hu hne, ?_⟩
      rcases hcase with ⟨hb, hrun⟩ | ⟨v, b', r, rfl, hv, hr, hrun⟩
      · exact .inl ⟨hb, hrun⟩
      · refine .inr ⟨v, b', r, rfl, fun m hm => hv m ?_, hr, hrun⟩
        have hvu := (hlt v (List.mem_append_right _ List.mem_cons_self)).ne'
        exact (hu.set_iff hvu).mpr hm
    · refine ⟨[], u :: us, leaves, rfl, .nil leaves, .inr ⟨u, us, r, rfl, hrefused, hr, ?_⟩⟩
      rw [hwrite, ← ht]
      cases r with
      | ok x => exact absurd rfl (hr x)
      | err e => rfl
      | panic w => rfl

/-! ## Rebuilding parents -/

theorem rebuildChunk_eq {l : Nat} (hl : l ≤ 8) {layers : List (List RGNode)} {layer : List RGNode}
    (hget : layers[l]? = some layer) (hlay : Layer l layer) {i : Nat} (hi : K * i < layer.length) :
    rebuildChunk P layers l i = coarseGrain P (padded P l (chunkAt layer i)) (4 ^ (l + 1)) := by
  cases layer with
  | nil => exact absurd hi (by simp)
  | cons first rest =>
    have hscale := (hlay first List.mem_cons_self).scale
    unfold rebuildChunk
    rw [hget]
    dsimp only
    rw [if_neg (by rw [Nat.mul_comm]; omega), hscale, mapM_nullNode hl]
    rfl

section

variable {l : Nat} {pre rest : List (List RGNode)} {layer parents : List RGNode} {t : LiveTree}

theorem rebuildParent_run (hl : l ≤ 8) (hpre : pre.length = l) (ht : t.layers = pre ++ layer :: parents :: rest)
    (hlay : Layer l layer) {i : Nat} (hi : K * i < layer.length) (hip : i < parents.length) :
    (∃ n, coarseGrain P (padded P l (chunkAt layer i)) (4 ^ (l + 1)) = .ok n ∧
      rebuildParent P l i t = (.ok (), { t with layers := pre ++ layer :: parents.set i n :: rest })) ∨
    ((∀ n, coarseGrain P (padded P l (chunkAt layer i)) (4 ^ (l + 1)) ≠ .ok n) ∧
      ∃ r, rebuildParent P l i t = (r, t) ∧ ∀ b, r ≠ .ok b) := by
  have hget : t.layers[l]? = some layer := by rw [ht, ← hpre]; simp
  have hgetP : t.layers[l + 1]? = some parents := by rw [ht, ← hpre]; simp
  unfold rebuildParent
  rw [Act.read_bind, rebuildChunk_eq hl hget hlay hi]
  by_cases hok : ∃ n, coarseGrain P (padded P l (chunkAt layer i)) (4 ^ (l + 1)) = .ok n
  · obtain ⟨n, hn⟩ := hok
    refine .inl ⟨n, hn, ?_⟩
    rw [Act.lift_bind hn, storeNode_ok hgetP hip, ht, ← hpre]
    simp
  · exact .inr ⟨fun n hn => hok ⟨n, hn⟩, Act.lift_bind_fails (fun n hn => hok ⟨n, hn⟩) _ _⟩

theorem rebuildParents_ok (hl : l ≤ 8) (hpre : pre.length = l) (hlay : Layer l layer) : ∀ {is : List Nat}
    {parents : List RGNode} {t t' : LiveTree}, t.layers = pre ++ layer :: parents :: rest →
    (∀ i ∈ is, K * i < layer.length ∧ i < parents.length) → is.forM (rebuildParent P l) t = (.ok (), t') →
    ∃ parents', t' = { t with layers := pre ++ layer :: parents' :: rest } ∧ parents'.length = parents.length ∧
      (∀ i ∈ is, ∃ n, parents'[i]? = some n ∧ coarseGrain P (padded P l (chunkAt layer i)) (4 ^ (l + 1)) = .ok n) ∧
      ∀ i, i ∉ is → parents'[i]? = parents[i]? := by
  intro is
  induction is with
  | nil =>
    intro parents t t' ht _ h
    obtain ⟨-, rfl⟩ := Act.pure_ok.mp h
    exact ⟨parents, by rw [← ht], rfl, fun i hi => absurd hi List.not_mem_nil, fun _ _ => rfl⟩
  | cons i is ih =>
    intro parents t t' ht hlt h
    obtain ⟨hi, hip⟩ := hlt i List.mem_cons_self
    have h : (rebuildParent P l i >>= fun _ => is.forM (rebuildParent P l)) t = (.ok (), t') := h
    obtain ⟨_, t1, h1, h2⟩ := Act.bind_ok.mp h
    rcases rebuildParent_run (P := P) hl hpre ht hlay hi hip with ⟨n, hn, hrun⟩ | ⟨-, r, hrun, hr⟩
    · obtain rfl := (Prod.mk.inj (h1.symm.trans hrun)).2
      have ht₁ : ({ t with layers := pre ++ layer :: parents.set i n :: rest } : LiveTree).layers =
          pre ++ layer :: parents.set i n :: rest := rfl
      obtain ⟨parents', rfl, hlen, hmem, hothers⟩ := ih ht₁
        (fun j hj => by rw [List.length_set]; exact hlt j (List.mem_cons_of_mem _ hj)) h2
      refine ⟨parents', rfl, by rw [hlen, List.length_set], fun j hj => ?_, fun j hj => ?_⟩
      · by_cases hjs : j ∈ is
        · exact hmem j hjs
        · obtain rfl : j = i := (List.mem_cons.mp hj).resolve_right hjs
          exact ⟨n, by rw [hothers j hjs, List.getElem?_set_self hip], hn⟩
      · rw [hothers j fun hjs => hj (List.mem_cons_of_mem _ hjs), List.getElem?_set_ne]
        rintro rfl
        exact hj List.mem_cons_self
    · exact absurd (Prod.mk.inj (hrun.symm.trans h1)).1 (hr _)

/-- Over a layer and its parents rebuilding any of them changes nothing. -/
theorem rebuildParents_fixed (hl : l ≤ 8) (hpre : pre.length = l) (hlay : Layer l layer)
    (hp : Parents P l layer parents)
    (ht : t.layers = pre ++ layer :: parents :: rest) : ∀ {is : List Nat}, (∀ i ∈ is, i < parents.length) →
    is.forM (rebuildParent P l) t = (.ok (), t) := by
  obtain ⟨hlen, hget⟩ := parents_iff.mp hp
  intro is
  induction is with
  | nil => exact fun _ => rfl
  | cons i is ih =>
    intro hlt
    have hip := hlt i List.mem_cons_self
    have hgood := hget i _ (List.getElem?_eq_getElem hip)
    have hrun : rebuildParent P l i t = (.ok (), t) := by
      rcases rebuildParent_run (P := P) hl hpre ht hlay (by simp only [K]; omega) hip with ⟨n, hn, hrun⟩ | ⟨hno, -⟩
      · obtain rfl := Go.ok.inj (hgood.symm.trans hn)
        rwa [List.set_getElem_self, ← ht] at hrun
      · exact absurd hgood (hno _)
    show (rebuildParent P l i >>= fun _ => is.forM (rebuildParent P l)) t = _
    rw [Act.bind_run, hrun]
    exact ih fun j hj => hlt j (List.mem_cons_of_mem _ hj)

end

/-! ## Rebuilding levels -/

theorem chunkAt_congr {layer layer' : List RGNode} {i : Nat} (h : ∀ j, j / K = i → layer'[j]? = layer[j]?) :
    chunkAt layer' i = chunkAt layer i := by
  refine List.ext_getElem? fun k => ?_
  unfold chunkAt
  by_cases hk : k < K
  · have hdiv : (K * i + k) / K = i := by
      simp only [K] at hk ⊢
      omega
    rw [List.getElem?_take_of_lt hk, List.getElem?_take_of_lt hk, List.getElem?_drop, List.getElem?_drop, h _ hdiv]
  · rw [List.getElem?_take, List.getElem?_take, if_neg hk, if_neg hk]

/-- The positions at which `layer'` may differ from `layer`. -/
structure Dirty (dirty : List Nat) (layer layer' : List RGNode) : Prop where
  length : layer'.length = layer.length
  inside : ∀ j ∈ dirty, j < layer.length
  others : ∀ j, j ∉ dirty → layer'[j]? = layer[j]?

theorem mem_parentDirty {dirty : List Nat} {i : Nat} : i ∈ (dirty.map (· / K)).dedup ↔ ∃ j ∈ dirty, j / K = i := by
  rw [List.mem_dedup, List.mem_map]

theorem Dirty.parents_inside {dirty : List Nat} {layer layer' parents : List RGNode} {l : Nat}
    (h : Dirty dirty layer layer')
    (hp : Parents P l layer parents) : ∀ i ∈ (dirty.map (· / K)).dedup, K * i < layer'.length ∧ i < parents.length := by
  intro i hi
  obtain ⟨j, hj, rfl⟩ := mem_parentDirty.mp hi
  have hlt := h.inside j hj
  rw [h.length, (parents_iff.mp hp).1]
  simp only [K]
  omega

theorem Dirty.parents {dirty : List Nat} {layer layer' parents parents' : List RGNode} {l : Nat}
    (h : Dirty dirty layer layer') (hp : Parents P l layer parents) (hlen : parents'.length = parents.length)
    (hmem : ∀ i ∈ (dirty.map (· / K)).dedup, ∃ n, parents'[i]? = some n ∧
      coarseGrain P (padded P l (chunkAt layer' i)) (4 ^ (l + 1)) = .ok n)
    (hothers : ∀ i, i ∉ (dirty.map (· / K)).dedup → parents'[i]? = parents[i]?) :
    Parents P l layer' parents' ∧ Dirty (dirty.map (· / K)).dedup parents parents' := by
  refine ⟨parents_iff.mpr ⟨?_, fun i p hi => ?_⟩, hlen, fun i hi => (h.parents_inside hp i hi).2, hothers⟩
  · rw [hlen, (parents_iff.mp hp).1, h.length]
  · by_cases hdirty : i ∈ (dirty.map (· / K)).dedup
    · obtain ⟨n, hn, hgrain⟩ := hmem i hdirty
      obtain rfl := Option.some.inj (hi.symm.trans hn)
      exact hgrain
    · rw [hothers i hdirty] at hi
      have hchunk : chunkAt layer' i = chunkAt layer i :=
        chunkAt_congr fun j hj => h.others j fun hjd => hdirty (mem_parentDirty.mpr ⟨j, hjd, hj⟩)
      rw [hchunk]
      exact (parents_iff.mp hp).2 i p hi

section

variable {parentOrder : Nat → RangeOrder Nat}

theorem rebuildLevel_eq (dirty : List Nat) (level : Nat) (t : LiveTree) : rebuildLevel P parentOrder dirty level t =
    (((parentOrder level).list (dirty.map (· / K)).dedup).forM (rebuildParent P level) >>= fun _ =>
      pure (dirty.map (· / K)).dedup) t := rfl

theorem rebuildLevels_ok {l : Nat} {ls : List (List RGNode)} (h : Tower P l ls) : ∀ {layer layer' : List RGNode}
    {rest pre : List (List RGNode)} {dirty dirty' : List Nat} {t t' : LiveTree}, ls = layer :: rest → pre.length = l →
    t.layers = pre ++ layer' :: rest → Layer l layer' → Dirty dirty layer layer' →
    (List.range' l rest.length).foldlM (rebuildLevel P parentOrder) dirty t = (.ok dirty', t') →
    ∃ rest', t' = { t with layers := pre ++ layer' :: rest' } ∧ Tower P l (layer' :: rest') := by
  induction h with
  | @top l n hl hlev =>
    intro layer layer' rest pre dirty dirty' t t' hls _ ht hlay hdirty hrun
    obtain ⟨rfl, rfl⟩ := List.cons.inj hls
    obtain ⟨-, rfl⟩ := Act.pure_ok.mp hrun
    obtain ⟨n', rfl⟩ := List.length_eq_one_iff.mp hdirty.length
    exact ⟨[], by rw [← ht], .top hl (hlay n' List.mem_cons_self)⟩
  | @cons l layer₀ parents rest₀ hl hlay₀ hlen hp _ ih =>
    intro layer layer' rest pre dirty dirty' t t' hls hpre ht hlay hdirty hrun
    obtain ⟨rfl, rfl⟩ := List.cons.inj hls
    rw [List.length_cons, List.range'_succ, Act.foldlM_cons_ok] at hrun
    obtain ⟨dirty₁, t₁, hlevel, hrun⟩ := hrun
    rw [rebuildLevel_eq, Act.bind_ok] at hlevel
    obtain ⟨_, t₂, hparents, hpure⟩ := hlevel
    obtain ⟨rfl, rfl⟩ := Act.pure_ok.mp hpure
    have hmem : ∀ i, i ∈ (parentOrder l).list (dirty.map (· / K)).dedup ↔ i ∈ (dirty.map (· / K)).dedup :=
      fun i => ((parentOrder l).perm _).mem_iff
    obtain ⟨parents', rfl, hplen, hnew, hothers⟩ := rebuildParents_ok (by omega) hpre hlay ht
      (fun i hi => hdirty.parents_inside hp i ((hmem i).mp hi)) hparents
    obtain ⟨hp', hdirty'⟩ := hdirty.parents hp hplen (fun i hi => hnew i ((hmem i).mpr hi))
      fun i hi => hothers i (mt (hmem i).mp hi)
    have hpre' : (pre ++ [layer']).length = l + 1 := by rw [List.length_append, hpre]; rfl
    obtain ⟨rest', rfl, htower⟩ := ih rfl hpre' (by simp) (hp'.facts (by omega) hlay).1 hdirty' hrun
    exact ⟨parents' :: rest', by simp, .cons hl hlay (hdirty.length ▸ hlen) hp' htower⟩

theorem rebuildLevels_fixed (parentOrder : Nat → RangeOrder Nat) {l : Nat} {ls : List (List RGNode)}
    (h : Tower P l ls) : ∀ {layer : List RGNode}
    {rest pre : List (List RGNode)} {dirty : List Nat} {t : LiveTree}, ls = layer :: rest → pre.length = l →
    t.layers = pre ++ ls → (∀ j ∈ dirty, j < layer.length) →
    ∃ dirty', (List.range' l rest.length).foldlM (rebuildLevel P parentOrder) dirty t = (.ok dirty', t) := by
  induction h with
  | @top l n hl hlev =>
    intro layer rest pre dirty t hls _ _ _
    obtain ⟨rfl, rfl⟩ := List.cons.inj hls
    exact ⟨dirty, rfl⟩
  | @cons l layer₀ parents rest₀ hl hlay hlen hp _ ih =>
    intro layer rest pre dirty t hls hpre ht hinside
    obtain ⟨rfl, rfl⟩ := List.cons.inj hls
    have hdirty : Dirty dirty layer₀ layer₀ := ⟨rfl, hinside, fun _ _ => rfl⟩
    have hparents := hdirty.parents_inside hp
    have hpre' : (pre ++ [layer₀]).length = l + 1 := by rw [List.length_append, hpre]; rfl
    obtain ⟨dirty', hrun⟩ := ih (t := t) rfl hpre' (by rw [ht]; simp) fun i hi => (hparents i hi).2
    refine ⟨dirty', ?_⟩
    rw [List.length_cons, List.range'_succ, Act.foldlM_cons_ok]
    refine ⟨_, t, ?_, hrun⟩
    rw [rebuildLevel_eq, Act.bind_run, rebuildParents_fixed (by omega) hpre hlay hp ht]
    · rfl
    · exact fun i hi => (hparents i (((parentOrder l).perm _).mem_iff.mp hi)).2

end

/-! ## Whole updates -/

/-- The leaves, the root and the flag are as before. -/
structure KeepsLeaves (t t' : LiveTree) : Prop where
  leaves : t'.layers.head? = t.layers.head?
  root : t'.root = t.root
  dirty : t'.dirty = t.dirty

instance keepsLeavesRefl : Std.Refl KeepsLeaves := ⟨fun _ => ⟨rfl, rfl, rfl⟩⟩

instance keepsLeavesTrans : IsTrans LiveTree KeepsLeaves :=
  ⟨fun _ _ _ h h' => ⟨h'.leaves.trans h.leaves, h'.root.trans h.root, h'.dirty.trans h.dirty⟩⟩

theorem storeNode_keeps (level i : Nat) (n : RGNode) : Act.Steps KeepsLeaves (storeNode (level + 1) i n) := by
  intro t
  unfold storeNode
  cases t.layers[level + 1]? with
  | none => exact keepsLeavesRefl.refl t
  | some layer =>
    dsimp only
    split
    · refine ⟨?_, rfl, rfl⟩
      show (t.layers.set (level + 1) _).head? = t.layers.head?
      cases t.layers with
      | nil => rfl
      | cons leaves rest => rfl
    · exact keepsLeavesRefl.refl t

theorem rebuildLevels_keeps (parentOrder : Nat → RangeOrder Nat) (levels dirty : List Nat) :
    Act.Steps KeepsLeaves (levels.foldlM (rebuildLevel P parentOrder) dirty) := by
  refine Act.steps_foldlM (fun dirty level _ => ?_) dirty
  refine Act.steps_bind (Act.steps_forM fun i _ => ?_) fun _ => Act.steps_pure _
  exact Act.steps_bind (Act.steps_read _) fun _ => Act.steps_bind (Act.steps_lift _) fun n => storeNode_keeps level i n

section

variable {c : Choices} {updates : List LeafUpdate} {t t' : LiveTree} {leaves leaves' : List RGNode}
  {rest : List (List RGNode)}

theorem winners_sorted (c : Choices) (updates : List LeafUpdate) :
    (winners c updates).Pairwise fun u v => u.index < v.index := sorted_dedupe c.sort

theorem mem_winners {u : LeafUpdate} :
    u ∈ winners c updates ↔ lastOf LeafUpdate.index (c.sort.run updates) u.index = some u := mem_sorted_dedupe c.sort

theorem winners_nonempty (hne : updates ≠ []) : ∃ u, u ∈ winners c updates := by
  obtain ⟨v, hv⟩ := List.exists_mem_of_ne_nil _ hne
  have hsome : (lastOf LeafUpdate.index (c.sort.run updates) v.index).isSome = true :=
    lastOf_isSome.mpr ⟨v, (c.sort.perm updates).mem_iff.mpr hv, rfl⟩
  obtain ⟨u, hu⟩ := Option.isSome_iff_exists.mp hsome
  refine ⟨u, mem_winners.mpr ?_⟩
  rw [(lastOf_some hu).2, hu]

theorem Laid.layer {us : List LeafUpdate} (h : Laid P us leaves leaves') (hlay : Layer 0 leaves) : Layer 0 leaves' := by
  intro n hn
  obtain ⟨i, hi⟩ := List.getElem?_of_mem hn
  by_cases hus : ∃ u ∈ us, u.index = (i : Int)
  · obtain ⟨u, hu, hidx⟩ := hus
    obtain ⟨m, hm, hget⟩ := h.accepted u hu
    rw [hidx, Int.toNat_natCast, hi] at hget
    exact Option.some.inj hget ▸ makeAtomicNode_level hm.node
  · rw [h.others i fun u hu hidx => hus ⟨u, hu, hidx⟩] at hi
    exact hlay n (List.mem_of_getElem? hi)

theorem Laid.dirty {us : List LeafUpdate} (h : Laid P us leaves leaves') :
    Dirty (us.map fun u => u.index.toNat) leaves leaves' := by
  refine ⟨h.length, fun j hj => ?_, fun j hj => h.others j fun u hu hidx => hj ?_⟩
  · obtain ⟨u, hu, rfl⟩ := List.mem_map.mp hj
    obtain ⟨n, hn, -⟩ := h.accepted u hu
    exact hn.lt
  · exact List.mem_map.mpr ⟨u, hu, by rw [hidx, Int.toNat_natCast]⟩

/-- What follows the leaves' loop. -/
def rebuildAll (P : Prim) (c : Choices) (updates : List LeafUpdate) : OnTree Unit := do
  let depth ← Act.read fun t => t.layers.length
  let _ ← (List.range (depth - 1)).foldlM (rebuildLevel P c.parents) ((winners c updates).map fun u => u.index.toNat)
  Act.write fun t => { t with dirty := true }

theorem updateLeaves_eq (hne : updates ≠ []) :
    updateLeaves P c updates = ((winners c updates).forM (writeLeaf P) >>= fun _ => rebuildAll P c updates) := by
  unfold updateLeaves
  rw [if_neg hne]
  rfl

theorem rebuildAll_run (ht : t.layers = leaves :: rest) : rebuildAll P c updates t =
    ((List.range' 0 rest.length).foldlM (rebuildLevel P c.parents) ((winners c updates).map fun u => u.index.toNat) >>=
      fun _ => Act.write fun t => { t with dirty := true }) t := by
  unfold rebuildAll
  rw [Act.read_bind, ht, List.length_cons, Nat.add_sub_cancel, List.range_eq_range']

/-- A successful update leaves the tower over the changed leaves, its root to be recomputed. -/
theorem updateLeaves_ok (hne : updates ≠ []) (htower : Tower P 0 t.layers) (hhead : t.layers.head? = some leaves)
    (h : updateLeaves P c updates t = (.ok (), t')) : ∃ leaves', Laid P (winners c updates) leaves leaves' ∧
      Tower P 0 t'.layers ∧ t'.layers.head? = some leaves' ∧ t'.dirty = true := by
  obtain ⟨first, rest, ht, -, hlay, -⟩ := htower.coarsen (n := 9) (by decide)
  obtain rfl : first = leaves := Option.some.inj (by rw [← hhead, ht]; rfl)
  rw [updateLeaves_eq hne, Act.bind_ok] at h
  obtain ⟨_, t₁, hwrite, hrebuild⟩ := h
  obtain ⟨a, b, leaves', hab, hlaid, hcase⟩ := writeLeaves_run (P := P) (winners_sorted c updates) ht
  rcases hcase with ⟨rfl, hrun⟩ | ⟨u, b', r, -, -, hr, hrun⟩
  · rw [List.append_nil] at hab
    rw [← hab] at hlaid
    obtain rfl := (Prod.mk.inj (hwrite.symm.trans hrun)).2
    rw [rebuildAll_run rfl, Act.bind_ok] at hrebuild
    obtain ⟨dirty', t₂, hlevels, hset⟩ := hrebuild
    have hpre : ([] : List (List RGNode)).length = 0 := rfl
    obtain ⟨rest', rfl, htower'⟩ :=
      rebuildLevels_ok (ht ▸ htower) rfl hpre rfl (hlaid.layer hlay) hlaid.dirty hlevels
    obtain rfl := Act.write_ok.mp hset
    exact ⟨leaves', hlaid, htower', rfl, rfl⟩
  · exact absurd (Prod.mk.inj (hrun.symm.trans hwrite)).1 (hr _)

/-- A failed update stopped at a change that is refused, with the ones before it made, or above
    leaves that are all changed and not all the same as before. -/
theorem updateLeaves_err (htower : leaves ≠ [] → Tower P 0 t.layers) (ht : t.layers = leaves :: rest) {e : Err}
    (h : updateLeaves P c updates t = (.err e, t')) :
    (t'.root = t.root ∧ t'.dirty = t.dirty) ∧ ∃ leaves', t'.layers.head? = some leaves' ∧
      ((∃ a u b, winners c updates = a ++ u :: b ∧ Refused P leaves u ∧ Laid P a leaves leaves' ∧
        t'.layers = leaves' :: rest) ∨
      (Laid P (winners c updates) leaves leaves' ∧ leaves' ≠ leaves)) := by
  have hne : updates ≠ [] := fun hnil => by
    rw [hnil] at h
    cases h
  rw [updateLeaves_eq hne] at h
  obtain ⟨a, b, leaves', hab, hlaid, hcase⟩ := writeLeaves_run (P := P) (winners_sorted c updates) ht
  rcases hcase with ⟨rfl, hrun⟩ | ⟨u, b', r, rfl, hrefused, hr, hrun⟩
  · rw [List.append_nil] at hab
    rw [← hab] at hlaid
    -- every change was made: the error is one of rebuilding
    rcases Act.bind_err h with herr | ⟨_, t₁, hok, hrebuild⟩
    · cases hrun.symm.trans herr
    obtain rfl := (Prod.mk.inj (hok.symm.trans hrun)).2
    rw [rebuildAll_run rfl] at hrebuild
    rcases Act.bind_err hrebuild with hlevels | ⟨_, _, -, hset⟩
    · have hkeeps := (rebuildLevels_keeps _ _ _).run hlevels
      refine ⟨⟨hkeeps.root, hkeeps.dirty⟩, leaves', hkeeps.leaves, .inr ⟨hlaid, ?_⟩⟩
      rintro rfl
      have hnil : leaves' ≠ [] := by
        rintro rfl
        obtain ⟨u, hu⟩ := winners_nonempty (c := c) hne
        obtain ⟨n, hn, -⟩ := hlaid.accepted u hu
        exact absurd hn.lt (Nat.not_lt_zero _)
      have hpre : ([] : List (List RGNode)).length = 0 := rfl
      obtain ⟨dirty', hfixed⟩ := rebuildLevels_fixed c.parents (ht ▸ htower hnil)
        (t := { t with layers := leaves' :: rest }) rfl hpre rfl hlaid.dirty.inside
      cases hfixed.symm.trans hlevels
    · cases hset
  · rcases Act.bind_err h with herr | ⟨_, t₁, hok, -⟩
    · obtain rfl := (Prod.mk.inj (herr.symm.trans hrun)).2
      exact ⟨⟨rfl, rfl⟩, leaves', rfl, .inl ⟨a, u, b', hab, hrefused, hlaid, rfl⟩⟩
    · exact absurd (Prod.mk.inj (hrun.symm.trans hok)).1 (hr _)

end

end Frg.RG
