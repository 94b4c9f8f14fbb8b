/-
  Frg.RG.Incremental — incremental updates against rebuilding, failed updates, and proofs from
  trees that were updated.

  `rebuild` is what an update is for: the tree over the leaf list with the caller's changes
  made in the caller's order. `UpdateLeaves` keeps the change the sort put last of each index,
  and `sort.Slice` gives no order to equal ones; it writes the leaves before it knows that the
  rest can be done.

    - `incremental_eq_rebuild_iff`: a successful update is the rebuilt tree exactly when the
      change kept of each index makes the caller's last leaf; a sort as it runs on thirteen
      changes does not (`thirteen_changes`).
    - `failed_update_intact_iff`: a failed update leaves the tree as it was exactly when it is
      refused before anything is changed (`bad_index_after_change`).
    - `proofs_complete`: after any number of successful updates every leaf has a proof both
      verifiers accept.
-/

import Frg.Lib.Lists
import Frg.RG.Update

namespace Frg.RG

open Frg.Lib Frg.Core Frg.Wire

variable {P : Prim}

/-! ## The tree that was asked for -/

/-- The transactions after the changes `us`, the last of an index winning. -/
def updatedTxs (us : List LeafUpdate) (txs : List Tx) : List Tx :=
  txs.mapIdx fun i t => ((lastOf LeafUpdate.index us i).map LeafUpdate.tx).getD t

/-- The leaf at position `i` after the changes `us`. -/
def leafAfter (P : Prim) (us : List LeafUpdate) (i : Nat) (leaf : RGNode) : Res RGNode :=
  match lastOf LeafUpdate.index us i with
  | some u => makeAtomicNode P u.tx
  | none => .ok leaf

/-- The leaves of contracts after the changes `us`; they stand behind `offset` transactions. -/
def updatedNodes (P : Prim) (us : List LeafUpdate) (offset : Nat) (nodes : List RGNode) : Res (List RGNode) :=
  (nodes.zipIdx offset).mapM fun p => leafAfter P us p.2 p.1

def rebuild (P : Prim) (txs : List Tx) (nodes : List RGNode) (updates : List LeafUpdate) : Res Tree := do
  let nodes' ← updatedNodes P updates txs.length nodes
  buildTree P (updatedTxs updates txs) nodes'

/-- `leaves'` is `leaves` with the changes `us` made, the first leaf at position `offset`. -/
structure Relaid (P : Prim) (us : List LeafUpdate) (offset : Nat) (leaves leaves' : List RGNode) : Prop where
  length : leaves'.length = leaves.length
  leaf : ∀ (i : Nat) (n n' : RGNode), leaves[i]? = some n → leaves'[i]? = some n' →
    leafAfter P us (offset + i) n = .ok n'

section

variable {us : List LeafUpdate} {txs : List Tx} {nodes leaves leaves' : List RGNode} {offset : Nat}

theorem atomicLayer_updated (h : atomicLayer P txs = .ok leaves) :
    atomicLayer P (updatedTxs us txs) = .ok leaves' ↔ Relaid P us 0 leaves leaves' := by
  have hlen := (atomicLayer_layer h).2
  have hleaf : ∀ (i : Nat) (t : Tx) (n : RGNode), txs[i]? = some t → leaves[i]? = some n →
      makeAtomicNode P (((lastOf LeafUpdate.index us i).map LeafUpdate.tx).getD t) = leafAfter P us i n := by
    intro i t n ht hn
    unfold leafAfter
    cases lastOf LeafUpdate.index us i with
    | some u => rfl
    | none => exact (forall₂_iff_getElem?.mp (Go.mapM_eq_ok.mp h)).2 i t n ht hn
  rw [atomicLayer, Go.mapM_eq_ok, forall₂_iff_getElem?, updatedTxs, List.length_mapIdx]
  constructor
  · rintro ⟨h1, h2⟩
    refine ⟨by omega, fun i n n' hn hn' => ?_⟩
    have hlt := (List.getElem?_eq_some_iff.mp hn).1
    have ht : txs[i]? = some txs[i] := List.getElem?_eq_getElem (by omega)
    rw [Nat.zero_add, ← hleaf i _ n ht hn]
    exact h2 i _ n' (by rw [List.getElem?_mapIdx, ht]; rfl) hn'
  · rintro ⟨h1, h2⟩
    refine ⟨by omega, fun i t' n' ht' hn' => ?_⟩
    rw [List.getElem?_mapIdx, Option.map_eq_some_iff] at ht'
    obtain ⟨t, ht, rfl⟩ := ht'
    have hlt := (List.getElem?_eq_some_iff.mp ht).1
    have hn : leaves[i]? = some leaves[i] := List.getElem?_eq_getElem (by omega)
    rw [hleaf i t _ ht hn]
    have := h2 i _ n' hn hn'
    rwa [Nat.zero_add] at this

theorem updatedNodes_ok : updatedNodes P us offset nodes = .ok leaves' ↔ Relaid P us offset nodes leaves' := by
  rw [updatedNodes, Go.mapM_eq_ok, forall₂_iff_getElem?, List.length_zipIdx]
  constructor
  · rintro ⟨h1, h2⟩
    refine ⟨h1.symm, fun i n n' hn hn' => ?_⟩
    exact h2 i (n, offset + i) n' (by rw [List.getElem?_zipIdx, hn]; rfl) hn'
  · rintro ⟨h1, h2⟩
    refine ⟨h1.symm, fun i p n' hp hn' => ?_⟩
    rw [List.getElem?_zipIdx, Option.map_eq_some_iff] at hp
    obtain ⟨n, hn, rfl⟩ := hp
    exact h2 i n n' hn hn'

theorem relaid_append {a a' : List RGNode} (hlen : a'.length = a.length) :
    Relaid P us 0 (a ++ nodes) (a' ++ leaves') ↔ Relaid P us 0 a a' ∧ Relaid P us a.length nodes leaves' := by
  constructor
  · rintro ⟨h1, h2⟩
    rw [List.length_append, List.length_append] at h1
    refine ⟨⟨hlen, fun i n n' hn hn' => ?_⟩, by omega, fun i n n' hn hn' => ?_⟩
    · have hlt := (List.getElem?_eq_some_iff.mp hn).1
      exact h2 i n n' (by rw [List.getElem?_append_left hlt, hn]) (by rw [List.getElem?_append_left (by omega), hn'])
    · have :=
        h2 (a.length + i) n n' (by rw [List.getElem?_append_right (Nat.le_add_right _ _), Nat.add_sub_cancel_left, hn])
        (by rw [List.getElem?_append_right (by omega), ← hlen, Nat.add_sub_cancel_left, hn'])
      rwa [Nat.zero_add] at this
  · rintro ⟨⟨-, h2⟩, h3, h4⟩
    refine ⟨by rw [List.length_append, List.length_append]; omega, fun i n n' hn hn' => ?_⟩
    by_cases hi : i < a.length
    · rw [List.getElem?_append_left hi] at hn
      rw [List.getElem?_append_left (by omega)] at hn'
      exact h2 i n n' hn hn'
    · rw [List.getElem?_append_right (by omega)] at hn
      rw [List.getElem?_append_right (by omega), hlen] at hn'
      have := h4 (i - a.length) n n' hn hn'
      rwa [Nat.add_sub_cancel' (by omega), ← Nat.zero_add i] at this

theorem Relaid.layer (h : Relaid P us offset leaves leaves') (hlay : Layer 0 leaves) : Layer 0 leaves' := by
  intro n' hn'
  obtain ⟨i, hi⟩ := List.getElem?_of_mem hn'
  have hlt : i < leaves.length := h.length ▸ (List.getElem?_eq_some_iff.mp hi).1
  have hn : leaves[i]? = some leaves[i] := List.getElem?_eq_getElem hlt
  have hafter := h.leaf i _ n' hn hi
  unfold leafAfter at hafter
  split at hafter
  · exact makeAtomicNode_level hafter
  · exact Go.ok.inj hafter ▸ hlay _ (List.mem_of_getElem? hn)

end

/-! ## Updating and rebuilding -/

/-- A tree with leaves, and where they come from. -/
structure BuiltFrom (P : Prim) (txs : List Tx) (nodes : List RGNode) (tree : Tree) (atoms : List RGNode) : Prop where
  atomic : atomicLayer P txs = .ok atoms
  tower : Tower P 0 tree.layers
  head : tree.layers.head? = some (atoms ++ nodes)

section

variable {txs : List Tx} {nodes : List RGNode} {tree : Tree} {c : Choices} {updates : List LeafUpdate} {t' : LiveTree}

theorem buildTree_from (hnodes : Layer 0 nodes) (h : buildTree P txs nodes = .ok tree) :
    (tree = ⟨[[]], emptyBlockRoot P⟩ ∧ txs = [] ∧ nodes = []) ∨
      (txs ≠ [] ∨ nodes ≠ []) ∧ ∃ atoms, BuiltFrom P txs nodes tree atoms := by
  by_cases hne : txs ≠ [] ∨ nodes ≠ []
  · obtain ⟨-, atoms, top, h1, h2, h3, -⟩ := (buildTree_tower hne hnodes).mp h
    exact .inr ⟨hne, atoms, h1, h2, h3⟩
  · obtain ⟨rfl, rfl⟩ := not_or.mp hne |>.imp not_not.mp not_not.mp
    rw [buildTree, if_pos ⟨rfl, rfl⟩] at h
    exact .inl ⟨(Go.ok.inj h).symm, rfl, rfl⟩

theorem liveRoot_dirty {t : LiveTree} (h : Tower P 0 t.layers) (hdirty : t.dirty = true) :
    ∃ top, t.layers.getLast? = some [top] ∧
      liveRoot P t = (.ok (hashOf P top), { t with root := hashOf P top, dirty := false }) := by
  obtain ⟨top, m, htop, hm, hlev⟩ := h.last
  refine ⟨top, htop, ?_⟩
  unfold liveRoot
  rw [if_pos hdirty, htop]
  dsimp only
  rw [hlev.root_eq hm]
  rfl

theorem not_ok_empty (hne : updates ≠ []) {t : LiveTree} (ht : t.layers = [[]]) :
    updateLeaves P c updates t ≠ (.ok (), t') := by
  intro h
  rw [updateLeaves_eq hne, Act.bind_ok] at h
  obtain ⟨_, t₁, hwrite, -⟩ := h
  obtain ⟨a, b, leaves', hab, hlaid, hcase⟩ := writeLeaves_run (P := P) (winners_sorted c updates) ht
  rcases hcase with ⟨rfl, -⟩ | ⟨u, b', r, -, -, hr, hrun⟩
  · obtain ⟨u, hu⟩ := winners_nonempty (c := c) hne
    rw [hab, List.append_nil] at hu
    obtain ⟨n, hn, -⟩ := hlaid.accepted u hu
    exact absurd hn.lt (Nat.not_lt_zero _)
  · exact absurd (Prod.mk.inj (hrun.symm.trans hwrite)).1 (hr _)

theorem Laid.relaid {leaves leaves' : List RGNode} (h : Laid P (winners c updates) leaves leaves') :
    Relaid P (c.sort.run updates) 0 leaves leaves' := by
  refine ⟨h.length, fun i n n' hn hn' => ?_⟩
  rw [Nat.zero_add]
  unfold leafAfter
  cases hlast : lastOf LeafUpdate.index (c.sort.run updates) i with
  | some u =>
    have hidx := (lastOf_some hlast).2
    obtain ⟨m, hm, hget⟩ := h.accepted u (mem_winners.mpr (hidx ▸ hlast))
    rw [hidx, Int.toNat_natCast, hn'] at hget
    exact Option.some.inj hget ▸ hm.node
  | none =>
    have hothers := h.others i fun u hu hidx => by
      rw [mem_winners, hidx, hlast] at hu
      cases hu
    rw [hn', hn] at hothers
    exact congrArg Go.ok (Option.some.inj hothers).symm

/-- For each changed index the change the sort puts last makes the leaf of the caller's last. -/
def LastWins (P : Prim) (c : Choices) (updates : List LeafUpdate) : Prop :=
  ∀ k u w, lastOf LeafUpdate.index (c.sort.run updates) k = some u → lastOf LeafUpdate.index updates k = some w →
    makeAtomicNode P u.tx = makeAtomicNode P w.tx

theorem lastOf_isSome_sorted (c : Choices) (updates : List LeafUpdate) (k : Int) :
    (lastOf LeafUpdate.index (c.sort.run updates) k).isSome = (lastOf LeafUpdate.index updates k).isSome := by
  rw [Bool.eq_iff_iff, lastOf_isSome, lastOf_isSome]
  simp only [(c.sort.perm updates).mem_iff]

/-- Under `LastWins` the two lists of changes make the same leaves. -/
theorem LastWins.leafAfter_eq (h : LastWins P c updates) (i : Nat) (n : RGNode) :
    leafAfter P (c.sort.run updates) i n = leafAfter P updates i n := by
  have hsome := lastOf_isSome_sorted c updates i
  unfold leafAfter
  cases hu : lastOf LeafUpdate.index (c.sort.run updates) i with
  | some u =>
    cases hw : lastOf LeafUpdate.index updates i with
    | some w => exact h i u w hu hw
    | none =>
      rw [hu, hw] at hsome
      cases hsome
  | none =>
    cases hw : lastOf LeafUpdate.index updates i with
    | some w =>
      rw [hu, hw] at hsome
      cases hsome
    | none => rfl

theorem rebuild_ok {atoms : List RGNode} (hb : BuiltFrom P txs nodes tree atoms) (hnodes : Layer 0 nodes)
    (hne : txs ≠ [] ∨ nodes ≠ []) (hlen : txs.length ≤ tMax) {tree' : Tree} : rebuild P txs nodes updates = .ok tree' ↔
      ∃ leaves' top, Relaid P updates 0 (atoms ++ nodes) leaves' ∧ Tower P 0 tree'.layers ∧
        tree'.layers.head? = some leaves' ∧ tree'.layers.getLast? = some [top] ∧ tree'.root = P.hash top.bytes := by
  have hatoms := (atomicLayer_layer hb.atomic).2
  have htxs : (updatedTxs updates txs).length = txs.length := by rw [updatedTxs, List.length_mapIdx]
  have hne' : ∀ {nodes' : List RGNode}, nodes'.length = nodes.length → updatedTxs updates txs ≠ [] ∨ nodes' ≠ [] :=
    fun hl => hne.imp (fun h => List.length_pos_iff.mp (htxs ▸ List.length_pos_iff.mpr h))
      fun h => List.length_pos_iff.mp (hl ▸ List.length_pos_iff.mpr h)
  rw [rebuild, Go.bind_eq_ok]
  constructor
  · rintro ⟨nodes', hnodes', h⟩
    have hrelaid := updatedNodes_ok.mp hnodes'
    obtain ⟨-, atoms', top, h1, h2, h3, h4⟩ := (buildTree_tower (hne' hrelaid.length) (hrelaid.layer hnodes)).mp h
    have hatoms' := (atomicLayer_updated hb.atomic).mp h1
    refine ⟨atoms' ++ nodes', top, (relaid_append hatoms'.length).mpr ⟨hatoms', ?_⟩, h2, h3, h4⟩
    rwa [hatoms]
  · rintro ⟨leaves', top, hrelaid, h2, h3, h4⟩
    have hlen' := hrelaid.length
    rw [List.length_append] at hlen'
    have htake : (leaves'.take atoms.length).length = atoms.length := by
      rw [List.length_take]
      omega
    rw [← List.take_append_drop atoms.length leaves', relaid_append htake] at hrelaid
    obtain ⟨hatoms', hnodes'⟩ := hrelaid
    refine ⟨leaves'.drop atoms.length, updatedNodes_ok.mpr (hatoms ▸ hnodes'), ?_⟩
    rw [buildTree_tower (hne' hnodes'.length) (hnodes'.layer hnodes)]
    refine ⟨htxs ▸ hlen, leaves'.take atoms.length, top, (atomicLayer_updated hb.atomic).mpr hatoms', h2, ?_, h4⟩
    rw [List.take_append_drop, h3]

theorem updatedTxs_nil (txs : List Tx) : updatedTxs [] txs = txs := by
  refine List.ext_getElem? fun i => ?_
  rw [updatedTxs, List.getElem?_mapIdx]
  cases txs[i]? with
  | none => rfl
  | some t => rfl

theorem rebuild_nil (P : Prim) (txs : List Tx) (nodes : List RGNode) :
    rebuild P txs nodes [] = buildTree P txs nodes := by
  have hnodes : updatedNodes P [] txs.length nodes = .ok nodes :=
    updatedNodes_ok.mpr ⟨rfl, fun i n n' hn hn' => congrArg Go.ok (Option.some.inj (hn.symm.trans hn'))⟩
  rw [rebuild, hnodes, updatedTxs_nil]
  rfl

/-- A successful update gives the rebuilt tree exactly when of each index the caller's last
    change is made. -/
theorem incremental_eq_rebuild_iff (hnodes : Layer 0 nodes) (hbuild : buildTree P txs nodes = .ok tree)
    (h : updateLeaves P c updates tree.live = (.ok (), t')) :
    (∃ tree' t'', rebuild P txs nodes updates = .ok tree' ∧ t'.layers = tree'.layers ∧
      liveRoot P t' = (.ok tree'.root, t'')) ↔ LastWins P c updates := by
  by_cases hnil : updates = []
  · -- nothing is asked for and nothing done
    subst hnil
    obtain ⟨-, rfl⟩ := Act.pure_ok.mp h
    refine iff_of_true ⟨tree, _, by rw [rebuild_nil, hbuild], rfl, rfl⟩ fun k u w _ hw => ?_
    cases hw
  rcases buildTree_from hnodes hbuild with ⟨rfl, -, -⟩ | ⟨hne, atoms, hb⟩
  · exact absurd h (not_ok_empty hnil rfl)
  obtain ⟨leaves', hlaid, htower, hhead, hdirty⟩ := updateLeaves_ok hnil (t := tree.live) hb.tower hb.head h
  have hrebuild : ∀ tree', rebuild P txs nodes updates = .ok tree' ↔ _ :=
    fun tree' => rebuild_ok hb hnodes hne (buildTree_length hbuild)
  constructor
  · rintro ⟨tree', t'', hok, hlayers, -⟩ k u w hu hw
    obtain ⟨leaves'', top, hrelaid, -, hhead'', -⟩ := (hrebuild tree').mp hok
    obtain rfl : leaves' = leaves'' := Option.some.inj (by rw [← hhead, ← hhead'', hlayers])
    obtain rfl := (lastOf_some hu).2
    obtain ⟨n, hn, hget⟩ := hlaid.accepted u (mem_winners.mpr hu)
    have hleaf := hrelaid.leaf _ _ n (List.getElem?_eq_getElem hn.lt) hget
    rw [Nat.zero_add, leafAfter, Int.toNat_of_nonneg hn.range.1, hw] at hleaf
    exact hn.node.trans hleaf.symm
  · intro hlast
    obtain ⟨top, htop, hroot⟩ := liveRoot_dirty htower hdirty
    have hrelaid : Relaid P updates 0 (atoms ++ nodes) leaves' := by
      refine ⟨hlaid.length, fun i n n' hn hn' => ?_⟩
      rw [← hlast.leafAfter_eq]
      exact hlaid.relaid.leaf i n n' hn hn'
    exact ⟨⟨t'.layers, hashOf P top⟩, _, (hrebuild _).mpr ⟨leaves', top, hrelaid, htower, hhead, htop, rfl⟩, rfl, hroot⟩

end

/-- A transfer of `v` units. -/
def pay (v : Int) : Tx := Tx.plain .transfer 1 9 v 1

def stableChoices : Choices := ⟨.stable _, .id, fun _ => .id⟩

/-- The second leaf, the first and the second again. -/
def threeChanges : List LeafUpdate := [⟨1, pay 30⟩, ⟨0, pay 50⟩, ⟨1, pay 40⟩]

/-- A stable sort keeps the last change of each index the last one. -/
theorem threeChanges_lastWins : LastWins Prim.sample stableChoices threeChanges := by
  intro k u w hu hw
  have hk : k = 0 ∨ k = 1 := by
    obtain ⟨hmem, rfl⟩ := lastOf_some hw
    simp only [threeChanges, List.mem_cons, List.not_mem_nil, or_false] at hmem
    rcases hmem with rfl | rfl | rfl <;> simp
  have hsame : ∀ k ∈ ([0, 1] : List Int), lastOf LeafUpdate.index (stableChoices.sort.run threeChanges) k =
      lastOf LeafUpdate.index threeChanges k := by
    decide +kernel
  rw [hsame k (by simpa using hk), hw] at hu
  rw [Option.some.inj hu]

/-- Both leaves of `transfersOf` replaced, the second one twice. -/
theorem incremental_eq_rebuild_repeated : ∃ tree t' tree' t'', buildTree Prim.sample (transfersOf 1) [] = .ok tree ∧
    updateLeaves Prim.sample stableChoices threeChanges tree.live = (.ok (), t') ∧
    rebuild Prim.sample (transfersOf 1) [] threeChanges = .ok tree' ∧ t'.layers = tree'.layers ∧
    liveRoot Prim.sample t' = (.ok tree'.root, t'') := by
  have hrun : (do
      let tree ← buildTree Prim.sample (transfersOf 1) []
      (updateLeaves Prim.sample stableChoices threeChanges tree.live).1 : Res Unit) = .ok () := by
    decide +kernel
  obtain ⟨tree, hbuild, hrun⟩ := Go.bind_eq_ok.mp hrun
  obtain ⟨tree', t'', hrebuild, hlayers, hroot⟩ := (incremental_eq_rebuild_iff (fun n hn => absurd hn List.not_mem_nil)
    hbuild (Prod.ext hrun rfl)).mpr threeChanges_lastWins
  exact ⟨tree, _, tree', t'', hbuild, Prod.ext hrun rfl, hrebuild, hlayers, hroot⟩

/-- Two changes of the second leaf, then eleven of the first. -/
def thirteen : List LeafUpdate := [⟨1, pay 30⟩, ⟨1, pay 40⟩] ++ List.replicate 11 ⟨0, pay 50⟩

/-- `thirteen` as `sort.Slice` returns it: its pivot, the seventh element, changes places with
    the first, and the twelve behind it are sorted by insertion. -/
def thirteenSorted : List LeafUpdate := List.replicate 11 ⟨0, pay 50⟩ ++ [⟨1, pay 40⟩, ⟨1, pay 30⟩]

def thirteenChoices : Choices where
  sort :=
    { run := fun l => if l = thirteen then thirteenSorted else (UnstableSort.stable LeafUpdate.index).run l
      perm := fun l => by
        by_cases h : l = thirteen
        · rw [if_pos h, h]
          exact List.perm_append_comm.trans ((List.Perm.swap _ _ _).append_right _)
        · rw [if_neg h]
          exact (UnstableSort.stable LeafUpdate.index).perm l
      sorted := fun l => by
        by_cases h : l = thirteen
        · rw [if_pos h]
          decide
        · rw [if_neg h]
          exact (UnstableSort.stable LeafUpdate.index).sorted l }
  keys := .id
  parents := fun _ => .id

/-- The first of the two changes wins. -/
theorem thirteen_changes : ∃ tree t' tree' r, buildTree Prim.sample (transfersOf 1) [] = .ok tree ∧
    updateLeaves Prim.sample thirteenChoices thirteen tree.live = (.ok (), t') ∧
    rebuild Prim.sample (transfersOf 1) [] thirteen = .ok tree' ∧ t'.layers ≠ tree'.layers ∧
    (liveRoot Prim.sample t').1 = .ok r ∧ r ≠ tree'.root := by
  have hrun : (do
      let tree ← buildTree Prim.sample (transfersOf 1) []
      let tree' ← rebuild Prim.sample (transfersOf 1) [] thirteen
      let result := updateLeaves Prim.sample thirteenChoices thirteen tree.live
      result.1
      let r ← (liveRoot Prim.sample result.2).1
      Go.check (result.2.layers ≠ tree'.layers ∧ r ≠ tree'.root) (.plain "same tree") : Res Unit) = .ok () := by
    decide +kernel
  obtain ⟨tree, hbuild, hrun⟩ := Go.bind_eq_ok.mp hrun
  obtain ⟨tree', hrebuild, hrun⟩ := Go.bind_eq_ok.mp hrun
  obtain ⟨_, hok, hrun⟩ := Go.bind_eq_ok.mp hrun
  obtain ⟨r, hroot, hrun⟩ := Go.bind_eq_ok.mp hrun
  obtain ⟨hlayers, hne⟩ := Go.check_eq_ok.mp hrun
  exact ⟨tree, _, tree', r, hbuild, Prod.ext hok rfl, hrebuild, hlayers, hroot, hne⟩

/-! ## Failed updates -/

/-- The change writes the leaf that is there. -/
def Rewrites (P : Prim) (leaves : List RGNode) (u : LeafUpdate) : Prop :=
  ∃ n, Accepted P leaves u n ∧ leaves[u.index.toNat]? = some n

/-- Of the changes kept after the sort one is refused, and those before it change nothing. -/
def RefusedFirst (P : Prim) (c : Choices) (updates : List LeafUpdate) (leaves : List RGNode) : Prop :=
  ∃ u, lastOf LeafUpdate.index (c.sort.run updates) u.index = some u ∧ Refused P leaves u ∧
    ∀ v, lastOf LeafUpdate.index (c.sort.run updates) v.index = some v → v.index < u.index → Rewrites P leaves v

theorem Laid.unchanged_iff {us : List LeafUpdate} {leaves leaves' : List RGNode} (h : Laid P us leaves leaves') :
    leaves' = leaves ↔ ∀ u ∈ us, Rewrites P leaves u := by
  constructor
  · rintro rfl u hu
    exact h.accepted u hu
  · intro hsame
    refine List.ext_getElem? fun i => ?_
    by_cases hus : ∃ u ∈ us, u.index = (i : Int)
    · obtain ⟨u, hu, hidx⟩ := hus
      obtain ⟨n, hn, hget⟩ := h.accepted u hu
      obtain ⟨m, hm, hold⟩ := hsame u hu
      obtain rfl := Go.ok.inj (hn.node.symm.trans hm.node)
      rw [hidx, Int.toNat_natCast] at hget hold
      rw [hget, hold]
    · exact h.others i fun u hu hidx => hus ⟨u, hu, hidx⟩

section

variable {txs : List Tx} {nodes : List RGNode} {tree : Tree} {c : Choices} {updates : List LeafUpdate} {t' : LiveTree}
  {e : Err}

theorem buildTree_layers (hnodes : Layer 0 nodes) (h : buildTree P txs nodes = .ok tree) :
    ∃ rest, tree.layers = tree.leaves :: rest ∧ (tree.leaves ≠ [] → Tower P 0 tree.layers) := by
  rcases buildTree_from hnodes h with ⟨rfl, -, -⟩ | ⟨-, atoms, hb⟩
  · exact ⟨[], rfl, fun hne => absurd rfl hne⟩
  · obtain ⟨leaves, rest, hls, -⟩ := hb.tower.coarsen (n := 9) (by decide)
    exact ⟨rest, by rw [Tree.leaves, hls]; rfl, fun _ => hb.tower⟩

/-- A failed update leaves the layers alone exactly when it is refused before it changes anything. -/
theorem layers_intact_iff (hnodes : Layer 0 nodes) (hbuild : buildTree P txs nodes = .ok tree)
    (h : updateLeaves P c updates tree.live = (.err e, t')) :
    (t'.root = tree.root ∧ t'.dirty = false) ∧ (t'.layers = tree.layers ↔ RefusedFirst P c updates tree.leaves) := by
  obtain ⟨rest, hlayers, htower⟩ := buildTree_layers hnodes hbuild
  obtain ⟨hroot, leaves', hhead, hcase⟩ := updateLeaves_err (t := tree.live) htower hlayers h
  refine ⟨hroot, ?_⟩
  rcases hcase with ⟨a, u, b, hab, hrefused, hlaid, hlayers'⟩ | ⟨hlaid, hne⟩
  · have hsorted := winners_sorted c updates
    rw [hab, List.pairwise_append, List.pairwise_cons] at hsorted
    obtain ⟨-, ⟨hbehind, -⟩, hbefore⟩ := hsorted
    have hmem : ∀ {v : LeafUpdate}, lastOf LeafUpdate.index (c.sort.run updates) v.index = some v ↔ v ∈ a ++ u :: b :=
      fun {v} => by rw [← hab, mem_winners]
    have hlt : ∀ {v : LeafUpdate}, v ∈ a ++ u :: b → v ∈ a ∨ u.index ≤ v.index := fun {v} hv => by
      rcases List.mem_append.mp hv with hv | hv
      · exact .inl hv
      · rcases List.mem_cons.mp hv with rfl | hv
        · exact .inr le_rfl
        · exact .inr (hbehind v hv).le
    rw [hlayers', hlayers, List.cons.injEq, and_iff_left rfl, hlaid.unchanged_iff]
    constructor
    · intro hsame
      refine ⟨u, hmem.mpr (List.mem_append_right _ List.mem_cons_self), hrefused, fun v hv hvu => hsame v ?_⟩
      exact (hlt (hmem.mp hv)).resolve_right (not_le.mpr hvu)
    · rintro ⟨w, hw, hwref, hsame⟩ v hv
      have hwa : w ∉ a := fun hwa => by
        obtain ⟨n, hn, -⟩ := hlaid.accepted w hwa
        exact hwref n hn
      have huw : u.index ≤ w.index := (hlt (hmem.mp hw)).resolve_left hwa
      exact hsame v (hmem.mpr (List.mem_append_left _ hv)) (lt_of_lt_of_le (hbefore v hv u List.mem_cons_self) huw)
  · refine iff_of_false (fun heq => hne ?_) fun hfirst => ?_
    · rw [heq, hlayers] at hhead
      exact (Option.some.inj hhead).symm
    · obtain ⟨u, hu, hrefused, -⟩ := hfirst
      obtain ⟨n, hn, -⟩ := hlaid.accepted u (mem_winners.mpr hu)
      exact hrefused n hn

/-- A failed update leaves layers, root and proofs as they were exactly when a change is refused
    before another has changed a leaf. -/
theorem failed_update_intact_iff (hnodes : Layer 0 nodes) (hbuild : buildTree P txs nodes = .ok tree)
    (h : updateLeaves P c updates tree.live = (.err e, t')) :
    (t'.layers = tree.layers ∧ (liveRoot P t').1 = .ok tree.root ∧
      ∀ idx, proofIn P t'.layers idx = proofIn P tree.layers idx) ↔ RefusedFirst P c updates tree.leaves := by
  obtain ⟨⟨hroot, hclean⟩, hiff⟩ := layers_intact_iff hnodes hbuild h
  rw [← hiff]
  constructor
  · exact fun h => h.1
  · intro hlayers
    refine ⟨hlayers, ?_, fun idx => by rw [hlayers]⟩
    unfold liveRoot
    rw [hclean, if_neg Bool.false_ne_true, hroot]

end

/-- A change past the end alone. -/
theorem failed_update_intact_bad_index : ∃ tree t' e, buildTree Prim.sample (transfersOf 1) [] = .ok tree ∧
    updateLeaves Prim.sample stableChoices [⟨5, pay 30⟩] tree.live = (.err e, t') ∧ t'.layers = tree.layers ∧
    (liveRoot Prim.sample t').1 = .ok tree.root ∧
    ∀ idx, proofIn Prim.sample t'.layers idx = proofIn Prim.sample tree.layers idx := by
  have hrun : (do
      let tree ← buildTree Prim.sample (transfersOf 1) []
      Go.check (tree.leaves.length = 2 ∧ (updateLeaves Prim.sample stableChoices [⟨5, pay 30⟩] tree.live).1 =
        .err (.rg .canonicalEncodingDistortion "leaf index 5 out of bounds [0, 2)")) (.plain "accepted") : Res Unit) =
      .ok () := by
    decide +kernel
  obtain ⟨tree, hbuild, hrun⟩ := Go.bind_eq_ok.mp hrun
  obtain ⟨hlen, herr⟩ := Go.check_eq_ok.mp hrun
  have hfirst : RefusedFirst Prim.sample stableChoices [⟨5, pay 30⟩] tree.leaves := by
    refine ⟨⟨5, pay 30⟩, rfl, fun n hn => ?_, fun v hv hlt => ?_⟩
    · have hrange := hn.range.2
      rw [hlen] at hrange
      exact absurd hrange (by decide)
    · obtain rfl := List.mem_singleton.mp (lastOf_some hv).1
      exact absurd hlt (lt_irrefl _)
  obtain ⟨hlayers, hroot, hproofs⟩ := (failed_update_intact_iff (fun n hn => absurd hn List.not_mem_nil) hbuild
    (Prod.ext herr rfl)).mpr hfirst
  exact ⟨tree, _, _, hbuild, Prod.ext herr rfl, hlayers, hroot, hproofs⟩

/-- The leaf before a bad index is replaced, and so are two leaves whose squares do not fit; the
    root is kept, and the proof of the replaced leaf does not lead to it. -/
theorem bad_index_after_change : ∃ tree, buildTree Prim.sample (transfersOf 1) [] = .ok tree ∧
    (∃ t' p, updateLeaves Prim.sample stableChoices [⟨0, pay 30⟩, ⟨5, pay 40⟩] tree.live =
        (.err (.rg .canonicalEncodingDistortion "leaf index 5 out of bounds [0, 2)"), t') ∧
      t'.layers ≠ tree.layers ∧ (liveRoot Prim.sample t').1 = .ok tree.root ∧
      proofIn Prim.sample t'.layers 0 = .ok p ∧
      ∀ x, (pay 30).id Prim.sample = .ok x → verifyProof Prim.sample (some p) x tree.root = .ok false) ∧
    ∃ t', updateLeaves Prim.sample stableChoices [⟨0, pay (2 ^ 128 - 1)⟩, ⟨1, pay (2 ^ 128 - 1)⟩] tree.live =
        (.err (.rg .arithmeticOverflow "sumSquares overflow"), t') ∧ t'.layers ≠ tree.layers := by
  have hrun : (do
      let tree ← buildTree Prim.sample (transfersOf 1) []
      let bad := updateLeaves Prim.sample stableChoices [⟨0, pay 30⟩, ⟨5, pay 40⟩] tree.live
      let big := updateLeaves Prim.sample stableChoices [⟨0, pay (2 ^ 128 - 1)⟩, ⟨1, pay (2 ^ 128 - 1)⟩] tree.live
      let p ← proofIn Prim.sample bad.2.layers 0
      let x ← (pay 30).id Prim.sample
      Go.check ((bad.1 = .err (.rg .canonicalEncodingDistortion "leaf index 5 out of bounds [0, 2)") ∧
        bad.2.layers ≠ tree.layers ∧ (liveRoot Prim.sample bad.2).1 = .ok tree.root ∧
        verifyProof Prim.sample (some p) x tree.root = .ok false) ∧
        big.1 = .err (.rg .arithmeticOverflow "sumSquares overflow") ∧ big.2.layers ≠ tree.layers)
        (.plain "intact") : Res Unit) = .ok () := by
    decide +kernel
  obtain ⟨tree, hbuild, hrun⟩ := Go.bind_eq_ok.mp hrun
  obtain ⟨p, hp, hrun⟩ := Go.bind_eq_ok.mp hrun
  obtain ⟨x, hx, hrun⟩ := Go.bind_eq_ok.mp hrun
  obtain ⟨⟨hbad, hlayers, hroot, hreject⟩, hbig, hchanged⟩ := Go.check_eq_ok.mp hrun
  refine ⟨tree, hbuild, ⟨_, p, Prod.ext hbad rfl, hlayers, hroot, hp, fun y hy => ?_⟩, _, Prod.ext hbig rfl, hchanged⟩
  obtain rfl := Go.ok.inj (hx.symm.trans hy)
  exact hreject

/-! ## Proofs from updated trees -/

/-- Trees built from transactions and the contract leaves `nodes` and then updated, each update a
    success, with the transactions as they are now; `Root` may be asked for at any time. -/
inductive Grown (P : Prim) (nodes : List RGNode) : List Tx → LiveTree → Prop
  | built {txs : List Tx} {tree : Tree} : buildTree P txs nodes = .ok tree → Grown P nodes txs tree.live
  | updated {txs : List Tx} {t t' : LiveTree} (c : Choices) (updates : List LeafUpdate) : Grown P nodes txs t →
    updateLeaves P c updates t = (.ok (), t') → Grown P nodes (updatedTxs (c.sort.run updates) txs) t'
  | rooted {txs : List Tx} {t t' : LiveTree} {r : Hash} : Grown P nodes txs t → liveRoot P t = (.ok r, t') →
    Grown P nodes txs t'

/-- A tree with a root that is known or can be computed. -/
structure Standing (P : Prim) (t : LiveTree) : Prop where
  tower : Tower P 0 t.layers
  root : t.dirty = false → ∃ top, t.layers.getLast? = some [top] ∧ t.root = hashOf P top

/-- The empty tree, which no update succeeds on. -/
def Bare (t : LiveTree) : Prop := t.layers = [[]] ∧ t.dirty = false

theorem Standing.liveRoot {t : LiveTree} (h : Standing P t) : ∃ top t', t.layers.getLast? = some [top] ∧
    liveRoot P t = (.ok (hashOf P top), t') ∧ t'.layers = t.layers ∧ Standing P t' := by
  cases hdirty : t.dirty with
  | true =>
    obtain ⟨top, htop, hroot⟩ := liveRoot_dirty h.tower hdirty
    exact ⟨top, _, htop, hroot, rfl, h.tower, fun _ => ⟨top, htop, rfl⟩⟩
  | false =>
    obtain ⟨top, htop, hroot⟩ := h.root hdirty
    refine ⟨top, t, htop, ?_, rfl, h⟩
    unfold RG.liveRoot
    rw [hdirty, if_neg Bool.false_ne_true, hroot]

theorem updatedTxs_leaves {txs : List Tx} {t : LiveTree} {c : Choices} {updates : List LeafUpdate}
    {leaves' : List RGNode}
    (h : atomicLayer P txs = .ok t.leaves) (hlaid : Laid P (winners c updates) t.leaves leaves') :
    atomicLayer P (updatedTxs (c.sort.run updates) txs) = .ok leaves' :=
  (atomicLayer_updated h).mpr hlaid.relaid

theorem Grown.inv {nodes : List RGNode} (hnodes : Layer 0 nodes) {txs : List Tx} {t : LiveTree}
    (h : Grown P nodes txs t) :
    (Bare t ∨ Standing P t) ∧ (nodes = [] → atomicLayer P txs = .ok t.leaves) := by
  induction h with
  | @built txs tree hbuild =>
    rcases buildTree_from hnodes hbuild with ⟨rfl, rfl, -⟩ | ⟨hne, atoms, hb⟩
    · exact ⟨.inl ⟨rfl, rfl⟩, fun _ => rfl⟩
    · obtain ⟨-, -, top, -, -, -, htop, hroot⟩ := (buildTree_tower hne hnodes).mp hbuild
      refine ⟨.inr ⟨hb.tower, fun _ => ⟨top, htop, hroot⟩⟩, fun hnil => ?_⟩
      have hhead := hb.head
      rw [hnil, List.append_nil] at hhead
      show atomicLayer P txs = .ok (tree.layers.headD [])
      rw [List.headD_eq_head?_getD, hhead]
      exact hb.atomic
  | @updated txs t t' c updates _ hup ih =>
    by_cases hnil : updates = []
    · subst hnil
      obtain ⟨-, rfl⟩ := Act.pure_ok.mp hup
      rw [List.perm_nil.mp (c.sort.perm []), updatedTxs_nil]
      exact ih
    · rcases ih.1 with hbare | hstanding
      · exact absurd hup (not_ok_empty hnil hbare.1)
      · obtain ⟨leaves, rest, hls, -⟩ := hstanding.tower.coarsen (n := 9) (by decide)
        have hleaves : t.leaves = leaves := by rw [Tree.leaves, hls]; rfl
        obtain ⟨leaves', hlaid, htower, hhead, hdirty⟩ := updateLeaves_ok hnil hstanding.tower (by rw [hls]; rfl) hup
        refine ⟨.inr ⟨htower, fun hclean => absurd (hclean.symm.trans hdirty) Bool.false_ne_true⟩, fun hnodes => ?_⟩
        rw [updatedTxs_leaves (ih.2 hnodes) (hleaves ▸ hlaid), Tree.leaves, List.headD_eq_head?_getD, hhead]
        rfl
  | @rooted txs t t' r _ hroot ih =>
    rcases ih.1 with hbare | hstanding
    · have hsame : liveRoot P t = (.ok t.root, t) := by
        unfold liveRoot
        rw [hbare.2, if_neg Bool.false_ne_true]
      obtain rfl := (Prod.mk.inj (hsame.symm.trans hroot)).2
      exact ih
    · obtain ⟨top, t₁, htop, hrun, hlayers, hstanding'⟩ := hstanding.liveRoot
      obtain rfl := (Prod.mk.inj (hrun.symm.trans hroot)).2
      refine ⟨.inr hstanding', fun hnodes => ?_⟩
      rw [Tree.leaves, hlayers]
      exact ih.2 hnodes

/-- Every leaf of a tree that was built and updated has a proof both verifiers accept against its
    root; over transactions only it is the one made from their list. -/
theorem proofs_complete {nodes : List RGNode} (hnodes : Layer 0 nodes) {txs : List Tx} {t : LiveTree}
    (h : Grown P nodes txs t) {idx : Nat} (hidx : idx < t.leaves.length) :
    ∃ leaf x p r t', t.leaves[idx]? = some leaf ∧ leaf.children = [x] ∧ proofIn P t.layers idx = .ok p ∧
      liveRoot P t = (.ok r, t') ∧ verifyProof P (some p) x r = .ok true ∧
      verifyProofCanonical P (some p) x r = true ∧ (nodes = [] → generateProof P txs idx = .ok p) := by
  obtain ⟨hbare | hstanding, hatoms⟩ := h.inv hnodes
  · have hempty : t.leaves = [] := by rw [Tree.leaves, hbare.1]; rfl
    rw [hempty] at hidx
    exact absurd hidx (Nat.not_lt_zero _)
  obtain ⟨leaves, rest, hls, -, hlay, -⟩ := hstanding.tower.coarsen (n := 9) (by decide)
  have hleaves : t.leaves = leaves := by rw [Tree.leaves, hls]; rfl
  have hhead : t.layers.head? = some t.leaves := by rw [hleaves, hls]; rfl
  obtain ⟨leaf, hleaf⟩ : ∃ leaf, t.leaves[idx]? = some leaf := ⟨_, List.getElem?_eq_getElem hidx⟩
  obtain ⟨x, hx⟩ := List.length_eq_one_iff.mp (hlay leaf (hleaves ▸ List.mem_of_getElem? hleaf)).arity
  obtain ⟨p, top, hp, htop, hfast, hcanonical⟩ := proofIn_complete hstanding.tower hhead hleaf hx
  obtain ⟨top', t', htop', hroot, -⟩ := hstanding.liveRoot
  obtain rfl : top = top' := by simpa using htop.symm.trans htop'
  refine ⟨leaf, x, p, _, t', hleaf, hx, hp, hroot, hfast, hcanonical, fun hnil => ?_⟩
  rw [generateProof_eq (hatoms hnil) hstanding.tower hhead, hp]

/-- Two transfers, the second replaced. -/
theorem proofs_complete_replaced :
    ∃ t leaf x p r t', Grown Prim.sample [] (transfersOf 1 |> updatedTxs [⟨1, pay 30⟩]) t ∧
    t.leaves[1]? = some leaf ∧ leaf.children = [x] ∧ proofIn Prim.sample t.layers 1 = .ok p ∧
    liveRoot Prim.sample t = (.ok r, t') ∧ verifyProof Prim.sample (some p) x r = .ok true := by
  have hrun : (do
      let tree ← buildTree Prim.sample (transfersOf 1) []
      let result := updateLeaves Prim.sample stableChoices [⟨1, pay 30⟩] tree.live
      result.1
      Go.check (1 < result.2.leaves.length) (.plain "no leaf") : Res Unit) = .ok () := by
    decide +kernel
  obtain ⟨tree, hbuild, hrun⟩ := Go.bind_eq_ok.mp hrun
  obtain ⟨_, hok, hrun⟩ := Go.bind_eq_ok.mp hrun
  have hgrown := Grown.updated stableChoices _ (Grown.built hbuild) (Prod.ext hok rfl)
  obtain ⟨leaf, x, p, r, t', hleaf, hx, hp, hroot, hfast, -⟩ :=
    proofs_complete (fun n hn => absurd hn List.not_mem_nil) hgrown (Go.check_eq_ok.mp hrun)
  exact ⟨_, leaf, x, p, r, t', hgrown, hleaf, hx, hp, hroot, hfast⟩

end Frg.RG
