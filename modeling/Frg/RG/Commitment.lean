/-
  Frg.RG.Commitment — what the root of an RG tree commits to.

  Two trees may have different numbers of leaves, so that the layers of one are padded where
  the other has nodes. A node over a leaf counts at least one (`Counted`), so its signature
  tells it from the padding, and the scale tells the heights of two trees apart.

    - `coarsen_bytes_counted`: without collisions, the bytes of the top node fix those of the
      leaves, and with them their number.
    - `root_commits`: two lists of transactions, empty ones included, with the same root have
      the same length and the same transaction IDs in the same order.
-/

import Frg.RG.Coarsen

namespace Frg.RG

open Frg.Lib Frg.Core Frg.Wire

variable {P : Prim}

/-! ## Nodes and padding -/

/-- A node with a leaf below it. -/
structure Counted (n : RGNode) : Prop where
  sig : n.sig ≠ .nullPad
  count : 0 < n.count

theorem deriveSignature_counted {n : RGNode} (h : 0 < n.count) : deriveSignature P n ≠ .nullPad := by
  have hnot : isNullPadNode P n = false := by
    have : n.count ≠ 0 := by omega
    simp [isNullPadNode, this]
  unfold deriveSignature
  rw [hnot, if_neg Bool.false_ne_true]
  split_ifs <;> decide

theorem coarseGrain_counted {l : Nat} (hl : l ≤ 8) {chunk : List RGNode} (hlay : Layer l chunk)
    (hcounted : ∃ n ∈ chunk, Counted n) {p : RGNode} (h : coarseGrain P chunk (4 ^ (l + 1)) = .ok p) : Counted p := by
  obtain ⟨s, h1, h⟩ := Go.bind_eq_ok.mp h
  obtain ⟨-, -, rfl⟩ := (addChildren_ok hl hlay (by positivity) (by positivity)).mp h1
  obtain ⟨volume, -, h⟩ := Go.bind_eq_ok.mp h
  obtain ⟨variance, -, h⟩ := Go.bind_eq_ok.mp h
  obtain ⟨squares, -, h⟩ := Go.bind_eq_ok.mp h
  obtain ⟨_, -, h⟩ := Go.bind_eq_ok.mp h
  obtain rfl := Go.ok.inj h
  obtain ⟨n, hn, hr⟩ := hcounted
  have hcount : 0 < (Sums.after P ⟨0, 0, 0, 0, []⟩ chunk).count := by
    have hle := List.single_le_sum (fun _ _ => Nat.zero_le _) _ (List.mem_map_of_mem (f := RGNode.count) hn)
    have := hr.count
    simp only [Sums.after]
    omega
  exact ⟨deriveSignature_counted hcount, hcount⟩

theorem Parents.counted {l : Nat} (hl : l ≤ 8) {layer parents : List RGNode} (hlay : Layer l layer)
    (hcounted : ∀ n ∈ layer, Counted n) (h : Parents P l layer parents) : ∀ p ∈ parents, Counted p := by
  intro p hp
  obtain ⟨c, hc, hcp⟩ := Go.forall₂_left h hp
  obtain ⟨hne, -, hsub⟩ := mem_chunks hc
  obtain ⟨n, hn⟩ := List.exists_mem_of_ne_nil _ hne
  exact coarseGrain_counted hl (padded_layer fun m hm => hlay m (hsub m hm))
    ⟨n, List.mem_append_left _ hn, hcounted n (hsub n hn)⟩ hcp

/-- The padding nodes of all levels. -/
def nullNodes (P : Prim) : List RGNode := (List.range 9).map (nullNodeAt P)

theorem nullNodeAt_mem (P : Prim) {l : Nat} (h : l ≤ 8) : nullNodeAt P l ∈ nullNodes P :=
  List.mem_map_of_mem (List.mem_range.mpr (by omega))

theorem mem_padded {l : Nat} (hl : l ≤ 8) {c N : List RGNode} (hc : ∀ x ∈ c, x ∈ N) {x : RGNode}
    (hx : x ∈ padded P l c) : x ∈ N ++ nullNodes P := by
  rcases List.mem_append.mp hx with hx | hx
  · exact List.mem_append_left _ (hc x hx)
  · exact List.mem_append_right _ (List.eq_of_mem_replicate hx ▸ nullNodeAt_mem P hl)

theorem nullNodeAt_sig (P : Prim) (l : Nat) : (nullNodeAt P l).sig = .nullPad := by cases l <;> rfl

/-- Behind the nodes of a piece its padding is recognised. -/
theorem padded_bytes {null : RGNode} (hnull : null.sig = .nullPad) : ∀ {c d : List RGNode} {a b : Nat},
    (∀ n ∈ c, Counted n) → (∀ n ∈ d, Counted n) →
    (c ++ List.replicate a null).map RGNode.bytes = (d ++ List.replicate b null).map RGNode.bytes →
    c.map RGNode.bytes = d.map RGNode.bytes := by
  -- a node in the place of padding would have its signature
  have hfirst : ∀ {x : RGNode} {l : List RGNode} {a : Nat}, Counted x →
      (List.replicate a null).map RGNode.bytes ≠ (x :: l).map RGNode.bytes := by
    intro x l a hx h
    cases a with
    | zero => cases h
    | succ a =>
      rw [List.replicate_succ, List.map_cons, List.map_cons, List.cons.injEq] at h
      exact hx.sig ((RGNode.bytes_fields h.1).2.2.2.1.symm.trans hnull)
  intro c
  induction c with
  | nil =>
    intro d a b _ hd h
    cases d with
    | nil => rfl
    | cons x d => exact absurd h (hfirst (hd x List.mem_cons_self))
  | cons x c ih =>
    intro d a b hc hd h
    cases d with
    | nil => exact absurd h.symm (hfirst (hc x List.mem_cons_self))
    | cons y d =>
      rw [List.cons_append, List.cons_append, List.map_cons, List.map_cons, List.cons.injEq] at h
      rw [List.map_cons, List.map_cons, h.1,
        ih (fun n hn => hc n (List.mem_cons_of_mem _ hn)) (fun n hn => hd n (List.mem_cons_of_mem _ hn)) h.2]

/-- Two layers of any lengths whose top nodes have the same bytes have the same bytes. -/
theorem coarsen_bytes_counted {n l : Nat} {layer layer' : List RGNode} {ls ls' : List (List RGNode)} {top top' : RGNode}
    (hl : l ≤ 8) (hne : layer ≠ []) (hne' : layer' ≠ []) (hlay : Layer l layer) (hlay' : Layer l layer')
    (hcounted : ∀ n ∈ layer, Counted n) (hcounted' : ∀ n ∈ layer', Counted n) (h : coarsen P n layer = .ok ls)
    (h' : coarsen P n layer' = .ok ls') (hap : Apart P (ls.flatten ++ nullNodes P) (ls'.flatten ++ nullNodes P))
    (ht : ls.getLast? = some [top]) (ht' : ls'.getLast? = some [top']) (hb : top.bytes = top'.bytes) :
    layer.map RGNode.bytes = layer'.map RGNode.bytes := by
  refine coarsen_undo (M := fun _ layer layer' => (∀ n ∈ layer, Counted n) ∧ ∀ n ∈ layer', Counted n)
    (fun {l layer layer' ps qs} hl hlay hlay' hN hN' hM hp hq =>
      ⟨⟨hp.counted hl hlay hM.1, hq.counted hl hlay' hM.2⟩, fun hb => ?_⟩)
    hl hne hne' hlay hlay' ⟨hcounted, hcounted'⟩ h h' (fun _ => id) (fun _ => id) ht ht' hb
  refine hp.bytes hl hlay hlay' hq (List.forall₂_iff_get.mpr ⟨?_, fun i hi hi' hhash => ?_⟩) hb
  · rw [hp.length_eq, hq.length_eq]
    simpa using congrArg List.length hb
  · obtain ⟨-, -, hsub⟩ := mem_chunks (List.get_mem _ ⟨i, hi⟩)
    obtain ⟨-, -, hsub'⟩ := mem_chunks (List.get_mem _ ⟨i, hi'⟩)
    have hap' : Apart P (padded P l _) (padded P l _) := fun x hx y hy =>
      hap x (mem_padded hl (fun x hx => hN x (hsub x hx)) hx) y (mem_padded hl (fun y hy => hN' y (hsub' y hy)) hy)
    exact padded_bytes (nullNodeAt_sig P l) (fun n hn => hM.1 n (hsub n hn)) (fun n hn => hM.2 n (hsub' n hn))
      (map_bytes_of_hash hap' hhash)

/-! ## Trees -/

/-- The node whose root stands for an empty block. -/
def emptyBlockNode (P : Prim) : RGNode :=
  { scale := 1, volume := 0, variance := 0, sig := .stagnantState, children := [emptyBlockChildRoot P], sumSquares := 0
    count := 0, contractCount := 0 }

def Tree.leaves (tree : Tree) : List RGNode := tree.layers.headD []

/-- The nodes of a tree, and the ones that stand for what is not there. -/
def hashedNodes (P : Prim) (tree : Tree) : List RGNode := tree.layers.flatten ++ (emptyBlockNode P :: nullNodes P)

/-- What the leaves of transactions and of contracts have in common. -/
structure Leaf (n : RGNode) : Prop where
  level : AtLevel 0 n
  sig : n.sig = .atomic
  count : 0 < n.count

theorem Leaf.counted {n : RGNode} (h : Leaf n) : Counted n := ⟨by rw [h.sig]; decide, h.count⟩

theorem atomicLayer_leaf {txs : List Tx} {leaves : List RGNode} (h : atomicLayer P txs = .ok leaves) :
    ∀ n ∈ leaves, Leaf n := by
  intro n hn
  obtain ⟨t, -, ht⟩ := Go.mem_of_mapM h hn
  obtain ⟨hlev, hsig, hcount, -⟩ := makeAtomicNode_ok ht
  exact ⟨hlev, hsig, by omega⟩

/-- The root over leaves that are there is the hash of the top node. -/
structure Topped (P : Prim) (tree : Tree) (top : RGNode) : Prop where
  leaves : tree.leaves ≠ []
  coarsened : coarsen P 10 tree.leaves = .ok tree.layers
  last : tree.layers.getLast? = some [top]
  root : tree.root = P.hash top.bytes

theorem Topped.mem_layers {tree : Tree} {top : RGNode} (h : Topped P tree top) : top ∈ tree.layers.flatten :=
  List.mem_flatten.mpr ⟨_, List.mem_of_getLast? h.last, List.mem_singleton_self _⟩

theorem Topped.mem {tree : Tree} {top : RGNode} (h : Topped P tree top) : top ∈ hashedNodes P tree :=
  List.mem_append_left _ h.mem_layers

theorem buildTree_leaves {txs : List Tx} {nodes : List RGNode} {tree : Tree} (hnodes : ∀ n ∈ nodes, Leaf n)
    (h : buildTree P txs nodes = .ok tree) :
    (∃ leaves, atomicLayer P txs = .ok leaves ∧ tree.leaves = leaves ++ nodes) ∧ (∀ n ∈ tree.leaves, Leaf n) ∧
      (tree.leaves = [] ∧ tree.root = P.hash (emptyBlockNode P).bytes ∨ ∃ top, Topped P tree top) := by
  by_cases hne : txs ≠ [] ∨ nodes ≠ []
  · obtain ⟨-, leaves, top, h1, h2, ht, hroot⟩ := (buildTree_ok hne fun n hn => (hnodes n hn).level).mp h
    have hhead : tree.leaves = leaves ++ nodes := coarsen_head h2
    have hnil : leaves ++ nodes ≠ [] := fun e => by
      obtain ⟨rfl, rfl⟩ := List.append_eq_nil_iff.mp e
      exact hne.elim (· (List.length_eq_zero_iff.mp (atomicLayer_layer h1).2.symm)) (· rfl)
    refine ⟨⟨leaves, h1, hhead⟩, ?_, .inr ⟨top, by rwa [hhead], by rwa [hhead], ht, hroot⟩⟩
    rw [hhead]
    exact fun n hn => (List.mem_append.mp hn).elim (atomicLayer_leaf h1 n) (hnodes n)
  · obtain ⟨rfl, rfl⟩ := not_or.mp hne |>.imp not_not.mp not_not.mp
    rw [buildTree, if_pos ⟨rfl, rfl⟩] at h
    obtain rfl := Go.ok.inj h
    exact ⟨⟨[], rfl, rfl⟩, hnodes, .inl ⟨rfl, rfl⟩⟩

/-- An empty block has the root of no other. -/
theorem Topped.ne_empty {tree : Tree} {top : RGNode} (hleaves : ∀ n ∈ tree.leaves, Leaf n) (h : Topped P tree top) :
    top.bytes ≠ (emptyBlockNode P).bytes := by
  intro hb
  have hempty : AtLevel 0 (emptyBlockNode P) := ⟨rfl, rfl⟩
  rcases coarsen_top (Nat.zero_le 8) h.leaves (fun n hn => (hleaves n hn).level) h.coarsened h.last with
    hone | ⟨-, m, hpos, hm, hlev⟩
  · have hsig := (hleaves top (hone ▸ List.mem_singleton_self _)).sig
    rw [(RGNode.bytes_fields hb).2.2.2.1] at hsig
    cases hsig
  · exact absurd (hlev.level_eq hempty hm (Nat.zero_le 8) hb) (by omega)

/-- Two trees with the same root have the same leaves, unless two of the nodes collide. -/
theorem buildTree_leaves_inj {txs txs' : List Tx} {nodes nodes' : List RGNode} {tree tree' : Tree}
    (hnodes : ∀ n ∈ nodes, Leaf n) (hnodes' : ∀ n ∈ nodes', Leaf n) (h : buildTree P txs nodes = .ok tree)
    (h' : buildTree P txs' nodes' = .ok tree') (hap : Apart P (hashedNodes P tree) (hashedNodes P tree'))
    (hroot : tree.root = tree'.root) : tree.leaves.map RGNode.bytes = tree'.leaves.map RGNode.bytes := by
  have hempty : ∀ tree : Tree, emptyBlockNode P ∈ hashedNodes P tree := fun tree =>
    List.mem_append_right _ List.mem_cons_self
  have hsub : ∀ (tree : Tree), ∀ x ∈ tree.layers.flatten ++ nullNodes P, x ∈ hashedNodes P tree := fun tree x hx =>
    (List.mem_append.mp hx).elim (List.mem_append_left _)
      fun hx => List.mem_append_right _ (List.mem_cons_of_mem _ hx)
  obtain ⟨-, hleaves, hcase⟩ := buildTree_leaves hnodes h
  obtain ⟨-, hleaves', hcase'⟩ := buildTree_leaves hnodes' h'
  rcases hcase with ⟨hnil, hr⟩ | ⟨top, htop⟩ <;> rcases hcase' with ⟨hnil', hr'⟩ | ⟨top', htop'⟩
  · rw [hnil, hnil']
  · have hb := hap _ (hempty tree) top' htop'.mem (hr.symm.trans (hroot.trans htop'.root))
    exact absurd hb.symm (htop'.ne_empty hleaves')
  · have hb := hap top htop.mem _ (hempty tree') (htop.root.symm.trans (hroot.trans hr'))
    exact absurd hb (htop.ne_empty hleaves)
  · have hb := hap top htop.mem top' htop'.mem (htop.root.symm.trans (hroot.trans htop'.root))
    exact coarsen_bytes_counted (Nat.zero_le 8) htop.leaves htop'.leaves (fun n hn => (hleaves n hn).level)
      (fun n hn => (hleaves' n hn).level) (fun n hn => (hleaves n hn).counted) (fun n hn => (hleaves' n hn).counted)
      htop.coarsened htop'.coarsened (fun x hx y hy => hap x (hsub tree x hx) y (hsub tree' y hy)) htop.last
        htop'.last hb

theorem atomicLayer_ids {txs : List Tx} {leaves : List RGNode} (h : atomicLayer P txs = .ok leaves) :
    ∃ ids : List Hash, txs.map (fun t => t.id P) = ids.map .ok ∧ leaves.map RGNode.children = ids.map fun x => [x] := by
  replace h := Go.mapM_eq_ok.mp h
  induction h with
  | nil => exact ⟨[], rfl, rfl⟩
  | cons h1 _ ih =>
    obtain ⟨-, -, -, x, hid, hch⟩ := makeAtomicNode_ok h1
    obtain ⟨ids, hids, hchs⟩ := ih
    exact ⟨x :: ids, by rw [List.map_cons, hid, hids]; rfl, by rw [List.map_cons, hch, hchs]; rfl⟩

theorem map_children_of_bytes {l m : List RGNode} (h : l.map RGNode.bytes = m.map RGNode.bytes) :
    l.map RGNode.children = m.map RGNode.children := by
  rw [← List.forall₂_eq_eq_eq, List.forall₂_map_left_iff, List.forall₂_map_right_iff] at h ⊢
  exact h.imp fun n n' hb => (RGNode.bytes_inj hb).2

/-- Two lists of transactions with one root are lists of the same transaction IDs. -/
theorem root_commits {txs txs' : List Tx} {tree tree' : Tree} (h : buildTree P txs [] = .ok tree)
    (h' : buildTree P txs' [] = .ok tree') (hap : Apart P (hashedNodes P tree) (hashedNodes P tree'))
    (hroot : tree.root = tree'.root) :
    txs.length = txs'.length ∧ txs.map (fun t => t.id P) = txs'.map (fun t => t.id P) := by
  have hnone : ∀ n ∈ ([] : List RGNode), Leaf n := fun n hn => absurd hn List.not_mem_nil
  obtain ⟨⟨leaves, h1, hl⟩, -⟩ := buildTree_leaves hnone h
  obtain ⟨⟨leaves', h1', hl'⟩, -⟩ := buildTree_leaves hnone h'
  have hbytes := buildTree_leaves_inj hnone hnone h h' hap hroot
  rw [hl, hl', List.append_nil, List.append_nil] at hbytes
  obtain ⟨ids, hids, hch⟩ := atomicLayer_ids h1
  obtain ⟨ids', hids', hch'⟩ := atomicLayer_ids h1'
  have heq : ids = ids' := by
    have hsame := map_children_of_bytes hbytes
    rw [hch, hch'] at hsame
    exact List.map_injective_iff.mpr (fun x y hxy => (List.cons.inj hxy).1) hsame
  have hmap : txs.map (fun t => t.id P) = txs'.map (fun t => t.id P) := by rw [hids, hids', heq]
  exact ⟨by simpa using congrArg List.length hmap, hmap⟩

/-- Two transfers of one sender. -/
def transfersOf (sender : Key) : List Tx := [10, 20].map fun v => Tx.plain .transfer sender 9 v 1

/-- The IDs do not cover the senders. -/
theorem root_commits_transfers : (transfersOf 1).length = (transfersOf 2).length ∧
    (transfersOf 1).map (fun t => t.id Prim.sample) = (transfersOf 2).map (fun t => t.id Prim.sample) := by
  have hrun : (do
      let tree ← buildTree Prim.sample (transfersOf 1) []
      let tree' ← buildTree Prim.sample (transfersOf 2) []
      Go.check (tree.root = tree'.root ∧ ∀ a ∈ hashedNodes Prim.sample tree, ∀ b ∈ hashedNodes Prim.sample tree',
        Prim.sample.hash a.bytes = Prim.sample.hash b.bytes → a.bytes = b.bytes) (.plain "collision") : Res Unit) =
      .ok () := by
    decide +kernel
  obtain ⟨tree, h, hrun⟩ := Go.bind_eq_ok.mp hrun
  obtain ⟨tree', h', hrun⟩ := Go.bind_eq_ok.mp hrun
  obtain ⟨hroot, hap⟩ := Go.check_eq_ok.mp hrun
  exact root_commits h h' hap hroot

end Frg.RG
