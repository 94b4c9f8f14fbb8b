/-
  Frg.Chain.Replicas — replicas that walk the map of touched contracts in different orders.

  The contract leaves enter the tree in the order of the walk, and the tree's root depends
  on it. What is proved:

    - `accepted_any_order`: whether a block without a claimed root is accepted does not
      depend on the order.
    - `roots_agree_iff`: replicas that accept a block agree on its root exactly when the
      block claims a root, or all contracts it touches have the same leaf.
-/

import Frg.Chain.Genesis
import Frg.Chain.Run
import Frg.RG.Coarsen
import Mathlib.Data.List.Permutation
import Mathlib.Logic.Equiv.Basic

namespace Frg.Chain

open Frg.Lib Frg.Core Frg.Wire Frg.Contract Frg.RG Act

variable {W : World} {db post : DB} {b : Block} {chainID : List UInt8} {order order' : MapOrder}

/-! ## Contract leaves -/

/-- What the leaf of a contract shows: its balance and the root of its state. -/
def leafOf (W : World) (db : DB) (a : Key) : Int × Hash := (readBalance db a, loadStateRoot W.toEnv db a)

theorem contractNode_ok {a : Key} {n : RGNode} (h : contractNode W db a = .ok n) :
    AtLevel 0 n ∧ (n.volume.val : Int) = (leafOf W db a).1 ∧ n.children = [(leafOf W db a).2] := by
  obtain ⟨volume, h1, h⟩ := Go.bind_eq_ok.mp h
  obtain ⟨squares, -, h⟩ := Go.bind_eq_ok.mp h
  obtain rfl := Go.ok.inj h
  have hv := uint256ToBytes_ok.mp h1
  refine ⟨⟨rfl, rfl⟩, ?_, rfl⟩
  show (volume.val : Int) = readBalance db a
  rw [hv, Int.toNat_of_nonneg (readBalance_nonneg db a)]

theorem contractNode_bytes {a a' : Key} {n n' : RGNode} (h : contractNode W db a = .ok n)
    (h' : contractNode W db a' = .ok n') (hb : n.bytes = n'.bytes) : leafOf W db a = leafOf W db a' := by
  obtain ⟨-, hv, hc⟩ := contractNode_ok h
  obtain ⟨-, hv', hc'⟩ := contractNode_ok h'
  obtain ⟨e1, e2⟩ := RGNode.bytes_inj hb
  refine Prod.ext ?_ ?_
  · rw [← hv, ← hv', e1]
  · simpa [hc, hc'] using e2

theorem contractNode_congr {a a' : Key} (h : leafOf W db a = leafOf W db a') :
    contractNode W db a = contractNode W db a' := by
  obtain ⟨h1, h2⟩ := Prod.mk.inj h
  unfold contractNode
  rw [h1, h2]

theorem contractNodes_layer {outs : List TxOut} {nodes : List RGNode} (h : contractNodes W order outs db = .ok nodes) :
    Layer 0 nodes := by
  intro n hn
  obtain ⟨a, -, ha⟩ := Go.mem_of_mapM h hn
  exact (contractNode_ok ha).1

/-- `tree` is the tree of the block when the touched contracts are walked in this order. -/
def TreeOf (W : World) (db : DB) (b : Block) (chainID : List UInt8) (order : MapOrder) (tree : Tree) : Prop :=
  ∃ outs after nodes, txLoop W (ctxOf db b chainID) b.txs db = (.ok outs, after) ∧
    contractNodes W order outs after = .ok nodes ∧ buildTree W.toPrim b.txs nodes = .ok tree

/-- The leaves of the contracts the block's transactions touch, after them. -/
def leavesOf (W : World) (db : DB) (b : Block) (chainID : List UInt8) : List (Int × Hash) :=
  match txLoop W (ctxOf db b chainID) b.txs db with
  | (.ok outs, after) => (touchedOf outs).map (leafOf W after)
  | _ => []

/-- All touched contracts have the same leaf. -/
abbrev OneLeaf (W : World) (db : DB) (b : Block) (chainID : List UInt8) : Prop :=
  ∀ x ∈ leavesOf W db b chainID, ∀ y ∈ leavesOf W db b chainID, x = y

theorem leavesOf_eq {outs : List TxOut} {after : DB} (h : txLoop W (ctxOf db b chainID) b.txs db = (.ok outs, after)) :
    leavesOf W db b chainID = (touchedOf outs).map (leafOf W after) := by
  unfold leavesOf
  rw [h]

/-! ## Acceptance does not depend on the order -/

theorem contractNodes_perm (order' : MapOrder) {outs : List TxOut} {nodes : List RGNode}
    (h : contractNodes W order outs db = .ok nodes) :
    ∃ nodes', contractNodes W order' outs db = .ok nodes' ∧ nodes.Perm nodes' := by
  have hperm := (order'.perm (touchedOf outs)).trans (order.perm (touchedOf outs)).symm
  obtain ⟨nodes', h', hp⟩ := List.perm_comp_forall₂ hperm (Go.mapM_eq_ok.mp h)
  exact ⟨nodes', Go.mapM_eq_ok.mpr h', hp.symm⟩

theorem updateSupply_any {pre : DB} {g : UInt64} {n : Nat} {d d' : DB} {u : Unit}
    (h : updateSupply pre g n d = (.ok u, d')) (e : DB) : ∃ e', updateSupply pre g n e = (.ok (), e') := by
  unfold updateSupply at h ⊢
  cases hs : pre.totalSupply with
  | none => exact ⟨e, rfl⟩
  | some supply =>
    rw [hs] at h
    obtain ⟨_, d1, h1, -⟩ := bind_ok.mp h
    obtain ⟨hc, -⟩ := check_ok.mp h1
    exact ⟨_, bind_ok.mpr ⟨(), e, check_ok.mpr ⟨hc, rfl⟩, rfl⟩⟩

theorem writeMeta_any (root' : Hash) {pre : DB} {root : Hash} {g : UInt64} {n : Nat} {d d' : DB} {u : Unit}
    (h0 : b.stateRoot = 0) (h : writeMeta b pre root g n d = (.ok u, d')) :
    ∃ e', writeMeta b pre root' g n d = (.ok (), e') := by
  obtain ⟨_, d1, -, h⟩ := bind_ok.mp h
  obtain ⟨_, d2, h2, -⟩ := bind_ok.mp h
  obtain ⟨e2, he⟩ := updateSupply_any h2
    { d with height := b.height, stateRoot := root', baseFee := some (nextBaseFee (currentBaseFee pre) g) }
  exact ⟨e2, bind_ok.mpr ⟨(), _, rfl, bind_ok.mpr ⟨(), e2, he, check_ok.mpr ⟨.inl h0, rfl⟩⟩⟩⟩

theorem serializeBlock_any (root' : Hash) {root : Hash} {data : List UInt8}
    (h : serializeBlock W { b with stateRoot := root } = .ok data) :
    ∃ data', serializeBlock W { b with stateRoot := root' } = .ok data' := by
  simp only [serializeBlock, Go.bind_eq_ok, Go.check_eq_ok, exists_const] at h ⊢
  obtain ⟨batch, h1, h2, h3, -⟩ := h
  refine ⟨_, batch, h1, h2, ?_, rfl⟩
  simpa using h3

/-- A block without a claimed root that one order accepts is accepted by every order under
    which its telemetry fits. -/
theorem accepted_any_order {r : Result} (h0 : b.stateRoot = 0)
    (hok : applyBlockForChain W order db b chainID = (.ok r, post))
    (htel : ∀ tree, TreeOf W db b chainID order' tree →
      W.telemetryLen { b with stateRoot := tree.root } tree ≤ maxStoredBlockTelemetryBytes) :
    ∃ tree r' post', TreeOf W db b chainID order' tree ∧ r'.stateRoot = tree.root ∧
      applyBlockForChain W order' db b chainID = (.ok r', post') := by
  obtain ⟨s, -, -⟩ := applyBlockForChain_stages hok
  -- the same stages with the other order's tree
  obtain ⟨nodes', hnodes', hperm⟩ := contractNodes_perm order' s.gotNodes
  obtain ⟨tree', htree'⟩ := buildTree_perm hperm (contractNodes_layer s.gotNodes) s.gotTree
  have hof : TreeOf W db b chainID order' tree' := ⟨s.outs, s.afterTxs, nodes', s.ranTxs, hnodes', htree'⟩
  obtain ⟨meta', hmeta'⟩ := writeMeta_any tree'.root h0 s.ranMeta
  obtain ⟨data', hdata'⟩ := serializeBlock_any tree'.root s.encoded
  let s' : BlockStages W order' db b chainID :=
    { s with nodes := nodes', tree := tree', afterMeta := meta', stored := data', gotNodes := hnodes'
             gotTree := htree', ranMeta := hmeta', telemetry := htel tree' hof, encoded := hdata' }
  exact ⟨tree', s'.result, s'.last, hof, rfl, s'.accepted⟩

/-- Nor does it depend on the proposal stored with the block, if both fit the store. -/
theorem accepted_any_proposal {r : Result} {bytes : List UInt8}
    (hok : applyBlockForChain W order db b chainID = (.ok r, post))
    (htel : ∀ tree, W.telemetryLen { b with stateRoot := tree.root, proposalBytes := bytes } tree ≤
      maxStoredBlockTelemetryBytes)
    (hstored : ∀ root, ∃ data, serializeBlock W { b with stateRoot := root, proposalBytes := bytes } = .ok data) :
    ∃ r' post', applyBlockForChain W order db { b with proposalBytes := bytes } chainID = (.ok r', post') := by
  obtain ⟨s, -, -⟩ := applyBlockForChain_stages hok
  obtain ⟨data, hdata⟩ := hstored s.tree.root
  let s' : BlockStages W order db { b with proposalBytes := bytes } chainID :=
    { s with stored := data, telemetry := htel s.tree, encoded := hdata }
  exact ⟨s'.result, s'.last, s'.accepted⟩

/-! ## Roots -/

/-- The order that walks `l` as `m` and any other list as it stands. -/
def MapOrder.at (l m : List Key) (h : m.Perm l) : MapOrder where
  list x := if x = l then m else x
  perm x := by
    split
    · rename_i e
      rw [e]
      exact h
    · exact .refl x

theorem MapOrder.at_list {l m : List Key} (h : m.Perm l) : (MapOrder.at l m h).list l = m := if_pos rfl

theorem touchedOf_nodup (outs : List TxOut) : (touchedOf outs).Nodup := List.nodup_dedup _

/-- The list with two of its elements exchanged. -/
def swapped (a a' : Key) (l : List Key) : List Key := l.map (Equiv.swap a a')

theorem swapped_perm {a a' : Key} {l : List Key} (hl : l.Nodup) (ha : a ∈ l) (ha' : a' ∈ l) :
    (swapped a a' l).Perm l := by
  unfold swapped
  rw [List.perm_ext_iff_of_nodup (hl.map (Equiv.injective _)) hl]
  intro x
  rw [List.mem_map]
  constructor
  · rintro ⟨y, hy, rfl⟩
    rw [Equiv.swap_apply_def]
    split_ifs
    · exact ha'
    · exact ha
    · exact hy
  · intro hx
    refine ⟨Equiv.swap a a' x, ?_, Equiv.swap_apply_self a a' x⟩
    rw [Equiv.swap_apply_def]
    split_ifs
    · exact ha'
    · exact ha
    · exact hx

theorem contractNodes_oneLeaf {outs : List TxOut} {after : DB} {nodes nodes' : List RGNode}
    (hone : ∀ a ∈ touchedOf outs, ∀ a' ∈ touchedOf outs, leafOf W after a = leafOf W after a')
    (h : contractNodes W order outs after = .ok nodes) (h' : contractNodes W order' outs after = .ok nodes') :
    nodes = nodes' := by
  have h := Go.mapM_eq_ok.mp h
  have h' := Go.mapM_eq_ok.mp h'
  have hlen : nodes.length = nodes'.length := by
    rw [← h.length_eq, ← h'.length_eq, (order.perm _).length_eq, (order'.perm _).length_eq]
  refine List.ext_get hlen fun i hi hi' => ?_
  have h1 := h.get (i := i) (by rw [h.length_eq]; exact hi) hi
  have h2 := h'.get (i := i) (by rw [h'.length_eq]; exact hi') hi'
  rw [contractNode_congr (hone _ ((order.perm _).mem_iff.mp (List.get_mem _ _)) _
    ((order'.perm _).mem_iff.mp (List.get_mem _ _)))] at h1
  exact Go.ok.inj (h1.symm.trans h2)

/-- The nodes of the trees of a block do not collide, whatever the orders. -/
def TreesApart (W : World) (db : DB) (b : Block) (chainID : List UInt8) : Prop :=
  ∀ order order' tree tree', TreeOf W db b chainID order tree → TreeOf W db b chainID order' tree' →
    Apart W.toPrim tree.layers.flatten tree'.layers.flatten

/-- The telemetry of the block is within its limit, whatever the order. -/
def TelemetryFits (W : World) (db : DB) (b : Block) (chainID : List UInt8) : Prop :=
  ∀ order tree, TreeOf W db b chainID order tree →
    W.telemetryLen { b with stateRoot := tree.root } tree ≤ maxStoredBlockTelemetryBytes

/-- Two replicas that accept the block have the same root, and elect with the same seed. -/
def RootsAgree (W : World) (db : DB) (b : Block) (chainID : List UInt8) : Prop :=
  ∀ order order' r r' post post', applyBlockForChain W order db b chainID = (.ok r, post) →
    applyBlockForChain W order' db b chainID = (.ok r', post') →
    r.stateRoot = r'.stateRoot ∧
      computeSeed W.toPrim post.stateRoot (b.height + 1) = computeSeed W.toPrim post'.stateRoot (b.height + 1)

theorem BlockRun.treeOf (run : BlockRun W order db b chainID post) : TreeOf W db b chainID order run.tree :=
  ⟨run.outs, run.afterTxs, run.nodes, run.ranTxs, run.gotNodes, run.gotTree⟩

theorem TreeOf.oneLeaf {tree tree' : Tree} (hone : OneLeaf W db b chainID) (h : TreeOf W db b chainID order tree)
    (h' : TreeOf W db b chainID order' tree') : tree.root = tree'.root := by
  obtain ⟨outs, after, nodes, h1, h2, h3⟩ := h
  obtain ⟨outs', after', nodes', h1', h2', h3'⟩ := h'
  obtain ⟨e, rfl⟩ := Prod.mk.inj (h1.symm.trans h1')
  obtain rfl := Go.ok.inj e
  rw [OneLeaf, leavesOf_eq h1] at hone
  obtain rfl := contractNodes_oneLeaf
    (fun a ha a' ha' => hone _ (List.mem_map_of_mem ha) _ (List.mem_map_of_mem ha')) h2 h2'
  rw [Go.ok.inj (h3.symm.trans h3')]

/-- Two contracts with different leaves: the walk and the one with the two exchanged give
    different roots. -/
theorem TreeOf.swapped_ne {outs : List TxOut} {after : DB} {a a' : Key} {tree tree' : Tree}
    (h1 : txLoop W (ctxOf db b chainID) b.txs db = (.ok outs, after)) (ha : a ∈ touchedOf outs)
    (ha' : a' ∈ touchedOf outs) (hne : leafOf W after a ≠ leafOf W after a') (hap : TreesApart W db b chainID)
    (h : TreeOf W db b chainID .id tree)
    (h' : TreeOf W db b chainID (.at _ _ (swapped_perm (touchedOf_nodup outs) ha ha')) tree') :
    tree.root ≠ tree'.root := by
  intro hroot
  have hap := hap _ _ _ _ h h'
  obtain ⟨outs1, after1, nodes, e1, h2, h3⟩ := h
  obtain ⟨outs2, after2, nodes', e2, h2', h3'⟩ := h'
  obtain ⟨e, rfl⟩ := Prod.mk.inj (h1.symm.trans e1)
  obtain rfl := Go.ok.inj e
  obtain ⟨e, rfl⟩ := Prod.mk.inj (h1.symm.trans e2)
  obtain rfl := Go.ok.inj e
  have hn : List.Forall₂ _ (touchedOf outs) nodes := Go.mapM_eq_ok.mp h2
  have hn' := Go.mapM_eq_ok.mp h2'
  rw [MapOrder.at_list] at hn'
  have hlen : nodes.length = nodes'.length := by rw [← hn.length_eq, ← hn'.length_eq, swapped, List.length_map]
  have hbytes := buildTree_root_inj hlen (contractNodes_layer h2) (contractNodes_layer h2') h3 h3' hap hroot
  -- the place of `a` in the walk
  obtain ⟨i, hi, hget⟩ := List.getElem_of_mem ha
  have hi1 : i < nodes.length := by rw [← hn.length_eq]; exact hi
  have hi2 : i < nodes'.length := hlen ▸ hi1
  have hc : contractNode W after a = .ok nodes[i] := by
    have := hn.get hi hi1
    rwa [List.get_eq_getElem, hget] at this
  have hc' : contractNode W after a' = .ok nodes'[i] := by
    have := hn'.get (by rw [hn'.length_eq]; exact hi2) hi2
    simpa [swapped, hget, Equiv.swap_apply_left] using this
  refine hne (contractNode_bytes hc hc' ?_)
  have := congrArg (fun l => l[i]?) hbytes
  simpa [List.getElem?_map, List.getElem?_eq_getElem hi1, List.getElem?_eq_getElem hi2] using this

/-- Replicas that accept a block agree on its root exactly when the block claims one or all
    contracts it touches have the same leaf. -/
theorem roots_agree_iff {r : Result} (hok : applyBlockForChain W order db b chainID = (.ok r, post))
    (htel : TelemetryFits W db b chainID) (hap : TreesApart W db b chainID) :
    RootsAgree W db b chainID ↔ b.stateRoot ≠ 0 ∨ OneLeaf W db b chainID := by
  constructor
  · intro hagree
    by_contra hcon
    obtain ⟨h0, hone⟩ := not_or.mp hcon
    have h0 := not_not.mp h0
    obtain ⟨run, -⟩ := applyBlockForChain_ok hok
    rw [OneLeaf, leavesOf_eq run.ranTxs] at hone
    simp only [List.forall_mem_map, not_forall] at hone
    obtain ⟨a, ha, a', ha', hne⟩ := hone
    obtain ⟨tree, r1, post1, ht, hr1, hok1⟩ := accepted_any_order h0 hok (htel .id)
    obtain ⟨tree', r2, post2, ht', hr2, hok2⟩ := accepted_any_order h0 hok
      (htel (.at _ _ (swapped_perm (touchedOf_nodup run.outs) ha ha')))
    refine TreeOf.swapped_ne run.ranTxs ha ha' hne hap ht ht' ?_
    rw [← hr1, ← hr2]
    exact (hagree _ _ _ _ _ _ hok1 hok2).1
  · intro hcond order order' r r' post post' h h'
    obtain ⟨run, hr⟩ := applyBlockForChain_ok h
    obtain ⟨run', hr'⟩ := applyBlockForChain_ok h'
    have hroot : run.tree.root = run'.tree.root := by
      rcases hcond with h0 | hone
      · rw [← run.claimed.resolve_left h0, ← run'.claimed.resolve_left h0]
      · exact run.treeOf.oneLeaf hone run'.treeOf
    exact ⟨by rw [hr, hr', hroot], by rw [run.root, run'.root, hroot]⟩

/-! ## Two deployments -/

/-- The trees of a block under all orders. -/
def treesOf (W : World) (db : DB) (b : Block) (chainID : List UInt8) : List Tree :=
  match txLoop W (ctxOf db b chainID) b.txs db with
  | (.ok outs, after) => (touchedOf outs).permutations'.filterMap fun l =>
    match l.mapM (contractNode W after) >>= buildTree W.toPrim b.txs with
    | .ok tree => some tree
    | _ => none
  | _ => []

theorem TreeOf.mem {tree : Tree} (h : TreeOf W db b chainID order tree) : tree ∈ treesOf W db b chainID := by
  obtain ⟨outs, after, nodes, h1, h2, h3⟩ := h
  unfold treesOf
  rw [h1]
  refine List.mem_filterMap.mpr ⟨_, List.mem_permutations'.mpr (order.perm (touchedOf outs)), ?_⟩
  rw [show (order.list (touchedOf outs)).mapM (contractNode W after) = .ok nodes from h2, Go.ok_bind, h3]

theorem TreesApart.of_treesOf (h : ∀ t ∈ treesOf W db b chainID, ∀ t' ∈ treesOf W db b chainID,
    Apart W.toPrim t.layers.flatten t'.layers.flatten) : TreesApart W db b chainID :=
  fun _ _ _ _ ht ht' => h _ ht.mem _ ht'.mem

def twoDeployers : Genesis := ⟨[], [⟨"", some 1, "", some 1000⟩, ⟨"", some 2, "", some 1000⟩]⟩

def deployersDB : DB := (applyGenesis Prim.sample DB.new twoDeployers).2

/-- Two accounts deploy a contract each, with 10 and with 20. -/
def deploying : Block :=
  let deploy (k : Key) (value : Int) : Tx :=
    { Tx.plain .contractDeploy k 0 value 1 with wasmBytes := [1] }.signed Prim.sample []
  Block.plain 1 [deploy 1 10, deploy 2 20]

theorem roots_agree_iff_deploying : ¬ RootsAgree World.sample deployersDB deploying [] := by
  obtain ⟨r, hok⟩ := Go.run_eq (p := applyBlockForChain World.sample .id deployersDB deploying []) (by decide +kernel)
  have hap : TreesApart World.sample deployersDB deploying [] := .of_treesOf (by
    unfold Apart NoCollision
    decide +kernel)
  rw [roots_agree_iff hok (fun _ _ _ => Nat.zero_le _) hap]
  rintro (h | h)
  · exact h rfl
  · exact absurd h (by decide +kernel)

/-- Two replicas accept the block and have different state roots. -/
theorem roots_differ : (applyBlockForChain World.sample .id deployersDB deploying []).1.isOk = true ∧
    (applyBlockForChain World.sample .rev deployersDB deploying []).1.isOk = true ∧
    (applyBlockForChain World.sample .id deployersDB deploying []).2.stateRoot ≠
      (applyBlockForChain World.sample .rev deployersDB deploying []).2.stateRoot := by
  decide +kernel

end Frg.Chain
