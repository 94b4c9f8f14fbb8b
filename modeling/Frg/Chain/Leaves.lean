/-
  Frg.Chain.Leaves — the leaves a block builds for the contracts it has touched.

  A leaf shows the contract's balance and its square, each in 32 bytes. A balance may have
  up to 256 bits, and `Uint256ToBytes` copies a longer number from a negative index. The
  square of a transaction's value is checked when its leaf is built; the square of a balance
  is not. Nothing between genesis and the leaf keeps a balance below 2 ^ 128.

    - `leaves_built_iff`: the leaves are built exactly when every touched contract has less
      than 2 ^ 128 units; otherwise the node that applies the block stops.
    - `rich_deploy_stops`: a contract endowed with 2 ^ 128 units.
    - `tree_fits_iff`: the leaves count against the limit of the tree like transactions.
-/

import Frg.Chain.Genesis
import Frg.Chain.Run
import Frg.RG.Capacity

namespace Frg.Chain

open Frg.Lib Frg.Core Frg.Wire Frg.Contract Frg.RG

variable {W : World} {order : MapOrder} {pre after db : DB} {b : Block} {chainID : List UInt8} {outs : List TxOut}

/-- A number below 2 ^ 128 and its square fit, and no others. -/
theorem contractNode_cases (W : World) (db : DB) (a : Key) :
    (readBalance db a < 2 ^ 128 ∧ ∃ n, contractNode W db a = .ok n) ∨
      (¬ readBalance db a < 2 ^ 128 ∧ contractNode W db a = .panic "slice bounds out of range") := by
  have hfits : Fits (readBalance db a) := readBalance_fits db a
  unfold Fits maxUint256 at hfits
  obtain ⟨n, hn⟩ := Int.eq_ofNat_of_zero_le hfits.1
  have hvolume : uint256ToBytes (readBalance db a).toNat = .ok ⟨n, by omega⟩ := by
    rw [hn, Int.toNat_natCast]
    exact dif_pos (by omega)
  have hsquare : (readBalance db a * readBalance db a).toNat = n * n := by
    rw [hn, ← Int.natCast_mul, Int.toNat_natCast]
  have hpow : (2 : Nat) ^ 128 * 2 ^ 128 = 256 ^ 32 := by norm_num
  unfold contractNode
  dsimp only
  rw [hvolume, hsquare, Go.ok_bind]
  by_cases hlt : n < 2 ^ 128
  · have hroom : n * n < 256 ^ 32 := hpow ▸ Nat.mul_self_lt_mul_self hlt
    refine Or.inl ⟨by omega, ?_⟩
    rw [show uint256ToBytes (n * n) = .ok ⟨n * n, hroom⟩ from dif_pos hroom]
    exact ⟨_, rfl⟩
  · have hroom : ¬ n * n < 256 ^ 32 := not_lt.mpr (hpow ▸ Nat.mul_self_le_mul_self (not_lt.mp hlt))
    refine Or.inr ⟨by omega, ?_⟩
    rw [show uint256ToBytes (n * n) = .panic "slice bounds out of range" from dif_neg hroom]
    rfl

theorem contractNodes_cases (W : World) (order : MapOrder) (outs : List TxOut) (db : DB) :
    ((∀ a ∈ touchedOf outs, readBalance db a < 2 ^ 128) ∧ ∃ nodes, contractNodes W order outs db = .ok nodes) ∨
      ((¬ ∀ a ∈ touchedOf outs, readBalance db a < 2 ^ 128) ∧
        contractNodes W order outs db = .panic "slice bounds out of range") := by
  have hperm : (∀ a ∈ order.list (touchedOf outs), readBalance db a < 2 ^ 128) ↔
      ∀ a ∈ touchedOf outs, readBalance db a < 2 ^ 128 := by
    simp only [(order.perm _).mem_iff]
  rw [← hperm]
  exact Go.mapM_ok_or_panic (contractNode_cases W db) _

/-- A block whose transactions have run: the leaves it builds from the state they left. -/
theorem leaves_built_iff (hchecked : checkBlock W pre b chainID = .ok ())
    (hran : txLoop W (ctxOf pre b chainID) b.txs pre = (.ok outs, after)) :
    ((contractNodes W order outs after).panics = false ↔ ∀ a ∈ touchedOf outs, readBalance after a < 2 ^ 128) ∧
      ((¬ ∀ a ∈ touchedOf outs, readBalance after a < 2 ^ 128) →
        applyBlockForChain W order pre b chainID = (.panic "slice bounds out of range", pre)) := by
  rcases contractNodes_cases W order outs after with ⟨hall, nodes, h⟩ | ⟨hno, h⟩
  · rw [h]
    exact ⟨iff_of_true rfl hall, fun hno => absurd hall hno⟩
  · rw [h]
    refine ⟨iff_of_false (fun e => by cases e) hno, fun _ => ?_⟩
    have htx : applyBlockTx W order pre b chainID pre = (.panic "slice bounds out of range", after) := by
      unfold applyBlockTx
      rw [Act.bind_run, hran]
      dsimp only
      rw [Act.bind_run, Act.read]
      dsimp only
      rw [h, Act.bind_run, Act.lift]
    unfold applyBlockForChain
    rw [hchecked, htx]

/-! ## The tree over them -/

theorem contractNode_square {a : Key} {n : RGNode} (h : contractNode W db a = .ok n) : SquareLeaf n := by
  obtain ⟨volume, hv, h⟩ := Go.bind_eq_ok.mp h
  obtain ⟨squares, hsq, h⟩ := Go.bind_eq_ok.mp h
  obtain rfl := Go.ok.inj h
  refine ⟨⟨rfl, rfl⟩, ?_⟩
  show squares.val = volume.val ^ 2
  have hbal := readBalance_fits db a
  rw [uint256ToBytes_ok.mp hv, uint256ToBytes_ok.mp hsq, Int.toNat_mul hbal.1 hbal.1, sq]

/-- A block within the limit on transactions has its tree exactly when the contracts it has
    touched fit under the limit too, and the squares add up. -/
theorem tree_fits_iff {nodes : List RGNode} (hlen : b.txs.length ≤ tMax)
    (hnodes : contractNodes W order outs after = .ok nodes) :
    (∃ tree, buildTree W.toPrim b.txs nodes = .ok tree) ↔ HaveIDs W.toPrim b.txs ∧
      b.txs.length + (touchedOf outs).length ≤ tMax ∧ squareSum b.txs + squaresOf nodes ≤ maxUint256 := by
  have hsquares : ∀ n ∈ nodes, SquareLeaf n := by
    intro n hn
    obtain ⟨a, -, ha⟩ := Go.mem_of_mapM hnodes hn
    exact contractNode_square ha
  have hcount : nodes.length = (touchedOf outs).length :=
    (Go.mapM_eq_ok.mp hnodes).length_eq.symm.trans (order.perm _).length_eq
  rw [buildTree_isOk hlen hsquares, hcount]

/-! ## A contract too rich for its leaf -/

/-- A genesis with one rich account. -/
def richGenesis : Genesis := ⟨[], [⟨"", some 1, "", some (2 ^ 128 + 10)⟩]⟩

def richestDB : DB := (applyGenesis Prim.sample DB.new richGenesis).2

/-- Account 1 deploys a contract and endows it. -/
def endowing (value : Int) : Block :=
  Block.plain 1 [{ Tx.plain .contractDeploy 1 0 value 1 with wasmBytes := [1] }.signed Prim.sample []]

/-- The transaction of the block, and a look at what the contract has then. -/
def endowed : M (List TxOut) := do
  let outs ← txLoop World.sample (ctxOf richestDB (endowing 10) []) (endowing 10).txs
  let balances ← Act.read fun db => (touchedOf outs).map (readBalance db)
  Act.check (balances = [10]) (.plain "endowed with something else")
  return outs

theorem leaves_built_ten :
    ∃ outs after, txLoop World.sample (ctxOf richestDB (endowing 10) []) (endowing 10).txs richestDB =
    (.ok outs, after) ∧ (touchedOf outs).map (readBalance after) = [10] ∧
    (contractNodes World.sample .id outs after).panics = false := by
  have hchecked : checkBlock World.sample richestDB (endowing 10) [] = .ok () := by decide +kernel
  obtain ⟨_, hrun⟩ := Go.run_eq (p := endowed richestDB) (by decide +kernel)
  obtain ⟨outs, after, hran, hrun⟩ := Act.bind_ok.mp hrun
  obtain ⟨balances, _, hread, hrun⟩ := Act.bind_ok.mp hrun
  obtain ⟨rfl, rfl⟩ := Act.read_ok.mp hread
  obtain ⟨_, _, hten, -⟩ := Act.bind_ok.mp hrun
  obtain ⟨hten, -⟩ := Act.check_ok.mp hten
  refine ⟨outs, after, hran, hten, (leaves_built_iff hchecked hran).1.mpr fun a ha => ?_⟩
  have hmem : readBalance after a ∈ (touchedOf outs).map (readBalance after) := List.mem_map_of_mem ha
  rw [hten, List.mem_singleton] at hmem
  omega

/-- The genesis is accepted; the block stops the node. -/
theorem rich_deploy_stops : (applyGenesis Prim.sample DB.new richGenesis).1 = .ok () ∧
    (applyBlockForChain World.sample .id richestDB (endowing 10) []).1.isOk = true ∧
    (applyBlockForChain World.sample .id richestDB (endowing (2 ^ 128)) []).1.panics = true := by
  decide +kernel

end Frg.Chain
