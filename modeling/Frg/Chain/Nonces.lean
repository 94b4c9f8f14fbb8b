/-
  Frg.Chain.Nonces — no transaction is executed twice, over whole runs from a genesis.

  `AdvanceNonceTx` stands in front of every branch of the loop, inside `TransferTx` for a
  transfer, and nothing else writes a nonce. A transaction with another nonce is skipped;
  a block refused after it advanced one is rolled back with all of it.

    - `branch_nonces`: behind the nonce no branch changes one, whatever a contract does.
    - `nonces_in_order`: the executed transactions of an account have the nonces 1, 2, 3, …
      in the order of the chain, and the stored nonce is their number.
-/

import Frg.Chain.Skipped
import Frg.Wire.Signing

namespace Frg.Chain

open Frg.Lib Frg.Core Frg.Wire Act

/-! ## Who writes nonces -/

def SameNonces (db db' : DB) : Prop := db'.nonces = db.nonces

instance : Std.Refl SameNonces := ⟨fun _ => rfl⟩
instance : IsTrans DB SameNonces := ⟨fun _ _ _ h1 h2 => h2.trans h1⟩

theorem sameNonces_ops : BranchOps SameNonces where
  move _ _ _ _ _ := moveBalance_steps (fun _ _ => rfl) fun _ _ => rfl
  unbond := unbondTx_steps fun _ _ _ _ _ _ => rfl
  deleteRecord _ _ := rfl
  storeBytecode _ _ _ := rfl
  saveState _ _ _ := rfl

variable {W : World} {ctx : BlockCtx} {t : Tx} {db db' : DB}

theorem branch_nonces (hv : ∀ v ∈ t.value, 0 ≤ v) (k : Key) : Steps SameNonces (branch W ctx t k) :=
  branch_steps sameNonces_ops W ctx k hv (fun _ _ _ _ => rfl) fun _ _ _ _ =>
    burnTx_steps (changeBalance_steps fun _ _ => rfl)

theorem applyTx_nonceOf {out : TxOut} (ht : Known t) (hv : ∀ v ∈ t.value, 0 ≤ v)
    (hn : t.nonce = nextNonce db t.senderPubKey) (h : applyTx W ctx t db = (.ok out, db')) (a : Key) :
    nonceOf db' a = if a = t.senderPubKey then t.nonce else nonceOf db a := by
  obtain ⟨k, -, hrun⟩ := applyTx_executed ht hn h
  have hsame : db'.nonces = db.nonces.put t.senderPubKey t.nonce := (branch_nonces hv k).run hrun
  unfold nonceOf
  rw [hsame, Bucket.get_put]
  split <;> rfl

/-! ## Runs -/

/-- The transactions of a block that the loop executed. -/
def executedIn (W : World) (pre : DB) (b : Block) (chainID : List UInt8) : List Tx :=
  executedTxs W (ctxOf pre b chainID) pre b.txs

def sentBy (a : Key) (txs : List Tx) : List Tx := txs.filter fun t => t.senderPubKey = a

/-- The nonces from 1 to `n`, as the 64-bit counter holds them. -/
def countedTo (n : Nat) : List UInt64 := (List.range n).map fun i => .ofNat (i + 1)

/-- The executed transactions of `a` have been counted, and the count is stored. -/
structure InOrder (a : Key) (txs : List Tx) (db : DB) : Prop where
  nonces : (sentBy a txs).map Tx.nonce = countedTo (sentBy a txs).length
  stored : nonceOf db a = .ofNat (sentBy a txs).length

variable {a : Key} {txs : List Tx}

theorem InOrder.tx {out : TxOut} (ho : InOrder a txs db) (ht : Known t) (hv : ∀ v ∈ t.value, 0 ≤ v)
    (hn : t.nonce = nextNonce db t.senderPubKey) (h : applyTx W ctx t db = (.ok out, db')) :
    InOrder a (txs ++ [t]) db' := by
  have hafter := applyTx_nonceOf ht hv hn h a
  by_cases ha : t.senderPubKey = a
  · have hsent : sentBy a (txs ++ [t]) = sentBy a txs ++ [t] := by simp [sentBy, ha]
    have hnext : t.nonce = .ofNat ((sentBy a txs).length + 1) := by
      rw [hn, nextNonce, ha, ho.stored, UInt64.ofNat_add]
      rfl
    constructor
    · rw [hsent, List.map_append, ho.nonces, List.length_append, countedTo, countedTo, List.length_singleton,
        List.range_succ, List.map_append, List.map_singleton, List.map_singleton, hnext]
    · rw [hafter, if_pos ha.symm, hsent, List.length_append, hnext]
      rfl
  · have hsent : sentBy a (txs ++ [t]) = sentBy a txs := by simp [sentBy, ha]
    rw [if_neg (Ne.symm ha)] at hafter
    exact ⟨by rw [hsent]; exact ho.nonces, by rw [hsent, hafter]; exact ho.stored⟩

theorem checkBlock_known {b : Block} {chainID : List UInt8} {u : Unit} (h : checkBlock W db b chainID = .ok u) :
    ∀ t ∈ b.txs, Known t := by
  intro t ht
  obtain ⟨-, -, -, hk⟩ := verifySigsForChain_ok (checkBlock_verified h t ht)
  exact hk

theorem genesis_nonces {P : Prim} {g : Genesis} (h : applyGenesis P DB.new g = (.ok (), db)) :
    db.nonces = .empty := by
  have hsame : SameNonces DB.new db := genesisTx_steps (fun _ _ => changeBalance_steps fun _ _ => rfl) (fun _ _ => rfl)
    sameNonces_ops.move (fun _ _ _ _ => rfl) (fun _ => rfl) (applyGenesis_new h)
  exact hsame

variable {G : DB → Prop} {C : DB → Block → List UInt8 → DB → Prop}

theorem Traced.inOrder (h : Traced W G C (executedIn W) txs db) (a : Key) : InOrder a txs db := by
  refine h.keeps (J := InOrder a) (fun ⟨g, hg, _⟩ => ⟨rfl, by rw [nonceOf, genesis_nonces hg]; rfl⟩)
    fun ih ⟨⟨order, happ⟩, _⟩ => ?_
  obtain ⟨run, -⟩ := applyBlockForChain_ok happ
  have hloop := txLoop_executed (I := InOrder a) _
    (fun t ht done out db db' hn h1 hi => hi.tx (checkBlock_known run.checked t ht) (run.values t ht) hn h1)
      run.ranTxs ih
  have hlater : SameNonces run.afterTxs run.afterMint :=
    run.laterSteps (fun _ _ _ => burnTx_steps (changeBalance_steps fun _ _ => rfl))
      (recordMissTx_steps fun _ _ _ _ _ => rfl) fun _ _ => changeBalance_steps fun _ _ => rfl
  refine ⟨hloop.nonces, ?_⟩
  rw [nonceOf, run.nonces, hlater]
  exact hloop.stored

theorem countedTo_toNat {n : Nat} (h : n < 2 ^ 64) : (countedTo n).map UInt64.toNat = List.range' 1 n := by
  unfold countedTo
  rw [List.range'_eq_map_range, List.map_map]
  apply List.map_congr_left
  intro i hi
  have := List.mem_range.mp hi
  rw [Function.comp_apply, UInt64.toNat_ofNat', Nat.mod_eq_of_lt (by omega), Nat.add_comm]

/-- In every run from a genesis, the executed transactions of an account, fewer than 2^64 of
    them, have the nonces 1, 2, 3, … in the order of the chain, the stored nonce is their
    number, and none of them was executed twice. -/
theorem nonces_in_order (h : Traced W G C (executedIn W) txs db) (a : Key) (hlen : (sentBy a txs).length < 2 ^ 64) :
    (sentBy a txs).map (fun t => t.nonce.toNat) = List.range' 1 (sentBy a txs).length ∧
      (nonceOf db a).toNat = (sentBy a txs).length ∧ ((sentBy a txs).map Tx.nonce).Nodup := by
  obtain ⟨hn, hs⟩ := h.inOrder a
  have hnat : (sentBy a txs).map (fun t => t.nonce.toNat) = List.range' 1 (sentBy a txs).length := by
    rw [← countedTo_toNat hlen, ← hn, List.map_map]
    rfl
  refine ⟨hnat, by rw [hs, UInt64.toNat_ofNat', Nat.mod_eq_of_lt hlen], ?_⟩
  apply List.Nodup.of_map UInt64.toNat
  rw [List.map_map]
  exact hnat ▸ List.nodup_range'

/-- Account 1 pays account 2 in two blocks, and each block carries the first transfer again. -/
def replaying : List Block :=
  let pay (nonce : UInt64) : Tx := (Tx.plain .transfer 1 2 10 nonce).signed Prim.sample []
  [.plain 1 [pay 1, pay 1], .plain 2 [pay 1, pay 2]]

theorem nonces_in_order_replaying : ∃ txs db,
    Traced World.sample (fun _ => True) (fun _ _ _ _ => True) (executedIn World.sample) txs db ∧
      (sentBy 1 txs).length = 2 ∧ (sentBy 1 txs).map (fun t => t.nonce.toNat) = [1, 2] ∧
      ((sentBy 1 txs).map Tx.nonce).Nodup := by
  obtain ⟨_, hg⟩ := Go.run_eq (p := applyGenesis Prim.sample DB.new twoAccounts) (by decide +kernel)
  have hran : (replaying.foldlM (traceStep (executedIn World.sample)) ([], genesisDB)).map
      (fun s => (sentBy 1 s.1).length) = some 2 := by decide +kernel
  obtain ⟨s, hs, hlen⟩ := Option.map_eq_some_iff.mp hran
  have hrun : Traced World.sample (fun _ => True) (fun _ _ _ _ => True) (executedIn World.sample) s.1 s.2 :=
    TracedFrom.computed ⟨twoAccounts, hg, trivial⟩ (fun _ _ _ _ => trivial) hs
  obtain ⟨hn, -, hnodup⟩ := nonces_in_order hrun 1 (by rw [hlen]; decide)
  exact ⟨s.1, s.2, hrun, hlen, by rw [hn, hlen]; rfl, hnodup⟩

end Frg.Chain
