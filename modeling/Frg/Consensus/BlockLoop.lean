/-
  Frg.Consensus.BlockLoop — the mempool and the proposals made from it
  (`core/blockloop/blockloop.go`), as the proposer of the engine.

  The queue of transactions and the index from IDs to its elements are one list of
  transactions with their IDs, oldest first. No ID occurs twice, which is what the index
  is for and a field of the structure here.
-/

import Frg.Consensus.Engine

namespace Frg.Consensus

open Frg.Lib Frg.Core Frg.Wire Frg.Chain

def defaultCap : Nat := 4 * 65536
def tMax : Nat := 65536

structure Mempool where
  queue : List (Hash × Tx)
  cap : Nat
  nodup : (queue.map (·.1)).Nodup

namespace Mempool

def new (cap : Nat) : Mempool := ⟨[], cap, List.nodup_nil⟩

/-- The queue when there is room for one more: at capacity the oldest is dropped. -/
def makeRoom (m : Mempool) : List (Hash × Tx) := if m.cap ≤ m.queue.length then m.queue.drop 1 else m.queue

theorem makeRoom_sublist (m : Mempool) : m.makeRoom.Sublist m.queue := by
  unfold makeRoom
  split
  · exact List.drop_sublist 1 _
  · exact List.Sublist.refl _

def add (m : Mempool) (id : Hash) (t : Tx) (h : id ∉ m.queue.map (·.1)) : Mempool where
  queue := m.makeRoom ++ [(id, t)]
  cap := m.cap
  nodup := by
    have hsub := m.makeRoom_sublist.map (fun x : Hash × Tx => x.1)
    rw [List.map_append, List.nodup_append]
    refine ⟨m.nodup.sublist hsub, List.nodup_singleton _, ?_⟩
    intro a ha b hb hab
    rw [hab, List.mem_singleton.mp hb] at ha
    exact h (hsub.subset ha)

def remove (m : Mempool) (id : Hash) : Mempool where
  queue := m.queue.filter (·.1 ≠ id)
  cap := m.cap
  nodup := m.nodup.sublist (List.filter_sublist.map _)

variable (P : Prim)

/-- A transaction without an ID is dropped, and so is one already queued. -/
def enqueue (m : Mempool) (t : Tx) : Mempool :=
  match Tx.id P t with
  | .ok id => if h : id ∈ m.queue.map (·.1) then m else m.add id t h
  | _ => m

def removeCommitted (m : Mempool) (txs : List Tx) : Mempool :=
  txs.foldl (fun m t => match Tx.id P t with | .ok id => m.remove id | _ => m) m

theorem removeCommitted_sublist : ∀ (txs : List Tx) (m : Mempool), (m.removeCommitted P txs).queue.Sublist m.queue := by
  intro txs
  induction txs with
  | nil => exact fun m => List.Sublist.refl _
  | cons t txs ih =>
    intro m
    refine (ih _).trans ?_
    dsimp only
    split
    · exact List.filter_sublist
    · exact List.Sublist.refl _

end Mempool

/-- A signed proposal of the oldest transactions, which stay in the mempool. -/
def propose (P : Prim) (kp : Key) (chainID : List UInt8) (m : Mempool) (height : UInt64) (round : UInt32)
    (prevAttest : AttestationSet) (prevRoot : Hash) : BlockProposal :=
  let p : BlockProposal :=
    { height, round, proposerPK := kp, prevStateRoot := prevRoot, txs := (m.queue.take tMax).map (·.2)
      prevAttestations := prevAttest, proposerSig := 0 }
  { p with proposerSig := P.sign kp (proposalSignBytesForChain P p chainID) }

/-- The block loop as the engine's proposer: a rejected block's transactions are removed
    like those of a committed one. -/
def blockLoop (P : Prim) (kp : Key) (chainID : List UInt8) : Proposer Mempool where
  propose m height round prevAttest prevRoot := some (propose P kp chainID m height round prevAttest prevRoot)
  onCommit m _ txs := m.removeCommitted P txs
  onReject m _ txs := m.removeCommitted P txs
  enqueue m t := m.enqueue P t

/-- The engine of a node whose block loop has the same key and chain, and whose writes succeed. -/
def Config.node (W : World) (chainID : List UInt8) (self : Key) : Config Mempool :=
  { W, chainID, self, proposer := blockLoop W.toPrim self chainID, fault := fun _ => none }

end Frg.Consensus
