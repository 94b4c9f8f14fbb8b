/-
  Frg.Chain.Run — what a successful `ApplyBlockForChain` did, stage by stage
  (`BlockRun`).

  Every result about accepted blocks takes a block apart with `applyBlockForChain_ok`
  and never unfolds the loops again. A block is shown to be accepted stage by stage with
  `BlockStages.accepted`. One round of the transaction loop is the nonce check and then the
  `branch` of the transaction's type (`applyTx_eq`).
-/

import Frg.Chain.Apply

namespace Frg.Chain

open Frg.Lib Frg.Core Frg.Wire Frg.Contract Frg.RG

/-- The stages of an accepted block: the state after each loop and what it returned. -/
structure BlockRun (W : World) (order : MapOrder) (pre : DB) (b : Block) (chainID : List UInt8) (post : DB) where
  outs : List TxOut
  nodes : List RGNode
  tree : Tree
  totalGas : UInt64
  missSlashed : Nat
  afterTxs : DB
  afterGas : DB
  afterMiss : DB
  afterMint : DB
  checked : checkBlock W pre b chainID = .ok ()
  ranTxs : txLoop W (ctxOf pre b chainID) b.txs pre = (.ok outs, afterTxs)
  gotNodes : contractNodes W order outs afterTxs = .ok nodes
  gotTree : buildTree W.toPrim b.txs nodes = .ok tree
  ranGas : (b.txs.zip outs).foldlM (chargeGas (currentBaseFee pre)) 0 afterTxs = (.ok totalGas, afterGas)
  ranMiss : b.txs.foldlM (applyMiss W) 0 afterGas = (.ok missSlashed, afterMiss)
  ranMint : (((bondedAmounts pre).map (·.1)).zip
    (splitReward (mintAmountOf pre) ((bondedAmounts pre).map (·.1)).length)).forM (creditShare W) afterMiss =
      (.ok (), afterMint)
  balances : post.balances = afterMint.balances
  nonces : post.nonces = afterMint.nonces
  validators : post.validators = afterMint.validators
  bytecode : post.contractBytecode = afterMint.contractBytecode
  state : post.contractState = afterMint.contractState
  journal : post.journal = afterMint.journal
  height : post.height = b.height
  root : post.stateRoot = tree.root
  claimed : b.stateRoot = 0 ∨ b.stateRoot = tree.root
  fee : post.baseFee = some (nextBaseFee (currentBaseFee pre) totalGas)
  supply : ∀ s, pre.totalSupply = some s → ∃ n : Nat, post.totalSupply = some n ∧
    (n : Int) = s - (currentBaseFee pre).val * totalGas.toNat - ((outs.map TxOut.slashed).sum + missSlashed : Nat) +
      mintAmountOf pre
  stored : List UInt8
  encoded : serializeBlock W { b with stateRoot := tree.root } = .ok stored
  blocks : post.blocks = afterMint.blocks.put (blockKey b.height) stored

variable {W : World} {order : MapOrder} {pre post : DB} {b : Block} {chainID : List UInt8} {r : Result}

theorem writeMeta_ok {root : Hash} {totalGas : UInt64} {totalSlashed : Nat} {db db' : DB} {u : Unit}
    (h : writeMeta b pre root totalGas totalSlashed db = (.ok u, db')) :
    (b.stateRoot = 0 ∨ b.stateRoot = root) ∧
    ∃ supply, db' = { db with height := b.height, stateRoot := root, totalSupply := supply
                              baseFee := some (nextBaseFee (currentBaseFee pre) totalGas) } ∧
      ∀ s, pre.totalSupply = some s → ∃ n : Nat, supply = some n ∧
        (n : Int) = s - (currentBaseFee pre).val * totalGas.toNat - totalSlashed + mintAmountOf pre := by
  unfold writeMeta at h
  obtain ⟨_, d1, h1, h⟩ := Act.bind_ok.mp h
  obtain rfl := Act.write_ok.mp h1
  obtain ⟨_, d2, h2, h⟩ := Act.bind_ok.mp h
  obtain ⟨hclaim, rfl⟩ := Act.check_ok.mp h
  refine ⟨hclaim, ?_⟩
  unfold updateSupply at h2
  cases hs : pre.totalSupply with
  | none =>
    rw [hs] at h2
    obtain ⟨_, rfl⟩ := Act.pure_ok.mp h2
    exact ⟨db.totalSupply, rfl, fun _ h => nomatch h⟩
  | some s =>
    rw [hs] at h2
    obtain ⟨_, d3, h3, h4⟩ := Act.bind_ok.mp h2
    obtain ⟨hn, rfl⟩ := Act.check_ok.mp h3
    obtain rfl := Act.write_ok.mp h4
    refine ⟨_, rfl, fun s' e => ?_⟩
    obtain rfl := Option.some.inj e
    exact ⟨_, rfl, Int.toNat_of_nonneg hn⟩

theorem putBlockTx_ok {db db' : DB} {u : Unit} (h : putBlockTx W b db = (.ok u, db')) :
    ∃ data, serializeBlock W b = .ok data ∧ db' = { db with blocks := db.blocks.put (blockKey b.height) data } := by
  obtain ⟨data, d1, h1, h⟩ := Act.bind_ok.mp h
  obtain ⟨hdata, rfl⟩ := Act.lift_ok.mp h1
  exact ⟨data, hdata, (Act.write_ok.mp h).symm⟩

/-- The calls of `ApplyBlockForChain` in their order, each with the state it leaves. -/
structure BlockStages (W : World) (order : MapOrder) (pre : DB) (b : Block) (chainID : List UInt8) where
  outs : List TxOut
  nodes : List RGNode
  tree : Tree
  totalGas : UInt64
  missSlashed : Nat
  afterTxs : DB
  afterGas : DB
  afterMiss : DB
  afterMint : DB
  afterMeta : DB
  stored : List UInt8
  checked : checkBlock W pre b chainID = .ok ()
  ranTxs : txLoop W (ctxOf pre b chainID) b.txs pre = (.ok outs, afterTxs)
  gotNodes : contractNodes W order outs afterTxs = .ok nodes
  gotTree : buildTree W.toPrim b.txs nodes = .ok tree
  ranGas : (b.txs.zip outs).foldlM (chargeGas (currentBaseFee pre)) 0 afterTxs = (.ok totalGas, afterGas)
  ranMiss : b.txs.foldlM (applyMiss W) 0 afterGas = (.ok missSlashed, afterMiss)
  ranMint : (((bondedAmounts pre).map (·.1)).zip
    (splitReward (mintAmountOf pre) ((bondedAmounts pre).map (·.1)).length)).forM (creditShare W) afterMiss =
      (.ok (), afterMint)
  ranMeta : writeMeta b pre tree.root totalGas ((outs.map TxOut.slashed).sum + missSlashed) afterMint =
    (.ok (), afterMeta)
  telemetry : W.telemetryLen { b with stateRoot := tree.root } tree ≤ maxStoredBlockTelemetryBytes
  encoded : serializeBlock W { b with stateRoot := tree.root } = .ok stored

/-- The state with the block in the store. -/
def BlockStages.last (s : BlockStages W order pre b chainID) : DB :=
  { s.afterMeta with blocks := s.afterMeta.blocks.put (blockKey b.height) s.stored }

def BlockStages.result (s : BlockStages W order pre b chainID) : Result :=
  { stateRoot := s.tree.root, height := b.height, txsApplied := b.txs.length
    gasBurned := (currentBaseFee pre).val * s.totalGas.toNat, mintAmount := mintAmountOf pre }

theorem BlockStages.accepted (s : BlockStages W order pre b chainID) :
    applyBlockForChain W order pre b chainID = (.ok s.result, s.last) := by
  have hput : putBlockTx W { b with stateRoot := s.tree.root } s.afterMeta = (.ok (), s.last) :=
    Act.bind_ok.mpr ⟨s.stored, s.afterMeta, Act.lift_ok.mpr ⟨s.encoded, rfl⟩, rfl⟩
  have hrun : applyBlockTx W order pre b chainID pre = (.ok s.result, s.last) := by
    refine Act.bind_ok.mpr ⟨s.outs, s.afterTxs, s.ranTxs, ?_⟩
    refine Act.bind_ok.mpr ⟨_, _, Act.read_ok.mpr ⟨rfl, rfl⟩, ?_⟩
    refine Act.bind_ok.mpr ⟨s.nodes, s.afterTxs, Act.lift_ok.mpr ⟨s.gotNodes, rfl⟩, ?_⟩
    refine Act.bind_ok.mpr ⟨s.tree, s.afterTxs, Act.lift_ok.mpr ⟨s.gotTree, rfl⟩, ?_⟩
    refine Act.bind_ok.mpr ⟨s.totalGas, s.afterGas, s.ranGas, ?_⟩
    refine Act.bind_ok.mpr ⟨s.missSlashed, s.afterMiss, s.ranMiss, ?_⟩
    refine Act.bind_ok.mpr ⟨(), s.afterMint, s.ranMint, ?_⟩
    refine Act.bind_ok.mpr ⟨(), s.afterMeta, s.ranMeta, ?_⟩
    refine Act.bind_ok.mpr ⟨(), s.afterMeta, Act.check_ok.mpr ⟨s.telemetry, rfl⟩, ?_⟩
    exact Act.bind_ok.mpr ⟨(), s.last, hput, rfl⟩
  unfold applyBlockForChain
  rw [s.checked, hrun]

theorem applyBlockForChain_stages (h : applyBlockForChain W order pre b chainID = (.ok r, post)) :
    ∃ s : BlockStages W order pre b chainID, s.last = post ∧ s.result = r := by
  unfold applyBlockForChain at h
  split at h
  swap; · cases h
  swap; · cases h
  rename_i hc
  split at h
  swap; · cases h
  swap; · cases h
  rename_i r' db' happ
  obtain ⟨rfl, rfl⟩ : r' = r ∧ db' = post := by
    cases h; exact ⟨rfl, rfl⟩
  clear h
  unfold applyBlockTx at happ
  obtain ⟨outs, d1, h1, happ⟩ := Act.bind_ok.mp happ
  obtain ⟨nd, d1', h2, happ⟩ := Act.bind_ok.mp happ
  obtain ⟨rfl, rfl⟩ := Act.read_ok.mp h2
  obtain ⟨nodes, d1', h3, happ⟩ := Act.bind_ok.mp happ
  obtain ⟨hnodes, rfl⟩ := Act.lift_ok.mp h3
  obtain ⟨tree, d1', h4, happ⟩ := Act.bind_ok.mp happ
  obtain ⟨htree, rfl⟩ := Act.lift_ok.mp h4
  obtain ⟨totalGas, d2, h5, happ⟩ := Act.bind_ok.mp happ
  obtain ⟨missSlashed, d3, h6, happ⟩ := Act.bind_ok.mp happ
  obtain ⟨_, d4, h7, happ⟩ := Act.bind_ok.mp happ
  obtain ⟨_, d5, h8, happ⟩ := Act.bind_ok.mp happ
  obtain ⟨_, d6, h9, happ⟩ := Act.bind_ok.mp happ
  obtain ⟨htel, rfl⟩ := Act.check_ok.mp h9
  obtain ⟨_, d7, h10, happ⟩ := Act.bind_ok.mp happ
  obtain ⟨rfl, rfl⟩ := Act.pure_ok.mp happ
  obtain ⟨data, hdata, rfl⟩ := putBlockTx_ok h10
  exact ⟨{ outs, nodes, tree, totalGas, missSlashed, afterTxs := d1, afterGas := d2, afterMiss := d3, afterMint := d4
           afterMeta := d5, stored := data, checked := hc, ranTxs := h1, gotNodes := hnodes, gotTree := htree
           ranGas := h5, ranMiss := h6, ranMint := h7, ranMeta := h8, telemetry := htel, encoded := hdata }, rfl, rfl⟩

theorem applyBlockForChain_ok (h : applyBlockForChain W order pre b chainID = (.ok r, post)) :
    ∃ run : BlockRun W order pre b chainID post, r.stateRoot = run.tree.root := by
  obtain ⟨s, rfl, rfl⟩ := applyBlockForChain_stages h
  obtain ⟨hclaim, supply, hmeta, hs⟩ := writeMeta_ok s.ranMeta
  unfold BlockStages.last
  rw [hmeta]
  exact ⟨{ s with
    balances := rfl, nonces := rfl, validators := rfl, bytecode := rfl, state := rfl, journal := rfl
    height := rfl, root := rfl, claimed := hclaim, fee := rfl, supply := hs, blocks := rfl }, rfl⟩

/-! ## Runs of blocks -/

/-- A block that was accepted, with the states before and behind it. -/
structure Applied where
  pre : DB
  block : Block
  chainID : List UInt8
  post : DB

/-- Accepted blocks, one after the other, from a state on. -/
inductive AcceptedRun (W : World) : DB → List Applied → Prop
  | start (db : DB) : AcceptedRun W db []
  | block {order : MapOrder} {pre post : DB} {b : Block} {chainID : List UInt8} {r : Result} {rest : List Applied} :
      applyBlockForChain W order pre b chainID = (.ok r, post) → AcceptedRun W post rest →
      AcceptedRun W pre (⟨pre, b, chainID, post⟩ :: rest)

/-- The state behind a run. -/
def endOf (db : DB) : List Applied → DB
  | [] => db
  | s :: rest => endOf s.post rest

/-! ## One round of the transaction loop -/

/-- The branch of a transaction behind its nonce; `k` is what its check gave. -/
def branch (W : World) (ctx : BlockCtx) (t : Tx) (k : Key) : M TxOut :=
  match t.type with
  | .transfer =>
    match t.value with
    | none => Act.stop "nil pointer dereference"
    | some value => do
      moveBalance t.senderPubKey t.receiverPubKey value "sender balance insufficient"
      return {}
  | .contractDeploy => do
    let gasLimit ← contractGasLimit t.senderPubKey ctx.baseFee
    let (_, fuelUsed) ← deploy W.toEnv t ctx.height gasLimit
    return { touched := some (contractAddr W.toEnv t.senderPubKey t.nonce), fuel := some fuelUsed }
  | .contractCall => do
    let gasLimit ← contractGasLimit t.senderPubKey ctx.baseFee
    orNotFound do
      let (_, fuelUsed) ← call W.toEnv t ctx.height gasLimit
      return { touched := some t.receiverPubKey, fuel := some fuelUsed }
  | .bond => do
    bondTx W.toPrim t.senderPubKey t.value ctx.height
    return {}
  | .unbond => do
    unbondTx t.senderPubKey ctx.height
    return {}
  | .finalizeUnbond => do
    finalizeTx W.toPrim t.senderPubKey ctx.height
    return {}
  | .claimRewards => do
    claimTx W.toPrim t.senderPubKey
    return {}
  | .equivEvidence => do
    let slashed ← slashTx W.toPrim k
    return { slashed }
  | .missEvidence | .other _ _ => pure {}

/-- The types whose stateless check the loop asks for, and the check. -/
def loopCheck (W : World) (ctx : BlockCtx) (t : Tx) : Res Key :=
  match t.type with
  | .bond | .unbond | .finalizeUnbond | .claimRewards | .equivEvidence => precheck W ctx t
  | _ => .ok 0

/-- One of the nine types the code names: `VerifySigs` refuses every other. -/
def Known (t : Tx) : Prop := ∀ b h, t.type ≠ .other b h

theorem unlessFault_advance {t : Tx} {db : DB} (k : M TxOut) :
    unlessFault (advanceNonceTx t.senderPubKey t.nonce) k db =
      if t.nonce = nextNonce db t.senderPubKey then k (db.advanced t.senderPubKey t.nonce) else (.ok {}, db) := by
  unfold unlessFault
  split_ifs with hn
  · rw [advanceNonceTx_ok hn]
  · obtain ⟨msg, h⟩ := advanceNonceTx_skip hn
    rw [h]
    rfl

/-- A transfer is a nonce and a move: the errors of the move are no sequence faults. -/
theorem unlessFault_transfer {t : Tx} {db : DB} (ht : t.type = .transfer) (k : Key) {ctx : BlockCtx} :
    unlessFault (transferTx t) (pure {}) db =
      if t.nonce = nextNonce db t.senderPubKey then branch W ctx t k (db.advanced t.senderPubKey t.nonce)
      else (.ok {}, db) := by
  simp only [unlessFault, transferTx, branch, ht, Act.bind_run]
  split_ifs with hn
  · rw [advanceNonceTx_ok hn]
    dsimp only
    cases hv : t.value with
    | none => rfl
    | some v =>
      dsimp only
      cases hm : moveBalance t.senderPubKey t.receiverPubKey v "sender balance insufficient"
          (db.advanced t.senderPubKey t.nonce) with
      | mk r d =>
        cases r with
        | ok _ => simp only [Act.bind_run, hm]
        | panic w => simp only [Act.bind_run, hm]
        | err e =>
          have hf : isSequenceFault e = false := by
            rcases moveBalance_code hm with ⟨he, -⟩ | he <;> simp [isSequenceFault, he]
          simp only [Act.bind_run, hm, hf, Bool.false_eq_true, if_false]
  · obtain ⟨msg, h⟩ := advanceNonceTx_skip hn
    rw [h]
    rfl

theorem applyTx_eq {ctx : BlockCtx} {t : Tx} (ht : Known t) (db : DB) : applyTx W ctx t db =
    match loopCheck W ctx t with
    | .ok k => if t.nonce = nextNonce db t.senderPubKey then branch W ctx t k (db.advanced t.senderPubKey t.nonce)
        else (.ok {}, db)
    | .err e => (.err e, db)
    | .panic w => (.panic w, db) := by
  cases hty : t.type with
  | transfer =>
    simp only [applyTx, loopCheck, hty]
    exact unlessFault_transfer hty 0
  | missEvidence | contractDeploy | contractCall =>
    simp only [applyTx, loopCheck, branch, hty, unlessFault_advance]
  | bond | unbond | finalizeUnbond | claimRewards | equivEvidence =>
    simp only [applyTx, loopCheck, branch, hty]
    rw [Act.bind_run, Act.lift]
    cases precheck W ctx t <;> simp only [unlessFault_advance]
  | other b hb => exact absurd hty (ht b hb)

theorem applyTx_other {ctx : BlockCtx} {t : Tx} (hk : ¬ Known t) (db : DB) : applyTx W ctx t db = (.ok {}, db) := by
  obtain ⟨b, hb, hty⟩ := by simpa [Known] using hk
  simp only [applyTx, hty]
  rfl

theorem applyTx_skip {ctx : BlockCtx} {t : Tx} {db db' : DB} {o : TxOut} (hs : t.nonce ≠ nextNonce db t.senderPubKey)
    (h : applyTx W ctx t db = (.ok o, db')) : o = {} ∧ db' = db := by
  have hskip : applyTx W ctx t db = (.ok {}, db) := by
    by_cases hk : Known t
    · rw [applyTx_eq hk] at h ⊢
      cases hc : loopCheck W ctx t with
      | ok k => exact if_neg hs
      | err e => rw [hc] at h; cases h
      | panic w => rw [hc] at h; cases h
    · exact applyTx_other hk db
  rw [hskip] at h
  obtain ⟨e, rfl⟩ := Prod.mk.inj h
  exact ⟨(Go.ok.inj e).symm, rfl⟩

theorem applyTx_executed {ctx : BlockCtx} {t : Tx} {db db' : DB} {o : TxOut} (ht : Known t)
    (hn : t.nonce = nextNonce db t.senderPubKey) (h : applyTx W ctx t db = (.ok o, db')) :
    ∃ k, loopCheck W ctx t = .ok k ∧ branch W ctx t k (db.advanced t.senderPubKey t.nonce) = (.ok o, db') := by
  rw [applyTx_eq ht] at h
  cases hc : loopCheck W ctx t with
  | ok k =>
    rw [hc] at h
    dsimp only at h
    rw [if_pos hn] at h
    exact ⟨k, rfl, h⟩
  | err e => rw [hc] at h; cases h
  | panic w => rw [hc] at h; cases h

theorem unlessFault_ok {x : M Unit} {k : M TxOut} {db db' : DB} {o : TxOut}
    (h : unlessFault x k db = (.ok o, db')) :
    (∃ db1, x db = (.ok (), db1) ∧ k db1 = (.ok o, db')) ∨
      ∃ e, x db = (.err e, db') ∧ isSequenceFault e = true ∧ o = {} := by
  unfold unlessFault at h
  split at h
  · exact Or.inl ⟨_, ‹_›, h⟩
  · split at h
    · rename_i hx hf
      obtain ⟨e1, rfl⟩ := Prod.mk.inj h
      exact Or.inr ⟨_, hx, hf, (Go.ok.inj e1).symm⟩
    · cases (Prod.mk.inj h).1
  · cases (Prod.mk.inj h).1

theorem orNotFound_ok {x : M TxOut} {db db' : DB} {o : TxOut} (h : orNotFound x db = (.ok o, db')) :
    x db = (.ok o, db') ∨ ∃ e, x db = (.err e, db') ∧ e.isNotFound = true ∧ o = {} := by
  unfold orNotFound at h
  split at h
  · split at h
    · rename_i hx hf
      obtain ⟨e1, rfl⟩ := Prod.mk.inj h
      exact Or.inr ⟨_, hx, hf, (Go.ok.inj e1).symm⟩
    · cases (Prod.mk.inj h).1
  · exact Or.inl h

theorem applyTx_out {ctx : BlockCtx} {t : Tx} {Q : TxOut → Prop} (hnone : Q {})
    (hcontract : t.type = .contractDeploy ∨ t.type = .contractCall → ∀ a f, Q { touched := some a, fuel := some f })
    (hslash : t.type = .equivEvidence → ∀ n, Q { slashed := n }) {db db' : DB} {o : TxOut}
    (h : applyTx W ctx t db = (.ok o, db')) : Q o := by
  have hfault : ∀ {x : M Unit} {k : M TxOut}, (∀ d o d', k d = (.ok o, d') → Q o) → ∀ d o d',
      unlessFault x k d = (.ok o, d') → Q o := by
    intro x k hk d o d' h
    rcases unlessFault_ok h with ⟨d1, -, h⟩ | ⟨e, -, -, rfl⟩
    · exact hk _ _ _ h
    · exact hnone
  have hlast : ∀ {α : Type} {x : M α} {f : α → TxOut}, (∀ a, Q (f a)) → ∀ d o d',
      (x >>= fun a => pure (f a)) d = (.ok o, d') → Q o := by
    intro α x f hf d o d' h
    obtain ⟨a, d1, -, h⟩ := Act.bind_ok.mp h
    obtain ⟨rfl, -⟩ := Act.pure_ok.mp h
    exact hf a
  have hpure : ∀ d o d', (pure {} : M TxOut) d = (.ok o, d') → Q o := by
    intro d o d' h
    obtain ⟨rfl, -⟩ := Act.pure_ok.mp h
    exact hnone
  cases hty : t.type with
  | transfer | missEvidence =>
    simp only [applyTx, hty] at h
    exact hfault hpure _ _ _ h
  | contractDeploy =>
    simp only [applyTx, hty] at h
    refine hfault (fun d o d' h => ?_) _ _ _ h
    obtain ⟨_, d1, -, h⟩ := Act.bind_ok.mp h
    exact hlast (fun _ => hcontract (Or.inl hty) _ _) _ _ _ h
  | contractCall =>
    simp only [applyTx, hty] at h
    refine hfault (fun d o d' h => ?_) _ _ _ h
    obtain ⟨_, d1, -, h⟩ := Act.bind_ok.mp h
    rcases orNotFound_ok h with h | ⟨e, -, -, rfl⟩
    · exact hlast (fun _ => hcontract (Or.inr hty) _ _) _ _ _ h
    · exact hnone
  | bond | unbond | finalizeUnbond | claimRewards =>
    simp only [applyTx, hty] at h
    obtain ⟨_, d1, -, h⟩ := Act.bind_ok.mp h
    exact hfault (hlast fun _ => hnone) _ _ _ h
  | equivEvidence =>
    simp only [applyTx, hty] at h
    obtain ⟨_, d1, -, h⟩ := Act.bind_ok.mp h
    exact hfault (hlast fun _ => hslash hty _) _ _ _ h
  | other b hb =>
    simp only [applyTx, hty] at h
    exact hpure _ _ _ h

theorem applyTx_slashed {ctx : BlockCtx} {t : Tx} (ht : t.type ≠ .equivEvidence) {db db' : DB} {o : TxOut}
    (h : applyTx W ctx t db = (.ok o, db')) : o.slashed = 0 :=
  applyTx_out (Q := fun o => o.slashed = 0) rfl (fun _ _ _ => rfl) (fun hty => absurd hty ht) h

theorem applyTx_fuel {ctx : BlockCtx} {t : Tx} (ht : ¬ (t.type = .contractDeploy ∨ t.type = .contractCall))
    {db db' : DB}
    {o : TxOut} (h : applyTx W ctx t db = (.ok o, db')) : o.fuel = none :=
  applyTx_out (Q := fun o => o.fuel = none) rfl (fun hty => absurd hty ht) (fun _ _ => rfl) h

end Frg.Chain
