/-
  Frg.Chain.Apply — `ApplyBlockForChain` (`core/statemachine/statemachine.go`): the
  checks before any write, the transaction loop, the contract leaves and the state
  root, the gas, miss and mint loops, the meta writes and the stored block.

  The loops over the block run one after the other, so a transaction the first loop
  skips is still charged, and still counted as a miss, by the later ones. The order in
  which Go walks the map of touched contracts is a parameter (`MapOrder`); everything
  before the contract leaves is independent of it.
-/

import Frg.Chain.Staking
import Frg.Contract.Exec
import Frg.RG.Tree

namespace Frg.Chain

open Frg.Lib Frg.Core Frg.Wire Frg.Contract Frg.RG

structure Block where
  height : UInt64
  txs : List Tx
  proposerPubKey : Key
  prevStateRoot : Hash
  stateRoot : Hash
  proposalBytes : List UInt8
  deriving DecidableEq, Repr

structure Result where
  stateRoot : Hash
  height : UInt64
  txsApplied : Nat
  gasBurned : Int
  mintAmount : Int
  deriving DecidableEq, Repr

/-- The environment of the state machine. `telemetryLen` is the length of a block's
    telemetry in JSON. -/
structure World extends Env where
  telemetryLen : Block → Tree → Nat

/-- An order in which Go may enumerate a map with the given keys. -/
structure MapOrder where
  list : List Key → List Key
  perm : ∀ l, (list l).Perm l

/-- What a block's transactions are checked and run against. -/
structure BlockCtx where
  chainID : List UInt8
  height : UInt64
  prevStateRoot : Hash
  validators : List Key
  baseFee : Fee

/-! ## Stateless checks -/

def distortion (msg : String) : Err := .rg .canonicalEncodingDistortion msg

def noEvidenceFields (t : Tx) : Prop := t.missedHeight = 0 ∧ t.missedProposer = 0 ∧ t.skipIndex = 0

instance (t : Tx) : Decidable (noEvidenceFields t) := inferInstanceAs (Decidable (_ ∧ _ ∧ _))

def validateZeroValueTx (t : Tx) : Res Unit :=
  Go.check (t.value = some 0) (distortion "transaction value must be zero")

def validateBondTx (t : Tx) : Res Unit := do
  Go.check (∃ v ∈ t.value, 0 < v) (distortion "bond value must be positive")
  Go.check (t.receiverPubKey = t.senderPubKey) (distortion "bond receiver must match validator pubkey")
  Go.check (noEvidenceFields t) (distortion "bond transaction contains non-zero evidence fields")

def validateZeroValueSelfTx (t : Tx) : Res Unit := do
  validateZeroValueTx t
  Go.check (t.receiverPubKey = 0 ∨ t.receiverPubKey = t.senderPubKey)
    (distortion "receiver pubkey must be empty or sender pubkey")
  Go.check (noEvidenceFields t) (distortion "transaction contains non-zero evidence fields")
  Go.check (t.wasmBytes = [] ∧ t.initArgs = [] ∧ t.callData = [] ∧ t.evidenceA = [] ∧ t.evidenceB = [])
    (distortion "transaction contains unused payload fields")

structure EvidenceVote where
  type : UInt8
  height : UInt64
  round : UInt32
  blockHash : Hash
  validatorPK : Key
  sig : Sig
  deriving DecidableEq, Repr

def deserializeEvidenceVote (data : List UInt8) : Res EvidenceVote := do
  Go.check (data.length = 141) (distortion s!"invalid vote length {data.length}")
  let type ← byteAt data 0
  let height ← uintIn 8 data 1 9
  let round ← uintIn 4 data 9 13
  let blockHash ← slice data 13 45
  let validatorPK ← slice data 45 77
  let sig ← slice data 77 141
  return { type, height := .ofNat height, round := .ofNat round, blockHash := wordOf 32 blockHash
           validatorPK := wordOf 32 validatorPK, sig := wordOf 64 sig }

variable (W : World)

/-- The bytes a vote is signed over. -/
def evidenceSignBytes (v : EvidenceVote) (chainID : List UInt8) : List UInt8 :=
  let chainID := if chainID = [] then defaultChainID else chainID
  domainVote ++ u16 chainID.length ++ chainID ++ [v.type] ++ u64 v.height.toNat ++ u32 v.round.toNat ++
    v.blockHash.bytes

def verifyEvidenceVote (v : EvidenceVote) (chainID : List UInt8) : Bool :=
  (v.type = 1 || v.type = 2) && W.verify v.validatorPK (evidenceSignBytes v chainID) v.sig

/-- An error inside the text of another one. -/
def within (msg : String) (x : Res EvidenceVote) : Res EvidenceVote :=
  match x with
  | .err e => .err (distortion (msg ++ e.msg))
  | r => r

theorem within_ok {msg : String} {x : Res EvidenceVote} {a : EvidenceVote} : within msg x = .ok a ↔ x = .ok a := by
  cases x <;> simp [within]

def validateEquivocationEvidenceTx (t : Tx) (chainID : List UInt8) : Res Key := do
  Go.check (noEvidenceFields t) (distortion "equivocation transaction contains non-zero miss fields")
  Go.check (t.wasmBytes = [] ∧ t.initArgs = [] ∧ t.callData = [])
    (distortion "equivocation transaction contains unused payload fields")
  let a ← within "invalid evidence A: " (deserializeEvidenceVote t.evidenceA)
  let b ← within "invalid evidence B: " (deserializeEvidenceVote t.evidenceB)
  Go.check (verifyEvidenceVote W a chainID ∧ verifyEvidenceVote W b chainID)
    (.rg .invalidSignature "invalid equivocation vote signature")
  Go.check (a.validatorPK = b.validatorPK) (distortion "equivocation votes must have same validator")
  Go.check (a.type = b.type ∧ a.height = b.height ∧ a.round = b.round)
    (distortion "equivocation votes must target same slot")
  Go.check (a.blockHash ≠ b.blockHash) (distortion "equivocation votes must conflict")
  Go.check (a.blockHash ≠ 0 ∧ b.blockHash ≠ 0) (distortion "nil votes cannot prove equivocation")
  return a.validatorPK

/-- What evidence that passes its check is made of. -/
theorem validateEquivocationEvidenceTx_iff {W : World} {t : Tx} {chainID : List UInt8} {k : Key} :
    validateEquivocationEvidenceTx W t chainID = .ok k ↔
      noEvidenceFields t ∧ (t.wasmBytes = [] ∧ t.initArgs = [] ∧ t.callData = []) ∧
        ∃ a, deserializeEvidenceVote t.evidenceA = .ok a ∧ ∃ b, deserializeEvidenceVote t.evidenceB = .ok b ∧
          (verifyEvidenceVote W a chainID = true ∧ verifyEvidenceVote W b chainID = true) ∧
          a.validatorPK = b.validatorPK ∧ (a.type = b.type ∧ a.height = b.height ∧ a.round = b.round) ∧
          a.blockHash ≠ b.blockHash ∧ (a.blockHash ≠ 0 ∧ b.blockHash ≠ 0) ∧ a.validatorPK = k := by
  simp only [validateEquivocationEvidenceTx, Go.bind_eq_ok, Go.check_eq_ok, within_ok, exists_const, Go.pure_eq,
    Go.ok.injEq]

def validateMissEvidenceTx (t : Tx) (blockHeight : UInt64) (prevStateRoot : Hash) (validators : List Key) :
    Res Unit := do
  Go.check (t.value = some 0) (distortion "miss evidence value must be zero")
  Go.check (t.missedHeight = blockHeight) (distortion "miss evidence height must match block height")
  Go.check (t.receiverPubKey = t.missedProposer) (distortion "miss evidence receiver must match missed proposer")
  Go.check (t.skipIndex ≠ 0xFFFFFFFF) (distortion "miss evidence skip index overflows")
  let expectedMissed ← skipProposer W.toPrim prevStateRoot blockHeight validators t.skipIndex
  Go.check (t.missedProposer = expectedMissed)
    (.rg .invalidSignature "miss evidence targets unexpected proposer")
  let expectedReporter ← skipProposer W.toPrim prevStateRoot blockHeight validators (t.skipIndex + 1)
  Go.check (t.senderPubKey = expectedReporter)
    (.rg .invalidSignature "miss evidence reporter is not next proposer")

/-- The stateless check of one transaction; for equivocation evidence it gives the
    validator, for every other type the zero key. -/
def precheck (ctx : BlockCtx) (t : Tx) : Res Key :=
  match t.type with
  | .bond => do validateBondTx t; return 0
  | .unbond | .finalizeUnbond | .claimRewards => do validateZeroValueSelfTx t; return 0
  | .equivEvidence => do validateZeroValueTx t; validateEquivocationEvidenceTx W t ctx.chainID
  | .missEvidence => do validateMissEvidenceTx W t ctx.height ctx.prevStateRoot ctx.validators; return 0
  | _ => return 0

/-! ## The transaction loop -/

/-- What the loop keeps of one transaction: the contract it touched, its fuel, and what it
    slashed. -/
structure TxOut where
  touched : Option Key := none
  fuel : Option UInt64 := none
  slashed : Nat := 0
  deriving DecidableEq, Repr

def isSequenceFault (e : Err) : Bool := e.code = some .sequenceFault

/-- `if isSequenceFault(err) { continue }`: on a sequence fault the rest of the branch
    is skipped. -/
def unlessFault (x : M Unit) (k : M TxOut) : M TxOut := fun db =>
  match x db with
  | (.ok _, db') => k db'
  | (.err e, db') => if isSequenceFault e then (.ok {}, db') else (.err e, db')
  | (.panic w, db') => (.panic w, db')

/-- `contract.Call` in the loop: an unknown selector rejects the transaction, not the block,
    and keeps what the call wrote. -/
def orNotFound (x : M TxOut) : M TxOut := fun db =>
  match x db with
  | (.err e, db') => if e.isNotFound then (.ok {}, db') else (.err e, db')
  | r => r

def contractGasLimit (sender : Key) (baseFee : Fee) : M UInt64 := do
  if baseFee.val = 0 then return 0
  let bal ← balanceOfTx sender
  let affordableGas := bal / baseFee.val
  Act.check (1 < affordableGas) (.rg .insufficientFunds "sender cannot afford contract gas")
  return if 2 ^ 64 ≤ affordableGas then maxUint64 else .ofNat affordableGas.toNat - 1

/-- One round of the loop. -/
def applyTx (ctx : BlockCtx) (t : Tx) : M TxOut :=
  let advance := advanceNonceTx t.senderPubKey t.nonce
  match t.type with
  | .transfer => unlessFault (transferTx t) (pure {})
  | .contractDeploy => unlessFault advance do
    let gasLimit ← contractGasLimit t.senderPubKey ctx.baseFee
    let (_, fuelUsed) ← deploy W.toEnv t ctx.height gasLimit
    return { touched := some (contractAddr W.toEnv t.senderPubKey t.nonce), fuel := some fuelUsed }
  | .contractCall => unlessFault advance do
    let gasLimit ← contractGasLimit t.senderPubKey ctx.baseFee
    orNotFound do
      let (_, fuelUsed) ← call W.toEnv t ctx.height gasLimit
      return { touched := some t.receiverPubKey, fuel := some fuelUsed }
  | .missEvidence => unlessFault advance (pure {})
  | .bond => do
    let _ ← Act.lift (precheck W ctx t)
    unlessFault advance do
      bondTx W.toPrim t.senderPubKey t.value ctx.height
      return {}
  | .unbond => do
    let _ ← Act.lift (precheck W ctx t)
    unlessFault advance do
      unbondTx t.senderPubKey ctx.height
      return {}
  | .finalizeUnbond => do
    let _ ← Act.lift (precheck W ctx t)
    unlessFault advance do
      finalizeTx W.toPrim t.senderPubKey ctx.height
      return {}
  | .claimRewards => do
    let _ ← Act.lift (precheck W ctx t)
    unlessFault advance do
      claimTx W.toPrim t.senderPubKey
      return {}
  | .equivEvidence => do
    let validator ← Act.lift (precheck W ctx t)
    unlessFault advance do
      let slashed ← slashTx W.toPrim validator
      return { slashed }
  | .other _ _ => return {}

def txLoop (ctx : BlockCtx) (txs : List Tx) : M (List TxOut) := txs.mapM (applyTx W ctx)

/-! ## The contract leaves and the root -/

/-- The keys of the touched-contracts map, each once. -/
def touchedOf (outs : List TxOut) : List Key := (outs.filterMap TxOut.touched).dedup

def contractNode (db : DB) (addr : Key) : Res RGNode := do
  let bal := readBalance db addr
  let volume ← uint256ToBytes bal.toNat
  let sumSquares ← uint256ToBytes (bal * bal).toNat
  return { scale := 1, volume, variance := 0, sig := .atomic, children := [loadStateRoot W.toEnv db addr], sumSquares
           count := 1, contractCount := 1 }

def contractNodes (order : MapOrder) (outs : List TxOut) (db : DB) : Res (List RGNode) :=
  (order.list (touchedOf outs)).mapM (contractNode W db)

/-! ## Gas, misses, rewards -/

def gasUnits (o : TxOut) : UInt64 :=
  match o.fuel with
  | some fuel => 1 + fuel / fuelUnitsPerGas
  | none => 1

def chargeGas (baseFee : Fee) (totalGas : UInt64) (p : Tx × TxOut) : M UInt64 :=
  if baseFee.val = 0 then pure totalGas
  else do
    burnTx p.1.senderPubKey (baseFee.val * (gasUnits p.2).toNat)
    return totalGas + gasUnits p.2

/-- The amount the miss side effect of one transaction slashed. -/
def applyMiss (slashed : Nat) (t : Tx) : M Nat :=
  if t.type = .missEvidence then do
    let slashAmt ← recordMissTx t.missedProposer
    if 0 < slashAmt then
      burnTx (escrowAccount W.toPrim t.missedProposer) slashAmt
    return slashed + slashAmt
  else pure slashed

def creditShare (p : Key × Int) : M Unit :=
  if p.2 = 0 then pure () else creditTx (feeAccount W.toPrim p.1) p.2

/-! ## The block store -/

def maxStoredBlockBytes : Nat := 67108864
def maxStoredBlockTelemetryBytes : Nat := 2097152

def blockKey (height : UInt64) : Word 8 := Fin.ofNat _ height.toNat

/-- The batch of the stored block: empty without transactions. -/
def blockBatch (txs : List Tx) : Res (List UInt8) := if txs = [] then .ok [] else serializeBatch W.toPrim txs

def serializeBlock (b : Block) : Res (List UInt8) := do
  let batch ← blockBatch W b.txs
  Go.check (b.proposalBytes.length ≤ maxStoredBlockBytes)
    (.plain s!"serialized proposal exceeds {maxStoredBlockBytes} bytes")
  let data := blockMagicV2 ++ u64 b.height.toNat ++ b.proposerPubKey.bytes ++ b.prevStateRoot.bytes ++
    b.stateRoot.bytes ++ u32 b.txs.length ++ u32 b.proposalBytes.length ++ batch ++ b.proposalBytes
  Go.check (data.length ≤ maxStoredBlockBytes) (.plain s!"serialized block exceeds {maxStoredBlockBytes} bytes")
  return data

def putBlockTx (b : Block) : M Unit := do
  let data ← Act.lift (serializeBlock W b)
  Act.write fun db => { db with blocks := db.blocks.put (blockKey b.height) data }

/-! ## Blocks -/

def setTotalSupplyTx (total : Int) : M Unit := do
  Act.check (0 ≤ total) (.rg .arithmeticOverflow "total supply must be non-negative")
  Act.write fun db => { db with totalSupply := some total.toNat }

def missEvidenceKey (t : Tx) : UInt64 × UInt32 × Key := (t.missedHeight, t.skipIndex, t.missedProposer)

/-- The miss evidence of a block is well formed and without repetition. -/
def checkMissEvidence (ctx : BlockCtx) (seen : List (UInt64 × UInt32 × Key)) (t : Tx) :
    Res (List (UInt64 × UInt32 × Key)) :=
  if t.type = .missEvidence then do
    let _ ← precheck W ctx t
    Go.check (missEvidenceKey t ∉ seen) (distortion "duplicate miss evidence")
    return missEvidenceKey t :: seen
  else return seen

def ctxOf (db : DB) (b : Block) (chainID : List UInt8) : BlockCtx :=
  { chainID, height := b.height, prevStateRoot := db.stateRoot, validators := (bondedAmounts db).map (·.1)
    baseFee := currentBaseFee db }

/-- Everything `ApplyBlockForChain` checks before it opens the write transaction. -/
def checkBlock (db : DB) (b : Block) (chainID : List UInt8) : Res Unit := do
  Go.check (b.height = db.height + 1)
    (.rg .blockHeightSequenceFault s!"expected height {(db.height + 1).toNat}, got {b.height.toNat}")
  Go.check (b.prevStateRoot = 0 ∨ db.stateRoot = b.prevStateRoot)
    (.rg .blockHeightSequenceFault "block parent state root does not match current state")
  b.txs.forM fun t => verifySigsForChain W.toPrim t chainID
  let _ ← b.txs.foldlM (checkMissEvidence W (ctxOf db b chainID)) []

def totalStaked (db : DB) : Int := ((bondedAmounts db).map fun p => (p.2 : Int)).sum

/-- The reward of the next block: none without validators. -/
def mintAmountOf (db : DB) : Int :=
  if bondedAmounts db = [] then 0 else mintPerBlock (db.totalSupply.getD 0) (totalStaked db)

/-- The tracked supply after the block, if it is tracked. -/
def updateSupply (pre : DB) (totalGas : UInt64) (totalSlashed : Nat) : M Unit :=
  match pre.totalSupply with
  | none => pure ()
  | some supply =>
    setTotalSupplyTx (supply - (currentBaseFee pre).val * totalGas.toNat - totalSlashed + mintAmountOf pre)

/-- Step 6: the meta bucket, and the last checks before the block is stored. -/
def writeMeta (b : Block) (pre : DB) (root : Hash) (totalGas : UInt64) (totalSlashed : Nat) : M Unit := do
  Act.write fun db => { db with
    height := b.height, stateRoot := root, baseFee := some (nextBaseFee (currentBaseFee pre) totalGas) }
  updateSupply pre totalGas totalSlashed
  Act.check (b.stateRoot = 0 ∨ b.stateRoot = root)
    (.rg .rootMismatch "committed block state root does not match computed state root")

/-- The write transaction of `ApplyBlockForChain` on the state `pre`. -/
def applyBlockTx (order : MapOrder) (pre : DB) (b : Block) (chainID : List UInt8) : M Result := do
  let ctx := ctxOf pre b chainID
  let outs ← txLoop W ctx b.txs
  let nodes ← Act.read (contractNodes W order outs)
  let nodes ← Act.lift nodes
  let tree ← Act.lift (buildTree W.toPrim b.txs nodes)
  let totalGas ← (b.txs.zip outs).foldlM (chargeGas ctx.baseFee) 0
  let missSlashed ← b.txs.foldlM (applyMiss W) 0
  let validators := ctx.validators
  (validators.zip (splitReward (mintAmountOf pre) validators.length)).forM (creditShare W)
  writeMeta b pre tree.root totalGas ((outs.map TxOut.slashed).sum + missSlashed)
  let stored := { b with stateRoot := tree.root }
  Act.check (W.telemetryLen stored tree ≤ maxStoredBlockTelemetryBytes)
    (.plain s!"serialized block telemetry exceeds {maxStoredBlockTelemetryBytes} bytes")
  putBlockTx W stored
  return { stateRoot := tree.root, height := b.height, txsApplied := b.txs.length
           gasBurned := ctx.baseFee.val * totalGas.toNat, mintAmount := mintAmountOf pre }

/-- `ApplyBlockForChain`: the result and the database after it. A failed write transaction
    is rolled back. -/
def applyBlockForChain (order : MapOrder) (db : DB) (b : Block) (chainID : List UInt8) : Res Result × DB :=
  match checkBlock W db b chainID with
  | .ok _ =>
    match applyBlockTx W order db b chainID db with
    | (.ok r, db') => (.ok r, db')
    | (.err e, _) => (.err e, db)
    | (.panic w, _) => (.panic w, db)
  | .err e => (.err e, db)
  | .panic w => (.panic w, db)

/-! ## A concrete world, to evaluate the model on -/

/-- Every code is a module that does nothing and exports every name, except the code `[0]`,
    which exports none. -/
def sampleWasm : Wasmtime where
  Module := List UInt8
  Instance := List UInt8
  newModule code := .ok code
  imports _ := []
  instantiate code fuel := .done code fuel
  getFunc code _ := if code = [0] then none else some fun fuel => .done () fuel

def World.sample : World where
  toPrim := Prim.sample
  wasm := sampleWasm
  pairing _ := none
  telemetryLen _ _ := 0

def MapOrder.id : MapOrder := ⟨fun l => l, fun _ => .refl _⟩

def MapOrder.rev : MapOrder := ⟨List.reverse, List.reverse_perm⟩

/-- A block without a claimed parent or state root. -/
def Block.plain (height : UInt64) (txs : List Tx) : Block :=
  { height, txs, proposerPubKey := 0, prevStateRoot := 0, stateRoot := 0, proposalBytes := [] }

end Frg.Chain
