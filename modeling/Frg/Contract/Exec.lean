/-
  Frg.Contract.Exec — deploying and calling a contract inside a bolt transaction
  (`core/contract/contract.go`): `Deploy`, `Call`, and the stored bytecode and state.

  A deploy takes the contract's address from the sender and its nonce; a call takes it
  from `ReceiverPubKey`. The fuel of a call is counted from after the instance set-up.
-/

import Frg.Contract.Runtime

namespace Frg.Contract

open Frg.Lib Frg.Core Frg.Wire Frg.Chain

variable (E : Env)

def contractAddr (deployer : Key) (nonce : UInt64) : Key :=
  E.hash (domainContractDeploy ++ deployer.bytes ++ u64 nonce.toNat)

def loadStateOf (db : DB) (addr : Key) : StateStore :=
  match db.contractState.get addr with
  | none => .empty
  | some raw => deserializeState raw

def loadStateRoot (db : DB) (addr : Key) : Hash := (loadStateOf db addr).stateRoot E.toPrim

/-- bbolt's `MaxValueSize`. -/
def maxValueSize : Nat := 2 ^ 31 - 2

/-- `Put` refuses a longer value, and its error is dropped. -/
def saveState (addr : Key) (s : StateStore) : M Unit :=
  Act.write fun db =>
    let data := s.serialize.getD []
    { db with contractState := if data.length ≤ maxValueSize then db.contractState.put addr data else db.contractState }

def storeBytecode (addr : Key) (wasm : List UInt8) : M Unit :=
  Act.write fun db => { db with contractBytecode := db.contractBytecode.put addr wasm }

/-- `init`, `call` -/
def initName : List UInt8 := [0x69, 0x6E, 0x69, 0x74]
def callName : List UInt8 := [0x63, 0x61, 0x6C, 0x6C]

/-- The move of a positive value to the contract. -/
def fund (t : Tx) (addr : Key) (msg : String) : M Unit :=
  match t.value with
  | none => pure ()
  | some v => if 0 < v then Act.mapErr (.context msg) (moveTx t.senderPubKey addr v) else pure ()

def deploy (t : Tx) (blockHeight gasLimit : UInt64) : M (Hash × UInt64) := do
  let addr := contractAddr E t.senderPubKey t.nonce
  Act.check (t.wasmBytes ≠ []) (.plain "contract deploy requires wasm bytes")
  let exists? ← Act.read fun db => db.contractBytecode.get addr
  Act.check (exists? = none) (.plain s!"contract already deployed at {addr.hex}")
  fund t addr "endow contract"
  let state ← Act.read fun db => loadStateOf db addr
  let cfg : RuntimeConfig :=
    { wasmBytes := t.wasmBytes, caller := t.senderPubKey, selfAddr := addr, blockHeight, callData := [], gasLimit }
  let rt ← newRuntime E cfg state
  let rt ← rt.call E cfg initName
  storeBytecode addr t.wasmBytes
  saveState addr rt.state
  return (rt.state.stateRoot E.toPrim, rt.fuelConsumed)

/-- The exported function a call selects, and the payload behind the selector. -/
def selector (callData : List UInt8) : List UInt8 × List UInt8 :=
  if 4 ≤ callData.length then (callData.take 4, callData.drop 4) else (callName, callData)

def call (t : Tx) (blockHeight gasLimit : UInt64) : M (Hash × UInt64) := do
  let addr := t.receiverPubKey
  match ← Act.read fun db => db.contractBytecode.get addr with
  | none => Act.fail (.plain s!"contract {addr.hex} not found")
  | some wasmBytes => do
    let state ← Act.read fun db => loadStateOf db addr
    let (funcName, callData) := selector t.callData
    let cfg : RuntimeConfig :=
      { wasmBytes, caller := t.senderPubKey, selfAddr := addr, blockHeight, callData, gasLimit }
    let rt ← newRuntime E cfg state
    Act.check (E.wasm.getFunc rt.inst funcName).isSome (.notFound funcName)
    fund t addr "fund contract call"
    let rt ← rt.call E cfg funcName
    saveState addr rt.state
    return (rt.state.stateRoot E.toPrim, rt.fuelConsumed)

end Frg.Contract
