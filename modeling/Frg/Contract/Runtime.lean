/-
  Frg.Contract.Runtime — running a contract (`core/contract/runtime.go`): the host
  functions with their fuel charges and memory accesses, the instance set-up, and the
  call of an exported function.

  Wasmtime itself is a parameter. A guest computation is a tree: it ends with a value,
  traps, or calls a host function with its memory and remaining fuel and goes on with
  what the host returns (`Guest`). Fuel makes every guest end, so the tree is finite.
  A move the host makes for a guest stays when the guest is told it failed: `MoveTx`
  may have written the source by then.
-/

import Frg.Chain.Ledger
import Frg.Contract.State

namespace Frg.Contract

open Frg.Lib Frg.Core Frg.Chain

def maxFuel : UInt64 := 100000000000
def fuelUnitsPerGas : UInt64 := 1000
def hostMemoryByteFuel : UInt64 := 10
def hostContextReadFuel : UInt64 := 1000
def hostStorageReadFuel : UInt64 := 1000
def hostStorageWriteFuel : UInt64 := 50000
def hostBalanceReadFuel : UInt64 := 2000
def hostLogFuel : UInt64 := 1000
def hostTransferFuel : UInt64 := 50000
def maxUint64 : UInt64 := 0xFFFFFFFFFFFFFFFF

/-- The host functions of module `frg`, with the arguments the guest passes. -/
inductive HostCall where
  | stateGet (keyPtr keyLen outPtr outLen : Int32)
  | stateSet (keyPtr keyLen valPtr valLen : Int32)
  | selfBalance (outPtr : Int32)
  | balanceOf (addrPtr addrLen outPtr : Int32)
  | blockHeight
  | caller (outPtr : Int32)
  | selfAddress (outPtr : Int32)
  | calldataLen
  | calldataCopy (dstPtr offset maxLen : Int32)
  | log (ptr length : Int32)
  | transfer (recvPtr recvLen : Int32) (amtLo amtHi : Int64)
  | bn254PairingCheck (inputPtr inputLen : Int32)

abbrev Memory := Option (List UInt8)

inductive Guest (ι : Type) where
  | done (val : ι) (fuel : UInt64)
  | trap (outOfFuel : Bool) (msg : String)
  | host (call : HostCall) (mem : Memory) (fuel : UInt64) (k : Int → Memory → UInt64 → Guest ι)

/-- Wasmtime: compiling, the imports of a module, instantiating it (which runs its start
    function), and the exported functions of an instance. -/
structure Wasmtime where
  Module : Type
  Instance : Type
  newModule : List UInt8 → Except String Module
  imports : Module → List (List UInt8 × Option (List UInt8))
  instantiate : Module → UInt64 → Guest Instance
  getFunc : Instance → List UInt8 → Option (UInt64 → Guest Unit)

/-- Everything taken from outside the repository. `pairing` is the BN254 check (`none` for
    malformed points). -/
structure Env extends Prim where
  wasm : Wasmtime
  pairing : List UInt8 → Option Bool

structure RuntimeConfig where
  wasmBytes : List UInt8
  caller : Key
  selfAddr : Key
  blockHeight : UInt64
  callData : List UInt8
  gasLimit : UInt64

/-- What a host function may change besides the database. -/
structure HostState where
  mem : Memory
  fuel : UInt64
  state : StateStore
  hostErr : Option Err

/-! ## Memory and fuel -/

def hostFuel (base : UInt64) (lengths : List Int32) : UInt64 :=
  lengths.foldl (fun total length =>
    if length ≤ 0 then total
    else if (maxUint64 - total) / hostMemoryByteFuel < length.toInt.toNat.toUInt64 then maxUint64
    else total + length.toInt.toNat.toUInt64 * hostMemoryByteFuel) base

/-- Charge `fuel` and go on with `k`, or record the shortage and give the guest `onErr`. -/
def charged (reason : String) (fuel : UInt64) (h : HostState) (onErr : Int)
    (k : HostState → M (Int × HostState)) : M (Int × HostState) :=
  if h.fuel < fuel then
    pure (onErr, { h with
      fuel := 0
      hostErr := some (.rg .contractOutOfGas s!"{reason} needs {fuel.toNat} fuel, remaining {h.fuel.toNat}") })
  else k { h with fuel := h.fuel - fuel }

/-- The end of the slice is a 32-bit sum; the length test before it is not. -/
def readMem (mem : Memory) (ptr length : Int32) : Res (Option (List UInt8)) :=
  match mem with
  | none => .ok none
  | some data =>
    if ptr < 0 ∨ length < 0 ∨ (data.length : Int) < ptr.toInt + length.toInt then .ok none
    else if (ptr + length).toInt < ptr.toInt then .panic "slice bounds out of range"
    else .ok (some ((data.drop ptr.toInt.toNat).take length.toInt.toNat))

/-- The memory after the write and the number of bytes written. -/
def writeMem (mem : Memory) (ptr : Int32) (maxLen : Nat) (bytes : List UInt8) : Memory × Int :=
  match mem with
  | none => (none, 0)
  | some raw =>
    let writeLen := min bytes.length maxLen
    if ptr < 0 ∨ raw.length < ptr.toInt.toNat + writeLen then (some raw, 0)
    else
      let at' := ptr.toInt.toNat
      (some (raw.take at' ++ bytes.take writeLen ++ raw.drop (at' + writeLen)), writeLen)

/-- The low `width` bytes of a number, low byte first. -/
def padBigToLE (n : Int) (width : Nat) : List UInt8 := (toBE width n.toNat).reverse

/-- `amtHi` shifted by 64 bits, or-ed with `amtLo`, both signed: a negative low word has
    every bit above it set. -/
def orWords (amtLo amtHi : Int64) : Int :=
  if 0 ≤ amtLo then amtHi.toInt * 2 ^ 64 + amtLo.toInt else amtLo.toInt

/-! ## Host functions -/

variable (E : Env) (cfg : RuntimeConfig)

def bn254PairingFuel (inputLen : Nat) : Option UInt64 :=
  if inputLen % 192 ≠ 0 then none
  else
    let pairs := inputLen / 192
    if (maxUint64.toNat - 100000) / 12000000 < pairs then none else some (.ofNat (100000 + pairs * 12000000))

/-- The pairing check on whole points; no points pass. -/
def bn254PairingCheck (input : List UInt8) : Option Bool :=
  if input.length % 192 ≠ 0 then none else if input = [] then some true else E.pairing input

/-- Write `bytes` for a function without a result. -/
def writeOut (h : HostState) (outPtr : Int32) (maxLen : Nat) (bytes : List UInt8) : M (Int × HostState) :=
  pure (0, { h with mem := (writeMem h.mem outPtr maxLen bytes).1 })

def hostStateGet (keyPtr keyLen outPtr outLen : Int32) (h : HostState) : M (Int × HostState) :=
  if keyLen < 0 ∨ outLen < 0 then pure (-1, h)
  else charged "state_get" (hostFuel hostStorageReadFuel [keyLen]) h (-1) fun h => do
    match ← Act.lift (readMem h.mem keyPtr keyLen) with
    | none => pure (-1, h)
    | some key =>
      match h.state.get key with
      | none => pure (0, h)
      | some val =>
        let writeLen : Nat := min val.length outLen.toInt.toNat
        charged "state_get output copy" (hostFuel 0 [Int32.ofNat writeLen]) h (-1) fun h =>
          let (mem, n) := writeMem h.mem outPtr outLen.toInt.toNat val
          pure (n, { h with mem })

def hostStateSet (keyPtr keyLen valPtr valLen : Int32) (h : HostState) : M (Int × HostState) :=
  if keyLen < 0 ∨ valLen < 0 then pure (1, h)
  else charged "state_set" (hostFuel hostStorageWriteFuel [keyLen, valLen]) h 1 fun h => do
    match ← Act.lift (readMem h.mem keyPtr keyLen) with
    | none => pure (1, h)
    | some key =>
      match ← Act.lift (readMem h.mem valPtr valLen) with
      | none => pure (1, h)
      | some val =>
        match h.state.set key val with
        | .ok state => pure (0, { h with state })
        | .err e => pure (1, { h with hostErr := some e })
        | .panic w => Act.stop w

def hostSelfBalance (outPtr : Int32) (h : HostState) : M (Int × HostState) :=
  charged "self_balance" hostBalanceReadFuel h 0 fun h => do
    let bal ← balanceOfTx cfg.selfAddr
    writeOut h outPtr 16 (padBigToLE bal 16)

def hostBalanceOf (addrPtr addrLen outPtr : Int32) (h : HostState) : M (Int × HostState) :=
  if addrLen < 0 then pure (0, h)
  else charged "balance_of" (hostFuel hostBalanceReadFuel [addrLen]) h 0 fun h => do
    match ← Act.lift (readMem h.mem addrPtr addrLen) with
    | none => pure (0, h)
    | some addr =>
      if addr.length ≠ 32 then pure (0, h)
      else do
        let bal ← balanceOfTx (wordOf 32 addr)
        writeOut h outPtr 16 (padBigToLE bal 16)

def hostBlockHeight (h : HostState) : M (Int × HostState) :=
  charged "block_height" hostContextReadFuel h 0 fun h => pure (cfg.blockHeight.toInt64.toInt, h)

def hostCaller (outPtr : Int32) (h : HostState) : M (Int × HostState) :=
  charged "caller" hostContextReadFuel h 0 fun h => writeOut h outPtr 32 cfg.caller.bytes

def hostSelfAddress (outPtr : Int32) (h : HostState) : M (Int × HostState) :=
  charged "self_address" hostContextReadFuel h 0 fun h => writeOut h outPtr 32 cfg.selfAddr.bytes

def hostCalldataLen (h : HostState) : M (Int × HostState) :=
  charged "calldata_len" hostContextReadFuel h 0 fun h => pure (cfg.callData.length, h)

def hostCalldataCopy (dstPtr offset maxLen : Int32) (h : HostState) : M (Int × HostState) :=
  if offset < 0 ∨ maxLen < 0 ∨ (cfg.callData.length : Int) < offset.toInt then pure (-1, h)
  else
    let start := offset.toInt.toNat
    let stop := min (start + maxLen.toInt.toNat) cfg.callData.length
    let copyLen := stop - start
    charged "calldata_copy" (hostFuel hostContextReadFuel [Int32.ofNat copyLen]) h (-1) fun h =>
      match h.mem with
      | none => pure (-1, h)
      | some raw =>
        if dstPtr < 0 ∨ raw.length < dstPtr.toInt.toNat + copyLen then pure (-1, h)
        else if copyLen = 0 then pure (0, h)
        else
          let mem := (writeMem h.mem dstPtr copyLen ((cfg.callData.drop start).take copyLen)).1
          pure (copyLen, { h with mem })

def hostLog (ptr length : Int32) (h : HostState) : M (Int × HostState) :=
  if length < 0 then pure (0, h)
  else charged "log" (hostFuel hostLogFuel [length]) h 0 fun h => do
    let _ ← Act.lift (readMem h.mem ptr length)
    pure (0, h)

def hostTransfer (recvPtr recvLen : Int32) (amtLo amtHi : Int64) (h : HostState) : M (Int × HostState) :=
  if recvLen < 0 then pure (1, h)
  else charged "transfer" (hostFuel hostTransferFuel [recvLen]) h 1 fun h => do
    match ← Act.lift (readMem h.mem recvPtr recvLen) with
    | none => pure (1, h)
    | some addr =>
      if addr.length ≠ 32 ∨ orWords amtLo amtHi ≤ 0 then pure (1, h)
      else do
        let moved ← Act.succeeded (moveTx cfg.selfAddr (wordOf 32 addr) (orWords amtLo amtHi))
        pure (if moved then 0 else 1, h)

def hostPairingCheck (inputPtr inputLen : Int32) (h : HostState) : M (Int × HostState) := do
  match ← Act.lift (readMem h.mem inputPtr inputLen) with
  | none => pure (-1, h)
  | some input =>
    match bn254PairingFuel input.length with
    | none => pure (-1, h)
    | some cost =>
      charged "bn254 pairing precompile" cost h (-1) fun h =>
        match bn254PairingCheck E input with
        | none => pure (-1, h)
        | some valid => pure (if valid then 1 else 0, h)

/-- `defineHostFunctions`. -/
def hostCall (c : HostCall) (h : HostState) : M (Int × HostState) :=
  match c with
  | .stateGet keyPtr keyLen outPtr outLen => hostStateGet keyPtr keyLen outPtr outLen h
  | .stateSet keyPtr keyLen valPtr valLen => hostStateSet keyPtr keyLen valPtr valLen h
  | .selfBalance outPtr => hostSelfBalance cfg outPtr h
  | .balanceOf addrPtr addrLen outPtr => hostBalanceOf addrPtr addrLen outPtr h
  | .blockHeight => hostBlockHeight cfg h
  | .caller outPtr => hostCaller cfg outPtr h
  | .selfAddress outPtr => hostSelfAddress cfg outPtr h
  | .calldataLen => hostCalldataLen cfg h
  | .calldataCopy dstPtr offset maxLen => hostCalldataCopy cfg dstPtr offset maxLen h
  | .log ptr length => hostLog ptr length h
  | .transfer recvPtr recvLen amtLo amtHi => hostTransfer cfg recvPtr recvLen amtLo amtHi h
  | .bn254PairingCheck inputPtr inputLen => hostPairingCheck E inputPtr inputLen h

/-! ## Instances -/

/-- How a guest ended (a trap, or a value and the fuel left), the contract state it left
    behind and the host error it met. -/
structure Outcome (ι : Type) where
  result : Except (Bool × String) (ι × UInt64)
  state : StateStore
  hostErr : Option Err

def Guest.run {ι : Type} : Guest ι → StateStore → Option Err → M (Outcome ι)
  | .done val fuel, state, hostErr => pure ⟨.ok (val, fuel), state, hostErr⟩
  | .trap outOfFuel msg, state, hostErr => pure ⟨.error (outOfFuel, msg), state, hostErr⟩
  | .host c mem fuel k, state, hostErr => do
    let (r, h) ← hostCall E cfg c ⟨mem, fuel, state, hostErr⟩
    (k r h.mem h.fuel).run h.state h.hostErr

/-- An instance between calls. `fuel` is what is left, `initialFuel` what was left after
    the set-up. -/
structure Runtime where
  inst : E.wasm.Instance
  initialFuel : UInt64
  fuel : UInt64
  state : StateStore
  hostErr : Option Err

def fuelCap : UInt64 :=
  let cap :=
    if cfg.gasLimit ≠ 0 then
      if maxUint64 / fuelUnitsPerGas < cfg.gasLimit then maxUint64 else cfg.gasLimit * fuelUnitsPerGas
    else maxFuel
  if cap = 0 then maxFuel else cap

/-- `frg`, `env`, `memory` -/
def modFrg : List UInt8 := [0x66, 0x72, 0x67]
def modEnv : List UInt8 := [0x65, 0x6E, 0x76]
def nameMemory : List UInt8 := [0x6D, 0x65, 0x6D, 0x6F, 0x72, 0x79]

def validateModule (imports : List (List UInt8 × Option (List UInt8))) : Res Unit :=
  imports.forM fun (mod, name) => do
    Go.check (mod = modFrg ∨ mod = modEnv)
      (.wrap s!"banned import from module {quoted mod}" (.rg .contractNonDeterministic ""))
    Go.check (mod = modEnv → name = none ∨ name = some nameMemory)
      (.wrap s!"banned env import {quoted (name.getD [])}" (.rg .contractNonDeterministic ""))

def newRuntime (state : StateStore) : M (Runtime E) := do
  match E.wasm.newModule cfg.wasmBytes with
  | .error msg => Act.fail (.wrap msg (.rg .contractNonDeterministic ""))
  | .ok module => do
    Act.lift (validateModule (E.wasm.imports module))
    let o ← (E.wasm.instantiate module (fuelCap cfg)).run E cfg state none
    match o.result with
    | .error (_, msg) => Act.fail (.wrap msg (.rg .contractNonDeterministic ""))
    | .ok (inst, fuel) => return { inst, initialFuel := fuel, fuel, state := o.state, hostErr := o.hostErr }

/-- `Runtime.Call`: the runtime after the function returned. -/
def Runtime.call (rt : Runtime E) (functionName : List UInt8) : M (Runtime E) :=
  match E.wasm.getFunc rt.inst functionName with
  | none => Act.fail (.notFound functionName)
  | some run => do
    let o ← (run rt.fuel).run E cfg rt.state rt.hostErr
    match o.result with
    | .error (true, msg) => Act.fail (.wrap msg (.rg .contractOutOfGas ""))
    | .error (false, msg) => Act.fail (.wrap msg (.rg .contractTrap ""))
    | .ok (_, fuel) =>
      match o.hostErr with
      | some e => Act.fail (if e.code.isSome then e else .wrap e.msg (.rg .contractStateInvalid ""))
      | none => return { rt with fuel, state := o.state, hostErr := none }

def Runtime.fuelConsumed {E : Env} (rt : Runtime E) : UInt64 :=
  if rt.fuel < rt.initialFuel then rt.initialFuel - rt.fuel else 0

end Frg.Contract
