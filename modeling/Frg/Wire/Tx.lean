/-
  Frg.Wire.Tx — transactions and their bytes (`core/tx/tx.go`): `serializeUnsigned`,
  `Serialize`, `ID`, `Deserialize` with every bounds-checked read it makes, the batch
  encoding, and the signing messages of a chain.

  A Go string is its bytes. `Value` is a pointer in the source, so it may be absent.
-/

import Frg.Core.Prim
import Frg.Lib.Slice

namespace Frg.Wire

open Frg.Lib Frg.Core

def maxTxBytes : Nat := 70000
def maxBatchTxs : Nat := 65536
def maxBatchBytes : Nat := 33554432
def maxWasmBytes : Nat := 1048576

/-- `TxType`: the nine the code names, and every other byte. -/
inductive TxType where
  | transfer
  | missEvidence
  | contractDeploy
  | contractCall
  | bond
  | unbond
  | finalizeUnbond
  | claimRewards
  | equivEvidence
  | other (b : UInt8) (h : b = 0 ∨ 9 < b)
  deriving DecidableEq, Repr

def TxType.byte : TxType → UInt8
  | .transfer => 1
  | .missEvidence => 2
  | .contractDeploy => 3
  | .contractCall => 4
  | .bond => 5
  | .unbond => 6
  | .finalizeUnbond => 7
  | .claimRewards => 8
  | .equivEvidence => 9
  | .other b _ => b

def TxType.ofByte (b : UInt8) : TxType :=
  if h : b = 0 ∨ 9 < b then .other b h
  else if b = 1 then .transfer
  else if b = 2 then .missEvidence
  else if b = 3 then .contractDeploy
  else if b = 4 then .contractCall
  else if b = 5 then .bond
  else if b = 6 then .unbond
  else if b = 7 then .finalizeUnbond
  else if b = 8 then .claimRewards
  else .equivEvidence

theorem TxType.ofByte_byte (t : TxType) : ofByte t.byte = t := by
  cases t with
  | other b h => simp [byte, ofByte, h]
  | _ => rfl

theorem TxType.byte_inj {t u : TxType} (h : t.byte = u.byte) : t = u := by
  rw [← ofByte_byte t, ← ofByte_byte u, h]

structure Tx where
  type : TxType
  sender : List UInt8
  receiver : List UInt8
  value : Option Int
  nonce : UInt64
  senderPubKey : Key
  receiverPubKey : Key
  senderSig : Sig
  receiverSig : Sig
  missedHeight : UInt64
  missedProposer : Key
  skipIndex : UInt32
  wasmBytes : List UInt8
  initArgs : List UInt8
  callData : List UInt8
  evidenceA : List UInt8
  evidenceB : List UInt8
  deriving DecidableEq, Repr

/-! ## `utf8.ValidString` -/

def utf8Cont (b : UInt8) : Bool := 0x80 ≤ b && b ≤ 0xBF

/-- The second byte of a three- or four-byte character: its range depends on the first. -/
def utf8Second (b0 b1 : UInt8) : Bool :=
  if b0 = 0xE0 then 0xA0 ≤ b1 && b1 ≤ 0xBF
  else if b0 = 0xED then 0x80 ≤ b1 && b1 ≤ 0x9F
  else if b0 = 0xF0 then 0x90 ≤ b1 && b1 ≤ 0xBF
  else if b0 = 0xF4 then 0x80 ≤ b1 && b1 ≤ 0x8F
  else utf8Cont b1

def validString : List UInt8 → Bool
  | [] => true
  | b0 :: r0 =>
    if b0 < 0x80 then validString r0
    else match r0 with
      | [] => false
      | b1 :: r1 =>
        if 0xC2 ≤ b0 && b0 ≤ 0xDF then utf8Cont b1 && validString r1
        else match r1 with
          | [] => false
          | b2 :: r2 =>
            if 0xE0 ≤ b0 && b0 ≤ 0xEF then utf8Second b0 b1 && utf8Cont b2 && validString r2
            else match r2 with
              | [] => false
              | b3 :: r3 =>
                0xF0 ≤ b0 && b0 ≤ 0xF4 && utf8Second b0 b1 && utf8Cont b2 && utf8Cont b3 && validString r3

/-! ## Encoding -/

/-- The part of the unsigned bytes that only some types carry. -/
def serializeExt (t : Tx) : Res (List UInt8) :=
  match t.type with
  | .contractDeploy => do
    Go.check (t.wasmBytes.length ≤ maxWasmBytes)
      (.rg .contractBytecodeTooLarge s!"wasm {t.wasmBytes.length} bytes exceeds {maxWasmBytes}")
    return u32 t.wasmBytes.length ++ t.wasmBytes
  | .contractCall => do
    Go.check (t.callData.length ≤ 0xFFFF) (.rg .dosSizeExceeded "calldata exceeds uint16")
    return u16 t.callData.length ++ t.callData
  | .equivEvidence => do
    Go.check (t.evidenceA.length ≤ 0xFFFF ∧ t.evidenceB.length ≤ 0xFFFF)
      (.rg .dosSizeExceeded "equivocation evidence exceeds uint16")
    return u16 t.evidenceA.length ++ t.evidenceA ++ u16 t.evidenceB.length ++ t.evidenceB
  | _ => return []

variable (P : Prim)

/-- The value `serializeUnsigned` accepts. Its later test that the value fits in 32 bytes
    cannot fail after this one. -/
def uint256Of : Option Int → Res Nat
  | none => .err (.rg .arithmeticOverflow "value out of uint256 range")
  | some v => do
    Go.check (0 ≤ v ∧ v ≤ maxUint256) (.rg .arithmeticOverflow "value out of uint256 range")
    return v.toNat

def serializeUnsigned (t : Tx) : Res (List UInt8) := do
  Go.check (validString t.sender ∧ validString t.receiver)
    (.rg .canonicalEncodingDistortion "sender or receiver is not valid UTF-8")
  let sender := P.nfc t.sender
  let receiver := P.nfc t.receiver
  let value ← uint256Of t.value
  Go.check (sender.length ≤ 0xFFFF ∧ receiver.length ≤ 0xFFFF)
    (.rg .canonicalEncodingDistortion "sender or receiver exceeds uint16 length")
  let ext ← serializeExt t
  return domainTx ++ [t.type.byte] ++ u16 sender.length ++ sender ++ u16 receiver.length ++ receiver ++
    toBE 32 value ++ u64 t.nonce.toNat ++ u64 t.missedHeight.toNat ++ t.missedProposer.bytes ++
    u32 t.skipIndex.toNat ++ ext

def serialize (t : Tx) : Res (List UInt8) := do
  let unsigned ← serializeUnsigned P t
  Go.check (unsigned.length + 192 ≤ maxTxBytes)
    (.rg .dosSizeExceeded s!"tx payload {unsigned.length + 192} bytes exceeds {maxTxBytes}")
  return unsigned ++ t.senderPubKey.bytes ++ t.receiverPubKey.bytes ++ t.senderSig.bytes ++ t.receiverSig.bytes

def Tx.id (t : Tx) : Res Hash := do
  let serialized ← serializeUnsigned P t
  return P.hash serialized

/-! ## Decoding -/

/-- The payloads of the types that have one. -/
structure Payload where
  wasmBytes : List UInt8 := []
  callData : List UInt8 := []
  evidenceA : List UInt8 := []
  evidenceB : List UInt8 := []

/-- A payload field: its length in `w` bytes, then that many bytes, all of it before the
    192 trailing bytes. Returns the field and the position behind it. -/
def readField (w : Nat) (data : List UInt8) (pos : Nat) (lenMsg bytesMsg : String) : Res (List UInt8 × Nat) := do
  Go.check (pos + w ≤ data.length - 192) (.rg .canonicalEncodingDistortion lenMsg)
  let n ← uintAt w data pos
  let pos := pos + w
  Go.check (pos + n ≤ data.length - 192) (.rg .canonicalEncodingDistortion bytesMsg)
  let field ← slice data pos (pos + n)
  return (field, pos + n)

/-- The deploy payload is bounded before its bytes are taken. -/
def readWasm (data : List UInt8) (pos : Nat) : Res (List UInt8 × Nat) := do
  Go.check (pos + 4 ≤ data.length - 192) (.rg .canonicalEncodingDistortion "wasmlen truncated")
  let wasmLen ← uintAt 4 data pos
  let pos := pos + 4
  Go.check (wasmLen ≤ maxWasmBytes)
    (.rg .contractBytecodeTooLarge s!"wasm {wasmLen} bytes exceeds {maxWasmBytes}")
  Go.check (pos + wasmLen ≤ data.length - 192) (.rg .canonicalEncodingDistortion "wasm bytes truncated")
  let wasm ← slice data pos (pos + wasmLen)
  return (wasm, pos + wasmLen)

def deserializeExt (type : TxType) (data : List UInt8) (pos : Nat) : Res (Payload × Nat) :=
  match type with
  | .contractDeploy => do
    let (wasmBytes, pos) ← readWasm data pos
    return ({ wasmBytes }, pos)
  | .contractCall => do
    let (callData, pos) ← readField 2 data pos "calldata len truncated" "calldata truncated"
    return ({ callData }, pos)
  | .equivEvidence => do
    let (evidenceA, pos) ← readField 2 data pos "evidence A len truncated" "evidence A truncated"
    let (evidenceB, pos) ← readField 2 data pos "evidence B len truncated" "evidence B truncated"
    return ({ evidenceA, evidenceB }, pos)
  | _ => return ({}, pos)

/-- The fixed-width fields behind the two names, each read after its own length test. -/
def readFixed (w : Nat) (data : List UInt8) (pos : Nat) (msg : String) : Res (List UInt8) := do
  Go.check (pos + w ≤ data.length) (.rg .canonicalEncodingDistortion msg)
  slice data pos (pos + w)

/-- `Deserialize` from the value on: `pos` stands behind the receiver. -/
def deserializeRest (type : TxType) (sender receiver data : List UInt8) (pos : Nat) : Res Tx := do
  let value ← readFixed 32 data pos "value truncated"
  let nonce ← readFixed 8 data (pos + 32) "nonce truncated"
  let missedHeight ← readFixed 8 data (pos + 40) "missed height truncated"
  let missedProposer ← readFixed 32 data (pos + 48) "missed proposer truncated"
  let skipIndex ← readFixed 4 data (pos + 80) "skip index truncated"
  let (payload, pos) ← deserializeExt type data (pos + 84)
  Go.check (pos = data.length - 192) (.rg .canonicalEncodingDistortion "non-canonical tx trailing bytes")
  let senderPubKey ← slice data pos (pos + 32)
  let receiverPubKey ← slice data (pos + 32) (pos + 64)
  let senderSig ← slice data (pos + 64) (pos + 128)
  let receiverSig ← slice data (pos + 128) (pos + 192)
  return {
    type, sender, receiver
    value := some (ofBE value)
    nonce := .ofNat (ofBE nonce)
    senderPubKey := wordOf 32 senderPubKey
    receiverPubKey := wordOf 32 receiverPubKey
    senderSig := wordOf 64 senderSig
    receiverSig := wordOf 64 receiverSig
    missedHeight := .ofNat (ofBE missedHeight)
    missedProposer := wordOf 32 missedProposer
    skipIndex := .ofNat (ofBE skipIndex)
    wasmBytes := payload.wasmBytes
    initArgs := []
    callData := payload.callData
    evidenceA := payload.evidenceA
    evidenceB := payload.evidenceB }

def deserialize (data : List UInt8) : Res Tx := do
  Go.check (data.length ≤ maxTxBytes)
    (.rg .dosSizeExceeded s!"tx payload {data.length} bytes exceeds {maxTxBytes}")
  Go.check (6 + 1 + 2 + 2 + 32 + 8 + 8 + 32 + 4 + 192 ≤ data.length) (.rg .canonicalEncodingDistortion "tx too short")
  let domain ← slice data 0 6
  Go.check (domain = domainTx) (.rg .canonicalEncodingDistortion "invalid tx domain prefix")
  let type ← byteAt data 6
  let senderLen ← uintAt 2 data 7
  Go.check (9 + senderLen ≤ data.length) (.rg .canonicalEncodingDistortion "sender length overflow")
  let sender ← slice data 9 (9 + senderLen)
  -- no length test stands before this read
  let receiverLen ← uintAt 2 data (9 + senderLen)
  Go.check (11 + senderLen + receiverLen ≤ data.length) (.rg .canonicalEncodingDistortion "receiver length overflow")
  let receiver ← slice data (11 + senderLen) (11 + senderLen + receiverLen)
  let parsed ← deserializeRest (.ofByte type) sender receiver data (11 + senderLen + receiverLen)
  let canonical ← serialize P parsed
  Go.check (canonical = data) (.rg .canonicalEncodingDistortion "tx is not canonical serialization")
  return parsed

/-! ## Batches -/

def batchLoop (buf : List UInt8) : List Tx → Res (List UInt8)
  | [] => return buf
  | t :: ts => do
    let b ← serialize P t
    Go.check (b.length ≤ 0xFFFF) (.rg .dosSizeExceeded "tx size exceeds uint16")
    let buf := buf ++ u16 b.length ++ b
    Go.check (buf.length ≤ maxBatchBytes) (.rg .dosSizeExceeded s!"batch exceeds {maxBatchBytes} bytes")
    batchLoop buf ts

def serializeBatch (txs : List Tx) : Res (List UInt8) := do
  Go.check (txs ≠ []) (.rg .canonicalEncodingDistortion "empty batch")
  Go.check (txs.length ≤ maxBatchTxs)
    (.rg .dosSizeExceeded s!"too many txs in batch: {txs.length} exceeds {maxBatchTxs}")
  batchLoop P (domainTxBatch ++ u16 txs.length) txs

/-- The transactions of a batch from `pos` on, and the position behind them. -/
def readTxs (data : List UInt8) (pos : Nat) : Nat → Res (List Tx × Nat)
  | 0 => return ([], pos)
  | n + 1 => do
    Go.check (pos + 2 ≤ data.length) (.rg .canonicalEncodingDistortion "batch truncated (count mismatch)")
    let txLen ← uintAt 2 data pos
    let pos := pos + 2
    Go.check (pos + txLen ≤ data.length) (.rg .canonicalEncodingDistortion "batch truncated (tx size mismatch)")
    let bytes ← slice data pos (pos + txLen)
    let t ← deserialize P bytes
    let (ts, pos) ← readTxs data (pos + txLen) n
    return (t :: ts, pos)

def deserializeBatch (data : List UInt8) : Res (List Tx) := do
  Go.check (data.length ≤ maxBatchBytes) (.rg .dosSizeExceeded s!"batch exceeds {maxBatchBytes} bytes")
  Go.check (12 + 2 ≤ data.length) (.rg .canonicalEncodingDistortion "batch too short")
  let domain ← slice data 0 12
  Go.check (domain = domainTxBatch) (.rg .canonicalEncodingDistortion "invalid batch domain prefix")
  let count ← uintAt 2 data 12
  Go.check (count ≤ maxBatchTxs) (.rg .dosSizeExceeded s!"too many txs in batch: {count} exceeds {maxBatchTxs}")
  let (txs, pos) ← readTxs P data 14 count
  Go.check (pos = data.length) (.rg .canonicalEncodingDistortion "non-canonical batch trailing bytes")
  return txs

/-! ## Signing -/

def chainDomainBytes (chainID payload : List UInt8) : List UInt8 :=
  let chainID := if chainID = [] then defaultChainID else chainID
  domainChain ++ u16 chainID.length ++ chainID ++ payload

def unsignedHashForChain (t : Tx) (chainID : List UInt8) : Res Hash := do
  let serialized ← serializeUnsigned P t
  return P.hash (chainDomainBytes chainID serialized)

def verifySigsForChain (t : Tx) (chainID : List UInt8) : Res Unit := do
  let msg ← unsignedHashForChain P t chainID
  match t.type with
  | .other b _ => .err (.rg .invalidTxType s!"unknown tx type {b.toNat}")
  | _ =>
    Go.check (P.verify t.senderPubKey msg.bytes t.senderSig)
      (.rg .invalidSignature "sender signature verification failed")

def signSenderForChain (t : Tx) (kp : Key) (chainID : List UInt8) : Res Sig := do
  let msg ← unsignedHashForChain P t chainID
  return P.sign kp msg.bytes

/-! ## Making transactions -/

/-- A transaction of a type without payload, unsigned. -/
def Tx.plain (type : TxType) (sender receiver : Key) (value : Int) (nonce : UInt64) : Tx :=
  { type, sender := [], receiver := [], value := some value, nonce, senderPubKey := sender, receiverPubKey := receiver
    senderSig := 0, receiverSig := 0, missedHeight := 0, missedProposer := 0, skipIndex := 0, wasmBytes := []
    initArgs := [], callData := [], evidenceA := [], evidenceB := [] }

/-- The transaction with its sender's signature, if it can be signed. -/
def Tx.signed (t : Tx) (chainID : List UInt8) : Tx :=
  match signSenderForChain P t t.senderPubKey chainID with
  | .ok sig => { t with senderSig := sig }
  | _ => t

end Frg.Wire
