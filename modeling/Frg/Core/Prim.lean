/-
  Frg.Core.Prim — what every package shares: the error values (`core/errors`), the
  domain prefixes (`core/hash`), and the functions the code takes from outside the
  repository (SHA-256, Ed25519, Unicode normalisation) as parameters.

  A 32-byte key or hash and a 64-byte signature are words (`Frg.Lib.Words`); the
  all-zero array is `0`. An error is an `*RGError`, a wrapped one (`%w`), or a plain
  one; `Err.code` is what `errors.As` finds.
-/

import Frg.Lib.Act
import Frg.Lib.Words

namespace Frg.Core

open Frg.Lib

inductive ErrorCode where
  | arithmeticOverflow
  | invalidChildArity
  | scaleDomainFault
  | hashBoundaryMismatch
  | maskOutOfBounds
  | paddingSubstitutionFraud
  | signatureMisrepresentation
  | namespaceEscapeFault
  | canonicalEncodingDistortion
  | dosSizeExceeded
  | rootMismatch
  | invalidSignature
  | insufficientFunds
  | alreadyBonded
  | notBonded
  | unbondingPending
  | bondBelowMinimum
  | sequenceFault
  | invalidTxType
  | emptyValidatorSet
  | blockHeightSequenceFault
  | contractBytecodeTooLarge
  | contractOutOfGas
  | contractTrap
  | contractNonDeterministic
  | contractNotFound
  | contractStateInvalid
  deriving DecidableEq, Repr

/-- The codes are numbered in their order. -/
def ErrorCode.text (c : ErrorCode) : String :=
  let n := c.ctorIdx + 1
  (if n < 10 then "ERR_00" else "ERR_0") ++ toString n

/-- `errors.New` / `fmt.Errorf` values. `wrap` is `%w: text` and `context` is `text: %w`;
    `notFound` is `contract.ErrFunctionNotFound`, with the name behind it. -/
inductive Err where
  | rg (code : ErrorCode) (msg : String)
  | plain (msg : String)
  | notFound (name : List UInt8)
  | wrap (msg : String) (inner : Err)
  | context (msg : String) (inner : Err)
  deriving DecidableEq, Repr

/-- The code `errors.As` finds along the chain of wrapped errors. -/
def Err.code : Err → Option ErrorCode
  | .rg c _ => some c
  | .plain _ => none
  | .notFound _ => none
  | .wrap _ e => e.code
  | .context _ e => e.code

def nameText (name : List UInt8) : String := String.ofList (name.map fun b => Char.ofNat b.toNat)

/-- `%q` of a name in printable ASCII. -/
def quoted (name : List UInt8) : String := (nameText name).quote

/-- `Error()`. -/
def Err.msg : Err → String
  | .rg c m => if m = "" then c.text else c.text ++ ": " ++ m
  | .plain m => m
  | .notFound name => "contract function not found: " ++ quoted name
  | .wrap m e => e.msg ++ ": " ++ m
  | .context m e => m ++ ": " ++ e.msg

/-- `errors.Is(err, contract.ErrFunctionNotFound)`. -/
def Err.isNotFound : Err → Bool
  | .rg _ _ => false
  | .plain _ => false
  | .notFound _ => true
  | .wrap _ e => e.isNotFound
  | .context _ e => e.isNotFound

abbrev Res := Go Err

abbrev Key := Word 32
abbrev Hash := Word 32
abbrev Sig := Word 64

def maxUint256 : Int := 2 ^ 256 - 1

/-- The functions taken from outside the repository: SHA-256, Ed25519 (a signer is
    named by its public key) and Unicode NFC. -/
structure Prim where
  hash : List UInt8 → Hash
  verify : Key → List UInt8 → Sig → Bool
  sign : Key → List UInt8 → Sig
  nfc : List UInt8 → List UInt8

/-- No collision between two inputs: what the code relies on when it compares hashes. -/
def NoCollision (hash : List UInt8 → Hash) (x y : List UInt8) : Prop := hash x = hash y → x = y

/-- One signature of one key verifies one hash. -/
def OneMessage (verify : Key → List UInt8 → Sig → Bool) : Prop :=
  ∀ pk (m m' : Hash) sig, verify pk m.bytes sig = true → verify pk m'.bytes sig = true → m = m'

def u16 (n : Nat) : List UInt8 := toBE 2 n
def u32 (n : Nat) : List UInt8 := toBE 4 n
def u64 (n : Nat) : List UInt8 := toBE 8 n

/-! ## Domain prefixes -/

/-- `TX_V1\0` -/
def domainTx : List UInt8 := [0x54, 0x58, 0x5F, 0x56, 0x31, 0x00]
/-- `TX_BATCH_V1\0` -/
def domainTxBatch : List UInt8 := [0x54, 0x58, 0x5F, 0x42, 0x41, 0x54, 0x43, 0x48, 0x5F, 0x56, 0x31, 0x00]
/-- `RG_NODE_V1\0` -/
def domainRGNode : List UInt8 := [0x52, 0x47, 0x5F, 0x4E, 0x4F, 0x44, 0x45, 0x5F, 0x56, 0x31, 0x00]
/-- `NULL_PAD_V1\0` -/
def domainNullPad : List UInt8 := [0x4E, 0x55, 0x4C, 0x4C, 0x5F, 0x50, 0x41, 0x44, 0x5F, 0x56, 0x31, 0x00]
/-- `EMPTY_BLOCK_V1\0` -/
def domainEmptyBlock : List UInt8 :=
  [0x45, 0x4D, 0x50, 0x54, 0x59, 0x5F, 0x42, 0x4C, 0x4F, 0x43, 0x4B, 0x5F, 0x56, 0x31, 0x00]
/-- `CONTRACT_DEPLOY_V1\0` -/
def domainContractDeploy : List UInt8 :=
  [0x43, 0x4F, 0x4E, 0x54, 0x52, 0x41, 0x43, 0x54, 0x5F, 0x44, 0x45, 0x50, 0x4C, 0x4F, 0x59, 0x5F, 0x56, 0x31, 0x00]
/-- `CONTRACT_STATE_V1\0` -/
def domainContractState : List UInt8 :=
  [0x43, 0x4F, 0x4E, 0x54, 0x52, 0x41, 0x43, 0x54, 0x5F, 0x53, 0x54, 0x41, 0x54, 0x45, 0x5F, 0x56, 0x31, 0x00]
/-- `FRG_STAKING_ESCROW_V1\0` -/
def domainStakingEscrow : List UInt8 :=
  [0x46, 0x52, 0x47, 0x5F, 0x53, 0x54, 0x41, 0x4B, 0x49, 0x4E, 0x47, 0x5F, 0x45, 0x53, 0x43, 0x52, 0x4F, 0x57, 0x5F,
    0x56, 0x31, 0x00]
/-- `FRG_GAS_FEE_V1\0` -/
def domainGasFee : List UInt8 :=
  [0x46, 0x52, 0x47, 0x5F, 0x47, 0x41, 0x53, 0x5F, 0x46, 0x45, 0x45, 0x5F, 0x56, 0x31, 0x00]
/-- `FRG_CHAIN_V1\0` -/
def domainChain : List UInt8 := [0x46, 0x52, 0x47, 0x5F, 0x43, 0x48, 0x41, 0x49, 0x4E, 0x5F, 0x56, 0x31, 0x00]
/-- `FRG_VOTE_V1\0` -/
def domainVote : List UInt8 := [0x46, 0x52, 0x47, 0x5F, 0x56, 0x4F, 0x54, 0x45, 0x5F, 0x56, 0x31, 0x00]
/-- `FRG_PROPOSAL`: the code copies the first 12 bytes of `FRG_PROPOSAL_V1\0`. -/
def domainProposal : List UInt8 := [0x46, 0x52, 0x47, 0x5F, 0x50, 0x52, 0x4F, 0x50, 0x4F, 0x53, 0x41, 0x4C]
/-- `FRG_BLOCK_V2\0` -/
def blockMagicV2 : List UInt8 := [0x46, 0x52, 0x47, 0x5F, 0x42, 0x4C, 0x4F, 0x43, 0x4B, 0x5F, 0x56, 0x32, 0x00]
/-- `frg-mainnet-1` -/
def defaultChainID : List UInt8 :=
  [0x66, 0x72, 0x67, 0x2D, 0x6D, 0x61, 0x69, 0x6E, 0x6E, 0x65, 0x74, 0x2D, 0x31]

/-! ## A concrete instance, to evaluate the model on -/

def sampleHash (bs : List UInt8) : Hash := bs.foldl (fun a b => a * 257 + Fin.ofNat _ (b.toNat + 1)) 0

def sampleSign (pk : Key) (m : List UInt8) : Sig :=
  wordOf 64 (pk.bytes ++ if m.length = 32 then m else (sampleHash m).bytes)

def Prim.sample : Prim where
  hash := sampleHash
  verify pk m sig := sig = sampleSign pk m
  sign := sampleSign
  nfc := id

theorem oneMessage_sample : OneMessage Prim.sample.verify := by
  intro pk m m' sig h h'
  have e : sampleSign pk m.bytes = sampleSign pk m'.bytes := (of_decide_eq_true h).symm.trans (of_decide_eq_true h')
  unfold sampleSign at e
  rw [if_pos (length_bytes m), if_pos (length_bytes m')] at e
  have e := congrArg Word.bytes e
  rw [bytes_wordOf (by simp), bytes_wordOf (by simp)] at e
  exact bytes_inj (List.append_cancel_left e)

end Frg.Core
