/-
  Frg.Client.Wallet — the wallet that builds, signs and submits transactions (`wallet/wallet.go`).

  Every call asks the node for the account, makes a transaction with the next nonce, signs it and
  hands it to the node. What was handed over is kept in a log beside the answer that came back:
  the node may have accepted a transaction whose answer is an error, or got lost.
    - `Submits`: what a call does to the log: nothing, or one transaction of its value more, and
      it succeeds exactly when that one was answered with Ok. Each call of the wallet is one.
-/

import Frg.Core.Denom
import Frg.Node.Submit

namespace Frg.Client

open Frg.Lib Frg.Core Frg.Wire Frg.Node

/-! ## The code -/

structure Wallet where
  kp : Key
  chainID : List UInt8

/-- A transaction handed to the node, and what came back. -/
structure HandedTx where
  tx : Tx
  raw : List UInt8
  answer : Answer

/-- What the node answers during one call: to `GetAccount`, of which the wallet uses the nonce,
    and to `SubmitTx`. -/
structure Replies where
  account : Except Err UInt64
  submit : Answer

abbrev Handing := Act Err (List HandedTx)

def decodePubKey (pubkeyHex : List UInt8) : Res Key :=
  match hexDecode pubkeyHex with
  | none => .err (.plain "pubkey must be 32-byte hex")
  | some raw => if raw.length = 32 then .ok (wordOf 32 raw) else .err (.plain "pubkey must be 32-byte hex")

/-- The nonce of the account. -/
def ownAccount (replies : Replies) : Handing UInt64 :=
  match replies.account with
  | .error e => .fail e
  | .ok nonce => pure nonce

variable (P : Prim) (w : Wallet) (replies : Replies)

/-- The second half of `signAndSubmit`: the bytes go to the node, and the answer is looked at. -/
def submitSigned (tr : Tx) : Handing Hash := do
  let raw ← .lift (serialize P tr)
  .write (· ++ [⟨tr, raw, replies.submit⟩])
  match replies.submit with
  | .error e => .fail e
  | .ok resp =>
    if resp.ok then .lift (tr.id P) else .fail (.plain ("node rejected transaction: " ++ resp.error))

def signAndSubmit (tr : Tx) : Handing Hash := do
  let sig ← .lift (signSenderForChain P tr w.kp w.chainID)
  submitSigned P replies { tr with senderSig := sig }

/-- `wallet` -/
def nameWallet : List UInt8 := [0x77, 0x61, 0x6C, 0x6C, 0x65, 0x74]
/-- `validator` -/
def nameValidator : List UInt8 := [0x76, 0x61, 0x6C, 0x69, 0x64, 0x61, 0x74, 0x6F, 0x72]
/-- `staking` -/
def nameStaking : List UInt8 := [0x73, 0x74, 0x61, 0x6B, 0x69, 0x6E, 0x67]
/-- `rewards` -/
def nameRewards : List UInt8 := [0x72, 0x65, 0x77, 0x61, 0x72, 0x64, 0x73]
/-- `contract` -/
def nameContract : List UInt8 := [0x63, 0x6F, 0x6E, 0x74, 0x72, 0x61, 0x63, 0x74]

/-- A transaction of the wallet, with the nonce after the account's. -/
def Wallet.build (type : TxType) (sender receiver : List UInt8) (receiverPubKey : Key) (value : Int)
    (nonce : UInt64) : Tx :=
  { Tx.plain type w.kp receiverPubKey value (nonce + 1) with sender, receiver }

def transfer (recipient : Key) (amount : Int) : Handing Hash := do
  .check (0 < amount) (.plain "amount must be positive")
  let nonce ← ownAccount replies
  signAndSubmit P w replies (w.build .transfer nameWallet nameWallet recipient amount nonce)

def bond (amount : Int) : Handing Hash := do
  .check (0 < amount) (.plain "amount must be positive")
  let nonce ← ownAccount replies
  signAndSubmit P w replies (w.build .bond nameValidator nameStaking w.kp amount nonce)

/-- `Unbond`, `FinalizeUnbond` and `ClaimRewards`: no value, to the validator's own key. -/
def valueless (type : TxType) (receiver : List UInt8) : Handing Hash := do
  let nonce ← ownAccount replies
  signAndSubmit P w replies (w.build type nameValidator receiver w.kp 0 nonce)

def unbond : Handing Hash := valueless P w replies .unbond nameStaking
def finalizeUnbond : Handing Hash := valueless P w replies .finalizeUnbond nameStaking
def claimRewards : Handing Hash := valueless P w replies .claimRewards nameRewards

def deployContract (wasm : List UInt8) (value : Int) : Handing Hash := do
  .check (wasm ≠ []) (.plain "wasm is required")
  let nonce ← ownAccount replies
  .check (0 ≤ value) (.plain "value must not be negative")
  signAndSubmit P w replies
    { w.build .contractDeploy nameWallet nameContract 0 value nonce with wasmBytes := wasm }

def callContract (contractAddr : Key) (callData : List UInt8) (value : Int) : Handing Hash := do
  let nonce ← ownAccount replies
  .check (0 ≤ value) (.plain "value must not be negative")
  signAndSubmit P w replies
    { w.build .contractCall nameWallet nameContract contractAddr value nonce with callData := callData }

/-! ## What a call hands over -/

def HandedTx.value (h : HandedTx) : Int := h.tx.value.getD 0

/-- The answer was Ok. -/
def HandedTx.accepted (h : HandedTx) : Bool :=
  match h.answer with
  | .ok resp => resp.ok
  | .error _ => false

/-- The call hands over at most one transaction, of this value, and succeeds exactly when that one
    was answered with Ok. -/
def Submits (x : Handing Hash) (value : Int) : Prop :=
  ∀ log r log', x log = (r, log') → (log' = log ∧ r.toOption = none) ∨
    ∃ h, log' = log ++ [h] ∧ h.value = value ∧ (h.accepted = true ↔ r.toOption.isSome)

variable {P : Prim} {w : Wallet} {replies : Replies}

theorem Submits.after {α : Type} {x : Handing α} {f : α → Handing Hash} {value : Int}
    (hx : ∀ log, (x log).2 = log) (hf : ∀ a, Submits (f a) value) : Submits (x >>= f) value := by
  intro log r log' h
  rw [Act.bind_run] at h
  have hlog := hx log
  cases hr : x log with
  | mk res log1 =>
    rw [hr] at h hlog
    obtain rfl : log1 = log := hlog
    cases res with
    | ok a => exact hf a log1 r log' h
    | err e =>
      obtain ⟨rfl, rfl⟩ := Prod.mk.inj h
      exact Or.inl ⟨rfl, rfl⟩
    | panic why =>
      obtain ⟨rfl, rfl⟩ := Prod.mk.inj h
      exact Or.inl ⟨rfl, rfl⟩

theorem id_of_serialize {t : Tx} {raw : List UInt8} (h : serialize P t = .ok raw) : ∃ id, t.id P = .ok id := by
  obtain ⟨unsigned, hun, -⟩ := Go.bind_eq_ok.mp h
  refine ⟨P.hash unsigned, ?_⟩
  unfold Tx.id
  rw [hun]
  rfl

theorem submitSigned_submits {tr : Tx} {value : Int} (hv : tr.value = some value) :
    Submits (submitSigned P replies tr) value := by
  intro log r log' h
  unfold submitSigned at h
  cases hraw : serialize P tr with
  | err e =>
    rw [hraw] at h
    obtain ⟨rfl, rfl⟩ := Prod.mk.inj h
    exact Or.inl ⟨rfl, rfl⟩
  | panic why =>
    rw [hraw] at h
    obtain ⟨rfl, rfl⟩ := Prod.mk.inj h
    exact Or.inl ⟨rfl, rfl⟩
  | ok raw =>
    obtain ⟨id, hid⟩ := id_of_serialize hraw
    have hvalue : (⟨tr, raw, replies.submit⟩ : HandedTx).value = value := by
      unfold HandedTx.value
      rw [hv]
      rfl
    rw [hraw, hid, Act.lift_bind rfl, Act.write_bind] at h
    refine Or.inr ⟨⟨tr, raw, replies.submit⟩, ?_⟩
    unfold HandedTx.accepted
    cases hanswer : replies.submit with
    | error e =>
      rw [hanswer] at h hvalue
      obtain ⟨rfl, rfl⟩ := Prod.mk.inj h
      exact ⟨rfl, hvalue, by simp [Go.toOption]⟩
    | ok resp =>
      rw [hanswer] at h hvalue
      dsimp only at h ⊢
      split at h
      · rename_i hok
        obtain ⟨rfl, rfl⟩ := Prod.mk.inj h
        exact ⟨rfl, hvalue, by simp [hok, Go.toOption]⟩
      · rename_i hok
        obtain ⟨rfl, rfl⟩ := Prod.mk.inj h
        exact ⟨rfl, hvalue, by simp [hok, Go.toOption]⟩

theorem signAndSubmit_submits {tr : Tx} {value : Int} (hv : tr.value = some value) :
    Submits (signAndSubmit P w replies tr) value :=
  .after (fun _ => rfl) fun _ => submitSigned_submits hv

theorem ownAccount_log (log : List HandedTx) : (ownAccount replies log).2 = log := by
  unfold ownAccount
  cases replies.account <;> rfl

theorem transfer_submits (recipient : Key) (amount : Int) : Submits (transfer P w replies recipient amount) amount :=
  .after (fun _ => rfl) fun _ => .after ownAccount_log fun _ => signAndSubmit_submits rfl

theorem bond_submits (amount : Int) : Submits (bond P w replies amount) amount :=
  .after (fun _ => rfl) fun _ => .after ownAccount_log fun _ => signAndSubmit_submits rfl

theorem valueless_submits (type : TxType) (receiver : List UInt8) : Submits (valueless P w replies type receiver) 0 :=
  .after ownAccount_log fun _ => signAndSubmit_submits rfl

theorem deployContract_submits (wasm : List UInt8) (value : Int) :
    Submits (deployContract P w replies wasm value) value :=
  .after (fun _ => rfl) fun _ => .after ownAccount_log fun _ => .after (fun _ => rfl) fun _ => signAndSubmit_submits rfl

theorem callContract_submits (contractAddr : Key) (callData : List UInt8) (value : Int) :
    Submits (callContract P w replies contractAddr callData value) value :=
  .after ownAccount_log fun _ => .after (fun _ => rfl) fun _ => signAndSubmit_submits rfl

end Frg.Client
