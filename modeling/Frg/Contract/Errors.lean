/-
  Frg.Contract.Errors — which errors a call of a contract can end with.

  A host function never fails: it tells the guest, or leaves a host error that the end of
  the call returns (`errs_hostClosed`). A call that returns has gone through every stage
  (`call_ok`), so there was something to call (`call_exports`); it ends in
  `ErrFunctionNotFound` only if there was not (`call_notFound`).
-/

import Frg.Contract.Exec
import Frg.Contract.Host

namespace Frg.Contract

open Frg.Lib Frg.Core Frg.Wire Frg.Chain Act

theorem isNotFound_of_code {c : ErrorCode} : ∀ {e : Err}, e.code = some c → e.isNotFound = false
  | .rg _ _, _ => rfl
  | .plain _, h => by cases h
  | .notFound _, h => by cases h
  | .wrap _ e, h | .context _ e, h => isNotFound_of_code (e := e) h

variable {E : Env} {cfg : RuntimeConfig} {Q : Err → Prop}

/-! ## Guests -/

theorem errs_hostClosed : HostClosed cfg (fun x => Errs Q x) where
  pure := errs_pure
  bind := errs_bind
  stop := errs_stop
  read := errs_read
  readMem mem ptr length := errs_lift fun e h => by
    unfold readMem at h
    split at h
    · cases h
    · split_ifs at h
  move _ _ := errs_succeeded _

/-- Behind the look-up of the function a call has other errors. -/
theorem runtimeCall_errs {rt : Runtime E} {name : List UInt8} (h : (E.wasm.getFunc rt.inst name).isSome) :
    Errs (fun e => e.isNotFound = false) (rt.call E cfg name) := by
  unfold Runtime.call
  split
  · rename_i hnone
    rw [hnone] at h
    cases h
  refine errs_bind (errs_hostClosed.guest _ _ _) fun o => ?_
  split
  · exact errs_fail rfl
  · exact errs_fail rfl
  · split
    · refine errs_fail ?_
      split
      · rename_i hcode
        obtain ⟨c, hc⟩ := Option.isSome_iff_exists.mp hcode
        exact isNotFound_of_code hc
      · rfl
    · exact errs_pure _

theorem moveTx_errs (source target : Key) (amount : Int) :
    Errs (fun e => e.isNotFound = false) (moveTx source target amount) :=
  errs_bind (errs_lift fun _ h => isNotFound_of_code (validateUint256_code h)) fun _ _ _ _ h => by
    rcases moveBalance_code h with ⟨hcode, -⟩ | hcode <;> exact isNotFound_of_code hcode

theorem fund_errs (t : Tx) (addr : Key) (msg : String) : Errs (fun e => e.isNotFound = false) (fund t addr msg) := by
  unfold fund
  split
  · exact errs_pure _
  · split
    · exact errs_mapErr (moveTx_errs _ _ _)
    · exact errs_pure _

/-! ## Calls -/

variable {t : Tx} {blockHeight gasLimit : UInt64} {db db' : DB}

/-- The runtime a call sets up. -/
def callConfig (t : Tx) (wasmBytes : List UInt8) (blockHeight gasLimit : UInt64) : RuntimeConfig :=
  { wasmBytes, caller := t.senderPubKey, selfAddr := t.receiverPubKey, blockHeight
    callData := (selector t.callData).2, gasLimit }

theorem call_ok {r : Hash × UInt64} (h : call E t blockHeight gasLimit db = (.ok r, db')) :
    ∃ wasmBytes rt d₁ d₂ rt' d₃, db.contractBytecode.get t.receiverPubKey = some wasmBytes ∧
      newRuntime E (callConfig t wasmBytes blockHeight gasLimit) (loadStateOf db t.receiverPubKey) db = (.ok rt, d₁) ∧
      (E.wasm.getFunc rt.inst (selector t.callData).1).isSome ∧
      fund t t.receiverPubKey "fund contract call" d₁ = (.ok (), d₂) ∧
      rt.call E (callConfig t wasmBytes blockHeight gasLimit) (selector t.callData).1 d₂ = (.ok rt', d₃) ∧
      saveState t.receiverPubKey rt'.state d₃ = (.ok (), db') ∧
        r = (rt'.state.stateRoot E.toPrim, rt'.fuelConsumed) := by
  unfold call at h
  obtain ⟨code, d, hread, h⟩ := bind_ok.mp h
  obtain ⟨rfl, rfl⟩ := read_ok.mp hread
  cases hcode : db.contractBytecode.get t.receiverPubKey with
  | none =>
    rw [hcode] at h
    exact absurd h fail_ok
  | some wasmBytes =>
    rw [hcode] at h
    obtain ⟨state, d, hread, h⟩ := bind_ok.mp h
    obtain ⟨rfl, rfl⟩ := read_ok.mp hread
    obtain ⟨rt, d₁, hrt, h⟩ := bind_ok.mp h
    obtain ⟨_, d, hcheck, h⟩ := bind_ok.mp h
    obtain ⟨hfunc, rfl⟩ := check_ok.mp hcheck
    obtain ⟨_, d₂, hfund, h⟩ := bind_ok.mp h
    obtain ⟨rt', d₃, hcall, h⟩ := bind_ok.mp h
    obtain ⟨_, d₄, hsave, h⟩ := bind_ok.mp h
    obtain ⟨rfl, rfl⟩ := pure_ok.mp h
    exact ⟨wasmBytes, rt, d₁, d₂, rt', d₃, rfl, hrt, hfunc, hfund, hcall, hsave, rfl⟩

/-- The contract is there, its instance can be set up, and it exports the function the call
    selects. -/
def Exports (E : Env) (t : Tx) (blockHeight gasLimit : UInt64) (db : DB) : Prop :=
  ∃ wasmBytes rt db', db.contractBytecode.get t.receiverPubKey = some wasmBytes ∧
    newRuntime E (callConfig t wasmBytes blockHeight gasLimit) (loadStateOf db t.receiverPubKey) db = (.ok rt, db') ∧
    (E.wasm.getFunc rt.inst (selector t.callData).1).isSome

theorem call_exports {r : Hash × UInt64} (h : call E t blockHeight gasLimit db = (.ok r, db')) :
    Exports E t blockHeight gasLimit db := by
  obtain ⟨wasmBytes, rt, d, -, -, -, hcode, hrt, hfunc, -⟩ := call_ok h
  exact ⟨wasmBytes, rt, d, hcode, hrt, hfunc⟩

/-- The error the loop forgives says that there was nothing to call. -/
theorem call_notFound {e : Err} (h : call E t blockHeight gasLimit db = (.err e, db')) (he : e.isNotFound = true) :
    ¬ Exports E t blockHeight gasLimit db := by
  rintro ⟨wasmBytes, rt, d, hcode, hrt, hfunc⟩
  have hrest : Errs (fun e => e.isNotFound = false) (do
      fund t t.receiverPubKey "fund contract call"
      let rt ← rt.call E (callConfig t wasmBytes blockHeight gasLimit) (selector t.callData).1
      saveState t.receiverPubKey rt.state
      return (rt.state.stateRoot E.toPrim, rt.fuelConsumed)) :=
    errs_bind (fund_errs _ _ _) fun _ => errs_bind (runtimeCall_errs hfunc) fun _ =>
      errs_bind (errs_write _) fun _ => errs_pure _
  unfold callConfig at hrt
  unfold call at h
  rw [bind_run, Act.read] at h
  dsimp only at h
  rw [hcode] at h
  dsimp only at h
  rw [bind_run, Act.read] at h
  dsimp only at h
  rw [bind_run, hrt] at h
  dsimp only at h
  rw [bind_run, Act.check, Go.check_pos hfunc] at h
  rw [hrest _ _ _ h] at he
  cases he

end Frg.Contract
