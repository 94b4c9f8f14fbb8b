/-
  Frg.Contract.Start — the set-up of an instance is work like any other.

  `NewRuntime` instantiates the module with the host functions already in place and the fuel
  already set, and instantiating runs the module's start function. What it moves, it moves in
  the block's transaction; what it burns is gone when `initialFuel` is read. Neither is taken
  back when the call then finds no function to run.

    - `guest_fuel`: a guest never has more fuel than it was given, if wasmtime counts it down.
    - `guest_changes`: the balances after a guest are those before it and the net of its
      transfers (`Guest.changes`); nothing else is written.
    - `call_rejected`: a call that ends in `ErrFunctionNotFound` leaves what `NewRuntime` left.
-/

import Frg.Contract.Errors
import Frg.Contract.Transfers

namespace Frg.Contract

open Frg.Lib Frg.Core Frg.Wire Frg.Chain Act

variable {E : Env} {cfg : RuntimeConfig} {ι : Type}

/-! ## Fuel -/

/-- Given `fuel`, the guest only ever burns of it, whatever the host leaves. -/
def Guest.Burns : Guest ι → UInt64 → Prop
  | .done _ left, fuel => left ≤ fuel
  | .trap _ _, _ => True
  | .host _ _ left k, fuel => left ≤ fuel ∧ ∀ r mem left', left' ≤ left → (k r mem left').Burns left'

/-- Wasmtime counts the fuel down, in a start function and in an exported one. -/
structure CountsFuel (wasm : Wasmtime) : Prop where
  start : ∀ module fuel, (wasm.instantiate module fuel).Burns fuel
  func : ∀ inst name run, wasm.getFunc inst name = some run → ∀ fuel, (run fuel).Burns fuel

theorem guest_fuel :
    ∀ {g : Guest ι} {fuel : UInt64} {state : StateStore} {hostErr : Option Err} {db db' : DB} {o : Outcome ι}
    {val : ι} {left : UInt64}, g.Burns fuel → g.run E cfg state hostErr db = (.ok o, db') → o.result = .ok (val, left) →
    left ≤ fuel := by
  intro g
  induction g with
  | done v f =>
    intro fuel state hostErr db db' o val left hb hrun hres
    obtain ⟨rfl, -⟩ := pure_ok.mp hrun
    obtain ⟨-, rfl⟩ := Prod.mk.inj (Except.ok.inj hres)
    exact hb
  | trap out msg =>
    intro fuel state hostErr db db' o val left _ hrun hres
    obtain ⟨rfl, -⟩ := pure_ok.mp hrun
    cases hres
  | host c mem f k ih =>
    intro fuel state hostErr db db' o val left hb hrun hres
    obtain ⟨⟨r, h⟩, d, hcall, hrun⟩ := bind_ok.mp hrun
    have hhost : h.fuel ≤ f := hostCall_fuel hcall
    have hle : left ≤ h.fuel := ih r h.mem h.fuel (hb.2 r h.mem h.fuel hhost) hrun hres
    exact UInt64.le_trans hle (UInt64.le_trans hhost hb.1)

/-! ## Balances -/

/-- What a `MoveTx` changes: nothing, the source alone, or both accounts. -/
def moveChanges (db : DB) (source target : Key) (amount : Int) : List (Key × Int) :=
  if ¬ (0 ≤ amount ∧ amount ≤ readBalance db source) then []
  else if maxUint256 < readBalance db target + amount then [(source, -amount)]
  else if source = target then [(source, amount)]
  else [(source, -amount), (target, amount)]

/-- The sum of the changes of one account. -/
def netOf (k : Key) (changes : List (Key × Int)) : Int := ((changes.filter (·.1 = k)).map (·.2)).sum

theorem netOf_append (k : Key) (l m : List (Key × Int)) : netOf k (l ++ m) = netOf k l + netOf k m := by
  unfold netOf
  rw [List.filter_append, List.map_append, List.sum_append]

theorem moveTx_changes (source target : Key) (amount : Int) (db : DB) (k : Key) :
    readBalance (moveTx source target amount db).2 k = readBalance db k +
      netOf k (moveChanges db source target amount) := by
  have hsource : Fits (readBalance db source) := readBalance_fits db source
  have htarget : 0 ≤ readBalance db target := readBalance_nonneg db target
  unfold Fits at hsource
  rcases moveTx_cases source target amount db with ⟨hno, e, hm⟩ | ⟨h0, hle, hover, e, hm⟩ | ⟨h0, hle, hfit, hm⟩ <;>
    rw [hm] <;> unfold moveChanges
  · rw [if_pos hno]
    exact (Int.add_zero _).symm
  · have hself : Fits (readBalance db source - amount) := by
      unfold Fits
      omega
    have hover : maxUint256 < readBalance db target + amount := by
      unfold Fits at hover
      omega
    rw [if_neg (not_not.mpr ⟨h0, hle⟩), if_pos hover]
    show readBalance (debitedDB db source target amount) k = _
    rw [readBalance_debitedDB db source target k hself]
    by_cases hk : k = source
    · simp [netOf, hk]
      omega
    · simp [netOf, hk, Ne.symm hk]
  · have hself : Fits (readBalance db source - amount) := by
      unfold Fits
      omega
    rw [if_neg (not_not.mpr ⟨h0, hle⟩), if_neg (not_lt.mpr hfit.2)]
    show readBalance (movedDB db source target amount) k = _
    rw [readBalance_movedDB hself hfit]
    by_cases hst : source = target
    · rw [if_pos hst]
      by_cases hk : k = target
      · simp [netOf, hst, hk]
      · simp [netOf, hst, hk, Ne.symm hk]
    · rw [if_neg hst]
      by_cases hk : k = target
      · simp [netOf, hk, hst]
      · by_cases hks : k = source
        · simp [netOf, hks, Ne.symm hst, hst]
          omega
        · simp [netOf, hk, hks, Ne.symm hk, Ne.symm hks]

/-- What a host function changes. -/
def callChanges (cfg : RuntimeConfig) (c : HostCall) (h : HostState) (db : DB) : List (Key × Int) :=
  match c with
  | .transfer recvPtr recvLen amtLo amtHi =>
    match transferTarget recvPtr recvLen amtLo amtHi h with
    | some r => moveChanges db cfg.selfAddr r (orWords amtLo amtHi)
    | none => []
  | _ => []

/-- What a guest changes, one host function after the other. -/
def Guest.changes (E : Env) (cfg : RuntimeConfig) : Guest ι → StateStore → Option Err → DB → List (Key × Int)
  | .done _ _, _, _, _ => []
  | .trap _ _, _, _, _ => []
  | .host c mem fuel k, state, hostErr, db =>
    callChanges cfg c ⟨mem, fuel, state, hostErr⟩ db ++
      match hostCall E cfg c ⟨mem, fuel, state, hostErr⟩ db with
      | (.ok (r, h), db') => (k r h.mem h.fuel).changes E cfg h.state h.hostErr db'
      | _ => []

theorem hostCall_changes (c : HostCall) (h : HostState) (db : DB) (k : Key) :
    readBalance (hostCall E cfg c h db).2 k = readBalance db k + netOf k (callChanges cfg c h db) := by
  cases hc : c.isTransfer with
  | false =>
    have hnil : callChanges cfg c h db = [] := by
      cases c with
      | transfer => cases hc
      | _ => rfl
    rw [hostCall_quiet hc, hnil]
    exact (Int.add_zero _).symm
  | true =>
    cases c with
    | transfer recvPtr recvLen amtLo amtHi =>
      show readBalance (hostTransfer cfg recvPtr recvLen amtLo amtHi h db).2 k = _
      unfold callChanges
      dsimp only
      cases ht : transferTarget recvPtr recvLen amtLo amtHi h with
      | none =>
        rcases hostTransfer_none cfg ht db with ⟨_, hrun⟩ | ⟨_, hrun⟩ <;> rw [hrun]
        · exact (Int.add_zero _).symm
        · exact (Int.add_zero _).symm
      | some r =>
        rw [(hostTransfer_some cfg ht db).2, bind_run]
        have hmove := moveTx_changes cfg.selfAddr r (orWords amtLo amtHi) db k
        unfold Act.succeeded
        cases hm : moveTx cfg.selfAddr r (orWords amtLo amtHi) db with
        | mk x d =>
          rw [hm] at hmove
          cases x with
          | ok _ => exact hmove
          | err _ => exact hmove
          | panic _ => exact hmove
    | _ => cases hc

theorem guest_changes (k : Key) : ∀ (g : Guest ι) (state : StateStore) (hostErr : Option Err) (db : DB),
    readBalance (g.run E cfg state hostErr db).2 k = readBalance db k + netOf k (g.changes E cfg state hostErr db) := by
  intro g
  induction g with
  | done | trap => exact fun _ _ db => (Int.add_zero _).symm
  | host c mem fuel next ih =>
    intro state hostErr db
    have hcall : readBalance (hostCall E cfg c ⟨mem, fuel, state, hostErr⟩ db).2 k = _ := hostCall_changes c _ db k
    rw [Guest.run, Guest.changes, bind_run, netOf_append]
    cases hrun : hostCall E cfg c ⟨mem, fuel, state, hostErr⟩ db with
    | mk x d =>
      rw [hrun] at hcall
      cases x with
      | ok y =>
        obtain ⟨r, h⟩ := y
        have hnext := ih r h.mem h.fuel h.state h.hostErr d
        dsimp only at hcall hnext ⊢
        omega
      | err _ =>
        dsimp only at hcall ⊢
        rw [hcall, show netOf k [] = 0 from rfl, Int.add_zero]
      | panic _ =>
        dsimp only at hcall ⊢
        rw [hcall, show netOf k [] = 0 from rfl, Int.add_zero]

/-- The records no guest writes to. -/
structure SameRecords (db db' : DB) : Prop where
  nonces : db'.nonces = db.nonces
  validators : db'.validators = db.validators
  bytecode : db'.contractBytecode = db.contractBytecode
  state : db'.contractState = db.contractState

instance sameRecords_refl : Std.Refl SameRecords := ⟨fun _ => ⟨rfl, rfl, rfl, rfl⟩⟩

instance sameRecords_trans : IsTrans DB SameRecords := ⟨fun _ _ _ h h' =>
  ⟨h'.nonces.trans h.nonces, h'.validators.trans h.validators, h'.bytecode.trans h.bytecode, h'.state.trans h.state⟩⟩

theorem records_hostClosed : HostClosed cfg (fun x => Steps SameRecords x) where
  pure := steps_pure
  bind := steps_bind
  stop := steps_stop
  read := steps_read
  readMem _ _ _ := steps_lift _
  move target amount := steps_succeeded fun db => by
    rcases moveTx_cases cfg.selfAddr target amount db with ⟨-, e, hm⟩ | ⟨-, -, -, e, hm⟩ | ⟨-, -, -, hm⟩ <;> rw [hm] <;>
      exact ⟨rfl, rfl, rfl, rfl⟩

/-! ## Instances -/

theorem newRuntime_ok {state : StateStore} {db db' : DB} {rt : Runtime E}
    (h : newRuntime E cfg state db = (.ok rt, db')) :
    ∃ module o, E.wasm.newModule cfg.wasmBytes = .ok module ∧
      (E.wasm.instantiate module (fuelCap cfg)).run E cfg state none db = (.ok o, db') ∧
      o.result = .ok (rt.inst, rt.initialFuel) ∧ rt.fuel = rt.initialFuel := by
  unfold newRuntime at h
  cases hmodule : E.wasm.newModule cfg.wasmBytes with
  | error msg =>
    rw [hmodule] at h
    exact absurd h fail_ok
  | ok module =>
    rw [hmodule] at h
    obtain ⟨_, d, hval, h⟩ := bind_ok.mp h
    obtain ⟨-, rfl⟩ := lift_ok.mp hval
    obtain ⟨o, d', hrun, h⟩ := bind_ok.mp h
    cases hres : o.result with
    | error x =>
      rw [hres] at h
      exact absurd h fail_ok
    | ok x =>
      rw [hres] at h
      obtain ⟨rfl, rfl⟩ := pure_ok.mp h
      exact ⟨module, o, rfl, hrun, hres, rfl⟩

theorem newRuntime_errs (state : StateStore) : Errs (fun e => e.isNotFound = false) (newRuntime E cfg state) := by
  unfold newRuntime
  split
  · exact errs_fail rfl
  · refine errs_bind (errs_lift fun e he => ?_) fun _ => errs_bind (errs_hostClosed.guest _ _ _) fun o => ?_
    · obtain ⟨⟨mod, name⟩, -, he⟩ := Go.forM_eq_err he
      dsimp only [Go.check] at he
      split at he
      · rw [Go.ok_bind] at he
        split at he
        · cases he
        · cases he
          rfl
      · cases he
        rfl
    · split
      · exact errs_fail rfl
      · exact errs_pure _

theorem runtimeCall_ok {rt rt' : Runtime E} {name : List UInt8} {db db' : DB}
    (h : rt.call E cfg name db = (.ok rt', db')) :
    ∃ run o u, E.wasm.getFunc rt.inst name = some run ∧ (run rt.fuel).run E cfg rt.state rt.hostErr db = (.ok o, db') ∧
      o.result = .ok (u, rt'.fuel) ∧ rt'.initialFuel = rt.initialFuel := by
  unfold Runtime.call at h
  cases hfunc : E.wasm.getFunc rt.inst name with
  | none =>
    rw [hfunc] at h
    exact absurd h fail_ok
  | some run =>
    rw [hfunc] at h
    obtain ⟨o, d, hrun, h⟩ := bind_ok.mp h
    cases hres : o.result with
    | error x =>
      rw [hres] at h
      obtain ⟨out, msg⟩ := x
      cases out with
      | true => exact absurd h fail_ok
      | false => exact absurd h fail_ok
    | ok x =>
      rw [hres] at h
      dsimp only at h
      cases hhost : o.hostErr with
      | some e =>
        rw [hhost] at h
        exact absurd h fail_ok
      | none =>
        rw [hhost] at h
        obtain ⟨rfl, rfl⟩ := pure_ok.mp h
        exact ⟨run, o, x.1, rfl, hrun, hres, rfl⟩

/-! ## What an instance changes -/

/-- What the start function of a contract changes when the contract is called. -/
def startChanges (E : Env) (cfg : RuntimeConfig) (db : DB) : List (Key × Int) :=
  match E.wasm.newModule cfg.wasmBytes with
  | .ok module => (E.wasm.instantiate module (fuelCap cfg)).changes E cfg (loadStateOf db cfg.selfAddr) none db
  | .error _ => []

/-- What an exported function changes. -/
def Runtime.changes (rt : Runtime E) (cfg : RuntimeConfig) (name : List UInt8) (db : DB) : List (Key × Int) :=
  match E.wasm.getFunc rt.inst name with
  | some run => (run rt.fuel).changes E cfg rt.state rt.hostErr db
  | none => []

theorem newRuntime_changes {db db' : DB} {rt : Runtime E}
    (h : newRuntime E cfg (loadStateOf db cfg.selfAddr) db = (.ok rt, db')) (k : Key) :
    readBalance db' k = readBalance db k + netOf k (startChanges E cfg db) := by
  obtain ⟨module, o, hmodule, hrun, -⟩ := newRuntime_ok h
  have hall :
      readBalance ((E.wasm.instantiate module (fuelCap cfg)).run E cfg (loadStateOf db cfg.selfAddr) none db).2 k = _ :=
    guest_changes k _ _ _ _
  rw [hrun] at hall
  unfold startChanges
  rw [hmodule]
  exact hall

theorem runtimeCall_changes {rt rt' : Runtime E} {name : List UInt8} {db db' : DB}
    (h : rt.call E cfg name db = (.ok rt', db')) (k : Key) :
    readBalance db' k = readBalance db k + netOf k (rt.changes cfg name db) := by
  obtain ⟨run, o, u, hfunc, hrun, -⟩ := runtimeCall_ok h
  have hall : readBalance ((run rt.fuel).run E cfg rt.state rt.hostErr db).2 k = _ := guest_changes k _ _ _ _
  rw [hrun] at hall
  unfold Runtime.changes
  rw [hfunc]
  exact hall

/-! ## Rejected calls -/

variable {t : Tx} {blockHeight gasLimit : UInt64} {db db' : DB}

theorem call_rejected {e : Err} (h : call E t blockHeight gasLimit db = (.err e, db')) (he : e.isNotFound = true) :
    ∃ wasmBytes rt, db.contractBytecode.get t.receiverPubKey = some wasmBytes ∧
      newRuntime E (callConfig t wasmBytes blockHeight gasLimit) (loadStateOf db t.receiverPubKey) db = (.ok rt, db') ∧
      E.wasm.getFunc rt.inst (selector t.callData).1 = none := by
  have hno := call_notFound h he
  unfold call at h
  rw [bind_run, Act.read] at h
  dsimp only at h
  cases hcode : db.contractBytecode.get t.receiverPubKey with
  | none =>
    rw [hcode] at h
    cases h
    cases he
  | some wasmBytes =>
    rw [hcode] at h
    dsimp only at h
    rw [bind_run, Act.read] at h
    dsimp only at h
    rw [bind_run] at h
    cases hrt : newRuntime E (callConfig t wasmBytes blockHeight gasLimit) (loadStateOf db t.receiverPubKey) db with
    | mk x d =>
      unfold callConfig at hrt
      rw [hrt] at h
      cases x with
      | ok rt =>
        cases hfunc : E.wasm.getFunc rt.inst (selector t.callData).1 with
        | some run => exact absurd ⟨wasmBytes, rt, d, hcode, hrt, by rw [hfunc]; rfl⟩ hno
        | none =>
          dsimp only at h
          rw [bind_run, Act.check, hfunc, Go.check_neg (by simp)] at h
          obtain ⟨-, rfl⟩ := Prod.mk.inj h
          exact ⟨wasmBytes, rt, rfl, hrt, hfunc⟩
      | err e' =>
        obtain ⟨he', -⟩ := Prod.mk.inj h
        obtain rfl := Go.err.inj he'
        rw [newRuntime_errs _ _ _ _ hrt] at he
        cases he
      | panic w => cases (Prod.mk.inj h).1

/-- A rejected call has changed what the start function changed. -/
theorem rejected_changes {wasmBytes : List UInt8} {e : Err}
    (hcode : db.contractBytecode.get t.receiverPubKey = some wasmBytes)
    (h : call E t blockHeight gasLimit db = (.err e, db')) (he : e.isNotFound = true) : SameRecords db db' ∧ ∀ k,
      readBalance db' k = readBalance db k +
        netOf k (startChanges E (callConfig t wasmBytes blockHeight gasLimit) db) := by
  obtain ⟨wasmBytes', rt, hcode', hrt, -⟩ := call_rejected h he
  obtain rfl := Option.some.inj (hcode.symm.trans hcode')
  obtain ⟨module, o, -, hrun, -⟩ := newRuntime_ok hrt
  have hsame : SameRecords db ((E.wasm.instantiate module (fuelCap (callConfig t wasmBytes blockHeight gasLimit))).run E
      (callConfig t wasmBytes blockHeight gasLimit) (loadStateOf db t.receiverPubKey) none db).2 :=
    records_hostClosed.guest _ _ _ db
  rw [hrun] at hsame
  exact ⟨hsame, newRuntime_changes hrt⟩

end Frg.Contract
