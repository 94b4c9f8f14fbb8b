/-
  Frg.Chain.Calls — what a block makes of the start functions of the contracts it runs.

  A deploy or a call is charged for the fuel between `initialFuel`, which `NewRuntime` reads
  behind the start function, and the end; a call that is rejected is charged for none. What
  the start function has moved by then stays moved.

    - `rejected_call_iff`: a call of an unknown selector changes the nonce of its sender alone
      exactly when the transfers of the start function cancel out.
    - `rejected_pays`: a rejected call pays ten out of the contract.
    - `gas_covers_iff`: the gas of a contract transaction covers the fuel of its execution
      exactly when the start function's fuel fits into the unit the rest has begun.
    - `start_unpaid`: five units of gas for a start function, one of them paid for.
-/

import Frg.Chain.Leaves
import Frg.Chain.Loops
import Frg.Contract.Start

namespace Frg.Chain

open Frg.Lib Frg.Core Frg.Wire Frg.Contract Frg.RG Act

variable {W : World} {E : Env} {ctx : BlockCtx} {t : Tx} {db db' : DB} {blockHeight gasLimit : UInt64}

/-! ## Start functions that do something -/

/-- The start function of the code `[1]` burns five units of gas. That of any other code
    transfers ten to account 2 as well. -/
def startFunc (code : List UInt8) (fuel : UInt64) : Guest (List UInt8) :=
  if fuel < 5000 then .trap true "all fuel consumed by WebAssembly"
  else if code = [1] then .done code (fuel - 5000)
  else .host (.transfer 0 32 10 0) (some (Word.bytes (2 : Key))) (fuel - 5000) fun _ _ fuel => .done code fuel

/-- Every code is a module with that start function, and exports `init`. -/
def startingWasm : Wasmtime where
  Module := List UInt8
  Instance := List UInt8
  newModule code := .ok code
  imports _ := []
  instantiate := startFunc
  getFunc _ name := if name = initName then some fun fuel => .done () fuel else none

def startingWorld : World := { World.sample with wasm := startingWasm }

/-- Account 1 deploys the code with twenty units, and calls what it does not export. -/
def launching (code : List UInt8) : Tx :=
  { Tx.plain .contractDeploy 1 0 20 1 with wasmBytes := code }.signed Prim.sample []

def launchedDB (code : List UInt8) : DB :=
  (applyBlockForChain startingWorld .id richestDB (Block.plain 1 [launching code]) []).2

def launchedAddr : Key := contractAddr startingWorld.toEnv 1 1

def unknownCall : Tx :=
  { Tx.plain .contractCall 1 launchedAddr 0 2 with callData := [0, 0, 0, 0] }.signed Prim.sample []

/-! ## Rejected calls -/

theorem applyTx_rejected {e : Err} (hty : t.type = .contractCall) (hn : t.nonce = nextNonce db t.senderPubKey)
    (hgas : contractGasLimit t.senderPubKey ctx.baseFee (db.advanced t.senderPubKey t.nonce) =
      (.ok gasLimit, db.advanced t.senderPubKey t.nonce))
    (hcall : call W.toEnv t ctx.height gasLimit (db.advanced t.senderPubKey t.nonce) = (.err e, db'))
    (he : e.isNotFound = true) : applyTx W ctx t db = (.ok {}, db') := by
  unfold applyTx
  simp only [hty, unlessFault_advance]
  rw [if_pos hn, bind_run, hgas]
  dsimp only
  unfold orNotFound
  rw [bind_run, hcall]
  exact if_pos he

/-- A call whose contract does not export what it selects. -/
theorem rejected_call_iff {e : Err} {wasmBytes : List UInt8} (hty : t.type = .contractCall)
    (hn : t.nonce = nextNonce db t.senderPubKey) (hcode : db.contractBytecode.get t.receiverPubKey = some wasmBytes)
    (hgas : contractGasLimit t.senderPubKey ctx.baseFee (db.advanced t.senderPubKey t.nonce) =
      (.ok gasLimit, db.advanced t.senderPubKey t.nonce))
    (hcall : call W.toEnv t ctx.height gasLimit (db.advanced t.senderPubKey t.nonce) = (.err e, db'))
    (he : e.isNotFound = true) :
    applyTx W ctx t db = (.ok {}, db') ∧ db'.nonces = db.nonces.put t.senderPubKey t.nonce ∧
    (((∀ k, readBalance db' k = readBalance db k) ∧ db'.contractState = db.contractState ∧
        db'.contractBytecode = db.contractBytecode ∧ db'.validators = db.validators) ↔
      ∀ k, netOf k (startChanges W.toEnv (callConfig t wasmBytes ctx.height gasLimit)
        (db.advanced t.senderPubKey t.nonce)) = 0) := by
  have hcode' : (db.advanced t.senderPubKey t.nonce).contractBytecode.get t.receiverPubKey = some wasmBytes := hcode
  obtain ⟨hsame, hchange⟩ := rejected_changes hcode' hcall he
  have hadvanced : ∀ k, readBalance (db.advanced t.senderPubKey t.nonce) k = readBalance db k := fun _ => rfl
  refine ⟨applyTx_rejected hty hn hgas hcall he, hsame.nonces, ?_⟩
  constructor
  · rintro ⟨hbal, -⟩ k
    have h1 := hchange k
    rw [hbal k, hadvanced k] at h1
    omega
  · intro hnet
    refine ⟨fun k => ?_, hsame.state, hsame.bytecode, hsame.validators⟩
    rw [hchange k, hnet k, hadvanced k, Int.add_zero]

/-- The result of a call that is rejected. -/
def rejects {α : Type} : Res α → Bool
  | .err e => e.isNotFound
  | _ => false

theorem rejects_eq {α : Type} {p : Res α × DB} (h : rejects p.1 = true) :
    ∃ e, p = (.err e, p.2) ∧ e.isNotFound = true := by
  obtain ⟨x, d⟩ := p
  cases x with
  | err e => exact ⟨e, rfl, h⟩
  | ok a => cases h
  | panic w => cases h

/-- A contract at account 7 whose start function moves nothing, and a call of what it does not
    export. -/
def idleDB : DB := { richestDB with contractBytecode := richestDB.contractBytecode.put 7 [1] }

def idleCall : Tx := { Tx.plain .contractCall 1 7 0 1 with callData := [0, 0, 0, 0] }

def idleCtx : BlockCtx := ctxOf idleDB (Block.plain 1 [idleCall]) []

theorem rejected_call_idle : ∃ d, applyTx startingWorld idleCtx idleCall idleDB = (.ok {}, d) ∧
    (∀ k, readBalance d k = readBalance idleDB k) ∧ d.contractState = idleDB.contractState := by
  obtain ⟨e, hcall, he⟩ := rejects_eq
    (p := call startingWorld.toEnv idleCall idleCtx.height maxUint64
      (idleDB.advanced idleCall.senderPubKey idleCall.nonce))
    (by decide +kernel)
  have hgas :
      contractGasLimit idleCall.senderPubKey idleCtx.baseFee (idleDB.advanced idleCall.senderPubKey idleCall.nonce) =
      (.ok maxUint64, idleDB.advanced idleCall.senderPubKey idleCall.nonce) :=
    Prod.ext (by decide +kernel) ((contractGasLimit_steps (R := Eq) _ _) _).symm
  have hstart : startChanges startingWorld.toEnv (callConfig idleCall [1] idleCtx.height maxUint64)
      (idleDB.advanced idleCall.senderPubKey idleCall.nonce) = [] := by decide +kernel
  have hcode : idleDB.contractBytecode.get idleCall.receiverPubKey = some [1] := by decide +kernel
  obtain ⟨hrun, -, hiff⟩ := rejected_call_iff rfl (by decide +kernel) hcode hgas hcall he
  obtain ⟨hbal, hstate, -⟩ := hiff.mpr fun k => by
    rw [hstart]
    rfl
  exact ⟨_, hrun, hbal, hstate⟩

/-- A rejected call of a contract with ten units pays them to account 2. -/
theorem rejected_pays :
    ∃ e d, call startingWorld.toEnv unknownCall 2 maxUint64 ((launchedDB [2]).advanced 1 2) = (.err e, d) ∧
    e.isNotFound = true ∧
    readBalance (launchedDB [2]) launchedAddr = 10 ∧ readBalance (launchedDB [2]) 2 = 10 ∧
    readBalance d launchedAddr = 0 ∧ readBalance d 2 = 20 ∧
    (applyBlockForChain startingWorld .id (launchedDB [2]) (Block.plain 2 [unknownCall]) []).1.isOk = true ∧
    readBalance (applyBlockForChain startingWorld .id (launchedDB [2]) (Block.plain 2 [unknownCall]) []).2 2 = 20 := by
  obtain ⟨e, hcall, he⟩ := rejects_eq
    (p := call startingWorld.toEnv unknownCall 2 maxUint64 ((launchedDB [2]).advanced 1 2)) (by decide +kernel)
  refine ⟨e, _, hcall, he, ?_⟩
  decide +kernel

/-! ## Fuel -/

/-- The fuel of an execution: what was set, what the set-up left of it, and what was left in
    the end. -/
structure Meter where
  cap : UInt64
  started : UInt64
  left : UInt64
  deriving DecidableEq, Repr

def Meter.consumed (m : Meter) : Nat := m.cap.toNat - m.left.toNat

/-- The fuel `FuelConsumed` is left to report. -/
def Meter.reported (m : Meter) : Nat := m.started.toNat - m.left.toNat

/-- The fuel of the set-up fits into the unit the reported fuel has begun. -/
def Meter.Covered (m : Meter) : Prop :=
  m.cap.toNat - m.started.toNat + m.reported % fuelUnitsPerGas.toNat < fuelUnitsPerGas.toNat

/-- Fuel only ever falls. -/
def Meter.Falls (m : Meter) : Prop := m.left ≤ m.started ∧ m.started ≤ m.cap

theorem Meter.covered_iff {m : Meter} (hm : m.Falls) :
    m.consumed / fuelUnitsPerGas.toNat ≤ m.reported / fuelUnitsPerGas.toNat ↔ m.Covered := by
  obtain ⟨h1, h2⟩ := hm
  rw [UInt64.le_iff_toNat_le] at h1 h2
  have hunit : fuelUnitsPerGas.toNat = 1000 := rfl
  unfold Covered consumed reported
  rw [hunit]
  omega

/-- The runtime a deploy sets up. -/
def deployConfig (E : Env) (t : Tx) (blockHeight gasLimit : UInt64) : RuntimeConfig :=
  { wasmBytes := t.wasmBytes, caller := t.senderPubKey, selfAddr := contractAddr E t.senderPubKey t.nonce, blockHeight
    callData := [], gasLimit }

/-- The execution in a deploy, with its fuel read off. -/
def deployMeter (E : Env) (t : Tx) (blockHeight gasLimit : UInt64) : M Meter := do
  let cfg := deployConfig E t blockHeight gasLimit
  fund t cfg.selfAddr "endow contract"
  let state ← Act.read fun db => loadStateOf db cfg.selfAddr
  let rt ← newRuntime E cfg state
  let rt' ← rt.call E cfg initName
  return ⟨fuelCap cfg, rt.initialFuel, rt'.fuel⟩

/-- The execution in a call, which ends with the set-up when the function is not there. -/
def callMeter (E : Env) (t : Tx) (blockHeight gasLimit : UInt64) : M Meter := do
  match ← Act.read fun db => db.contractBytecode.get t.receiverPubKey with
  | none => Act.fail (.plain s!"contract {t.receiverPubKey.hex} not found")
  | some wasmBytes => do
    let cfg := callConfig t wasmBytes blockHeight gasLimit
    let state ← Act.read fun db => loadStateOf db cfg.selfAddr
    let rt ← newRuntime E cfg state
    if (E.wasm.getFunc rt.inst (selector t.callData).1).isSome then do
      fund t cfg.selfAddr "fund contract call"
      let rt' ← rt.call E cfg (selector t.callData).1
      return ⟨fuelCap cfg, rt.initialFuel, rt'.fuel⟩
    else return ⟨fuelCap cfg, rt.initialFuel, rt.fuel⟩

/-- The fuel of a contract transaction in the loop. A transaction that is skipped has none. -/
def fuelOf (W : World) (ctx : BlockCtx) (t : Tx) : M Meter := fun db =>
  if t.nonce = nextNonce db t.senderPubKey then
    (do let gasLimit ← contractGasLimit t.senderPubKey ctx.baseFee
        if t.type = .contractDeploy then deployMeter W.toEnv t ctx.height gasLimit
        else callMeter W.toEnv t ctx.height gasLimit : M Meter) (db.advanced t.senderPubKey t.nonce)
  else (.ok ⟨0, 0, 0⟩, db)

section

variable {cfg : RuntimeConfig} {state : StateStore} {rt rt' : Runtime E}

theorem newRuntime_fuel (hw : CountsFuel E.wasm) (h : newRuntime E cfg state db = (.ok rt, db')) :
    rt.initialFuel ≤ fuelCap cfg ∧ rt.fuel = rt.initialFuel := by
  obtain ⟨module, o, -, hrun, hres, hfuel⟩ := newRuntime_ok h
  exact ⟨guest_fuel (hw.start module _) hrun hres, hfuel⟩

theorem runtimeCall_fuel {name : List UInt8} (hw : CountsFuel E.wasm) (h : rt.call E cfg name db = (.ok rt', db')) :
    rt'.fuel ≤ rt.fuel ∧ rt'.initialFuel = rt.initialFuel := by
  obtain ⟨run, o, u, hfunc, hrun, hres, hinit⟩ := runtimeCall_ok h
  exact ⟨guest_fuel (hw.func _ _ _ hfunc _) hrun hres, hinit⟩

theorem fuelConsumed_toNat (h : rt.fuel ≤ rt.initialFuel) :
    rt.fuelConsumed.toNat = rt.initialFuel.toNat - rt.fuel.toNat := by
  unfold Runtime.fuelConsumed
  rw [UInt64.le_iff_toNat_le] at h
  split
  · exact UInt64.toNat_sub_of_le _ _ (UInt64.le_iff_toNat_le.mpr h)
  · rename_i hno
    rw [UInt64.lt_iff_toNat_lt] at hno
    show 0 = _
    omega

theorem meter_falls {db₁ db₂ : DB} {name : List UInt8} (hw : CountsFuel E.wasm)
    (hrt : newRuntime E cfg state db = (.ok rt, db₁)) (hcall : rt.call E cfg name db₂ = (.ok rt', db')) :
    (Meter.mk (fuelCap cfg) rt.initialFuel rt'.fuel).Falls ∧
      rt'.fuelConsumed.toNat = (Meter.mk (fuelCap cfg) rt.initialFuel rt'.fuel).reported := by
  obtain ⟨hcap, hfuel⟩ := newRuntime_fuel hw hrt
  obtain ⟨hleft, hinit⟩ := runtimeCall_fuel hw hcall
  rw [hfuel] at hleft
  refine ⟨⟨hleft, hcap⟩, ?_⟩
  rw [fuelConsumed_toNat (by rw [hinit]; exact hleft), hinit]
  rfl

end

/-! ### One transaction -/

theorem deploy_ok {r : Hash × UInt64} (h : deploy E t blockHeight gasLimit db = (.ok r, db')) :
    ∃ d₁ rt d₂ rt' d₃, db.contractBytecode.get (contractAddr E t.senderPubKey t.nonce) = none ∧
      fund t (contractAddr E t.senderPubKey t.nonce) "endow contract" db = (.ok (), d₁) ∧
      newRuntime E (deployConfig E t blockHeight gasLimit) (loadStateOf d₁ (contractAddr E t.senderPubKey t.nonce)) d₁ =
        (.ok rt, d₂) ∧
      rt.call E (deployConfig E t blockHeight gasLimit) initName d₂ = (.ok rt', d₃) ∧
      db'.balances = d₃.balances ∧
      db'.contractBytecode = d₃.contractBytecode.put (contractAddr E t.senderPubKey t.nonce) t.wasmBytes ∧
      r.2 = rt'.fuelConsumed := by
  unfold deploy at h
  obtain ⟨_, d, hc, h⟩ := bind_ok.mp h
  obtain ⟨-, rfl⟩ := check_ok.mp hc
  obtain ⟨_, d, hread, h⟩ := bind_ok.mp h
  obtain ⟨rfl, rfl⟩ := read_ok.mp hread
  obtain ⟨_, d, hc, h⟩ := bind_ok.mp h
  obtain ⟨hnone, rfl⟩ := check_ok.mp hc
  obtain ⟨_, d₁, hfund, h⟩ := bind_ok.mp h
  obtain ⟨state, d, hread, h⟩ := bind_ok.mp h
  obtain ⟨rfl, rfl⟩ := read_ok.mp hread
  obtain ⟨rt, d₂, hrt, h⟩ := bind_ok.mp h
  obtain ⟨rt', d₃, hcall, h⟩ := bind_ok.mp h
  obtain ⟨_, d, hstore, h⟩ := bind_ok.mp h
  obtain rfl := write_ok.mp hstore
  obtain ⟨_, d, hsave, h⟩ := bind_ok.mp h
  obtain rfl := write_ok.mp hsave
  obtain ⟨rfl, rfl⟩ := pure_ok.mp h
  exact ⟨d₁, rt, d₂, rt', d₃, hnone, hfund, hrt, hcall, rfl, rfl, rfl⟩

theorem deploy_meter {r : Hash × UInt64} (hw : CountsFuel E.wasm)
    (h : deploy E t blockHeight gasLimit db = (.ok r, db')) :
    ∃ m d, deployMeter E t blockHeight gasLimit db = (.ok m, d) ∧ m.Falls ∧ r.2.toNat = m.reported := by
  obtain ⟨d₁, rt, d₂, rt', d₃, -, hfund, hrt, hcall, -, -, hr⟩ := deploy_ok h
  obtain ⟨hfalls, hused⟩ := meter_falls hw hrt hcall
  refine ⟨_, d₃, ?_, hfalls, by rw [hr]; exact hused⟩
  refine bind_ok.mpr ⟨_, d₁, hfund, bind_ok.mpr ⟨_, d₁, read_ok.mpr ⟨rfl, rfl⟩, ?_⟩⟩
  exact bind_ok.mpr ⟨rt, d₂, hrt, bind_ok.mpr ⟨rt', d₃, hcall, rfl⟩⟩

theorem call_meter {r : Hash × UInt64} (hw : CountsFuel E.wasm) (h : call E t blockHeight gasLimit db = (.ok r, db')) :
    ∃ m d, callMeter E t blockHeight gasLimit db = (.ok m, d) ∧ m.Falls ∧ r.2.toNat = m.reported := by
  obtain ⟨wasmBytes, rt, d₁, d₂, rt', d₃, hcode, hrt, hfunc, hfund, hcall, -, rfl⟩ := call_ok h
  obtain ⟨hfalls, hused⟩ := meter_falls hw hrt hcall
  refine ⟨_, d₃, ?_, hfalls, hused⟩
  refine bind_ok.mpr ⟨_, db, read_ok.mpr ⟨hcode, rfl⟩, bind_ok.mpr ⟨_, db, read_ok.mpr ⟨rfl, rfl⟩, ?_⟩⟩
  refine bind_ok.mpr ⟨rt, d₁, hrt, ?_⟩
  rw [if_pos hfunc]
  exact bind_ok.mpr ⟨_, d₂, hfund, bind_ok.mpr ⟨rt', d₃, hcall, rfl⟩⟩

theorem rejected_meter {e : Err} (hw : CountsFuel E.wasm) (h : call E t blockHeight gasLimit db = (.err e, db'))
    (he : e.isNotFound = true) :
    ∃ m d, callMeter E t blockHeight gasLimit db = (.ok m, d) ∧ m.Falls ∧ 0 = m.reported := by
  obtain ⟨wasmBytes, rt, hcode, hrt, hfunc⟩ := call_rejected h he
  obtain ⟨hcap, hfuel⟩ := newRuntime_fuel hw hrt
  refine ⟨⟨fuelCap (callConfig t wasmBytes blockHeight gasLimit), rt.initialFuel, rt.fuel⟩, db', ?_, ?_, ?_⟩
  · refine bind_ok.mpr ⟨_, db, read_ok.mpr ⟨hcode, rfl⟩, bind_ok.mpr ⟨_, db, read_ok.mpr ⟨rfl, rfl⟩, ?_⟩⟩
    refine bind_ok.mpr ⟨rt, db', hrt, ?_⟩
    rw [if_neg (by rw [hfunc]; exact Bool.false_ne_true)]
    rfl
  · exact ⟨by rw [hfuel]; exact UInt64.le_refl _, hcap⟩
  · show 0 = rt.initialFuel.toNat - rt.fuel.toNat
    rw [hfuel, Nat.sub_self]

theorem gasUnits_toNat (fuel : UInt64) (touched : Option Key) (slashed : Nat) :
    (gasUnits { touched, fuel := some fuel, slashed }).toNat = 1 + fuel.toNat / fuelUnitsPerGas.toNat := by
  have hlt : fuel.toNat < 2 ^ 64 := fuel.toNat_lt
  have hunit : fuelUnitsPerGas.toNat = 1000 := rfl
  show (1 + fuel / fuelUnitsPerGas).toNat = _
  rw [UInt64.toNat_add, UInt64.toNat_div, hunit, show (1 : UInt64).toNat = 1 from rfl]
  omega

/-- The gas of a contract transaction is that of the fuel it reports. -/
theorem applyTx_meter {o : TxOut} (hw : CountsFuel W.wasm) (hty : t.type = .contractDeploy ∨ t.type = .contractCall)
    (h : applyTx W ctx t db = (.ok o, db')) :
    ∃ m d, fuelOf W ctx t db = (.ok m, d) ∧ m.Falls ∧ (gasUnits o).toNat = 1 + m.reported / fuelUnitsPerGas.toNat := by
  unfold fuelOf
  by_cases hn : t.nonce = nextNonce db t.senderPubKey
  · rw [if_pos hn]
    unfold applyTx at h
    rcases hty with hty | hty <;> simp only [hty, unlessFault_advance] at h <;> rw [if_pos hn] at h <;>
      obtain ⟨gasLimit, d, hgas, h⟩ := bind_ok.mp h
    · obtain ⟨⟨root, used⟩, d', hdeploy, h⟩ := bind_ok.mp h
      obtain ⟨rfl, -⟩ := pure_ok.mp h
      obtain ⟨m, d'', hm, hfalls, hused⟩ := deploy_meter hw hdeploy
      refine ⟨m, d'', bind_ok.mpr ⟨gasLimit, d, hgas, ?_⟩, hfalls, ?_⟩
      · rw [if_pos hty]
        exact hm
      · rw [gasUnits_toNat, hused]
    · have hno : ¬ t.type = .contractDeploy := by
        rw [hty]
        exact TxType.noConfusion
      rcases orNotFound_ok h with h | ⟨e, herr, he, rfl⟩
      · obtain ⟨⟨root, used⟩, d', hcall, h⟩ := bind_ok.mp h
        obtain ⟨rfl, -⟩ := pure_ok.mp h
        obtain ⟨m, d'', hm, hfalls, hused⟩ := call_meter hw hcall
        refine ⟨m, d'', bind_ok.mpr ⟨gasLimit, d, hgas, ?_⟩, hfalls, ?_⟩
        · rw [if_neg hno]
          exact hm
        · rw [gasUnits_toNat, hused]
      · obtain ⟨m, d'', hm, hfalls, hused⟩ := rejected_meter hw (bind_pure_err herr) he
        refine ⟨m, d'', bind_ok.mpr ⟨gasLimit, d, hgas, ?_⟩, hfalls, ?_⟩
        · rw [if_neg hno]
          exact hm
        · rw [← hused]
          rfl
  · rw [if_neg hn]
    have hskip : applyTx W ctx t db = (.ok {}, db) := by
      unfold applyTx
      rcases hty with hty | hty <;> simp only [hty, unlessFault_advance] <;> rw [if_neg hn]
    obtain rfl := Go.ok.inj (Prod.mk.inj (hskip.symm.trans h)).1
    exact ⟨_, db, rfl, ⟨UInt64.le_refl _, UInt64.le_refl _⟩, rfl⟩

/-! ### Blocks -/

variable {order : MapOrder} {pre post : DB} {b : Block} {chainID : List UInt8} {r : Result} {before behind : List Tx}

/-- The round of the transaction `t` behind `before`, and its round of the gas loop. -/
structure Charge (W : World) (pre : DB) (b : Block) (chainID : List UInt8) (before : List Tx) (t : Tx) where
  outs : List TxOut
  out : TxOut
  all : List TxOut
  atTx : DB
  afterTx : DB
  afterTxs : DB
  gas : UInt64
  gas' : UInt64
  atGas : DB
  afterGas : DB
  ranBefore : txLoop W (ctxOf pre b chainID) before pre = (.ok outs, atTx)
  ran : applyTx W (ctxOf pre b chainID) t atTx = (.ok out, afterTx)
  ranTxs : txLoop W (ctxOf pre b chainID) b.txs pre = (.ok all, afterTxs)
  chargedBefore : (before.zip outs).foldlM (chargeGas (currentBaseFee pre)) 0 afterTxs = (.ok gas, atGas)
  charged : chargeGas (currentBaseFee pre) gas (t, out) atGas = (.ok gas', afterGas)

theorem charge_of_accepted (happ : applyBlockForChain W order pre b chainID = (.ok r, post))
    (hb : b.txs = before ++ t :: behind) : Nonempty (Charge W pre b chainID before t) := by
  obtain ⟨s, -, -⟩ := applyBlockForChain_stages happ
  have hran : (before ++ t :: behind).mapM (applyTx W (ctxOf pre b chainID)) pre = (.ok s.outs, s.afterTxs) :=
    hb ▸ s.ranTxs
  obtain ⟨outs, atTx, rest, hbefore, hrest, houts⟩ := mapM_append_ok.mp hran
  obtain ⟨out, afterTx, outs', hrun, -, rfl⟩ := mapM_cons_ok.mp hrest
  have hgas := s.ranGas
  rw [hb, houts, List.zip_append (mapM_length hbefore).symm, List.foldlM_append] at hgas
  obtain ⟨gas, atGas, hgas, hgas'⟩ := bind_ok.mp hgas
  obtain ⟨gas', afterGas, hcharge, -⟩ := foldlM_cons_ok.mp hgas'
  exact ⟨⟨outs, out, s.outs, atTx, afterTx, s.afterTxs, gas, gas', atGas, afterGas, hbefore, hrun, s.ranTxs,
    hgas, hcharge⟩⟩

/-- What the sender of a transaction has less behind its round of the gas loop. -/
def Charge.burned (x : Charge W pre b chainID before t) : Int :=
  readBalance x.atGas t.senderPubKey - readBalance x.afterGas t.senderPubKey

theorem Charge.burned_eq (x : Charge W pre b chainID before t) :
    x.burned = (currentBaseFee pre).val * (gasUnits x.out).toNat := by
  have hloop : [(t, x.out)].foldlM (chargeGas (currentBaseFee pre)) x.gas x.atGas = (.ok x.gas', x.afterGas) :=
    foldlM_cons_ok.mpr ⟨x.gas', x.afterGas, x.charged, rfl⟩
  have hbal := (gasLoop_ok _ hloop).1 t.senderPubKey
  have hunits : gasOf t.senderPubKey [(t, x.out)] = (gasUnits x.out).toNat := by simp [gasOf]
  unfold burned
  rw [hbal, hunits]
  omega

/-- The gas of a contract transaction of an accepted block covers the fuel it consumed. -/
theorem gas_covers_iff (hw : CountsFuel W.wasm) (happ : applyBlockForChain W order pre b chainID = (.ok r, post))
    (hb : b.txs = before ++ t :: behind) (hty : t.type = .contractDeploy ∨ t.type = .contractCall) :
    Nonempty (Charge W pre b chainID before t) ∧ ∀ x : Charge W pre b chainID before t,
      ∃ m d, fuelOf W (ctxOf pre b chainID) t x.atTx = (.ok m, d) ∧
        ((currentBaseFee pre).val * (1 + m.consumed / fuelUnitsPerGas.toNat : Nat) ≤ x.burned ↔ m.Covered) := by
  refine ⟨charge_of_accepted happ hb, fun x => ?_⟩
  obtain ⟨m, d, hm, hfalls, hunits⟩ := applyTx_meter hw hty x.ran
  refine ⟨m, d, hm, ?_⟩
  have hfee : (0 : Int) < (currentBaseFee pre).val := by
    have hpos := (currentBaseFee pre).pos
    omega
  rw [x.burned_eq, hunits, ← Meter.covered_iff hfalls, mul_le_mul_iff_right₀ hfee, Int.ofNat_le]
  omega

theorem sub_le_of_not_lt {n fuel : UInt64} (h : ¬ fuel < n) : fuel - n ≤ fuel := by
  rw [UInt64.le_iff_toNat_le, UInt64.toNat_sub_of_le _ _ (UInt64.not_lt.mp h)]
  exact Nat.sub_le _ _

/-- A function that burns two and a half units of gas. -/
def burnFunc (fuel : UInt64) : Guest Unit :=
  if fuel < 2500 then .trap true "all fuel consumed by WebAssembly" else .done () (fuel - 2500)

/-- Every code is a module that exports this function under every name. -/
def meteredWasm : Wasmtime := { sampleWasm with getFunc := fun _ _ => some burnFunc }

def meteredWorld : World := { World.sample with wasm := meteredWasm }

theorem countsFuel_metered : CountsFuel meteredWasm where
  start _ fuel := UInt64.le_refl fuel
  func _ _ run hrun fuel := by
    obtain rfl : burnFunc = run := Option.some.inj hrun
    unfold burnFunc
    by_cases hfuel : fuel < 2500
    · rw [if_pos hfuel]
      exact trivial
    · rw [if_neg hfuel]
      exact sub_le_of_not_lt hfuel

/-- A deploy whose `init` burns fuel: three units of gas are burnt for it. -/
theorem gas_covers_launching :
    ∃ x : Charge meteredWorld richestDB (Block.plain 1 [launching [1]]) [] [] (launching [1]),
    ∃ m d, fuelOf meteredWorld (ctxOf richestDB (Block.plain 1 [launching [1]]) []) (launching [1]) x.atTx =
      (.ok m, d) ∧
      m.consumed = 2500 ∧ (currentBaseFee richestDB).val * (1 + m.consumed / fuelUnitsPerGas.toNat : Nat) ≤
        x.burned := by
  obtain ⟨r, happ⟩ := Go.run_eq
    (p := applyBlockForChain meteredWorld .id richestDB (Block.plain 1 [launching [1]]) []) (by decide +kernel)
  obtain ⟨⟨x⟩, hall⟩ := gas_covers_iff countsFuel_metered happ
    (show (Block.plain 1 [launching [1]]).txs = [] ++ launching [1] :: [] from rfl) (by decide +kernel)
  obtain ⟨m, d, hm, hiff⟩ := hall x
  obtain ⟨-, hat⟩ := mapM_nil_ok.mp x.ranBefore
  have hfuel : (fuelOf meteredWorld (ctxOf richestDB (Block.plain 1 [launching [1]]) []) (launching [1]) x.atTx).1 =
      .ok ⟨maxUint64, maxUint64, maxUint64 - 2500⟩ := by
    rw [hat]
    decide +kernel
  rw [hm] at hfuel
  obtain rfl := Go.ok.inj hfuel
  exact ⟨x, _, d, hm, by decide, hiff.mpr (by unfold Meter.Covered; decide)⟩

theorem startFunc_burns (code : List UInt8) (fuel : UInt64) : (startFunc code fuel).Burns fuel := by
  unfold startFunc
  by_cases hfuel : fuel < 5000
  · rw [if_pos hfuel]
    exact trivial
  · have hle : fuel - 5000 ≤ fuel := sub_le_of_not_lt hfuel
    rw [if_neg hfuel]
    by_cases hcode : code = [1]
    · rw [if_pos hcode]
      exact hle
    · rw [if_neg hcode]
      exact ⟨hle, fun _ _ _ _ => UInt64.le_refl _⟩

theorem countsFuel_starting : CountsFuel startingWasm where
  start := startFunc_burns
  func _ name run hrun fuel := by
    have hrun : (if name = initName then some fun fuel => Guest.done () fuel else none) = some run := hrun
    split at hrun
    · obtain rfl := Option.some.inj hrun
      exact UInt64.le_refl fuel
    · cases hrun

/-- Five units of gas burnt by the start function, in a deploy and in a rejected call; one is
    paid for. -/
theorem start_unpaid : CountsFuel startingWorld.wasm ∧
    (applyBlockForChain startingWorld .id richestDB (Block.plain 1 [launching [1]]) []).1.isOk = true ∧
    (fuelOf startingWorld (ctxOf richestDB (Block.plain 1 [launching [1]]) []) (launching [1]) richestDB).1 =
      .ok ⟨maxUint64, maxUint64 - 5000, maxUint64 - 5000⟩ ∧
    (currentBaseFee richestDB).val = 1 ∧ readBalance richestDB 1 - readBalance (launchedDB [1]) 1 = 20 + 1 ∧
    (applyBlockForChain startingWorld .id (launchedDB [1]) (Block.plain 2 [unknownCall]) []).1.isOk = true ∧
    (fuelOf startingWorld (ctxOf (launchedDB [1]) (Block.plain 2 [unknownCall]) []) unknownCall (launchedDB [1])).1 =
      .ok ⟨maxUint64, maxUint64 - 5000, maxUint64 - 5000⟩ ∧
    (currentBaseFee (launchedDB [1])).val = 1 ∧
    readBalance (launchedDB [1]) 1 -
      readBalance (applyBlockForChain startingWorld .id (launchedDB [1]) (Block.plain 2 [unknownCall]) []).2 1 = 1 := by
  refine ⟨countsFuel_starting, ?_⟩
  decide +kernel

end Frg.Chain
