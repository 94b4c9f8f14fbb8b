/-
  Frg.Chain.GasLimit — what the gas limit of a contract transaction leaves for the fee.

  `contractGasLimit` divides the balance the sender has before the execution by the base fee,
  and keeps one unit back for the transaction itself. So the fuel a contract can report never
  costs more than that balance. But the value of the transaction is taken from the same
  balance while the contract runs, and the gas loop charges what is left.

    - `gasLimit_affordable`, `meter_affordable`: the limit and one unit more are covered by the
      balance, and the gas of whatever runs within the limit is too.
    - `fee_paid_iff`: the fee of an executed transaction is paid exactly when the balance
      before it covers the value and the fee together, and always when it sends no value.
    - `value_takes_fee`: a deploy that sends everything, and a block that fails for it.
-/

import Frg.Chain.Calls

namespace Frg.Chain

open Frg.Lib Frg.Core Frg.Wire Frg.Contract Frg.RG Act

variable {W : World} {E : Env} {ctx : BlockCtx} {t : Tx} {db db' : DB} {blockHeight gasLimit : UInt64}

/-! ## The limit -/

theorem gasLimit_affordable {sender : Key} {fee : Fee} (h : contractGasLimit sender fee db = (.ok gasLimit, db')) :
    0 < gasLimit.toNat ∧ fee.val * (1 + gasLimit.toNat : Nat) ≤ readBalance db sender := by
  have hfee : (0 : Int) < fee.val := by
    have hpos := fee.pos
    omega
  unfold contractGasLimit at h
  rw [if_neg (by omega)] at h
  obtain ⟨bal, d, hread, h⟩ := bind_ok.mp h
  obtain ⟨rfl, rfl⟩ := read_ok.mp hread
  obtain ⟨_, d, hcheck, h⟩ := bind_ok.mp h
  obtain ⟨hone, rfl⟩ := check_ok.mp hcheck
  obtain ⟨hlimit, -⟩ := pure_ok.mp h
  -- the limit is one below the quotient, or below what a word holds
  have hbound : 0 < gasLimit.toNat ∧ ((1 + gasLimit.toNat : Nat) : Int) ≤ readBalance db sender / fee.val := by
    by_cases hbig : 2 ^ 64 ≤ readBalance db sender / fee.val
    · rw [if_pos hbig] at hlimit
      rw [← hlimit, show maxUint64.toNat = 2 ^ 64 - 1 from rfl]
      omega
    · rw [if_neg hbig] at hlimit
      have hword : (UInt64.ofNat (readBalance db sender / fee.val).toNat).toNat =
          (readBalance db sender / fee.val).toNat :=
        UInt64.toNat_ofNat_of_lt' (by show _ < 2 ^ 64; omega)
      rw [← hlimit, UInt64.toNat_sub_of_le _ _ (by rw [UInt64.le_iff_toNat_le, hword]; show 1 ≤ _; omega), hword,
        show (1 : UInt64).toNat = 1 from rfl]
      omega
  refine ⟨hbound.1, ?_⟩
  calc fee.val * ((1 + gasLimit.toNat : Nat) : Int)
      ≤ fee.val * (readBalance db sender / fee.val) := Int.mul_le_mul_of_nonneg_left hbound.2 (by omega)
    _ ≤ readBalance db sender := Int.mul_ediv_self_le (by omega)

theorem fuelCap_le {cfg : RuntimeConfig} (h : 0 < cfg.gasLimit.toNat) :
    (fuelCap cfg).toNat ≤ cfg.gasLimit.toNat * fuelUnitsPerGas.toNat := by
  have hunit : fuelUnitsPerGas.toNat = 1000 := rfl
  have hmax : (maxUint64 / fuelUnitsPerGas).toNat = 18446744073709551 := rfl
  have hzero : (0 : UInt64).toNat = 0 := rfl
  have hne : cfg.gasLimit ≠ 0 := by
    intro hz
    rw [hz, hzero] at h
    omega
  unfold fuelCap
  dsimp only
  rw [if_pos hne, hunit]
  by_cases hbig : maxUint64 / fuelUnitsPerGas < cfg.gasLimit
  · have hlt := UInt64.lt_iff_toNat_lt.mp hbig
    rw [if_pos hbig, if_neg (by decide), show maxUint64.toNat = 18446744073709551615 from rfl]
    omega
  · have hle := UInt64.le_iff_toNat_le.mp (UInt64.not_lt.mp hbig)
    have hmul : (cfg.gasLimit * fuelUnitsPerGas).toNat = cfg.gasLimit.toNat * 1000 := by
      rw [UInt64.toNat_mul, hunit, Nat.mod_eq_of_lt (by omega)]
    have hpos : cfg.gasLimit * fuelUnitsPerGas ≠ 0 := by
      intro hz
      rw [hz, hzero] at hmul
      omega
    rw [if_neg hbig, if_neg hpos, hmul]

theorem deployMeter_cap {m : Meter} (h : deployMeter E t blockHeight gasLimit db = (.ok m, db')) :
    ∃ cfg : RuntimeConfig, cfg.gasLimit = gasLimit ∧ m.cap = fuelCap cfg := by
  obtain ⟨_, d, -, h⟩ := bind_ok.mp h
  obtain ⟨_, d, -, h⟩ := bind_ok.mp h
  obtain ⟨_, d, -, h⟩ := bind_ok.mp h
  obtain ⟨_, d, -, h⟩ := bind_ok.mp h
  obtain ⟨rfl, -⟩ := pure_ok.mp h
  exact ⟨deployConfig E t blockHeight gasLimit, rfl, rfl⟩

theorem callMeter_cap {m : Meter} (h : callMeter E t blockHeight gasLimit db = (.ok m, db')) :
    ∃ cfg : RuntimeConfig, cfg.gasLimit = gasLimit ∧ m.cap = fuelCap cfg := by
  obtain ⟨code, d, -, h⟩ := bind_ok.mp h
  cases code with
  | none => exact absurd h fail_ok
  | some wasmBytes =>
    refine ⟨callConfig t wasmBytes blockHeight gasLimit, rfl, ?_⟩
    obtain ⟨_, d, -, h⟩ := bind_ok.mp h
    obtain ⟨rt, d, -, h⟩ := bind_ok.mp h
    by_cases hfunc : (E.wasm.getFunc rt.inst (selector t.callData).1).isSome
    · rw [if_pos hfunc] at h
      obtain ⟨_, d, -, h⟩ := bind_ok.mp h
      obtain ⟨_, d, -, h⟩ := bind_ok.mp h
      obtain ⟨rfl, -⟩ := pure_ok.mp h
      rfl
    · rw [if_neg hfunc] at h
      obtain ⟨rfl, -⟩ := pure_ok.mp h
      rfl

theorem meter_affordable {m : Meter} (hn : t.nonce = nextNonce db t.senderPubKey)
    (h : fuelOf W ctx t db = (.ok m, db')) (hm : m.Falls) :
    ctx.baseFee.val * (1 + m.reported / fuelUnitsPerGas.toNat : Nat) ≤ readBalance db t.senderPubKey := by
  unfold fuelOf at h
  rw [if_pos hn] at h
  obtain ⟨gasLimit, d, hgas, h⟩ := bind_ok.mp h
  obtain ⟨hpos, hcovered⟩ := gasLimit_affordable hgas
  have hcap : ∃ cfg : RuntimeConfig, cfg.gasLimit = gasLimit ∧ m.cap = fuelCap cfg := by
    split at h
    · exact deployMeter_cap h
    · exact callMeter_cap h
  obtain ⟨cfg, rfl, hcap⟩ := hcap
  have hle := fuelCap_le hpos
  have hleft := UInt64.le_iff_toNat_le.mp hm.2
  rw [hcap] at hleft
  have hunits : m.reported / fuelUnitsPerGas.toNat ≤ cfg.gasLimit.toNat := by
    have hunit : fuelUnitsPerGas.toNat = 1000 := rfl
    unfold Meter.reported
    rw [hunit] at hle ⊢
    omega
  have hfee : (0 : Int) ≤ ctx.baseFee.val := by
    have hfee := ctx.baseFee.pos
    omega
  calc ctx.baseFee.val * ((1 + m.reported / fuelUnitsPerGas.toNat : Nat) : Int)
      ≤ ctx.baseFee.val * ((1 + cfg.gasLimit.toNat : Nat) : Int) := Int.mul_le_mul_of_nonneg_left (by omega) hfee
    _ ≤ readBalance db t.senderPubKey := hcovered

/-! ## What the execution takes and gives -/

/-- The contract a transaction runs. -/
def contractOf (W : World) (t : Tx) : Key :=
  if t.type = .contractDeploy then contractAddr W.toEnv t.senderPubKey t.nonce else t.receiverPubKey

/-- What the value costs the sender. What an account moves to itself is credited to it. -/
def fundCost (t : Tx) (addr : Key) : Int :=
  match t.value with
  | none => 0
  | some v => if v ≤ 0 then 0 else if t.senderPubKey = addr then -v else v

theorem fund_cost {addr : Key} {msg : String} {u : Unit} (h : fund t addr msg db = (.ok u, db')) :
    readBalance db' t.senderPubKey = readBalance db t.senderPubKey - fundCost t addr := by
  unfold fund at h
  unfold fundCost
  cases hv : t.value with
  | none =>
    rw [hv] at h
    obtain ⟨-, rfl⟩ := pure_ok.mp h
    exact (Int.sub_zero _).symm
  | some v =>
    rw [hv] at h
    dsimp only at h ⊢
    by_cases hpos : 0 < v
    · rw [if_pos hpos] at h
      obtain ⟨hs, ht, rfl⟩ := moveTx_ok (mapErr_ok.mp h)
      rw [if_neg (by omega), readBalance_movedDB hs ht]
      by_cases hself : t.senderPubKey = addr
      · rw [if_pos hself, if_pos hself, hself]
        omega
      · rw [if_neg hself, if_pos rfl, if_neg hself]
    · rw [if_neg hpos] at h
      obtain ⟨-, rfl⟩ := pure_ok.mp h
      rw [if_pos (by omega)]
      exact (Int.sub_zero _).symm

/-- What the contract of a deploy moves, in its start function and in `init`. -/
def deploySent (E : Env) (t : Tx) (blockHeight gasLimit : UInt64) : M (List (Key × Int)) := do
  let cfg := deployConfig E t blockHeight gasLimit
  fund t cfg.selfAddr "endow contract"
  let started ← Act.read (startChanges E cfg)
  let state ← Act.read fun db => loadStateOf db cfg.selfAddr
  let rt ← newRuntime E cfg state
  let called ← Act.read (rt.changes cfg initName)
  return started ++ called

/-- What the contract of a call moves, in its start function and in the function. -/
def callSent (E : Env) (t : Tx) (blockHeight gasLimit : UInt64) : M (List (Key × Int)) := do
  match ← Act.read fun db => db.contractBytecode.get t.receiverPubKey with
  | none => Act.fail (.plain s!"contract {t.receiverPubKey.hex} not found")
  | some wasmBytes => do
    let cfg := callConfig t wasmBytes blockHeight gasLimit
    let started ← Act.read (startChanges E cfg)
    let state ← Act.read fun db => loadStateOf db cfg.selfAddr
    let rt ← newRuntime E cfg state
    fund t cfg.selfAddr "fund contract call"
    let called ← Act.read (rt.changes cfg (selector t.callData).1)
    return started ++ called

/-- What the contract of an executed transaction moves. -/
def sentOf (W : World) (ctx : BlockCtx) (t : Tx) : M (List (Key × Int)) := fun db =>
  (do let gasLimit ← contractGasLimit t.senderPubKey ctx.baseFee
      if t.type = .contractDeploy then deploySent W.toEnv t ctx.height gasLimit
      else callSent W.toEnv t ctx.height gasLimit : M (List (Key × Int))) (db.advanced t.senderPubKey t.nonce)

theorem readBalance_congr {k : Key} (h : db'.balances = db.balances) : readBalance db' k = readBalance db k := by
  unfold readBalance
  rw [h]

theorem deploy_sent {r : Hash × UInt64} (h : deploy E t blockHeight gasLimit db = (.ok r, db')) :
    ∃ sent d, deploySent E t blockHeight gasLimit db = (.ok sent, d) ∧
      readBalance db' t.senderPubKey = readBalance db t.senderPubKey -
        fundCost t (contractAddr E t.senderPubKey t.nonce) + netOf t.senderPubKey sent := by
  obtain ⟨d₁, rt, d₂, rt', d₃, -, hfund, hrt, hcall, hbal, -⟩ := deploy_ok h
  refine ⟨startChanges E (deployConfig E t blockHeight gasLimit) d₁ ++
    rt.changes (deployConfig E t blockHeight gasLimit) initName d₂, d₂, ?_, ?_⟩
  · refine bind_ok.mpr ⟨_, d₁, hfund, bind_ok.mpr ⟨_, d₁, read_ok.mpr ⟨rfl, rfl⟩, ?_⟩⟩
    refine bind_ok.mpr ⟨_, d₁, read_ok.mpr ⟨rfl, rfl⟩, bind_ok.mpr ⟨rt, d₂, hrt, ?_⟩⟩
    exact bind_ok.mpr ⟨_, d₂, read_ok.mpr ⟨rfl, rfl⟩, rfl⟩
  · have h1 := fund_cost hfund
    have h2 := newRuntime_changes hrt t.senderPubKey
    have h3 := runtimeCall_changes hcall t.senderPubKey
    rw [readBalance_congr hbal, netOf_append]
    omega

theorem call_sent {r : Hash × UInt64} (h : call E t blockHeight gasLimit db = (.ok r, db')) :
    ∃ sent d, callSent E t blockHeight gasLimit db = (.ok sent, d) ∧
      readBalance db' t.senderPubKey = readBalance db t.senderPubKey - fundCost t t.receiverPubKey +
        netOf t.senderPubKey sent := by
  obtain ⟨wasmBytes, rt, d₁, d₂, rt', d₃, hcode, hrt, -, hfund, hcall, hsave, -⟩ := call_ok h
  refine ⟨startChanges E (callConfig t wasmBytes blockHeight gasLimit) db ++
    rt.changes (callConfig t wasmBytes blockHeight gasLimit) (selector t.callData).1 d₂, d₂, ?_, ?_⟩
  · refine bind_ok.mpr ⟨_, db, read_ok.mpr ⟨hcode, rfl⟩, bind_ok.mpr ⟨_, db, read_ok.mpr ⟨rfl, rfl⟩, ?_⟩⟩
    refine bind_ok.mpr ⟨_, db, read_ok.mpr ⟨rfl, rfl⟩, bind_ok.mpr ⟨rt, d₁, hrt, ?_⟩⟩
    exact bind_ok.mpr ⟨_, d₂, hfund, bind_ok.mpr ⟨_, d₂, read_ok.mpr ⟨rfl, rfl⟩, rfl⟩⟩
  · have h1 := newRuntime_changes hrt t.senderPubKey
    have h2 := fund_cost hfund
    have h3 := runtimeCall_changes hcall t.senderPubKey
    have hbal : db'.balances = d₃.balances := by rw [← write_ok.mp hsave]
    rw [readBalance_congr hbal, netOf_append]
    omega

theorem executed_balance {o : TxOut} (hty : t.type = .contractDeploy ∨ t.type = .contractCall)
    (h : applyTx W ctx t db = (.ok o, db')) (ho : o.fuel.isSome = true) :
    t.nonce = nextNonce db t.senderPubKey ∧ ∃ sent d, sentOf W ctx t db = (.ok sent, d) ∧
      readBalance db' t.senderPubKey = readBalance db t.senderPubKey - fundCost t (contractOf W t) +
        netOf t.senderPubKey sent := by
  unfold applyTx at h
  unfold sentOf contractOf
  by_cases hn : t.nonce = nextNonce db t.senderPubKey
  · refine ⟨hn, ?_⟩
    rcases hty with hty | hty <;> simp only [hty, unlessFault_advance] at h <;> rw [if_pos hn] at h <;>
      obtain ⟨gasLimit, d, hgas, h⟩ := bind_ok.mp h <;>
      have hd : db.advanced t.senderPubKey t.nonce = d := contractGasLimit_same hgas
    · obtain ⟨⟨root, used⟩, d', hdeploy, h⟩ := bind_ok.mp h
      obtain ⟨-, rfl⟩ := pure_ok.mp h
      obtain ⟨sent, d'', hsent, hbal⟩ := deploy_sent hdeploy
      refine ⟨sent, d'', bind_ok.mpr ⟨gasLimit, d, hgas, ?_⟩, ?_⟩
      · rw [if_pos hty]
        exact hsent
      · rw [if_pos hty, hbal, ← hd]
        rfl
    · have hno : ¬ t.type = .contractDeploy := by
        rw [hty]
        exact TxType.noConfusion
      rcases orNotFound_ok h with h | ⟨e, -, -, rfl⟩
      · obtain ⟨⟨root, used⟩, d', hcall, h⟩ := bind_ok.mp h
        obtain ⟨-, rfl⟩ := pure_ok.mp h
        obtain ⟨sent, d'', hsent, hbal⟩ := call_sent hcall
        refine ⟨sent, d'', bind_ok.mpr ⟨gasLimit, d, hgas, ?_⟩, ?_⟩
        · rw [if_neg hno]
          exact hsent
        · rw [if_neg hno, hbal, ← hd]
          rfl
      · cases ho
  · rcases hty with hty | hty <;> simp only [hty, unlessFault_advance] at h <;> rw [if_neg hn] at h <;>
      obtain rfl := Go.ok.inj (Prod.mk.inj h).1 <;> cases ho

/-! ## The fee -/

theorem burnTx_isOk {a : Key} {n : Int} (h0 : 0 ≤ n) : (burnTx a n db).1.isOk = true ↔ n ≤ readBalance db a := by
  constructor
  · intro hok
    obtain ⟨u, hu⟩ := Go.run_eq hok
    exact (burnTx_ok hu).1
  · intro hle
    have hfits : Fits (readBalance db a) := readBalance_fits db a
    unfold Fits at hfits
    unfold burnTx balanceOfTx
    rw [read_bind, check_bind hle, changeBalance_run _ ⟨by omega, by omega⟩]
    rfl

theorem chargeGas_isOk {fee : Fee} {gas : UInt64} {o : TxOut} :
    (chargeGas fee gas (t, o) db).1.isOk = true ↔ fee.val * (gasUnits o).toNat ≤ readBalance db t.senderPubKey := by
  have hfee : (0 : Int) < fee.val := by
    have hpos := fee.pos
    omega
  have h0 : 0 ≤ fee.val * ((gasUnits o).toNat : Int) := Int.mul_nonneg (by omega) (Int.natCast_nonneg _)
  unfold chargeGas
  rw [if_neg (by omega), ← burnTx_isOk h0]
  constructor
  · intro hok
    obtain ⟨gas', hrun⟩ := Go.run_eq hok
    obtain ⟨u, d, hburn, -⟩ := bind_ok.mp hrun
    exact Go.isOk_iff.mpr ⟨u, by rw [hburn]⟩
  · intro hok
    obtain ⟨u, hburn⟩ := Go.run_eq hok
    exact Go.isOk_iff.mpr ⟨_, by rw [bind_ok.mpr ⟨u, _, hburn, rfl⟩]⟩

variable {pre afterTxs : DB} {b : Block} {chainID : List UInt8} {outs : List TxOut}

/-- The gas loop of a block behind its transactions. -/
def gasLoop (pre : DB) (b : Block) (outs : List TxOut) : M UInt64 :=
  (b.txs.zip outs).foldlM (chargeGas (currentBaseFee pre)) 0

/-- The fee of a contract transaction that was executed, alone in its block. -/
theorem fee_paid_iff (hw : CountsFuel W.wasm) (hb : b.txs = [t])
    (hty : t.type = .contractDeploy ∨ t.type = .contractCall)
    (hran : txLoop W (ctxOf pre b chainID) b.txs pre = (.ok outs, afterTxs))
    (hexecuted : ∀ o ∈ outs, o.fuel.isSome = true) :
    ∃ m d sent d', fuelOf W (ctxOf pre b chainID) t pre = (.ok m, d) ∧
      sentOf W (ctxOf pre b chainID) t pre = (.ok sent, d') ∧
      ((gasLoop pre b outs afterTxs).1.isOk = true ↔
        fundCost t (contractOf W t) + (currentBaseFee pre).val * (1 + m.reported / fuelUnitsPerGas.toNat : Nat) ≤
          readBalance pre t.senderPubKey + netOf t.senderPubKey sent) ∧
      (fundCost t (contractOf W t) ≤ netOf t.senderPubKey sent → (gasLoop pre b outs afterTxs).1.isOk = true) := by
  unfold gasLoop
  rw [hb] at hran ⊢
  obtain ⟨o, d, outs', hrun, hnil, rfl⟩ := mapM_cons_ok.mp hran
  obtain ⟨rfl, rfl⟩ := mapM_nil_ok.mp hnil
  obtain ⟨m, dm, hm, hfalls, hunits⟩ := applyTx_meter hw hty hrun
  obtain ⟨hn, sent, ds, hsent, hbal⟩ := executed_balance hty hrun (hexecuted o (List.mem_singleton_self o))
  have hcovered := meter_affordable hn hm hfalls
  have hloop : ([t].zip [o]).foldlM (chargeGas (currentBaseFee pre)) 0 afterTxs =
      (chargeGas (currentBaseFee pre) 0 (t, o) >>= fun g => pure g) afterTxs := rfl
  have hiff : (([t].zip [o]).foldlM (chargeGas (currentBaseFee pre)) 0 afterTxs).1.isOk = true ↔
      fundCost t (contractOf W t) + (currentBaseFee pre).val * (1 + m.reported / fuelUnitsPerGas.toNat : Nat) ≤
        readBalance pre t.senderPubKey + netOf t.senderPubKey sent := by
    rw [hloop, bind_pure, chargeGas_isOk, hunits, hbal]
    omega
  refine ⟨m, dm, sent, ds, hm, hsent, hiff, fun hback => hiff.mpr ?_⟩
  have hcovered : (currentBaseFee pre).val * ((1 + m.reported / fuelUnitsPerGas.toNat : Nat) : Int) ≤ _ := hcovered
  omega

theorem countsFuel_sample : CountsFuel sampleWasm where
  start _ fuel := UInt64.le_refl fuel
  func := by
    intro (code : List UInt8) _ run hrun fuel
    have hrun : (if code = [0] then none else some fun fuel => Guest.done () fuel) = some run := hrun
    split at hrun
    · cases hrun
    · obtain rfl := Option.some.inj hrun
      exact UInt64.le_refl fuel

theorem fee_paid_launching : ∃ outs d,
    txLoop World.sample (ctxOf richestDB (Block.plain 1 [launching [1]]) []) [launching [1]] richestDB = (.ok outs, d) ∧
      (gasLoop richestDB (Block.plain 1 [launching [1]]) outs d).1.isOk = true := by
  obtain ⟨outs, hran⟩ := Go.run_eq
    (p := txLoop World.sample (ctxOf richestDB (Block.plain 1 [launching [1]]) []) [launching [1]] richestDB)
    (by decide +kernel)
  have hfuels : (txLoop World.sample (ctxOf richestDB (Block.plain 1 [launching [1]]) []) [launching [1]] richestDB).1 =
      .ok [⟨some (contractOf World.sample (launching [1])), some 0, 0⟩] := by decide +kernel
  rw [hran] at hfuels
  obtain rfl := Go.ok.inj hfuels
  obtain ⟨m, d, sent, d', hm, hsent, hiff, -⟩ := fee_paid_iff countsFuel_sample
    (show (Block.plain 1 [launching [1]]).txs = [launching [1]] from rfl) (by decide +kernel) hran
    (fun o ho => by rw [List.mem_singleton.mp ho]; rfl)
  have hm' : (fuelOf World.sample (ctxOf richestDB (Block.plain 1 [launching [1]]) []) (launching [1]) richestDB).1 =
      .ok ⟨maxUint64, maxUint64, maxUint64⟩ := by decide +kernel
  have hsent' : (sentOf World.sample (ctxOf richestDB (Block.plain 1 [launching [1]]) []) (launching [1]) richestDB).1 =
      .ok [] := by decide +kernel
  rw [hm] at hm'
  rw [hsent] at hsent'
  obtain rfl := Go.ok.inj hm'
  obtain rfl := Go.ok.inj hsent'
  exact ⟨_, _, hran, hiff.mpr (by decide +kernel)⟩

/-- Account 1 has a thousand units, and deploys a contract with all of them. -/
def savingsDB : DB := (applyGenesis Prim.sample DB.new ⟨[], [⟨"", some 1, "", some 1000⟩]⟩).2

/-- The limit stands at 999 units, the contract burns no fuel and sends nothing back, and the
    one unit of the transaction itself is not there any more. -/
theorem value_takes_fee : CountsFuel World.sample.wasm ∧
    readBalance savingsDB 1 = 1000 ∧ (currentBaseFee savingsDB).val = 1 ∧
    (contractGasLimit 1 (currentBaseFee savingsDB) (savingsDB.advanced 1 1)).1 = .ok 999 ∧
    (txLoop World.sample (ctxOf savingsDB (endowing 1000) []) (endowing 1000).txs savingsDB).1 =
      .ok [⟨some (contractAddr World.sample.toEnv 1 1), some 0, 0⟩] ∧
    ((endowing 1000).txs.map fun t => (sentOf World.sample (ctxOf savingsDB (endowing 1000) []) t savingsDB).1) =
    [.ok []] ∧
    (gasLoop savingsDB (endowing 1000) [⟨some (contractAddr World.sample.toEnv 1 1), some 0, 0⟩]
      (txLoop World.sample (ctxOf savingsDB (endowing 1000) []) (endowing 1000).txs savingsDB).2).1 =
      .err (.rg .insufficientFunds "insufficient balance to burn") ∧
    (applyBlockForChain World.sample .id savingsDB (endowing 1000) []).1 =
      .err (.rg .insufficientFunds "insufficient balance to burn") := by
  refine ⟨countsFuel_sample, ?_⟩
  decide +kernel

end Frg.Chain
