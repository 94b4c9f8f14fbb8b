/-
  Frg.Chain.Signed — how far a sender's signature fixes what its transaction does.

  Two transactions with one sender and one signature agree on the signed fields
  (`signed_alike`), but the receiver's key is not signed: it decides who is credited and
  which contract is called, and together with the unsigned payloads whether the stateless
  check passes. What is proved:

    - `effects_agree_iff`: two such transactions do the same to every state exactly when
      they are `Tied`: the same receiver for a transfer or a call, the same verdict of the
      stateless check for the types that have one, nothing more for a deployment.
-/

import Frg.Chain.Skipped
import Frg.Wire.Signing

namespace Frg.Chain

open Frg.Lib Frg.Core Frg.Wire Frg.Contract Act

variable {W : World} {ctx : BlockCtx} {t u : Tx} {db : DB}

/-- The branch of one transaction: its stateless check, its round of the loop and its miss. -/
def applyOne (W : World) (ctx : BlockCtx) (t : Tx) : M Unit := do
  let _ ← Act.lift (precheck W ctx t)
  let _ ← applyTx W ctx t
  let _ ← applyMiss W 0 t

/-- The stores a transaction leaves behind, if it does not make its block fail. -/
def effect (W : World) (ctx : BlockCtx) (t : Tx) (db : DB) : Option Stores :=
  match applyOne W ctx t db with
  | (.ok _, db') => some db'.stores
  | _ => none

/-- What the signature does not fix, and has to be the same for the same effect. -/
def Tied (W : World) (chainID : List UInt8) (t u : Tx) : Prop :=
  match t.type with
  | .transfer | .contractCall => t.receiverPubKey = u.receiverPubKey
  | .contractDeploy => True
  | _ => ∀ ctx : BlockCtx, ctx.chainID = chainID → (precheck W ctx t).isOk = (precheck W ctx u).isOk

theorem effect_eq_some {s : Stores} : effect W ctx t db = some s ↔
    ∃ k o d n d', precheck W ctx t = .ok k ∧ applyTx W ctx t db = (.ok o, d) ∧ applyMiss W 0 t d = (.ok n, d') ∧
      s = d'.stores := by
  have hone : (∃ d' u, applyOne W ctx t db = (.ok u, d') ∧ s = d'.stores) ↔ effect W ctx t db = some s := by
    unfold effect
    rcases applyOne W ctx t db with ⟨r, d'⟩
    cases r <;> simp [eq_comm]
  rw [← hone]
  constructor
  · rintro ⟨d', _, h, rfl⟩
    obtain ⟨k, d1, h1, h⟩ := bind_ok.mp h
    obtain ⟨hk, rfl⟩ := lift_ok.mp h1
    obtain ⟨o, d2, h2, h⟩ := bind_ok.mp h
    obtain ⟨n, d3, h3, h⟩ := bind_ok.mp h
    obtain ⟨-, rfl⟩ := pure_ok.mp h
    exact ⟨k, o, d2, n, _, hk, h2, h3, rfl⟩
  · rintro ⟨k, o, d, n, d', h1, h2, h3, rfl⟩
    exact ⟨d', (), bind_ok.mpr ⟨k, db, lift_ok.mpr ⟨h1, rfl⟩, bind_ok.mpr ⟨o, d, h2,
      bind_ok.mpr ⟨n, d', h3, pure_ok.mpr ⟨rfl, rfl⟩⟩⟩⟩, rfl⟩

theorem effect_eq_none (h : (precheck W ctx t).isOk = false) : effect W ctx t db = none := by
  rw [Option.eq_none_iff_forall_not_mem]
  intro s hs
  obtain ⟨k, _, _, _, _, hk, -⟩ := effect_eq_some.mp hs
  rw [hk] at h
  cases h

/-! ## Tied transactions have one effect -/

theorem transferTx_congr (h : Alike t u) (hpk : t.senderPubKey = u.senderPubKey)
    (hr : t.receiverPubKey = u.receiverPubKey) : transferTx t = transferTx u := by
  unfold transferTx
  rw [h.nonce, h.value, hpk, hr]

theorem fund_congr (h : Alike t u) (hpk : t.senderPubKey = u.senderPubKey) : fund t = fund u := by
  unfold fund
  rw [h.value, hpk]

theorem deploy_congr (h : Alike t u) (hpk : t.senderPubKey = u.senderPubKey) (hty : t.type = .contractDeploy) :
    deploy W.toEnv t = deploy W.toEnv u := by
  unfold deploy
  rw [h.nonce, hpk, h.wasmBytes hty, fund_congr h hpk]

theorem call_congr (h : Alike t u) (hpk : t.senderPubKey = u.senderPubKey) (hty : t.type = .contractCall)
    (hr : t.receiverPubKey = u.receiverPubKey) : call W.toEnv t = call W.toEnv u := by
  unfold call
  rw [hr, h.callData hty, hpk, fund_congr h hpk]

theorem precheck_zero {k : Key} (hty : t.type ≠ .equivEvidence) (h : precheck W ctx t = .ok k) : k = 0 := by
  unfold precheck at h
  cases ht : t.type with
  | equivEvidence => exact absurd ht hty
  | bond | unbond | finalizeUnbond | claimRewards | missEvidence =>
    simp only [ht] at h
    obtain ⟨_, -, h⟩ := Go.bind_eq_ok.mp h
    exact (Go.ok.inj h).symm
  | transfer | contractDeploy | contractCall | other b hb =>
    simp only [ht] at h
    exact (Go.ok.inj h).symm

theorem precheck_key {k k' : Key} (h : Alike t u) (hk : precheck W ctx t = .ok k) (hk' : precheck W ctx u = .ok k') :
    k = k' := by
  by_cases hty : t.type = .equivEvidence
  · have hty' : u.type = .equivEvidence := h.type ▸ hty
    simp only [precheck, hty] at hk
    simp only [precheck, hty'] at hk'
    obtain ⟨_, -, hk⟩ := Go.bind_eq_ok.mp hk
    obtain ⟨_, -, hk'⟩ := Go.bind_eq_ok.mp hk'
    obtain ⟨-, -, a, ha, -, -, -, -, -, -, -, rfl⟩ := validateEquivocationEvidenceTx_iff.mp hk
    obtain ⟨-, -, b, hb, -, -, -, -, -, -, -, rfl⟩ := validateEquivocationEvidenceTx_iff.mp hk'
    rw [(h.evidence hty).1, hb] at ha
    rw [Go.ok.inj ha]
  · rw [precheck_zero hty hk, precheck_zero (h.type ▸ hty) hk']

theorem applyMiss_congr (h : Alike t u) : applyMiss W 0 t = applyMiss W 0 u := by
  unfold applyMiss
  rw [h.type, h.missedProposer]

/-- Alike transactions with the same outcome of their checks and, where it matters, the
    same receiver take the same round. -/
theorem applyTx_congr {k : Key} (h : Alike t u) (hpk : t.senderPubKey = u.senderPubKey)
    (hr : t.type = .transfer ∨ t.type = .contractCall → t.receiverPubKey = u.receiverPubKey)
    (hk : precheck W ctx t = .ok k) (hk' : precheck W ctx u = .ok k) : applyTx W ctx t = applyTx W ctx u := by
  unfold applyTx
  cases hty : t.type with
  | transfer =>
    have hty' : u.type = .transfer := h.type ▸ hty
    simp only [hty', transferTx_congr h hpk (hr (.inl hty))]
  | contractCall =>
    have hty' : u.type = .contractCall := h.type ▸ hty
    simp only [hty', h.nonce, hpk, call_congr h hpk hty (hr (.inr hty)), hr (.inr hty)]
  | contractDeploy =>
    have hty' : u.type = .contractDeploy := h.type ▸ hty
    simp only [hty', h.nonce, hpk, deploy_congr h hpk hty]
  | _ =>
    rw [h.type] at hty
    simp only [hty, hk, hk', h.nonce, h.value, hpk]

theorem precheck_isOk_of_tied {chainID : List UInt8} (h : Alike t u) (htied : Tied W chainID t u)
    (hc : ctx.chainID = chainID) : (precheck W ctx t).isOk = (precheck W ctx u).isOk := by
  unfold Tied at htied
  cases hty : t.type with
  | transfer | contractCall | contractDeploy =>
    have hty' := h.type ▸ hty
    simp only [precheck, hty, hty']
  | _ =>
    rw [hty] at htied
    exact htied ctx hc

theorem effect_eq_of_tied {chainID : List UInt8} (h : Alike t u) (hpk : t.senderPubKey = u.senderPubKey)
    (htied : Tied W chainID t u) (hc : ctx.chainID = chainID) : effect W ctx t db = effect W ctx u db := by
  have hok := precheck_isOk_of_tied h htied hc
  have hr : t.type = .transfer ∨ t.type = .contractCall → t.receiverPubKey = u.receiverPubKey := by
    rintro (e | e) <;> rw [Tied, e] at htied <;> exact htied
  cases hk : precheck W ctx t with
  | ok k =>
    cases hk' : precheck W ctx u with
    | ok k' =>
      obtain rfl := precheck_key h hk hk'
      unfold effect applyOne
      rw [hk, hk', applyTx_congr h hpk hr hk hk', applyMiss_congr h]
    | _ => rw [hk, hk'] at hok; cases hok
  | _ => rw [effect_eq_none (by rw [hk]; rfl), effect_eq_none (by rw [← hok, hk]; rfl)]

/-! ## Transactions that are not tied

Each lemma gives a state that tells the two transactions apart. -/

/-- The nonce of `t` has been used, and the validator it may accuse has a record. -/
def staleDB (t : Tx) : DB :=
  { DB.new with nonces := Bucket.empty.put t.senderPubKey t.nonce
                validators := Bucket.empty.put t.missedProposer (.fresh 0 0) }

theorem staleDB_nonce (t : Tx) : t.nonce ≠ nextNonce (staleDB t) t.senderPubKey := by
  have h : nextNonce (staleDB t) t.senderPubKey = t.nonce + 1 := by
    simp [nextNonce, nonceOf, staleDB]
  rw [h]
  intro e
  have := congrArg UInt64.toNat e
  rw [UInt64.toNat_add] at this
  have h1 : (1 : UInt64).toNat = 1 := rfl
  have := t.nonce.toNat_lt
  omega

theorem effect_staleDB {k : Key} (hk : precheck W ctx t = .ok k) : (effect W ctx t (staleDB t)).isSome = true := by
  have hrun := applyTx_stale (staleDB_nonce t) hk
  have hmiss : ∃ n d, applyMiss W 0 t (staleDB t) = (.ok n, d) := by
    unfold applyMiss
    split
    · have hrec : (staleDB t).validators.get t.missedProposer = some (.fresh 0 0) := Bucket.get_put_self _ _ _
      exact ⟨_, _, bind_ok.mpr ⟨_, _, recordMissTx_run hrec, rfl⟩⟩
    · exact ⟨_, _, rfl⟩
  obtain ⟨n, d, hmiss⟩ := hmiss
  exact Option.isSome_iff_exists.mpr ⟨_, effect_eq_some.mpr ⟨k, {}, _, n, d, hk, hrun, hmiss, rfl⟩⟩

theorem precheck_ok_of_effect (h : effect W ctx t (staleDB t) = effect W ctx u (staleDB t))
    (hk : (precheck W ctx t).isOk = true) : (precheck W ctx u).isOk = true := by
  cases hp : precheck W ctx t with
  | ok k =>
    have hsome := effect_staleDB hp
    rw [h] at hsome
    by_contra hu
    rw [effect_eq_none (Bool.eq_false_of_not_eq_true hu)] at hsome
    cases hsome
  | _ => rw [hp] at hk; cases hk

/-- The sender of `t` has just what `t` moves, and the nonce of `t` is next. -/
def fundedDB (t : Tx) (amount : Nat) : DB :=
  { DB.new with nonces := Bucket.empty.put t.senderPubKey (t.nonce - 1)
                balances := Bucket.empty.put t.senderPubKey (Fin.ofNat _ amount) }

theorem fundedDB_nonce (t : Tx) (n : Nat) : t.nonce = nextNonce (fundedDB t n) t.senderPubKey := by
  simp [nextNonce, nonceOf, fundedDB]

theorem readBalance_fundedDB (t : Tx) {n : Nat} (hn : n < 256 ^ 32) (a : Key) :
    readBalance (fundedDB t n) a = if a = t.senderPubKey then (n : Int) else 0 := by
  unfold readBalance fundedDB
  by_cases ha : a = t.senderPubKey
  · simp only [ha, Bucket.get_put_self, if_true]
    exact congrArg Int.ofNat (Nat.mod_eq_of_lt hn)
  · simp only [Bucket.get_put_ne _ _ ha, if_neg ha]
    rfl

/-- The balance entry of `a` is as it was. -/
def Untouched (a : Key) (d d' : DB) : Prop := d'.balances.get a = d.balances.get a

instance (a : Key) : Std.Refl (Untouched a) := ⟨fun _ => rfl⟩
instance (a : Key) : IsTrans DB (Untouched a) := ⟨fun _ _ _ h1 h2 => h2.trans h1⟩

theorem transferTx_untouched {a : Key} (hs : a ≠ t.senderPubKey) (hr : a ≠ t.receiverPubKey) :
    Steps (Untouched a) (transferTx t) := by
  refine steps_bind (fun db => ?_) fun _ => ?_
  · by_cases h : t.nonce = nextNonce db t.senderPubKey
    · rw [advanceNonceTx_ok h]
      exact rfl
    · obtain ⟨msg, h⟩ := advanceNonceTx_skip h
      rw [h]
      exact rfl
  · split
    · exact steps_stop _
    · rename_i value _
      intro db
      have hdebit : Untouched a db (debitedDB db t.senderPubKey t.receiverPubKey value) := Bucket.get_put_ne _ _ hs
      rcases moveBalance_cases t.senderPubKey t.receiverPubKey value "sender balance insufficient" db with
        ⟨-, e, h⟩ | ⟨-, -, e, h⟩ | ⟨-, -, -, h⟩ <;> rw [h]
      · exact rfl
      · exact hdebit
      · exact (Bucket.get_put_ne _ _ hr).trans hdebit

theorem unlessFault_untouched {a : Key} {x : M Unit} (hx : Steps (Untouched a) x) :
    Steps (Untouched a) (unlessFault x (pure {})) := by
  intro db
  have h1 := hx db
  unfold unlessFault
  generalize x db = r at h1 ⊢
  rcases r with ⟨_ | e | w, db'⟩
  · exact h1
  · dsimp only
    split <;> exact h1
  · exact h1

theorem transfer_effect_ne (h : Alike t u) (hpk : t.senderPubKey = u.senderPubKey) (hty : t.type = .transfer) {n : Nat}
    (hv : t.value = some (n : Int)) (hn : n < 256 ^ 32) (hs : t.receiverPubKey ≠ t.senderPubKey)
    (hr : t.receiverPubKey ≠ u.receiverPubKey) : effect W ctx t (fundedDB t n) ≠ effect W ctx u (fundedDB t n) := by
  intro e
  have hty' : u.type = .transfer := h.type ▸ hty
  have hmax : (256 : Nat) ^ 32 = 2 ^ 256 := by norm_num
  have hmax' : maxUint256 = 2 ^ 256 - 1 := rfl
  -- the first one pays its receiver
  have hdone : ∃ s, effect W ctx t (fundedDB t n) = some s ∧ (s.balances.get t.receiverPubKey).isSome = true := by
    let d := (fundedDB t n).advanced t.senderPubKey t.nonce
    have hbal : ∀ a, readBalance d a = if a = t.senderPubKey then (n : Int) else 0 := readBalance_fundedDB t hn
    rcases moveBalance_cases t.senderPubKey t.receiverPubKey n "sender balance insufficient" d with
      ⟨hnf, -⟩ | ⟨-, hnf, -⟩ | ⟨-, -, -, hm⟩
    · refine absurd ?_ hnf
      rw [hbal, if_pos rfl, sub_self]
      exact ⟨le_rfl, le_rfl, by decide⟩
    · refine absurd ?_ hnf
      rw [hbal, if_neg hs]
      exact ⟨by omega, by omega⟩
    · have hrun : transferTx t (fundedDB t n) = (.ok (), movedDB d t.senderPubKey t.receiverPubKey n) := by
        unfold transferTx
        rw [hv]
        exact bind_ok.mpr ⟨(), d, advanceNonceTx_ok (fundedDB_nonce t n), hm⟩
      have happ : applyTx W ctx t (fundedDB t n) = (.ok {}, movedDB d t.senderPubKey t.receiverPubKey n) := by
        simp only [applyTx, hty, unlessFault, hrun]
        rfl
      refine ⟨_, effect_eq_some.mpr ⟨0, {}, _, 0, _, by simp only [precheck, hty]; rfl, happ, by
        simp only [applyMiss, hty]; rfl, rfl⟩, ?_⟩
      show ((Bucket.put _ t.receiverPubKey _).get t.receiverPubKey).isSome = true
      rw [Bucket.get_put_self]
      rfl
  obtain ⟨s, hs1, hs2⟩ := hdone
  rw [e] at hs1
  obtain ⟨k, o, d, m, d', -, h2, h3, rfl⟩ := effect_eq_some.mp hs1
  -- the second one does not
  simp only [applyMiss, hty'] at h3
  obtain ⟨-, rfl⟩ := pure_ok.mp h3
  simp only [applyTx, hty'] at h2
  have hframe := (unlessFault_untouched (transferTx_untouched (a := t.receiverPubKey) (hpk ▸ hs) hr)).run h2
  rw [show d.stores.balances.get t.receiverPubKey = d.balances.get t.receiverPubKey from rfl, hframe,
    show (fundedDB t n).balances.get t.receiverPubKey = none from Bucket.get_put_ne _ _ hs] at hs2
  cases hs2

/-! ## Calls -/

/-- A module that instantiates and exports no function, such as the empty one. -/
def ExportsNothing (w : Wasmtime) (code : List UInt8) : Prop :=
  ∃ m, w.newModule code = .ok m ∧ w.imports m = [] ∧
    ∀ fuel, ∃ inst left, w.instantiate m fuel = .done inst left ∧ ∀ f, w.getFunc inst f = none

/-- Only the contract `t` calls is there, with code that exports nothing. -/
def calledDB (t : Tx) (code : List UInt8) : DB :=
  { fundedDB t 2 with contractBytecode := Bucket.empty.put t.receiverPubKey code }

/-- The block that asks one unit for a unit of gas. -/
def cheapCtx (chainID : List UInt8) : BlockCtx :=
  { chainID, height := 1, prevStateRoot := 0, validators := [], baseFee := ⟨1, Nat.one_pos⟩ }

theorem calledDB_nonce (t : Tx) (code : List UInt8) : t.nonce = nextNonce (calledDB t code) t.senderPubKey :=
  fundedDB_nonce t 2

theorem newRuntime_exportsNothing (cfg : RuntimeConfig) (h : ExportsNothing W.wasm cfg.wasmBytes) (state : StateStore)
    (db : DB) : ∃ rt, newRuntime W.toEnv cfg state db = (.ok rt, db) ∧ ∀ f, W.wasm.getFunc rt.inst f = none := by
  obtain ⟨m, hm, himp, hinst⟩ := h
  obtain ⟨inst, left, hi, hf⟩ := hinst (fuelCap cfg)
  refine ⟨{ inst, initialFuel := left, fuel := left, state, hostErr := none }, ?_, hf⟩
  unfold newRuntime
  rw [hm]
  simp only [himp, hi]
  rfl

/-- A call of a contract that exports nothing is rejected and the block goes on. -/
theorem call_found (chainID : List UInt8) {code : List UInt8} (hty : t.type = .contractCall)
    (hcode : ExportsNothing W.wasm code) :
    (effect W (cheapCtx chainID) t (calledDB t code)).isSome = true := by
  let d := (calledDB t code).advanced t.senderPubKey t.nonce
  have hadv : advanceNonceTx t.senderPubKey t.nonce (calledDB t code) = (.ok (), d) :=
    advanceNonceTx_ok (calledDB_nonce t code)
  have hbal : readBalance d t.senderPubKey = 2 := by
    have := readBalance_fundedDB t (n := 2) (by norm_num) t.senderPubKey
    rwa [if_pos rfl] at this
  have hgas : contractGasLimit t.senderPubKey ⟨1, le_rfl⟩ d = (.ok 1, d) := by
    unfold contractGasLimit
    rw [if_neg (by decide)]
    exact bind_ok.mpr ⟨2, d, read_ok.mpr ⟨hbal, rfl⟩, rfl⟩
  have hget : d.contractBytecode.get t.receiverPubKey = some code := Bucket.get_put_self _ _ _
  have hcall : ∃ name, call W.toEnv t 1 1 d = (.err (.notFound name), d) := by
    obtain ⟨rt, hrt, hnone⟩ := newRuntime_exportsNothing
      { wasmBytes := code, caller := t.senderPubKey, selfAddr := t.receiverPubKey, blockHeight := 1
        callData := (selector t.callData).2, gasLimit := 1 } hcode (loadStateOf d t.receiverPubKey) d
    refine ⟨(selector t.callData).1, ?_⟩
    simp only [call, bind_run, Act.read, hget, hrt, hnone]
    rfl
  obtain ⟨name, hcall⟩ := hcall
  have happ : applyTx W (cheapCtx chainID) t (calledDB t code) = (.ok {}, d) := by
    simp only [applyTx, hty, unlessFault, hadv, cheapCtx, bind_run, hgas, orNotFound, hcall]
    rfl
  exact Option.isSome_iff_exists.mpr ⟨_, effect_eq_some.mpr ⟨0, {}, d, 0, d, by simp only [precheck, hty]; rfl, happ,
    by simp only [applyMiss, hty]; rfl, rfl⟩⟩

theorem call_missing (hty : t.type = .contractCall) (hn : t.nonce = nextNonce db t.senderPubKey)
    (hget : db.contractBytecode.get t.receiverPubKey = none) : effect W ctx t db = none := by
  rw [Option.eq_none_iff_forall_not_mem]
  intro s hs
  obtain ⟨k, o, d, n, d', -, h, -⟩ := effect_eq_some.mp hs
  simp only [applyTx, hty, unlessFault, advanceNonceTx_ok hn] at h
  obtain ⟨gas, d1, h1, h⟩ := bind_ok.mp h
  have hd1 : db.advanced t.senderPubKey t.nonce = d1 := contractGasLimit_same h1
  have hget : d1.contractBytecode.get t.receiverPubKey = none := hd1 ▸ hget
  have hcall : ∃ msg, call W.toEnv t ctx.height gas d1 = (.err (.plain msg), d1) := by
    simp only [call, bind_run, Act.read, hget]
    exact ⟨_, rfl⟩
  obtain ⟨msg, hcall⟩ := hcall
  rcases orNotFound_ok h with h | ⟨e, h, he, -⟩
  · obtain ⟨_, d2, h2, -⟩ := bind_ok.mp h
    rw [hcall] at h2
    cases (Prod.mk.inj h2).1
  · rw [bind_run, hcall] at h
    obtain ⟨e1, -⟩ := Prod.mk.inj h
    obtain rfl := Go.err.inj e1
    cases he

/-! ## The theorem -/

/-- What one signature fixes: two transactions it covers have the same effect on every
    state exactly when they are tied. -/
theorem effects_agree_iff {chainID code : List UInt8} (hone : OneMessage W.verify)
    (hap : SignedApart W.toPrim t u chainID) (hcode : ExportsNothing W.wasm code)
    (hpk : t.senderPubKey = u.senderPubKey) (hsig : t.senderSig = u.senderSig)
    (hv : verifySigsForChain W.toPrim t chainID = .ok ()) (hv' : verifySigsForChain W.toPrim u chainID = .ok ()) :
    (∀ ctx db, ctx.chainID = chainID → effect W ctx t db = effect W ctx u db) ↔ Tied W chainID t u := by
  have halike := signed_alike hone hap hpk hsig hv hv'
  refine ⟨fun hall => ?_, fun htied ctx db hc => effect_eq_of_tied halike hpk htied hc⟩
  have hchecks : ∀ ctx : BlockCtx, ctx.chainID = chainID → (precheck W ctx t).isOk = (precheck W ctx u).isOk :=
    fun ctx hc => Bool.eq_iff_iff.mpr
      ⟨precheck_ok_of_effect (hall ctx _ hc), precheck_ok_of_effect (hall ctx _ hc).symm⟩
  obtain ⟨s, hs, -, hnot⟩ := verifySigsForChain_ok hv
  obtain ⟨n, -, hval, hn, -⟩ := serializeUnsigned_ok hs
  cases hty : t.type with
  | transfer =>
    rw [Tied, hty]
    by_contra hr
    by_cases hs : t.receiverPubKey = t.senderPubKey
    · have hs' : u.receiverPubKey ≠ u.senderPubKey := fun e => hr (by rw [hs, e, hpk])
      exact transfer_effect_ne halike.symm hpk.symm (halike.type ▸ hty) (halike.value ▸ hval) hn hs' (Ne.symm hr)
        (hall (cheapCtx chainID) _ rfl).symm
    · exact transfer_effect_ne halike hpk hty hval hn hs hr (hall (cheapCtx chainID) _ rfl)
  | contractCall =>
    rw [Tied, hty]
    by_contra hr
    have hsome := call_found chainID hty hcode
    rw [hall _ _ rfl, call_missing (halike.type ▸ hty)] at hsome
    · cases hsome
    · rw [← hpk, ← halike.nonce]
      exact calledDB_nonce t code
    · exact Bucket.get_put_ne _ _ (Ne.symm hr)
  | contractDeploy =>
    rw [Tied, hty]
    trivial
  | other b hb => exact absurd hty (hnot b hb)
  | _ =>
    rw [Tied, hty]
    exact hchecks

/-- Account 1 signs a transfer of 10 to account 2. -/
def signedTx : Tx := (Tx.plain .transfer 1 2 10 1).signed Prim.sample []

/-- The same signature, with another receiver. -/
def redirectedTx : Tx := { signedTx with receiverPubKey := 3 }

theorem effects_agree_iff_redirected : ¬ ∀ ctx db, ctx.chainID = [] →
    effect World.sample ctx signedTx db = effect World.sample ctx redirectedTx db := by
  have hsame : serializeUnsigned Prim.sample signedTx = serializeUnsigned Prim.sample redirectedTx := rfl
  have hap : SignedApart Prim.sample signedTx redirectedTx [] := fun s s' hs hs' _ => by
    rw [Go.ok.inj (hs.symm.trans (hsame.trans hs'))]
  have hcode : ExportsNothing World.sample.wasm [0] := ⟨[0], rfl, rfl, fun fuel => ⟨[0], fuel, rfl, fun _ => rfl⟩⟩
  rw [effects_agree_iff (W := World.sample) oneMessage_sample hap hcode rfl rfl (by decide +kernel) (by decide +kernel)]
  show ¬ (2 : Key) = 3
  decide

/-- Both verify, and each is accepted in a block; one pays account 2, the other account 3. -/
theorem redirected_pays_other :
    verifySigsForChain Prim.sample signedTx [] = .ok () ∧ verifySigsForChain Prim.sample redirectedTx [] = .ok () ∧
    redirectedTx.senderPubKey = signedTx.senderPubKey ∧ redirectedTx.senderSig = signedTx.senderSig ∧
    (applyBlockForChain World.sample .id genesisDB (.plain 1 [signedTx]) []).1.isOk = true ∧
    (applyBlockForChain World.sample .id genesisDB (.plain 1 [redirectedTx]) []).1.isOk = true ∧
    readBalance (applyBlockForChain World.sample .id genesisDB (.plain 1 [signedTx]) []).2 2 = 10 ∧
    readBalance (applyBlockForChain World.sample .id genesisDB (.plain 1 [redirectedTx]) []).2 2 = 0 ∧
    readBalance (applyBlockForChain World.sample .id genesisDB (.plain 1 [redirectedTx]) []).2 3 = 10 := by
  decide +kernel

end Frg.Chain
