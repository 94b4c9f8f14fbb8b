/-
  Frg.Chain.Parallel — the checks `ApplyBlockForChain` runs on a worker pool before its write
  transaction: `verifyTxSigsParallel` and `precheckTxsParallel`
  (`core/statemachine/statemachine.go`).

  Both start a goroutine for each chunk of the block and wait for all of them. A goroutine of
  the first returns at the first bad signature, after sending its error on a channel with room
  for one error of each worker; one of the second fills the cells of its own indices. What the
  calls may return is given over all schedules, for any number of CPUs. What is proved:

    - `verifyTxSigsParallel_nil_iff`: the first returns nil exactly when `checkBlock`'s loop
      over the signatures returns, so the model's `checkBlock` may run it in order.
    - `precheckTxsParallel_cell`, `check_precheck`: each cell of the second holds the `precheck`
      of its transaction, which is what `applyTx` asks for.
    - `workers_never_panic`: no transaction stops a worker, and so the process, whatever its bytes.
    - `parallel_as_serial`: both together, with termination.
-/

import Frg.Chain.Apply
import Frg.Lib.WorkerPool
import Frg.Wire.TxBounds
import Mathlib.Data.List.FinRange

namespace Frg.Chain

open Frg.Lib Frg.Core Frg.Wire

/-- The number of workers: `runtime.NumCPU()`, or the number of transactions if that is less. -/
def workersFor (cpus n : Nat) : Nat := if n < cpus then n else cpus

theorem workersFor_le (cpus n : Nat) : workersFor cpus n ≤ n := by
  unfold workersFor
  split <;> omega

/-! ## Signatures -/

section Signatures

variable (P : Prim) (cpus : Nat) (txs : List Tx) (chainID : List UInt8)

def sigPool (h : 1 < workersFor cpus txs.length) : Pool Tx Err Unit :=
  .among (workersFor cpus txs.length) txs (fun t => (verifySigsForChain P t chainID).error) (fun _ => id) ()
    (Nat.zero_lt_of_lt h) (Nat.zero_lt_of_lt (h.trans_le (workersFor_le _ _)))

/-- What `verifyTxSigsParallel` may return. The errors are read off the channel in the order
    they were sent. -/
inductive VerifyTxSigsParallel : Option Err → Prop
  | empty (h : txs = []) : VerifyTxSigsParallel none
  | serial (hne : txs ≠ []) (h : workersFor cpus txs.length ≤ 1) :
      VerifyTxSigsParallel (txs.forM fun t => verifySigsForChain P t chainID).error
  | pooled (h : 1 < workersFor cpus txs.length) {s : Pool.State Tx Err Unit}
      (hs : (sigPool P cpus txs chainID h).Reach s) (hm : s.main = .waited) : VerifyTxSigsParallel s.sent.head?

variable {P cpus txs chainID} {r : Option Err}

theorem sigPool_fails {h : 1 < workersFor cpus txs.length} {t : Tx} :
    (sigPool P cpus txs chainID h).fails t = none ↔ verifySigsForChain P t chainID = .ok () :=
  Go.error_eq_none (verifySigsForChain_panics t chainID)

theorem verifyTxSigsParallel_nil_iff (h : VerifyTxSigsParallel P cpus txs chainID r) :
    r = none ↔ (txs.forM fun t => verifySigsForChain P t chainID) = .ok () := by
  cases h with
  | empty h =>
    subst h
    exact iff_of_true rfl rfl
  | serial hne h => exact Go.error_eq_none (Go.panics_forM fun t _ => verifySigsForChain_panics t chainID)
  | pooled h hs hm =>
    rw [List.head?_eq_none_iff, Pool.sent_nil_iff hs hm, Go.forM_eq_ok]
    exact forall₂_congr fun t _ => sigPool_fails

theorem verifyTxSigsParallel_error (h : VerifyTxSigsParallel P cpus txs chainID r) {e : Err} (hr : r = some e) :
    ∃ t ∈ txs, verifySigsForChain P t chainID = .err e := by
  cases h with
  | empty h => cases hr
  | serial hne h => exact Go.forM_eq_err (Go.error_eq_some.mp hr)
  | pooled h hs hm =>
    obtain ⟨t, ht, hf⟩ := Pool.sent_mem hs (List.mem_of_mem_head? hr)
    exact ⟨t, ht, Go.error_eq_some.mp hf⟩

theorem verifyTxSigsParallel_returns (P : Prim) (cpus : Nat) (txs : List Tx) (chainID : List UInt8) :
    ∃ r, VerifyTxSigsParallel P cpus txs chainID r := by
  by_cases hne : txs = []
  · exact ⟨_, .empty hne⟩
  · by_cases hw : workersFor cpus txs.length ≤ 1
    · exact ⟨_, .serial hne hw⟩
    · obtain ⟨s, hs, hm⟩ := (sigPool P cpus txs chainID (not_le.mp hw)).exists_waited
      exact ⟨_, .pooled (not_le.mp hw) hs hm⟩

end Signatures

/-! ## Stateless checks -/

/-- `equivValidator` is the validator that equivocation evidence proves guilty. -/
structure TxPrecheck where
  err : Option Err := none
  equivValidator : Key := 0
  deriving DecidableEq, Repr

section Prechecks

variable (W : World) (ctx : BlockCtx)

/-- The closure `check` on the cell of its transaction. -/
def check (t : Tx) (cell : TxPrecheck) : TxPrecheck :=
  match t.type with
  | .bond => { cell with err := (validateBondTx t).error }
  | .unbond | .finalizeUnbond | .claimRewards => { cell with err := (validateZeroValueSelfTx t).error }
  | .equivEvidence =>
    match (validateZeroValueTx t).error with
    | some err => { cell with err := some err }
    | none =>
      let res := validateEquivocationEvidenceTx W t ctx.chainID
      { cell with err := res.error, equivValidator := res.toOption.getD 0 }
  | .missEvidence => { cell with err := (validateMissEvidenceTx W t ctx.height ctx.prevStateRoot ctx.validators).error }
  | _ => cell

variable (cpus : Nat) (txs : List Tx)

/-- What a call of `check(i)` writes. -/
def checkAt (i : Fin txs.length) (results : Fin txs.length → TxPrecheck) : Fin txs.length → TxPrecheck :=
  Function.update results i (check W ctx (txs.get i) (results i))

def precheckPool (h : 1 < workersFor cpus txs.length) : Pool (Fin txs.length) Empty (Fin txs.length → TxPrecheck) :=
  .among (workersFor cpus txs.length) (List.finRange txs.length) (fun _ => none) (checkAt W ctx txs) (fun _ => {})
    (Nat.zero_lt_of_lt h) (List.length_finRange ▸ Nat.zero_lt_of_lt (h.trans_le (workersFor_le _ _)))

/-- What `precheckTxsParallel` may return, with the calls of `check` it made in their order. -/
inductive PrecheckTxsParallel : List (Fin txs.length) → (Fin txs.length → TxPrecheck) → Prop
  | empty (h : txs = []) : PrecheckTxsParallel [] fun _ => {}
  | serial (hne : txs ≠ []) (h : workersFor cpus txs.length ≤ 1) :
      PrecheckTxsParallel (List.finRange txs.length)
        ((List.finRange txs.length).foldl (fun results i => checkAt W ctx txs i results) fun _ => {})
  | pooled (h : 1 < workersFor cpus txs.length) {s : Pool.State (Fin txs.length) Empty (Fin txs.length → TxPrecheck)}
      (hs : (precheckPool W ctx cpus txs h).Reach s) (hm : s.main = .waited) : PrecheckTxsParallel s.log s.memory

variable {W ctx cpus txs} {calls : List (Fin txs.length)} {results : Fin txs.length → TxPrecheck}

theorem precheckTxsParallel_calls (h : PrecheckTxsParallel W ctx cpus txs calls results) :
    calls.Perm (List.finRange txs.length) ∧
      results = calls.foldl (fun results i => checkAt W ctx txs i results) fun _ => {} := by
  cases h with
  | empty h =>
    subst h
    exact ⟨.refl _, rfl⟩
  | serial hne h => exact ⟨.refl _, rfl⟩
  | pooled h hs hm => exact ⟨Pool.each_once hs hm fun _ _ => rfl, hs.sound.memory⟩

theorem precheckTxsParallel_cell (h : PrecheckTxsParallel W ctx cpus txs calls results) (i : Fin txs.length) :
    results i = check W ctx (txs.get i) {} := by
  obtain ⟨hperm, rfl⟩ := precheckTxsParallel_calls h
  have hnodup : calls.Nodup := hperm.nodup_iff.mpr (List.nodup_finRange _)
  have hmem : i ∈ calls := hperm.mem_iff.mpr (List.mem_finRange i)
  exact (foldl_update (fun j => check W ctx (txs.get j)) _ hnodup i).trans (if_pos hmem)

theorem precheckTxsParallel_returns (W : World) (ctx : BlockCtx) (cpus : Nat) (txs : List Tx) :
    ∃ calls results, PrecheckTxsParallel W ctx cpus txs calls results := by
  by_cases hne : txs = []
  · exact ⟨_, _, .empty hne⟩
  · by_cases hw : workersFor cpus txs.length ≤ 1
    · exact ⟨_, _, .serial hne hw⟩
    · obtain ⟨s, hs, hm⟩ := (precheckPool W ctx cpus txs (not_le.mp hw)).exists_waited
      exact ⟨_, _, .pooled (not_le.mp hw) hs hm⟩

/-! ## The checks inside the transaction loop -/

theorem bind_return_error {x : Res Unit} : (x >>= fun _ => (return 0 : Res Key)).error = x.error ∧
    (x >>= fun _ => (return 0 : Res Key)).toOption.getD 0 = 0 := by
  cases x <;> exact ⟨rfl, rfl⟩

/-- The cell `check` fills is the result of `precheck`, which `applyTx` asks for. -/
theorem check_precheck (W : World) (ctx : BlockCtx) (t : Tx) :
    check W ctx t {} = ⟨(precheck W ctx t).error, (precheck W ctx t).toOption.getD 0⟩ := by
  unfold check precheck
  cases t.type with
  | transfer | contractDeploy | contractCall | other => rfl
  | bond | unbond | finalizeUnbond | claimRewards | missEvidence =>
    dsimp only
    rw [bind_return_error.1, bind_return_error.2]
  | equivEvidence =>
    dsimp only [validateZeroValueTx]
    by_cases hzero : t.value = some 0
    · rw [Go.check_pos hzero]
      rfl
    · rw [Go.check_neg hzero]
      rfl

theorem skipProposer_panics (P : Prim) (prevStateRoot : Hash) (height : UInt64) (validators : List Key)
    (skipCount : UInt32) : (skipProposer P prevStateRoot height validators skipCount).panics = false := by
  by_cases hne : validators = []
  · unfold skipProposer
    rw [if_pos hne]
    rfl
  · obtain ⟨k, -, hk⟩ := skipProposer_mem (P := P) prevStateRoot height hne skipCount
    rw [hk]
    rfl

theorem within_panics {msg : String} {x : Res EvidenceVote} (h : x.panics = false) : (within msg x).panics = false := by
  cases x with
  | ok v => rfl
  | err e => rfl
  | panic w => exact h

/-- Every field of a vote ends within the 141 bytes. -/
theorem deserializeEvidenceVote_panics (data : List UInt8) : (deserializeEvidenceVote data).panics = false := by
  refine Go.panics_bind Go.panics_check fun _ hlen => ?_
  have hlen := Go.check_eq_ok.mp hlen
  obtain ⟨type, htype⟩ : ∃ x, (byteAt data 0 : Res UInt8) = .ok x := byteAt_ok (by omega)
  rw [htype, Go.ok_bind]
  refine Go.panics_bind (uintIn_panics (by omega) (by omega)) fun _ _ => ?_
  refine Go.panics_bind (uintIn_panics (by omega) (by omega)) fun _ _ => ?_
  refine Go.panics_bind (slice_panics.mpr ⟨by omega, by omega⟩) fun _ _ => ?_
  refine Go.panics_bind (slice_panics.mpr ⟨by omega, by omega⟩) fun _ _ => ?_
  exact Go.panics_bind (slice_panics.mpr ⟨by omega, by omega⟩) fun _ _ => rfl

theorem validateEquivocationEvidenceTx_panics (W : World) (t : Tx) (chainID : List UInt8) :
    (validateEquivocationEvidenceTx W t chainID).panics = false := by
  refine Go.panics_bind Go.panics_check fun _ _ => Go.panics_bind Go.panics_check fun _ _ => ?_
  refine Go.panics_bind (within_panics (deserializeEvidenceVote_panics _)) fun _ _ => ?_
  refine Go.panics_bind (within_panics (deserializeEvidenceVote_panics _)) fun _ _ => ?_
  refine Go.panics_bind Go.panics_check fun _ _ => Go.panics_bind Go.panics_check fun _ _ => ?_
  refine Go.panics_bind Go.panics_check fun _ _ => Go.panics_bind Go.panics_check fun _ _ => ?_
  exact Go.panics_bind Go.panics_check fun _ _ => rfl

theorem validateMissEvidenceTx_panics (W : World) (t : Tx) (height : UInt64) (prevStateRoot : Hash)
    (validators : List Key) : (validateMissEvidenceTx W t height prevStateRoot validators).panics = false := by
  refine Go.panics_bind Go.panics_check fun _ _ => Go.panics_bind Go.panics_check fun _ _ => ?_
  refine Go.panics_bind Go.panics_check fun _ _ => Go.panics_bind Go.panics_check fun _ _ => ?_
  refine Go.panics_bind (skipProposer_panics _ _ _ _ _) fun _ _ => Go.panics_bind Go.panics_check fun _ _ => ?_
  exact Go.panics_bind (skipProposer_panics _ _ _ _ _) fun _ _ => Go.panics_check

theorem precheck_panics (W : World) (ctx : BlockCtx) (t : Tx) : (precheck W ctx t).panics = false := by
  unfold precheck
  cases t.type with
  | transfer | contractDeploy | contractCall | other => rfl
  | bond =>
    refine Go.panics_bind ?_ fun _ _ => rfl
    exact Go.panics_bind Go.panics_check fun _ _ => Go.panics_bind Go.panics_check fun _ _ => Go.panics_check
  | unbond | finalizeUnbond | claimRewards =>
    refine Go.panics_bind ?_ fun _ _ => rfl
    refine Go.panics_bind Go.panics_check fun _ _ => Go.panics_bind Go.panics_check fun _ _ => ?_
    exact Go.panics_bind Go.panics_check fun _ _ => Go.panics_check
  | equivEvidence =>
    exact Go.panics_bind Go.panics_check fun _ _ => validateEquivocationEvidenceTx_panics W t ctx.chainID
  | missEvidence => exact Go.panics_bind (validateMissEvidenceTx_panics W t _ _ _) fun _ _ => rfl

/-- The workers have no `recover`: neither check panics, on any transaction. -/
theorem workers_never_panic (W : World) (ctx : BlockCtx) (t : Tx) :
    (verifySigsForChain W.toPrim t ctx.chainID).panics = false ∧ (precheck W ctx t).panics = false :=
  ⟨verifySigsForChain_panics t ctx.chainID, precheck_panics W ctx t⟩

end Prechecks

/-! ## Both calls -/

/-- For every number of CPUs and every schedule both calls end, and they return what checking
    the transactions one by one returns. -/
theorem parallel_as_serial (W : World) (ctx : BlockCtx) (cpus : Nat) (txs : List Tx) :
    ((∀ h, (sigPool W.toPrim cpus txs ctx.chainID h).Terminates) ∧
      (∃ r, VerifyTxSigsParallel W.toPrim cpus txs ctx.chainID r) ∧
      ∀ r, VerifyTxSigsParallel W.toPrim cpus txs ctx.chainID r →
        (r = none ↔ ∀ t ∈ txs, verifySigsForChain W.toPrim t ctx.chainID = .ok ()) ∧
        ∀ e, r = some e → ∃ t ∈ txs, verifySigsForChain W.toPrim t ctx.chainID = .err e) ∧
    ((∀ h, (precheckPool W ctx cpus txs h).Terminates) ∧
      (∃ calls results, PrecheckTxsParallel W ctx cpus txs calls results) ∧
      ∀ calls results, PrecheckTxsParallel W ctx cpus txs calls results →
        calls.Perm (List.finRange txs.length) ∧ ∀ i, results i = check W ctx (txs.get i) {}) := by
  refine ⟨⟨fun h => Pool.terminates _, verifyTxSigsParallel_returns _ _ _ _, ?_⟩, fun h => Pool.terminates _,
    precheckTxsParallel_returns _ _ _ _, ?_⟩
  · intro r hr
    refine ⟨?_, fun e he => verifyTxSigsParallel_error hr he⟩
    rw [verifyTxSigsParallel_nil_iff hr, Go.forM_eq_ok]
  · intro calls results hr
    exact ⟨(precheckTxsParallel_calls hr).1, precheckTxsParallel_cell hr⟩

def signedOne : Tx := (Tx.plain .transfer 1 2 10 1).signed Prim.sample []
def unsignedOne : Tx := Tx.plain .transfer 2 1 10 1

def emptyCtx : BlockCtx :=
  { chainID := [], height := 1, prevStateRoot := 0, validators := [], baseFee := ⟨1, Nat.le_refl 1⟩ }

/-- A signed transaction and one without a signature, on two CPUs: every schedule ends, and
    with the error of the second. -/
theorem parallel_as_serial_unsigned :
    (sigPool Prim.sample 2 [signedOne, unsignedOne] [] (by decide)).Terminates ∧
    ∀ r, VerifyTxSigsParallel Prim.sample 2 [signedOne, unsignedOne] [] r →
      r = some (.rg .invalidSignature "sender signature verification failed") := by
  have hall := (parallel_as_serial World.sample emptyCtx 2 [signedOne, unsignedOne]).1
  have hgood : verifySigsForChain World.sample.toPrim signedOne [] = .ok () := by decide +kernel
  have hbad : verifySigsForChain World.sample.toPrim unsignedOne [] =
      .err (.rg .invalidSignature "sender signature verification failed") := by decide +kernel
  refine ⟨hall.1 (by decide), fun r hr => ?_⟩
  obtain ⟨hnil, herr⟩ := hall.2.2 r hr
  cases r with
  | none =>
    have hok := hnil.mp rfl unsignedOne (by simp)
    cases hbad.symm.trans hok
  | some e =>
    obtain ⟨t, ht, he⟩ := herr e rfl
    simp only [List.mem_cons, List.not_mem_nil, or_false] at ht
    rcases ht with rfl | rfl
    · cases hgood.symm.trans he
    · cases hbad.symm.trans he
      rfl

end Frg.Chain
