/-
  Frg.Chain.Staking — the validator records (`core/staking/staking.go`), the fee market
  and reward accounts (`core/gas/gas.go`, `core/mint/mint.go`) and the proposer election
  (`core/leader/leader.go`), inside a bolt transaction.

  A record of state 0 is never written, so the model has none. What is proved:

    - `bondTx_ok`, `unbondTx_ok`, `finalizeTx_ok`, `slashTx_ok`, `recordMissTx_ok`: what each
      operation on a record found and what it left.
    - `splitReward_sum`: the shares of a block reward add up to it.
    - `Record.miss_ne`: one more miss always changes the miss counter.
    - `bondedAmounts_nodup`: no validator is listed twice.
-/

import Frg.Chain.Ledger
import Mathlib.Data.List.Sort

namespace Frg.Chain

open Frg.Lib Frg.Core Frg.Wire

def minBondAmount : Int := 1000 * 10 ^ 18
def unbondingBlocks : UInt64 := 1000
def missThreshold : UInt64 := 5
def slashPercent : Nat := 10

variable (P : Prim)

def escrowAccount (validator : Key) : Key := P.hash (domainStakingEscrow ++ validator.bytes)

def feeAccount (validator : Key) : Key := P.hash (domainGasFee ++ validator.bytes)

/-! ## Validator records -/

def getRecord (validator : Key) : M (Option Record) := Act.read fun db => db.validators.get validator

def putRecord (validator : Key) (r : Record) : M Unit :=
  Act.write fun db => { db with validators := db.validators.put validator r }

def deleteRecord (validator : Key) : M Unit :=
  Act.write fun db => { db with validators := db.validators.delete validator }

/-- The record of a new bond. -/
def Record.fresh (amount : Nat) (currentBlock : UInt64) : Record :=
  { state := .bonded, bondedAmount := amount, bondedAtBlock := currentBlock, unbondingAtBlock := 0, missCount := 0 }

def bondTx (validator : Key) (amount : Option Int) (currentBlock : UInt64) : M Unit :=
  match amount with
  | none => Act.fail (.rg .bondBelowMinimum "bond amount below minimum")
  | some amount => do
    Act.check (minBondAmount ≤ amount) (.rg .bondBelowMinimum "bond amount below minimum")
    let rec? ← getRecord validator
    Act.check (rec? = none) (.rg .alreadyBonded "validator already bonded")
    moveTx validator (escrowAccount P validator) amount
    putRecord validator (.fresh amount.toNat currentBlock)

def unbondTx (validator : Key) (currentBlock : UInt64) : M Unit := do
  match ← getRecord validator with
  | none => Act.fail (.rg .notBonded "validator not bonded")
  | some r =>
    Act.check (r.state ≠ .unbonding) (.rg .unbondingPending "unbonding already in progress")
    putRecord validator { r with state := .unbonding, unbondingAtBlock := currentBlock }

/-- A no-op before the lockup is over. -/
def finalizeTx (validator : Key) (currentBlock : UInt64) : M Unit := do
  match ← getRecord validator with
  | none => pure ()
  | some r =>
    if r.state ≠ .unbonding ∨ currentBlock < r.unbondingAtBlock + unbondingBlocks then pure ()
    else do
      moveTx (escrowAccount P validator) validator r.bondedAmount
      deleteRecord validator

/-- Burns the whole bond of a validator and returns it. -/
def slashTx (validator : Key) : M Nat := do
  match ← getRecord validator with
  | none => Act.fail (.rg .notBonded "validator not bonded")
  | some r =>
    burnTx (escrowAccount P validator) r.bondedAmount
    deleteRecord validator
    pure r.bondedAmount

/-- One more miss: the record after it and the amount slashed. -/
def Record.miss (r : Record) : Record × Nat :=
  if missThreshold ≤ r.missCount + 1 then
    let slashAmount := r.bondedAmount * slashPercent / 100
    ({ r with bondedAmount := r.bondedAmount - slashAmount, missCount := 0 }, slashAmount)
  else ({ r with missCount := r.missCount + 1 }, 0)

def recordMissTx (validator : Key) : M Nat := do
  match ← getRecord validator with
  | none => Act.fail (.rg .notBonded "validator not bonded")
  | some r =>
    putRecord validator r.miss.1
    log (.miss validator)
    pure r.miss.2

/-- The bonded validators with their amounts, in the order of the bucket walk. -/
def bondedAmounts (db : DB) : List (Key × Nat) :=
  db.validators.entries.filterMap fun (k, r) => if r.state = .bonded then some (k, r.bondedAmount) else none

/-! ## Fees and rewards -/

def targetGasPerBlock : Nat := 32768
def maxAdjustmentDenominator : Nat := 8

/-- `gas.BaseFee` on the previous fee and the gas of the block. -/
def nextBaseFee (prev : Fee) (gasUsed : UInt64) : Fee :=
  let gasUsed := gasUsed.toNat
  let next : Nat :=
    if targetGasPerBlock < gasUsed then
      prev.val + prev.val * (gasUsed - targetGasPerBlock) / targetGasPerBlock / maxAdjustmentDenominator
    else if gasUsed < targetGasPerBlock then
      prev.val - prev.val * (targetGasPerBlock - gasUsed) / targetGasPerBlock / maxAdjustmentDenominator
    else prev.val
  ⟨max next 1, le_max_right _ _⟩

/-- `currentBaseFee`: one before the first block. -/
def currentBaseFee (db : DB) : Fee := db.baseFee.getD ⟨1, le_rfl⟩

/-- `gas.ClaimTx`: a no-op when nothing is pending. -/
def claimTx (validator : Key) : M Unit := do
  let bal ← balanceOfTx (feeAccount P validator)
  if bal = 0 then pure () else moveTx (feeAccount P validator) validator bal

def targetStakingRatioPct : Int := 50
def maxAnnualRatePct : Int := 10
def blocksPerYear : Int := 5256000

def mintPerBlock (totalSupply totalStaked : Int) : Int :=
  if totalSupply ≤ 0 then 0
  else
    let targetStaked := totalSupply * targetStakingRatioPct / 100
    if targetStaked = 0 ∨ targetStaked ≤ totalStaked then 0
    else
      let maxPerBlock := totalSupply * maxAnnualRatePct / 100 / blocksPerYear
      maxPerBlock * (targetStaked - totalStaked) / targetStaked

/-- The remainder goes to the first validator. -/
def splitReward (blockReward : Int) (validatorCount : Nat) : List Int :=
  if blockReward ≤ 0 then List.replicate validatorCount 0
  else
    let share := blockReward / validatorCount
    match validatorCount with
    | 0 => []
    | n + 1 => (share + (blockReward - share * (n + 1 : Nat))) :: List.replicate n share

/-! ## Proposer election -/

def computeSeed (prevStateRoot : Hash) (blockHeight : UInt64) : Hash :=
  P.hash (prevStateRoot.bytes ++ u64 blockHeight.toNat)

def skipProposer (prevStateRoot : Hash) (blockHeight : UInt64) (validators : List Key) (skipCount : UInt32) : Res Key :=
  if validators = [] then .err (.rg .emptyValidatorSet "validator set is empty")
  else
    let sorted := validators.insertionSort (· ≤ ·)
    let base := ofBE ((computeSeed P prevStateRoot blockHeight).bytes.take 8)
    let n := sorted.length
    match sorted[(base % n + skipCount.toNat) % n]? with
    | some k => .ok k
    | none => .panic "index out of range"

/-! ## What a successful operation did -/

section

variable {P : Prim} {v : Key} {height : UInt64} {db db' : DB} {u : Unit}

theorem bondTx_ok {amount : Option Int} (h : bondTx P v amount height db = (.ok u, db')) :
    ∃ n d1, minBondAmount ≤ n ∧ db.validators.get v = none ∧ moveTx v (escrowAccount P v) n db = (.ok (), d1) ∧
      putRecord v (.fresh n.toNat height) d1 = (.ok (), db') := by
  unfold bondTx at h
  split at h
  · exact absurd h Act.fail_ok
  obtain ⟨_, d1, h1, h⟩ := Act.bind_ok.mp h
  obtain ⟨hmin, rfl⟩ := Act.check_ok.mp h1
  obtain ⟨_, d1, h1, h⟩ := Act.bind_ok.mp h
  obtain ⟨rfl, rfl⟩ := Act.read_ok.mp h1
  obtain ⟨_, d1, h1, h⟩ := Act.bind_ok.mp h
  obtain ⟨hnone, rfl⟩ := Act.check_ok.mp h1
  obtain ⟨_, d1, hmove, h⟩ := Act.bind_ok.mp h
  exact ⟨_, d1, hmin, hnone, hmove, h⟩

theorem unbondTx_ok (h : unbondTx v height db = (.ok u, db')) :
    ∃ r, db.validators.get v = some r ∧ r.state = .bonded ∧
      putRecord v { r with state := .unbonding, unbondingAtBlock := height } db = (.ok (), db') := by
  obtain ⟨rec?, d1, h1, h⟩ := Act.bind_ok.mp h
  obtain ⟨rfl, rfl⟩ := Act.read_ok.mp h1
  cases hr : db.validators.get v with
  | none =>
    rw [hr] at h
    exact absurd h Act.fail_ok
  | some r =>
    rw [hr] at h
    obtain ⟨_, d1, h1, h⟩ := Act.bind_ok.mp h
    obtain ⟨hs, rfl⟩ := Act.check_ok.mp h1
    refine ⟨r, rfl, ?_, h⟩
    cases hst : r.state with
    | bonded => rfl
    | unbonding => exact absurd hst hs

theorem finalizeTx_ok (h : finalizeTx P v height db = (.ok u, db')) :
    db' = db ∨ ∃ r d1, db.validators.get v = some r ∧ r.state = .unbonding ∧
      r.unbondingAtBlock + unbondingBlocks ≤ height ∧ moveTx (escrowAccount P v) v r.bondedAmount db = (.ok (), d1) ∧
      deleteRecord v d1 = (.ok (), db') := by
  obtain ⟨rec?, d1, h1, h⟩ := Act.bind_ok.mp h
  obtain ⟨rfl, rfl⟩ := Act.read_ok.mp h1
  cases hr : db.validators.get v with
  | none =>
    rw [hr] at h
    exact .inl (Act.pure_ok.mp h).2.symm
  | some r =>
    rw [hr] at h
    dsimp only at h
    split at h
    · exact .inl (Act.pure_ok.mp h).2.symm
    · rename_i hdue
      obtain ⟨hstate, hdue⟩ := not_or.mp hdue
      obtain ⟨_, d1, hmove, h⟩ := Act.bind_ok.mp h
      exact .inr ⟨r, d1, rfl, not_not.mp hstate, UInt64.not_lt.mp hdue, hmove, h⟩

theorem slashTx_ok {n : Nat} (h : slashTx P v db = (.ok n, db')) :
    ∃ r d1, db.validators.get v = some r ∧ n = r.bondedAmount ∧
      burnTx (escrowAccount P v) r.bondedAmount db = (.ok (), d1) ∧ deleteRecord v d1 = (.ok (), db') := by
  obtain ⟨rec?, d1, h1, h⟩ := Act.bind_ok.mp h
  obtain ⟨rfl, rfl⟩ := Act.read_ok.mp h1
  cases hr : db.validators.get v with
  | none =>
    rw [hr] at h
    exact absurd h Act.fail_ok
  | some r =>
    rw [hr] at h
    obtain ⟨_, d1, hburn, h⟩ := Act.bind_ok.mp h
    obtain ⟨_, d2, hdel, h⟩ := Act.bind_ok.mp h
    obtain ⟨rfl, rfl⟩ := Act.pure_ok.mp h
    exact ⟨r, d1, rfl, rfl, hburn, hdel⟩

theorem recordMissTx_ok {n : Nat} (h : recordMissTx v db = (.ok n, db')) :
    ∃ r, db.validators.get v = some r ∧ n = r.miss.2 ∧
      db' = ({ db with validators := db.validators.put v r.miss.1 } : DB).logged (.miss v) := by
  obtain ⟨rec?, d1, h1, h⟩ := Act.bind_ok.mp h
  obtain ⟨rfl, rfl⟩ := Act.read_ok.mp h1
  cases hr : db.validators.get v with
  | none =>
    rw [hr] at h
    exact absurd h Act.fail_ok
  | some r =>
    rw [hr] at h
    obtain ⟨_, d1, h1, h⟩ := Act.bind_ok.mp h
    obtain rfl := Act.write_ok.mp h1
    obtain ⟨_, d2, h2, h⟩ := Act.bind_ok.mp h
    obtain rfl := Act.write_ok.mp h2
    obtain ⟨rfl, rfl⟩ := Act.pure_ok.mp h
    exact ⟨r, rfl, rfl, rfl⟩

end

/-! ## Facts -/

theorem bondedAmounts_nodup (db : DB) : ((bondedAmounts db).map (·.1)).Nodup := by
  have hsub : ((bondedAmounts db).map (·.1)).Sublist (db.validators.entries.map (·.1)) := by
    unfold bondedAmounts
    induction db.validators.entries with
    | nil => exact List.Sublist.slnil
    | cons x l ih =>
      obtain ⟨k, r⟩ := x
      by_cases hr : r.state = .bonded
      · simpa [List.filterMap_cons, hr] using ih
      · simpa [List.filterMap_cons, hr] using ih.cons k
  exact db.validators.keys_nodup.sublist hsub

theorem skipProposer_mem (prevStateRoot : Hash) (blockHeight : UInt64) {validators : List Key} (hne : validators ≠ [])
    (skipCount : UInt32) : ∃ k ∈ validators, skipProposer P prevStateRoot blockHeight validators skipCount = .ok k := by
  have hpos : 0 < (validators.insertionSort (· ≤ ·)).length := by
    rw [List.length_insertionSort]
    exact List.length_pos_iff.mpr hne
  unfold skipProposer
  rw [if_neg hne]
  dsimp only
  rw [List.getElem?_eq_getElem (Nat.mod_lt _ hpos)]
  exact ⟨_, (List.mem_insertionSort (· ≤ ·)).mp (List.getElem_mem _), rfl⟩

theorem mintPerBlock_nonneg (supply staked : Int) : 0 ≤ mintPerBlock supply staked := by
  unfold mintPerBlock
  split
  · exact le_rfl
  · rename_i hs
    dsimp only
    split
    · exact le_rfl
    · rename_i ht
      obtain ⟨-, ht⟩ := not_or.mp ht
      have hmax : 0 ≤ supply * maxAnnualRatePct / 100 / blocksPerYear := by
        unfold maxAnnualRatePct blocksPerYear
        omega
      have htarget : 0 ≤ supply * targetStakingRatioPct / 100 := by
        unfold targetStakingRatioPct
        omega
      exact Int.ediv_nonneg (mul_nonneg hmax (by omega)) htarget

theorem splitReward_sum {reward : Int} {n : Nat} (h0 : 0 ≤ reward) (hn : n = 0 → reward = 0) :
    (splitReward reward n).sum = reward := by
  unfold splitReward
  split
  · simp; omega
  · dsimp only
    cases n with
    | zero => exact absurd (hn rfl) (by omega)
    | succ n =>
      simp only [List.sum_cons, List.sum_replicate, nsmul_eq_mul]
      push_cast
      ring

theorem splitReward_nonneg (reward : Int) (n : Nat) : ∀ s ∈ splitReward reward n, 0 ≤ s := by
  intro s hs
  unfold splitReward at hs
  split at hs
  · exact (List.eq_of_mem_replicate hs).ge
  · rename_i hr
    cases n with
    | zero => exact absurd hs List.not_mem_nil
    | succ n =>
      have hshare : 0 ≤ reward / ((n + 1 : Nat) : Int) := Int.ediv_nonneg (by omega) (by omega)
      have hrest := Int.ediv_mul_le reward (show ((n + 1 : Nat) : Int) ≠ 0 by omega)
      rcases List.mem_cons.mp hs with rfl | hs
      · omega
      · exact List.eq_of_mem_replicate hs ▸ hshare

theorem length_splitReward (reward : Int) (n : Nat) : (splitReward reward n).length = n := by
  unfold splitReward
  split
  · simp
  · cases n <;> simp

theorem Record.miss_ne (r : Record) : r.miss.1.missCount ≠ r.missCount := by
  unfold Record.miss
  split
  · rename_i h
    dsimp only
    intro e
    rw [← e] at h
    exact absurd h (by decide)
  · dsimp only
    intro e
    have h1 := congrArg UInt64.toNat e
    rw [UInt64.toNat_add] at h1
    have := r.missCount.toNat_lt
    have h2 : (1 : UInt64).toNat = 1 := rfl
    omega

end Frg.Chain
