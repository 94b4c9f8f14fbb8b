/-
  Frg.Chain.BaseFee — how the base fee follows the gas of the blocks.

  `gas.BaseFee` multiplies the fee with the distance between the gas of the block and the
  target, divides by the target and then by eight, and adds or takes away what is left.
  `ApplyBlockForChain` calls it with the fee the block was charged at and the gas it has
  counted. Below the target the distance is at most the target itself. Above it nothing bounds
  the distance, since a contract adds its fuel; and both divisions round down, so a small fee
  stays where it is.

    - `fee_within_eighth_iff`: the fee moves by at most an eighth exactly when the gas is in
      reach of it (`GasInReach`), and `fuel_doubles_fee` is a block with gas out of reach.
    - `transfers_in_reach`: what does not run contracts is in reach.
    - `congestion_raises_iff`: gas above the target raises the fee exactly when their product
      is large enough, and `full_block_keeps_fee` is a full block that leaves the fee at one.
    - `base_fee_ordered`: the next fee is monotone in the fee and the gas, along whole histories.
-/

import Frg.Chain.BlockStore
import Frg.Chain.Calls
import Frg.Chain.Supply

namespace Frg.Chain

open Frg.Lib Frg.Core Frg.Wire Frg.Contract Frg.RG Act

/-! ## One adjustment -/

/-- What the two divisions leave of a fee and a distance from the target. -/
def feeStep (fee distance : Nat) : Nat := fee * distance / targetGasPerBlock / maxAdjustmentDenominator

theorem feeStep_eq (p d : Nat) : feeStep p d = p * d / (targetGasPerBlock * 8) := Nat.div_div_eq_div_mul _ _ _

@[simp] theorem feeStep_zero (p : Nat) : feeStep p 0 = 0 := by
  simp [feeStep]

theorem feeStep_mono {p q d e : Nat} (hp : p ≤ q) (hd : d ≤ e) : feeStep p d ≤ feeStep q e := by
  rw [feeStep_eq, feeStep_eq]
  apply Nat.div_le_div_right
  exact Nat.mul_le_mul hp hd

theorem feeStep_add_le {p d : Nat} (k : Nat) (hd : d ≤ targetGasPerBlock) : feeStep (p + k) d ≤ feeStep p d + k := by
  have hpos : 0 < targetGasPerBlock * 8 := by decide
  have hd8 : d ≤ targetGasPerBlock * 8 := by omega
  rw [feeStep_eq, feeStep_eq]
  calc (p + k) * d / (targetGasPerBlock * 8)
      ≤ (p * d + targetGasPerBlock * 8 * k) / (targetGasPerBlock * 8) := by
        apply Nat.div_le_div_right
        rw [Nat.add_mul, Nat.mul_comm (targetGasPerBlock * 8) k]
        exact Nat.add_le_add_left (Nat.mul_le_mul_left k hd8) _
    _ = p * d / (targetGasPerBlock * 8) + k := Nat.add_mul_div_left _ _ hpos

theorem feeStep_le {p d : Nat} (hd : d ≤ targetGasPerBlock) : 8 * feeStep p d ≤ p := by
  have hmul : p * d / targetGasPerBlock ≤ p := by
    apply Nat.div_le_of_le_mul
    rw [Nat.mul_comm]
    exact Nat.mul_le_mul_right p hd
  have heighth := Nat.mul_div_le (p * d / targetGasPerBlock) 8
  have hstep : feeStep p d = p * d / targetGasPerBlock / 8 := rfl
  omega

/-- The clamp at one never acts: what is taken away is less than the fee. -/
theorem nextBaseFee_val (p : Fee) (g : UInt64) : (nextBaseFee p g).val =
    if targetGasPerBlock < g.toNat then p.val + feeStep p.val (g.toNat - targetGasPerBlock)
    else p.val - feeStep p.val (targetGasPerBlock - g.toNat) := by
  have hp := p.pos
  have hle := feeStep_le (p := p.val) (Nat.sub_le targetGasPerBlock g.toNat)
  unfold nextBaseFee
  dsimp only
  by_cases habove : targetGasPerBlock < g.toNat
  · rw [if_pos habove, if_pos habove]
    exact max_eq_left (le_trans hp (Nat.le_add_right _ _))
  · rw [if_neg habove, if_neg habove]
    by_cases hbelow : g.toNat < targetGasPerBlock
    · rw [if_pos hbelow]
      exact max_eq_left (show 1 ≤ p.val - feeStep p.val (targetGasPerBlock - g.toNat) by omega)
    · rw [if_neg hbelow, show targetGasPerBlock - g.toNat = 0 by omega, feeStep_zero]
      exact max_eq_left (by omega)

/-! ## How far a fee moves -/

/-- The next fee is the fee moved by at most an eighth, and one if that is below one. -/
def MovesAtMostEighth (p n : Fee) : Prop := ∃ m : Int, 8 * |m - p.val| ≤ p.val ∧ (n.val : Int) = max m 1

theorem movesAtMostEighth_iff {p n : Fee} : MovesAtMostEighth p n ↔ 8 * |(n.val : Int) - p.val| ≤ p.val := by
  have hp := p.pos
  have hn := n.pos
  constructor
  · intro h
    obtain ⟨m, hm, heq⟩ := h
    -- an eighth of the fee leaves at least one
    have hone : 1 ≤ m := by
      have habs := neg_abs_le (m - p.val : Int)
      omega
    rwa [heq, max_eq_left hone]
  · intro h
    exact ⟨n.val, h, (max_eq_left (by omega)).symm⟩

/-- The gas does not exceed the target by so much that the fee moves by more than an eighth. -/
def GasInReach (p : Fee) (g : UInt64) : Prop :=
  g.toNat ≤ targetGasPerBlock ∨ p.val * (g.toNat - targetGasPerBlock) < 8 * targetGasPerBlock * (p.val / 8 + 1)

theorem nextBaseFee_within_iff (p : Fee) (g : UInt64) : MovesAtMostEighth p (nextBaseFee p g) ↔ GasInReach p g := by
  rw [movesAtMostEighth_iff, nextBaseFee_val, GasInReach]
  by_cases habove : targetGasPerBlock < g.toNat
  · have hstep : feeStep p.val (g.toNat - targetGasPerBlock) < p.val / 8 + 1 ↔
        p.val * (g.toNat - targetGasPerBlock) < 8 * targetGasPerBlock * (p.val / 8 + 1) := by
      rw [feeStep_eq, Nat.div_lt_iff_lt_mul (by decide), Nat.mul_comm (p.val / 8 + 1), Nat.mul_comm 8]
    rw [if_pos habove, or_iff_right (by omega), ← hstep]
    push_cast
    rw [add_sub_cancel_left, abs_of_nonneg (Int.natCast_nonneg _)]
    omega
  · have hle := feeStep_le (p := p.val) (Nat.sub_le targetGasPerBlock g.toNat)
    rw [if_neg habove, iff_true_right (Or.inl (by omega)), Nat.cast_sub (by omega), sub_sub_cancel_left, abs_neg,
      abs_of_nonneg (Int.natCast_nonneg _)]
    omega

theorem gasInReach_of_le (p : Fee) {g : UInt64} (hg : g.toNat ≤ 2 * targetGasPerBlock) : GasInReach p g := by
  by_cases hle : g.toNat ≤ targetGasPerBlock
  · exact Or.inl hle
  · have hdist : g.toNat - targetGasPerBlock ≤ targetGasPerBlock := by omega
    have hfee : p.val < 8 * (p.val / 8 + 1) := by omega
    refine Or.inr ?_
    calc p.val * (g.toNat - targetGasPerBlock)
        ≤ p.val * targetGasPerBlock := Nat.mul_le_mul_left _ hdist
      _ < 8 * (p.val / 8 + 1) * targetGasPerBlock := Nat.mul_lt_mul_of_pos_right hfee (by decide)
      _ = 8 * targetGasPerBlock * (p.val / 8 + 1) := by ring

/-! ## When a fee rises -/

/-- The gas exceeds the target by enough to move the fee. -/
def GasMoves (p : Fee) (g : UInt64) : Prop := 8 * targetGasPerBlock ≤ p.val * (g.toNat - targetGasPerBlock)

theorem lt_nextBaseFee_iff (p : Fee) {g : UInt64} (hg : targetGasPerBlock < g.toNat) :
    p.val < (nextBaseFee p g).val ↔ GasMoves p g := by
  have hstep : 1 ≤ feeStep p.val (g.toNat - targetGasPerBlock) ↔ GasMoves p g := by
    rw [feeStep_eq, Nat.le_div_iff_mul_le (by decide), GasMoves, Nat.one_mul, Nat.mul_comm 8]
  rw [nextBaseFee_val, if_pos hg, ← hstep]
  omega

/-! ## Larger fees and heavier blocks -/

theorem nextBaseFee_mono {p q : Fee} {g h : UInt64} (hp : p.val ≤ q.val) (hg : g ≤ h) :
    (nextBaseFee p g).val ≤ (nextBaseFee q h).val := by
  have hle : g.toNat ≤ h.toNat := UInt64.le_iff_toNat_le.mp hg
  rw [nextBaseFee_val, nextBaseFee_val]
  by_cases habove : targetGasPerBlock < g.toNat
  · have hrise := feeStep_mono hp (Nat.sub_le_sub_right hle targetGasPerBlock)
    rw [if_pos habove, if_pos (by omega)]
    omega
  · rw [if_neg habove]
    by_cases habove' : targetGasPerBlock < h.toNat
    · rw [if_pos habove']
      omega
    · -- the larger fee at the smaller gas stands between the two
      obtain ⟨k, hk⟩ := Nat.exists_eq_add_of_le hp
      have hfee := feeStep_add_le (p := p.val) k (Nat.sub_le targetGasPerBlock g.toNat)
      have hgas := feeStep_mono (le_refl q.val) (Nat.sub_le_sub_left hle targetGasPerBlock)
      rw [if_neg habove', hk]
      rw [hk] at hgas
      omega

/-! ## The fee behind an accepted block -/

section

variable {W : World} {order : MapOrder} {pre post : DB} {b : Block} {chainID : List UInt8} {r : Result}

/-- The gas `ApplyBlockForChain` counts for a block, in 64 bits. -/
def recordedGas (W : World) (pre : DB) (b : Block) (chainID : List UInt8) : UInt64 := .ofNat (blockGas W pre b chainID)

theorem BlockRun.totalGas_recorded (run : BlockRun W order pre b chainID post) :
    run.totalGas = recordedGas W pre b chainID := by
  apply UInt64.toNat_inj.mp
  rw [run.totals.2.2.2.2, recordedGas, UInt64.toNat_ofNat', blockGas, run.ranTxs]

theorem accepted_baseFee (h : applyBlockForChain W order pre b chainID = (.ok r, post)) :
    currentBaseFee post = nextBaseFee (currentBaseFee pre) (recordedGas W pre b chainID) := by
  obtain ⟨run, -⟩ := applyBlockForChain_ok h
  unfold currentBaseFee
  rw [run.fee, Option.getD_some, run.totalGas_recorded]
  rfl

/-- A transaction that runs no contract uses one unit, and a block has at most 65536 of them. -/
theorem transfers_in_reach (h : applyBlockForChain W order pre b chainID = (.ok r, post))
    (hplain : ∀ t ∈ b.txs, ¬ (t.type = .contractDeploy ∨ t.type = .contractCall)) :
    GasInReach (currentBaseFee pre) (recordedGas W pre b chainID) := by
  obtain ⟨run, -⟩ := applyBlockForChain_ok h
  obtain ⟨batch, hbatch, -⟩ := serializeBlock_ok.mp run.encoded
  have hcount : b.txs.length ≤ 65536 := blockBatch_length hbatch
  have hone : ∀ o ∈ run.outs, (gasUnits o).toNat = 1 := by
    intro o ho
    obtain ⟨t, ht, d, d', hrun⟩ := mem_of_mapM run.ranTxs ho
    rw [gasUnits, applyTx_fuel (hplain t ht) hrun]
    rfl
  have hsum : gasSum run.outs = run.outs.length := by
    unfold gasSum
    rw [List.map_congr_left hone, List.map_const', List.sum_replicate, smul_eq_mul, Nat.mul_one]
  have hlen : run.outs.length = b.txs.length := mapM_length run.ranTxs
  apply gasInReach_of_le
  rw [← run.totalGas_recorded, run.totals.2.2.2.2, hsum, hlen]
  exact le_trans (Nat.mod_le _ _) hcount

/-- The fee behind an accepted block is within an eighth of the fee it was charged at exactly
    when its gas is in reach of that fee. -/
theorem fee_within_eighth_iff (h : applyBlockForChain W order pre b chainID = (.ok r, post)) :
    MovesAtMostEighth (currentBaseFee pre) (currentBaseFee post) ↔
      GasInReach (currentBaseFee pre) (recordedGas W pre b chainID) := by
  rw [accepted_baseFee h]
  exact nextBaseFee_within_iff _ _

end

theorem fee_within_eighth_paid : MovesAtMostEighth (currentBaseFee genesisDB) (currentBaseFee (paid 2).2) := by
  obtain ⟨r, h⟩ := paid_accepted
  exact (fee_within_eighth_iff h).mpr (transfers_in_reach h (by decide))

/-- Every code is a module whose exports burn 300000 units of gas. -/
def burningWasm : Wasmtime where
  Module := List UInt8
  Instance := List UInt8
  newModule code := .ok code
  imports _ := []
  instantiate code fuel := .done code fuel
  getFunc _ _ := some fun fuel =>
    if fuel < 300000000 then .trap true "all fuel consumed by WebAssembly" else .done () (fuel - 300000000)

def burningWorld : World := { World.sample with wasm := burningWasm }

def burning : Block := Block.plain 1 [launching [1]]

def burntDB : DB := (applyBlockForChain burningWorld .id richestDB burning []).2

theorem burning_accepted : ∃ r, applyBlockForChain burningWorld .id richestDB burning [] = (.ok r, burntDB) :=
  Go.run_eq (by decide +kernel)

theorem burning_gas : recordedGas burningWorld richestDB burning [] = 300001 := by decide +kernel

theorem richestDB_fee : currentBaseFee richestDB = ⟨1, le_rfl⟩ := by decide +kernel

theorem burntDB_fee : (currentBaseFee burntDB).val = 2 := by
  obtain ⟨r, happ⟩ := burning_accepted
  rw [accepted_baseFee happ, burning_gas, richestDB_fee]
  rfl

theorem countsFuel_burning : CountsFuel burningWasm where
  start _ fuel := UInt64.le_refl fuel
  func _ _ run hrun fuel := by
    obtain rfl := Option.some.inj hrun
    by_cases hfuel : fuel < 300000000
    · simp only [if_pos hfuel]
      trivial
    · simp only [if_neg hfuel]
      show fuel - 300000000 ≤ fuel
      rw [UInt64.le_iff_toNat_le, UInt64.toNat_sub_of_le _ _ (UInt64.not_lt.mp hfuel)]
      exact Nat.sub_le _ _

/-- One deploy with 300000 units of contract gas takes the fee from one to two. -/
theorem fuel_doubles_fee : CountsFuel burningWorld.wasm ∧
    (applyBlockForChain burningWorld .id richestDB burning []).1.isOk = true ∧
    (currentBaseFee richestDB).val = 1 ∧ recordedGas burningWorld richestDB burning [] = 300001 ∧
    (currentBaseFee burntDB).val = 2 ∧ ¬ MovesAtMostEighth (currentBaseFee richestDB) (currentBaseFee burntDB) := by
  obtain ⟨r, happ⟩ := burning_accepted
  refine ⟨countsFuel_burning, by rw [happ]; rfl, by rw [richestDB_fee], burning_gas, burntDB_fee, ?_⟩
  rw [movesAtMostEighth_iff, richestDB_fee, burntDB_fee]
  decide

/-! ## Runs of blocks -/

/-- The gas counted for a block of a run. -/
def Applied.gas (W : World) (s : Applied) : UInt64 := recordedGas W s.pre s.block s.chainID

/-- The fees of a run, from the one its first block is charged at. -/
def feesOf (db : DB) (run : List Applied) : List Nat := (db :: run.map (·.post)).map fun d => (currentBaseFee d).val

theorem AcceptedRun.rises {W : World} {db : DB} {run : List Applied} (h : AcceptedRun W db run)
    (hmoves : ∀ s ∈ run, targetGasPerBlock < (s.gas W).toNat ∧ GasMoves (currentBaseFee s.pre) (s.gas W)) :
    (feesOf db run).IsChain (· < ·) := by
  induction h with
  | start db => exact .singleton _
  | block happ hrest ih =>
    obtain ⟨⟨hgas, hhead⟩, htail⟩ := List.forall_mem_cons.mp hmoves
    refine List.isChain_cons_cons.mpr ⟨?_, ih htail⟩
    dsimp only
    rw [accepted_baseFee happ]
    exact (lt_nextBaseFee_iff _ hgas).mpr hhead

/-- Gas above the target raises the fee exactly when it moves the fee, and in a run of blocks
    whose gas does, the fee rises with every block. -/
theorem congestion_raises_iff (p : Fee) {g : UInt64} (hg : targetGasPerBlock < g.toNat) :
    (p.val < (nextBaseFee p g).val ↔ GasMoves p g) ∧
    ∀ {W : World} {db : DB} {run : List Applied}, AcceptedRun W db run →
      (∀ s ∈ run, targetGasPerBlock < (s.gas W).toNat ∧ GasMoves (currentBaseFee s.pre) (s.gas W)) →
      (feesOf db run).IsChain (· < ·) :=
  ⟨lt_nextBaseFee_iff p hg, AcceptedRun.rises⟩

theorem congestion_raises_burning : (1 < (nextBaseFee ⟨1, le_rfl⟩ 300001).val) ∧
    (feesOf richestDB [⟨richestDB, burning, [], burntDB⟩]).IsChain (· < ·) := by
  obtain ⟨hiff, hruns⟩ := congestion_raises_iff ⟨1, le_rfl⟩ (g := 300001) (by decide)
  obtain ⟨r, happ⟩ := burning_accepted
  have hgas : Applied.gas burningWorld ⟨richestDB, burning, [], burntDB⟩ = 300001 := burning_gas
  refine ⟨hiff.mpr (by unfold GasMoves; decide), hruns (.block happ (.start _)) ?_⟩
  intro s hs
  rw [List.mem_singleton.mp hs, GasMoves, hgas, richestDB_fee]
  decide

theorem repeatedBlock_gas {n : Nat} (hmax : n ≤ 65536) :
    (recordedGas World.sample richDB (repeatedBlock n) []).toNat = n := by
  have hsum : gasSum (List.replicate n ({} : TxOut)) = n := by
    simp [gasSum, gasUnits]
  rw [recordedGas, UInt64.toNat_ofNat', blockGas, repeatedBlock_loop]
  dsimp only
  rw [hsum]
  omega

/-- A full block of 65536 transactions is twice the target, and the fee stays at one. -/
theorem full_block_keeps_fee : ∃ r post,
    applyBlockForChain World.sample .id richDB (repeatedBlock 65536) [] = (.ok r, post) ∧
    (repeatedBlock 65536).txs.length = 65536 ∧
    (recordedGas World.sample richDB (repeatedBlock 65536) []).toNat = 2 * targetGasPerBlock ∧
    (currentBaseFee richDB).val = 1 ∧ (currentBaseFee post).val = 1 := by
  obtain ⟨r, post, happ⟩ := repeatedBlock_accepted (n := 65536) (by decide) (by decide)
  have hgas := repeatedBlock_gas (n := 65536) le_rfl
  refine ⟨r, post, happ, List.length_replicate, hgas, richDB_fee, ?_⟩
  rw [accepted_baseFee happ, nextBaseFee_val, hgas, richDB_fee]
  rfl

/-- The next fee is monotone in the fee and the gas, it is at least one, and two histories with
    ordered gas that start from ordered fees have ordered fees all along. -/
theorem base_fee_ordered : (∀ (p q : Fee) (g h : UInt64), p.val ≤ q.val → g ≤ h →
      (nextBaseFee p g).val ≤ (nextBaseFee q h).val ∧ 1 ≤ (nextBaseFee p g).val) ∧
    ∀ {W W' : World} {db db' : DB} {run run' : List Applied}, AcceptedRun W db run → AcceptedRun W' db' run' →
      (currentBaseFee db).val ≤ (currentBaseFee db').val → List.Forall₂ (fun s s' => s.gas W ≤ s'.gas W') run run' →
      List.Forall₂ (· ≤ ·) (feesOf db run) (feesOf db' run') := by
  refine ⟨fun p q g h hp hg => ⟨nextBaseFee_mono hp hg, (nextBaseFee p g).pos⟩, ?_⟩
  intro W W' db db' run run' hrun
  induction hrun generalizing db' run' with
  | start db =>
    intro _ hfee hgas
    cases hgas
    exact .cons hfee .nil
  | block happ _ ih =>
    intro hrun' hfee hgas
    cases hrun' with
    | start => cases hgas
    | block happ' hrest' =>
      obtain ⟨hhead, htail⟩ := List.forall₂_cons.mp hgas
      refine .cons hfee (ih hrest' ?_ htail)
      rw [accepted_baseFee happ, accepted_baseFee happ']
      exact nextBaseFee_mono hfee hhead

/-- A block of one transfer next to the block of one deploy. -/
theorem base_fee_ordered_burning : List.Forall₂ (· ≤ ·)
    (feesOf genesisDB [⟨genesisDB, paying 2, [], (paid 2).2⟩])
    (feesOf richestDB [⟨richestDB, burning, [], burntDB⟩]) := by
  obtain ⟨r, happ⟩ := paid_accepted
  obtain ⟨r', happ'⟩ := burning_accepted
  have hfee : (currentBaseFee genesisDB).val ≤ (currentBaseFee richestDB).val := by decide +kernel
  have hgas : Applied.gas World.sample ⟨genesisDB, paying 2, [], (paid 2).2⟩ ≤
      Applied.gas burningWorld ⟨richestDB, burning, [], burntDB⟩ := by
    unfold Applied.gas
    rw [burning_gas]
    decide +kernel
  exact base_fee_ordered.2 (.block happ (.start _)) (.block happ' (.start _)) hfee (.cons hgas .nil)

end Frg.Chain
