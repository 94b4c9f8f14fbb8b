/-
  Frg.Chain.Accrual — fees paid out to the validators (`gas.Accrue`, `core/gas/gas.go`).

  Seventy percent of the fees are split evenly, with the remainder going to the first
  validators. The rest is split by bond, with every share rounded down, and what the rounding
  leaves is credited to nobody. Each credit reads the balance of the fee account and seeds it
  with the sum, in a bolt transaction of its own.

    - `creditFee_ok`, `creditFees_ok`: one credit adds its share, and so does the loop.
    - `accrue_ok`: a successful call has credited an even share and a share by bond to each.
    - `accrual_loses_dust`: the total is short of the fees by less than one unit a validator.
-/

import Frg.Chain.Staking
import Frg.Lib.Shares

namespace Frg.Chain

open Frg.Lib Frg.Core

/-! ## The code -/

def validatorSharePct : Int := 70

/-- `Ledger.Seed`. -/
def seed (account : Key) (amount : Int) : M Unit := do
  Act.lift (validateUint256 amount "seed amount")
  seedTx account amount

def creditFee (P : Prim) (validator : Key) (share : Int) : M Unit := do
  let feeAcc := feeAccount P validator
  let current ← balanceOfTx feeAcc
  seed feeAcc (current + share)

/-- The share of validator `i`. -/
def accrueShare (equalShare remainderCount stakerPool totalBonded : Int) (i : Nat) (bonded : Int) : Int :=
  let share := if (i : Int) < remainderCount then equalShare + 1 else equalShare
  if 0 < totalBonded then share + stakerPool * bonded / totalBonded else share

def bondedAt : Option Int × Nat → Res Int
  | (none, i) => .err (.plain s!"bonded amount at index {i} is nil")
  | (some bonded, _) => .ok bonded

def accrue (P : Prim) (totalFees : Option Int) (validatorSet : List Key) (bondedAmounts : List (Option Int)) : M Unit :=
  match totalFees with
  | none => Act.fail (.plain "total fees is nil")
  | some totalFees => do
    Act.check (0 ≤ totalFees) (.plain "total fees must be non-negative")
    Act.check (validatorSet.length = bondedAmounts.length)
      (.plain "validator set and bonded amounts length mismatch")
    if validatorSet = [] ∨ totalFees = 0 then return ()
    else
      let validatorPool := totalFees * validatorSharePct / 100
      let stakerPool := totalFees - validatorPool
      let equalShare := validatorPool / validatorSet.length
      let remainderCount := validatorPool - equalShare * validatorSet.length
      let bonded ← Act.lift (bondedAmounts.zipIdx.mapM bondedAt)
      let totalBonded := bonded.sum
      (validatorSet.zip bonded).zipIdx.forM fun x =>
        creditFee P x.1.1 (accrueShare equalShare remainderCount stakerPool totalBonded x.2 x.1.2)

/-! ## Credits -/

section

variable {P : Prim} {db db' : DB} {u : Unit}

/-- What a credit of `share` to `account` adds to the balance of `a`. -/
def creditTo (a account : Key) (share : Int) : Int := if account = a then share else 0

theorem creditFee_ok {v : Key} {share : Int} (h : creditFee P v share db = (.ok u, db')) :
    db'.supply = db.supply + share ∧ ∀ a, readBalance db' a = readBalance db a + creditTo a (feeAccount P v) share := by
  unfold creditFee seed at h
  obtain ⟨current, d, hread, h⟩ := Act.bind_ok.mp h
  obtain ⟨rfl, rfl⟩ := Act.read_ok.mp hread
  obtain ⟨_, d, hlift, h⟩ := Act.bind_ok.mp h
  obtain ⟨-, rfl⟩ := Act.lift_ok.mp hlift
  have hcases := changeBalance_cases (feeAccount P v) (fun _ => readBalance db (feeAccount P v) + share)
    (fun old => .seeded (feeAccount P v) old (readBalance db (feeAccount P v) + share)) db
  rcases hcases with ⟨hfits, hrun⟩ | ⟨e, hrun⟩
  · obtain rfl := (Prod.mk.inj (hrun.symm.trans h)).2
    constructor
    · show (db.setBalance _ _).supply = _
      rw [supply_setBalance db _ hfits]
      omega
    · intro a
      show readBalance (db.setBalance _ _) a = _
      rw [readBalance_setBalance db _ a hfits, creditTo]
      by_cases ha : a = feeAccount P v
      · rw [if_pos ha, if_pos ha.symm, ha]
      · rw [if_neg ha, if_neg (Ne.symm ha), Int.add_zero]
  · cases (Prod.mk.inj (hrun.symm.trans h)).1

theorem creditFees_ok {α : Type} {v : α → Key} {share : α → Int} : ∀ {l : List α} {db : DB},
    (l.forM fun x => creditFee P (v x) (share x)) db = (.ok u, db') →
    db'.supply = db.supply + (l.map share).sum ∧
    ∀ a, readBalance db' a = readBalance db a + (l.map fun x => creditTo a (feeAccount P (v x)) (share x)).sum := by
  intro l
  induction l with
  | nil =>
    intro db h
    obtain ⟨-, rfl⟩ := Act.pure_ok.mp h
    simp
  | cons x l ih =>
    intro db h
    obtain ⟨_, d, hx, hl⟩ := Act.bind_ok.mp h
    obtain ⟨hsupply, hbalance⟩ := creditFee_ok hx
    obtain ⟨hsupply', hbalance'⟩ := ih hl
    constructor
    · rw [hsupply', hsupply, List.map_cons, List.sum_cons, Int.add_assoc]
    · intro a
      rw [hbalance', hbalance, List.map_cons, List.sum_cons, Int.add_assoc]

end

/-! ## Shares -/

/-- The part of the fees that is split evenly. -/
def validatorPool (fees : Int) : Int := fees * validatorSharePct / 100

/-- What each validator gets: an even share of the seventy percent, and of the rest the share
    of its bond. -/
def feeShares (fees : Int) (bonds : List Int) : List Int :=
  (evenShares (validatorPool fees) bonds.length).zipWith (· + ·) (floorShares (fees - validatorPool fees) bonds)

theorem accrueShare_eq {fees : Int} {bonds : List Int} (hpos : 0 < bonds.sum) {n : Nat} (i : Nat) (bonded : Int) :
    accrueShare (validatorPool fees / n) (validatorPool fees - validatorPool fees / n * n) (fees - validatorPool fees)
      bonds.sum i bonded = evenShare (validatorPool fees) n i + (fees - validatorPool fees) * bonded / bonds.sum := by
  have hrest : validatorPool fees - validatorPool fees / n * n = validatorPool fees % n := by
    have := Int.mul_ediv_add_emod (validatorPool fees) n
    rw [Int.mul_comm] at this
    omega
  unfold accrueShare evenShare
  dsimp only
  rw [hrest, if_pos hpos]
  split <;> omega

theorem bondedAt_mapM (bonds : List Int) (k : Nat) : ((bonds.map some).zipIdx k).mapM bondedAt = .ok bonds := by
  induction bonds generalizing k with
  | nil => rfl
  | cons b bonds ih =>
    rw [List.map_cons, List.zipIdx_cons, List.mapM_cons, ih]
    rfl

theorem zipIdx_shares {fees : Int} {validatorSet : List Key} {bonds : List Int}
    (hlen : validatorSet.length = bonds.length) :
    (validatorSet.zip bonds).zipIdx.map (fun x => (x.1.1, evenShare (validatorPool fees) bonds.length x.2 +
      (fees - validatorPool fees) * x.1.2 / bonds.sum)) = validatorSet.zip (feeShares fees bonds) := by
  apply List.ext_getElem
  · simp [feeShares, hlen]
  · intro i hi hi'
    simp [feeShares, floorShares, getElem_evenShares]

theorem sum_feeShares (fees : Int) {bonds : List Int} (hpos : 0 < bonds.sum) :
    (feeShares fees bonds).sum = validatorPool fees + (floorShares (fees - validatorPool fees) bonds).sum := by
  rw [feeShares, ← List.sum_add_sum_eq_sum_zipWith_of_length_eq _ _ (by simp),
    sum_evenShares _ (length_pos_of_sum_pos hpos)]

theorem feeShares_zero {bonds : List Int} {s : Int} (hs : s ∈ feeShares 0 bonds) : s = 0 := by
  obtain ⟨i, hi, rfl⟩ := List.getElem_of_mem hs
  have hpool : validatorPool 0 = 0 := rfl
  have hnone : ¬ (i : Int) < 0 := by omega
  simp [feeShares, floorShares, getElem_evenShares, hpool, evenShare, hnone]

theorem map_accrueShare {fees : Int} {validatorSet : List Key} {bonds : List Int} (hpos : 0 < bonds.sum)
    (hlen : validatorSet.length = bonds.length) {β : Type} (g : Key × Int → β) :
    ((validatorSet.zip bonds).zipIdx.map fun x => g (x.1.1, accrueShare (validatorPool fees / validatorSet.length)
      (validatorPool fees - validatorPool fees / validatorSet.length * validatorSet.length)
      (fees - validatorPool fees) bonds.sum x.2 x.1.2)) = (validatorSet.zip (feeShares fees bonds)).map g := by
  rw [← zipIdx_shares hlen, List.map_map]
  apply List.map_congr_left
  intro x _
  rw [accrueShare_eq hpos, hlen]
  rfl

theorem sum_credits_zero {P : Prim} (validatorSet : List Key) (bonds : List Int) (a : Key) :
    ((validatorSet.zip (feeShares 0 bonds)).map fun x => creditTo a (feeAccount P x.1) x.2).sum = 0 := by
  refine List.sum_eq_zero fun c hc => ?_
  obtain ⟨x, hx, rfl⟩ := List.mem_map.mp hc
  rw [feeShares_zero (List.of_mem_zip hx).2, creditTo, ite_self]

/-- What a successful call has credited. The shares add up in one account where two fee accounts
    are the same. -/
theorem accrue_ok {P : Prim} {fees : Int} {validatorSet : List Key} {bonds : List Int} {db db' : DB} {u : Unit}
    (hpos : 0 < bonds.sum) (h : accrue P (some fees) validatorSet (bonds.map some) db = (.ok u, db')) :
    validatorSet.length = bonds.length ∧ db'.supply = db.supply + (feeShares fees bonds).sum ∧
    ∀ a, readBalance db' a = readBalance db a +
      ((validatorSet.zip (feeShares fees bonds)).map fun x => creditTo a (feeAccount P x.1) x.2).sum := by
  unfold accrue at h
  dsimp only at h
  obtain ⟨_, d, hcheck, h⟩ := Act.bind_ok.mp h
  obtain ⟨-, rfl⟩ := Act.check_ok.mp hcheck
  obtain ⟨_, d, hcheck, h⟩ := Act.bind_ok.mp h
  obtain ⟨hlen, rfl⟩ := Act.check_ok.mp hcheck
  rw [List.length_map] at hlen
  refine ⟨hlen, ?_⟩
  have hsnd : (validatorSet.zip (feeShares fees bonds)).map (·.2) = feeShares fees bonds :=
    List.map_snd_zip (by simp [feeShares, hlen])
  by_cases hdone : validatorSet = [] ∨ fees = 0
  · rw [if_pos hdone] at h
    obtain ⟨-, rfl⟩ := Act.pure_ok.mp h
    have hne : validatorSet ≠ [] := List.length_pos_iff.mp (hlen ▸ length_pos_of_sum_pos hpos)
    obtain rfl := hdone.resolve_left hne
    refine ⟨?_, fun a => ?_⟩
    · rw [List.sum_eq_zero fun s hs => feeShares_zero hs, Int.add_zero]
    · rw [sum_credits_zero, Int.add_zero]
  · rw [if_neg hdone] at h
    obtain ⟨bonded, d, hlift, h⟩ := Act.bind_ok.mp h
    obtain ⟨hbonded, rfl⟩ := Act.lift_ok.mp hlift
    obtain rfl := Go.ok.inj ((bondedAt_mapM bonds 0).symm.trans hbonded)
    obtain ⟨hsupply, hbalance⟩ := creditFees_ok h
    constructor
    · rw [hsupply]
      congr 1
      rw [← hsnd]
      exact congrArg List.sum (map_accrueShare hpos hlen (·.2))
    · intro a
      rw [hbalance]
      congr 1
      exact congrArg List.sum (map_accrueShare hpos hlen fun x => creditTo a (feeAccount P x.1) x.2)

/-- The fees are credited up to less than one unit a validator: the even part completely, in
    shares that differ by at most one, and of the rest the whole units of each bond's share. -/
theorem accrual_loses_dust {P : Prim} {fees : Int} {validatorSet : List Key} {bonds : List Int} {db db' : DB} {u : Unit}
    (hpos : 0 < bonds.sum) (h : accrue P (some fees) validatorSet (bonds.map some) db = (.ok u, db')) :
    ∃ even byBond : List Int, even.length = validatorSet.length ∧ byBond.length = validatorSet.length ∧
      even.sum = fees * 70 / 100 ∧ (∀ s ∈ even, ∀ t ∈ even, |s - t| ≤ 1) ∧
      byBond = bonds.map (fun b => (fees - fees * 70 / 100) * b / bonds.sum) ∧
      (∀ a, readBalance db' a = readBalance db a +
        ((validatorSet.zip (even.zipWith (· + ·) byBond)).map fun x => creditTo a (feeAccount P x.1) x.2).sum) ∧
      db'.supply - db.supply ≤ fees ∧ fees - validatorSet.length < db'.supply - db.supply := by
  obtain ⟨hlen, hsupply, hbalance⟩ := accrue_ok hpos h
  have hsum := sum_feeShares fees hpos
  have hle := sum_floorShares_le (fees - validatorPool fees) hpos
  have hlt := lt_sum_floorShares (fees - validatorPool fees) hpos
  refine ⟨evenShares (validatorPool fees) bonds.length, floorShares (fees - validatorPool fees) bonds, ?_, ?_,
    sum_evenShares _ (length_pos_of_sum_pos hpos), fun s hs t ht => evenShares_close hs ht, rfl, hbalance, ?_, ?_⟩
  · rw [length_evenShares, hlen]
  · rw [length_floorShares, hlen]
  · omega
  · omega

/-- Three validators with equal bonds share 101: 70 evenly and 31 by bond, so one is lost. -/
theorem accrual_loses_dust_three : ∃ db', accrue Prim.sample (some 101) [1, 2, 3] [some 5, some 5, some 5] DB.new =
    (.ok (), db') ∧ db'.supply ≤ 101 ∧ 98 < db'.supply := by
  obtain ⟨u, h⟩ :=
    Go.run_eq (p := accrue Prim.sample (some 101) [1, 2, 3] ([5, 5, 5].map some) DB.new) (by decide +kernel)
  obtain ⟨even, byBond, -, -, -, -, -, -, hle, hlt⟩ := accrual_loses_dust (by decide) h
  have hzero : DB.new.supply = 0 := rfl
  rw [hzero, Int.sub_zero] at hle hlt
  exact ⟨_, h, hle, hlt⟩

end Frg.Chain
