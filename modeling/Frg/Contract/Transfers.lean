/-
  Frg.Contract.Transfers — what `frg.transfer` moves, and what it leaves behind when it
  answers 1.

  `MoveTx` writes the source before it knows whether the target has room. Inside a block
  that is the end of the block; `frg.transfer` only answers 1, and the contract goes on. The
  amount comes in two words that the host takes as signed numbers and joins with `Lsh` and
  `Or`: a word with its top bit set makes the whole amount negative, and the host answers 1.

    - `failed_move_iff`: an error of `MoveTx`, and an answer 1 of `frg.transfer`, leave the
      balances alone unless the amount was there and the target had no room for it.
    - `move_strands`: ten units are gone.
    - `transfer_moves_iff`: the words of a balance, passed back as an amount, move it exactly
      when both are below 2 ^ 63.
    - `transfer_refused`: a contract cannot pay out a balance of 2 ^ 63.
-/

import Frg.Contract.Runtime

namespace Frg.Contract

open Frg.Lib Frg.Core Frg.Chain

/-! ## Failed moves -/

/-- The source has the amount, and the target no room for it. -/
def Stranding (db : DB) (source target : Key) (amount : Int) : Prop :=
  0 ≤ amount ∧ amount ≤ readBalance db source ∧ maxUint256 < readBalance db target + amount

section

variable {db : DB} {source target : Key} {amount : Int}

theorem stranding_pos (h : Stranding db source target amount) : 0 < amount := by
  obtain ⟨h0, -, hover⟩ := h
  have hfits : readBalance db target ≤ maxUint256 := (readBalance_fits db target).2
  omega

theorem debitedDB_balances (hpos : 0 < amount) (hle : amount ≤ readBalance db source) :
    (debitedDB db source target amount).balances ≠ db.balances := by
  intro h
  have hsource : Fits (readBalance db source) := readBalance_fits db source
  have hfits : Fits (readBalance db source - amount) := by
    unfold Fits at hsource ⊢
    omega
  have hread : readBalance (debitedDB db source target amount) source = readBalance db source := by
    unfold readBalance
    rw [h]
  rw [readBalance_debitedDB db source target source hfits, if_pos rfl] at hread
  omega

theorem moveTx_failed_iff : (∀ e db', moveTx source target amount db = (.err e, db') → db'.balances = db.balances) ↔
    ¬ Stranding db source target amount := by
  rcases moveTx_cases source target amount db with ⟨hno, e, hm⟩ | ⟨h0, hle, hover, e, hm⟩ | ⟨-, -, hfit, hm⟩ <;> rw [hm]
  · refine iff_of_true ?_ fun h => hno ⟨h.1, h.2.1⟩
    rintro _ _ h
    obtain ⟨-, rfl⟩ := Prod.mk.inj h
    rfl
  · have htarget : 0 ≤ readBalance db target := readBalance_nonneg db target
    have hstr : Stranding db source target amount := by
      refine ⟨h0, hle, ?_⟩
      unfold Fits at hover
      omega
    exact iff_of_false (fun h => debitedDB_balances (stranding_pos hstr) hle (h e _ rfl)) fun h => h hstr
  · refine iff_of_true (fun _ _ h => ?_) fun h => ?_
    · cases (Prod.mk.inj h).1
    · exact absurd h.2.2 (not_lt.mpr hfit.2)

end

/-! ## `frg.transfer` -/

/-- The account a transfer gets as far as moving something to. -/
def transferTarget (recvPtr recvLen : Int32) (amtLo amtHi : Int64) (h : HostState) : Option Key :=
  if recvLen < 0 ∨ h.fuel < hostFuel hostTransferFuel [recvLen] then none
  else
    match readMem h.mem recvPtr recvLen with
    | .ok (some addr) => if addr.length ≠ 32 ∨ orWords amtLo amtHi ≤ 0 then none else some (wordOf 32 addr)
    | _ => none

section

variable (cfg : RuntimeConfig) {recvPtr recvLen : Int32} {amtLo amtHi : Int64} {h : HostState} {r : Key}

theorem hostTransfer_none (ht : transferTarget recvPtr recvLen amtLo amtHi h = none) (db : DB) :
    (∃ h', hostTransfer cfg recvPtr recvLen amtLo amtHi h db = (.ok (1, h'), db)) ∨
      ∃ w, hostTransfer cfg recvPtr recvLen amtLo amtHi h db = (.panic w, db) := by
  unfold hostTransfer charged
  unfold transferTarget at ht
  by_cases hlen : recvLen < 0
  · rw [if_pos hlen]
    exact Or.inl ⟨_, rfl⟩
  by_cases hfuel : h.fuel < hostFuel hostTransferFuel [recvLen]
  · rw [if_neg hlen, if_pos hfuel]
    exact Or.inl ⟨_, rfl⟩
  rw [if_neg (not_or.mpr ⟨hlen, hfuel⟩)] at ht
  rw [if_neg hlen, if_neg hfuel]
  dsimp only
  rw [Act.bind_run]
  unfold Act.lift
  cases hread : readMem h.mem recvPtr recvLen with
  | ok addr? =>
    rw [hread] at ht
    cases addr? with
    | none => exact Or.inl ⟨_, rfl⟩
    | some addr =>
      by_cases hbad : addr.length ≠ 32 ∨ orWords amtLo amtHi ≤ 0
      · refine Or.inl ⟨{ h with fuel := h.fuel - hostFuel hostTransferFuel [recvLen] }, ?_⟩
        dsimp only
        rw [if_pos hbad]
        rfl
      · dsimp only at ht
        rw [if_neg hbad] at ht
        cases ht
  | err e =>
    unfold readMem at hread
    split at hread
    · cases hread
    · split at hread
      · cases hread
      · split at hread <;> cases hread
  | panic w => exact Or.inr ⟨w, rfl⟩

theorem hostTransfer_some (ht : transferTarget recvPtr recvLen amtLo amtHi h = some r) (db : DB) :
    0 < orWords amtLo amtHi ∧ hostTransfer cfg recvPtr recvLen amtLo amtHi h db =
      (do let moved ← Act.succeeded (moveTx cfg.selfAddr r (orWords amtLo amtHi))
          pure (if moved then 0 else 1, { h with fuel := h.fuel - hostFuel hostTransferFuel [recvLen] }) :
        M (Int × HostState)) db := by
  unfold transferTarget at ht
  split at ht
  · cases ht
  rename_i hfree
  obtain ⟨hlen, hfuel⟩ := not_or.mp hfree
  split at ht
  swap
  · cases ht
  rename_i addr hread
  split at ht
  · cases ht
  rename_i hok
  obtain rfl := Option.some.inj ht
  refine ⟨not_le.mp (not_or.mp hok).2, ?_⟩
  unfold hostTransfer charged
  rw [if_neg hlen, if_neg hfuel]
  dsimp only
  rw [Act.bind_run]
  unfold Act.lift
  rw [hread]
  dsimp only
  rw [if_neg hok]

theorem transfer_failed_iff (db : DB) :
    (∀ h' db', hostTransfer cfg recvPtr recvLen amtLo amtHi h db = (.ok (1, h'), db') → db'.balances = db.balances) ↔
      ∀ r, transferTarget recvPtr recvLen amtLo amtHi h = some r →
        ¬ Stranding db cfg.selfAddr r (orWords amtLo amtHi) := by
  cases ht : transferTarget recvPtr recvLen amtLo amtHi h with
  | none =>
    refine iff_of_true ?_ fun r hr => ?_
    · rcases hostTransfer_none cfg ht db with ⟨_, hrun⟩ | ⟨_, hrun⟩ <;> rw [hrun] <;> intro h' db' e
      · rw [(Prod.mk.inj e).2]
      · cases (Prod.mk.inj e).1
    · cases hr
  | some r =>
    obtain ⟨-, hrun⟩ := hostTransfer_some cfg ht db
    have hone : (∀ r', some r = some r' → ¬ Stranding db cfg.selfAddr r' (orWords amtLo amtHi)) ↔
        ¬ Stranding db cfg.selfAddr r (orWords amtLo amtHi) :=
      ⟨fun h => h r rfl, fun h r' e => Option.some.inj e ▸ h⟩
    rw [hone, ← moveTx_failed_iff, hrun, Act.bind_run]
    unfold Act.succeeded
    cases hm : moveTx cfg.selfAddr r (orWords amtLo amtHi) db with
    | mk x db₁ =>
      cases x with
      | ok u =>
        refine iff_of_true (fun h' db' e => ?_) fun _ _ e => ?_
        · cases (Prod.mk.inj (Go.ok.inj (Prod.mk.inj e).1)).1
        · cases (Prod.mk.inj e).1
      | err x =>
        constructor
        · rintro hb _ _ e
          rw [← (Prod.mk.inj e).2]
          exact hb _ _ rfl
        · rintro hb _ _ e
          rw [← (Prod.mk.inj e).2]
          exact hb x db₁ rfl
      | panic w =>
        refine iff_of_true (fun h' db' e => ?_) fun _ _ e => ?_
        · cases (Prod.mk.inj e).1
        · cases (Prod.mk.inj e).1

end

/-- For every state of the ledger. -/
theorem failed_move_iff (db : DB) :
    (∀ source target amount,
      (∀ e db', moveTx source target amount db = (.err e, db') → db'.balances = db.balances) ↔
        ¬ Stranding db source target amount) ∧
    ∀ cfg recvPtr recvLen amtLo amtHi h,
      (∀ h' db', hostTransfer cfg recvPtr recvLen amtLo amtHi h db = (.ok (1, h'), db') → db'.balances = db.balances) ↔
        ∀ r, transferTarget recvPtr recvLen amtLo amtHi h = some r →
          ¬ Stranding db cfg.selfAddr r (orWords amtLo amtHi) :=
  ⟨fun _ _ _ => moveTx_failed_iff, fun cfg _ _ _ _ _ => transfer_failed_iff cfg db⟩

/-- A contract at account 1, called by itself. -/
def payer : RuntimeConfig :=
  { wasmBytes := [], caller := 1, selfAddr := 1, blockHeight := 1, callData := [], gasLimit := 0 }

/-- The host with the bytes of account 2 at the start of the memory. -/
def payerHost : HostState := { mem := some (Word.bytes (2 : Key)), fuel := maxFuel, state := .empty, hostErr := none }

def fullDB : DB := (DB.new.setBalance 1 10).setBalance 2 maxUint256

/-- Account 2 is full. -/
theorem move_strands : readBalance fullDB 1 = 10 ∧
    (∃ e db', moveTx 1 2 10 fullDB = (.err e, db') ∧ readBalance db' 1 = 0 ∧ readBalance db' 2 = maxUint256) ∧
    ∃ h' db', hostTransfer payer 0 32 10 0 payerHost fullDB = (.ok (1, h'), db') ∧ h'.hostErr = none ∧
      readBalance db' 1 = 0 ∧ readBalance db' 2 = maxUint256 := by
  refine ⟨by decide +kernel, ⟨_, _, rfl, by decide +kernel, by decide +kernel⟩, _, _, rfl, rfl, by decide +kernel,
    by decide +kernel⟩

/-! ## Words -/

/-- An `i64.load`. -/
def load64 (bs : List UInt8) : Int64 := Int64.ofNat (ofBE bs.reverse)

/-- The words of an amount where `frg.self_balance` and `frg.balance_of` have put it. -/
def lowWord (a : Nat) : Int64 := load64 ((padBigToLE a 16).take 8)
def highWord (a : Nat) : Int64 := load64 ((padBigToLE a 16).drop 8)

theorem padBigToLE_words (a : Nat) :
    padBigToLE a 16 = (toBE 8 a).reverse ++ (toBE 8 (a / 256 ^ 8)).reverse := by
  unfold padBigToLE
  rw [Int.toNat_natCast, toBE_add 8 8 a, List.reverse_append]

theorem lowWord_eq (a : Nat) : lowWord a = Int64.ofNat (a % 2 ^ 64) := by
  unfold lowWord load64
  rw [padBigToLE_words, List.take_left' (by simp), List.reverse_reverse, ofBE_toBE_mod]
  norm_num

theorem highWord_eq {a : Nat} (ha : a < 2 ^ 128) : highWord a = Int64.ofNat (a / 2 ^ 64) := by
  unfold highWord load64
  rw [padBigToLE_words, List.drop_left' (by simp), List.reverse_reverse, ofBE_toBE _ _ (by omega)]
  norm_num

theorem toInt_ofNat_word {n : Nat} (h : n < 2 ^ 64) :
    (Int64.ofNat n).toInt = if n < 2 ^ 63 then (n : Int) else n - 2 ^ 64 := by
  rw [Int64.toInt_ofNat', Int.bmod_def, show Int64.size = 2 ^ 64 from rfl]
  split <;> split <;> omega

/-- The two words joined: the amount itself, or nothing the host would move. -/
theorem orWords_words {a : Nat} (ha : a < 2 ^ 128) :
    if a % 2 ^ 64 < 2 ^ 63 ∧ a / 2 ^ 64 < 2 ^ 63 then orWords (lowWord a) (highWord a) = a
    else orWords (lowWord a) (highWord a) ≤ 0 := by
  have hlo : (lowWord a).toInt =
      if a % 2 ^ 64 < 2 ^ 63 then ((a % 2 ^ 64 : Nat) : Int) else (a % 2 ^ 64 : Nat) - 2 ^ 64 := by
    rw [lowWord_eq, toInt_ofNat_word (by omega)]
  have hhi : (highWord a).toInt =
      if a / 2 ^ 64 < 2 ^ 63 then ((a / 2 ^ 64 : Nat) : Int) else (a / 2 ^ 64 : Nat) - 2 ^ 64 := by
    rw [highWord_eq ha, toInt_ofNat_word (by omega)]
  unfold orWords
  simp only [Int64.le_iff_toInt_le, Int64.toInt_zero, hlo, hhi]
  split_ifs <;> omega

theorem readMem_nonneg {mem : Memory} {ptr length : Int32} {bytes : List UInt8}
    (h : readMem mem ptr length = .ok (some bytes)) : ¬ length < 0 := by
  intro hlen
  unfold readMem at h
  split at h
  · cases h
  · rw [if_pos (Or.inr (Or.inl hlen))] at h
    cases h

section

variable {cfg : RuntimeConfig} {db : DB} {h : HostState} {recvPtr recvLen : Int32} {addr : List UInt8} {a : Nat}

/-- A contract passes the words of an amount it has, with enough fuel, to an account that has
    room for it. -/
theorem transfer_moves_iff (hb : readBalance db cfg.selfAddr < 2 ^ 128) (hpos : 1 ≤ a)
    (ha : a ≤ readBalance db cfg.selfAddr) (hread : readMem h.mem recvPtr recvLen = .ok (some addr))
    (hlen : addr.length = 32) (hne : wordOf 32 addr ≠ cfg.selfAddr)
    (hfuel : hostFuel hostTransferFuel [recvLen] ≤ h.fuel)
    (hroom : readBalance db (wordOf 32 addr) + a < 2 ^ 256) :
    (∃ h' db', hostTransfer cfg recvPtr recvLen (lowWord a) (highWord a) h db = (.ok (0, h'), db') ∧
      readBalance db' cfg.selfAddr = readBalance db cfg.selfAddr - a ∧
      readBalance db' (wordOf 32 addr) = readBalance db (wordOf 32 addr) + a ∧
      ∀ k, k ≠ cfg.selfAddr → k ≠ wordOf 32 addr → readBalance db' k = readBalance db k) ↔
    a % 2 ^ 64 < 2 ^ 63 ∧ a / 2 ^ 64 < 2 ^ 63 := by
  have hwords := orWords_words (a := a) (by omega)
  have htarget : transferTarget recvPtr recvLen (lowWord a) (highWord a) h =
      if orWords (lowWord a) (highWord a) ≤ 0 then none else some (wordOf 32 addr) := by
    unfold transferTarget
    rw [if_neg (not_or.mpr ⟨readMem_nonneg hread, UInt64.not_lt.mpr hfuel⟩), hread]
    simp [hlen]
  by_cases hw : a % 2 ^ 64 < 2 ^ 63 ∧ a / 2 ^ 64 < 2 ^ 63
  · rw [if_pos hw] at hwords
    rw [hwords, if_neg (by omega)] at htarget
    refine iff_of_true ?_ hw
    obtain ⟨-, hrun⟩ := hostTransfer_some cfg htarget db
    rw [hwords, Act.bind_run] at hrun
    have hself : Fits (readBalance db cfg.selfAddr - a) := by
      unfold Fits maxUint256
      omega
    rcases moveTx_cases cfg.selfAddr (wordOf 32 addr) a db with ⟨hno, -⟩ | ⟨-, -, hover, -⟩ | ⟨-, -, hfit, hm⟩
    · exact absurd ⟨by omega, ha⟩ hno
    · have htarget0 : 0 ≤ readBalance db (wordOf 32 addr) := readBalance_nonneg db _
      refine absurd ?_ hover
      unfold Fits maxUint256
      omega
    · unfold Act.succeeded at hrun
      rw [hm] at hrun
      refine ⟨_, _, hrun, ?_, ?_, fun k hk hk' => ?_⟩
      · rw [readBalance_movedDB hself hfit, if_neg (Ne.symm hne), if_pos rfl]
      · rw [readBalance_movedDB hself hfit, if_pos rfl]
      · rw [readBalance_movedDB hself hfit, if_neg hk', if_neg hk]
  · rw [if_neg hw] at hwords
    rw [if_pos hwords] at htarget
    refine iff_of_false ?_ hw
    rintro ⟨h', db', hrun, -⟩
    rcases hostTransfer_none cfg htarget db with ⟨_, hone⟩ | ⟨_, hstop⟩
    · rw [hone] at hrun
      cases (Prod.mk.inj (Go.ok.inj (Prod.mk.inj hrun).1)).1
    · rw [hstop] at hrun
      cases (Prod.mk.inj hrun).1

end

def payerDB : DB := DB.new.setBalance 1 (2 ^ 64)

/-- A contract with 2 ^ 64 units pays out ten. -/
theorem transfer_moves_ten :
    ∃ h' db', hostTransfer payer 0 32 (lowWord 10) (highWord 10) payerHost payerDB = (.ok (0, h'), db') ∧
    readBalance db' 1 = 2 ^ 64 - 10 ∧ readBalance db' 2 = 10 := by
  have hread : readMem payerHost.mem 0 32 = .ok (some (Word.bytes (2 : Key))) := by decide +kernel
  have hb : readBalance payerDB payer.selfAddr < 2 ^ 128 := by decide +kernel
  obtain ⟨h', db', hrun, hself, htarget, -⟩ := (transfer_moves_iff (a := 10) hb (by decide) (by decide +kernel) hread
    (by decide +kernel) (by decide +kernel) (by decide +kernel) (by decide +kernel)).mpr (by decide)
  rw [wordOf_bytes] at htarget
  exact ⟨h', db', hrun, hself.trans (by decide +kernel), htarget.trans (by decide +kernel)⟩

/-- It cannot pay out half of them in one transfer. -/
theorem transfer_refused : readBalance payerDB 1 = 2 ^ 64 ∧
    ∃ h', hostTransfer payer 0 32 (lowWord (2 ^ 63)) (highWord (2 ^ 63)) payerHost payerDB = (.ok (1, h'), payerDB) ∧
      h'.hostErr = none := by
  refine ⟨by decide +kernel, ?_⟩
  have hlow : lowWord (2 ^ 63) = Int64.minValue ∧ highWord (2 ^ 63) = 0 := by decide +kernel
  rw [hlow.1, hlow.2]
  exact ⟨_, rfl, rfl⟩

end Frg.Contract
