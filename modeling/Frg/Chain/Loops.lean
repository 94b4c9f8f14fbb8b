/-
  Frg.Chain.Loops — what the gas, miss and mint loops of an accepted block leave behind,
  account by account and record by record: `gasLoop_ok`, `missLoop_ok`, `mintLoop_ok`.

  Each loop's effect is a function of the transactions and of what the state held before
  it, so two blocks can be compared without running the loops again. A miss counter is
  raised once for each miss evidence of the block that names it (`missRecords_get`),
  executed or not.
-/

import Frg.Chain.Supply

namespace Frg.Chain

open Frg.Lib Frg.Core Frg.Wire Frg.Contract Frg.RG Act

variable {W : World}

/-! ## Gas -/

/-- The gas units one account pays for in a block. -/
def gasOf (a : Key) (l : List (Tx × TxOut)) : Nat :=
  (l.map fun p => if p.1.senderPubKey = a then (gasUnits p.2).toNat else 0).sum

theorem gasLoop_ok (fee : Fee) : ∀ {l : List (Tx × TxOut)} {g g' : UInt64} {db db' : DB},
    l.foldlM (chargeGas fee) g db = (.ok g', db') →
      (∀ a, readBalance db' a = readBalance db a - fee.val * (gasOf a l : Nat)) ∧ db'.validators = db.validators := by
  intro l
  induction l with
  | nil =>
    intro g g' db db' h
    obtain ⟨rfl, rfl⟩ := pure_ok.mp h
    exact ⟨fun a => by simp [gasOf], rfl⟩
  | cons p l ih =>
    intro g g' db db' h
    obtain ⟨g1, d1, h1, h2⟩ := foldlM_cons_ok.mp h
    obtain ⟨e2, ev⟩ := ih h2
    have hfee : ¬ fee.val = 0 := by have := fee.pos; omega
    rw [chargeGas, if_neg hfee] at h1
    obtain ⟨_, d2, h3, h4⟩ := bind_ok.mp h1
    obtain ⟨rfl, rfl⟩ := pure_ok.mp h4
    obtain ⟨-, hf, rfl⟩ := burnTx_ok h3
    refine ⟨fun a => ?_, ev⟩
    rw [e2]
    show readBalance (db.setBalance _ _) a - _ = _
    rw [readBalance_setBalance db _ a hf]
    simp only [gasOf, List.map_cons, List.sum_cons]
    by_cases ha : p.1.senderPubKey = a
    · rw [if_pos ha.symm, if_pos ha, ha]
      push_cast
      ring
    · rw [if_neg (Ne.symm ha), if_neg ha]
      simp

/-! ## Misses -/

/-- The records after the miss side effect of one transaction. -/
def missStep (records : Bucket Key Record) (t : Tx) : Bucket Key Record :=
  if t.type = .missEvidence then
    match records.get t.missedProposer with
    | some r => records.put t.missedProposer r.miss.1
    | none => records
  else records

/-- What one transaction's miss slashes from the account `a`. -/
def missSlash (P : Prim) (records : Bucket Key Record) (t : Tx) (a : Key) : Int :=
  if t.type = .missEvidence ∧ escrowAccount P t.missedProposer = a then
    match records.get t.missedProposer with
    | some r => r.miss.2
    | none => 0
  else 0

/-- What a list of transactions' misses slashes from the account `a`. -/
def missBurnt (P : Prim) (a : Key) : Bucket Key Record → List Tx → Int
  | _, [] => 0
  | records, t :: txs => missSlash P records t a + missBurnt P a (missStep records t) txs

theorem recordMissTx_run {v : Key} {r : Record} {db : DB} (h : db.validators.get v = some r) :
    recordMissTx v db =
      (.ok r.miss.2, ({ db with validators := db.validators.put v r.miss.1 } : DB).logged (.miss v)) := by
  simp only [recordMissTx, getRecord, bind_run, Act.read, h]
  rfl

theorem slashBurn_ok {x : Key} {n m k : Nat} {db db' : DB}
    (h : (do if 0 < n then burnTx x n
             return m : M Nat) db = (.ok k, db')) :
    (∀ a, readBalance db' a = readBalance db a - if x = a then (n : Int) else 0) ∧ db'.validators = db.validators := by
  split at h
  · obtain ⟨_, d2, h2, h⟩ := bind_ok.mp h
    obtain ⟨-, rfl⟩ := pure_ok.mp h
    obtain ⟨-, hf, rfl⟩ := burnTx_ok h2
    refine ⟨fun a => ?_, rfl⟩
    show readBalance (db.setBalance _ _) a = _
    rw [readBalance_setBalance _ _ a hf]
    by_cases ha : x = a
    · rw [if_pos ha.symm, if_pos ha, ha]
    · rw [if_neg (Ne.symm ha), if_neg ha, sub_zero]
  · obtain ⟨-, rfl⟩ := pure_ok.mp h
    have hz : n = 0 := by omega
    exact ⟨fun a => by simp [hz], rfl⟩

theorem applyMiss_ok {t : Tx} {n n' : Nat} {db db' : DB} (h : applyMiss W n t db = (.ok n', db')) :
    (∀ a, readBalance db' a = readBalance db a - missSlash W.toPrim db.validators t a) ∧
      db'.validators = missStep db.validators t ∧
      (t.type = .missEvidence → (db.validators.get t.missedProposer).isSome) := by
  unfold applyMiss at h
  unfold missSlash missStep
  by_cases ht : t.type = .missEvidence
  swap
  · rw [if_neg ht] at h
    obtain ⟨-, rfl⟩ := pure_ok.mp h
    exact ⟨fun a => by simp [ht], by simp [ht], fun e => absurd e ht⟩
  rw [if_pos ht] at h
  obtain ⟨amt, d1, h1, h⟩ := bind_ok.mp h
  obtain ⟨r, hr, rfl, rfl⟩ := recordMissTx_ok h1
  obtain ⟨hb, hv⟩ := slashBurn_ok h
  simp only [ht, true_and, if_true, hr]
  exact ⟨hb, hv, fun _ => rfl⟩

theorem missStep_get (records : Bucket Key Record) (t : Tx) (v : Key) :
    (missStep records t).get v =
      if t.type = .missEvidence ∧ t.missedProposer = v then (records.get v).map (·.miss.1) else records.get v := by
  unfold missStep
  by_cases ht : t.type = .missEvidence
  swap
  · simp [ht]
  simp only [ht, if_true, true_and]
  by_cases hv : t.missedProposer = v
  · subst hv
    cases hr : records.get t.missedProposer with
    | none => simp [hr]
    | some r => simp
  · rw [if_neg hv]
    split
    · rw [Bucket.get_put_ne _ _ (Ne.symm hv)]
    · rfl

theorem missStep_isSome (records : Bucket Key Record) (t : Tx) (v : Key) :
    ((missStep records t).get v).isSome = (records.get v).isSome := by
  rw [missStep_get]
  split
  · rw [Option.isSome_map]
  · rfl

theorem missLoop_ok : ∀ {txs : List Tx} {n n' : Nat} {db db' : DB}, txs.foldlM (applyMiss W) n db = (.ok n', db') →
    (∀ a, readBalance db' a = readBalance db a - missBurnt W.toPrim a db.validators txs) ∧
      db'.validators = txs.foldl missStep db.validators ∧
      ∀ t ∈ txs, t.type = .missEvidence → (db.validators.get t.missedProposer).isSome := by
  intro txs
  induction txs with
  | nil =>
    intro n n' db db' h
    obtain ⟨-, rfl⟩ := pure_ok.mp h
    exact ⟨fun a => by simp [missBurnt], rfl, fun t ht => nomatch ht⟩
  | cons t txs ih =>
    intro n n' db db' h
    obtain ⟨n1, d1, h1, h2⟩ := foldlM_cons_ok.mp h
    obtain ⟨e1, v1, s1⟩ := applyMiss_ok h1
    obtain ⟨e2, v2, s2⟩ := ih h2
    refine ⟨fun a => ?_, ?_, fun u hu hm => ?_⟩
    · rw [e2, e1, v1, missBurnt]
      ring
    · rw [v2, v1, List.foldl_cons]
    · rcases List.mem_cons.mp hu with rfl | hu
      · exact s1 hm
      · rw [← missStep_isSome db.validators t, ← v1]
        exact s2 u hu hm

/-- The miss evidence against `v` in a block. -/
def missesOf (v : Key) (txs : List Tx) : Nat := txs.countP fun t => t.type = .missEvidence && t.missedProposer = v

theorem missRecords_get (v : Key) : ∀ (txs : List Tx) (records : Bucket Key Record),
    (txs.foldl missStep records).get v = (records.get v).map fun r => (fun r => r.miss.1)^[missesOf v txs] r := by
  intro txs
  induction txs with
  | nil => intro records; simp [missesOf]
  | cons t txs ih =>
    intro records
    rw [List.foldl_cons, ih, missStep_get]
    by_cases hc : t.type = .missEvidence ∧ t.missedProposer = v
    · have hcount : missesOf v (t :: txs) = missesOf v txs + 1 := by
        simp [missesOf, hc.1, hc.2]
      rw [if_pos hc, hcount]
      cases records.get v with
      | none => rfl
      | some r => simp [Function.iterate_succ_apply]
    · have hcount : missesOf v (t :: txs) = missesOf v txs := by
        have : ¬ ((t.type = .missEvidence && t.missedProposer = v) = true) := by simpa using hc
        simp only [missesOf, List.countP_cons, this]
        rfl
      rw [if_neg hc, hcount]

/-! ## Rewards -/

/-- What the mint loop credits to the account `a`. -/
def mintedTo (P : Prim) (a : Key) (l : List (Key × Int)) : Int :=
  (l.map fun p => if feeAccount P p.1 = a then p.2 else 0).sum

theorem mintLoop_ok : ∀ {l : List (Key × Int)} {db db' : DB} {u : PUnit}, l.forM (creditShare W) db = (.ok u, db') →
    (∀ a, readBalance db' a = readBalance db a + mintedTo W.toPrim a l) ∧ db'.validators = db.validators := by
  intro l
  induction l with
  | nil =>
    intro db db' u h
    obtain ⟨-, rfl⟩ := pure_ok.mp h
    exact ⟨fun a => by simp [mintedTo], rfl⟩
  | cons p l ih =>
    intro db db' u h
    obtain ⟨_, d1, h1, h2⟩ := bind_ok.mp h
    obtain ⟨e2, v2⟩ := ih h2
    unfold creditShare at h1
    split at h1
    · rename_i hz
      obtain ⟨-, rfl⟩ := pure_ok.mp h1
      refine ⟨fun a => ?_, v2⟩
      rw [e2]
      simp [mintedTo, hz]
    · rcases changeBalance_cases (feeAccount W.toPrim p.1) (· + p.2) (fun _ => .minted _ p.2) db with ⟨hf, h3⟩ | ⟨e, h3⟩
      swap
      · cases (Prod.mk.inj (h1.symm.trans h3)).1
      obtain rfl := (Prod.mk.inj (h1.symm.trans h3)).2
      refine ⟨fun a => ?_, v2⟩
      rw [e2]
      show readBalance (db.setBalance _ _) a + _ = _
      rw [readBalance_setBalance db _ a hf]
      simp only [mintedTo, List.map_cons, List.sum_cons]
      by_cases ha : feeAccount W.toPrim p.1 = a
      · rw [if_pos ha.symm, if_pos ha, ha]
        ring
      · rw [if_neg (Ne.symm ha), if_neg ha]
        ring

end Frg.Chain
