/-
  Frg.Chain.Supply — the sum of balances against the tracked total supply, over whole
  runs from a genesis.

  A move whose two ends are one account writes the credit over the debit and so creates
  its amount; a contract's transfer whose credit overflows has been debited all the same.
  What is proved:

    - `block_supply`: what an accepted block does to the difference between the two:
      exactly the slip of its moves and the gas lost to the 64-bit counter.
    - `supply_delta`: the tracked supply changes by exactly what the block credited and
      burnt.
    - `supply_tracked`: without moves of an account to itself, with a supply below 2^256
      and gas below 2^64, the two are equal in every state of every run.
    - `selfTransfer_inflates`: one transfer of an account to itself breaks it.
-/

import Frg.Chain.Genesis
import Frg.Chain.Steps

namespace Frg.Chain

open Frg.Lib Frg.Core Frg.Wire Frg.Contract Frg.RG Act

/-! ## Totals over the journal -/

def Event.burnt : Event → Int
  | .burned _ n => n
  | _ => 0

def Event.mint : Event → Int
  | .minted _ n => n
  | _ => 0

def Event.seed : Event → Int
  | .seeded _ old new => new - old
  | _ => 0

/-- What one half of a move does to the sum of balances. -/
def Event.slip : Event → Int
  | .debited _ _ n => -n
  | .credited source target n => if source = target then 2 * n else n
  | _ => 0

def total (f : Event → Int) (db : DB) : Int := (db.journal.map f).sum

theorem total_logged (f : Event → Int) (db : DB) (e : Event) : total f (db.logged e) = f e + total f db := by
  simp [total, DB.logged]

theorem total_setBalance (f : Event → Int) (db : DB) (a : Key) (v : Int) :
    total f (db.setBalance a v) = total f db := rfl

theorem Event.net_eq (e : Event) : e.net = e.seed + e.mint - e.burnt + e.slip := by
  cases e <;> simp [Event.net, Event.seed, Event.mint, Event.burnt, Event.slip]

theorem net_eq (db : DB) :
    net db.journal = total Event.seed db + total Event.mint db - total Event.burnt db + total Event.slip db := by
  unfold net total
  induction db.journal with
  | nil => rfl
  | cons e l ih =>
    simp only [List.map_cons, List.sum_cons, ih, e.net_eq]
    omega

/-- Steps that keep a total. -/
def Same (f : Event → Int) (db db' : DB) : Prop := total f db' = total f db

instance (f : Event → Int) : Std.Refl (Same f) := ⟨fun _ => rfl⟩
instance (f : Event → Int) : IsTrans DB (Same f) := ⟨fun _ _ _ h1 h2 => h2.trans h1⟩

theorem Same.logged {f : Event → Int} {db : DB} {a : Key} {v : Int} {e : Event} (he : f e = 0) :
    Same f db ((db.setBalance a v).logged e) := by
  show total f _ = total f db
  rw [total_logged, total_setBalance, he, zero_add]

theorem same_txOps {f : Event → Int} (hd : ∀ s t n, f (.debited s t n) = 0) (hc : ∀ s t n, f (.credited s t n) = 0)
    (hn : ∀ a n, f (.nonce a n) = 0) : TxOps (Same f) where
  move _ _ _ _ _ := moveBalance_steps (fun _ _ => .logged (hd _ _ _)) fun _ _ => .logged (hc _ _ _)
  nonce := advanceNonceTx_steps fun a n db _ => by
    show total f (db.advanced a n) = total f db
    rw [DB.advanced, total_logged, hn, zero_add]
    rfl
  bond _ _ _ _ := rfl
  unbond := unbondTx_steps fun _ _ _ _ _ _ => rfl
  deleteRecord _ _ := rfl
  storeBytecode _ _ _ := rfl
  saveState _ _ _ := rfl

theorem burnt_txOps : TxOps (Same Event.burnt) := same_txOps (fun _ _ _ => rfl) (fun _ _ _ => rfl) fun _ _ => rfl
theorem mint_txOps : TxOps (Same Event.mint) := same_txOps (fun _ _ _ => rfl) (fun _ _ _ => rfl) fun _ _ => rfl
theorem seed_txOps : TxOps (Same Event.seed) := same_txOps (fun _ _ _ => rfl) (fun _ _ _ => rfl) fun _ _ => rfl

/-! ## Burns and credits -/

theorem burnTx_ok {a : Key} {n : Int} {db db' : DB} {u : Unit} (h : burnTx a n db = (.ok u, db')) :
    n ≤ readBalance db a ∧ Fits (readBalance db a - n) ∧
      db' = (db.setBalance a (readBalance db a - n)).logged (.burned a n) := by
  obtain ⟨bal, d1, h1, h⟩ := bind_ok.mp h
  obtain ⟨rfl, rfl⟩ := read_ok.mp h1
  obtain ⟨_, d2, h2, h⟩ := bind_ok.mp h
  obtain ⟨hle, rfl⟩ := check_ok.mp h2
  rcases changeBalance_cases a (· - n) (fun _ => .burned a n) db with ⟨hf, h3⟩ | ⟨e, h3⟩
  · rw [h3] at h
    exact ⟨hle, hf, (Prod.mk.inj h).2.symm⟩
  · rw [h3] at h
    cases (Prod.mk.inj h).1

theorem creditTx_ok {a : Key} {n : Int} {db db' : DB} {u : Unit} (h : creditTx a n db = (.ok u, db')) :
    db' = (db.setBalance a (readBalance db a + n)).logged (.minted a n) := by
  rcases changeBalance_cases a (· + n) (fun _ => .minted a n) db with ⟨hf, h3⟩ | ⟨e, h3⟩
  · exact (Prod.mk.inj (h.symm.trans h3)).2
  · cases (Prod.mk.inj (h.symm.trans h3)).1

theorem burnTx_same {f : Event → Int} (hf : ∀ a n, f (.burned a n) = 0) (a : Key) (n : Int) :
    Steps (Same f) (burnTx a n) :=
  burnTx_steps (changeBalance_steps fun _ _ => .logged (hf _ _))

theorem recordMissTx_same {f : Event → Int} (hf : ∀ v, f (.miss v) = 0) (v : Key) :
    Steps (Same f) (recordMissTx v) := by
  refine recordMissTx_steps (fun v r r' db _ => ?_) v
  show total f (DB.logged _ _) = total f db
  rw [total_logged, hf, zero_add]
  rfl

/-! ## Moves without slip -/

/-- A move of a positive amount from an account to itself. -/
def Event.selfMove : Event → Bool
  | .debited source target n => source = target && n ≠ 0
  | .credited source target n => source = target && n ≠ 0
  | _ => false

/-- Steps that add no slip and no supply as long as no account moves to itself and the sum
    of balances fits in 256 bits. -/
def Tidy (db db' : DB) : Prop :=
  ∃ new, db'.journal = new ++ db.journal ∧ ((∀ e ∈ new, e.selfMove = false) → db.supply ≤ maxUint256 →
    db'.supply ≤ db.supply ∧ total Event.slip db' = total Event.slip db)

instance : Std.Refl Tidy := ⟨fun _ => ⟨[], rfl, fun _ _ => ⟨le_rfl, rfl⟩⟩⟩

instance : IsTrans DB Tidy := ⟨fun _ _ _ ⟨n1, e1, h1⟩ ⟨n2, e2, h2⟩ =>
  ⟨n2 ++ n1, by rw [e2, e1, List.append_assoc], fun hs hb => by
    have h1 := h1 (fun e he => hs e (List.mem_append_right _ he)) hb
    have h2 := h2 (fun e he => hs e (List.mem_append_left _ he)) (h1.1.trans hb)
    exact ⟨h2.1.trans h1.1, h2.2.trans h1.2⟩⟩⟩

theorem two_balances_le (db : DB) {a c : Key} (h : a ≠ c) : readBalance db a + readBalance db c ≤ db.supply := by
  have hr : ∀ k, valueOr0 (fun w : Word 32 => (w.val : Int)) (db.balances.get k) = readBalance db k := fun k => by
    unfold readBalance
    cases db.balances.get k <;> rfl
  rw [← hr a, ← hr c]
  exact Bucket.two_le_sumBy _ (fun w => Int.natCast_nonneg _) db.balances h

/-- A debited move whose credit does not fit is a move to itself, or the supply does not
    fit either. -/
theorem credit_fits {db : DB} {source target : Key} {amount : Int} (h0 : 0 ≤ amount)
    (hs : Fits (readBalance db source - amount)) (hself : (Event.debited source target amount).selfMove = false)
    (hb : db.supply ≤ maxUint256) : Fits (readBalance db target + amount) := by
  have ht := readBalance_fits db target
  by_cases hst : source = target
  · have hz : amount = 0 := by simpa [Event.selfMove, hst] using hself
    rw [hz, add_zero]
    exact ht
  · have := two_balances_le db hst
    exact ⟨by have := ht.1; omega, by have := hs.1; omega⟩

theorem tidy_move (source target : Key) (amount : Int) (short : String) (h0 : 0 ≤ amount) :
    Steps Tidy (moveBalance source target amount short) := by
  intro db
  rcases moveBalance_cases source target amount short db with ⟨-, e, h⟩ | ⟨hf, hf2, e, h⟩ | ⟨-, hf, hf2, h⟩ <;> rw [h]
  · exact Std.Refl.refl db
  · refine ⟨[.debited source target amount], rfl, fun hs hb => ?_⟩
    exact absurd (credit_fits h0 hf (hs _ List.mem_cons_self) hb) hf2
  · refine ⟨[.credited source target amount, .debited source target amount], rfl, fun hs _ => ?_⟩
    have hc := hs (.credited source target amount) List.mem_cons_self
    have hsup := supply_movedDB db source target hf hf2
    have hslip : total Event.slip (movedDB db source target amount) =
        (if source = target then 2 * amount else amount) + (-amount + total Event.slip db) := by
      rw [movedDB, total_logged, total_setBalance, debitedDB, total_logged, total_setBalance]
      rfl
    by_cases hst : source = target
    · have hz : amount = 0 := by simpa [Event.selfMove, hst] using hc
      rw [if_pos hst] at hsup hslip
      exact ⟨by show (movedDB db source target amount).supply ≤ _; omega,
        by show total _ (movedDB db source target amount) = _; omega⟩
    · rw [if_neg hst] at hsup hslip
      exact ⟨by show (movedDB db source target amount).supply ≤ _; omega,
        by show total _ (movedDB db source target amount) = _; omega⟩

theorem tidy_txOps : TxOps Tidy where
  move := tidy_move
  nonce := advanceNonceTx_steps fun a n db _ => by
    refine ⟨[.nonce a n], rfl, fun _ _ => ⟨le_rfl, ?_⟩⟩
    show total Event.slip (db.advanced a n) = _
    rw [DB.advanced, total_logged]
    exact zero_add _
  bond _ _ _ _ := ⟨[], rfl, fun _ _ => ⟨le_rfl, rfl⟩⟩
  unbond := unbondTx_steps fun _ _ _ _ _ _ => ⟨[], rfl, fun _ _ => ⟨le_rfl, rfl⟩⟩
  deleteRecord _ _ := ⟨[], rfl, fun _ _ => ⟨le_rfl, rfl⟩⟩
  storeBytecode _ _ _ := ⟨[], rfl, fun _ _ => ⟨le_rfl, rfl⟩⟩
  saveState _ _ _ := ⟨[], rfl, fun _ _ => ⟨le_rfl, rfl⟩⟩

theorem tidy_burn (a : Key) (n : Int) (h0 : 0 ≤ n) : Steps Tidy (burnTx a n) := by
  refine steps_bind (steps_read _) fun _ => steps_bind (steps_check _ _) fun _ => fun db => ?_
  rcases changeBalance_cases a (· - n) (fun _ => .burned a n) db with ⟨hf, h⟩ | ⟨er, h⟩ <;> rw [h]
  · have hsup := supply_setBalance db a hf
    refine ⟨[.burned a n], rfl, fun _ _ => ⟨?_, ?_⟩⟩
    · show (db.setBalance a (readBalance db a - n)).supply ≤ db.supply
      omega
    · rw [total_logged, total_setBalance]
      exact zero_add _
  · exact Std.Refl.refl db

/-! ## What each loop burns and mints -/

variable {W : World} {ctx : BlockCtx}

theorem slashTx_burnt {P : Prim} {v : Key} {db db' : DB} {n : Nat} (h : slashTx P v db = (.ok n, db')) :
    total Event.burnt db' = total Event.burnt db + n := by
  obtain ⟨rec?, d1, h1, h⟩ := bind_ok.mp h
  obtain ⟨rfl, rfl⟩ := read_ok.mp h1
  cases hr : db.validators.get v with
  | none =>
    rw [hr] at h
    exact absurd h fail_ok
  | some r =>
    rw [hr] at h
    obtain ⟨_, d1, h1, h⟩ := bind_ok.mp h
    obtain ⟨_, d2, h2, h⟩ := bind_ok.mp h
    obtain ⟨rfl, rfl⟩ := pure_ok.mp h
    obtain rfl := write_ok.mp h2
    obtain ⟨-, -, rfl⟩ := burnTx_ok h1
    show total Event.burnt ((db.setBalance _ _).logged _) = _
    rw [total_logged, total_setBalance, Event.burnt, add_comm]

theorem applyTx_burnt {t : Tx} (hv : ∀ v ∈ t.value, 0 ≤ v) {db db' : DB} {o : TxOut}
    (h : applyTx W ctx t db = (.ok o, db')) : total Event.burnt db' = total Event.burnt db + o.slashed := by
  by_cases ht : t.type = .equivEvidence
  · simp only [applyTx, ht] at h
    obtain ⟨v, d1, h1, h⟩ := bind_ok.mp h
    obtain ⟨-, rfl⟩ := lift_ok.mp h1
    rcases unlessFault_ok h with ⟨d1, h1, h⟩ | ⟨e, h1, -, rfl⟩
    · have hn : total Event.burnt d1 = total Event.burnt db := (burnt_txOps.nonce _ _).run h1
      obtain ⟨n, d2, h2, h⟩ := bind_ok.mp h
      obtain ⟨rfl, rfl⟩ := pure_ok.mp h
      rw [slashTx_burnt h2, hn]
    · have hn : total Event.burnt db' = total Event.burnt db := (burnt_txOps.nonce _ _).run h1
      simpa using hn
  · have hs : total Event.burnt db' = total Event.burnt db :=
      (applyTx_steps burnt_txOps.toCoreOps W ctx hv (fun _ => burnt_txOps.bond _) fun e => absurd e ht).run h
    rw [applyTx_slashed ht h, hs]
    simp

theorem txLoop_burnt {txs : List Tx} (hv : ∀ t ∈ txs, ∀ v ∈ t.value, 0 ≤ v) :
    ∀ {db db' : DB} {outs : List TxOut}, txLoop W ctx txs db = (.ok outs, db') →
      total Event.burnt db' = total Event.burnt db + ((outs.map TxOut.slashed).sum : Nat) := by
  induction txs with
  | nil =>
    intro db db' outs h
    obtain ⟨rfl, rfl⟩ := mapM_nil_ok.mp h
    simp
  | cons t txs ih =>
    intro db db' outs h
    obtain ⟨o, d1, os, h1, h2, rfl⟩ := mapM_cons_ok.mp h
    have e1 := applyTx_burnt (hv t List.mem_cons_self) h1
    have e2 := ih (fun t ht => hv t (List.mem_cons_of_mem _ ht)) h2
    rw [e2, e1]
    simp only [List.map_cons, List.sum_cons]
    push_cast
    omega

/-- The gas of some transactions, without the wrap of the 64-bit counter. -/
def gasSum (outs : List TxOut) : Nat := (outs.map fun o => (gasUnits o).toNat).sum

theorem gasLoop_burnt (fee : Fee) : ∀ {l : List (Tx × TxOut)} {g g' : UInt64} {db db' : DB},
    l.foldlM (chargeGas fee) g db = (.ok g', db') →
      total Event.burnt db' = total Event.burnt db + fee.val * (gasSum (l.map (·.2)) : Nat) ∧
      g'.toNat = (g.toNat + gasSum (l.map (·.2))) % 2 ^ 64 := by
  intro l
  induction l with
  | nil =>
    intro g g' db db' h
    obtain ⟨rfl, rfl⟩ := pure_ok.mp h
    exact ⟨by simp [gasSum], by simp [gasSum, Nat.mod_eq_of_lt g.toNat_lt]⟩
  | cons p l ih =>
    intro g g' db db' h
    obtain ⟨g1, d1, h1, h2⟩ := foldlM_cons_ok.mp h
    obtain ⟨e2, eg⟩ := ih h2
    have hfee : ¬ fee.val = 0 := by have := fee.pos; omega
    rw [chargeGas, if_neg hfee] at h1
    obtain ⟨_, d2, h3, h4⟩ := bind_ok.mp h1
    obtain ⟨rfl, rfl⟩ := pure_ok.mp h4
    obtain ⟨-, -, rfl⟩ := burnTx_ok h3
    refine ⟨?_, ?_⟩
    · rw [e2, total_logged, total_setBalance, Event.burnt]
      simp only [gasSum, List.map_cons, List.sum_cons]
      push_cast
      ring
    · rw [eg, UInt64.toNat_add]
      simp only [gasSum, List.map_cons, List.sum_cons]
      omega

theorem missLoop_burnt : ∀ {txs : List Tx} {n n' : Nat} {db db' : DB},
    txs.foldlM (applyMiss W) n db = (.ok n', db') →
      total Event.burnt db' = total Event.burnt db + ((n' : Int) - n) := by
  intro txs
  induction txs with
  | nil =>
    intro n n' db db' h
    obtain ⟨rfl, rfl⟩ := pure_ok.mp h
    simp
  | cons t txs ih =>
    intro n n' db db' h
    obtain ⟨n1, d1, h1, h2⟩ := foldlM_cons_ok.mp h
    rw [ih h2]
    unfold applyMiss at h1
    split at h1
    swap
    · obtain ⟨rfl, rfl⟩ := pure_ok.mp h1
      rfl
    obtain ⟨amt, d2, h3, h1⟩ := bind_ok.mp h1
    have e3 : total Event.burnt d2 = total Event.burnt db := (recordMissTx_same (fun _ => rfl) _).run h3
    split at h1
    · obtain ⟨_, d3, h4, h1⟩ := bind_ok.mp h1
      obtain ⟨rfl, rfl⟩ := pure_ok.mp h1
      obtain ⟨-, -, rfl⟩ := burnTx_ok h4
      rw [total_logged, total_setBalance, Event.burnt, e3]
      push_cast
      omega
    · obtain ⟨rfl, rfl⟩ := pure_ok.mp h1
      rw [e3]
      push_cast
      omega

theorem mintLoop_mint : ∀ {l : List (Key × Int)} {db db' : DB} {u : PUnit},
    l.forM (creditShare W) db = (.ok u, db') → total Event.mint db' = total Event.mint db + (l.map (·.2)).sum := by
  intro l
  induction l with
  | nil =>
    intro db db' u h
    obtain ⟨-, rfl⟩ := pure_ok.mp h
    simp
  | cons p l ih =>
    intro db db' u h
    obtain ⟨_, d1, h1, h2⟩ := bind_ok.mp h
    rw [ih h2, List.map_cons, List.sum_cons]
    unfold creditShare at h1
    split at h1
    · rename_i hz
      obtain ⟨-, rfl⟩ := pure_ok.mp h1
      omega
    · rw [creditTx_ok h1, total_logged, total_setBalance, Event.mint]
      omega

/-! ## A block -/

theorem accounted_blockOps : BlockOps KeepsAccounted where
  move source target amount short _ := moveBalance_accounted source target amount short
  nonce := advanceNonceTx_accounted
  bond _ _ _ _ := id
  unbond := unbondTx_steps fun _ _ _ _ _ _ => id
  deleteRecord _ _ := id
  storeBytecode _ _ _ := id
  saveState _ _ _ := id
  burn a n _ := burnTx_accounted a n
  miss := recordMissTx_steps fun v _ _ db _ hacc => by
    have hacc : db.supply = net db.journal := hacc
    show db.supply = net (.miss v :: db.journal)
    rw [net_cons, hacc, Event.net, zero_add]
  credit := creditTx_accounted

variable {order : MapOrder} {pre post : DB} {b : Block} {chainID : List UInt8}

theorem BlockRun.accounted (run : BlockRun W order pre b chainID post) (h : Accounted pre) : Accounted post := by
  have h1 : run.afterMint.supply = net run.afterMint.journal := run.steps accounted_blockOps h
  show post.supply = net post.journal
  rw [DB.supply, run.balances, run.journal]
  exact h1

theorem BlockRun.totals (run : BlockRun W order pre b chainID post) :
    total Event.seed post = total Event.seed pre ∧
    total Event.mint post = total Event.mint pre + mintAmountOf pre ∧
    total Event.burnt post = total Event.burnt pre + ((run.outs.map TxOut.slashed).sum : Nat) +
      (currentBaseFee pre).val * (gasSum run.outs : Nat) + run.missSlashed ∧
    total Event.slip post = total Event.slip run.afterTxs ∧
    run.totalGas.toNat = gasSum run.outs % 2 ^ 64 := by
  have hpost : ∀ f, total f post = total f run.afterMint := fun f => by unfold total; rw [run.journal]
  have hzip : (b.txs.zip run.outs).map (·.2) = run.outs := List.map_snd_zip (mapM_length run.ranTxs).le
  obtain ⟨hgas, htg⟩ := gasLoop_burnt (currentBaseFee pre) run.ranGas
  rw [hzip] at hgas htg
  -- what the three later loops do to a total that weighs neither burns, misses nor mints
  have gasSame : ∀ {f : Event → Int}, (∀ a n, f (.burned a n) = 0) → total f run.afterGas = total f run.afterTxs :=
    fun hf => (steps_foldlM (fun g p _ => chargeGas_steps (fun a n _ => burnTx_same hf a n) _ g p) _).run run.ranGas
  have missSame : ∀ {f : Event → Int}, (∀ a n, f (.burned a n) = 0) → (∀ v, f (.miss v) = 0) →
      total f run.afterMiss = total f run.afterGas := fun hf hm =>
    (steps_foldlM (fun n t _ => applyMiss_steps (fun a n _ => burnTx_same hf a n) (recordMissTx_same hm) W n t) _).run
      run.ranMiss
  have mintSame : ∀ {f : Event → Int}, (∀ a n, f (.minted a n) = 0) → total f run.afterMint = total f run.afterMiss :=
    fun hf => (steps_forM fun p _ =>
      creditShare_steps (fun _ _ => changeBalance_steps fun _ _ => Same.logged (hf _ _)) W p).run run.ranMint
  have hmint : (((bondedAmounts pre).map (·.1)).zip
      (splitReward (mintAmountOf pre) ((bondedAmounts pre).map (·.1)).length)).map (·.2) =
      splitReward (mintAmountOf pre) ((bondedAmounts pre).map (·.1)).length :=
    List.map_snd_zip (length_splitReward _ _).le
  have hsum : (splitReward (mintAmountOf pre) ((bondedAmounts pre).map (·.1)).length).sum = mintAmountOf pre := by
    refine splitReward_sum ?_ fun hl => ?_
    · unfold mintAmountOf
      split
      · exact le_rfl
      · exact mintPerBlock_nonneg _ _
    · unfold mintAmountOf
      rw [if_pos (by simpa using hl)]
  refine ⟨?_, ?_, ?_, ?_, ?_⟩
  · rw [hpost, mintSame fun _ _ => rfl, missSame (fun _ _ => rfl) fun _ => rfl, gasSame fun _ _ => rfl]
    exact (txLoop_steps seed_txOps W _ run.values fun a n _ => burnTx_same (fun _ _ => rfl) a n).run run.ranTxs
  · have htx : total Event.mint run.afterTxs = total Event.mint pre :=
      (txLoop_steps mint_txOps W _ run.values fun a n _ => burnTx_same (fun _ _ => rfl) a n).run run.ranTxs
    rw [hpost, mintLoop_mint run.ranMint, missSame (fun _ _ => rfl) fun _ => rfl, gasSame fun _ _ => rfl, htx,
      hmint, hsum]
  · rw [hpost, mintSame fun _ _ => rfl, missLoop_burnt run.ranMiss, hgas, txLoop_burnt run.values run.ranTxs]
    push_cast
    omega
  · rw [hpost, mintSame fun _ _ => rfl, missSame (fun _ _ => rfl) fun _ => rfl, gasSame fun _ _ => rfl]
  · rw [htg]
    simp

/-- What an accepted block does to the difference between the balances and the tracked
    supply: the slip of its moves, and the gas the 64-bit counter lost. -/
theorem block_supply (run : BlockRun W order pre b chainID post) (hacc : Accounted pre) {s : Nat}
    (hs : pre.totalSupply = some s) : ∃ n : Nat, post.totalSupply = some n ∧
      post.supply - n = pre.supply - s + (total Event.slip run.afterTxs - total Event.slip pre) -
        (currentBaseFee pre).val * ((gasSum run.outs : Int) - run.totalGas.toNat) := by
  obtain ⟨n, hn, hval⟩ := run.supply s hs
  obtain ⟨hseed, hmint, hburnt, hslip, -⟩ := run.totals
  have h1 : pre.supply = net pre.journal := hacc
  have h2 : post.supply = net post.journal := run.accounted hacc
  rw [net_eq] at h1 h2
  refine ⟨n, hn, ?_⟩
  rw [h2, h1, hval, hseed, hmint, hburnt, hslip]
  push_cast
  ring

/-! ## The journal of a block -/

/-- Steps that only add to the journal. -/
def Grows (db db' : DB) : Prop := ∃ new, db'.journal = new ++ db.journal

instance : Std.Refl Grows := ⟨fun _ => ⟨[], rfl⟩⟩
instance : IsTrans DB Grows := ⟨fun _ _ _ ⟨n1, e1⟩ ⟨n2, e2⟩ => ⟨n2 ++ n1, by rw [e2, e1, List.append_assoc]⟩⟩

theorem burnTx_grows (a : Key) (n : Int) : Steps Grows (burnTx a n) :=
  burnTx_steps (changeBalance_steps fun _ _ => ⟨[_], rfl⟩)

theorem recordMissTx_grows (v : Key) : Steps Grows (recordMissTx v) :=
  recordMissTx_steps (fun v _ _ _ _ => ⟨[.miss v], rfl⟩) v

theorem BlockRun.grows (run : BlockRun W order pre b chainID post) : Grows run.afterTxs post := by
  have h2 := (steps_foldlM (fun g p _ => chargeGas_steps (fun a n _ => burnTx_grows a n) _ g p) _).run run.ranGas
  have h3 := (steps_foldlM (fun n t _ =>
    applyMiss_steps (fun a n _ => burnTx_grows a n) recordMissTx_grows W n t) _).run run.ranMiss
  have h4 := (steps_forM fun p _ =>
      creditShare_steps (fun _ _ => changeBalance_steps (R := Grows) fun _ _ => ⟨[_], rfl⟩) W p).run run.ranMint
  obtain ⟨new, e⟩ : Grows run.afterTxs run.afterMint := IsTrans.trans _ _ _ h2 (IsTrans.trans _ _ _ h3 h4)
  exact ⟨new, by rw [run.journal, e]⟩

theorem grows_txOps : TxOps Grows where
  move _ _ _ _ _ := moveBalance_steps (fun _ _ => ⟨[_], rfl⟩) fun _ _ => ⟨[_], rfl⟩
  nonce := advanceNonceTx_steps fun a n _ _ => ⟨[.nonce a n], rfl⟩
  bond _ _ _ _ := ⟨[], rfl⟩
  unbond := unbondTx_steps fun _ _ _ _ _ _ => ⟨[], rfl⟩
  deleteRecord _ _ := ⟨[], rfl⟩
  storeBytecode _ _ _ := ⟨[], rfl⟩
  saveState _ _ _ := ⟨[], rfl⟩

theorem BlockRun.journal_new (run : BlockRun W order pre b chainID post) :
    post.journal = newEvents pre post ++ pre.journal := by
  have htxs := (txLoop_steps grows_txOps W _ run.values fun a n _ => burnTx_grows a n).run run.ranTxs
  obtain ⟨new, e⟩ : Grows pre post := IsTrans.trans _ _ _ htxs run.grows
  rw [newEvents_eq e, e]

/-! ## Mints and burns of a block -/

/-- The gas of a block: what its transactions use when they run on `pre`, unwrapped. -/
def blockGas (W : World) (pre : DB) (b : Block) (chainID : List UInt8) : Nat :=
  match txLoop W (ctxOf pre b chainID) b.txs pre with
  | (.ok outs, _) => gasSum outs
  | _ => 0

theorem BlockRun.totalGas_eq (run : BlockRun W order pre b chainID post) (h : blockGas W pre b chainID < 2 ^ 64) :
    run.totalGas.toNat = gasSum run.outs := by
  rw [blockGas, run.ranTxs] at h
  rw [run.totals.2.2.2.2, Nat.mod_eq_of_lt h]

/-- What `f` makes of some events, added up. -/
def sumOver (f : Event → Int) (l : List Event) : Int := (l.map f).sum

theorem BlockRun.total_new (run : BlockRun W order pre b chainID post) (f : Event → Int) :
    total f post = total f pre + sumOver f (newEvents pre post) := by
  unfold total sumOver
  rw [run.journal_new, List.map_append, List.sum_append, add_comm]

/-- The tracked supply changes by what `CreditTx` credited less what `BurnTx` removed. -/
theorem supply_delta {r : Result} {s : Nat} (hok : applyBlockForChain W order pre b chainID = (.ok r, post))
    (hs : pre.totalSupply = some s) (hgas : blockGas W pre b chainID < 2 ^ 64) :
    ∃ n : Nat, post.totalSupply = some n ∧
      (n : Int) - s = sumOver Event.mint (newEvents pre post) - sumOver Event.burnt (newEvents pre post) := by
  obtain ⟨run, -⟩ := applyBlockForChain_ok hok
  obtain ⟨n, hn, hval⟩ := run.supply s hs
  obtain ⟨-, hmint, hburnt, -, -⟩ := run.totals
  rw [run.total_new] at hmint hburnt
  rw [run.totalGas_eq hgas] at hval
  refine ⟨n, hn, ?_⟩
  rw [Nat.cast_add] at hval
  omega

/-! ## Runs -/

def NoSelfMove (l : List Event) : Prop := ∀ e ∈ l, e.selfMove = false

instance (l : List Event) : Decidable (NoSelfMove l) := inferInstanceAs (Decidable (∀ e ∈ l, e.selfMove = false))

/-- A block without a move of an account to itself, on a supply below 2^256, with less than
    2^64 gas. -/
structure SupplySafe (W : World) (pre : DB) (b : Block) (chainID : List UInt8) (post : DB) : Prop where
  bounded : (pre.totalSupply.getD 0 : Int) ≤ maxUint256
  noSelfMove : NoSelfMove (newEvents pre post)
  gas : blockGas W pre b chainID < 2 ^ 64

/-- The balances add up to the tracked supply. -/
def Tracked (db : DB) : Prop := ∃ n : Nat, db.totalSupply = some n ∧ db.supply = n

theorem BlockRun.tracked (run : BlockRun W order pre b chainID post) (hacc : Accounted pre) (ht : Tracked pre)
    (hsafe : SupplySafe W pre b chainID post) : Tracked post := by
  obtain ⟨s, hs, hsup⟩ := ht
  obtain ⟨n, hn, hd⟩ := block_supply run hacc hs
  have htg := run.totalGas_eq hsafe.gas
  obtain ⟨n1, e1, htidy⟩ := (txLoop_steps tidy_txOps W _ run.values tidy_burn).run run.ranTxs
  obtain ⟨n2, e2⟩ := run.grows
  have hnew : newEvents pre post = n2 ++ n1 := newEvents_eq (by rw [e2, e1, List.append_assoc])
  have hslip := (htidy (fun e he => hsafe.noSelfMove e (by rw [hnew]; exact List.mem_append_right _ he)) (by
    have := hsafe.bounded
    rw [hs] at this
    rw [hsup]
    exact this)).2
  refine ⟨n, hn, ?_⟩
  rw [hslip, htg] at hd
  simp only [sub_self, mul_zero] at hd
  omega

/-! ## Genesis -/

/-- The seeded accounts so far are the ones in the ledger. -/
structure Seeded (seen : Bucket Key Int) (db : DB) : Prop where
  balance : ∀ a, readBalance db a = valueOr0 id (seen.get a)
  sum : db.supply = seen.sumBy id

theorem seedEntry_seeded {seen seen' : Bucket Key Int} {e : GenesisEntry} {db db' : DB} (hi : Seeded seen db)
    (h : seedEntry seen e db = (.ok seen', db')) : Seeded seen' db' := by
  obtain ⟨addr, d1, h1, h⟩ := bind_ok.mp h
  obtain ⟨-, rfl⟩ := lift_ok.mp h1
  obtain ⟨amt, d1, h1, h⟩ := bind_ok.mp h
  obtain ⟨-, rfl⟩ := lift_ok.mp h1
  obtain ⟨_, d1, h1, h⟩ := bind_ok.mp h
  obtain ⟨rfl, rfl⟩ := pure_ok.mp h
  have h1 := mapErr_ok.mp h1
  rcases changeBalance_cases addr (fun _ => amt) (fun old => .seeded addr old amt) db with ⟨hf, h2⟩ | ⟨er, h2⟩
  swap
  · cases (Prod.mk.inj (h1.symm.trans h2)).1
  obtain rfl := (Prod.mk.inj (h1.symm.trans h2)).2
  refine ⟨fun a => ?_, ?_⟩
  · show readBalance (db.setBalance addr amt) a = _
    rw [readBalance_setBalance db addr a hf, Bucket.get_put]
    split
    · rfl
    · exact hi.balance a
  · show (db.setBalance addr amt).supply = _
    rw [supply_setBalance db addr hf, Bucket.sumBy_put, hi.balance, hi.sum]
    rfl

theorem moveTx_supply {source target : Key} {amount : Int} {db db' : DB} {u : Unit}
    (h : moveTx source target amount db = (.ok u, db')) : db'.totalSupply = db.totalSupply ∧
      ∃ new, db'.journal = new ++ db.journal ∧ (NoSelfMove new → db'.supply = db.supply) := by
  obtain ⟨hf, hf2, rfl⟩ := moveTx_ok h
  refine ⟨rfl, [.credited source target amount, .debited source target amount], rfl, fun hs => ?_⟩
  have hc := hs (.credited source target amount) List.mem_cons_self
  rw [supply_movedDB db source target hf hf2]
  by_cases hst : source = target
  · have hz : amount = 0 := by simpa [Event.selfMove, hst] using hc
    rw [if_pos hst, hz, add_zero]
  · rw [if_neg hst, add_zero]

theorem bondEntry_supply {P : Prim} {e : GenesisEntry} {db db' : DB} {u : Unit}
    (h : bondEntry P e db = (.ok u, db')) : db'.totalSupply = db.totalSupply ∧
      ∃ new, db'.journal = new ++ db.journal ∧ (NoSelfMove new → db'.supply = db.supply) := by
  obtain ⟨pub, d1, h1, h⟩ := bind_ok.mp h
  obtain ⟨-, rfl⟩ := lift_ok.mp h1
  obtain ⟨amt, d1, h1, h⟩ := bind_ok.mp h
  obtain ⟨-, rfl⟩ := lift_ok.mp h1
  obtain ⟨_, d1, -, -, h1, h⟩ := bondTx_ok (mapErr_ok.mp h)
  obtain rfl := write_ok.mp h
  have hmove := moveTx_supply h1
  exact hmove

theorem bondEntries_supply {P : Prim} : ∀ {l : List GenesisEntry} {db db' : DB} {u : PUnit},
    l.forM (bondEntry P) db = (.ok u, db') → db'.totalSupply = db.totalSupply ∧
      ∃ new, db'.journal = new ++ db.journal ∧ (NoSelfMove new → db'.supply = db.supply) := by
  intro l
  induction l with
  | nil =>
    intro db db' u h
    obtain ⟨-, rfl⟩ := pure_ok.mp h
    exact ⟨rfl, [], rfl, fun _ => rfl⟩
  | cons e l ih =>
    intro db db' u h
    obtain ⟨_, d1, h1, h2⟩ := bind_ok.mp h
    obtain ⟨t1, n1, e1, s1⟩ := bondEntry_supply h1
    obtain ⟨t2, n2, e2, s2⟩ := ih h2
    refine ⟨t2.trans t1, n2 ++ n1, by rw [e2, e1, List.append_assoc], fun hs => ?_⟩
    rw [s2 fun e he => hs e (List.mem_append_left _ he), s1 fun e he => hs e (List.mem_append_right _ he)]

theorem genesis_tracked {P : Prim} {g : Genesis} {db : DB} (h : applyGenesis P DB.new g = (.ok (), db))
    (hs : NoSelfMove db.journal) : Tracked db := by
  have h := applyGenesis_new h
  obtain ⟨seen, d1, h1, h⟩ := bind_ok.mp h
  have hseed : Seeded seen d1 := foldlM_inv (P := Seeded) (fun seen e db seen' db' _ hi h => seedEntry_seeded hi h)
    ⟨fun _ => rfl, rfl⟩ h1
  obtain ⟨_, d2, h2, h⟩ := bind_ok.mp h
  obtain ⟨_, d3, h3, h4⟩ := bind_ok.mp (mapErr_ok.mp h2)
  obtain ⟨h0, rfl⟩ := check_ok.mp h3
  obtain rfl := write_ok.mp h4
  obtain ⟨_, d4, h5, h⟩ := bind_ok.mp h
  obtain rfl := write_ok.mp h
  obtain ⟨t4, new, e4, s4⟩ := bondEntries_supply h5
  refine ⟨(seen.sumBy id).toNat, t4, ?_⟩
  have hnew : NoSelfMove new := fun e he => hs e (by
    show e ∈ d4.journal
    rw [e4]
    exact List.mem_append_left _ he)
  show d4.supply = _
  rw [s4 hnew, Int.toNat_of_nonneg h0]
  exact hseed.sum

theorem genesis_accounted {P : Prim} {g : Genesis} {db : DB} (h : applyGenesis P DB.new g = (.ok (), db)) :
    Accounted db := by
  have hops : TxOps KeepsAccounted := accounted_blockOps.toTxOps
  have hkeeps : KeepsAccounted DB.new db :=
    genesisTx_steps seedTx_accounted (fun _ _ => id) hops.move hops.bond (fun _ => id) (applyGenesis_new h)
  exact hkeeps accounted_new

/-! ## Conservation -/

/-- In every run from a genesis whose moves and blocks are safe, the balances add up to the
    tracked supply in every state. -/
theorem supply_tracked {W : World} {db : DB}
    (h : Reached W (fun db => NoSelfMove db.journal) (SupplySafe W) db) : Tracked db := by
  suffices Accounted db ∧ Tracked db from this.2
  obtain ⟨db₀, ⟨g, hg, hs⟩, hrun⟩ := h
  refine run_keeps (I := fun db => Accounted db ∧ Tracked db) (fun ih ⟨a, ⟨order, hb⟩, hsafe⟩ => ?_) hrun
    ⟨genesis_accounted hg, genesis_tracked hg hs⟩
  obtain ⟨run, -⟩ := applyBlockForChain_ok hb
  exact ⟨run.accounted ih.1, run.tracked ih.1 ih.2 hsafe⟩

/-- Two accounts, one of them with 100. -/
def twoAccounts : Genesis := ⟨[], [⟨"", some 1, "", some 100⟩, ⟨"", some 2, "", some 0⟩]⟩

def genesisDB : DB := (applyGenesis Prim.sample DB.new twoAccounts).2

/-- The first block after it, with one transfer of 10 from account 1. -/
def paying (target : Key) : Block := Block.plain 1 [(Tx.plain .transfer 1 target 10 1).signed Prim.sample []]

def paid (target : Key) : Res Result × DB := applyBlockForChain World.sample .id genesisDB (paying target) []

theorem paid_runs : (paid 2).1.isOk = true ∧ sumOver Event.burnt (newEvents genesisDB (paid 2).2) = 1 ∧
    NoSelfMove (newEvents genesisDB (paid 2).2) ∧ blockGas World.sample genesisDB (paying 2) [] < 2 ^ 64 := by
  decide +kernel

theorem paid_accepted : ∃ r, applyBlockForChain World.sample .id genesisDB (paying 2) [] = (.ok r, (paid 2).2) :=
  Go.run_eq (p := paid 2) paid_runs.1

theorem genesisDB_supply : genesisDB.totalSupply = some 100 := rfl

/-- The block of one transfer burns its fee of 1 and mints nothing. -/
theorem supply_delta_paid : ∃ n : Nat, (paid 2).2.totalSupply = some n ∧
    (n : Int) - 100 = sumOver Event.mint (newEvents genesisDB (paid 2).2) -
      sumOver Event.burnt (newEvents genesisDB (paid 2).2) ∧
    sumOver Event.burnt (newEvents genesisDB (paid 2).2) = 1 := by
  obtain ⟨r, hok⟩ := paid_accepted
  obtain ⟨n, hn, hval⟩ := supply_delta hok genesisDB_supply (by decide)
  exact ⟨n, hn, hval, paid_runs.2.1⟩

theorem supply_tracked_paid : Tracked (paid 2).2 := by
  obtain ⟨_, hg⟩ := Go.run_eq (p := applyGenesis Prim.sample DB.new twoAccounts) rfl
  obtain ⟨r, hb⟩ := paid_accepted
  have hsafe : SupplySafe World.sample genesisDB (paying 2) [] (paid 2).2 :=
    ⟨by decide, paid_runs.2.2.1, paid_runs.2.2.2⟩
  exact supply_tracked ⟨genesisDB, ⟨twoAccounts, hg, by decide⟩, .single ⟨⟨paying 2, [], r⟩, ⟨.id, hb⟩, hsafe⟩⟩

/-- A transfer of 10 from an account to itself leaves it with 10 more: the balances add up
    to 109 after the fee, and the tracked supply is 99. -/
theorem selfTransfer_inflates : (applyGenesis Prim.sample DB.new twoAccounts).1 = .ok () ∧
    (paid 1).1.isOk = true ∧ (paid 1).2.supply = 109 ∧ (paid 1).2.totalSupply = some 99 := by
  decide +kernel

end Frg.Chain
