/-
  Frg.Chain.Ledger — `core/ledger/ledger.go` inside a bolt transaction: balances,
  nonces, transfers, moves, burns and credits.

  `TransferTx` and `MoveTx` share `moveBalance`: both read the two balances, then write
  the source, then the target. A target that overflows fails after the source was
  written, and a target that is the source is written over with a balance read before
  the debit. What is proved:

    - `advanceNonceTx_skip`, `advanceNonceTx_ok`: what the nonce check does.
    - `*_accounted`: every ledger operation, failed or not, keeps the journal in step
      with the sum of balances.
-/

import Frg.Chain.Store
import Frg.Wire.Tx

namespace Frg.Chain

open Frg.Lib Frg.Core Frg.Wire

def validateUint256 (v : Int) (label : String) : Res Unit := do
  Go.check (0 ≤ v) (.rg .arithmeticOverflow (label ++ " is out of uint256 range"))
  Go.check (v ≤ maxUint256) (.rg .arithmeticOverflow (label ++ " exceeds uint256"))

def readBalance (db : DB) (account : Key) : Int :=
  match db.balances.get account with
  | none => 0
  | some w => w.val

def DB.setBalance (db : DB) (account : Key) (bal : Int) : DB :=
  { db with balances := db.balances.put account (Fin.ofNat _ bal.toNat) }

def writeBalance (account : Key) (bal : Int) : M Unit := do
  Act.lift (validateUint256 bal "balance")
  Act.write fun db => db.setBalance account bal

def balanceOfTx (account : Key) : M Int := Act.read fun db => readBalance db account

def nonceOf (db : DB) (account : Key) : UInt64 := (db.nonces.get account).getD 0

def advanceNonceTx (account : Key) (nonce : UInt64) : M Unit := do
  let stored ← Act.read fun db => nonceOf db account
  Act.check (nonce = stored + 1)
    (.rg .sequenceFault s!"expected nonce {(stored + 1).toNat}, got {nonce.toNat}")
  Act.write fun db => { db with nonces := db.nonces.put account nonce }
  log (.nonce account nonce)

def DB.advanced (db : DB) (account : Key) (nonce : UInt64) : DB :=
  ({ db with nonces := db.nonces.put account nonce } : DB).logged (.nonce account nonce)

/-- The two balance writes of `TransferTx` and `MoveTx`. -/
def moveBalance (source target : Key) (amount : Int) (short : String) : M Unit := do
  let fromBal ← balanceOfTx source
  Act.check (amount ≤ fromBal) (.rg .insufficientFunds short)
  let toBal ← balanceOfTx target
  writeBalance source (fromBal - amount)
  log (.debited source target amount)
  writeBalance target (toBal + amount)
  log (.credited source target amount)

/-- The code dereferences the value's pointer. -/
def transferTx (t : Tx) : M Unit := do
  advanceNonceTx t.senderPubKey t.nonce
  match t.value with
  | none => Act.stop "nil pointer dereference"
  | some value => moveBalance t.senderPubKey t.receiverPubKey value "sender balance insufficient"

def moveTx (source target : Key) (amount : Int) : M Unit := do
  Act.lift (validateUint256 amount "move amount")
  moveBalance source target amount "insufficient balance to move"

/-- Read a balance, write what `f` makes of it, record the event. -/
def changeBalance (account : Key) (f : Int → Int) (e : Int → Event) : M Unit := do
  let bal ← balanceOfTx account
  writeBalance account (f bal)
  log (e bal)

def burnTx (account : Key) (amount : Int) : M Unit := do
  let bal ← balanceOfTx account
  Act.check (amount ≤ bal) (.rg .insufficientFunds "insufficient balance to burn")
  changeBalance account (· - amount) fun _ => .burned account amount

def seedTx (account : Key) (amount : Int) : M Unit :=
  changeBalance account (fun _ => amount) fun old => .seeded account old amount

def creditTx (account : Key) (amount : Int) : M Unit :=
  changeBalance account (· + amount) fun _ => .minted account amount

/-! ## Balances -/

/-- A value `validateUint256` accepts. -/
def Fits (v : Int) : Prop := 0 ≤ v ∧ v ≤ maxUint256

theorem validateUint256_cases (v : Int) (label : String) :
    (Fits v ∧ validateUint256 v label = .ok ()) ∨ (¬ Fits v ∧ ∃ e, validateUint256 v label = .err e) := by
  unfold validateUint256 Fits Go.check
  by_cases h0 : 0 ≤ v <;> by_cases h1 : v ≤ maxUint256 <;> simp [h0, h1]

theorem readBalance_nonneg (db : DB) (a : Key) : 0 ≤ readBalance db a := by
  unfold readBalance
  split <;> omega

theorem readBalance_setBalance (db : DB) (a b : Key) {v : Int} (h : Fits v) :
    readBalance (db.setBalance a v) b = if b = a then v else readBalance db b := by
  have hv : v.toNat < 256 ^ 32 := by
    have := h.2
    unfold maxUint256 at this
    omega
  unfold readBalance DB.setBalance
  rw [Bucket.get_put]
  by_cases hb : b = a
  · simp only [hb, if_true, Fin.val_ofNat, Nat.mod_eq_of_lt hv]
    exact Int.toNat_of_nonneg h.1
  · simp only [hb, if_false]

theorem supply_setBalance (db : DB) (a : Key) {v : Int} (h : Fits v) :
    (db.setBalance a v).supply = db.supply - readBalance db a + v := by
  have hv : v.toNat < 256 ^ 32 := by
    have := h.2
    unfold maxUint256 at this
    omega
  have hr : valueOr0 (fun w : Word 32 => (w.val : Int)) (db.balances.get a) = readBalance db a := by
    unfold readBalance
    cases db.balances.get a <;> rfl
  unfold DB.supply DB.setBalance
  rw [Bucket.sumBy_put, hr]
  simp only [Fin.val_ofNat, Nat.mod_eq_of_lt hv, Int.toNat_of_nonneg h.1]

theorem writeBalance_cases (a : Key) (v : Int) (db : DB) :
    (Fits v ∧ writeBalance a v db = (.ok (), db.setBalance a v)) ∨
      (¬ Fits v ∧ ∃ e, writeBalance a v db = (.err e, db)) := by
  unfold writeBalance
  rw [Act.bind_run]
  unfold Act.lift
  rcases validateUint256_cases v "balance" with ⟨hf, h⟩ | ⟨hf, e, h⟩
  · exact Or.inl ⟨hf, by rw [h]; rfl⟩
  · exact Or.inr ⟨hf, e, by rw [h]⟩

/-! ## Moves -/

/-- The state between the two writes of a move. -/
def debitedDB (db : DB) (source target : Key) (amount : Int) : DB :=
  (db.setBalance source (readBalance db source - amount)).logged (.debited source target amount)

def movedDB (db : DB) (source target : Key) (amount : Int) : DB :=
  ((debitedDB db source target amount).setBalance target (readBalance db target + amount)).logged
    (.credited source target amount)

theorem moveBalance_cases (source target : Key) (amount : Int) (short : String) (db : DB) :
    (¬ (amount ≤ readBalance db source ∧ Fits (readBalance db source - amount)) ∧
      ∃ e, moveBalance source target amount short db = (.err e, db)) ∨
    (Fits (readBalance db source - amount) ∧ ¬ Fits (readBalance db target + amount) ∧
      ∃ e, moveBalance source target amount short db = (.err e, debitedDB db source target amount)) ∨
    (amount ≤ readBalance db source ∧ Fits (readBalance db source - amount) ∧ Fits (readBalance db target + amount) ∧
      moveBalance source target amount short db = (.ok (), movedDB db source target amount)) := by
  unfold moveBalance
  simp only [Act.bind_run, balanceOfTx, Act.read, Act.check, Act.lift, log, Act.write]
  by_cases hc : amount ≤ readBalance db source
  swap
  · exact Or.inl ⟨fun h => hc h.1, .rg .insufficientFunds short, by rw [Go.check_neg hc]⟩
  rw [Go.check_pos hc]
  rcases writeBalance_cases source (readBalance db source - amount) db with ⟨hf, h1⟩ | ⟨hf, e, h1⟩
  swap
  · exact Or.inl ⟨fun h => hf h.2, e, by simp only [h1]⟩
  simp only [h1]
  rw [← debitedDB]
  rcases writeBalance_cases target (readBalance db target + amount) (debitedDB db source target amount) with
    ⟨hf2, h2⟩ | ⟨hf2, e, h2⟩
  · exact Or.inr (Or.inr ⟨hc, hf, hf2, by rw [h2]; rfl⟩)
  · exact Or.inr (Or.inl ⟨hf, hf2, e, by rw [h2]⟩)

theorem readBalance_fits (db : DB) (a : Key) : Fits (readBalance db a) := by
  refine ⟨readBalance_nonneg db a, ?_⟩
  unfold readBalance maxUint256
  split
  · omega
  · rename_i w _
    have := w.isLt
    omega

theorem moveTx_cases (source target : Key) (amount : Int) (db : DB) :
    (¬ (0 ≤ amount ∧ amount ≤ readBalance db source) ∧ ∃ e, moveTx source target amount db = (.err e, db)) ∨
    (0 ≤ amount ∧ amount ≤ readBalance db source ∧ ¬ Fits (readBalance db target + amount) ∧
      ∃ e, moveTx source target amount db = (.err e, debitedDB db source target amount)) ∨
    (0 ≤ amount ∧ amount ≤ readBalance db source ∧ Fits (readBalance db target + amount) ∧
      moveTx source target amount db = (.ok (), movedDB db source target amount)) := by
  have hsource : Fits (readBalance db source) := readBalance_fits db source
  unfold Fits at hsource
  unfold moveTx
  rw [Act.bind_run]
  unfold Act.lift
  rcases validateUint256_cases amount "move amount" with ⟨hf, h⟩ | ⟨hf, e, h⟩
  · unfold Fits at hf
    rw [h]
    rcases moveBalance_cases source target amount "insufficient balance to move" db with
      ⟨hno, hm⟩ | ⟨hle, hover, hm⟩ | ⟨hle, -, hfit, hm⟩
    · refine Or.inl ⟨fun hle => hno ⟨hle.2, ?_⟩, hm⟩
      unfold Fits
      omega
    · unfold Fits at hle
      exact Or.inr (Or.inl ⟨hf.1, by omega, hover, hm⟩)
    · exact Or.inr (Or.inr ⟨hf.1, hle, hfit, hm⟩)
  · refine Or.inl ⟨fun hle => hf ?_, e, by rw [h]⟩
    unfold Fits
    omega

theorem moveTx_ok {source target : Key} {amount : Int} {db db' : DB} {u : Unit}
    (h : moveTx source target amount db = (.ok u, db')) :
    Fits (readBalance db source - amount) ∧ Fits (readBalance db target + amount) ∧
      db' = movedDB db source target amount := by
  have hsource : Fits (readBalance db source) := readBalance_fits db source
  rcases moveTx_cases source target amount db with ⟨-, e, hm⟩ | ⟨-, -, -, e, hm⟩ | ⟨h0, hle, hfit, hm⟩ <;> rw [hm] at h
  · cases (Prod.mk.inj h).1
  · cases (Prod.mk.inj h).1
  · refine ⟨?_, hfit, (Prod.mk.inj h).2.symm⟩
    unfold Fits at hsource ⊢
    omega

theorem validateUint256_code {v : Int} {label : String} {e : Err} (h : validateUint256 v label = .err e) :
    e.code = some .arithmeticOverflow := by
  unfold validateUint256 Go.check at h
  split at h
  · simp only [Go.ok_bind] at h
    split at h
    · cases h
    · cases h
      rfl
  · cases h
    rfl

theorem writeBalance_code {a : Key} {v : Int} {db db' : DB} {e : Err} (h : writeBalance a v db = (.err e, db')) :
    e.code = some .arithmeticOverflow := by
  unfold writeBalance at h
  rw [Act.bind_run] at h
  unfold Act.lift at h
  cases hv : validateUint256 v "balance" with
  | ok _ => rw [hv] at h; cases h
  | err e' =>
    rw [hv] at h
    cases h
    exact validateUint256_code hv
  | panic w => rw [hv] at h; cases h

theorem moveBalance_code {source target : Key} {amount : Int} {short : String} {db db' : DB} {e : Err}
    (h : moveBalance source target amount short db = (.err e, db')) :
    e.code = some .insufficientFunds ∧ readBalance db source < amount ∨ e.code = some .arithmeticOverflow := by
  unfold moveBalance at h
  simp only [Act.bind_run, balanceOfTx, Act.read, Act.check, Act.lift, log, Act.write] at h
  by_cases hc : amount ≤ readBalance db source
  · rw [Go.check_pos hc] at h
    right
    dsimp only at h
    split at h
    · split at h
      · cases h
      · rename_i h2
        cases h
        exact writeBalance_code h2
      · cases h
    · rename_i h1
      cases h
      exact writeBalance_code h1
    · cases h
  · rw [Go.check_neg hc] at h
    cases h
    exact .inl ⟨rfl, by omega⟩

theorem readBalance_debitedDB (db : DB) (source target a : Key) {amount : Int}
    (h : Fits (readBalance db source - amount)) :
    readBalance (debitedDB db source target amount) a =
      if a = source then readBalance db source - amount else readBalance db a :=
  readBalance_setBalance db source a h

theorem readBalance_movedDB {db : DB} {source target : Key} {amount : Int} (h1 : Fits (readBalance db source - amount))
    (h2 : Fits (readBalance db target + amount)) (a : Key) :
    readBalance (movedDB db source target amount) a =
      if a = target then readBalance db target + amount
      else if a = source then readBalance db source - amount else readBalance db a := by
  show readBalance ((debitedDB db source target amount).setBalance target _) a = _
  rw [readBalance_setBalance _ _ _ h2, readBalance_debitedDB db source target a h1]

theorem supply_debitedDB (db : DB) (source target : Key) {amount : Int} (h : Fits (readBalance db source - amount)) :
    (debitedDB db source target amount).supply = db.supply - amount := by
  have := supply_setBalance db source h
  show (db.setBalance source (readBalance db source - amount)).supply = _
  omega

theorem supply_movedDB (db : DB) (source target : Key) {amount : Int} (h1 : Fits (readBalance db source - amount))
    (h2 : Fits (readBalance db target + amount)) :
    (movedDB db source target amount).supply = db.supply + if source = target then amount else 0 := by
  have e1 := supply_debitedDB db source target h1
  have e2 := supply_setBalance (debitedDB db source target amount) target h2
  rw [readBalance_debitedDB db source target target h1] at e2
  show ((debitedDB db source target amount).setBalance target (readBalance db target + amount)).supply = _
  by_cases hst : source = target
  · subst hst
    rw [if_pos rfl] at e2 ⊢
    omega
  · rw [if_neg (Ne.symm hst)] at e2
    rw [if_neg hst]
    omega

/-! ## Accounting -/

/-- Steps that keep the journal in step with the balances. -/
def KeepsAccounted (db db' : DB) : Prop := Accounted db → Accounted db'

instance : Std.Refl KeepsAccounted := ⟨fun _ h => h⟩
instance : IsTrans DB KeepsAccounted := ⟨fun _ _ _ h1 h2 h => h2 (h1 h)⟩

theorem moveBalance_accounted (source target : Key) (amount : Int) (short : String) :
    Act.Steps KeepsAccounted (moveBalance source target amount short) := by
  intro db hacc
  have hacc : db.supply = net db.journal := hacc
  rcases moveBalance_cases source target amount short db with ⟨-, e, h⟩ | ⟨hf, -, e, h⟩ | ⟨-, hf, hf2, h⟩ <;> rw [h]
  · exact hacc
  · show (debitedDB db source target amount).supply = net (.debited source target amount :: db.journal)
    rw [supply_debitedDB db source target hf, net_cons, hacc, Event.net]
    omega
  · show (movedDB db source target amount).supply =
      net (.credited source target amount :: .debited source target amount :: db.journal)
    rw [supply_movedDB db source target hf hf2, net_cons, net_cons, hacc, Event.net, Event.net]
    split <;> omega

theorem changeBalance_cases (a : Key) (f : Int → Int) (e : Int → Event) (db : DB) :
    (Fits (f (readBalance db a)) ∧
      changeBalance a f e db = (.ok (), (db.setBalance a (f (readBalance db a))).logged (e (readBalance db a)))) ∨
    ∃ er, changeBalance a f e db = (.err er, db) := by
  unfold changeBalance
  simp only [Act.bind_run, balanceOfTx, Act.read, log, Act.write]
  rcases writeBalance_cases a (f (readBalance db a)) db with ⟨hf, h⟩ | ⟨-, er, h⟩
  · exact Or.inl ⟨hf, by rw [h]⟩
  · exact Or.inr ⟨er, by rw [h]⟩

theorem changeBalance_run {a : Key} {f : Int → Int} {db : DB} (e : Int → Event) (h : Fits (f (readBalance db a))) :
    changeBalance a f e db = (.ok (), (db.setBalance a (f (readBalance db a))).logged (e (readBalance db a))) := by
  unfold changeBalance
  simp only [Act.bind_run, balanceOfTx, Act.read, log, Act.write]
  rcases writeBalance_cases a (f (readBalance db a)) db with ⟨-, hw⟩ | ⟨hno, -⟩
  · rw [hw]
  · exact absurd h hno

section

variable {R : DB → DB → Prop} [Std.Refl R]

theorem changeBalance_steps {a : Key} {f : Int → Int} {e : Int → Event}
    (write : ∀ db, Fits (f (readBalance db a)) →
      R db ((db.setBalance a (f (readBalance db a))).logged (e (readBalance db a)))) :
    Act.Steps R (changeBalance a f e) := by
  intro db
  rcases changeBalance_cases a f e db with ⟨hf, h⟩ | ⟨_, h⟩ <;> rw [h]
  · exact write db hf
  · exact Std.Refl.refl db

variable [IsTrans DB R]

theorem burnTx_steps {a : Key} {n : Int} (change : Act.Steps R (changeBalance a (· - n) fun _ => .burned a n)) :
    Act.Steps R (burnTx a n) :=
  Act.steps_bind (Act.steps_read _) fun _ => Act.steps_bind (Act.steps_check _ _) fun _ => change

/-- A move writes both balances, one, or none; for a relation that does not read them. -/
theorem moveBalance_steps {source target : Key} {amount : Int} {short : String}
    (debit : ∀ (db : DB) v, R db ((db.setBalance source v).logged (.debited source target amount)))
    (credit : ∀ (db : DB) v, R db ((db.setBalance target v).logged (.credited source target amount))) :
    Act.Steps R (moveBalance source target amount short) := by
  intro db
  rcases moveBalance_cases source target amount short db with ⟨-, e, h⟩ | ⟨-, -, e, h⟩ | ⟨-, -, -, h⟩ <;> rw [h]
  · exact Std.Refl.refl db
  · exact debit db _
  · exact IsTrans.trans _ _ _ (debit db _) (credit (debitedDB db source target amount) _)

end

theorem changeBalance_accounted (a : Key) (f : Int → Int) (e : Int → Event) (he : ∀ v, (e v).net = f v - v) :
    Act.Steps KeepsAccounted (changeBalance a f e) := by
  refine changeBalance_steps fun db hf hacc => ?_
  have hacc : db.supply = net db.journal := hacc
  show (db.setBalance a (f (readBalance db a))).supply = net (e (readBalance db a) :: db.journal)
  rw [supply_setBalance db a hf, net_cons, he, hacc]
  omega

theorem burnTx_accounted (a : Key) (amount : Int) : Act.Steps KeepsAccounted (burnTx a amount) :=
  burnTx_steps (changeBalance_accounted _ _ _ fun v => by simp only [Event.net]; omega)

theorem creditTx_accounted (a : Key) (amount : Int) : Act.Steps KeepsAccounted (creditTx a amount) :=
  changeBalance_accounted _ _ _ fun v => by simp only [Event.net]; omega

theorem seedTx_accounted (a : Key) (amount : Int) : Act.Steps KeepsAccounted (seedTx a amount) :=
  changeBalance_accounted _ _ _ fun v => by simp only [Event.net]

/-! ## Nonces -/

/-- The nonce `AdvanceNonceTx` asks for. -/
def nextNonce (db : DB) (a : Key) : UInt64 := nonceOf db a + 1

theorem advanceNonceTx_ok {a : Key} {n : UInt64} {db : DB} (h : n = nextNonce db a) :
    advanceNonceTx a n db = (.ok (), db.advanced a n) := by
  have hc : n = nonceOf db a + 1 := h
  unfold advanceNonceTx
  simp only [Act.bind_run, Act.read, Act.check, Act.lift, log, Act.write, Go.check_pos hc]
  rfl

theorem advanceNonceTx_skip {a : Key} {n : UInt64} {db : DB} (h : n ≠ nextNonce db a) :
    ∃ msg, advanceNonceTx a n db = (.err (.rg .sequenceFault msg), db) := by
  have hc : ¬ n = nonceOf db a + 1 := h
  unfold advanceNonceTx
  simp only [Act.bind_run, Act.read, Act.check, Act.lift, Go.check_neg hc]
  exact ⟨_, rfl⟩

theorem advanceNonceTx_accounted (a : Key) (n : UInt64) : Act.Steps KeepsAccounted (advanceNonceTx a n) := by
  intro db hacc
  have hacc : db.supply = net db.journal := hacc
  by_cases h : n = nextNonce db a
  · rw [advanceNonceTx_ok h]
    show db.supply = net (.nonce a n :: db.journal)
    rw [net_cons, hacc, Event.net]
    omega
  · obtain ⟨msg, h⟩ := advanceNonceTx_skip h
    rw [h]
    exact hacc

end Frg.Chain
