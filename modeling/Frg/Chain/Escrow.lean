/-
  Frg.Chain.Escrow — the stake behind the validator records, over whole runs from a genesis.

  `K` is the set of keys somebody holds, the validators of the genesis among them. The escrow
  account of a validator is an address without a key (`KeysApart`), so nothing but the staking
  code takes money from it: other transactions leave the records alone and can only add to an
  escrow account (`Aside`), whatever a contract does, and each operation on a record does to
  the escrow account what it does to the record (`StakeStep`).

    - `applyTx_stake`, `applyMiss_stake`: one round of the loops, as one of the two.
    - `escrow_solvent`: every record is covered by its escrow account in every reachable state,
      and no release, slash or miss of a block runs out of funds.
-/

import Frg.Chain.Nonces

namespace Frg.Chain

open Frg.Lib Frg.Core Frg.Wire Frg.Contract Act

/-! ## Addresses -/

/-- What the addresses of the keys in `K` are hashed from. -/
inductive AddressInput (K : Key → Prop) : List UInt8 → Prop
  | escrow {v : Key} : K v → AddressInput K (domainStakingEscrow ++ v.bytes)
  | fee {v : Key} : K v → AddressInput K (domainGasFee ++ v.bytes)
  | contract {v : Key} (nonce : UInt64) : K v → AddressInput K (domainContractDeploy ++ v.bytes ++ u64 nonce.toNat)

/-- No address of `K` collides with an escrow account, and nobody holds the key of one. -/
structure KeysApart (W : World) (K : Key → Prop) : Prop where
  collisionFree : ∀ v, K v → ∀ x, AddressInput K x → NoCollision W.hash (domainStakingEscrow ++ v.bytes) x
  keyless : ∀ v w, K v → K w → escrowAccount W.toPrim v ≠ w

variable {W : World} {K : Key → Prop}

/-- Not an escrow account. -/
def OffEscrow (W : World) (K : Key → Prop) (a : Key) : Prop := ∀ v, K v → a ≠ escrowAccount W.toPrim v

theorem KeysApart.escrow_inj (hK : KeysApart W K) {v w : Key} (hv : K v) (hw : K w)
    (h : escrowAccount W.toPrim v = escrowAccount W.toPrim w) : v = w :=
  bytes_inj (List.append_cancel_left (hK.collisionFree v hv _ (.escrow hw) h))

theorem KeysApart.escrow_eq_iff (hK : KeysApart W K) {v w : Key} (hv : K v) (hw : K w) :
    escrowAccount W.toPrim v = escrowAccount W.toPrim w ↔ w = v :=
  ⟨fun h => (hK.escrow_inj hv hw h).symm, fun h => by rw [h]⟩

theorem KeysApart.sender_off (hK : KeysApart W K) {a : Key} (ha : K a) : OffEscrow W K a :=
  fun v hv => (hK.keyless v a hv ha).symm

theorem KeysApart.fees_off (hK : KeysApart W K) {a : Key} (ha : K a) : OffEscrow W K (feeAccount W.toPrim a) := by
  intro v hv h
  have hin := hK.collisionFree v hv _ (.fee ha) h.symm
  simp [domainStakingEscrow, domainGasFee] at hin

theorem KeysApart.contract_off (hK : KeysApart W K) {a : Key} (ha : K a) (nonce : UInt64) :
    OffEscrow W K (contractAddr W.toEnv a nonce) := by
  intro v hv h
  have hin := hK.collisionFree v hv _ (.contract nonce ha) h.symm
  simp [domainStakingEscrow, domainContractDeploy] at hin

/-! ## What leaves an account -/

/-- A move from the account to another, or a burn. -/
def outflow (a : Key) : Event → Option (Option Key × Int)
  | .debited source target n => if source = a then some (some target, n) else none
  | .burned b n => if b = a then some (none, n) else none
  | _ => none

/-- What left the account, newest first. -/
def outflows (a : Key) (l : List Event) : List (Option Key × Int) := l.filterMap (outflow a)

theorem outflows_cons (a : Key) (e : Event) (l : List Event) :
    outflows a (e :: l) = (outflow a e).toList ++ outflows a l := by
  unfold outflows
  rw [List.filterMap_cons]
  cases outflow a e <;> rfl

/-! ## Steps that leave the stake alone -/

/-- A contract address of a key in `K`. -/
def Deployed (W : World) (K : Key → Prop) (a : Key) : Prop := ∃ v nonce, K v ∧ a = contractAddr W.toEnv v nonce

/-- The records stay, nothing leaves an escrow account, and new code is at an address of `K`. -/
structure Aside (W : World) (K : Key → Prop) (db db' : DB) : Prop where
  records : db'.validators = db.validators
  escrow : ∀ v, K v → readBalance db (escrowAccount W.toPrim v) ≤ readBalance db' (escrowAccount W.toPrim v)
  out : ∀ v, K v → outflows (escrowAccount W.toPrim v) db'.journal = outflows (escrowAccount W.toPrim v) db.journal
  code : ∀ a, (db'.contractBytecode.get a).isSome → (db.contractBytecode.get a).isSome ∨ Deployed W K a

instance : Std.Refl (Aside W K) := ⟨fun _ => ⟨rfl, fun _ _ => le_rfl, fun _ _ => rfl, fun _ => .inl⟩⟩

instance : IsTrans DB (Aside W K) where
  trans _ _ _ h1 h2 :=
    { records := h2.records.trans h1.records
      escrow := fun v hv => (h1.escrow v hv).trans (h2.escrow v hv)
      out := fun v hv => (h2.out v hv).trans (h1.out v hv)
      code := fun a ha => (h2.code a ha).elim (h1.code a) .inr }

theorem Aside.advanced (db : DB) (a : Key) (n : UInt64) : Aside W K db (db.advanced a n) :=
  ⟨rfl, fun _ _ => le_rfl, fun _ _ => rfl, fun _ => .inl⟩

theorem moveBalance_aside (source target : Key) (amount : Int) (short : String) (hs : OffEscrow W K source)
    (h0 : 0 ≤ amount) : Steps (Aside W K) (moveBalance source target amount short) := by
  intro db
  have hout : ∀ v, K v → outflow (escrowAccount W.toPrim v) (.debited source target amount) = none :=
    fun v hv => if_neg (hs v hv)
  have hdeb : ∀ v, K v → Fits (readBalance db source - amount) →
      readBalance (debitedDB db source target amount) (escrowAccount W.toPrim v) =
        readBalance db (escrowAccount W.toPrim v) := fun v hv hf => by
    rw [readBalance_debitedDB db source target _ hf, if_neg (hs v hv).symm]
  rcases moveBalance_cases source target amount short db with ⟨-, e, h⟩ | ⟨hf, -, e, h⟩ | ⟨-, hf, hf2, h⟩ <;> rw [h]
  · exact Std.Refl.refl db
  · refine ⟨rfl, fun v hv => (hdeb v hv hf).ge, fun v hv => ?_, fun _ => .inl⟩
    show outflows _ (.debited source target amount :: db.journal) = _
    rw [outflows_cons, hout v hv]
    rfl
  · refine ⟨rfl, fun v hv => ?_, fun v hv => ?_, fun _ => .inl⟩
    · show _ ≤ readBalance ((debitedDB db source target amount).setBalance target _) _
      rw [readBalance_setBalance _ _ _ hf2, hdeb v hv hf]
      split_ifs with ht
      · rw [ht]
        omega
      · exact le_rfl
    · show outflows _ (.credited source target amount :: .debited source target amount :: db.journal) = _
      rw [outflows_cons, outflows_cons, hout v hv]
      rfl

theorem changeBalance_aside {a : Key} {f : Int → Int} {e : Int → Event} (hraise : ∀ x, x ≤ f x ∨ OffEscrow W K a)
    (hout : ∀ v, K v → ∀ x, outflow (escrowAccount W.toPrim v) (e x) = none) :
    Steps (Aside W K) (changeBalance a f e) := by
  refine changeBalance_steps fun db hf => ⟨rfl, fun v hv => ?_, fun v hv => ?_, fun _ => .inl⟩
  · show _ ≤ readBalance (db.setBalance a _) _
    rw [readBalance_setBalance _ _ _ hf]
    split_ifs with ha
    · rcases hraise (readBalance db a) with hx | hoff
      · rw [ha]
        exact hx
      · exact absurd ha.symm (hoff v hv)
    · exact le_rfl
  · show outflows _ (e _ :: db.journal) = _
    rw [outflows_cons, hout v hv]
    rfl

theorem burnTx_aside {a : Key} (ha : OffEscrow W K a) (n : Int) : Steps (Aside W K) (burnTx a n) :=
  burnTx_steps (changeBalance_aside (fun _ => .inr ha) fun v hv _ => if_neg (ha v hv))

theorem creditTx_aside (a : Key) {n : Int} (h0 : 0 ≤ n) : Steps (Aside W K) (creditTx a n) :=
  changeBalance_aside (fun x => .inl (by omega)) fun _ _ _ => rfl

theorem storeBytecode_aside {a : Key} (ha : Deployed W K a) (c : List UInt8) :
    Steps (Aside W K) (storeBytecode a c) := by
  intro db
  refine ⟨rfl, fun _ _ => le_rfl, fun _ _ => rfl, fun b hb => ?_⟩
  have hb : ((db.contractBytecode.put a c).get b).isSome := hb
  by_cases hba : b = a
  · exact .inr (hba ▸ ha)
  · rw [Bucket.get_put_ne _ _ hba] at hb
    exact .inl hb

/-! ## Operations on a record -/

/-- What an operation on the stake of `v` did: its record after it, the change of its escrow
    account, and what left that account. -/
structure Effect (W : World) (K : Key → Prop) (v : Key) (rec? : Option Record) (gain : Int)
    (out : List (Option Key × Int)) (db db' : DB) : Prop where
  record : ∀ w, db'.validators.get w = if w = v then rec? else db.validators.get w
  escrow : readBalance db' (escrowAccount W.toPrim v) = readBalance db (escrowAccount W.toPrim v) + gain
  others : ∀ w, K w → w ≠ v →
    readBalance db (escrowAccount W.toPrim w) ≤ readBalance db' (escrowAccount W.toPrim w)
  outOf : ∀ w, K w → outflows (escrowAccount W.toPrim w) db'.journal =
    (if w = v then out else []) ++ outflows (escrowAccount W.toPrim w) db.journal
  code : db'.contractBytecode = db.contractBytecode

/-- Something that happened to the stake of a validator, with the amounts that moved. -/
inductive StakeEvent where
  | bonded (v : Key) (taken : Int) (height : UInt64)
  | unbonded (v : Key) (height : UInt64)
  | missed (v : Key) (burnt : Int)
  | released (v : Key) (returned : Int) (height : UInt64)
  | slashed (v : Key) (burnt : Int) (height : UInt64)
  deriving DecidableEq, Repr

/-- The operations on a record in a block of the given height. -/
inductive StakeStep (W : World) (K : Key → Prop) (height : UInt64) (db db' : DB) : StakeEvent → Prop
  | bond {v : Key} {amount : Int} : K v → minBondAmount ≤ amount → db.validators.get v = none →
      Effect W K v (some (.fresh amount.toNat height)) amount [] db db' →
        StakeStep W K height db db' (.bonded v amount height)
  | unbond {v : Key} {r : Record} : db.validators.get v = some r → r.state = .bonded →
      Effect W K v (some { r with state := .unbonding, unbondingAtBlock := height }) 0 [] db db' →
      StakeStep W K height db db' (.unbonded v height)
  | release {v : Key} {r : Record} : db.validators.get v = some r → r.state = .unbonding →
      r.unbondingAtBlock + unbondingBlocks ≤ height →
      Effect W K v none (-r.bondedAmount) [(some v, r.bondedAmount)] db db' →
      StakeStep W K height db db' (.released v r.bondedAmount height)
  | slash {v : Key} {r : Record} : db.validators.get v = some r →
      Effect W K v none (-r.bondedAmount) [(none, r.bondedAmount)] db db' →
      StakeStep W K height db db' (.slashed v r.bondedAmount height)
  | miss {v : Key} {r : Record} : db.validators.get v = some r →
      Effect W K v (some r.miss.1) (-r.miss.2) (if 0 < r.miss.2 then [(none, r.miss.2)] else []) db db' →
      StakeStep W K height db db' (.missed v r.miss.2)

theorem outflows_movedDB (db : DB) (source target a : Key) (amount : Int) :
    outflows a (movedDB db source target amount).journal =
      (if source = a then [(some target, amount)] else []) ++ outflows a db.journal := by
  show outflows a (.credited source target amount :: .debited source target amount :: db.journal) = _
  rw [outflows_cons, outflows_cons]
  show (if source = a then some (some target, amount) else none).toList ++ _ = _
  split_ifs <;> rfl

/-- The same ledger and contracts, with another record of `v`. -/
structure RecordSet (v : Key) (rec? : Option Record) (db db' : DB) : Prop where
  record : ∀ w, db'.validators.get w = if w = v then rec? else db.validators.get w
  balance : ∀ a, readBalance db' a = readBalance db a
  out : ∀ a, outflows a db'.journal = outflows a db.journal
  code : db'.contractBytecode = db.contractBytecode

section

variable {v : Key} {r : Record} {height : UInt64} {db db' : DB}

theorem putRecord_set {u : Unit} (h : putRecord v r db = (.ok u, db')) : RecordSet v (some r) db db' := by
  obtain rfl := write_ok.mp h
  exact ⟨fun _ => Bucket.get_put _ _ _ _, fun _ => rfl, fun _ => rfl, rfl⟩

theorem deleteRecord_set {u : Unit} (h : deleteRecord v db = (.ok u, db')) : RecordSet v none db db' := by
  obtain rfl := write_ok.mp h
  exact ⟨fun _ => Bucket.get_delete _ _ _, fun _ => rfl, fun _ => rfl, rfl⟩

theorem bondTx_stake (hK : KeysApart W K) (hv : K v) {amount : Option Int} {u : Unit}
    (h : bondTx W.toPrim v amount height db = (.ok u, db')) :
    StakeStep W K height db db' (.bonded v (readBalance db v - readBalance db' v) height) := by
  obtain ⟨n, d1, hmin, hnone, hmove, hput⟩ := bondTx_ok h
  obtain ⟨hf, hf2, rfl⟩ := moveTx_ok hmove
  have hset := putRecord_set hput
  have hself : v ≠ escrowAccount W.toPrim v := hK.sender_off hv v hv
  have hbal := fun a => (hset.balance a).trans (readBalance_movedDB hf hf2 a)
  have htaken : readBalance db v - readBalance db' v = n := by
    rw [hbal, if_neg hself, if_pos rfl]
    omega
  rw [htaken]
  refine .bond hv hmin hnone ⟨hset.record, ?_, fun w hw hne => ?_, fun w hw => ?_, hset.code⟩
  · rw [hbal, if_pos rfl]
  · rw [hbal, if_neg fun e => hne (hK.escrow_inj hw hv e), if_neg (hK.sender_off hv w hw).symm]
  · rw [hset.out, outflows_movedDB, if_neg (hK.sender_off hv w hw), ite_self]

theorem unbondTx_stake {u : Unit} (h : unbondTx v height db = (.ok u, db')) :
    StakeStep W K height db db' (.unbonded v height) := by
  obtain ⟨r, hr, hstate, hput⟩ := unbondTx_ok h
  have hset := putRecord_set hput
  refine .unbond hr hstate ⟨hset.record, ?_, fun w _ _ => (hset.balance _).ge, fun w _ => ?_, hset.code⟩
  · rw [hset.balance, add_zero]
  · rw [hset.out, ite_self, List.nil_append]

theorem finalizeTx_stake (hK : KeysApart W K) (hv : K v) {u : Unit}
    (h : finalizeTx W.toPrim v height db = (.ok u, db')) :
    db' = db ∨ StakeStep W K height db db' (.released v (readBalance db' v - readBalance db v) height) ∧
      db'.validators.get v ≠ db.validators.get v := by
  rcases finalizeTx_ok h with rfl | ⟨r, d1, hr, hstate, hdue, hmove, hdel⟩
  · exact .inl rfl
  obtain ⟨hf, hf2, rfl⟩ := moveTx_ok hmove
  have hset := deleteRecord_set hdel
  have hself : v ≠ escrowAccount W.toPrim v := hK.sender_off hv v hv
  have hbal := fun a => (hset.balance a).trans (readBalance_movedDB hf hf2 a)
  have hback : readBalance db' v - readBalance db v = r.bondedAmount := by
    rw [hbal, if_pos rfl]
    omega
  rw [hback]
  refine .inr ⟨.release hr hstate hdue ⟨hset.record, ?_, fun w hw hne => ?_, fun w hw => ?_, hset.code⟩, ?_⟩
  · rw [hbal, if_neg hself.symm, if_pos rfl, sub_eq_add_neg]
  · rw [hbal, if_neg (hK.sender_off hv w hw).symm, if_neg fun e => hne (hK.escrow_inj hw hv e)]
  · rw [hset.out, outflows_movedDB]
    simp only [hK.escrow_eq_iff hv hw]
  · rw [hset.record, if_pos rfl, hr]
    exact (Option.some_ne_none r).symm

theorem burnTx_escrow (hK : KeysApart W K) (hv : K v) {n : Int} {u : Unit}
    (h : burnTx (escrowAccount W.toPrim v) n db = (.ok u, db')) :
    Effect W K v (db.validators.get v) (-n) [(none, n)] db db' := by
  obtain ⟨-, hf, rfl⟩ := burnTx_ok h
  have hbal := fun a => readBalance_setBalance db (escrowAccount W.toPrim v) a hf
  refine ⟨fun w => ?_, (hbal _).trans (by rw [if_pos rfl, sub_eq_add_neg]), fun w hw hne => ?_, fun w hw => ?_, rfl⟩
  · split_ifs with hwv
    · rw [hwv]
      rfl
    · rfl
  · exact ((hbal _).trans (if_neg fun e => hne (hK.escrow_inj hw hv e))).ge
  · show outflows _ (.burned _ n :: db.journal) = _
    rw [outflows_cons]
    show (if escrowAccount W.toPrim v = escrowAccount W.toPrim w then some (none, n) else none).toList ++ _ = _
    simp only [hK.escrow_eq_iff hv hw]
    split_ifs <;> rfl

theorem Effect.then_set {rec? rec' : Option Record} {gain : Int} {out : List (Option Key × Int)} {d1 : DB}
    (h : Effect W K v rec? gain out db d1) (hset : RecordSet v rec' d1 db') : Effect W K v rec' gain out db db' where
  record w := by
    rw [hset.record]
    split_ifs with hwv
    · rfl
    · rw [h.record, if_neg hwv]
  escrow := (hset.balance _).trans h.escrow
  others w hw hne := (h.others w hw hne).trans (hset.balance _).ge
  outOf w hw := (hset.out _).trans (h.outOf w hw)
  code := hset.code.trans h.code

theorem RecordSet.then_effect {rec? : Option Record} {gain : Int} {out : List (Option Key × Int)} {d1 : DB}
    (hset : RecordSet v rec? db d1) (h : Effect W K v (d1.validators.get v) gain out d1 db') :
    Effect W K v rec? gain out db db' where
  record w := by
    rw [h.record]
    split_ifs with hwv
    · rw [hset.record, if_pos rfl]
    · rw [hset.record, if_neg hwv]
  escrow := h.escrow.trans (by rw [hset.balance])
  others w hw hne := (hset.balance _).ge.trans (h.others w hw hne)
  outOf w hw := (h.outOf w hw).trans (by rw [hset.out])
  code := h.code.trans hset.code

theorem slashTx_stake (hK : KeysApart W K) (held : ∀ r, db.validators.get v = some r → K v) {n : Nat}
    (h : slashTx W.toPrim v db = (.ok n, db')) :
    StakeStep W K height db db' (.slashed v
      (readBalance db (escrowAccount W.toPrim v) - readBalance db' (escrowAccount W.toPrim v)) height) := by
  obtain ⟨r, d1, hr, -, hburn, hdel⟩ := slashTx_ok h
  have heff := (burnTx_escrow hK (held r hr) hburn).then_set (deleteRecord_set hdel)
  have hburnt : readBalance db (escrowAccount W.toPrim v) - readBalance db' (escrowAccount W.toPrim v) =
      r.bondedAmount := by
    rw [heff.escrow]
    omega
  rw [hburnt]
  exact .slash hr heff

theorem applyMiss_stake (hK : KeysApart W K) {t : Tx}
    (held : ∀ r, db.validators.get t.missedProposer = some r → K t.missedProposer) (ht : t.type = .missEvidence)
    {n n' : Nat} (h : applyMiss W n t db = (.ok n', db')) : StakeStep W K height db db' (.missed t.missedProposer
      (readBalance db (escrowAccount W.toPrim t.missedProposer) -
        readBalance db' (escrowAccount W.toPrim t.missedProposer))) := by
  unfold applyMiss at h
  rw [if_pos ht] at h
  obtain ⟨slashAmt, d1, h1, h⟩ := bind_ok.mp h
  obtain ⟨r, hr, rfl, rfl⟩ := recordMissTx_ok h1
  have hset : RecordSet t.missedProposer (some r.miss.1) db
      (({ db with validators := db.validators.put t.missedProposer r.miss.1 } : DB).logged (.miss t.missedProposer)) :=
    ⟨fun _ => Bucket.get_put _ _ _ _, fun _ => rfl, fun _ => rfl, rfl⟩
  have heff : Effect W K t.missedProposer (some r.miss.1) (-r.miss.2)
      (if 0 < r.miss.2 then [(none, (r.miss.2 : Int))] else []) db db' := by
    split at h
    · rename_i hpos
      obtain ⟨_, d2, h2, h⟩ := bind_ok.mp h
      obtain ⟨-, rfl⟩ := pure_ok.mp h
      rw [if_pos hpos]
      exact hset.then_effect (burnTx_escrow hK (held r hr) h2)
    · rename_i hpos
      obtain ⟨-, rfl⟩ := pure_ok.mp h
      rw [if_neg hpos, Nat.eq_zero_of_not_pos hpos]
      refine ⟨hset.record, (add_zero _).symm, fun _ _ _ => le_rfl, fun w _ => ?_, rfl⟩
      rw [ite_self, List.nil_append]
      rfl
  have hburnt : readBalance db (escrowAccount W.toPrim t.missedProposer) -
      readBalance db' (escrowAccount W.toPrim t.missedProposer) = r.miss.2 := by
    rw [heff.escrow]
    omega
  rw [hburnt]
  exact .miss hr heff

theorem StakeStep.of_advanced {a : Key} {n : UInt64} {e : StakeEvent}
    (h : StakeStep W K height (db.advanced a n) db' e) : StakeStep W K height db db' e := by
  -- the nonce and its event are no part of an effect
  have heff : ∀ {v rec? gain out}, Effect W K v rec? gain out (db.advanced a n) db' →
      Effect W K v rec? gain out db db' :=
    fun h => ⟨h.record, h.escrow, h.others, h.outOf, h.code⟩
  cases h with
  | bond hv hmin hnone h => exact .bond hv hmin hnone (heff h)
  | unbond hr hs h => exact .unbond hr hs (heff h)
  | release hr hs hdue h => exact .release hr hs hdue (heff h)
  | slash hr h => exact .slash hr (heff h)
  | miss hr h => exact .miss hr (heff h)

end

/-! ## Solvency -/

/-- The escrow account covers a record, and the record is in order. -/
structure Backed (W : World) (db : DB) (v : Key) (r : Record) : Prop where
  covered : (r.bondedAmount : Int) ≤ readBalance db (escrowAccount W.toPrim v)
  positive : 0 < r.bondedAmount
  misses : r.missCount.toNat < 5

structure Solvent (W : World) (K : Key → Prop) (db : DB) : Prop where
  held : ∀ v r, db.validators.get v = some r → K v
  backed : ∀ v r, db.validators.get v = some r → Backed W db v r
  code : ∀ a, (db.contractBytecode.get a).isSome → Deployed W K a

section

variable {height : UInt64} {db db' : DB}

theorem Solvent.aside (hs : Solvent W K db) (h : Aside W K db db') : Solvent W K db' where
  held v r hr := hs.held v r (h.records ▸ hr)
  backed v r hr := by
    rw [h.records] at hr
    obtain ⟨hc, hp, hm⟩ := hs.backed v r hr
    exact ⟨hc.trans (h.escrow v (hs.held v r hr)), hp, hm⟩
  code a ha := (h.code a ha).elim (hs.code a) id

theorem Solvent.effect {v : Key} {rec? : Option Record} {gain : Int} {out : List (Option Key × Int)}
    (hs : Solvent W K db) (h : Effect W K v rec? gain out db db') (hv : K v)
    (hnew : ∀ r ∈ rec?, (r.bondedAmount : Int) ≤ readBalance db (escrowAccount W.toPrim v) + gain ∧
      0 < r.bondedAmount ∧ r.missCount.toNat < 5) : Solvent W K db' where
  held w r hr := by
    rw [h.record] at hr
    split_ifs at hr with hwv
    · exact hwv ▸ hv
    · exact hs.held w r hr
  backed w r hr := by
    rw [h.record] at hr
    split_ifs at hr with hwv
    · obtain ⟨hc, hp, hm⟩ := hnew r hr
      subst hwv
      exact ⟨h.escrow ▸ hc, hp, hm⟩
    · obtain ⟨hc, hp, hm⟩ := hs.backed w r hr
      exact ⟨hc.trans (h.others w (hs.held w r hr) hwv), hp, hm⟩
  code a ha := hs.code a (h.code ▸ ha)

theorem Record.miss_keeps {r : Record} (h0 : 0 < r.bondedAmount) :
    r.miss.1.bondedAmount + r.miss.2 = r.bondedAmount ∧ 0 < r.miss.1.bondedAmount ∧ r.miss.1.missCount.toNat < 5 := by
  unfold Record.miss slashPercent
  split
  · dsimp only
    exact ⟨by omega, by omega, by decide⟩
  · rename_i hlt
    exact ⟨rfl, h0, UInt64.lt_iff_toNat_lt.mp (UInt64.not_le.mp hlt)⟩

theorem Solvent.stake {e : StakeEvent} (hs : Solvent W K db) (h : StakeStep W K height db db' e) : Solvent W K db' := by
  cases h with
  | bond hv hmin hnone h =>
    refine hs.effect h hv fun r hr => ?_
    obtain rfl := Option.some.inj hr
    have h0 := readBalance_nonneg db (escrowAccount W.toPrim ‹Key›)
    unfold minBondAmount at hmin
    have hzero : (0 : UInt64).toNat < 5 := by decide
    refine ⟨?_, ?_, hzero⟩ <;> simp only [Record.fresh] <;> omega
  | unbond hr hstate h =>
    obtain ⟨hc, hp, hm⟩ := hs.backed _ _ hr
    refine hs.effect h (hs.held _ _ hr) fun r' hr' => ?_
    obtain rfl := Option.some.inj hr'
    exact ⟨by rw [add_zero]; exact hc, hp, hm⟩
  | release hr _ _ h => exact hs.effect h (hs.held _ _ hr) fun _ hr' => absurd hr' (Option.not_mem_none _)
  | slash hr h => exact hs.effect h (hs.held _ _ hr) fun _ hr' => absurd hr' (Option.not_mem_none _)
  | miss hr h =>
    obtain ⟨hc, hp, -⟩ := hs.backed _ _ hr
    obtain ⟨hsum, hpos, hm⟩ := Record.miss_keeps hp
    refine hs.effect h (hs.held _ _ hr) fun r' hr' => ?_
    obtain rfl := Option.some.inj hr'
    exact ⟨by omega, hpos, hm⟩

/-! ## One transaction -/

variable {ctx : BlockCtx} {t : Tx} {out : TxOut}

/-- What an executed transaction did to a stake, with the amounts read off the balances. -/
def stakeEvent (W : World) (ctx : BlockCtx) (db : DB) (t : Tx) : Option StakeEvent :=
  let db' := (applyTx W ctx t db).2
  let v := t.senderPubKey
  match t.type with
  | .bond => some (.bonded v (readBalance db v - readBalance db' v) ctx.height)
  | .unbond => some (.unbonded v ctx.height)
  | .finalizeUnbond =>
    -- without a due record it does nothing
    if db'.validators.get v = db.validators.get v then none
    else some (.released v (readBalance db' v - readBalance db v) ctx.height)
  | .equivEvidence =>
    match precheck W ctx t with
    | .ok k => some (.slashed k
        (readBalance db (escrowAccount W.toPrim k) - readBalance db' (escrowAccount W.toPrim k)) ctx.height)
    | _ => none
  | _ => none

theorem orNotFound_found {height gasLimit : UInt64} {f : Hash × UInt64 → TxOut}
    (h : orNotFound (call W.toEnv t height gasLimit >>= fun r => pure (f r)) db = (.ok out, db')) :
    (db.contractBytecode.get t.receiverPubKey).isSome := by
  cases hcode : db.contractBytecode.get t.receiverPubKey with
  | some c => rfl
  | none =>
    have hcall : call W.toEnv t height gasLimit db =
        (.err (.plain s!"contract {t.receiverPubKey.hex} not found"), db) := by
      simp only [call, bind_run, Act.read, hcode]
      rfl
    unfold orNotFound at h
    rw [bind_run, hcall] at h
    cases (Prod.mk.inj h).1

theorem branch_aside (hK : KeysApart W K) (hs : Solvent W K db) (hk : K t.senderPubKey) (hv : ∀ v ∈ t.value, 0 ≤ v)
    (ht : Recordless t) {k : Key} (h : branch W ctx t k db = (.ok out, db')) : Aside W K db db' := by
  have hcalled : t.type = .contractCall → OffEscrow W K t.receiverPubKey := by
    intro hty
    unfold branch at h
    simp only [hty] at h
    obtain ⟨gasLimit, d1, hlimit, hcall⟩ := bind_ok.mp h
    rw [← contractGasLimit_same hlimit] at hcall
    obtain ⟨v, n, hv, ha⟩ := hs.code _ (orNotFound_found hcall)
    exact ha ▸ hK.contract_off hv n
  have hsteps : Steps (Aside W K) (branch W ctx t k) :=
    branch_recordless_steps moveBalance_aside (storeBytecode_aside ⟨_, _, hk, rfl⟩)
      (fun _ _ _ => ⟨rfl, fun _ _ => le_rfl, fun _ _ => rfl, fun _ => .inl⟩)
      ⟨hK.sender_off hk, hK.fees_off hk, hK.contract_off hk _, hcalled⟩ hv ht
  exact hsteps.run h

theorem applyTx_stake (hK : KeysApart W K) (hs : Solvent W K db) (ht : Known t) (hk : K t.senderPubKey)
    (hv : ∀ v ∈ t.value, 0 ≤ v) (hn : t.nonce = nextNonce db t.senderPubKey) (h : applyTx W ctx t db = (.ok out, db')) :
    (stakeEvent W ctx db t = none ∧ Aside W K db db') ∨
      ∃ e, stakeEvent W ctx db t = some e ∧ StakeStep W K ctx.height db db' e := by
  have hafter : (applyTx W ctx t db).2 = db' := by rw [h]
  have hadv : Aside W K db (db.advanced t.senderPubKey t.nonce) := .advanced _ _ _
  obtain ⟨k, hcheck, hrun⟩ := applyTx_executed ht hn h
  unfold stakeEvent
  rw [hafter]
  dsimp only
  have hother : Recordless t → Aside W K db db' := fun hrec =>
    IsTrans.trans _ _ _ hadv (branch_aside hK (hs.aside hadv) hk hv hrec hrun)
  unfold branch at hrun
  cases hty : t.type with
  | bond =>
    simp only [hty] at hrun
    obtain ⟨_, d1, h1, hrun⟩ := bind_ok.mp hrun
    obtain ⟨-, rfl⟩ := pure_ok.mp hrun
    exact .inr ⟨_, rfl, (bondTx_stake hK hk h1).of_advanced⟩
  | unbond =>
    simp only [hty] at hrun
    obtain ⟨_, d1, h1, hrun⟩ := bind_ok.mp hrun
    obtain ⟨-, rfl⟩ := pure_ok.mp hrun
    exact .inr ⟨_, rfl, (unbondTx_stake h1).of_advanced⟩
  | finalizeUnbond =>
    simp only [hty] at hrun
    obtain ⟨_, d1, h1, hrun⟩ := bind_ok.mp hrun
    obtain ⟨-, rfl⟩ := pure_ok.mp hrun
    rcases finalizeTx_stake hK hk h1 with rfl | ⟨hstep, hne⟩
    · exact .inl ⟨if_pos rfl, hadv⟩
    · exact .inr ⟨_, if_neg hne, hstep.of_advanced⟩
  | equivEvidence =>
    simp only [hty] at hrun
    obtain ⟨n, d1, h1, hrun⟩ := bind_ok.mp hrun
    obtain ⟨-, rfl⟩ := pure_ok.mp hrun
    have hpre : precheck W ctx t = .ok k := by
      unfold loopCheck at hcheck
      rwa [hty] at hcheck
    rw [hpre]
    have hstep : StakeStep W K ctx.height (db.advanced t.senderPubKey t.nonce) d1 _ := slashTx_stake hK (hs.held k) h1
    exact .inr ⟨_, rfl, hstep.of_advanced⟩
  | _ => exact .inl ⟨rfl, hother (by simp [Recordless, hty])⟩

end

/-! ## The loops of a block -/

/-- What the checks in front of a block and the keys say of its transactions. -/
structure Admitted (K : Key → Prop) (t : Tx) : Prop where
  known : Known t
  sender : K t.senderPubKey
  value : ∀ v ∈ t.value, 0 ≤ v

section

variable {pre db db' : DB} {b : Block} {chainID : List UInt8} {ctx : BlockCtx} {txs : List Tx}

theorem checkBlock_admitted {u : Unit} (h : checkBlock W pre b chainID = .ok u) (hk : ∀ t ∈ b.txs, K t.senderPubKey) :
    ∀ t ∈ b.txs, Admitted K t :=
  fun t ht => ⟨checkBlock_known h t ht, hk t ht, checkBlock_values h t ht⟩

theorem txLoop_solvent (hK : KeysApart W K) (ha : ∀ t ∈ txs, Admitted K t) (hs : Solvent W K db) {outs : List TxOut}
    (h : txLoop W ctx txs db = (.ok outs, db')) : Solvent W K db' := by
  refine txLoop_executed (I := fun _ db => Solvent W K db) [] (fun t ht _ out d d' hn h1 hs => ?_) h hs
  obtain ⟨hknown, hk, hv⟩ := ha t ht
  rcases applyTx_stake hK hs hknown hk hv hn h1 with ⟨-, haside⟩ | ⟨e, -, hstep⟩
  · exact hs.aside haside
  · exact hs.stake hstep

theorem gasLoop_aside (hK : KeysApart W K) {l : List (Tx × TxOut)} (hk : ∀ p ∈ l, K p.1.senderPubKey) (fee : Fee)
    (g : UInt64) : Steps (Aside W K) (l.foldlM (chargeGas fee) g) := by
  refine steps_foldlM (fun g p hp => ?_) g
  unfold chargeGas
  split
  · exact steps_pure _
  · exact steps_bind (burnTx_aside (hK.sender_off (hk p hp)) _) fun _ => steps_pure _

theorem missLoop_solvent (hK : KeysApart W K) (hs : Solvent W K db) {n n' : Nat}
    (h : txs.foldlM (applyMiss W) n db = (.ok n', db')) : Solvent W K db' := by
  refine foldlM_inv (P := fun _ db => Solvent W K db) (fun n t d n' d' _ hs h1 => ?_) hs h
  by_cases ht : t.type = .missEvidence
  · have hstep : StakeStep W K 0 d d' _ := applyMiss_stake hK (hs.held _) ht h1
    exact hs.stake hstep
  · unfold applyMiss at h1
    rw [if_neg ht] at h1
    obtain ⟨-, rfl⟩ := pure_ok.mp h1
    exact hs

theorem mintLoop_aside {l : List (Key × Int)} (h0 : ∀ p ∈ l, 0 ≤ p.2) : Steps (Aside W K) (l.forM (creditShare W)) := by
  refine steps_forM fun p hp => ?_
  unfold creditShare
  split
  · exact steps_pure _
  · exact creditTx_aside _ (h0 p hp)

section

variable {order : MapOrder} {post : DB} (run : BlockRun W order pre b chainID post)

include run

theorem BlockRun.gas_aside (hK : KeysApart W K) (hk : ∀ t ∈ b.txs, K t.senderPubKey) :
    Aside W K run.afterTxs run.afterGas :=
  (gasLoop_aside hK (fun _ hp => hk _ (List.of_mem_zip hp).1) _ _).run run.ranGas

theorem BlockRun.mint_aside : Aside W K run.afterMiss post := by
  have hmint : Aside W K run.afterMiss run.afterMint :=
    (mintLoop_aside fun _ hp => splitReward_nonneg _ _ _ (List.of_mem_zip hp).2).run run.ranMint
  have hpost : Aside W K run.afterMint post := by
    refine ⟨run.validators, fun v _ => ?_, fun v _ => by rw [run.journal], fun a ha => .inl (run.bytecode ▸ ha)⟩
    unfold readBalance
    rw [run.balances]
  exact IsTrans.trans _ _ _ hmint hpost

theorem BlockRun.solvent (hK : KeysApart W K) (hk : ∀ t ∈ b.txs, K t.senderPubKey) (hs : Solvent W K pre) :
    Solvent W K post := by
  have htxs := txLoop_solvent hK (checkBlock_admitted run.checked hk) hs run.ranTxs
  have hgas := htxs.aside (run.gas_aside hK hk)
  have hmiss := missLoop_solvent hK hgas run.ranMiss
  exact hmiss.aside run.mint_aside

end

/-! ## Genesis -/

/-- The records that are there stay. -/
def RecordsStay (db db' : DB) : Prop := ∀ v, (db.validators.get v).isSome → (db'.validators.get v).isSome

instance : Std.Refl RecordsStay := ⟨fun _ _ => id⟩
instance : IsTrans DB RecordsStay := ⟨fun _ _ _ h1 h2 v h => h2 v (h1 v h)⟩

theorem bondEntry_recordsStay (P : Prim) (e : GenesisEntry) : Steps RecordsStay (bondEntry P e) := by
  refine bondEntry_steps (fun _ _ _ _ _ => ?_) (fun a n h db => ?_) P e
  · exact moveBalance_steps (fun _ _ _ => id) fun _ _ _ => id
  · intro v hv
    show ((db.validators.put a _).get v).isSome
    rw [Bucket.get_put]
    split_ifs
    · rfl
    · exact hv

/-- No record, no code and nothing spent yet. -/
structure Unstaked (db : DB) : Prop where
  records : db.validators = .empty
  code : db.contractBytecode = .empty
  out : ∀ a, outflows a db.journal = []

def KeepsUnstaked (db db' : DB) : Prop := Unstaked db → Unstaked db'

instance : Std.Refl KeepsUnstaked := ⟨fun _ h => h⟩
instance : IsTrans DB KeepsUnstaked := ⟨fun _ _ _ h1 h2 h => h2 (h1 h)⟩

theorem seedTx_unstaked (a : Key) (n : Int) : Steps KeepsUnstaked (seedTx a n) :=
  changeBalance_steps fun _ _ h => ⟨h.records, h.code, h.out⟩

theorem Unstaked.solvent (h : Unstaked db) : Solvent W K db where
  held v r hr := by rw [h.records] at hr; cases hr
  backed v r hr := by rw [h.records] at hr; cases hr
  code a ha := by rw [h.code] at ha; cases ha

/-- The keys of the genesis validators are in `K`. -/
def FoundedIn (K : Key → Prop) (db : DB) : Prop := ∀ v, (db.validators.get v).isSome → K v

theorem bondLoop_keeps (hK : KeysApart W K) {I : DB → Prop}
    (hbond : ∀ {v n d d'}, StakeStep W K 0 d d' (.bonded v n 0) → I d → I d') :
    ∀ {l : List GenesisEntry} {db db' : DB} {u : PUnit},
      l.forM (bondEntry W.toPrim) db = (.ok u, db') → FoundedIn K db' → I db → I db' := by
  intro l
  induction l with
  | nil =>
    intro db db' u h _ hi
    obtain ⟨-, rfl⟩ := pure_ok.mp h
    exact hi
  | cons e l ih =>
    intro db db' u h hf hi
    obtain ⟨_, d1, h1, h2⟩ := bind_ok.mp h
    have hstay : RecordsStay d1 db' := (steps_forM fun e _ => bondEntry_recordsStay W.toPrim e).run h2
    obtain ⟨v, d, hd, h1⟩ := bind_ok.mp h1
    obtain ⟨-, rfl⟩ := lift_ok.mp hd
    obtain ⟨_, d, hd, h1⟩ := bind_ok.mp h1
    obtain ⟨-, rfl⟩ := lift_ok.mp hd
    have hok := mapErr_ok.mp h1
    obtain ⟨n, d, -, -, -, hput⟩ := bondTx_ok hok
    have hv : K v := hf v (hstay v (by rw [(putRecord_set hput).record, if_pos rfl]; rfl))
    exact ih h2 hf (hbond (bondTx_stake hK hv hok) hi)

theorem genesis_keeps (hK : KeysApart W K) {g : Genesis} (h : applyGenesis W.toPrim DB.new g = (.ok (), db))
    (hf : FoundedIn K db) {I : DB → Prop} (hstart : ∀ {d}, Unstaked d → I d)
    (hbond : ∀ {v n d d'}, StakeStep W K 0 d d' (.bonded v n 0) → I d → I d')
    (hflag : ∀ {d : DB}, I d → I { d with genesisApplied := true }) : I db := by
  obtain ⟨d1, d2, h1, h2, rfl⟩ := genesisTx_ok (applyGenesis_new h)
  have hseeded : Unstaked d1 :=
    (seeding_steps seedTx_unstaked (fun _ _ h => ⟨h.records, h.code, h.out⟩) g.balances).run h1 ⟨rfl, rfl, fun _ => rfl⟩
  exact hflag (bondLoop_keeps hK hbond h2 hf (hstart hseeded))

theorem Solvent.flagged (h : Solvent W K db) : Solvent W K { db with genesisApplied := true } :=
  ⟨h.held, fun v r hr => ⟨(h.backed v r hr).covered, (h.backed v r hr).positive, (h.backed v r hr).misses⟩, h.code⟩

/-! ## Runs -/

/-- The keys of the senders are in `K`. -/
def SendersIn (K : Key → Prop) : DB → Block → List UInt8 → DB → Prop := fun _ b _ _ => ∀ t ∈ b.txs, K t.senderPubKey

theorem Reached.solvent (hK : KeysApart W K) (h : Reached W (FoundedIn K) (SendersIn K) db) : Solvent W K db := by
  obtain ⟨db₀, ⟨g, hg, hf⟩, hrun⟩ := h
  have hstart : Solvent W K db₀ := genesis_keeps hK hg hf Unstaked.solvent (fun hb hs => hs.stake hb) Solvent.flagged
  refine run_keeps (fun hs ⟨a, ⟨order, happ⟩, hk⟩ => ?_) hrun hstart
  obtain ⟨run, -⟩ := applyBlockForChain_ok happ
  exact run.solvent hK hk hs

/-! ## Inside a block -/

/-- The states a block passes through: between two transactions, behind the nonce of one,
    between two gas charges and between two misses. -/
inductive Midway (W : World) (pre : DB) (b : Block) (chainID : List UInt8) : DB → Prop
  | txs {done rest : List Tx} {outs : List TxOut} {db : DB} : b.txs = done ++ rest →
      txLoop W (ctxOf pre b chainID) done pre = (.ok outs, db) → Midway W pre b chainID db
  | nonce {t : Tx} {db : DB} : Midway W pre b chainID db → t ∈ b.txs →
      Midway W pre b chainID (db.advanced t.senderPubKey t.nonce)
  | gas {outs : List TxOut} {afterTxs : DB} {done rest : List (Tx × TxOut)} {g : UInt64} {db : DB} :
      txLoop W (ctxOf pre b chainID) b.txs pre = (.ok outs, afterTxs) → b.txs.zip outs = done ++ rest →
      done.foldlM (chargeGas (currentBaseFee pre)) 0 afterTxs = (.ok g, db) → Midway W pre b chainID db
  | miss {outs : List TxOut} {afterTxs afterGas : DB} {done rest : List Tx} {g : UInt64} {n : Nat} {db : DB} :
      txLoop W (ctxOf pre b chainID) b.txs pre = (.ok outs, afterTxs) →
      (b.txs.zip outs).foldlM (chargeGas (currentBaseFee pre)) 0 afterTxs = (.ok g, afterGas) →
      b.txs = done ++ rest → done.foldlM (applyMiss W) 0 afterGas = (.ok n, db) → Midway W pre b chainID db

theorem Midway.solvent (hK : KeysApart W K) {u : Unit} (hc : checkBlock W pre b chainID = .ok u)
    (hk : ∀ t ∈ b.txs, K t.senderPubKey) (hs : Solvent W K pre) (h : Midway W pre b chainID db) : Solvent W K db := by
  have hadm := checkBlock_admitted hc hk
  have hgas : ∀ {outs : List TxOut} {l : List (Tx × TxOut)}, (∀ p ∈ l, p ∈ b.txs.zip outs) →
      ∀ p ∈ l, K p.1.senderPubKey :=
    fun hl p hp => hk _ (List.of_mem_zip (hl p hp)).1
  induction h with
  | txs hsplit htxs =>
    exact txLoop_solvent hK (fun t ht => hadm t (hsplit ▸ List.mem_append_left _ ht)) hs htxs
  | nonce _ _ ih => exact ih.aside (.advanced _ _ _)
  | gas htxs hsplit hg =>
    have hsub := hgas fun p hp => hsplit ▸ List.mem_append_left _ hp
    exact (txLoop_solvent hK hadm hs htxs).aside ((gasLoop_aside hK hsub _ _).run hg)
  | miss htxs hg _ hm =>
    have hafter := (txLoop_solvent hK hadm hs htxs).aside ((gasLoop_aside hK (hgas fun _ => id) _ _).run hg)
    exact missLoop_solvent hK hafter hm

/-! ## Lack of funds -/

def LacksFunds {α : Type} (r : Res α) : Prop := ∃ e, r = .err e ∧ e.code = some .insufficientFunds

theorem LacksFunds.bind {α β : Type} {x : M α} {f : α → M β} (h : LacksFunds ((x >>= f) db).1) :
    LacksFunds (x db).1 ∨ ∃ a d, x db = (.ok a, d) ∧ LacksFunds (f a d).1 := by
  obtain ⟨e, he, hcode⟩ := h
  rw [bind_run] at he
  cases hx : x db with
  | mk r d =>
    rw [hx] at he
    cases r with
    | ok a => exact .inr ⟨a, d, rfl, e, he, hcode⟩
    | err e' => exact .inl ⟨e', rfl, Go.err.inj he ▸ hcode⟩
    | panic w => cases he

theorem not_lacks_ok {α : Type} {a : α} : ¬ LacksFunds (.ok a : Res α) := fun ⟨_, h, _⟩ => nomatch h

theorem moveTx_lacks {source target : Key} {amount : Int} (h : LacksFunds (moveTx source target amount db).1) :
    readBalance db source < amount := by
  rcases h.bind with ⟨e, he, hcode⟩ | ⟨_, d, hd, e, he, hcode⟩
  · cases (validateUint256_code he).symm.trans hcode
  · obtain ⟨-, rfl⟩ := lift_ok.mp hd
    rcases moveBalance_code (Prod.ext he rfl) with ⟨-, hlt⟩ | hover
    · exact hlt
    · cases hover.symm.trans hcode

theorem burnTx_lacks {a : Key} {n : Int} (h : LacksFunds (burnTx a n db).1) : readBalance db a < n := by
  rcases h.bind with h | ⟨_, d, hd, h⟩
  · exact absurd h not_lacks_ok
  obtain ⟨rfl, rfl⟩ := read_ok.mp hd
  rcases h.bind with h | ⟨_, d, hd, h⟩
  · by_contra hle
    rw [not_lt] at hle
    rw [Act.check, Act.lift, Go.check_pos hle] at h
    exact not_lacks_ok h
  obtain ⟨-, rfl⟩ := check_ok.mp hd
  rcases h.bind with h | ⟨_, d, hd, h⟩
  · exact absurd h not_lacks_ok
  obtain ⟨rfl, rfl⟩ := read_ok.mp hd
  rcases h.bind with ⟨e, he, hcode⟩ | ⟨_, d, hd, h⟩
  · cases (writeBalance_code (Prod.ext he rfl)).symm.trans hcode
  · exact absurd h not_lacks_ok

theorem Solvent.finalize_funded (hs : Solvent W K db) (v : Key) (height : UInt64) :
    ¬ LacksFunds (finalizeTx W.toPrim v height db).1 := by
  intro h
  rcases h.bind with h | ⟨_, d, hd, h⟩
  · exact not_lacks_ok h
  obtain ⟨rfl, rfl⟩ := read_ok.mp hd
  cases hr : db.validators.get v with
  | none =>
    rw [hr] at h
    exact not_lacks_ok h
  | some r =>
    rw [hr] at h
    dsimp only at h
    split at h
    · exact not_lacks_ok h
    · rcases h.bind with h | ⟨_, d, -, h⟩
      · have := moveTx_lacks h
        have := (hs.backed v r hr).covered
        omega
      · exact not_lacks_ok h

theorem Solvent.slash_funded (hs : Solvent W K db) (v : Key) : ¬ LacksFunds (slashTx W.toPrim v db).1 := by
  intro h
  rcases h.bind with h | ⟨_, d, hd, h⟩
  · exact not_lacks_ok h
  obtain ⟨rfl, rfl⟩ := read_ok.mp hd
  cases hr : db.validators.get v with
  | none =>
    rw [hr] at h
    obtain ⟨e, he, hcode⟩ := h
    cases Go.err.inj he
    cases hcode
  | some r =>
    rw [hr] at h
    rcases h.bind with h | ⟨_, d, -, h⟩
    · have := burnTx_lacks h
      have := (hs.backed v r hr).covered
      omega
    · exact not_lacks_ok h

/-- The record is written before the burn, which the record before it covers. -/
theorem Solvent.miss_funded (hs : Solvent W K db) (n : Nat) (t : Tx) : ¬ LacksFunds (applyMiss W n t db).1 := by
  intro h
  unfold applyMiss at h
  split at h
  swap
  · exact not_lacks_ok h
  rcases h.bind with h | ⟨_, d, hd, h⟩
  · cases hr : db.validators.get t.missedProposer with
    | none =>
      simp only [recordMissTx, getRecord, bind_run, Act.read, hr] at h
      obtain ⟨e, he, hcode⟩ := h
      cases Go.err.inj he
      cases hcode
    | some r =>
      rw [recordMissTx_run hr] at h
      exact not_lacks_ok h
  · obtain ⟨r, hr, rfl, rfl⟩ := recordMissTx_ok hd
    obtain ⟨hcov, hpos, -⟩ := hs.backed _ r hr
    have hsum := (Record.miss_keeps hpos).1
    split at h
    · rcases h.bind with h | ⟨_, d, -, h⟩
      · have hlt := burnTx_lacks h
        have hlt : readBalance db (escrowAccount W.toPrim t.missedProposer) < r.miss.2 := hlt
        omega
      · exact not_lacks_ok h
    · exact not_lacks_ok h

/-- In every state reached from a genesis each record is covered by its escrow account, and
    no release, slash or miss inside a block runs out of funds. -/
theorem escrow_solvent (hK : KeysApart W K) (h : Reached W (FoundedIn K) (SendersIn K) db) :
    (∀ v r, db.validators.get v = some r → Backed W db v r) ∧
    ∀ b chainID mid, checkBlock W db b chainID = .ok () → (∀ t ∈ b.txs, K t.senderPubKey) → Midway W db b chainID mid →
      (∀ v height, ¬ LacksFunds (finalizeTx W.toPrim v height mid).1) ∧
      (∀ v, ¬ LacksFunds (slashTx W.toPrim v mid).1) ∧ ∀ n t, ¬ LacksFunds (applyMiss W n t mid).1 := by
  have hs := h.solvent hK
  refine ⟨hs.backed, fun b chainID mid hc hk hmid => ?_⟩
  have hmid := hmid.solvent hK hc hk hs
  exact ⟨hmid.finalize_funded, hmid.slash_funded, hmid.miss_funded⟩

end

/-! ## Two validators -/

/-- What is appended moves the sample hash by a bounded amount. -/
theorem sampleHash_append (xs ys : List UInt8) : ∃ δ < 257 ^ ys.length,
    (sampleHash (xs ++ ys)).val = ((sampleHash xs).val * 257 ^ ys.length + δ) % 256 ^ 32 := by
  induction ys using List.reverseRecOn with
  | nil => exact ⟨0, Nat.one_pos, by
    rw [List.append_nil, List.length_nil, pow_zero, mul_one, add_zero, Nat.mod_eq_of_lt (sampleHash xs).isLt]⟩
  | append_singleton ys y ih =>
    obtain ⟨δ, hδ, h⟩ := ih
    have hsnoc : sampleHash (xs ++ (ys ++ [y])) = sampleHash (xs ++ ys) * 257 + Fin.ofNat _ (y.toNat + 1) := by
      rw [← List.append_assoc, sampleHash, List.foldl_append]
      rfl
    rw [List.length_append, List.length_singleton, pow_succ]
    refine ⟨δ * 257 + (y.toNat + 1), ?_, ?_⟩
    · have := y.toNat_lt
      omega
    · have hval : (sampleHash (xs ++ (ys ++ [y]))).val =
          (((sampleHash xs).val * 257 ^ ys.length + δ) * 257 + (y.toNat + 1)) % 256 ^ 32 := by
        rw [hsnoc, Fin.val_add, Fin.val_mul, h, Fin.val_ofNat]
        show ((_ % 256 ^ 32) * (257 % 256 ^ 32) % 256 ^ 32 + _ % 256 ^ 32) % 256 ^ 32 = _
        rw [← Nat.mul_mod, ← Nat.add_mod]
      rw [hval]
      congr 1
      ring

/-- The contract addresses of `deployer` are in a range that does not contain `a`. -/
def awayFrom (deployer a : Key) : Bool :=
  let first := (sampleHash (domainContractDeploy ++ deployer.bytes)).val * 257 ^ 8 % 256 ^ 32
  first + 257 ^ 8 ≤ 256 ^ 32 && (a.val < first || first + 257 ^ 8 ≤ a.val)

theorem contractAddr_away {deployer a : Key} (h : awayFrom deployer a = true) (nonce : UInt64) :
    sampleHash (domainContractDeploy ++ deployer.bytes ++ u64 nonce.toNat) ≠ a := by
  rintro rfl
  obtain ⟨δ, hδ, hval⟩ := sampleHash_append (domainContractDeploy ++ deployer.bytes) (u64 nonce.toNat)
  rw [u64, length_toBE] at hδ hval
  unfold awayFrom at h
  simp only [Bool.and_eq_true, Bool.or_eq_true, decide_eq_true_eq] at h
  rw [← u64] at hval
  rw [hval, Nat.add_mod, Nat.mod_eq_of_lt (show δ < 256 ^ 32 by omega), Nat.mod_eq_of_lt (by omega)] at h
  omega

/-- The keys of two validators. -/
def oneOrTwo (k : Key) : Prop := k = 1 ∨ k = 2

instance decidableOneOrTwo : DecidablePred oneOrTwo := fun _ => inferInstanceAs (Decidable (_ ∨ _))

theorem keysApart_sample : KeysApart World.sample oneOrTwo where
  collisionFree v hv x hx := by
    have hhash : World.sample.hash = sampleHash := rfl
    rw [hhash]
    intro h
    cases hx with
    | escrow hw =>
      rcases hv with rfl | rfl <;> rcases hw with rfl | rfl
      · rfl
      · exact absurd h (by decide +kernel)
      · exact absurd h (by decide +kernel)
      · rfl
    | fee hw => rcases hv with rfl | rfl <;> rcases hw with rfl | rfl <;> exact absurd h (by decide +kernel)
    | contract nonce hw =>
      refine absurd h.symm (contractAddr_away ?_ nonce)
      rcases hv with rfl | rfl <;> rcases hw with rfl | rfl <;> decide +kernel
  keyless v w hv hw := by rcases hv with rfl | rfl <;> rcases hw with rfl | rfl <;> decide +kernel

theorem staked_founded : FoundedIn oneOrTwo stakedDB := by
  have hkeys : stakedDB.validators.keys = [1, 2] := by decide +kernel
  intro v hv
  obtain ⟨r, hr⟩ := Option.isSome_iff_exists.mp hv
  have hmem : v ∈ stakedDB.validators.keys := Bucket.mem_keys.mpr ⟨r, hr⟩
  rw [hkeys] at hmem
  simpa [oneOrTwo] using hmem

/-- Validator 2 has missed a block. -/
theorem escrow_solvent_accused : Reached World.sample (FoundedIn oneOrTwo) (SendersIn oneOrTwo) (accused 1).2 ∧
    ∀ v r, (accused 1).2.validators.get v = some r → Backed World.sample (accused 1).2 v r := by
  obtain ⟨_, hg⟩ := Go.run_eq (p := applyGenesis Prim.sample DB.new twoValidators) (by decide +kernel)
  obtain ⟨r, hb⟩ := Go.run_eq (p := accused 1) (by decide +kernel)
  have hsenders : SendersIn oneOrTwo stakedDB (accusing 1) [] (accused 1).2 := by
    intro t ht
    obtain rfl := List.mem_singleton.mp ht
    exact .inl rfl
  have hrun : Reached World.sample (FoundedIn oneOrTwo) (SendersIn oneOrTwo) (accused 1).2 :=
    ⟨stakedDB, ⟨twoValidators, hg, staked_founded⟩, .single ⟨⟨accusing 1, [], r⟩, ⟨.id, hb⟩, hsenders⟩⟩
  exact ⟨hrun, (escrow_solvent keysApart_sample hrun).1⟩

end Frg.Chain
