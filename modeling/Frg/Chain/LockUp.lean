/-
  Frg.Chain.LockUp — a bond stays locked up until its unbonding is over, in every run from a
  genesis.

  `Lock` says what the lock-up is meant to be, with no ledger in it: a bond is taken, shrinks
  with the misses, and ends released or slashed as a whole, released no earlier than 1000
  blocks after its unbonding. The trace of a run is read off the blocks (`stakeEvents`), with
  each amount measured as the change of a balance.

    - `StakeStep.follows`: each operation on a record is a step of its lock.
    - `stake_locked`: in every run, what left an escrow account are the releases, slashes and
      misses of the trace and nothing else, and each release or slash of a bond is of what the
      misses left of it.
-/

import Frg.Chain.Escrow
import Frg.Chain.Slashing

namespace Frg.Chain

open Frg.Lib Frg.Core Frg.Wire Frg.RG Frg.Contract Act

/-! ## The lock-up as it is meant -/

inductive Lock where
  | free
  | bonded (amount : Int)
  | unbonding (amount : Int) (since : UInt64)
  deriving DecidableEq, Repr

def StakeEvent.validator : StakeEvent → Key
  | .bonded v _ _ | .unbonded v _ | .missed v _ | .released v _ _ | .slashed v _ _ => v

def Lock.step : Lock → StakeEvent → Option Lock
  | .free, .bonded _ taken _ => some (.bonded taken)
  | .bonded amount, .unbonded _ height => some (.unbonding amount height)
  | .bonded amount, .missed _ burnt => some (.bonded (amount - burnt))
  | .unbonding amount since, .missed _ burnt => some (.unbonding (amount - burnt) since)
  | .unbonding amount since, .released _ returned height =>
    if returned = amount ∧ since.toNat + 1000 ≤ height.toNat then some .free else none
  | .bonded amount, .slashed _ burnt _ => if burnt = amount then some .free else none
  | .unbonding amount _, .slashed _ burnt _ => if burnt = amount then some .free else none
  | _, _ => none

/-- The lock of `v` takes no notice of the other validators. -/
def Lock.follow (v : Key) (l : Lock) (e : StakeEvent) : Option Lock := if e.validator = v then l.step e else some l

theorem Lock.follow_own {v : Key} {e : StakeEvent} (h : e.validator = v) (l : Lock) :
    l.follow v e = l.step e := if_pos h

/-- No bond, release or slash of `v`. -/
def StillOpen (v : Key) (trace : List StakeEvent) : Prop :=
  ∀ e ∈ trace, e.validator = v → (∃ height, e = .unbonded v height) ∨ ∃ burnt, e = .missed v burnt

def StakeEvent.missedBy (v : Key) : StakeEvent → Int
  | .missed w burnt => if w = v then burnt else 0
  | _ => 0

/-- What the misses of `v` burnt. -/
def missedOf (v : Key) (trace : List StakeEvent) : Int := (trace.map (StakeEvent.missedBy v)).sum

theorem missedOf_cons (v : Key) (e : StakeEvent) (trace : List StakeEvent) :
    missedOf v (e :: trace) = e.missedBy v + missedOf v trace := by
  simp [missedOf]

theorem StakeEvent.missedBy_other {v : Key} {e : StakeEvent} (h : e.validator ≠ v) : e.missedBy v = 0 := by
  cases e <;> simp_all [missedBy, validator]

section

variable {v : Key} {mid : List StakeEvent} {l : Lock}

theorem StillOpen.tail {e : StakeEvent} (h : StillOpen v (e :: mid)) : StillOpen v mid :=
  fun e' he' => h e' (List.mem_cons_of_mem _ he')

theorem Lock.follow_unbonding : ∀ {mid : List StakeEvent} {amount : Int} {since : UInt64}, StillOpen v mid →
    mid.foldlM (Lock.follow v) (.unbonding amount since) = some l → l = .unbonding (amount - missedOf v mid) since := by
  intro mid
  induction mid with
  | nil =>
    intro amount since _ h
    cases h
    simp [missedOf]
  | cons e mid ih =>
    intro amount since ho h
    rw [List.foldlM_cons] at h
    obtain ⟨l1, h1, h⟩ := Option.bind_eq_some_iff.mp h
    unfold Lock.follow at h1
    rw [missedOf_cons]
    split_ifs at h1 with hv
    · rcases ho e List.mem_cons_self hv with ⟨height, rfl⟩ | ⟨burnt, rfl⟩
      · cases h1
      · obtain rfl := Option.some.inj h1
        rw [ih ho.tail h, StakeEvent.missedBy, if_pos rfl, sub_sub]
    · obtain rfl := Option.some.inj h1
      rw [ih ho.tail h, StakeEvent.missedBy_other hv, zero_add]

theorem Lock.follow_bonded : ∀ {mid : List StakeEvent} {amount : Int}, StillOpen v mid →
    mid.foldlM (Lock.follow v) (.bonded amount) = some l → l = .bonded (amount - missedOf v mid) ∨
      ∃ since, .unbonded v since ∈ mid ∧ l = .unbonding (amount - missedOf v mid) since := by
  intro mid
  induction mid with
  | nil =>
    intro amount _ h
    cases h
    simp [missedOf]
  | cons e mid ih =>
    intro amount ho h
    rw [List.foldlM_cons] at h
    obtain ⟨l1, h1, h⟩ := Option.bind_eq_some_iff.mp h
    unfold Lock.follow at h1
    rw [missedOf_cons]
    have hlater : ∀ {a : Int}, (l = .bonded (a - missedOf v mid) ∨
        ∃ since, .unbonded v since ∈ mid ∧ l = .unbonding (a - missedOf v mid) since) →
        l = .bonded (a - missedOf v mid) ∨
        ∃ since, .unbonded v since ∈ e :: mid ∧ l = .unbonding (a - missedOf v mid) since :=
      fun hl => hl.imp_right fun ⟨since, hm, hl⟩ => ⟨since, List.mem_cons_of_mem _ hm, hl⟩
    split_ifs at h1 with hv
    · rcases ho e List.mem_cons_self hv with ⟨height, rfl⟩ | ⟨burnt, rfl⟩
      · obtain rfl := Option.some.inj h1
        have hl := follow_unbonding ho.tail h
        rw [show StakeEvent.missedBy v (.unbonded v height) = 0 from rfl, zero_add]
        exact .inr ⟨height, List.mem_cons_self, hl⟩
      · obtain rfl := Option.some.inj h1
        rw [StakeEvent.missedBy, if_pos rfl, ← sub_sub]
        exact hlater (ih ho.tail h)
    · obtain rfl := Option.some.inj h1
      rw [StakeEvent.missedBy_other hv, zero_add]
      exact hlater (ih ho.tail h)

theorem Lock.follow_closing {before after : List StakeEvent} {taken : Int} {height : UInt64}
    {e : StakeEvent} {l₀ : Lock}
    (h : (before ++ .bonded v taken height :: (mid ++ e :: after)).foldlM (Lock.follow v) l₀ = some l)
    (ho : StillOpen v mid) : (∀ n h, e ≠ .bonded v n h) ∧
      (∀ returned h, e = .released v returned h → returned = taken - missedOf v mid ∧
        ∃ h₁, .unbonded v h₁ ∈ mid ∧ h₁.toNat + 1000 ≤ h.toNat) ∧
      ∀ burnt h, e = .slashed v burnt h → burnt = taken - missedOf v mid := by
  rw [List.foldlM_append] at h
  obtain ⟨l1, -, h⟩ := Option.bind_eq_some_iff.mp h
  rw [List.foldlM_cons] at h
  obtain ⟨l2, h2, h⟩ := Option.bind_eq_some_iff.mp h
  -- only a free lock takes a bond
  obtain rfl : l2 = .bonded taken := by
    have h2 : l1.step (.bonded v taken height) = some l2 := (follow_own (v := v) rfl l1).symm.trans h2
    cases l1 with
    | free => exact (Option.some.inj h2).symm
    | bonded _ => cases h2
    | unbonding _ _ => cases h2
  rw [List.foldlM_append] at h
  obtain ⟨l3, h3, h⟩ := Option.bind_eq_some_iff.mp h
  rw [List.foldlM_cons] at h
  obtain ⟨l4, h4, -⟩ := Option.bind_eq_some_iff.mp h
  have hown : e.validator = v → l3.step e = some l4 := fun hv => (follow_own hv l3).symm.trans h4
  rcases follow_bonded ho h3 with rfl | ⟨since, hmem, rfl⟩
  · refine ⟨fun n h he => ?_, fun returned h he => ?_, fun burnt h he => ?_⟩ <;> subst he <;> have hstep := hown rfl
    · cases hstep
    · cases hstep
    · rw [Lock.step] at hstep
      split_ifs at hstep with hburnt
      exact hburnt
  · refine ⟨fun n h he => ?_, fun returned h he => ?_, fun burnt h he => ?_⟩ <;> subst he <;> have hstep := hown rfl
    · cases hstep
    · rw [Lock.step] at hstep
      split_ifs at hstep with hdue
      exact ⟨hdue.1, since, hmem, hdue.2⟩
    · rw [Lock.step] at hstep
      split_ifs at hstep with hburnt
      exact hburnt

end

/-! ## The trace of a block -/

/-- What one round of the transaction loop did to a stake. -/
def executedEvent (W : World) (ctx : BlockCtx) (db : DB) (t : Tx) : List StakeEvent :=
  if t.nonce = nextNonce db t.senderPubKey then (stakeEvent W ctx db t).toList else []

/-- What one round of the miss loop did to a stake. -/
def missEvent (W : World) (db : DB) (t : Tx) : List StakeEvent :=
  let a := escrowAccount W.toPrim t.missedProposer
  if t.type = .missEvidence then [.missed t.missedProposer (readBalance db a - readBalance (applyMiss W 0 t db).2 a)]
  else []

def stakeEvents (W : World) (pre : DB) (b : Block) (chainID : List UInt8) : List StakeEvent :=
  let ctx := ctxOf pre b chainID
  match txLoop W ctx b.txs pre with
  | (.ok outs, afterTxs) =>
    let afterGas := ((b.txs.zip outs).foldlM (chargeGas ctx.baseFee) 0 afterTxs).2
    traceOf (fun db t => (applyTx W ctx t db).2) (executedEvent W ctx) pre b.txs ++
      traceOf (fun db t => (applyMiss W 0 t db).2) (missEvent W) afterGas b.txs
  | _ => []

/-- The sum of the slashes so far is no part of the state. -/
theorem applyMiss_state (W : World) (n : Nat) (t : Tx) (db : DB) : (applyMiss W n t db).2 = (applyMiss W 0 t db).2 := by
  unfold applyMiss
  split
  swap
  · rfl
  simp only [bind_run]
  cases recordMissTx t.missedProposer db with
  | mk r d =>
    cases r with
    | ok slashAmt =>
      dsimp only
      split
      · simp only [bind_run]
        cases burnTx (escrowAccount W.toPrim t.missedProposer) slashAmt d with
        | mk r d => cases r <;> rfl
      · rfl
    | err _ => rfl
    | panic _ => rfl

/-! ## Operations follow the lock -/

/-- The lock a record stands for. -/
def lockOf : Option Record → Lock
  | none => .free
  | some r =>
    match r.state with
    | .bonded => .bonded r.bondedAmount
    | .unbonding => .unbonding r.bondedAmount r.unbondingAtBlock

/-- What the event takes from the escrow account of `v`. -/
def StakeEvent.outflow (v : Key) : StakeEvent → Option (Option Key × Int)
  | .released w returned _ => if w = v then some (some v, returned) else none
  | .slashed w burnt _ => if w = v then some (none, burnt) else none
  | .missed w burnt => if w = v ∧ 0 < burnt then some (none, burnt) else none
  | _ => none

/-- The end of an unbonding that has begun is a 64-bit height. -/
def Early (db : DB) : Prop := ∀ v r, db.validators.get v = some r → r.unbondingAtBlock.toNat + 1000 < 2 ^ 64

section

variable {W : World} {K : Key → Prop} {height : UInt64} {db db' : DB} {e : StakeEvent} {v : Key}

theorem Effect.follows {w : Key} {rec? : Option Record} {gain : Int} {out : List (Option Key × Int)}
    (h : Effect W K w rec? gain out db db') (hw : e.validator = w)
    (hstep : (lockOf (db.validators.get w)).step e = some (lockOf rec?)) (v : Key) :
    (lockOf (db.validators.get v)).follow v e = some (lockOf (db'.validators.get v)) := by
  rw [h.record, Lock.follow, hw]
  by_cases hv : v = w
  · rw [if_pos hv.symm, if_pos hv, hv, hstep]
  · rw [if_neg (Ne.symm hv), if_neg hv]

theorem lockOf_miss (r : Record) :
    (lockOf (some r)).step (.missed v r.miss.2) = some (lockOf (some r.miss.1)) := by
  have hstate : r.miss.1.state = r.state ∧ r.miss.1.unbondingAtBlock = r.unbondingAtBlock := by
    unfold Record.miss
    split <;> exact ⟨rfl, rfl⟩
  have hamount : (r.bondedAmount : Int) - r.miss.2 = r.miss.1.bondedAmount := by
    unfold Record.miss slashPercent
    split
    · dsimp only
      omega
    · exact sub_zero _
  cases hs : r.state with
  | bonded => simp only [lockOf, hstate, hs, Lock.step, hamount]
  | unbonding => simp only [lockOf, hstate, hs, Lock.step, hamount]

theorem StakeStep.follows (h : StakeStep W K height db db' e) (he : Early db) (v : Key) :
    (lockOf (db.validators.get v)).follow v e = some (lockOf (db'.validators.get v)) := by
  cases h with
  | bond _ hmin hnone h =>
    refine h.follows rfl ?_ v
    unfold minBondAmount at hmin
    rw [hnone]
    simp only [lockOf, Record.fresh, Lock.step, Int.toNat_of_nonneg (le_trans (by decide) hmin)]
  | unbond hr hs h =>
    refine h.follows rfl ?_ v
    simp only [hr, lockOf, hs, Lock.step]
  | release hr hs hdue h =>
    refine h.follows rfl ?_ v
    have hdue := UInt64.le_iff_toNat_le.mp hdue
    have hunb : unbondingBlocks.toNat = 1000 := rfl
    rw [UInt64.toNat_add, hunb, Nat.mod_eq_of_lt (he _ _ hr)] at hdue
    simp only [hr, lockOf, hs, Lock.step, hdue, and_self, if_true]
  | slash hr h =>
    refine h.follows rfl ?_ v
    simp only [hr, lockOf]
    split <;> exact if_pos rfl
  | miss hr h => exact h.follows rfl (hr ▸ lockOf_miss _) v

theorem StakeStep.outflows (h : StakeStep W K height db db' e) (hv : K v) :
    Chain.outflows (escrowAccount W.toPrim v) db'.journal =
      (e.outflow v).toList ++ Chain.outflows (escrowAccount W.toPrim v) db.journal := by
  cases h with
  | bond _ _ _ h => rw [h.outOf v hv, ite_self]; rfl
  | unbond _ _ h => rw [h.outOf v hv, ite_self]; rfl
  | @release w r _ _ _ h =>
    rw [h.outOf v hv]
    by_cases hw : v = w
    · subst hw
      simp [StakeEvent.outflow]
    · simp [StakeEvent.outflow, hw, Ne.symm hw]
  | @slash w r _ h =>
    rw [h.outOf v hv]
    by_cases hw : v = w
    · subst hw
      simp [StakeEvent.outflow]
    · simp [StakeEvent.outflow, hw, Ne.symm hw]
  | @miss w r _ h =>
    rw [h.outOf v hv]
    by_cases hw : v = w
    · subst hw
      simp only [StakeEvent.outflow, true_and, if_true, Int.natCast_pos]
      split_ifs <;> rfl
    · simp [StakeEvent.outflow, hw, Ne.symm hw]

theorem Effect.early {w : Key} {rec? : Option Record} {gain : Int} {out : List (Option Key × Int)}
    (h : Effect W K w rec? gain out db db') (he : Early db)
    (hnew : ∀ r ∈ rec?, r.unbondingAtBlock.toNat + 1000 < 2 ^ 64) : Early db' := by
  intro v r hr
  rw [h.record] at hr
  split_ifs at hr
  · exact hnew r hr
  · exact he v r hr

theorem StakeStep.early (h : StakeStep W K height db db' e) (hh : height.toNat + 1000 < 2 ^ 64) (he : Early db) :
    Early db' := by
  cases h with
  | bond _ _ _ h =>
    refine h.early he fun r hr => ?_
    obtain rfl := Option.some.inj hr
    show (0 : UInt64).toNat + 1000 < 2 ^ 64
    decide
  | unbond hr _ h =>
    refine h.early he fun r' hr' => ?_
    obtain rfl := Option.some.inj hr'
    exact hh
  | release _ _ _ h | slash _ h => exact h.early he fun _ hr => absurd hr (Option.not_mem_none _)
  | miss hr h =>
    refine h.early he fun r' hr' => ?_
    obtain rfl := Option.some.inj hr'
    have hsame : ∀ r : Record, r.miss.1.unbondingAtBlock = r.unbondingAtBlock := fun r => by
      unfold Record.miss
      split <;> rfl
    rw [hsame]
    exact he _ _ hr

/-! ## Runs -/

/-- The state and the trace so far, as far as `v` is concerned. -/
structure Tracks (W : World) (K : Key → Prop) (v : Key) (trace : List StakeEvent) (db : DB) : Prop where
  solvent : Solvent W K db
  early : Early db
  lock : ∃ l₀, trace.foldlM (Lock.follow v) l₀ = some (lockOf (db.validators.get v))
  out : Chain.outflows (escrowAccount W.toPrim v) db.journal = (trace.filterMap (StakeEvent.outflow v)).reverse

variable {trace : List StakeEvent}

theorem Tracks.aside (ht : Tracks W K v trace db) (hv : K v) (h : Aside W K db db') : Tracks W K v trace db' where
  solvent := ht.solvent.aside h
  early w r hr := ht.early w r (h.records ▸ hr)
  lock := h.records ▸ ht.lock
  out := (h.out v hv).trans ht.out

theorem Tracks.stake (ht : Tracks W K v trace db) (hv : K v) (hh : height.toNat + 1000 < 2 ^ 64)
    (h : StakeStep W K height db db' e) : Tracks W K v (trace ++ [e]) db' where
  solvent := ht.solvent.stake h
  early := h.early hh ht.early
  lock := by
    obtain ⟨l₀, hl⟩ := ht.lock
    refine ⟨l₀, ?_⟩
    rw [List.foldlM_append, hl]
    simp only [Option.bind_eq_bind, Option.bind_some, List.foldlM_cons, h.follows ht.early v, List.foldlM_nil]
    rfl
  out := by
    rw [h.outflows hv, ht.out, List.filterMap_append, List.reverse_append]
    congr 1
    cases hout : e.outflow v <;> simp [hout]

section

variable {pre : DB} {b : Block} {chainID : List UInt8} {ctx : BlockCtx} {txs : List Tx}

theorem Tracks.txLoop (hK : KeysApart W K) (hv : K v) (hh : ctx.height.toNat + 1000 < 2 ^ 64)
    (ha : ∀ t ∈ txs, Admitted K t) (ht : Tracks W K v trace db) {outs : List TxOut}
    (h : Chain.txLoop W ctx txs db = (.ok outs, db')) :
    Tracks W K v (trace ++ traceOf (fun db t => (applyTx W ctx t db).2) (executedEvent W ctx) db txs) db' := by
  refine mapM_traced (I := Tracks W K v) (fun t hmem done out d d' h1 ht => ?_) h ht
  unfold executedEvent
  by_cases hn : t.nonce = nextNonce d t.senderPubKey
  · obtain ⟨hknown, hk, hval⟩ := ha t hmem
    rw [if_pos hn]
    rcases applyTx_stake hK ht.solvent hknown hk hval hn h1 with ⟨hnone, haside⟩ | ⟨e, hsome, hstep⟩
    · rw [hnone, Option.toList_none, List.append_nil]
      exact ht.aside hv haside
    · rw [hsome]
      exact ht.stake hv hh hstep
  · obtain ⟨-, rfl⟩ := applyTx_skip hn h1
    rw [if_neg hn, List.append_nil]
    exact ht

theorem Tracks.missLoop (hK : KeysApart W K) (hv : K v) (ht : Tracks W K v trace db) {n n' : Nat}
    (h : txs.foldlM (applyMiss W) n db = (.ok n', db')) :
    Tracks W K v (trace ++ traceOf (fun db t => (applyMiss W 0 t db).2) (missEvent W) db txs) db' := by
  refine foldlM_traced (I := Tracks W K v) (fun n t d => applyMiss_state W n t d)
    (fun t _ done n n' d d' h1 ht => ?_) h ht
  have hafter : (applyMiss W 0 t d).2 = d' := by rw [← applyMiss_state W n, h1]
  unfold missEvent
  rw [hafter]
  dsimp only
  split_ifs with hty
  · have hzero : (0 : UInt64).toNat + 1000 < 2 ^ 64 := by decide
    exact ht.stake hv hzero (applyMiss_stake hK (ht.solvent.held _) hty h1)
  · unfold applyMiss at h1
    rw [if_neg hty] at h1
    obtain ⟨-, rfl⟩ := pure_ok.mp h1
    rw [List.append_nil]
    exact ht

theorem BlockRun.tracks {order : MapOrder} {post : DB} (run : BlockRun W order pre b chainID post) (hK : KeysApart W K)
    (hv : K v) (hk : ∀ t ∈ b.txs, K t.senderPubKey) (hh : b.height.toNat + 1000 < 2 ^ 64)
    (ht : Tracks W K v trace pre) : Tracks W K v (trace ++ stakeEvents W pre b chainID) post := by
  have hevents : stakeEvents W pre b chainID =
      traceOf (fun db t => (applyTx W (ctxOf pre b chainID) t db).2) (executedEvent W (ctxOf pre b chainID))
        pre b.txs ++
        traceOf (fun db t => (applyMiss W 0 t db).2) (missEvent W) run.afterGas b.txs := by
    have hgas : ((b.txs.zip run.outs).foldlM (chargeGas (ctxOf pre b chainID).baseFee) 0 run.afterTxs).2 =
        run.afterGas :=
      congrArg Prod.snd run.ranGas
    simp only [stakeEvents, run.ranTxs, hgas]
  have htxs := ht.txLoop hK hv hh (checkBlock_admitted run.checked hk) run.ranTxs
  have hmiss := (htxs.aside hv (run.gas_aside hK hk)).missLoop hK hv run.ranMiss
  rw [hevents, ← List.append_assoc]
  exact hmiss.aside hv run.mint_aside

end

/-- The keys of the senders are in `K`, and the height leaves room for an unbonding. -/
def LockableIn (K : Key → Prop) : DB → Block → List UInt8 → DB → Prop :=
  fun _ b _ _ => (∀ t ∈ b.txs, K t.senderPubKey) ∧ b.height.toNat + 1000 < 2 ^ 64

theorem Traced.tracks (hK : KeysApart W K) (hv : K v)
    (h : Traced W (FoundedIn K) (LockableIn K) (stakeEvents W) trace db) : Tracks W K v trace db := by
  refine h.keeps (fun ⟨g, hg, hf⟩ => ?_) fun ih ⟨⟨order, happ⟩, hblock⟩ => ?_
  · -- the bonds of a genesis are no transactions: the trace starts behind them
    refine genesis_keeps hK hg hf (I := Tracks W K v []) (fun hd => ?_) (fun hb ht => ?_) fun ht => ?_
    · refine ⟨hd.solvent, fun w r hr => ?_, ⟨_, rfl⟩, hd.out _⟩
      rw [hd.records] at hr
      cases hr
    · have hzero : (0 : UInt64).toNat + 1000 < 2 ^ 64 := by decide
      obtain ⟨hsolvent, hearly, -, hout⟩ := ht.stake hv hzero hb
      exact ⟨hsolvent, hearly, ⟨_, rfl⟩, hout⟩
    · exact ⟨ht.solvent.flagged, ht.early, ht.lock, ht.out⟩
  · obtain ⟨run, -⟩ := applyBlockForChain_ok happ
    exact run.tracks hK hv hblock.1 hblock.2 ih

/-- In every run from a genesis, what left the escrow account of `v` are its releases, slashes
    and misses and nothing else. Between a bond and what ends it there is no other bond; a
    release returns what the misses left of it, 1000 blocks or more after its unbonding, and a
    slash burns what they left. -/
theorem stake_locked (hK : KeysApart W K) (hv : K v)
    (h : Traced W (FoundedIn K) (LockableIn K) (stakeEvents W) trace db) :
    Chain.outflows (escrowAccount W.toPrim v) db.journal = (trace.filterMap (StakeEvent.outflow v)).reverse ∧
    ∀ before mid after taken height e, trace = before ++ .bonded v taken height :: (mid ++ e :: after) →
      StillOpen v mid →
      (∀ n h, e ≠ .bonded v n h) ∧
      (∀ returned h, e = .released v returned h → returned = taken - missedOf v mid ∧
        ∃ h₁, .unbonded v h₁ ∈ mid ∧ h₁.toNat + 1000 ≤ h.toNat) ∧
      ∀ burnt h, e = .slashed v burnt h → burnt = taken - missedOf v mid := by
  obtain ⟨-, -, ⟨l₀, hlock⟩, hout⟩ := h.tracks hK hv
  refine ⟨hout, fun before mid after taken height e htrace ho => ?_⟩
  rw [htrace] at hlock
  exact Lock.follow_closing hlock ho

end

/-! ## A bond that is waited for -/

/-- An empty block in the store. -/
def idleBytes (height : UInt64) : List UInt8 :=
  blockMagicV2 ++ u64 height.toNat ++ (0 : Key).bytes ++ (0 : Hash).bytes ++ (emptyBlockRoot Prim.sample).bytes ++
    u32 0 ++ u32 0

/-- The chain after an empty block, where nobody is bonded. -/
def idled (db : DB) : DB := { db with
  height := db.height + 1
  stateRoot := emptyBlockRoot Prim.sample
  baseFee := some (nextBaseFee (currentBaseFee db) 0)
  blocks := db.blocks.put (blockKey (db.height + 1)) (idleBytes (db.height + 1)) }

theorem updateSupply_idle {pre db : DB} (h : bondedAmounts pre = []) (hsupply : db.totalSupply = pre.totalSupply) :
    updateSupply pre 0 0 db = (.ok (), db) := by
  have hmint : mintAmountOf pre = 0 := if_pos h
  unfold updateSupply
  rw [hmint, ← hsupply]
  cases hn : db.totalSupply with
  | none => rfl
  | some n =>
    refine Act.bind_ok.mpr ⟨(), db, Act.check_ok.mpr ⟨by simp, rfl⟩, ?_⟩
    simp [Act.write, ← hn]

def idleStages {db : DB} (h : bondedAmounts db = []) :
    BlockStages World.sample .id db (.plain (db.height + 1) []) [] where
  outs := []
  nodes := []
  tree := ⟨[[]], emptyBlockRoot Prim.sample⟩
  totalGas := 0
  missSlashed := 0
  afterTxs := db
  afterGas := db
  afterMiss := db
  afterMint := db
  afterMeta := { idled db with blocks := db.blocks }
  stored := idleBytes (db.height + 1)
  checked := by simp [checkBlock, Block.plain, Go.check]
  ranTxs := rfl
  gotNodes := rfl
  gotTree := rfl
  ranGas := rfl
  ranMiss := rfl
  ranMint := by
    rw [h]
    rfl
  ranMeta := Act.bind_ok.mpr ⟨(), _, rfl, Act.bind_ok.mpr ⟨(), _, updateSupply_idle h rfl, rfl⟩⟩
  telemetry := Nat.zero_le _
  encoded := by
    simp [serializeBlock, blockBatch, Block.plain, idleBytes, Go.check, blockMagicV2, maxStoredBlockBytes, u64, u32]

theorem applyBlock_idle {db : DB} (h : bondedAmounts db = []) :
    ∃ r, applyBlockForChain World.sample .id db (.plain (db.height + 1) []) [] = (.ok r, idled db) :=
  ⟨_, (idleStages h).accepted⟩

theorem idle_traced {I : DB → Prop} {C : DB → Block → List UInt8 → DB → Prop} {trace : List StakeEvent} {db : DB}
    {bound : Nat} (hbound : bound < 2 ^ 64)
    (hC : ∀ (h : UInt64) pre post, h.toNat ≤ bound → C pre (.plain h []) [] post)
    (h : TracedFrom World.sample I C (stakeEvents World.sample) trace db) (hnone : bondedAmounts db = []) (n : Nat)
    (hn : db.height.toNat + n ≤ bound) :
    TracedFrom World.sample I C (stakeEvents World.sample) trace (idled^[n] db) := by
  induction n generalizing db with
  | zero => exact h
  | succ n ih =>
    have hheight : (db.height + 1).toNat = db.height.toNat + 1 := by
      have hone : (1 : UInt64).toNat = 1 := rfl
      rw [UInt64.toNat_add, hone]
      exact Nat.mod_eq_of_lt (by omega)
    obtain ⟨r, hr⟩ := applyBlock_idle hnone
    have hnext := h.block hr (hC _ _ _ (by omega))
    have hquiet : stakeEvents World.sample db (.plain (db.height + 1) []) [] = [] := rfl
    rw [hquiet, List.append_nil] at hnext
    have hidled : (idled db).height.toNat = db.height.toNat + 1 := hheight
    exact ih hnext hnone (by omega)

/-- Validator 2 is slashed and bonds again. Then both validators unbond. -/
def unlocking : List Block :=
  [.plain 1 [reporting 1],
   .plain 2 ([Tx.plain .transfer 1 2 1000 2, .plain .bond 2 2 minBondAmount 1].map fun t => t.signed Prim.sample []),
   .plain 3 ([Tx.plain .unbond 2 2 0 2, .plain .unbond 1 1 0 3].map fun t => t.signed Prim.sample [])]

/-- When its time is over validator 2 has its bond back, bonds it again and is slashed. -/
def settling : List Block :=
  [.plain 1003 [(Tx.plain .finalizeUnbond 2 2 0 3).signed Prim.sample []],
   .plain 1004 [(Tx.plain .bond 2 2 minBondAmount 4).signed Prim.sample []],
   .plain 1005 [reporting 4]]

def waited : List StakeEvent :=
  [.slashed 2 minBondAmount 1, .bonded 2 minBondAmount 2, .unbonded 2 3, .unbonded 1 3,
   .released 2 minBondAmount 1003, .bonded 2 minBondAmount 1004, .slashed 2 minBondAmount 1005]

theorem stake_locked_waited : ∃ trace db,
    Traced World.sample (FoundedIn oneOrTwo) (LockableIn oneOrTwo) (stakeEvents World.sample) trace db ∧
      trace = waited ∧ Chain.outflows (escrowAccount Prim.sample 2) db.journal =
        [(none, minBondAmount), (some 2, minBondAmount), (none, minBondAmount)] ∧
      (minBondAmount = minBondAmount - missedOf 2 [.unbonded 2 3, .unbonded 1 3] ∧
        ∃ h₁ : UInt64, StakeEvent.unbonded 2 h₁ ∈ [StakeEvent.unbonded 2 3, .unbonded 1 3] ∧ h₁.toNat + 1000 ≤ 1003) ∧
      minBondAmount = minBondAmount - missedOf 2 [] := by
  obtain ⟨_, hg⟩ := Go.run_eq (p := applyGenesis Prim.sample DB.new twoValidators) (by decide +kernel)
  have hblocks : ∀ b ∈ unlocking ++ settling, (∀ t ∈ b.txs, oneOrTwo t.senderPubKey) ∧
      b.height.toNat + 1000 < 2 ^ 64 := by
    decide +kernel
  have hran : ((unlocking.foldlM (traceStep (stakeEvents World.sample)) ([], stakedDB)).bind fun s =>
      if bondedAmounts s.2 = [] ∧ s.2.height = 3 then
        settling.foldlM (traceStep (stakeEvents World.sample)) (s.1, idled^[999] s.2) else none).map (·.1) =
          some waited := by
    decide +kernel
  obtain ⟨s', hs', htrace⟩ := Option.map_eq_some_iff.mp hran
  obtain ⟨s, hs, hs'⟩ := Option.bind_eq_some_iff.mp hs'
  obtain ⟨⟨hnone, hheight⟩, hs'⟩ := Option.ite_none_right_eq_some.mp hs'
  have hleft : Traced World.sample (FoundedIn oneOrTwo) (LockableIn oneOrTwo) (stakeEvents World.sample) s.1 s.2 :=
    TracedFrom.computed ⟨twoValidators, hg, staked_founded⟩ (fun b hb _ _ => hblocks b (List.mem_append_left _ hb)) hs
  have hempty (h : UInt64) (pre post : DB) (hh : h.toNat ≤ 1002) : LockableIn oneOrTwo pre (.plain h []) [] post :=
    ⟨fun t ht => absurd ht List.not_mem_nil, show h.toNat + 1000 < 2 ^ 64 by omega⟩
  have hidle := idle_traced (by decide) hempty hleft hnone 999 (by rw [hheight]; decide)
  generalize idled^[999] s.2 = d at hidle hs'
  have hrun : Traced World.sample (FoundedIn oneOrTwo) (LockableIn oneOrTwo) (stakeEvents World.sample) s'.1 s'.2 :=
    TracedFrom.further (x := (s.1, d)) hidle (fun b hb _ _ => hblocks b (List.mem_append_right _ hb)) hs'
  obtain ⟨hout, hlocked⟩ := stake_locked keysApart_sample (.inr rfl) hrun
  rw [htrace] at hout hlocked
  obtain ⟨-, hreleased, -⟩ := hlocked [.slashed 2 minBondAmount 1] [.unbonded 2 3, .unbonded 1 3]
    [.bonded 2 minBondAmount 1004, .slashed 2 minBondAmount 1005] minBondAmount 2 (.released 2 minBondAmount 1003) rfl
    (by simp [StillOpen, StakeEvent.validator])
  obtain ⟨-, -, hslashed⟩ := hlocked _ [] [] minBondAmount 1004 (.slashed 2 minBondAmount 1005)
    (show waited = waited.take 5 ++ _ from rfl) (by simp [StillOpen])
  exact ⟨s'.1, s'.2, hrun, htrace, hout.trans (by decide +kernel), hreleased _ _ rfl, hslashed _ _ rfl⟩

end Frg.Chain
