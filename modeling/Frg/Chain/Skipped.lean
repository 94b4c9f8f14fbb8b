/-
  Frg.Chain.Skipped — transactions the loop skips because their nonce is not the next one.

  The loop leaves the state alone for them, but the gas loop and the miss loop go over
  every transaction of the block. What is proved:

    - `skipped_not_inert`: inserting a skipped transaction into an accepted block always
      changes the outcome: the block is refused, or its sender pays for it, or the
      proposer it accuses is charged.
    - `misses_caused_iff`: the misses a block records are those of its executed miss
      evidence exactly when it skips none, and so are the misses of a run.

  `txLoop_executed` is the induction over the transactions that are executed.
-/

import Frg.Lib.Lists
import Frg.Chain.Loops

namespace Frg.Chain

open Frg.Lib Frg.Core Frg.Wire Frg.Contract Frg.RG Act

variable {W : World} {ctx : BlockCtx}

/-- A transaction that passes its check and whose nonce is not the next one is skipped. -/
theorem applyTx_stale {t : Tx} {db : DB} {k : Key} (hs : t.nonce ≠ nextNonce db t.senderPubKey)
    (hp : precheck W ctx t = .ok k) : applyTx W ctx t db = (.ok {}, db) := by
  by_cases hk : Known t
  · obtain ⟨j, hj⟩ : ∃ j, loopCheck W ctx t = .ok j := by
      unfold loopCheck
      split <;> exact ⟨_, by first | exact hp | rfl⟩
    rw [applyTx_eq hk, hj]
    exact if_neg hs
  · exact applyTx_other hk db

/-! ## Skipped transactions are not inert -/

theorem txLoop_insert_skip {before after : List Tx} {t : Tx} {db d1 d2 : DB} {outs outs' : List TxOut}
    (hs : t.nonce ≠ nextNonce (txLoop W ctx before db).2 t.senderPubKey)
    (h : txLoop W ctx (before ++ after) db = (.ok outs, d1))
    (h' : txLoop W ctx (before ++ t :: after) db = (.ok outs', d2)) :
    d2 = d1 ∧ ∃ o1 o2, outs = o1 ++ o2 ∧ outs' = o1 ++ {} :: o2 ∧ o1.length = before.length := by
  obtain ⟨o1, s1, o2, h1, h2, rfl⟩ := mapM_append_ok.mp h
  obtain ⟨o1', s1', os, h1', h2', rfl⟩ := mapM_append_ok.mp h'
  obtain ⟨e1, rfl⟩ := Prod.mk.inj (h1.symm.trans h1')
  obtain rfl := Go.ok.inj e1
  obtain ⟨o, s2, o2', h3, h4, rfl⟩ := mapM_cons_ok.mp h2'
  have hs1 : (txLoop W ctx before db).2 = s1 := congrArg Prod.snd h1
  rw [hs1] at hs
  obtain ⟨rfl, rfl⟩ := applyTx_skip hs h3
  obtain ⟨e2, rfl⟩ := Prod.mk.inj (h2.symm.trans h4)
  obtain rfl := Go.ok.inj e2
  exact ⟨rfl, o1, o2, rfl, rfl, mapM_length h1⟩

theorem gasOf_insert {before after : List Tx} {t : Tx} {o1 o2 : List TxOut} (hl : o1.length = before.length) :
    gasOf t.senderPubKey ((before ++ t :: after).zip (o1 ++ {} :: o2)) =
      gasOf t.senderPubKey ((before ++ after).zip (o1 ++ o2)) + 1 := by
  rw [List.zip_append hl.symm, List.zip_append hl.symm]
  simp only [gasOf, List.map_append, List.sum_append, List.zip_cons_cons, List.map_cons, List.sum_cons, if_true]
  have hu : (gasUnits ({} : TxOut)).toNat = 1 := rfl
  omega

theorem missBurnt_insert {P : Prim} {a : Key} {t : Tx} (ht : t.type ≠ .missEvidence) (after : List Tx) :
    ∀ (before : List Tx) (records : Bucket Key Record),
      missBurnt P a records (before ++ t :: after) = missBurnt P a records (before ++ after) := by
  intro before
  induction before with
  | nil => intro records; simp [missBurnt, missSlash, missStep, ht]
  | cons u before ih => intro records; simp only [List.cons_append, missBurnt, ih]

variable {order order' : MapOrder} {db post post' : DB} {b : Block} {chainID : List UInt8}

theorem BlockRun.balance (run : BlockRun W order db b chainID post) (a : Key) :
    readBalance post a = readBalance run.afterTxs a -
      (currentBaseFee db).val * (gasOf a (b.txs.zip run.outs) : Nat) -
      missBurnt W.toPrim a run.afterTxs.validators b.txs +
      mintedTo W.toPrim a (((bondedAmounts db).map (·.1)).zip
        (splitReward (mintAmountOf db) ((bondedAmounts db).map (·.1)).length)) := by
  obtain ⟨hg, vg⟩ := gasLoop_ok (currentBaseFee db) run.ranGas
  obtain ⟨hm, -, -⟩ := missLoop_ok run.ranMiss
  obtain ⟨hc, -⟩ := mintLoop_ok run.ranMint
  have hp : readBalance post a = readBalance run.afterMint a := by
    unfold readBalance
    rw [run.balances]
  rw [hp, hc, hm, hg, vg]

theorem BlockRun.records (run : BlockRun W order db b chainID post) :
    post.validators = b.txs.foldl missStep run.afterTxs.validators ∧
      ∀ t ∈ b.txs, t.type = .missEvidence → (run.afterTxs.validators.get t.missedProposer).isSome := by
  obtain ⟨-, vg⟩ := gasLoop_ok (currentBaseFee db) run.ranGas
  obtain ⟨-, vm, sm⟩ := missLoop_ok run.ranMiss
  obtain ⟨-, vc⟩ := mintLoop_ok run.ranMint
  exact ⟨by rw [run.validators, vc, vm, vg], by rw [← vg]; exact sm⟩

/-- Whatever block a skipped transaction is added to, it is not inert: the longer block is
    refused or leaves different balances or validator records. -/
theorem skipped_not_inert (before after : List Tx) (t : Tx) {r : Result} (hb : b.txs = before ++ after)
    (hok : applyBlockForChain W order db b chainID = (.ok r, post))
    (hs : t.nonce ≠ nextNonce (txLoop W (ctxOf db b chainID) before db).2 t.senderPubKey) :
    ¬ ∃ r' post', applyBlockForChain W order' db { b with txs := before ++ t :: after } chainID = (.ok r', post') ∧
      post'.stores = post.stores := by
  rintro ⟨r', post', hok', hsame⟩
  obtain ⟨run, -⟩ := applyBlockForChain_ok hok
  obtain ⟨run', -⟩ := applyBlockForChain_ok hok'
  have h1 := run.ranTxs
  rw [hb] at h1
  obtain ⟨hafter, o1, o2, e1, e2, hl⟩ := txLoop_insert_skip hs h1 run'.ranTxs
  by_cases ht : t.type = .missEvidence
  · -- the accused proposer has one more miss
    obtain ⟨v1, -⟩ := run.records
    obtain ⟨v2, hsome⟩ := run'.records
    have hsome := hsome t (List.mem_append_right _ List.mem_cons_self) ht
    have hcount : missesOf t.missedProposer (before ++ t :: after) =
        missesOf t.missedProposer (before ++ after) + 1 := by
      simp [missesOf, ht]
      omega
    have e : (before ++ t :: after).foldl missStep run'.afterTxs.validators =
        b.txs.foldl missStep run.afterTxs.validators := v2.symm.trans ((congrArg Stores.validators hsame).trans v1)
    have hget := congrArg (fun m => m.get t.missedProposer) e
    rw [hafter, hb] at hget
    simp only [missRecords_get, hcount] at hget
    rw [hafter] at hsome
    obtain ⟨r0, hr0⟩ := Option.isSome_iff_exists.mp hsome
    rw [hr0, Option.map_some, Option.map_some, Function.iterate_succ_apply'] at hget
    exact Record.miss_ne _ (congrArg Record.missCount (Option.some.inj hget))
  · -- the sender has paid for it
    have hbal : readBalance post' t.senderPubKey = readBalance post t.senderPubKey := by
      unfold readBalance
      rw [show post'.balances = post.balances from congrArg Stores.balances hsame]
    rw [run.balance, run'.balance, hafter, e1, e2, hb, gasOf_insert hl, missBurnt_insert ht] at hbal
    have := (currentBaseFee db).pos
    push_cast at hbal
    rw [mul_add] at hbal
    omega

/-- The empty block on a state with 100 in account 1. -/
def emptyBlock : Block := Block.plain 1 []

/-- A transfer of account 1 with a nonce far ahead. -/
def aheadTx : Tx := (Tx.plain .transfer 1 2 10 7).signed Prim.sample []

def withAhead : Block := { emptyBlock with txs := [aheadTx] }

theorem ahead_runs : (applyBlockForChain World.sample .id genesisDB emptyBlock []).1.isOk = true ∧
    (applyBlockForChain World.sample .id genesisDB withAhead []).1.isOk = true ∧
    readBalance (applyBlockForChain World.sample .id genesisDB emptyBlock []).2 1 = 100 ∧
    readBalance (applyBlockForChain World.sample .id genesisDB withAhead []).2 1 = 99 ∧
    aheadTx.nonce ≠ nextNonce (txLoop World.sample (ctxOf genesisDB emptyBlock []) [] genesisDB).2
      aheadTx.senderPubKey := by
  decide +kernel

theorem skipped_not_inert_ahead : ¬ ∃ r' post',
    applyBlockForChain World.sample .id genesisDB withAhead [] = (.ok r', post') ∧
      post'.stores = (applyBlockForChain World.sample .id genesisDB emptyBlock []).2.stores := by
  obtain ⟨hempty, -, -, -, hahead⟩ := ahead_runs
  obtain ⟨r, hok⟩ := Go.run_eq hempty
  exact skipped_not_inert [] [] aheadTx rfl hok hahead

/-- The empty block and the one with the skipped transfer are both accepted; the second
    takes a fee from the sender. -/
theorem skipped_pays : (applyBlockForChain World.sample .id genesisDB emptyBlock []).1.isOk = true ∧
    (applyBlockForChain World.sample .id genesisDB withAhead []).1.isOk = true ∧
    readBalance (applyBlockForChain World.sample .id genesisDB emptyBlock []).2 1 = 100 ∧
    readBalance (applyBlockForChain World.sample .id genesisDB withAhead []).2 1 = 99 := by
  obtain ⟨hempty, hahead, hkept, hpaid, -⟩ := ahead_runs
  exact ⟨hempty, hahead, hkept, hpaid⟩

/-! ## Misses of skipped evidence -/

/-- The transactions of a block whose nonce was the next one at their place in the loop:
    those whose nonce `AdvanceNonceTx` consumed. -/
def executedTxs (W : World) (ctx : BlockCtx) : DB → List Tx → List Tx
  | _, [] => []
  | db, t :: txs =>
    let rest := executedTxs W ctx (applyTx W ctx t db).2 txs
    if t.nonce = nextNonce db t.senderPubKey then t :: rest else rest

def missEvidenceIn (txs : List Tx) : List Tx := txs.filter fun t => t.type = .missEvidence

/-- No miss evidence of the block is skipped for its nonce. -/
def NoMissSkipped (W : World) (ctx : BlockCtx) : DB → List Tx → Prop
  | _, [] => True
  | db, t :: txs =>
    (t.type = .missEvidence → t.nonce = nextNonce db t.senderPubKey) ∧
      NoMissSkipped W ctx (applyTx W ctx t db).2 txs

theorem executedTxs_sublist (W : World) (ctx : BlockCtx) : ∀ (txs : List Tx) (db : DB),
    (executedTxs W ctx db txs).Sublist txs := by
  intro txs
  induction txs with
  | nil => exact fun _ => List.Sublist.slnil
  | cons t txs ih =>
    intro db
    unfold executedTxs
    split
    · exact (ih _).cons_cons t
    · exact (ih _).cons t

/-- A property of the transactions executed so far and the state holds after the loop if
    each executed transaction keeps it. -/
theorem txLoop_executed {I : List Tx → DB → Prop} : ∀ {txs : List Tx} (done : List Tx) {outs : List TxOut}
    {db db' : DB}, (∀ t ∈ txs, ∀ done out db db', t.nonce = nextNonce db t.senderPubKey →
      applyTx W ctx t db = (.ok out, db') → I done db → I (done ++ [t]) db') →
    txLoop W ctx txs db = (.ok outs, db') → I done db → I (done ++ executedTxs W ctx db txs) db' := by
  intro txs
  induction txs with
  | nil =>
    intro done outs db db' _ h hi
    obtain ⟨-, rfl⟩ := mapM_nil_ok.mp h
    simpa [executedTxs] using hi
  | cons t txs ih =>
    intro done outs db db' hstep h hi
    obtain ⟨out, d1, outs', h1, h2, -⟩ := mapM_cons_ok.mp h
    have hafter : (applyTx W ctx t db).2 = d1 := by rw [h1]
    have hrest := fun u hu => hstep u (List.mem_cons_of_mem _ hu)
    unfold executedTxs
    rw [hafter]
    by_cases hn : t.nonce = nextNonce db t.senderPubKey
    · rw [if_pos hn, List.append_cons]
      exact ih _ hrest h2 (hstep t List.mem_cons_self done out db d1 hn h1 hi)
    · obtain ⟨-, rfl⟩ := applyTx_skip hn h1
      rw [if_neg hn]
      exact ih _ hrest h2 hi

theorem executedTxs_all_iff (W : World) (ctx : BlockCtx) : ∀ (txs : List Tx) (db : DB),
    missEvidenceIn (executedTxs W ctx db txs) = missEvidenceIn txs ↔ NoMissSkipped W ctx db txs := by
  intro txs
  induction txs with
  | nil => exact fun _ => iff_of_true rfl trivial
  | cons t txs ih =>
    intro db
    unfold executedTxs NoMissSkipped
    rw [← ih]
    by_cases hn : t.nonce = nextNonce db t.senderPubKey
    · by_cases ht : t.type = .missEvidence <;> simp [missEvidenceIn, hn, ht]
    · by_cases ht : t.type = .missEvidence
      · -- the block's evidence is longer than the executed one
        have hlen := ((executedTxs_sublist W ctx txs (applyTx W ctx t db).2).filter
          fun t => t.type = .missEvidence).length_le
        refine iff_of_false (fun e => ?_) fun h => hn (h.1 ht)
        have := congrArg List.length e
        simp only [if_neg hn, missEvidenceIn, List.filter_cons, ht, decide_true, if_true, List.length_cons] at this
        omega
      · simp [missEvidenceIn, hn, ht]

def Event.missed : Event → Option Key
  | .miss v => some v
  | _ => none

/-- The validators `RecordMissTx` charged, newest first. -/
def missLog (db : DB) : List Key := db.journal.filterMap Event.missed

/-- No miss was recorded and no miss counter has risen. -/
structure NoMissRaised (db db' : DB) : Prop where
  log : missLog db' = missLog db
  counts : ∀ v r', db'.validators.get v = some r' →
    r'.missCount = 0 ∨ ∃ r, db.validators.get v = some r ∧ r.missCount = r'.missCount

instance : Std.Refl NoMissRaised := ⟨fun _ => ⟨rfl, fun _ r' h => .inr ⟨r', h, rfl⟩⟩⟩

instance : IsTrans DB NoMissRaised := ⟨fun _ _ _ h1 h2 => ⟨h2.log.trans h1.log, fun v r' h => by
  rcases h2.counts v r' h with h0 | ⟨r, hr, e⟩
  · exact .inl h0
  · rw [← e]
    exact h1.counts v r hr⟩⟩

theorem NoMissRaised.of_eq {db db' : DB} (hl : missLog db' = missLog db) (hv : db'.validators = db.validators) :
    NoMissRaised db db' := ⟨hl, fun _ r' h => .inr ⟨r', hv ▸ h, rfl⟩⟩

theorem NoMissRaised.put {db : DB} {v : Key} {r : Record}
    (h : r.missCount = 0 ∨ ∃ r0, db.validators.get v = some r0 ∧ r0.missCount = r.missCount) :
    NoMissRaised db { db with validators := db.validators.put v r } := by
  refine ⟨rfl, fun w r' hw => ?_⟩
  by_cases e : w = v
  · subst e
    rw [Bucket.get_put_self] at hw
    cases hw
    exact h
  · rw [Bucket.get_put_ne _ _ e] at hw
    exact .inr ⟨r', hw, rfl⟩

theorem noMissRaised_burn (a : Key) (n : Int) : Steps NoMissRaised (burnTx a n) :=
  burnTx_steps (changeBalance_steps fun _ _ => .of_eq rfl rfl)

theorem noMissRaised_txOps : TxOps NoMissRaised where
  move _ _ _ _ _ := moveBalance_steps (fun _ _ => .of_eq rfl rfl) fun _ _ => .of_eq rfl rfl
  nonce := advanceNonceTx_steps fun _ _ _ _ => .of_eq rfl rfl
  bond _ _ _ _ := .put (.inl rfl)
  unbond := unbondTx_steps fun _ r _ _ hr hm => .put (.inr ⟨r, hr, hm.symm⟩)
  deleteRecord v db := by
    refine ⟨rfl, fun w r' h => .inr ⟨r', ?_, rfl⟩⟩
    change (db.validators.delete v).get w = some r' at h
    rw [Bucket.get_delete] at h
    split at h
    · cases h
    · exact h
  storeBytecode _ _ _ := .of_eq rfl rfl
  saveState _ _ _ := .of_eq rfl rfl

theorem missLoop_log : ∀ {txs : List Tx} {n n' : Nat} {db db' : DB}, txs.foldlM (applyMiss W) n db = (.ok n', db') →
    missLog db' = ((missEvidenceIn txs).map Tx.missedProposer).reverse ++ missLog db := by
  intro txs
  induction txs with
  | nil =>
    intro n n' db db' h
    obtain ⟨-, rfl⟩ := pure_ok.mp h
    rfl
  | cons t txs ih =>
    intro n n' db db' h
    obtain ⟨n1, d1, h1, h2⟩ := foldlM_cons_ok.mp h
    rw [ih h2]
    unfold applyMiss at h1
    by_cases ht : t.type = .missEvidence
    · rw [if_pos ht] at h1
      obtain ⟨amt, d2, h3, h1⟩ := bind_ok.mp h1
      obtain ⟨r, -, -, rfl⟩ := recordMissTx_ok h3
      have hlog : missLog d1 = t.missedProposer :: missLog db := by
        split at h1
        · obtain ⟨_, d3, h4, h1⟩ := bind_ok.mp h1
          obtain ⟨-, rfl⟩ := pure_ok.mp h1
          exact ((noMissRaised_burn _ _).run h4).log
        · obtain ⟨-, rfl⟩ := pure_ok.mp h1
          rfl
      simp [missEvidenceIn, ht, hlog]
    · rw [if_neg ht] at h1
      obtain ⟨-, rfl⟩ := pure_ok.mp h1
      simp [missEvidenceIn, ht]

/-- Every miss the block records is that of a miss evidence whose nonce was consumed in it:
    the records are those after the transactions, with one miss for each of these. -/
structure MissesCaused (W : World) (db : DB) (b : Block) (chainID : List UInt8) (post : DB) : Prop where
  inLoop : NoMissRaised db (txLoop W (ctxOf db b chainID) b.txs db).2
  log : missLog post =
    ((missEvidenceIn (executedTxs W (ctxOf db b chainID) db b.txs)).map Tx.missedProposer).reverse ++ missLog db
  records : post.validators =
    (missEvidenceIn (executedTxs W (ctxOf db b chainID) db b.txs)).foldl missStep
      (txLoop W (ctxOf db b chainID) b.txs db).2.validators

theorem foldl_missStep_missEvidenceIn : ∀ (txs : List Tx) (records : Bucket Key Record),
    (missEvidenceIn txs).foldl missStep records = txs.foldl missStep records := by
  intro txs
  induction txs with
  | nil => exact fun _ => rfl
  | cons t txs ih =>
    intro records
    by_cases ht : t.type = .missEvidence
    · simpa [missEvidenceIn, ht] using ih _
    · simpa [missEvidenceIn, ht, missStep] using ih records

theorem BlockRun.missLog (run : BlockRun W order db b chainID post) :
    missLog post = ((missEvidenceIn b.txs).map Tx.missedProposer).reverse ++ missLog db := by
  have h1 := ((txLoop_steps noMissRaised_txOps W _ run.values fun a n _ => noMissRaised_burn a n).run run.ranTxs).log
  have h2 := ((steps_foldlM (fun g p _ => chargeGas_steps (fun a n _ => noMissRaised_burn a n) _ g p) _).run
    run.ranGas).log
  have h4 := ((steps_forM fun p _ => creditShare_steps
    (fun _ _ => changeBalance_steps fun _ _ => NoMissRaised.of_eq rfl rfl) W p).run run.ranMint).log
  have hp : Chain.missLog post = Chain.missLog run.afterMint := by
    unfold Chain.missLog
    rw [run.journal]
  rw [hp, h4, missLoop_log run.ranMiss, h2, h1]

/-- The proposers that a block's executed miss evidence names. -/
def causedMisses (W : World) (s : Applied) : List Key :=
  (missEvidenceIn (executedTxs W (ctxOf s.pre s.block s.chainID) s.pre s.block.txs)).map Tx.missedProposer

/-- One for each evidence of the block, if none of it is skipped. -/
theorem causedMisses_all_iff (W : World) (s : Applied) :
    causedMisses W s = (missEvidenceIn s.block.txs).map Tx.missedProposer ↔
      NoMissSkipped W (ctxOf s.pre s.block s.chainID) s.pre s.block.txs := by
  rw [← executedTxs_all_iff]
  constructor
  · intro h
    have hlen := congrArg List.length h
    rw [causedMisses, List.length_map, List.length_map] at hlen
    exact ((executedTxs_sublist W _ s.block.txs s.pre).filter _).eq_of_length hlen
  · exact congrArg (List.map Tx.missedProposer)

theorem block_misses_caused_iff {r : Result} (hok : applyBlockForChain W order db b chainID = (.ok r, post)) :
    MissesCaused W db b chainID post ↔ NoMissSkipped W (ctxOf db b chainID) db b.txs := by
  obtain ⟨run, -⟩ := applyBlockForChain_ok hok
  have hafter : (txLoop W (ctxOf db b chainID) b.txs db).2 = run.afterTxs := congrArg Prod.snd run.ranTxs
  constructor
  · intro h
    have hlog := List.append_cancel_right (h.log.symm.trans run.missLog)
    exact (causedMisses_all_iff W ⟨db, b, chainID, post⟩).mp (List.reverse_inj.mp hlog)
  · intro h
    have hall := (executedTxs_all_iff W (ctxOf db b chainID) b.txs db).mpr h
    refine ⟨?_, ?_, ?_⟩
    · rw [hafter]
      exact (txLoop_steps noMissRaised_txOps W _ run.values fun a n _ => noMissRaised_burn a n).run run.ranTxs
    · rw [hall, run.missLog]
    · rw [hall, hafter, foldl_missStep_missEvidenceIn, run.records.1]

theorem acceptedRun_missLog {l : List Applied} (h : AcceptedRun W db l) : missLog (endOf db l) =
    (l.flatMap fun s => (missEvidenceIn s.block.txs).map Tx.missedProposer).reverse ++ missLog db := by
  induction h with
  | start => rfl
  | block happ _ ih =>
    obtain ⟨run, -⟩ := applyBlockForChain_ok happ
    rw [endOf, ih, run.missLog, List.flatMap_cons, List.reverse_append, List.append_assoc]

/-- In every run: the misses of a block are caused by consumed evidence exactly when none of its miss
    evidence is skipped, and so are all misses of the run exactly when no block of it skips any. -/
theorem misses_caused_iff {l : List Applied} (h : AcceptedRun W db l) :
    (∀ s ∈ l, MissesCaused W s.pre s.block s.chainID s.post ↔
      NoMissSkipped W (ctxOf s.pre s.block s.chainID) s.pre s.block.txs) ∧
    (missLog (endOf db l) = (l.flatMap (causedMisses W)).reverse ++ missLog db ↔
      ∀ s ∈ l, NoMissSkipped W (ctxOf s.pre s.block s.chainID) s.pre s.block.txs) := by
  constructor
  · induction h with
    | start => exact fun s hs => absurd hs List.not_mem_nil
    | block happ _ ih => exact List.forall_mem_cons.mpr ⟨block_misses_caused_iff happ, ih⟩
  · have hsub (s : Applied) : (causedMisses W s).Sublist ((missEvidenceIn s.block.txs).map Tx.missedProposer) :=
      ((executedTxs_sublist W _ s.block.txs s.pre).filter _).map _
    rw [acceptedRun_missLog h, List.append_cancel_right_eq, List.reverse_inj, eq_comm,
      flatMap_eq_iff fun s _ => hsub s]
    exact forall₂_congr fun s _ => causedMisses_all_iff W s

/-- Two validators with a bond and some money each. -/
def twoValidators : Genesis :=
  let rich : Option Int := some (2000 * 10 ^ 18)
  let bond : Option Int := some minBondAmount
  ⟨[⟨"", some 1, "", bond⟩, ⟨"", some 2, "", bond⟩], [⟨"", some 1, "", rich⟩, ⟨"", some 2, "", rich⟩]⟩

def stakedDB : DB := (applyGenesis Prim.sample DB.new twoValidators).2

/-- Validator 1's evidence that validator 2, elected at skip index 0, missed height 1. -/
def accusing (nonce : UInt64) : Block :=
  let t := { Tx.plain .missEvidence 1 2 0 nonce with missedHeight := 1, missedProposer := 2 }
  Block.plain 1 [t.signed Prim.sample []]

def accused (nonce : UInt64) : Res Result × DB := applyBlockForChain World.sample .id stakedDB (accusing nonce) []

theorem accused_runs : (applyGenesis Prim.sample DB.new twoValidators).1 = .ok () ∧
    nextNonce stakedDB 1 = 1 ∧ (stakedDB.validators.get 2).map Record.missCount = some 0 ∧
    (accused 1).1.isOk = true ∧ (accused 7).1.isOk = true ∧ (accused 7).2.nonces = stakedDB.nonces ∧
    ((accused 7).2.validators.get 2).map Record.missCount = some 1 := by
  decide +kernel

def accusedOnce : Applied := ⟨stakedDB, accusing 1, [], (accused 1).2⟩

theorem accusedOnce_run : AcceptedRun World.sample stakedDB [accusedOnce] := by
  obtain ⟨-, -, -, haccepted, -⟩ := accused_runs
  obtain ⟨r, hok⟩ := Go.run_eq (p := accused 1) haccepted
  exact .block hok (.start _)

theorem misses_caused_iff_accused :
    MissesCaused World.sample accusedOnce.pre accusedOnce.block accusedOnce.chainID accusedOnce.post ∧
      missLog stakedDB = [] ∧ missLog (endOf stakedDB [accusedOnce]) = [2] := by
  obtain ⟨-, hnext, -⟩ := accused_runs
  have hnext : NoMissSkipped World.sample (ctxOf stakedDB (accusing 1) []) stakedDB (accusing 1).txs :=
    ⟨fun _ => hnext.symm, trivial⟩
  have hnone : NoMissSkipped World.sample (ctxOf accusedOnce.pre accusedOnce.block accusedOnce.chainID) accusedOnce.pre
      accusedOnce.block.txs := by
    dsimp only [accusedOnce]
    exact hnext
  have hlogs : missLog stakedDB = [] ∧ (missEvidenceIn accusedOnce.block.txs).map Tx.missedProposer = [2] := by
    decide +kernel
  obtain ⟨hblocks, hlog⟩ := misses_caused_iff accusedOnce_run
  have hmisses := hlog.mpr (List.forall_mem_singleton.mpr hnone)
  rw [List.flatMap_singleton, (causedMisses_all_iff World.sample accusedOnce).mpr hnone, hlogs.1, hlogs.2] at hmisses
  exact ⟨(hblocks _ (List.mem_singleton_self _)).mpr hnone, hlogs.1, hmisses⟩

/-- The evidence with nonce 7 where 1 is next: the block is accepted, the nonce is not
    consumed, and validator 2 has a miss. -/
theorem skippedEvidence_charges : (applyGenesis Prim.sample DB.new twoValidators).1 = .ok () ∧
    (accused 7).1.isOk = true ∧ nextNonce stakedDB 1 = 1 ∧ (accused 7).2.nonces = stakedDB.nonces ∧
    (stakedDB.validators.get 2).map Record.missCount = some 0 ∧
    ((accused 7).2.validators.get 2).map Record.missCount = some 1 := by
  obtain ⟨hgenesis, hnext, hnone, -, haccepted, hnonces, hmiss⟩ := accused_runs
  exact ⟨hgenesis, haccepted, hnext, hnonces, hnone, hmiss⟩

end Frg.Chain
