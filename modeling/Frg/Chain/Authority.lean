/-
  Frg.Chain.Authority — who can change what, over whole runs of accepted blocks.

  A transaction takes money from its sender, and from the accounts it reaches without their
  key: the sender's fee account (a claim), the contract it deploys or calls, the sender's
  escrow account (a release), the escrow account of the validator its evidence is against
  (`Draws`). It changes the record of its sender or of the accused (`Restakes`), the code of the
  contract it deploys (`Deploys`), the state of a contract it runs (`RunsCode`) and the nonce of
  its sender. Whatever a contract does, a block changes nothing else:

    - `BlockRun.spared`: what no transaction of the block names is as it was, and a balance
      nobody draws on has not fallen.
    - `changes_have_authors`: so every loss and every change over a run has a transaction of
      the run behind it, with a valid signature of its sender.
    - `spending_bounded`: an account that is no address of the protocol and has no code loses at
      most the values of its own executed transactions and the fees of its own transactions.
-/

import Frg.Chain.Escrow
import Frg.Chain.Slashing
import Frg.Lib.Spend

namespace Frg.Chain

open Frg.Lib Frg.Core Frg.Wire Frg.Contract Act

/-- The addresses a transaction takes money from that are nobody's key. -/
inductive Reaches (W : World) (t : Tx) : Key → Prop
  | fees : t.type = .claimRewards → Reaches W t (feeAccount W.toPrim t.senderPubKey)
  | deployed : t.type = .contractDeploy → Reaches W t (contractAddr W.toEnv t.senderPubKey t.nonce)
  | released : t.type = .finalizeUnbond → Reaches W t (escrowAccount W.toPrim t.senderPubKey)
  | slashed {o : Offence} : stakeAct t = some (.slashed o) → Reaches W t (escrowAccount W.toPrim o.validator)
  | missed : t.type = .missEvidence → Reaches W t (escrowAccount W.toPrim t.missedProposer)

/-- The accounts a transaction takes money from. -/
inductive Draws (W : World) (t : Tx) : Key → Prop
  | own : Draws W t t.senderPubKey
  | called : t.type = .contractCall → Draws W t t.receiverPubKey
  | reached {a : Key} : Reaches W t a → Draws W t a

/-- The validators whose record a transaction changes. -/
inductive Restakes (t : Tx) : Key → Prop
  | own : t.type = .bond ∨ t.type = .unbond ∨ t.type = .finalizeUnbond → Restakes t t.senderPubKey
  | slashed {o : Offence} : stakeAct t = some (.slashed o) → Restakes t o.validator
  | missed : t.type = .missEvidence → Restakes t t.missedProposer

def Deploys (W : World) (t : Tx) (a : Key) : Prop :=
  t.type = .contractDeploy ∧ a = contractAddr W.toEnv t.senderPubKey t.nonce

/-- The contract a transaction runs. -/
def RunsCode (W : World) (t : Tx) (a : Key) : Prop := Deploys W t a ∨ t.type = .contractCall ∧ a = t.receiverPubKey

/-- What the transactions `txs` leave of the account `a` when they do not name it. -/
structure Spared (W : World) (txs : List Tx) (a : Key) (db db' : DB) : Prop where
  balance : (∀ t ∈ txs, ¬ Draws W t a) → readBalance db a ≤ readBalance db' a
  record : (∀ t ∈ txs, ¬ Restakes t a) → db'.validators.get a = db.validators.get a
  code : (∀ t ∈ txs, ¬ Deploys W t a) → db'.contractBytecode.get a = db.contractBytecode.get a
  state : (∀ t ∈ txs, ¬ RunsCode W t a) → db'.contractState.get a = db.contractState.get a
  nonce : (∀ t ∈ txs, t.senderPubKey ≠ a) → db'.nonces.get a = db.nonces.get a

variable {W : World} {txs : List Tx} {a : Key}

instance : Std.Refl (Spared W txs a) :=
  ⟨fun _ => ⟨fun _ => le_rfl, fun _ => rfl, fun _ => rfl, fun _ => rfl, fun _ => rfl⟩⟩

instance : IsTrans DB (Spared W txs a) where
  trans _ _ _ h1 h2 :=
    { balance := fun h => (h1.balance h).trans (h2.balance h)
      record := fun h => (h2.record h).trans (h1.record h)
      code := fun h => (h2.code h).trans (h1.code h)
      state := fun h => (h2.state h).trans (h1.state h)
      nonce := fun h => (h2.nonce h).trans (h1.nonce h) }

theorem Spared.mono {more : List Tx} {db db' : DB} (hsub : ∀ t ∈ txs, t ∈ more) (h : Spared W txs a db db') :
    Spared W more a db db' where
  balance hno := h.balance fun t ht => hno t (hsub t ht)
  record hno := h.record fun t ht => hno t (hsub t ht)
  code hno := h.code fun t ht => hno t (hsub t ht)
  state hno := h.state fun t ht => hno t (hsub t ht)
  nonce hno := h.nonce fun t ht => hno t (hsub t ht)

/-! ## The operations -/

/-- Only the ledger has changed. -/
def LedgerOnly (db db' : DB) : Prop := ∃ balances journal, db' = { db with balances, journal }

theorem Spared.ofLedger {db db' : DB} (h : LedgerOnly db db')
    (hbal : (∀ t ∈ txs, ¬ Draws W t a) → readBalance db a ≤ readBalance db' a) : Spared W txs a db db' := by
  obtain ⟨balances, journal, rfl⟩ := h
  exact ⟨hbal, fun _ => rfl, fun _ => rfl, fun _ => rfl, fun _ => rfl⟩

theorem moveBalance_ledger (source target : Key) (amount : Int) (short : String) :
    Steps LedgerOnly (moveBalance source target amount short) := by
  intro db
  rcases moveBalance_cases source target amount short db with ⟨-, e, h⟩ | ⟨-, -, e, h⟩ | ⟨-, -, -, h⟩ <;> rw [h] <;>
    exact ⟨_, _, rfl⟩

theorem moveBalance_lowers (source target a : Key) {amount : Int} (h0 : 0 ≤ amount) (short : String) :
    Lowers (readBalance · a) (if source = a then amount else 0) (moveBalance source target amount short) := by
  intro db
  have hdebit (hf : Fits (readBalance db source - amount)) :
      readBalance db a ≤ readBalance (debitedDB db source target amount) a + if source = a then amount else 0 := by
    rw [readBalance_debitedDB db source target _ hf]
    by_cases hs : source = a
    · rw [if_pos hs, if_pos hs.symm, hs]
      omega
    · rw [if_neg hs, if_neg (Ne.symm hs)]
      omega
  have hcost : 0 ≤ if source = a then amount else 0 := by
    split <;> omega
  rcases moveBalance_cases source target amount short db with ⟨-, e, h⟩ | ⟨hf, -, e, h⟩ | ⟨-, hf, hf2, h⟩ <;> rw [h]
  · dsimp only
    omega
  · exact hdebit hf
  · -- the credit is at least what was there, whether or not the debit was written over
    show readBalance db a ≤ readBalance ((debitedDB db source target amount).setBalance target _) a + _
    rw [readBalance_setBalance _ _ _ hf2]
    split
    · rename_i ht
      rw [ht]
      omega
    · exact hdebit hf

theorem moveBalance_holds {source a : Key} (hs : source ≠ a) (target : Key) {amount : Int} (h0 : 0 ≤ amount)
    (short : String) : Steps (Holds (readBalance · a)) (moveBalance source target amount short) := by
  intro db
  have h := moveBalance_lowers source target a h0 short db
  rw [if_neg hs, add_zero] at h
  exact h

/-- Somebody in the block draws on the account. -/
def Drawn (W : World) (txs : List Tx) (a : Key) : Prop := ∃ t ∈ txs, Draws W t a

theorem moveBalance_spared (source target : Key) (amount : Int) (short : String) (hs : Drawn W txs source)
    (h0 : 0 ≤ amount) : Steps (Spared W txs a) (moveBalance source target amount short) := by
  intro db
  refine .ofLedger (moveBalance_ledger source target amount short db) fun hno => ?_
  obtain ⟨t, ht, hdraws⟩ := hs
  have hne : source ≠ a := fun e => hno t ht (e ▸ hdraws)
  exact moveBalance_holds hne target h0 short db

theorem changeBalance_spared {b : Key} {f : Int → Int} {e : Int → Event} (h : Drawn W txs b ∨ ∀ x, x ≤ f x) :
    Steps (Spared W txs a) (changeBalance b f e) := by
  refine changeBalance_steps fun db hf => .ofLedger ⟨_, _, rfl⟩ fun hno => ?_
  show _ ≤ readBalance (db.setBalance b _) a
  rw [readBalance_setBalance _ _ _ hf]
  split
  · rename_i hab
    rcases h with ⟨t, ht, hdraws⟩ | hraise
    · exact absurd (hab ▸ hdraws) (hno t ht)
    · exact hab ▸ hraise _
  · exact le_rfl

theorem burnTx_spared {b : Key} (h : Drawn W txs b) (n : Int) : Steps (Spared W txs a) (burnTx b n) :=
  burnTx_steps (changeBalance_spared (.inl h))

theorem Spared.ofRecord {v : Key} {db : DB} {records : Bucket Key Record} {journal : List Event}
    (hv : ∃ t ∈ txs, Restakes t v) (hother : ∀ w, w ≠ v → records.get w = db.validators.get w) :
    Spared W txs a db { db with validators := records, journal } := by
  refine ⟨fun _ => le_rfl, fun hno => hother a ?_, fun _ => rfl, fun _ => rfl, fun _ => rfl⟩
  rintro rfl
  obtain ⟨t, ht, hrestakes⟩ := hv
  exact hno t ht hrestakes

theorem putRecord_spared {v : Key} (hv : ∃ t ∈ txs, Restakes t v) (r : Record) :
    Steps (Spared W txs a) (putRecord v r) :=
  fun _ => .ofRecord hv fun _ hw => Bucket.get_put_ne _ _ hw

theorem deleteRecord_spared {v : Key} (hv : ∃ t ∈ txs, Restakes t v) : Steps (Spared W txs a) (deleteRecord v) := by
  refine fun db => .ofRecord hv fun w hw => ?_
  rw [Bucket.get_delete, if_neg hw]

theorem unbondTx_spared {v : Key} (hv : ∃ t ∈ txs, Restakes t v) (h : UInt64) : Steps (Spared W txs a) (unbondTx v h) :=
  unbondTx_steps_at (fun _ r' db _ _ => putRecord_spared hv r' db) h

theorem recordMissTx_spared {v : Key} (hv : ∃ t ∈ txs, Restakes t v) : Steps (Spared W txs a) (recordMissTx v) :=
  recordMissTx_steps_at fun _ _ _ _ => .ofRecord hv fun _ hw => Bucket.get_put_ne _ _ hw

theorem storeBytecode_spared {b : Key} (hb : ∃ t ∈ txs, Deploys W t b) (c : List UInt8) :
    Steps (Spared W txs a) (storeBytecode b c) := by
  refine fun db => ⟨fun _ => le_rfl, fun _ => rfl, fun hno => ?_, fun _ => rfl, fun _ => rfl⟩
  obtain ⟨t, ht, hdeploys⟩ := hb
  exact Bucket.get_put_ne _ _ fun e => hno t ht (e ▸ hdeploys)

theorem saveState_spared {b : Key} (hb : ∃ t ∈ txs, RunsCode W t b) (s : StateStore) :
    Steps (Spared W txs a) (saveState b s) := by
  refine fun db => ⟨fun _ => le_rfl, fun _ => rfl, fun _ => rfl, fun hno => ?_, fun _ => rfl⟩
  obtain ⟨t, ht, hruns⟩ := hb
  have hne : a ≠ b := fun e => hno t ht (e ▸ hruns)
  show (if _ then db.contractState.put b _ else db.contractState).get a = _
  split
  · exact Bucket.get_put_ne _ _ hne
  · rfl

theorem advanceNonceTx_spared {b : Key} (hb : ∃ t ∈ txs, t.senderPubKey = b) (n : UInt64) :
    Steps (Spared W txs a) (advanceNonceTx b n) := by
  refine advanceNonceTx_steps_at fun db _ => ?_
  refine ⟨fun _ => le_rfl, fun _ => rfl, fun _ => rfl, fun _ => rfl, fun hno => ?_⟩
  obtain ⟨t, ht, rfl⟩ := hb
  exact Bucket.get_put_ne _ _ (hno t ht).symm

/-! ## Transactions and blocks -/

variable {ctx : BlockCtx} {t : Tx}

/-- The evidence `k` was read from. -/
def Accuses (t : Tx) (k : Key) : Prop := t.type = .equivEvidence → ∃ o, stakeAct t = some (.slashed o) ∧ o.validator = k

theorem loopCheck_accuses {k : Key} (h : loopCheck W ctx t = .ok k) : Accuses t k := by
  intro hty
  simp only [loopCheck, hty] at h
  exact evidence_validator hty h

theorem branch_spared {k : Key} (ht : t ∈ txs) (hv : ∀ v ∈ t.value, 0 ≤ v) (hk : Accuses t k) :
    Steps (Spared W txs a) (branch W ctx t k) := by
  have own : Drawn W txs t.senderPubKey := ⟨t, ht, .own⟩
  have reached {b : Key} (h : Reaches W t b) : Drawn W txs b := ⟨t, ht, .reached h⟩
  have move : ∀ source target amount short, Drawn W txs source → 0 ≤ amount →
      Steps (Spared W txs a) (moveBalance source target amount short) := moveBalance_spared
  unfold branch
  cases hty : t.type with
  | transfer =>
    dsimp only
    split
    · exact steps_stop _
    · rename_i v h
      exact steps_bind (move _ _ _ _ own (hv v h)) fun _ => steps_pure _
  | contractDeploy =>
    have deploys : Deploys W t (contractAddr W.toEnv t.senderPubKey t.nonce) := ⟨hty, rfl⟩
    exact steps_bind (contractGasLimit_steps _ _) fun _ => steps_bind
      (deploy_steps move _ own (reached (.deployed hty)) (storeBytecode_spared ⟨t, ht, deploys⟩)
        (saveState_spared ⟨t, ht, .inl deploys⟩) _ _) fun _ => steps_pure _
  | contractCall =>
    exact steps_bind (contractGasLimit_steps _ _) fun _ => orNotFound_steps <| steps_bind
      (call_steps move _ own ⟨t, ht, .called hty⟩ (saveState_spared ⟨t, ht, .inr ⟨hty, rfl⟩⟩) _ _) fun _ => steps_pure _
  | bond =>
    have restakes : Restakes t t.senderPubKey := .own (.inl hty)
    exact steps_bind (bondTx_steps move _ own (fun _ _ => putRecord_spared ⟨t, ht, restakes⟩ _) _ _) fun _ =>
      steps_pure _
  | unbond =>
    have restakes : Restakes t t.senderPubKey := .own (.inr (.inl hty))
    exact steps_bind (unbondTx_spared ⟨t, ht, restakes⟩ _) fun _ => steps_pure _
  | finalizeUnbond =>
    have restakes : Restakes t t.senderPubKey := .own (.inr (.inr hty))
    have hrecord : Steps (Spared W txs a) (deleteRecord t.senderPubKey) := deleteRecord_spared ⟨t, ht, restakes⟩
    exact steps_bind (finalizeTx_steps move _ (reached (.released hty)) hrecord _) fun _ => steps_pure _
  | claimRewards => exact steps_bind (claimTx_steps move _ (reached (.fees hty))) fun _ => steps_pure _
  | equivEvidence =>
    obtain ⟨o, ho, rfl⟩ := hk hty
    refine steps_bind (steps_bind (steps_read _) fun rec? => ?_) fun _ => steps_pure _
    split
    · exact steps_fail _
    · exact steps_bind (burnTx_spared (reached (.slashed ho)) _) fun _ =>
        steps_bind (deleteRecord_spared ⟨t, ht, .slashed ho⟩) fun _ => steps_pure _
  | missEvidence => exact steps_pure _
  | other _ _ => exact steps_pure _

theorem applyTx_spared (ht : t ∈ txs) (hv : ∀ v ∈ t.value, 0 ≤ v) : Steps (Spared W txs a) (applyTx W ctx t) := by
  by_cases hknown : Known t
  swap
  · intro db
    rw [applyTx_other hknown]
    exact Std.Refl.refl db
  intro db
  rw [applyTx_eq hknown]
  cases hc : loopCheck W ctx t with
  | ok k =>
    dsimp only
    split
    · rename_i hn
      have hadv : Spared W txs a db (db.advanced t.senderPubKey t.nonce) :=
        (advanceNonceTx_spared ⟨t, ht, rfl⟩ t.nonce).run (advanceNonceTx_ok hn)
      exact IsTrans.trans _ _ _ hadv (branch_spared ht hv (loopCheck_accuses hc) _)
    · exact Std.Refl.refl db
  | err e => exact Std.Refl.refl db
  | panic w => exact Std.Refl.refl db

theorem chargeGas_spared {p : Tx × TxOut} (hp : p.1 ∈ txs) (fee : Fee) (g : UInt64) :
    Steps (Spared W txs a) (chargeGas fee g p) := by
  unfold chargeGas
  split
  · exact steps_pure _
  · exact steps_bind (burnTx_spared ⟨p.1, hp, .own⟩ _) fun _ => steps_pure _

theorem applyMiss_spared (ht : t ∈ txs) (n : Nat) : Steps (Spared W txs a) (applyMiss W n t) := by
  unfold applyMiss
  split
  · rename_i hty
    refine steps_bind (recordMissTx_spared ⟨t, ht, .missed hty⟩) fun amt => ?_
    split
    · exact steps_bind (burnTx_spared ⟨t, ht, .reached (.missed hty)⟩ _) fun _ => steps_pure _
    · exact steps_pure _
  · exact steps_pure _

theorem creditShare_spared {p : Key × Int} (h0 : 0 ≤ p.2) : Steps (Spared W txs a) (creditShare W p) := by
  unfold creditShare
  split
  · exact steps_pure _
  · exact changeBalance_spared (.inr fun x => by omega)

variable {order : MapOrder} {pre post : DB} {b : Block} {chainID : List UInt8}

theorem BlockRun.spared (run : BlockRun W order pre b chainID post) (a : Key) : Spared W b.txs a pre post := by
  have htxs : Spared W b.txs a pre run.afterTxs :=
    (steps_mapM fun t ht => applyTx_spared ht (run.values t ht)).run run.ranTxs
  have hgas : Spared W b.txs a run.afterTxs run.afterGas :=
    (steps_foldlM (fun g p hp => chargeGas_spared (List.of_mem_zip hp).1 _ g) _).run run.ranGas
  have hmiss : Spared W b.txs a run.afterGas run.afterMiss :=
    (steps_foldlM (fun n t ht => applyMiss_spared ht n) _).run run.ranMiss
  have hmint : Spared W b.txs a run.afterMiss run.afterMint :=
    (steps_forM fun p hp => creditShare_spared (splitReward_nonneg _ _ _ (List.of_mem_zip hp).2)).run run.ranMint
  have hmeta : Spared W b.txs a run.afterMint post := by
    refine ⟨fun _ => ?_, fun _ => by rw [run.validators], fun _ => by rw [run.bytecode], fun _ => by rw [run.state],
      fun _ => by rw [run.nonces]⟩
    unfold readBalance
    rw [run.balances]
  exact IsTrans.trans _ _ _ htxs
    (IsTrans.trans _ _ _ hgas (IsTrans.trans _ _ _ hmiss (IsTrans.trans _ _ _ hmint hmeta)))

/-! ## Runs -/

/-- The transactions of a run. -/
def txsOf (l : List Applied) : List Tx := l.flatMap fun s => s.block.txs

theorem AcceptedRun.spared {db : DB} {l : List Applied} (h : AcceptedRun W db l) (a : Key) :
    Spared W (txsOf l) a db (endOf db l) := by
  induction h with
  | start db => exact Std.Refl.refl db
  | @block order pre post b chainID r rest happ _ ih =>
    obtain ⟨run, -⟩ := applyBlockForChain_ok happ
    have hfirst : Spared W (txsOf (⟨pre, b, chainID, post⟩ :: rest)) a pre post :=
      (run.spared a).mono fun t ht => List.mem_flatMap.mpr ⟨_, List.mem_cons_self, ht⟩
    have hrest : Spared W (txsOf (⟨pre, b, chainID, post⟩ :: rest)) a post (endOf post rest) :=
      ih.mono fun t ht => List.mem_append_right _ ht
    exact IsTrans.trans _ _ _ hfirst hrest

/-- A transaction of the run with a valid signature of its sender. -/
def SignedIn (W : World) (l : List Applied) (t : Tx) : Prop :=
  ∃ s ∈ l, t ∈ s.block.txs ∧ verifySigsForChain W.toPrim t s.chainID = .ok ()

theorem AcceptedRun.signed {db : DB} {l : List Applied} (h : AcceptedRun W db l) : ∀ t ∈ txsOf l, SignedIn W l t := by
  induction h with
  | start db => exact fun _ ht => nomatch ht
  | @block order pre post b chainID r rest happ _ ih =>
    intro t ht
    obtain ⟨run, -⟩ := applyBlockForChain_ok happ
    rcases List.mem_append.mp ht with ht | ht
    · exact ⟨_, List.mem_cons_self, ht, checkBlock_verified run.checked t ht⟩
    · obtain ⟨s, hs, hts, hsig⟩ := ih t ht
      exact ⟨s, List.mem_cons_of_mem _ hs, hts, hsig⟩

/-- In every run of accepted blocks, whatever the contracts do: a balance that is lower at the
    end has been drawn on by a signed transaction of the run, and a record, a contract's code or
    state and a nonce that differ have been changed by one. -/
theorem changes_have_authors {db : DB} {l : List Applied} (h : AcceptedRun W db l) (a : Key) :
    (readBalance (endOf db l) a < readBalance db a → ∃ t, SignedIn W l t ∧ Draws W t a) ∧
    ((endOf db l).validators.get a ≠ db.validators.get a → ∃ t, SignedIn W l t ∧ Restakes t a) ∧
    ((endOf db l).contractBytecode.get a ≠ db.contractBytecode.get a → ∃ t, SignedIn W l t ∧ Deploys W t a) ∧
    ((endOf db l).contractState.get a ≠ db.contractState.get a → ∃ t, SignedIn W l t ∧ RunsCode W t a) ∧
    ((endOf db l).nonces.get a ≠ db.nonces.get a → ∃ t, SignedIn W l t ∧ t.senderPubKey = a) := by
  have hs := h.spared a
  -- a change without an author is none
  have author {P : Tx → Prop} (hno : ¬ ∀ t ∈ txsOf l, ¬ P t) : ∃ t, SignedIn W l t ∧ P t := by
    obtain ⟨t, ht, hP⟩ := by simpa using hno
    exact ⟨t, h.signed t ht, hP⟩
  refine ⟨fun hlt => author fun hno => ?_, fun hne => author fun hno => hne (hs.record hno),
    fun hne => author fun hno => hne (hs.code hno), fun hne => author fun hno => hne (hs.state hno),
    fun hne => author fun hno => hne (hs.nonce hno)⟩
  exact absurd (hs.balance hno) (not_le.mpr hlt)

/-! ## How much

`a` is an account that the transaction does not reach without its key. -/

section

variable {k : Key}

theorem moveTx_lowers (source target a : Key) {amount : Int} (h0 : 0 ≤ amount) :
    Lowers (readBalance · a) (if source = a then amount else 0) (moveTx source target amount) := by
  refine lowers_after ?_ (steps_lift _) fun _ => moveBalance_lowers source target a h0 _
  split <;> omega

/-- What the transaction sends from `a`. -/
def valueFrom (a : Key) (t : Tx) : Int := if t.senderPubKey = a then t.value.getD 0 else 0

theorem valueFrom_nonneg (hv : ∀ v ∈ t.value, 0 ≤ v) (a : Key) : 0 ≤ valueFrom a t := by
  unfold valueFrom
  split
  · cases h : t.value with
    | none => exact le_rfl
    | some v => exact hv v h
  · exact le_rfl

theorem valueFrom_some {v : Int} (h : t.value = some v) (a : Key) :
    valueFrom a t = if t.senderPubKey = a then v else 0 := by
  unfold valueFrom
  rw [h]
  rfl

theorem fund_lowers (hv : ∀ v ∈ t.value, 0 ≤ v) (addr a : Key) (msg : String) :
    Lowers (readBalance · a) (valueFrom a t) (fund t addr msg) := by
  have h0 := valueFrom_nonneg hv a
  unfold fund
  split
  · exact (steps_pure _).lowers h0
  · rename_i v h
    split
    · rw [valueFrom_some h]
      exact steps_mapErr _ (moveTx_lowers t.senderPubKey addr a (hv v h))
    · exact (steps_pure _).lowers h0

theorem move_holds : ∀ source target amount short, source ≠ a → 0 ≤ amount →
    Steps (Holds (readBalance · a)) (moveBalance source target amount short) :=
  fun _ target _ short hs h0 => moveBalance_holds hs target h0 short

theorem deploy_lowers (E : Env) (hv : ∀ v ∈ t.value, 0 ≤ v) (hself : contractAddr E t.senderPubKey t.nonce ≠ a)
    (height gasLimit : UInt64) : Lowers (readBalance · a) (valueFrom a t) (deploy E t height gasLimit) := by
  have h0 := valueFrom_nonneg hv a
  refine lowers_after h0 (steps_check _ _) fun _ => lowers_after h0 (steps_read _) fun _ =>
    lowers_after h0 (steps_check _ _) fun _ => lowers_before (fund_lowers hv _ _ _) fun _ => ?_
  exact steps_bind (steps_read _) fun _ => steps_bind (newRuntime_steps move_holds E hself _) fun _ =>
    steps_bind (runtimeCall_steps move_holds E hself _ _) fun _ => steps_bind (fun _ => le_rfl) fun _ =>
    steps_bind (fun _ => le_rfl) fun _ => steps_pure _

theorem call_lowers (E : Env) (hv : ∀ v ∈ t.value, 0 ≤ v) (hself : t.receiverPubKey ≠ a) (height gasLimit : UInt64) :
    Lowers (readBalance · a) (valueFrom a t) (call E t height gasLimit) := by
  have h0 := valueFrom_nonneg hv a
  unfold call
  refine lowers_after h0 (steps_read _) fun code? => ?_
  split
  · exact (steps_fail _).lowers h0
  refine lowers_after h0 (steps_read _) fun _ => lowers_after h0 (newRuntime_steps move_holds E hself _) fun _ =>
    lowers_after h0 (steps_check _ _) fun _ => lowers_before (fund_lowers hv _ _ _) fun _ => ?_
  exact steps_bind (runtimeCall_steps move_holds E hself _ _) fun _ => steps_bind (fun _ => le_rfl) fun _ =>
    steps_pure _

theorem bondTx_lowers (P : Prim) (hv : ∀ v ∈ t.value, 0 ≤ v) (height : UInt64) :
    Lowers (readBalance · a) (valueFrom a t) (bondTx P t.senderPubKey t.value height) := by
  have h0 := valueFrom_nonneg hv a
  unfold bondTx
  split
  · exact (steps_fail _).lowers h0
  · rename_i v h
    refine lowers_after h0 (steps_check _ _) fun _ => lowers_after h0 (steps_read _) fun _ =>
      lowers_after h0 (steps_check _ _) fun _ => lowers_before ?_ fun _ _ => le_rfl
    rw [valueFrom_some h]
    exact moveTx_lowers _ _ a (hv v h)

theorem burnTx_holds {b : Key} (hb : b ≠ a) (n : Int) : Steps (Holds (readBalance · a)) (burnTx b n) := by
  refine burnTx_steps (changeBalance_steps fun db hf => ?_)
  show readBalance db a ≤ readBalance (db.setBalance b _) a
  rw [readBalance_setBalance _ _ _ hf, if_neg (Ne.symm hb)]

theorem branch_lowers (hv : ∀ v ∈ t.value, 0 ≤ v) (hno : ¬ Reaches W t a)
    (hcalled : t.type = .contractCall → t.receiverPubKey ≠ a) (hk : Accuses t k) :
    Lowers (readBalance · a) (valueFrom a t) (branch W ctx t k) := by
  have h0 := valueFrom_nonneg hv a
  have apart {b : Key} (h : Reaches W t b) : b ≠ a := fun e => hno (e ▸ h)
  unfold branch
  cases hty : t.type with
  | transfer =>
    dsimp only
    split
    · exact (steps_stop _).lowers h0
    · rename_i v h
      rw [valueFrom_some h]
      exact lowers_before (moveBalance_lowers _ _ a (hv v h) _) fun _ => steps_pure _
  | contractDeploy =>
    exact lowers_after h0 (contractGasLimit_steps _ _) fun _ =>
      lowers_before (deploy_lowers _ hv (apart (.deployed hty)) _ _) fun _ => steps_pure _
  | contractCall =>
    exact lowers_after h0 (contractGasLimit_steps _ _) fun _ =>
      orNotFound_steps (lowers_before (call_lowers _ hv (hcalled hty) _ _) fun _ => steps_pure _)
  | bond => exact lowers_before (bondTx_lowers _ hv _) fun _ => steps_pure _
  | unbond => exact (steps_bind (unbondTx_steps (fun _ _ _ _ _ _ => le_rfl) _ _) fun _ => steps_pure _).lowers h0
  | finalizeUnbond =>
    exact (steps_bind (finalizeTx_steps move_holds _ (apart (.released hty)) (fun _ => le_rfl) _) fun _ =>
      steps_pure _).lowers h0
  | claimRewards => exact (steps_bind (claimTx_steps move_holds _ (apart (.fees hty))) fun _ => steps_pure _).lowers h0
  | equivEvidence =>
    obtain ⟨o, ho, rfl⟩ := hk hty
    refine (steps_bind (steps_bind (steps_read _) fun rec? => ?_) fun _ => steps_pure _).lowers h0
    split
    · exact steps_fail _
    · exact steps_bind (burnTx_holds (apart (.slashed ho)) _) fun _ => steps_bind (fun _ => le_rfl) fun _ =>
        steps_pure _
  | missEvidence => exact (steps_pure _).lowers h0
  | other _ _ => exact (steps_pure _).lowers h0

end

/-- What some transactions send from `a`. -/
def valuesFrom (a : Key) (txs : List Tx) : Int := (txs.map (valueFrom a)).sum

/-- The outcomes of a block's transactions. -/
def outsOf (W : World) (s : Applied) : List TxOut :=
  match txLoop W (ctxOf s.pre s.block s.chainID) s.block.txs s.pre with
  | (.ok outs, _) => outs
  | _ => []

/-- What a block costs `a`: the values of its executed transactions and the fees of all of them. -/
def spentBy (W : World) (a : Key) (s : Applied) : Int :=
  valuesFrom a (executedIn W s.pre s.block s.chainID) +
    (currentBaseFee s.pre).val * (gasOf a (s.block.txs.zip (outsOf W s)) : Nat)

/-- Nobody calls an account without code: the block is refused. -/
theorem codeless_uncalled {db db' : DB} {k : Key} {out : TxOut} (hcode : db.contractBytecode.get a = none)
    (hty : t.type = .contractCall) (h : branch W ctx t k db = (.ok out, db')) : t.receiverPubKey ≠ a := by
  rintro rfl
  simp only [branch, hty] at h
  obtain ⟨gasLimit, d1, hlimit, hcall⟩ := bind_ok.mp h
  rw [← contractGasLimit_same hlimit] at hcall
  have hfound := orNotFound_found hcall
  rw [hcode] at hfound
  cases hfound

theorem missBurnt_unreached : ∀ {txs : List Tx} (_ : ∀ t ∈ txs, ¬ Reaches W t a) (records : Bucket Key Record),
    missBurnt W.toPrim a records txs = 0 := by
  intro txs
  induction txs with
  | nil => exact fun _ _ => rfl
  | cons t txs ih =>
    intro hno records
    have hfirst : missSlash W.toPrim records t a = 0 := by
      refine if_neg fun h => hno t List.mem_cons_self ?_
      exact h.2 ▸ .missed h.1
    rw [missBurnt, hfirst, ih fun t ht => hno t (List.mem_cons_of_mem _ ht)]
    rfl

theorem mintedTo_nonneg (P : Prim) (a : Key) {l : List (Key × Int)} (h0 : ∀ p ∈ l, 0 ≤ p.2) : 0 ≤ mintedTo P a l := by
  refine List.sum_nonneg fun x hx => ?_
  obtain ⟨p, hp, rfl⟩ := List.mem_map.mp hx
  split
  · exact h0 p hp
  · exact le_rfl

theorem BlockRun.spent (run : BlockRun W order pre b chainID post) (hno : ∀ t ∈ b.txs, ¬ Reaches W t a)
    (hcode : pre.contractBytecode.get a = none) :
    readBalance pre a ≤ readBalance post a + spentBy W a ⟨pre, b, chainID, post⟩ := by
  have hdeploys : ∀ t ∈ b.txs, ¬ Deploys W t a := fun t ht h => hno t ht (h.2 ▸ .deployed h.1)
  -- over the executed transactions: no code at `a`, and what `a` lost it has sent
  have hloop := txLoop_executed
    (I := fun done db => db.contractBytecode.get a = none ∧ readBalance pre a ≤ readBalance db a + valuesFrom a done) []
    (fun t ht done out db db' hn happ hi => ?step) run.ranTxs ⟨hcode, by simp [valuesFrom]⟩
  case step =>
    have hv := run.values t ht
    have hspared : Spared W b.txs a db db' := (applyTx_spared ht hv).run happ
    obtain ⟨k, hc, hrun⟩ := applyTx_executed (checkBlock_known run.checked t ht) hn happ
    have hnone : (db.advanced t.senderPubKey t.nonce).contractBytecode.get a = none := hi.1
    have hlow : readBalance (db.advanced t.senderPubKey t.nonce) a ≤ readBalance db' a + valueFrom a t :=
      (branch_lowers hv (hno t ht) (fun hty => codeless_uncalled hnone hty hrun) (loopCheck_accuses hc)).run hrun
    change readBalance db a ≤ _ at hlow
    refine ⟨(hspared.code hdeploys).trans hi.1, ?_⟩
    have hbound := hi.2
    simp only [valuesFrom, List.map_append, List.sum_append, List.map_singleton, List.sum_singleton] at hbound ⊢
    omega
  have hbal := run.balance a
  rw [missBurnt_unreached hno] at hbal
  have hmint : 0 ≤ mintedTo W.toPrim a (((bondedAmounts pre).map (·.1)).zip
      (splitReward (mintAmountOf pre) ((bondedAmounts pre).map (·.1)).length)) :=
    mintedTo_nonneg _ _ fun p hp => splitReward_nonneg _ _ _ (List.of_mem_zip hp).2
  have houts : outsOf W ⟨pre, b, chainID, post⟩ = run.outs := by
    unfold outsOf
    dsimp only
    rw [run.ranTxs]
  have hsent := hloop.2
  rw [List.nil_append] at hsent
  unfold spentBy executedIn
  rw [houts]
  dsimp only
  omega

/-- In every run of accepted blocks, whatever the contracts do, an account without code that no
    transaction reaches by an address of the protocol loses at most the values of its own
    executed transactions and the fees of its own transactions. -/
theorem spending_bounded {db : DB} {l : List Applied} (h : AcceptedRun W db l)
    (hno : ∀ t ∈ txsOf l, ¬ Reaches W t a) (hcode : db.contractBytecode.get a = none) :
    readBalance db a ≤ readBalance (endOf db l) a + (l.map (spentBy W a)).sum := by
  induction h with
  | start db => simp [endOf]
  | @block order pre post b chainID r rest happ _ ih =>
    obtain ⟨run, -⟩ := applyBlockForChain_ok happ
    have hfirst : ∀ t ∈ b.txs, ¬ Reaches W t a := fun t ht => hno t (List.mem_append_left _ ht)
    have hone := run.spent hfirst hcode
    have hstill : post.contractBytecode.get a = none :=
      ((run.spared a).code fun t ht hd => hfirst t ht (hd.2 ▸ .deployed hd.1)).trans hcode
    have hrest := ih (fun t ht => hno t (List.mem_append_right _ ht)) hstill
    rw [List.map_cons, List.sum_cons]
    show readBalance pre a ≤ readBalance (endOf post rest) a + _
    omega

/-! ## A payment -/

/-- The sample block in which account 1 pays 10 to account 2. -/
def onePayment : List Applied := [⟨genesisDB, paying 2, [], (paid 2).2⟩]

theorem onePayment_run : AcceptedRun World.sample genesisDB onePayment := by
  obtain ⟨r, h⟩ := paid_accepted
  exact .block h (.start _)

theorem changes_have_authors_payment : readBalance (endOf genesisDB onePayment) 1 < readBalance genesisDB 1 ∧
    ∃ t, SignedIn World.sample onePayment t ∧ Draws World.sample t 1 := by
  have hless : readBalance (endOf genesisDB onePayment) 1 < readBalance genesisDB 1 := by decide +kernel
  exact ⟨hless, (changes_have_authors onePayment_run 1).1 hless⟩

theorem onePayment_unreached (a : Key) : ∀ t ∈ txsOf onePayment, ¬ Reaches World.sample t a := by
  intro t ht h
  have htype : t.type = .transfer := by
    obtain rfl : t = (Tx.plain .transfer 1 2 10 1).signed Prim.sample [] := by
      simpa [txsOf, onePayment, paying, Block.plain] using ht
    unfold Tx.signed
    split <;> rfl
  cases h <;> simp_all [stakeAct]

theorem spending_bounded_payment : genesisDB.contractBytecode.get 1 = none ∧
    readBalance genesisDB 1 ≤ readBalance (endOf genesisDB onePayment) 1 +
      (onePayment.map (spentBy World.sample 1)).sum :=
  ⟨rfl, spending_bounded onePayment_run (onePayment_unreached 1) rfl⟩

end Frg.Chain
