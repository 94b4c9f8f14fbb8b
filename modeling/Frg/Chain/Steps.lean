/-
  Frg.Chain.Steps — what one transaction can do to the database, said once: it is built
  from balance moves, nonce advances, record writes, bytecode and state writes, and (for
  equivocation evidence) a burn. A relation that holds across each of these and composes
  holds across a whole transaction (`applyTx_steps`), whatever the guest code does and
  whether it succeeds or fails, and with the operations of the later loops across a whole
  accepted block (`BlockRun.steps`). A relation may depend on whose balance is moved: the
  sources of a transaction's moves are its `Sources`. The genesis is taken apart the same
  way (`genesisTx_steps`).
-/

import Frg.Chain.Genesis
import Frg.Chain.Run
import Frg.Contract.Host

namespace Frg.Chain

open Frg.Lib Frg.Core Frg.Wire Frg.Contract Act

/-- `R` holds across each operation the branch of a transaction is built from, new bonds apart. -/
structure BranchOps (R : DB → DB → Prop) : Prop where
  move : ∀ source target amount short, 0 ≤ amount → Steps R (moveBalance source target amount short)
  unbond : ∀ v h, Steps R (unbondTx v h)
  deleteRecord : ∀ v, Steps R (deleteRecord v)
  storeBytecode : ∀ a c, Steps R (storeBytecode a c)
  saveState : ∀ a s, Steps R (saveState a s)

/-- Together with the nonce in front of the branch. -/
structure CoreOps (R : DB → DB → Prop) : Prop extends BranchOps R where
  nonce : ∀ a n, Steps R (advanceNonceTx a n)

structure TxOps (R : DB → DB → Prop) : Prop extends CoreOps R where
  bond : ∀ v n h, Steps R (putRecord v (.fresh n h))

variable {R : DB → DB → Prop} [Std.Refl R]

theorem advanceNonceTx_steps_at {a : Key} {n : UInt64} (advance : ∀ db, n = nextNonce db a → R db (db.advanced a n)) :
    Steps R (advanceNonceTx a n) := by
  intro db
  by_cases h : n = nextNonce db a
  · rw [advanceNonceTx_ok h]
    exact advance db h
  · obtain ⟨msg, h⟩ := advanceNonceTx_skip h
    rw [h]
    exact Std.Refl.refl db

theorem advanceNonceTx_steps (advance : ∀ a n db, n = nextNonce db a → R db (db.advanced a n)) (a : Key) (n : UInt64) :
    Steps R (advanceNonceTx a n) :=
  advanceNonceTx_steps_at (advance a n)

theorem unbondTx_steps_at {v : Key} (put : ∀ r r' (db : DB), db.validators.get v = some r → r'.missCount = r.missCount →
    R db { db with validators := db.validators.put v r' }) (height : UInt64) : Steps R (unbondTx v height) := by
  intro db
  unfold unbondTx getRecord
  rw [bind_run]
  simp only [Act.read]
  cases hr : db.validators.get v with
  | none => exact Std.Refl.refl db
  | some r =>
    simp only [bind_run, Act.check, lift, Go.check]
    split_ifs
    · exact put r _ db hr rfl
    · exact Std.Refl.refl db

theorem unbondTx_steps (put : ∀ v r r' (db : DB), db.validators.get v = some r → r'.missCount = r.missCount →
    R db { db with validators := db.validators.put v r' }) (v : Key) (height : UInt64) : Steps R (unbondTx v height) :=
  unbondTx_steps_at (put v) height

theorem recordMissTx_steps_at {v : Key} (put : ∀ r r' (db : DB), db.validators.get v = some r →
    R db (({ db with validators := db.validators.put v r' } : DB).logged (.miss v))) : Steps R (recordMissTx v) := by
  intro db
  unfold recordMissTx getRecord
  rw [bind_run]
  simp only [Act.read]
  cases hr : db.validators.get v with
  | none => exact Std.Refl.refl db
  | some r => exact put r r.miss.1 db hr

theorem recordMissTx_steps (put : ∀ v r r' (db : DB), db.validators.get v = some r →
    R db (({ db with validators := db.validators.put v r' } : DB).logged (.miss v))) (v : Key) :
    Steps R (recordMissTx v) :=
  recordMissTx_steps_at (put v)

variable [IsTrans DB R]

/-! ## Moves

`S` holds of the accounts that money is taken from. -/

section

variable {S : Key → Prop}
  (move : ∀ source target amount short, S source → 0 ≤ amount → Steps R (moveBalance source target amount short))

include move

omit [IsTrans DB R] in
theorem moveTx_steps {source : Key} (hs : S source) (target : Key) (amount : Int) :
    Steps R (moveTx source target amount) := by
  intro db
  unfold moveTx
  rw [bind_run]
  unfold lift
  rcases validateUint256_cases amount "move amount" with ⟨hf, h⟩ | ⟨-, e, h⟩ <;> rw [h]
  · exact move source target amount _ hs hf.1 db
  · exact Std.Refl.refl db

/-! ## Contracts -/

/-- `frg.transfer` moves from the contract's own account; the other host functions read at most. -/
theorem steps_hostClosed {cfg : RuntimeConfig} (hs : S cfg.selfAddr) : HostClosed cfg (fun x => Steps R x) where
  pure := steps_pure
  bind := steps_bind
  stop := steps_stop
  read := steps_read
  readMem _ _ _ := steps_lift _
  move target amount := steps_succeeded (moveTx_steps move hs target amount)

theorem newRuntime_steps (E : Env) {cfg : RuntimeConfig} (hs : S cfg.selfAddr) (state : StateStore) :
    Steps R (newRuntime E cfg state) := by
  unfold newRuntime
  split
  · exact steps_fail _
  refine steps_bind (steps_lift _) fun _ => steps_bind ((steps_hostClosed move hs).guest _ _ _) fun o => ?_
  split
  · exact steps_fail _
  · exact steps_pure _

theorem runtimeCall_steps (E : Env) {cfg : RuntimeConfig} (hs : S cfg.selfAddr) (rt : Runtime E) (name : List UInt8) :
    Steps R (rt.call E cfg name) := by
  unfold Runtime.call
  split
  · exact steps_fail _
  refine steps_bind ((steps_hostClosed move hs).guest _ _ _) fun o => ?_
  split
  · exact steps_fail _
  · exact steps_fail _
  · split
    · exact steps_fail _
    · exact steps_pure _

omit [IsTrans DB R] in
theorem fund_steps {t : Tx} (hs : S t.senderPubKey) (addr : Key) (msg : String) : Steps R (fund t addr msg) := by
  unfold fund
  split
  · exact steps_pure _
  · split
    · exact steps_mapErr _ (moveTx_steps move hs _ _)
    · exact steps_pure _

theorem deploy_steps (E : Env) {t : Tx} (hs : S t.senderPubKey) (hself : S (contractAddr E t.senderPubKey t.nonce))
    (store : ∀ c, Steps R (storeBytecode (contractAddr E t.senderPubKey t.nonce) c))
    (save : ∀ s, Steps R (saveState (contractAddr E t.senderPubKey t.nonce) s)) (height gasLimit : UInt64) :
    Steps R (deploy E t height gasLimit) :=
  steps_bind (steps_check _ _) fun _ => steps_bind (steps_read _) fun _ => steps_bind (steps_check _ _) fun _ =>
  steps_bind (fund_steps move hs _ _) fun _ => steps_bind (steps_read _) fun _ =>
  steps_bind (newRuntime_steps move E hself _) fun _ => steps_bind (runtimeCall_steps move E hself _ _) fun _ =>
  steps_bind (store _) fun _ => steps_bind (save _) fun _ => steps_pure _

theorem call_steps (E : Env) {t : Tx} (hs : S t.senderPubKey) (hself : S t.receiverPubKey)
    (save : ∀ s, Steps R (saveState t.receiverPubKey s)) (height gasLimit : UInt64) :
    Steps R (call E t height gasLimit) := by
  unfold call
  refine steps_bind (steps_read _) fun code? => ?_
  split
  · exact steps_fail _
  exact steps_bind (steps_read _) fun _ => steps_bind (newRuntime_steps move E hself _) fun _ =>
    steps_bind (steps_check _ _) fun _ => steps_bind (fund_steps move hs _ _) fun _ =>
    steps_bind (runtimeCall_steps move E hself _ _) fun _ => steps_bind (save _) fun _ => steps_pure _

/-! ## Staking -/

variable (P : Prim)

theorem bondTx_steps {v : Key} (hs : S v) (bond : ∀ n h, Steps R (putRecord v (.fresh n h))) (amount : Option Int)
    (height : UInt64) : Steps R (bondTx P v amount height) := by
  unfold bondTx
  split
  · exact steps_fail _
  · exact steps_bind (steps_check _ _) fun _ => steps_bind (steps_read _) fun _ => steps_bind (steps_check _ _) fun _ =>
      steps_bind (moveTx_steps move hs _ _) fun _ => bond _ _

theorem finalizeTx_steps {v : Key} (hs : S (escrowAccount P v)) (delete : Steps R (deleteRecord v)) (height : UInt64) :
    Steps R (finalizeTx P v height) := by
  unfold finalizeTx
  refine steps_bind (steps_read _) fun rec? => ?_
  split
  · exact steps_pure _
  · split
    · exact steps_pure _
    · exact steps_bind (moveTx_steps move hs _ _) fun _ => delete

theorem claimTx_steps {v : Key} (hs : S (feeAccount P v)) : Steps R (claimTx P v) := by
  unfold claimTx
  refine steps_bind (steps_read _) fun bal => ?_
  split
  · exact steps_pure _
  · exact moveTx_steps move hs _ _

end

theorem slashTx_steps (P : Prim) {v : Key} (burn : ∀ a n, 0 ≤ n → Steps R (burnTx a n))
    (delete : Steps R (deleteRecord v)) : Steps R (slashTx P v) := by
  unfold slashTx
  refine steps_bind (steps_read _) fun rec? => ?_
  split
  · exact steps_fail _
  · exact steps_bind (burn _ _ (Int.natCast_nonneg _)) fun _ => steps_bind delete fun _ => steps_pure _

/-! ## One round of the transaction loop -/

omit [Std.Refl R] [IsTrans DB R] in
theorem orNotFound_steps {x : M TxOut} (hx : Steps R x) : Steps R (orNotFound x) := by
  intro db
  have h1 := hx db
  unfold orNotFound
  generalize x db = r at h1 ⊢
  rcases r with ⟨_ | e | w, db'⟩
  · exact h1
  · dsimp only
    split <;> exact h1
  · exact h1

theorem contractGasLimit_steps (sender : Key) (fee : Fee) : Steps R (contractGasLimit sender fee) := by
  unfold contractGasLimit
  split
  · exact steps_pure _
  · exact steps_bind (steps_read _) fun _ => steps_bind (steps_check _ _) fun _ => steps_pure _

theorem contractGasLimit_same {sender : Key} {fee : Fee} {gasLimit : UInt64} {db db' : DB}
    (h : contractGasLimit sender fee db = (.ok gasLimit, db')) : db = db' :=
  (contractGasLimit_steps sender fee).run h

/-- The types that leave the validator records alone. -/
def Recordless (t : Tx) : Prop :=
  t.type ≠ .bond ∧ t.type ≠ .unbond ∧ t.type ≠ .finalizeUnbond ∧ t.type ≠ .equivEvidence

/-- What the branches of these types take money from. -/
structure Sources (W : World) (t : Tx) (S : Key → Prop) : Prop where
  sender : S t.senderPubKey
  fees : S (feeAccount W.toPrim t.senderPubKey)
  deployed : S (contractAddr W.toEnv t.senderPubKey t.nonce)
  called : t.type = .contractCall → S t.receiverPubKey

theorem branch_recordless_steps {W : World} {ctx : BlockCtx} {t : Tx} {k : Key} {S : Key → Prop}
    (move : ∀ source target amount short, S source → 0 ≤ amount → Steps R (moveBalance source target amount short))
    (store : ∀ c, Steps R (storeBytecode (contractAddr W.toEnv t.senderPubKey t.nonce) c))
    (save : ∀ a s, Steps R (saveState a s)) (hS : Sources W t S) (hv : ∀ v ∈ t.value, 0 ≤ v) (ht : Recordless t) :
    Steps R (branch W ctx t k) := by
  unfold branch
  split
  · split
    · exact steps_stop _
    · rename_i v h
      exact steps_bind (move _ _ _ _ hS.sender (hv v h)) fun _ => steps_pure _
  · exact steps_bind (contractGasLimit_steps _ _) fun _ =>
      steps_bind (deploy_steps move _ hS.sender hS.deployed store (save _) _ _) fun _ => steps_pure _
  · rename_i hty
    exact steps_bind (contractGasLimit_steps _ _) fun _ =>
      orNotFound_steps (steps_bind (call_steps move _ hS.sender (hS.called hty) (save _) _ _) fun _ => steps_pure _)
  · exact absurd ‹_› ht.1
  · exact absurd ‹_› ht.2.1
  · exact absurd ‹_› ht.2.2.1
  · exact steps_bind (claimTx_steps move _ hS.fees) fun _ => steps_pure _
  · exact absurd ‹_› ht.2.2.2
  · exact steps_pure _
  · exact steps_pure _

theorem branch_steps (ops : BranchOps R) (W : World) (ctx : BlockCtx) {t : Tx} (k : Key) (hv : ∀ v ∈ t.value, 0 ≤ v)
    (bond : t.type = .bond → ∀ n h, Steps R (putRecord t.senderPubKey (.fresh n h)))
    (burn : t.type = .equivEvidence → ∀ a n, 0 ≤ n → Steps R (burnTx a n)) : Steps R (branch W ctx t k) := by
  have move : ∀ source target amount short, True → 0 ≤ amount → Steps R (moveBalance source target amount short) :=
    fun source target amount short _ => ops.move source target amount short
  by_cases ht : Recordless t
  · exact branch_recordless_steps move (ops.storeBytecode _) ops.saveState ⟨trivial, trivial, trivial, fun _ => trivial⟩
      hv ht
  · unfold branch
    cases hty : t.type with
    | bond => exact steps_bind (bondTx_steps move _ trivial (bond hty) _ _) fun _ => steps_pure _
    | unbond => exact steps_bind (ops.unbond _ _) fun _ => steps_pure _
    | finalizeUnbond =>
      exact steps_bind (finalizeTx_steps move _ trivial (ops.deleteRecord _) _) fun _ => steps_pure _
    | equivEvidence => exact steps_bind (slashTx_steps _ (burn hty) (ops.deleteRecord _)) fun _ => steps_pure _
    | _ => exact absurd (by simp [Recordless, hty]) ht

theorem applyTx_steps (ops : CoreOps R) (W : World) (ctx : BlockCtx) {t : Tx} (hv : ∀ v ∈ t.value, 0 ≤ v)
    (bond : t.type = .bond → ∀ n h, Steps R (putRecord t.senderPubKey (.fresh n h)))
    (burn : t.type = .equivEvidence → ∀ a n, 0 ≤ n → Steps R (burnTx a n)) : Steps R (applyTx W ctx t) := by
  by_cases hk : Known t
  swap
  · obtain ⟨b, hb, hty⟩ := by simpa [Known] using hk
    simp only [applyTx, hty]
    exact steps_pure _
  intro db
  rw [applyTx_eq hk]
  cases loopCheck W ctx t with
  | ok k =>
    dsimp only
    split_ifs with hn
    · have hadv := (ops.nonce t.senderPubKey t.nonce).run (advanceNonceTx_ok hn)
      exact IsTrans.trans _ _ _ hadv (branch_steps ops.toBranchOps W ctx k hv bond burn _)
    · exact Std.Refl.refl db
  | err e => exact Std.Refl.refl db
  | panic w => exact Std.Refl.refl db

theorem txLoop_steps (ops : TxOps R) (W : World) (ctx : BlockCtx) {txs : List Tx} (hv : ∀ t ∈ txs, ∀ v ∈ t.value, 0 ≤ v)
    (burn : ∀ a n, 0 ≤ n → Steps R (burnTx a n)) : Steps R (txLoop W ctx txs) :=
  steps_mapM fun t ht => applyTx_steps ops.toCoreOps W ctx (hv t ht) (fun _ => ops.bond _) fun _ => burn

/-! ## The later loops -/

theorem chargeGas_steps (burn : ∀ a n, 0 ≤ n → Steps R (burnTx a n)) (fee : Fee) (g : UInt64) (p : Tx × TxOut) :
    Steps R (chargeGas fee g p) := by
  unfold chargeGas
  split
  · exact steps_pure _
  · exact steps_bind (burn _ _ (by positivity)) fun _ => steps_pure _

theorem applyMiss_steps (burn : ∀ a n, 0 ≤ n → Steps R (burnTx a n)) (miss : ∀ v, Steps R (recordMissTx v))
    (W : World) (n : Nat) (t : Tx) : Steps R (applyMiss W n t) := by
  unfold applyMiss
  split
  · refine steps_bind (miss _) fun amt => ?_
    split
    · exact steps_bind (burn _ _ (by positivity)) fun _ => steps_pure _
    · exact steps_pure _
  · exact steps_pure _

omit [IsTrans DB R] in
theorem creditShare_steps (credit : ∀ a n, Steps R (creditTx a n)) (W : World) (p : Key × Int) :
    Steps R (creditShare W p) := by
  unfold creditShare
  split
  · exact steps_pure _
  · exact credit _ _

/-- `R` holds across each operation a block is built from. -/
structure BlockOps (R : DB → DB → Prop) : Prop extends TxOps R where
  burn : ∀ a n, 0 ≤ n → Steps R (burnTx a n)
  miss : ∀ v, Steps R (recordMissTx v)
  credit : ∀ a n, Steps R (creditTx a n)

theorem verified_value {P : Prim} {t : Tx} {chainID : List UInt8} {u : Unit}
    (h : verifySigsForChain P t chainID = .ok u) : ∃ v, t.value = some v ∧ Fits v := by
  obtain ⟨msg, h1, -⟩ := Go.bind_eq_ok.mp h
  obtain ⟨ser, h2, -⟩ := Go.bind_eq_ok.mp h1
  obtain ⟨_, -, h3⟩ := Go.bind_eq_ok.mp h2
  obtain ⟨n, h4, -⟩ := Go.bind_eq_ok.mp h3
  unfold uint256Of at h4
  cases hv : t.value with
  | none => rw [hv] at h4; cases h4
  | some v =>
    rw [hv] at h4
    obtain ⟨_, h5, -⟩ := Go.bind_eq_ok.mp h4
    have hf := Go.check_eq_ok.mp h5
    exact ⟨v, rfl, hf⟩

theorem checkBlock_verified {W : World} {db : DB} {b : Block} {chainID : List UInt8} {u : Unit}
    (h : checkBlock W db b chainID = .ok u) : ∀ t ∈ b.txs, verifySigsForChain W.toPrim t chainID = .ok () := by
  obtain ⟨_, -, h⟩ := Go.bind_eq_ok.mp h
  obtain ⟨_, -, h⟩ := Go.bind_eq_ok.mp h
  obtain ⟨_, h, -⟩ := Go.bind_eq_ok.mp h
  exact Go.forM_eq_ok.mp h

variable {W : World} {order : MapOrder} {pre post : DB} {b : Block} {chainID : List UInt8}

theorem checkBlock_values {u : Unit} (h : checkBlock W pre b chainID = .ok u) : ∀ t ∈ b.txs, ∀ v ∈ t.value, 0 ≤ v := by
  intro t ht v hv
  obtain ⟨v', e, hf⟩ := verified_value (checkBlock_verified h t ht)
  rw [e] at hv
  exact Option.some.inj hv ▸ hf.1

theorem BlockRun.values (run : BlockRun W order pre b chainID post) : ∀ t ∈ b.txs, ∀ v ∈ t.value, 0 ≤ v :=
  checkBlock_values run.checked

theorem BlockRun.laterSteps (burn : ∀ a n, 0 ≤ n → Steps R (burnTx a n)) (miss : ∀ v, Steps R (recordMissTx v))
    (credit : ∀ a n, Steps R (creditTx a n)) (run : BlockRun W order pre b chainID post) :
    R run.afterTxs run.afterMint := by
  have h1 := (steps_foldlM (fun g p _ => chargeGas_steps burn _ g p) _).run run.ranGas
  have h2 := (steps_foldlM (fun n t _ => applyMiss_steps burn miss W n t) _).run run.ranMiss
  have h3 := (steps_forM fun p _ => creditShare_steps credit W p).run run.ranMint
  exact IsTrans.trans _ _ _ h1 (IsTrans.trans _ _ _ h2 h3)

theorem BlockRun.steps (ops : BlockOps R) (run : BlockRun W order pre b chainID post) : R pre run.afterMint :=
  IsTrans.trans _ _ _ ((txLoop_steps ops.toTxOps W _ run.values ops.burn).run run.ranTxs)
    (run.laterSteps ops.burn ops.miss ops.credit)

/-! ## Genesis -/

theorem seeding_steps (seed : ∀ a n, Steps R (seedTx a n))
    (supply : ∀ n (db : DB), R db { db with totalSupply := some n })
    (l : List GenesisEntry) : Steps R (l.foldlM seedEntry .empty >>= fun seeded =>
      Act.mapErr (.context "set genesis total supply") (setTotalSupplyTx (seeded.sumBy id))) := by
  refine steps_bind (steps_foldlM (fun seen e _ => ?_) _) fun seeded => steps_mapErr _ ?_
  · exact steps_bind (steps_lift _) fun _ => steps_bind (steps_lift _) fun _ =>
      steps_bind (steps_mapErr _ (seed _ _)) fun _ => steps_pure _
  · exact steps_bind (steps_check _ _) fun _ => steps_write (supply _)

theorem bondEntry_steps
    (move : ∀ source target amount short, 0 ≤ amount → Steps R (moveBalance source target amount short))
    (bond : ∀ v n h, Steps R (putRecord v (.fresh n h))) (P : Prim) (e : GenesisEntry) : Steps R (bondEntry P e) :=
  steps_bind (steps_lift _) fun _ => steps_bind (steps_lift _) fun _ =>
    steps_mapErr _ (bondTx_steps (S := fun _ => True) (fun _ _ _ _ _ => move _ _ _ _) P trivial (bond _) _ _)

theorem genesisTx_ok {P : Prim} {g : Genesis} {u : Unit} (h : genesisTx P g pre = (.ok u, post)) :
    ∃ d1 d2, (g.balances.foldlM seedEntry .empty >>= fun seeded =>
        Act.mapErr (.context "set genesis total supply") (setTotalSupplyTx (seeded.sumBy id))) pre = (.ok (), d1) ∧
      g.validators.forM (bondEntry P) d1 = (.ok (), d2) ∧ post = { d2 with genesisApplied := true } := by
  obtain ⟨seeded, d, h1, h⟩ := bind_ok.mp h
  obtain ⟨_, d1, h2, h⟩ := bind_ok.mp h
  obtain ⟨_, d2, h3, h⟩ := bind_ok.mp h
  exact ⟨d1, d2, bind_ok.mpr ⟨seeded, d, h1, h2⟩, h3, (write_ok.mp h).symm⟩

theorem genesisTx_steps (seed : ∀ a n, Steps R (seedTx a n))
    (supply : ∀ n (db : DB), R db { db with totalSupply := some n })
    (move : ∀ source target amount short, 0 ≤ amount → Steps R (moveBalance source target amount short))
    (bond : ∀ v n h, Steps R (putRecord v (.fresh n h))) (flag : ∀ db : DB, R db { db with genesisApplied := true })
    {P : Prim} {g : Genesis} {u : Unit} (h : genesisTx P g pre = (.ok u, post)) : R pre post := by
  obtain ⟨d1, d2, h1, h2, rfl⟩ := genesisTx_ok h
  have hseeded := (seeding_steps seed supply g.balances).run h1
  have hbonded := (steps_forM fun e _ => bondEntry_steps move bond P e).run h2
  exact IsTrans.trans _ _ _ hseeded (IsTrans.trans _ _ _ hbonded (flag d2))

end Frg.Chain
