/-
  Frg.Chain.Validate — the stateless validator (`validator/validator.go`) next to block
  execution.

  `Validate` recomputes the root from the transactions alone. Execution puts a leaf behind
  them for each contract a transaction touched, so the two roots are the same only for
  blocks that touch none. What is proved:

    - `applyTx_touched`: a transaction touches a contract exactly when it is executed and
      deploys one or calls a function that is there.
    - `validates_iff`: the validator accepts the root of an accepted block exactly when no
      transaction of the block does.
-/

import Frg.Chain.Nonces
import Frg.Chain.Replicas
import Frg.Contract.Errors
import Frg.RG.Commitment

namespace Frg.Chain

open Frg.Lib Frg.Core Frg.Wire Frg.Contract Frg.RG Act

/-- `tree.Block.BuildRoot` -/
def buildRoot (P : Prim) (txs : List Tx) : Res Hash := do
  let tree ← buildTree P txs []
  return tree.root

def validate (P : Prim) (txs : List Tx) (claimedRoot : Hash) : Res Hash := do
  txs.forM fun t => verifySigsForChain P t defaultChainID
  let computed ← buildRoot P txs
  Go.check (computed = claimedRoot) (.rg .rootMismatch s!"recomputed {computed.hex}, claimed {claimedRoot.hex}")
  return computed

theorem validate_ok {P : Prim} {txs : List Tx} {claimedRoot : Hash} : (∃ root, validate P txs claimedRoot = .ok root) ↔
    (∀ t ∈ txs, verifySigsForChain P t defaultChainID = .ok ()) ∧
      ∃ tree, buildTree P txs [] = .ok tree ∧ tree.root = claimedRoot := by
  constructor
  · rintro ⟨root, h⟩
    obtain ⟨_, h1, h⟩ := Go.bind_eq_ok.mp h
    obtain ⟨computed, h2, h⟩ := Go.bind_eq_ok.mp h
    obtain ⟨tree, htree, h2⟩ := Go.bind_eq_ok.mp h2
    obtain rfl := Go.ok.inj h2
    obtain ⟨_, h3, -⟩ := Go.bind_eq_ok.mp h
    exact ⟨Go.forM_eq_ok.mp h1, tree, htree, Go.check_eq_ok.mp h3⟩
  · rintro ⟨h1, tree, h2, rfl⟩
    exact ⟨tree.root, Go.bind_eq_ok.mpr ⟨(), Go.forM_eq_ok.mpr h1, Go.bind_eq_ok.mpr ⟨tree.root,
      Go.bind_eq_ok.mpr ⟨tree, h2, rfl⟩, Go.bind_eq_ok.mpr ⟨(), Go.check_eq_ok.mpr rfl, rfl⟩⟩⟩⟩

/-! ## Touched contracts -/

variable {W : World} {ctx : BlockCtx} {db post : DB} {b : Block} {order : MapOrder}

/-- There is a function for the call to find, with the gas its sender can pay. -/
def Finds (W : World) (ctx : BlockCtx) (t : Tx) (db : DB) : Prop :=
  ∃ gasLimit, contractGasLimit t.senderPubKey ctx.baseFee db = (.ok gasLimit, db) ∧
    Exports W.toEnv t ctx.height gasLimit db

/-- The transaction runs no contract in this state: it is skipped for its nonce, or is
    neither a deployment nor a call of a function that is there. -/
def Idle (W : World) (ctx : BlockCtx) (t : Tx) (db : DB) : Prop :=
  t.nonce = nextNonce db t.senderPubKey → t.type ≠ .contractDeploy ∧
    (t.type = .contractCall → ¬ Finds W ctx t (db.advanced t.senderPubKey t.nonce))

/-- No transaction of the loop runs a contract. -/
def RunsNoContract (W : World) (ctx : BlockCtx) : DB → List Tx → Prop
  | _, [] => True
  | db, t :: txs => Idle W ctx t db ∧ RunsNoContract W ctx (applyTx W ctx t db).2 txs

theorem call_touched {t : Tx} {g : UInt64} {db' : DB} {o : TxOut}
    (hg : contractGasLimit t.senderPubKey ctx.baseFee db = (.ok g, db))
    (h : (orNotFound do
      let (_, fuelUsed) ← call W.toEnv t ctx.height g
      return { touched := some t.receiverPubKey, fuel := some fuelUsed }) db = (.ok o, db')) :
    o.touched = none ↔ ¬ Finds W ctx t db := by
  have hfinds : Finds W ctx t db ↔ Exports W.toEnv t ctx.height g db := by
    constructor
    · rintro ⟨g', hg', hex⟩
      obtain rfl := Go.ok.inj (Prod.mk.inj (hg.symm.trans hg')).1
      exact hex
    · exact fun hex => ⟨g, hg, hex⟩
  rw [hfinds]
  rcases orNotFound_ok h with h | ⟨e, herr, he, rfl⟩
  · obtain ⟨⟨_, fuel⟩, d1, hcall, h⟩ := bind_ok.mp h
    obtain ⟨rfl, -⟩ := pure_ok.mp h
    exact iff_of_false (by simp) (not_not.mpr (call_exports hcall))
  · exact iff_of_true rfl (call_notFound (bind_pure_err herr) he)

theorem branch_touched {t : Tx} {k : Key} {db' : DB} {o : TxOut} (h : branch W ctx t k db = (.ok o, db')) :
    o.touched = none ↔ t.type ≠ .contractDeploy ∧ (t.type = .contractCall → ¬ Finds W ctx t db) := by
  have hunit : ∀ {x : M Unit}, (x >>= fun _ => pure {}) db = (.ok o, db') → o.touched = none := by
    intro x h
    obtain ⟨_, d1, -, h⟩ := bind_ok.mp h
    obtain ⟨rfl, -⟩ := pure_ok.mp h
    rfl
  unfold branch at h
  cases hty : t.type with
  | contractDeploy =>
    simp only [hty] at h
    obtain ⟨g, d1, -, h⟩ := bind_ok.mp h
    obtain ⟨⟨_, fuel⟩, d2, -, h⟩ := bind_ok.mp h
    obtain ⟨rfl, -⟩ := pure_ok.mp h
    simp
  | contractCall =>
    simp only [hty] at h
    obtain ⟨g, d1, hg, h⟩ := bind_ok.mp h
    obtain rfl := contractGasLimit_same hg
    simp [call_touched hg h]
  | transfer =>
    simp only [hty] at h
    cases hv : t.value with
    | none => rw [hv] at h; cases h
    | some v => rw [hv] at h; simp [hunit h]
  | bond | unbond | finalizeUnbond | claimRewards =>
    simp only [hty] at h
    simp [hunit h]
  | equivEvidence =>
    simp only [hty] at h
    obtain ⟨slashed, d1, -, h⟩ := bind_ok.mp h
    obtain ⟨rfl, -⟩ := pure_ok.mp h
    simp
  | missEvidence | other =>
    simp only [hty] at h
    obtain ⟨rfl, -⟩ := pure_ok.mp h
    simp

theorem applyTx_touched {t : Tx} {db' : DB} {o : TxOut} (ht : Known t) (h : applyTx W ctx t db = (.ok o, db')) :
    o.touched = none ↔ Idle W ctx t db := by
  by_cases hn : t.nonce = nextNonce db t.senderPubKey
  · obtain ⟨k, -, h⟩ := applyTx_executed ht hn h
    rw [branch_touched h]
    exact ⟨fun hb _ => hb, fun hi => hi hn⟩
  · obtain ⟨rfl, -⟩ := applyTx_skip hn h
    exact iff_of_true rfl fun e => absurd e hn

theorem txLoop_touched : ∀ {txs : List Tx} {db db' : DB} {outs : List TxOut}, (∀ t ∈ txs, Known t) →
    txLoop W ctx txs db = (.ok outs, db') → (touchedOf outs = [] ↔ RunsNoContract W ctx db txs) := by
  intro txs
  induction txs with
  | nil =>
    intro db db' outs _ h
    obtain ⟨rfl, -⟩ := mapM_nil_ok.mp h
    exact iff_of_true rfl trivial
  | cons t txs ih =>
    intro db db' outs hk h
    obtain ⟨o, d1, outs', h1, h2, rfl⟩ := mapM_cons_ok.mp h
    have hnil : ∀ outs, touchedOf outs = [] ↔ ∀ o ∈ outs, o.touched = none := fun outs => by
      simp [touchedOf, List.dedup_eq_nil]
    rw [hnil, List.forall_mem_cons, ← hnil, applyTx_touched (hk t List.mem_cons_self) h1,
      ih (fun u hu => hk u (List.mem_cons_of_mem _ hu)) h2, RunsNoContract, h1]

/-! ## The two roots -/

theorem contractNodes_leaf {outs : List TxOut} {nodes : List RGNode} (h : contractNodes W order outs db = .ok nodes) :
    ∀ n ∈ nodes, Leaf n := by
  intro n hn
  obtain ⟨a, -, ha⟩ := Go.mem_of_mapM h hn
  obtain ⟨volume, -, ha⟩ := Go.bind_eq_ok.mp ha
  obtain ⟨squares, -, ha⟩ := Go.bind_eq_ok.mp ha
  obtain rfl := Go.ok.inj ha
  exact ⟨⟨rfl, rfl⟩, rfl, Nat.one_pos⟩

/-- For an accepted block of the default chain the validator accepts the root exactly when
    no transaction of the block runs a contract. -/
theorem validates_iff {r : Result} (hok : applyBlockForChain W order db b defaultChainID = (.ok r, post))
    (hap : ∀ tree tree', TreeOf W db b defaultChainID order tree → buildTree W.toPrim b.txs [] = .ok tree' →
      Apart W.toPrim (hashedNodes W.toPrim tree) (hashedNodes W.toPrim tree')) :
    (∃ root, validate W.toPrim b.txs r.stateRoot = .ok root) ↔
      RunsNoContract W (ctxOf db b defaultChainID) db b.txs := by
  obtain ⟨run, hroot⟩ := applyBlockForChain_ok hok
  have hnodes : touchedOf run.outs = [] ↔ run.nodes = [] := by
    have hlen := (Go.mapM_eq_ok.mp run.gotNodes).length_eq
    rw [(order.perm _).length_eq] at hlen
    rw [← List.length_eq_zero_iff, ← List.length_eq_zero_iff (l := run.nodes), hlen]
  rw [validate_ok, hroot, ← txLoop_touched (checkBlock_known run.checked) run.ranTxs, hnodes]
  constructor
  · rintro ⟨-, tree, htree, heq⟩
    have hof : TreeOf W db b defaultChainID order run.tree :=
      ⟨run.outs, run.afterTxs, run.nodes, run.ranTxs, run.gotNodes, run.gotTree⟩
    have hnone : ∀ n ∈ ([] : List RGNode), Leaf n := fun n hn => absurd hn List.not_mem_nil
    have hleaf := contractNodes_leaf run.gotNodes
    -- equal roots have as many leaves, and the transactions have the same ones
    have hbytes := buildTree_leaves_inj hleaf hnone run.gotTree htree (hap _ _ hof htree) heq.symm
    obtain ⟨⟨leaves, hl, hhead⟩, -⟩ := buildTree_leaves hleaf run.gotTree
    obtain ⟨⟨leaves', hl', hhead'⟩, -⟩ := buildTree_leaves hnone htree
    obtain rfl := Go.ok.inj (hl.symm.trans hl')
    have hlen := congrArg List.length hbytes
    rw [hhead, hhead'] at hlen
    simpa using hlen
  · intro hnil
    have htree := run.gotTree
    rw [hnil] at htree
    exact ⟨checkBlock_verified run.checked, run.tree, htree, rfl⟩

/-- A transfer, and a deployment that is skipped for its nonce. -/
def idling : Block :=
  Block.plain 1
    [(Tx.plain .transfer 1 2 10 1).signed Prim.sample defaultChainID,
     { Tx.plain .contractDeploy 2 0 10 7 with wasmBytes := [1] }.signed Prim.sample defaultChainID]

theorem validates_iff_idling : ∃ r post root,
    applyBlockForChain World.sample .id deployersDB idling defaultChainID = (.ok r, post) ∧
      validate Prim.sample idling.txs r.stateRoot = .ok root := by
  obtain ⟨r, hok⟩ :=
    Go.run_eq (p := applyBlockForChain World.sample .id deployersDB idling defaultChainID) (by decide +kernel)
  have hrun : (do
      let tree' ← buildTree Prim.sample idling.txs []
      Go.check (∀ tree ∈ treesOf World.sample deployersDB idling defaultChainID, ∀ a ∈ hashedNodes Prim.sample tree,
        ∀ n ∈ hashedNodes Prim.sample tree', Prim.sample.hash a.bytes = Prim.sample.hash n.bytes → a.bytes = n.bytes)
        (.plain "collision") : Res Unit) = .ok () := by
    decide +kernel
  obtain ⟨tree', htree', hrun⟩ := Go.bind_eq_ok.mp hrun
  have hap := Go.check_eq_ok.mp hrun
  have hidle : RunsNoContract World.sample (ctxOf deployersDB idling defaultChainID) deployersDB idling.txs :=
    ⟨fun _ => ⟨by decide, fun e => absurd e (by decide)⟩, fun e => absurd e (by decide +kernel), trivial⟩
  obtain ⟨root, hroot⟩ := (validates_iff hok fun tree t hof ht => by
    obtain rfl := Go.ok.inj (htree'.symm.trans ht)
    exact hap tree hof.mem).mpr hidle
  exact ⟨r, _, root, hok, hroot⟩

/-- The validator refuses the root of an accepted block with two deployments. -/
theorem validate_refuses : (applyBlockForChain World.sample .id deployersDB deploying defaultChainID).1.isOk = true ∧
    (validate Prim.sample deploying.txs
      (applyBlockForChain World.sample .id deployersDB deploying defaultChainID).2.stateRoot).isOk = false := by
  decide +kernel

end Frg.Chain
