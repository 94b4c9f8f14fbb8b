/-
  Frg.Chain.Contracts — the code store over whole runs from a genesis.

  `Deploy` takes the address from the sender and its nonce, refuses one that has code, and
  writes the code at the end, when the constructor has run; nothing else writes code. So the
  store is the list of the executed deployments, read as a map:

    - `code_history`: the code at an address is that of the one deployment executed for it, and
      stays what it is in every later state of the run.
    - `deploy_never_taken`: with fewer than 2^64 transactions of an account and no collision
      between addresses, a deployment with the sender's next nonce is never refused for an
      address that is taken.
-/

import Frg.Chain.Authority
import Frg.Chain.Calls

namespace Frg.Chain

open Frg.Lib Frg.Core Frg.Wire Frg.Contract Act

/-! ## What writes code -/

def SameCode (db db' : DB) : Prop := db'.contractBytecode = db.contractBytecode

instance : Std.Refl SameCode := ⟨fun _ => rfl⟩
instance : IsTrans DB SameCode := ⟨fun _ _ _ h1 h2 => h2.trans h1⟩

theorem moveBalance_sameCode : ∀ source target amount short, True → 0 ≤ amount →
    Steps SameCode (moveBalance source target amount short) := by
  intro source target amount short _ _
  exact moveBalance_steps (fun _ _ => rfl) fun _ _ => rfl

variable {W : World} {ctx : BlockCtx} {t : Tx} {db db' : DB}

/-- The address a transaction deploys to. -/
def addressOf (W : World) (t : Tx) : Key := contractAddr W.toEnv t.senderPubKey t.nonce

theorem deploy_code {height gasLimit : UInt64} {r : Hash × UInt64}
    (h : deploy W.toEnv t height gasLimit db = (.ok r, db')) :
    db.contractBytecode.get (addressOf W t) = none ∧
      db'.contractBytecode = db.contractBytecode.put (addressOf W t) t.wasmBytes := by
  obtain ⟨d₁, rt, d₂, rt', d₃, hnone, hfund, hrt, hcall, -, hcode, -⟩ := deploy_ok h
  -- the endowment and the constructor leave the code alone
  have h1 : SameCode db d₁ := (fund_steps moveBalance_sameCode trivial _ _).run hfund
  have h2 : SameCode d₁ d₂ := (newRuntime_steps moveBalance_sameCode _ trivial _).run hrt
  have h3 : SameCode d₂ d₃ := (runtimeCall_steps moveBalance_sameCode _ trivial _ _).run hcall
  refine ⟨hnone, ?_⟩
  rw [hcode, h3, h2, h1]
  rfl

theorem applyTx_code {out : TxOut} (hk : Known t) (hv : ∀ v ∈ t.value, 0 ≤ v)
    (hn : t.nonce = nextNonce db t.senderPubKey)
    (h : applyTx W ctx t db = (.ok out, db')) :
    (t.type = .contractDeploy ∧ db.contractBytecode.get (addressOf W t) = none ∧
      db'.contractBytecode = db.contractBytecode.put (addressOf W t) t.wasmBytes) ∨
    (t.type ≠ .contractDeploy ∧ ∀ a, db'.contractBytecode.get a = db.contractBytecode.get a) := by
  by_cases hty : t.type = .contractDeploy
  · obtain ⟨k, -, hrun⟩ := applyTx_executed hk hn h
    simp only [branch, hty] at hrun
    obtain ⟨gasLimit, d, hlimit, hrun⟩ := bind_ok.mp hrun
    have hsame : SameCode (db.advanced t.senderPubKey t.nonce) d := (contractGasLimit_steps _ _).run hlimit
    obtain ⟨r, d', hdeploy, hrun⟩ := bind_ok.mp hrun
    obtain ⟨-, rfl⟩ := pure_ok.mp hrun
    have hcode := deploy_code hdeploy
    rw [hsame] at hcode
    exact .inl ⟨hty, hcode⟩
  · refine .inr ⟨hty, fun a => ?_⟩
    have hspared : Spared W [t] a db db' := (applyTx_spared List.mem_cons_self hv).run h
    exact hspared.code fun u hu hd => hty (List.mem_singleton.mp hu ▸ hd.1)

/-! ## The history -/

/-- The deployments among some transactions. -/
def deploysOf (txs : List Tx) : List Tx := txs.filter fun t => t.type = .contractDeploy

theorem mem_deploysOf {txs : List Tx} {t : Tx} : t ∈ deploysOf txs ↔ t ∈ txs ∧ t.type = .contractDeploy := by
  simp [deploysOf]

/-- The code store is what the deployments among `txs` wrote, each to an address of its own. -/
structure CodeHistory (W : World) (txs : List Tx) (db : DB) : Prop where
  code : ∀ a c, db.contractBytecode.get a = some c ↔ ∃ t ∈ deploysOf txs, addressOf W t = a ∧ t.wasmBytes = c
  once : ((deploysOf txs).map (addressOf W)).Nodup

variable {txs : List Tx}

theorem CodeHistory.of_same (h : CodeHistory W txs db)
    (hsame : ∀ a, db'.contractBytecode.get a = db.contractBytecode.get a) : CodeHistory W txs db' :=
  ⟨fun a c => by rw [hsame]; exact h.code a c, h.once⟩

theorem CodeHistory.tx {out : TxOut} (hh : CodeHistory W txs db) (hk : Known t) (hv : ∀ v ∈ t.value, 0 ≤ v)
    (hn : t.nonce = nextNonce db t.senderPubKey) (h : applyTx W ctx t db = (.ok out, db')) :
    CodeHistory W (txs ++ [t]) db' := by
  rcases applyTx_code hk hv hn h with ⟨hty, hnone, hcode⟩ | ⟨hty, hsame⟩
  · have hlist : deploysOf (txs ++ [t]) = deploysOf txs ++ [t] := by simp [deploysOf, hty]
    -- no earlier deployment went to the address, or there would be code
    have hfresh : ∀ u ∈ deploysOf txs, addressOf W u ≠ addressOf W t := by
      intro u hu e
      have := (hh.code (addressOf W t) u.wasmBytes).mpr ⟨u, hu, e, rfl⟩
      rw [hnone] at this
      cases this
    refine ⟨fun a c => ?_, ?_⟩
    · rw [hcode, Bucket.get_put, hlist]
      by_cases ha : a = addressOf W t
      · rw [if_pos ha]
        constructor
        · intro e
          exact ⟨t, by simp, ha.symm, Option.some.inj e⟩
        · rintro ⟨u, hu, hua, rfl⟩
          rcases List.mem_append.mp hu with hu | hu
          · exact absurd (hua.trans ha) (hfresh u hu)
          · rw [List.mem_singleton.mp hu]
      · rw [if_neg ha, hh.code]
        constructor
        · rintro ⟨u, hu, hua, hc⟩
          exact ⟨u, List.mem_append_left _ hu, hua, hc⟩
        · rintro ⟨u, hu, hua, hc⟩
          rcases List.mem_append.mp hu with hu | hu
          · exact ⟨u, hu, hua, hc⟩
          · rw [List.mem_singleton.mp hu] at hua
            exact absurd hua.symm ha
    · rw [hlist, List.map_append, List.map_singleton]
      refine List.nodup_append.mpr ⟨hh.once, List.nodup_singleton _, fun a ha b hb e => ?_⟩
      obtain ⟨u, hu, rfl⟩ := List.mem_map.mp ha
      rw [List.mem_singleton.mp hb] at e
      exact hfresh u hu e
  · have hlist : deploysOf (txs ++ [t]) = deploysOf txs := by simp [deploysOf, hty]
    have hsamed := hh.of_same hsame
    exact ⟨by rw [hlist]; exact hsamed.code, by rw [hlist]; exact hsamed.once⟩

variable {order : MapOrder} {pre post : DB} {b : Block} {chainID : List UInt8}

theorem BlockRun.codeHistory (run : BlockRun W order pre b chainID post) (h : CodeHistory W txs pre) :
    CodeHistory W (txs ++ executedIn W pre b chainID) post := by
  have hloop := txLoop_executed (I := CodeHistory W) txs
    (fun t ht _ _ _ _ hn happ hi => hi.tx (checkBlock_known run.checked t ht) (run.values t ht) hn happ) run.ranTxs h
  have hlater : SameCode run.afterTxs run.afterMint := run.laterSteps
    (fun _ _ _ => burnTx_steps (changeBalance_steps fun _ _ => rfl)) (recordMissTx_steps fun _ _ _ _ _ => rfl)
    fun _ _ => changeBalance_steps fun _ _ => rfl
  exact hloop.of_same fun a => by rw [run.bytecode, hlater]

theorem genesis_codeHistory {P : Prim} {g : Genesis} (h : applyGenesis P DB.new g = (.ok (), db)) :
    CodeHistory W [] db := by
  have hsame : SameCode DB.new db := genesisTx_steps (fun _ _ => changeBalance_steps fun _ _ => rfl) (fun _ _ => rfl)
    (fun _ _ _ _ => moveBalance_sameCode _ _ _ _ trivial) (fun _ _ _ _ => rfl) (fun _ => rfl) (applyGenesis_new h)
  have hempty : db.contractBytecode = .empty := hsame
  exact ⟨fun a c => by rw [hempty]; simp [deploysOf, Bucket.get_empty], List.nodup_nil⟩

variable {G : DB → Prop} {C : DB → Block → List UInt8 → DB → Prop}

theorem Traced.codeHistory (h : Traced W G C (executedIn W) txs db) : CodeHistory W txs db := by
  refine h.keeps (fun ⟨g, hg, _⟩ => genesis_codeHistory hg) fun ih ⟨⟨order, happ⟩, _⟩ => ?_
  obtain ⟨run, -⟩ := applyBlockForChain_ok happ
  exact run.codeHistory ih

theorem AcceptedRun.codeHistory {l : List Applied} (h : AcceptedRun W db l) (hh : CodeHistory W txs db) :
    ∃ more, CodeHistory W (txs ++ more) (endOf db l) := by
  induction h generalizing txs with
  | start => exact ⟨[], by rwa [List.append_nil]⟩
  | block happ _ ih =>
    obtain ⟨run, -⟩ := applyBlockForChain_ok happ
    obtain ⟨more, hmore⟩ := ih (run.codeHistory hh)
    rw [List.append_assoc] at hmore
    exact ⟨_, hmore⟩

/-- In every state of every run from a genesis, the code at an address is that of the one
    executed deployment to it, and it is the code there in every later state. -/
theorem code_history (h : Traced W G C (executedIn W) txs db) {l : List Applied} (hl : AcceptedRun W db l) (a : Key) :
    (∀ c, db.contractBytecode.get a = some c ↔ ∃ t ∈ deploysOf txs, addressOf W t = a ∧ t.wasmBytes = c) ∧
    ((deploysOf txs).map (addressOf W)).Nodup ∧
    (∀ c, db.contractBytecode.get a = some c → (endOf db l).contractBytecode.get a = some c) := by
  have hh := h.codeHistory
  refine ⟨hh.code a, hh.once, fun c hc => ?_⟩
  obtain ⟨t, ht, ha, hw⟩ := (hh.code a c).mp hc
  obtain ⟨more, hlater⟩ := hl.codeHistory hh
  refine (hlater.code a c).mpr ⟨t, ?_, ha, hw⟩
  have hmem := mem_deploysOf.mp ht
  exact mem_deploysOf.mpr ⟨List.mem_append_left _ hmem.1, hmem.2⟩

/-! ## Fresh addresses -/

/-- What the address of a deployment is hashed from. -/
def deployInput (t : Tx) : List UInt8 := domainContractDeploy ++ t.senderPubKey.bytes ++ u64 t.nonce.toNat

theorem deployInput_inj {t u : Tx} (h : deployInput t = deployInput u) :
    t.senderPubKey = u.senderPubKey ∧ t.nonce = u.nonce := by
  unfold deployInput at h
  rw [List.append_assoc, List.append_assoc] at h
  obtain ⟨hkey, hnonce⟩ := List.append_inj (List.append_cancel_left h) (by simp)
  refine ⟨bytes_inj hkey, UInt64.toNat_inj.mp ?_⟩
  exact toBE_inj t.nonce.toNat_lt u.nonce.toNat_lt hnonce

theorem InOrder.next_fresh {a : Key} (ho : InOrder a txs db) (hlen : (sentBy a txs).length + 1 < 2 ^ 64) :
    ∀ u ∈ sentBy a txs, u.nonce ≠ nextNonce db a := by
  intro u hu e
  have hmem : u.nonce ∈ countedTo (sentBy a txs).length := ho.nonces ▸ List.mem_map_of_mem hu
  obtain ⟨i, hi, hnonce⟩ := List.mem_map.mp hmem
  have hi := List.mem_range.mp hi
  have hnext : nextNonce db a = .ofNat ((sentBy a txs).length + 1) := by
    rw [nextNonce, ho.stored, UInt64.ofNat_add]
    rfl
  have hnat := congrArg UInt64.toNat (hnonce.trans (e.trans hnext))
  rw [UInt64.toNat_ofNat', UInt64.toNat_ofNat', Nat.mod_eq_of_lt (by omega), Nat.mod_eq_of_lt hlen] at hnat
  omega

/-- In every state of every run from a genesis, the address of a transaction with the sender's
    next nonce has no code, if its input collides with that of no executed deployment. -/
theorem deploy_never_taken (h : Traced W G C (executedIn W) txs db) (hn : t.nonce = nextNonce db t.senderPubKey)
    (hlen : (sentBy t.senderPubKey txs).length + 1 < 2 ^ 64)
    (hcol : ∀ u ∈ deploysOf txs, NoCollision W.hash (deployInput u) (deployInput t)) :
    db.contractBytecode.get (addressOf W t) = none := by
  cases hcode : db.contractBytecode.get (addressOf W t) with
  | none => rfl
  | some c =>
    obtain ⟨u, hu, haddr, -⟩ := (h.codeHistory.code _ c).mp hcode
    obtain ⟨hsender, hnonce⟩ := deployInput_inj (hcol u hu haddr)
    -- the earlier deployment is the account's own, and its nonce has been counted
    have hsent : u ∈ sentBy t.senderPubKey txs := by simp [sentBy, (mem_deploysOf.mp hu).1, hsender]
    exact absurd (hnonce.trans hn) ((h.inOrder t.senderPubKey).next_fresh hlen u hsent)

/-! ## A deployment -/

/-- Account 1 of the sample chain deploys a contract. -/
def oneDeploy : Block :=
  Block.plain 1 [{ Tx.plain .contractDeploy 1 0 0 1 with wasmBytes := [1] }.signed Prim.sample []]

def onceDeployed : Res Result × DB := applyBlockForChain World.sample .id genesisDB oneDeploy []

theorem onceDeployed_runs : (applyGenesis Prim.sample DB.new twoAccounts).1 = .ok () ∧ onceDeployed.1.isOk = true ∧
    executedIn World.sample genesisDB oneDeploy [] = oneDeploy.txs ∧
    onceDeployed.2.contractBytecode.get (contractAddr World.sample.toEnv 1 1) = some [1] ∧
    nextNonce onceDeployed.2 1 = 2 ∧ sampleHash (deployInput (Tx.plain .contractDeploy 1 0 0 1)) ≠
      sampleHash (deployInput (Tx.plain .contractDeploy 1 0 0 2)) := by
  decide +kernel

theorem onceDeployed_traced : Traced World.sample (fun _ => True) (fun _ _ _ _ => True) (executedIn World.sample)
    (executedIn World.sample genesisDB oneDeploy []) onceDeployed.2 := by
  obtain ⟨hg, hok, -⟩ := onceDeployed_runs
  obtain ⟨r, hrun⟩ := Go.run_eq hok
  have hstart : Traced World.sample (fun _ => True) (fun _ _ _ _ => True) (executedIn World.sample) [] genesisDB :=
    .start ⟨twoAccounts, Prod.ext hg rfl, trivial⟩
  exact TracedFrom.block hstart hrun trivial

theorem code_history_deployed : ∃ t ∈ deploysOf (executedIn World.sample genesisDB oneDeploy []),
    addressOf World.sample t = contractAddr World.sample.toEnv 1 1 ∧ t.wasmBytes = [1] := by
  obtain ⟨-, -, -, hcode, -⟩ := onceDeployed_runs
  exact ((code_history onceDeployed_traced (.start _) _).1 _).mp hcode

/-- The address of the account's next deployment is free. -/
theorem deploy_never_taken_deployed :
    onceDeployed.2.contractBytecode.get (addressOf World.sample (Tx.plain .contractDeploy 1 0 0 2)) = none := by
  obtain ⟨-, -, hexec, -, hnext, hapart⟩ := onceDeployed_runs
  refine deploy_never_taken onceDeployed_traced hnext.symm ?_ fun u hu => ?_
  · rw [hexec]
    decide +kernel
  · rw [hexec] at hu
    have hinput : deployInput u = deployInput (Tx.plain .contractDeploy 1 0 0 1) := by
      obtain rfl := List.mem_singleton.mp (mem_deploysOf.mp hu).1
      unfold Tx.signed
      split <;> rfl
    rw [hinput]
    exact fun h => absurd h hapart

end Frg.Chain
