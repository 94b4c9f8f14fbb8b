/-
  Frg.Chain.Slashing — how often one offence is punished.

  Equivocation evidence is two signed votes of one validator for one slot. `SlashTx` needs
  a validator record and deletes it; nothing remembers the slot. So the punishment is
  limited by the record alone, and a new bond makes the old evidence good again.

    - `slashed_once`: in every run of accepted blocks, a slot after whose punishment the
      validator does not bond again is punished at most once, whoever reports it and
      however often.
    - `slashed_twice`: three blocks that slash, bond and slash again, with the same votes.
-/

import Frg.Lib.Run
import Frg.Chain.Skipped

namespace Frg.Chain

open Frg.Lib Frg.Core Frg.Wire Act

/-- The slot two votes of a validator are for. -/
structure Offence where
  validator : Key
  type : UInt8
  height : UInt64
  round : UInt32
  deriving DecidableEq, Repr

/-- What a transaction of a block does to the set of validator records. -/
inductive StakeAct where
  | slashed (o : Offence)
  | bonded (v : Key)
  deriving DecidableEq, Repr

/-- The slot of the evidence. `validateEquivocationEvidenceTx` lets no two votes for different
    slots through, so it does not matter which vote is read. -/
def offenceOf (t : Tx) : Option Offence :=
  match deserializeEvidenceVote t.evidenceA with
  | .ok a => some ⟨a.validatorPK, a.type, a.height, a.round⟩
  | _ => none

def stakeAct (t : Tx) : Option StakeAct :=
  match t.type with
  | .bond => some (.bonded t.senderPubKey)
  | .equivEvidence => (offenceOf t).map .slashed
  | _ => none

/-- The bonds and slashes of a block, in the order of the transactions. -/
def stakeActs (W : World) (db : DB) (b : Block) (chainID : List UInt8) : List StakeAct :=
  (executedTxs W (ctxOf db b chainID) db b.txs).filterMap stakeAct

/-- Runs of accepted blocks with their bonds and slashes so far, oldest first. -/
def StakeRun (W : World) (db₀ : DB) : List StakeAct → DB → Prop :=
  TracedFrom W (· = db₀) (fun _ _ _ _ => True) (stakeActs W)

/-! ## A key without a record -/

/-- No record of `k` has been made. -/
def NoRecordMade (k : Key) (db db' : DB) : Prop := db.validators.get k = none → db'.validators.get k = none

section

variable {k : Key}

instance : Std.Refl (NoRecordMade k) := ⟨fun _ => id⟩
instance : IsTrans DB (NoRecordMade k) := ⟨fun _ _ _ h1 h2 h => h2 (h1 h)⟩

theorem NoRecordMade.of_eq {db db' : DB} (h : db'.validators = db.validators) : NoRecordMade k db db' :=
  fun h0 => h ▸ h0

theorem NoRecordMade.put {db : DB} {v : Key} {r r' : Record} (h : db.validators.get v = some r) :
    NoRecordMade k db { db with validators := db.validators.put v r' } := by
  intro h0
  have hne : k ≠ v := fun e => by
    rw [e, h] at h0
    cases h0
  show (db.validators.put v r').get k = none
  rw [Bucket.get_put_ne _ _ hne, h0]

theorem noRecordMade_burn (a : Key) (n : Int) : Steps (NoRecordMade k) (burnTx a n) :=
  burnTx_steps (changeBalance_steps fun _ _ => .of_eq rfl)

theorem noRecordMade_miss (v : Key) : Steps (NoRecordMade k) (recordMissTx v) := by
  refine recordMissTx_steps (fun v r r' db hr => ?_) v
  have hput : NoRecordMade k db { db with validators := db.validators.put v r' } := .put hr
  exact hput

theorem noRecordMade_ops : CoreOps (NoRecordMade k) where
  move _ _ _ _ _ := moveBalance_steps (fun _ _ => .of_eq rfl) fun _ _ => .of_eq rfl
  nonce := advanceNonceTx_steps fun _ _ _ _ => .of_eq rfl
  unbond := unbondTx_steps fun _ _ _ _ hr _ => .put hr
  deleteRecord v db := by
    intro h0
    show (db.validators.delete v).get k = none
    rw [Bucket.get_delete]
    split
    · rfl
    · exact h0
  storeBytecode _ _ _ := .of_eq rfl
  saveState _ _ _ := .of_eq rfl

theorem applyTx_noRecordMade {W : World} {ctx : BlockCtx} {t : Tx} (hv : ∀ v ∈ t.value, 0 ≤ v)
    (ht : stakeAct t ≠ some (.bonded k)) : Steps (NoRecordMade k) (applyTx W ctx t) := by
  refine applyTx_steps noRecordMade_ops W ctx hv (fun hb n h db h0 => ?_) fun _ a n _ => noRecordMade_burn a n
  have hne : k ≠ t.senderPubKey := fun e => ht (by simp [stakeAct, hb, e])
  show (db.validators.put t.senderPubKey (.fresh n h)).get k = none
  rw [Bucket.get_put_ne _ _ hne, h0]

end

/-! ## Evidence needs a record and removes it -/

variable {W : World} {ctx : BlockCtx} {t : Tx} {db db' : DB}

theorem evidence_validator {v : Key} (ht : t.type = .equivEvidence) (h : precheck W ctx t = .ok v) :
    ∃ o, stakeAct t = some (.slashed o) ∧ o.validator = v := by
  unfold precheck at h
  rw [ht] at h
  obtain ⟨_, -, h⟩ := Go.bind_eq_ok.mp h
  obtain ⟨-, -, a, ha, -, -, -, -, -, -, -, hv⟩ := validateEquivocationEvidenceTx_iff.mp h
  refine ⟨⟨a.validatorPK, a.type, a.height, a.round⟩, ?_, hv⟩
  simp [stakeAct, ht, offenceOf, ha]

theorem applyTx_slashes {o : Offence} {out : TxOut} (hn : t.nonce = nextNonce db t.senderPubKey)
    (ht : stakeAct t = some (.slashed o)) (h : applyTx W ctx t db = (.ok out, db')) :
    (∃ r, db.validators.get o.validator = some r ∧ out.slashed = r.bondedAmount) ∧
      db'.validators = db.validators.delete o.validator := by
  have hty : t.type = .equivEvidence := by
    unfold stakeAct at ht
    split at ht
    · cases ht
    · assumption
    · cases ht
  simp only [applyTx, hty] at h
  obtain ⟨v, d1, h1, h⟩ := bind_ok.mp h
  obtain ⟨hpre, rfl⟩ := lift_ok.mp h1
  obtain ⟨o', ho', rfl⟩ := evidence_validator hty hpre
  obtain rfl : o' = o := by
    rw [ho'] at ht
    exact StakeAct.slashed.inj (Option.some.inj ht)
  rcases unlessFault_ok h with ⟨d2, hadv, h⟩ | ⟨e, hadv, -, -⟩
  swap
  · rw [advanceNonceTx_ok hn] at hadv
    cases (Prod.mk.inj hadv).1
  rw [advanceNonceTx_ok hn] at hadv
  obtain ⟨-, rfl⟩ := Prod.mk.inj hadv
  obtain ⟨n, d3, hslash, h⟩ := bind_ok.mp h
  obtain ⟨rfl, rfl⟩ := pure_ok.mp h
  obtain ⟨r, d4, hr, rfl, hburn, hdel⟩ := slashTx_ok hslash
  obtain ⟨-, -, rfl⟩ := burnTx_ok hburn
  obtain rfl := write_ok.mp hdel
  exact ⟨⟨r, hr, rfl⟩, rfl⟩

/-! ## Runs -/

section

variable (o : Offence)

/-- A slot punished so far leaves no record, and was punished once. -/
structure Punished (acts : List StakeAct) (db : DB) : Prop where
  gone : .slashed o ∈ acts → db.validators.get o.validator = none
  once : acts.count (.slashed o) ≤ 1

/-- The validator of the slot does not bond after its punishment. -/
def StaysOut (acts : List StakeAct) : Prop :=
  acts.Pairwise fun earlier later => earlier = .slashed o → later ≠ .bonded o.validator

variable {o} {acts : List StakeAct}

theorem Punished.tx {out : TxOut} (hp : Punished o acts db) (hv : ∀ v ∈ t.value, 0 ≤ v)
    (hn : t.nonce = nextNonce db t.senderPubKey) (h : applyTx W ctx t db = (.ok out, db'))
    (hout : StaysOut o (acts ++ (stakeAct t).toList)) : Punished o (acts ++ (stakeAct t).toList) db' := by
  -- without a bond of the validator its record cannot come back
  have hstill : stakeAct t ≠ some (.bonded o.validator) → .slashed o ∈ acts → db'.validators.get o.validator = none :=
    fun ht hm => (applyTx_noRecordMade hv ht).run h (hp.gone hm)
  cases hact : stakeAct t with
  | none =>
    simp only [Option.toList_none, List.append_nil]
    exact ⟨hstill (by simp [hact]), hp.once⟩
  | some a =>
    rw [hact] at hout
    simp only [Option.toList_some] at hout ⊢
    cases a with
    | slashed o' =>
      by_cases ho : o' = o
      · subst ho
        obtain ⟨⟨r, hr, -⟩, hdel⟩ := applyTx_slashes hn hact h
        have hfirst : .slashed o' ∉ acts := fun hm => by
          rw [hp.gone hm] at hr
          cases hr
        refine ⟨fun _ => ?_, ?_⟩
        · rw [hdel, Bucket.get_delete, if_pos rfl]
        · rw [List.count_append, List.count_eq_zero.mpr hfirst, List.count_singleton_self]
      · refine ⟨fun hm => hstill (by simp [hact]) ?_, ?_⟩
        · rcases List.mem_append.mp hm with hm | hm
          · exact hm
          · exact absurd (StakeAct.slashed.inj (List.mem_singleton.mp hm)).symm ho
        · rw [List.count_append, List.count_singleton, if_neg (by simpa using ho)]
          exact hp.once
    | bonded v =>
      have hmem : .slashed o ∈ acts ++ [.bonded v] → .slashed o ∈ acts := fun hm => by
        rcases List.mem_append.mp hm with hm | hm
        · exact hm
        · cases List.mem_singleton.mp hm
      refine ⟨fun hm => hstill (fun e => ?_) (hmem hm), ?_⟩
      · have hlast := (List.pairwise_append.mp hout).2.2 _ (hmem hm) _ (List.mem_singleton.mpr rfl) rfl
        rw [hact] at e
        exact hlast (Option.some.inj e)
      · rw [List.count_append, List.count_singleton, if_neg (by simp)]
        exact hp.once

theorem Punished.loop {txs : List Tx} {outs : List TxOut} (hv : ∀ t ∈ txs, ∀ v ∈ t.value, 0 ≤ v)
    (h : txLoop W ctx txs db = (.ok outs, db')) (hp : Punished o acts db)
    (hout : StaysOut o (acts ++ (executedTxs W ctx db txs).filterMap stakeAct)) :
    Punished o (acts ++ (executedTxs W ctx db txs).filterMap stakeAct) db' := by
  have hloop := txLoop_executed (I := fun done db => StaysOut o (acts ++ done.filterMap stakeAct) →
    Punished o (acts ++ done.filterMap stakeAct) db) [] (fun t ht done out db db' hn h1 hi hout => ?_) h fun _ => by
      simpa using hp
  · exact hloop hout
  · have hsnoc : acts ++ (done ++ [t]).filterMap stakeAct =
        acts ++ done.filterMap stakeAct ++ (stakeAct t).toList := by
      cases hact : stakeAct t <;> simp [hact]
    rw [hsnoc] at hout ⊢
    exact (hi (List.pairwise_append.mp hout).1).tx (hv t ht) hn h1 hout

theorem StakeRun.punished {db₀ : DB} (hrun : StakeRun W db₀ acts db) (hout : StaysOut o acts) :
    Punished o acts db := by
  refine hrun.keeps (J := fun acts db => StaysOut o acts → Punished o acts db) (fun _ _ => ?_)
    (fun ih ⟨⟨order, happ⟩, _⟩ hout => ?_) hout
  · exact ⟨fun hm => absurd hm List.not_mem_nil, Nat.zero_le 1⟩
  · obtain ⟨run, -⟩ := applyBlockForChain_ok happ
    have hloop := Punished.loop run.values run.ranTxs (ih (List.pairwise_append.mp hout).1) hout
    refine ⟨fun hm => ?_, hloop.once⟩
    rw [run.validators]
    exact run.laterSteps (fun a n _ => noRecordMade_burn a n) noRecordMade_miss
      (fun _ _ => changeBalance_steps fun _ _ => .of_eq rfl) (hloop.gone hm)

/-- In every run of accepted blocks, a slot after whose punishment the validator stays out
    is punished at most once. -/
theorem slashed_once {db₀ : DB} (hrun : StakeRun W db₀ acts db) (hout : StaysOut o acts) :
    acts.count (.slashed o) ≤ 1 := (hrun.punished hout).once

end

/-! ## The same evidence twice -/

def evidenceBytes (v : EvidenceVote) : List UInt8 :=
  [v.type] ++ u64 v.height.toNat ++ u32 v.round.toNat ++ v.blockHash.bytes ++ v.validatorPK.bytes ++ v.sig.bytes

/-- A prevote of validator 2 at height 1, round 0. -/
def prevoteOfTwo (blockHash : Hash) : EvidenceVote :=
  let v : EvidenceVote := { type := 1, height := 1, round := 0, blockHash, validatorPK := 2, sig := 0 }
  { v with sig := Prim.sample.sign 2 (evidenceSignBytes v []) }

/-- Validator 1 reports that validator 2 voted for two blocks. -/
def reporting (nonce : UInt64) : Tx :=
  { Tx.plain .equivEvidence 1 0 0 nonce with
    evidenceA := evidenceBytes (prevoteOfTwo 3), evidenceB := evidenceBytes (prevoteOfTwo 4) }.signed Prim.sample []

/-- The reported slot. -/
def reported : Offence := ⟨2, 1, 1, 0⟩

/-- Validator 2 is slashed, bonds again with a little help for the gas, and is slashed again. -/
def returning : List Block :=
  [.plain 1 [reporting 1],
   .plain 2 [(Tx.plain .transfer 1 2 100 2).signed Prim.sample [],
     (Tx.plain .bond 2 2 minBondAmount 1).signed Prim.sample []],
   .plain 3 [reporting 3]]

theorem slashed_once_reported : ∃ acts db, StakeRun World.sample stakedDB acts db ∧ acts = [.slashed reported] ∧
    acts.count (.slashed reported) ≤ 1 := by
  have hacts : ((returning.take 1).foldlM (traceStep (stakeActs World.sample)) ([], stakedDB)).map (·.1) =
      some [.slashed reported] := by decide +kernel
  obtain ⟨s, hs, hs1⟩ := Option.map_eq_some_iff.mp hacts
  have hrun : StakeRun World.sample stakedDB s.1 s.2 := TracedFrom.computed rfl (fun _ _ _ _ => trivial) hs
  exact ⟨s.1, s.2, hrun, hs1, slashed_once hrun (hs1 ▸ List.pairwise_singleton _ _)⟩

/-- One pair of votes removes two records. -/
theorem slashed_twice : ∃ acts db, StakeRun World.sample stakedDB acts db ∧
    acts = [.slashed reported, .bonded 2, .slashed reported] := by
  have hacts : (returning.foldlM (traceStep (stakeActs World.sample)) ([], stakedDB)).map (·.1) =
      some [.slashed reported, .bonded 2, .slashed reported] := by decide +kernel
  obtain ⟨s, hs, hs1⟩ := Option.map_eq_some_iff.mp hacts
  exact ⟨s.1, s.2, TracedFrom.computed rfl (fun _ _ _ _ => trivial) hs, hs1⟩

end Frg.Chain
