/-
  Frg.Consensus.Certificates — what an attestation proves, and what a proposal has to carry.

  `VerifyAttestationForChain` accepts exactly the sets of verified precommits for one block
  that distinct validators with more than two thirds of the stake have cast
  (`verifyAttestationForChain_ok`). It does not know which block that should be.

    - `certifies_parent_iff`: of an accepted proposal, the attestation is a certificate of
      the parent block exactly when it has votes and names the height and the hash of the
      block stored there. Nothing else about it is left open.
    - `parent_uncertified`: at height 2 a proposal without any attestation is accepted.
    - `proposal_one_encoding`: a proposal has one encoding, so the bytes stored with a committed
      block, from which its hash is read again, are those it was received as.
-/

import Frg.Chain.BlockStore
import Frg.Consensus.Codec
import Frg.Consensus.Lock

namespace Frg.Consensus

open Frg.Lib Frg.Core Frg.Wire Frg.Chain Relation

/-- The stake of the voters. -/
def attestedStake (vals : Stakes) (votes : List Vote) : Nat := (votes.map fun v => stakeWeight vals v.validatorPK).sum

/-- A verified precommit of a validator for the block of the attestation. -/
structure Attests (P : Prim) (chainID : List UInt8) (a : AttestationSet) (vals : Stakes) (v : Vote) : Prop where
  type : v.type = VoteType.precommit.code
  height : v.height = a.height
  round : v.round = a.round
  blockHash : v.blockHash = a.blockHash
  validator : v.validatorPK ∈ vals.map (·.1)
  verified : verifyVoteForChain P v chainID = true

/-- The votes of an attestation are distinct precommits of more than two thirds. -/
structure Certificate (P : Prim) (chainID : List UInt8) (vals : Stakes) (a : AttestationSet) : Prop where
  votes : ∀ v ∈ a.votes, Attests P chainID a vals v
  distinct : (a.votes.map (·.validatorPK)).Nodup
  quorum : 2 * totalStake vals < 3 * attestedStake vals a.votes

section

variable {P : Prim} {chainID : List UInt8} {a : AttestationSet} {vals : Stakes}

theorem checkAttestationVote_ok {acc acc' : List Key × Nat} {v : Vote} :
    checkAttestationVote P chainID a vals acc v = .ok acc' ↔ Attests P chainID a vals v ∧ v.validatorPK ∉ acc.1 ∧
      acc' = (v.validatorPK :: acc.1, acc.2 + stakeWeight vals v.validatorPK) := by
  unfold checkAttestationVote
  constructor
  · intro h
    obtain ⟨_, hcontext, h⟩ := Go.bind_eq_ok.mp h
    obtain ⟨_, hval, h⟩ := Go.bind_eq_ok.mp h
    obtain ⟨_, hdup, h⟩ := Go.bind_eq_ok.mp h
    obtain ⟨_, hver, h⟩ := Go.bind_eq_ok.mp h
    obtain ⟨h1, h2, h3, h4⟩ := Go.check_eq_ok.mp hcontext
    exact ⟨⟨h1, h2, h3, h4, Go.check_eq_ok.mp hval, Go.check_eq_ok.mp hver⟩, Go.check_eq_ok.mp hdup,
      (Go.ok.inj h).symm⟩
  · rintro ⟨hv, hdup, rfl⟩
    rw [Go.check_pos ⟨hv.type, hv.height, hv.round, hv.blockHash⟩, Go.ok_bind, Go.check_pos hv.validator, Go.ok_bind,
      Go.check_pos hdup, Go.ok_bind, Go.check_pos hv.verified, Go.ok_bind]
    rfl

theorem checkAttestationVotes_ok : ∀ {votes : List Vote} {acc acc' : List Key × Nat},
    votes.foldlM (checkAttestationVote P chainID a vals) acc = .ok acc' ↔
      (∀ v ∈ votes, Attests P chainID a vals v) ∧ (votes.map (·.validatorPK)).Nodup ∧
        (∀ v ∈ votes, v.validatorPK ∉ acc.1) ∧
        acc' = ((votes.map (·.validatorPK)).reverse ++ acc.1, acc.2 + attestedStake vals votes) := by
  intro votes
  induction votes with
  | nil => simp [attestedStake, eq_comm]
  | cons v vs ih =>
    intro acc acc'
    rw [List.foldlM_cons, Go.bind_eq_ok]
    simp only [checkAttestationVote_ok, ih, List.forall_mem_cons, List.map_cons, List.nodup_cons]
    constructor
    · rintro ⟨_, ⟨hv, hdup, rfl⟩, hvs, hnd, hfree, rfl⟩
      refine ⟨⟨hv, hvs⟩, ⟨fun hm => ?_, hnd⟩, ⟨hdup, fun x hx hm => hfree x hx (List.mem_cons_of_mem _ hm)⟩, ?_⟩
      · obtain ⟨x, hx, hxv⟩ := List.mem_map.mp hm
        exact hfree x hx (hxv ▸ List.mem_cons_self)
      · simp [attestedStake, Nat.add_assoc]
    · rintro ⟨⟨hv, hvs⟩, ⟨hnot, hnd⟩, ⟨hdup, hfree⟩, rfl⟩
      refine ⟨_, ⟨hv, hdup, rfl⟩, hvs, hnd, fun x hx hm => ?_, ?_⟩
      · rcases List.mem_cons.mp hm with hxv | hm
        · exact hnot (List.mem_map.mpr ⟨x, hx, hxv⟩)
        · exact hfree x hx hm
      · simp [attestedStake, Nat.add_assoc]

theorem verifyAttestationForChain_ok {u : Unit} : verifyAttestationForChain P a vals chainID = .ok u ↔
    a.votes ≠ [] ∧ totalStake vals ≠ 0 ∧ Certificate P chainID vals a := by
  unfold verifyAttestationForChain
  constructor
  · intro h
    obtain ⟨_, hne, h⟩ := Go.bind_eq_ok.mp h
    obtain ⟨acc, hvotes, h⟩ := Go.bind_eq_ok.mp h
    obtain ⟨hv, hnd, -, rfl⟩ := checkAttestationVotes_ok.mp hvotes
    obtain ⟨htotal, hquorum⟩ := Go.check_eq_ok.mp h
    exact ⟨Go.check_eq_ok.mp hne, htotal, hv, hnd, by simpa using hquorum⟩
  · rintro ⟨hne, htotal, hv, hnd, hquorum⟩
    rw [Go.check_pos hne, Go.ok_bind, checkAttestationVotes_ok.mpr ⟨hv, hnd, fun _ _ => List.not_mem_nil, rfl⟩,
      Go.ok_bind]
    exact Go.check_pos ⟨htotal, by simpa using hquorum⟩ _

end

/-! ## The parent of a proposal -/

variable {σ : Type}

/-- The hash of the block committed at a height, from the proposal stored with it. -/
def committedHash (c : Config σ) (db : DB) (height : UInt64) : Option Hash :=
  match blockAt c.W db height with
  | .ok (some b) =>
    match deserializeProposal c.W.toPrim b.proposalBytes with
    | .ok p => some (blockHashForChain c.W.toPrim p c.chainID)
    | _ => none
  | _ => none

/-- The attestation is a certificate of the block before the engine's height. -/
structure CertifiesParent (c : Config σ) (e : Engine σ) (a : AttestationSet) : Prop where
  nonempty : a.votes ≠ []
  height : a.height = e.rs.height - 1
  block : committedHash c e.disk.db (e.rs.height - 1) = some a.blockHash
  certificate : Certificate c.W.toPrim c.chainID e.validators a

/-- The attestation is there, and names the parent. -/
def NamesParent (c : Config σ) (e : Engine σ) (a : AttestationSet) : Prop :=
  a.votes ≠ [] ∧ a.height = e.rs.height - 1 ∧ committedHash c e.disk.db (e.rs.height - 1) = some a.blockHash

instance (c : Config σ) (e : Engine σ) (a : AttestationSet) : Decidable (NamesParent c e a) := by
  unfold NamesParent
  infer_instance

section

variable {c : Config σ} {e : Engine σ} {p : BlockProposal}

theorem handleProposal_accepts (hnew : e.rs.proposal ≠ some p) (h : (handleProposal c p e).rs.proposal = some p) :
    timely c p e = true ∧ checkProposal c p e = .ok () := by
  unfold handleProposal at h
  split at h
  · rename_i ht
    split at h
    · exact ⟨ht, ‹_›⟩
    · exact absurd h hnew
    · exact absurd h hnew
  · exact absurd h hnew

theorem checkProposal_certificate (h : checkProposal c p e = .ok ()) (hne : p.prevAttestations.votes ≠ []) :
    verifyAttestationForChain c.W.toPrim p.prevAttestations e.validators c.chainID = .ok () := by
  unfold checkProposal at h
  obtain ⟨_, -, h⟩ := Go.bind_eq_ok.mp h
  rw [if_pos hne] at h
  exact h

/-- An accepted proposal certifies its parent exactly when its attestation has votes and
    names the parent. -/
theorem certifies_parent_iff (hnew : e.rs.proposal ≠ some p) (hacc : (handleProposal c p e).rs.proposal = some p) :
    CertifiesParent c e p.prevAttestations ↔ NamesParent c e p.prevAttestations := by
  refine ⟨fun h => ⟨h.nonempty, h.height, h.block⟩, fun ⟨hne, hheight, hblock⟩ => ⟨hne, hheight, hblock, ?_⟩⟩
  obtain ⟨-, hcheck⟩ := handleProposal_accepts hnew hacc
  exact (verifyAttestationForChain_ok.mp (checkProposal_certificate hcheck hne)).2.2

end

/-! ## The bytes of a committed block -/

/-- The proposal is written as the bytes it was read from, no other bytes are read as it, and
    its committed block is stored, and read from the store, with these bytes. -/
theorem proposal_one_encoding {P : Prim} {data : List UInt8} {p : BlockProposal}
    (h : deserializeProposal P data = .ok p) :
    serializeProposal P p = .ok data ∧ (∀ data', deserializeProposal P data' = .ok p → data' = data) ∧
    ∀ {σ : Type} {c : Config σ} {order : MapOrder} {x : Hash} {e e' : Engine σ}, c.W.toPrim = P →
      e.rs.proposal = some p →
      commit c order x e = .ok e' →
      ∃ b, blockAt c.W e'.disk.db e.rs.height = .ok (some b) ∧ b.proposalBytes = data := by
  have hser := deserializeProposal_canonical h
  refine ⟨hser, ?_, ?_⟩
  · intro data' h'
    have hser' := deserializeProposal_canonical h'
    rw [hser] at hser'
    exact (Go.ok.inj hser').symm
  · intro σ c order x e e' hP hp hcommit
    subst hP
    obtain ⟨p', bytes, r, db, hp', -, hbytes, happ, rfl⟩ := commit_ok c hcommit
    obtain rfl := Option.some.inj (hp.symm.trans hp')
    obtain rfl := Go.ok.inj (hser.symm.trans hbytes)
    exact ⟨_, blockAt_applied happ (deserializeProposal_decoded h) (deserializeProposal_count h), rfl⟩

/-- A proposal with a transfer and with two precommits for the block before it. -/
def fullProposal : BlockProposal :=
  let precommits := ([1, 2] : List Key).map fun k => signVote (.node World.sample defaultChainID k) .precommit 0 0 7
  let pool := (Mempool.new defaultCap).enqueue Prim.sample
    ((Tx.plain .transfer 1 2 10 1).signed Prim.sample defaultChainID)
  propose Prim.sample 2 defaultChainID pool 1 0 { height := 0, round := 0, blockHash := 7, votes := precommits } 0

/-- Validator 3 holds it, on a chain where account 1 can pay. -/
def fullHeld : Engine Mempool :=
  let db := { threeDB with balances := Bucket.empty.put 1 1000, totalSupply := some (4000 * 10 ^ 18 + 1000) }
  let e := start (.node World.sample defaultChainID 3) ⟨db, [], none⟩ (.new defaultCap) []
  { e with rs := { e.rs with proposal := some fullProposal } }

theorem proposal_one_encoding_full : ∃ data e' b, fullProposal.txs.length = 1 ∧
    fullProposal.prevAttestations.votes.length = 2 ∧ deserializeProposal Prim.sample data = .ok fullProposal ∧
    serializeProposal Prim.sample fullProposal = .ok data ∧
    (∀ data', deserializeProposal Prim.sample data' = .ok fullProposal → data' = data) ∧
    commit (.node World.sample defaultChainID 3) .id (blockHashForChain Prim.sample fullProposal defaultChainID)
      fullHeld = .ok e' ∧
    blockAt World.sample e'.disk.db 1 = .ok (some b) ∧ b.proposalBytes = data := by
  have hall : (fullProposal.txs.length = 1 ∧ fullProposal.prevAttestations.votes.length = 2 ∧ fullHeld.rs.height = 1) ∧
      ((serializeProposal Prim.sample fullProposal).toOption.any fun data =>
        decide (deserializeProposal Prim.sample data = .ok fullProposal)) = true ∧
      (commit (.node World.sample defaultChainID 3) .id (blockHashForChain Prim.sample fullProposal defaultChainID)
        fullHeld).isOk = true := by
    decide +kernel
  obtain ⟨⟨htxs, hvotes, hheight⟩, hread, hcommit⟩ := hall
  obtain ⟨data, -, hread⟩ := (Option.any_eq_true _ _).mp hread
  obtain ⟨e', hcommit⟩ := Go.isOk_iff.mp hcommit
  obtain ⟨hser, hone, hstored⟩ := proposal_one_encoding (of_decide_eq_true hread)
  obtain ⟨b, hb, hbytes⟩ := hstored rfl rfl hcommit
  rw [hheight] at hb
  exact ⟨data, e', b, htxs, hvotes, of_decide_eq_true hread, hser, hone, hcommit, hb, hbytes⟩

/-! ## The second height -/

/-- Validator 3 has committed the first block. -/
def firstCommitted : Option (Engine Mempool) := memberRun 3 (lockedFirst ++ [ballot 2 .precommit 0 firstHash])

/-- A proposal of validator 1 for height 2. -/
def nextProposal (root : Hash) (prevAttest : AttestationSet) : BlockProposal :=
  propose Prim.sample 1 defaultChainID (.new defaultCap) 2 0 prevAttest root

/-- Validator 3 accepts the next proposal with the precommits it has seen and without any. -/
theorem firstCommitted_accepts : ∃ e, firstCommitted = some e ∧ e.rs.height = 2 ∧ e.rs.proposal = none ∧
    (handleProposal (.node World.sample defaultChainID 3) (nextProposal e.prevStateRoot e.rs.lastAttestation)
      e).rs.proposal = some (nextProposal e.prevStateRoot e.rs.lastAttestation) ∧
    NamesParent (.node World.sample defaultChainID 3) e e.rs.lastAttestation ∧
    (handleProposal (.node World.sample defaultChainID 3) (nextProposal e.prevStateRoot {}) e).rs.proposal =
      some (nextProposal e.prevStateRoot {}) := by
  have hrun : firstCommitted.any (fun e => decide (e.rs.height = 2 ∧ e.rs.proposal = none ∧
      (handleProposal (.node World.sample defaultChainID 3) (nextProposal e.prevStateRoot e.rs.lastAttestation)
        e).rs.proposal = some (nextProposal e.prevStateRoot e.rs.lastAttestation) ∧
      NamesParent (.node World.sample defaultChainID 3) e e.rs.lastAttestation ∧
      (handleProposal (.node World.sample defaultChainID 3) (nextProposal e.prevStateRoot {}) e).rs.proposal =
        some (nextProposal e.prevStateRoot {}))) = true := by
    decide +kernel
  obtain ⟨e, he, hall⟩ := (Option.any_eq_true _ _).mp hrun
  exact ⟨e, he, of_decide_eq_true hall⟩

/-- A proposal with the precommits of the first block certifies it. -/
theorem certifies_parent_iff_first : ∃ e p, firstCommitted = some e ∧ e.rs.height = 2 ∧
    (handleProposal (.node World.sample defaultChainID 3) p e).rs.proposal = some p ∧
      CertifiesParent (.node World.sample defaultChainID 3) e p.prevAttestations := by
  obtain ⟨e, he, hheight, hnone, hacc, hnames, -⟩ := firstCommitted_accepts
  exact ⟨e, _, he, hheight, hacc, (certifies_parent_iff (by simp [hnone]) hacc).mpr hnames⟩

/-- A proposal without an attestation is accepted at height 2. -/
theorem parent_uncertified : firstCommitted.map (fun e => (e.rs.height,
    decide ((handleProposal (.node World.sample defaultChainID 3) (nextProposal e.prevStateRoot {}) e).rs.proposal =
      some (nextProposal e.prevStateRoot {})), (nextProposal e.prevStateRoot {}).prevAttestations.votes)) =
    some (2, true, []) := by
  obtain ⟨e, he, hheight, -, -, -, hacc⟩ := firstCommitted_accepts
  rw [he, Option.map_some, hheight, decide_eq_true hacc]
  rfl

end Frg.Consensus
