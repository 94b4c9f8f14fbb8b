/-
  Frg.Consensus.Vote — votes, proposals and attestations (`core/consensus/vote.go`), their
  bytes, and the stake tallies the engine decides on (`QuorumReached`, `quorumBlock`).

  The validators and their stakes travel as one list of pairs, as `BondedAmounts` gives
  them, so they are aligned and no stake is negative: the two tests of
  `VerifyAttestationForChain` for that have nothing to refuse. `evidenceVote` of the state
  machine has the fields of `Vote`, so one record stands for both; the decoder and the signed
  bytes are written twice, as they are there.

    - `quorumBlock_some`: a hash it returns is voted for by more than two thirds.
    - `decided_quorum`: the validators behind such a hash are a weighted quorum.
-/

import Frg.Chain.Apply
import Frg.Lib.Quorum

namespace Frg.Consensus

open Frg.Lib Frg.Core Frg.Wire Frg.Chain

inductive VoteType where
  | prevote
  | precommit
  deriving DecidableEq, Repr

/-- For the test whether a slot is reserved. -/
instance lawfulBEqSlot : LawfulBEq (UInt64 × UInt32 × VoteType) := inferInstance

def VoteType.code : VoteType → UInt8
  | .prevote => 1
  | .precommit => 2

theorem VoteType.code_inj {t u : VoteType} (h : t.code = u.code) : t = u := by
  revert h
  cases t <;> cases u <;> decide

/-- A signed vote as it travels: the type byte is not yet checked, a nil vote has hash 0. -/
abbrev Vote := EvidenceVote

/-- The bonded validators with their stakes. -/
abbrev Stakes := List (Key × Nat)

structure AttestationSet where
  height : UInt64 := 0
  round : UInt32 := 0
  blockHash : Hash := 0
  votes : List Vote := []
  deriving DecidableEq, Repr

structure BlockProposal where
  height : UInt64
  round : UInt32
  proposerPK : Key
  prevStateRoot : Hash
  txs : List Tx
  prevAttestations : AttestationSet
  proposerSig : Sig
  deriving DecidableEq, Repr

def maxProposalVotes : Nat := 4096
def maxProposalTxs : Nat := 65536

/-! ## Votes -/

def serializeVote (v : Vote) : List UInt8 :=
  [v.type] ++ u64 v.height.toNat ++ u32 v.round.toNat ++ v.blockHash.bytes ++ v.validatorPK.bytes ++ v.sig.bytes

def deserializeVote (data : List UInt8) : Res Vote := do
  Go.check (data.length = 141) (.plain s!"invalid vote length: {data.length}")
  let type ← byteAt data 0
  let height ← uintIn 8 data 1 9
  let round ← uintIn 4 data 9 13
  let blockHash ← slice data 13 45
  let validatorPK ← slice data 45 77
  let sig ← slice data 77 141
  return { type, height := .ofNat height, round := .ofNat round, blockHash := wordOf 32 blockHash
           validatorPK := wordOf 32 validatorPK, sig := wordOf 64 sig }

def voteSignBytesForChain (v : Vote) (chainID : List UInt8) : List UInt8 :=
  let chainID := if chainID = [] then defaultChainID else chainID
  domainVote ++ u16 chainID.length ++ chainID ++ [v.type] ++ u64 v.height.toNat ++ u32 v.round.toNat ++
    v.blockHash.bytes

variable (P : Prim)

def verifyVoteForChain (v : Vote) (chainID : List UInt8) : Bool :=
  (v.type = VoteType.prevote.code || v.type = VoteType.precommit.code) &&
    P.verify v.validatorPK (voteSignBytesForChain v chainID) v.sig

/-! ## Proposals -/

/-- All fields except the signature. -/
def serializeProposalBody (p : BlockProposal) : Res (List UInt8) := do
  Go.check (p.prevAttestations.votes.length ≤ maxProposalVotes)
    (.plain s!"proposal vote count exceeds {maxProposalVotes}")
  Go.check (p.txs.length ≤ maxProposalTxs) (.plain s!"proposal transaction count exceeds {maxProposalTxs}")
  let txBytes ← if p.txs = [] then .ok [] else serializeBatch P p.txs
  return u64 p.height.toNat ++ u32 p.round.toNat ++ p.proposerPK.bytes ++ p.prevStateRoot.bytes ++
    u64 p.prevAttestations.height.toNat ++ u32 p.prevAttestations.round.toNat ++ p.prevAttestations.blockHash.bytes ++
    u32 p.prevAttestations.votes.length ++ p.prevAttestations.votes.flatMap serializeVote ++
    u32 p.txs.length ++ txBytes

/-- The bytes the proposer signs. A body that does not serialise is left out. -/
def proposalSignBytesForChain (p : BlockProposal) (chainID : List UInt8) : List UInt8 :=
  let body := match serializeProposalBody P p with
    | .ok body => body
    | _ => []
  let chainID := if chainID = [] then defaultChainID else chainID
  domainProposal ++ u16 chainID.length ++ chainID ++ body

def blockHashForChain (p : BlockProposal) (chainID : List UInt8) : Hash :=
  P.hash (proposalSignBytesForChain P p chainID)

def verifyProposalForChain (p : BlockProposal) (chainID : List UInt8) : Bool :=
  P.verify p.proposerPK (proposalSignBytesForChain P p chainID) p.proposerSig

def serializeProposal (p : BlockProposal) : Res (List UInt8) := do
  let body ← serializeProposalBody P p
  return p.proposerSig.bytes ++ body

/-- `n` votes of a proposal from `off` on, the first one being number `i`. -/
def readVotes (body : List UInt8) (off i : Nat) : Nat → Res (List Vote)
  | 0 => return []
  | n + 1 => do
    Go.check (off + 141 ≤ body.length) (.plain s!"truncated vote at index {i}")
    let bytes ← slice body off (off + 141)
    let v ← deserializeVote bytes
    let vs ← readVotes body (off + 141) (i + 1) n
    return v :: vs

/-- The transactions of a proposal: a count, then a batch unless it is zero. -/
def readProposalTxs (body : List UInt8) (off : Nat) : Res (List Tx) := do
  Go.check (off + 4 ≤ body.length) (.plain "missing tx count")
  let txCount ← uintAt 4 body off
  let off := off + 4
  Go.check (txCount ≤ maxProposalTxs) (.plain s!"proposal transaction count exceeds {maxProposalTxs}")
  if txCount = 0 then do
    Go.check (off = body.length) (.plain "trailing bytes after empty tx list")
    return []
  else do
    Go.check (off < body.length) (.plain "missing tx batch")
    let txs ← deserializeBatch P (body.drop off)
    Go.check (txs.length = txCount) (.plain s!"tx count mismatch: header {txCount} batch {txs.length}")
    return txs

def deserializeProposal (data : List UInt8) : Res BlockProposal := do
  Go.check (64 + 8 + 4 + 32 + 32 + 8 + 4 + 32 + 4 ≤ data.length) (.plain "proposal too short")
  let body := data.drop 64
  let height ← uintAt 8 body 0
  let round ← uintAt 4 body 8
  let proposerPK ← slice body 12 44
  let prevStateRoot ← slice body 44 76
  let attHeight ← uintAt 8 body 76
  let attRound ← uintAt 4 body 84
  let attHash ← slice body 88 120
  let voteCount ← uintAt 4 body 120
  Go.check (voteCount ≤ maxProposalVotes ∧ voteCount ≤ (body.length - 124) / 141)
    (.plain "proposal vote count exceeds payload bounds")
  let votes ← readVotes body 124 0 voteCount
  let txs ← readProposalTxs P body (124 + 141 * voteCount)
  return { height := .ofNat height, round := .ofNat round
           proposerPK := wordOf 32 proposerPK, prevStateRoot := wordOf 32 prevStateRoot, txs
           prevAttestations :=
             { height := .ofNat attHeight, round := .ofNat attRound, blockHash := wordOf 32 attHash, votes }
           proposerSig := wordOf 64 (data.take 64) }

/-! ## Stakes -/

/-- `stakeMap[pk]`: a later entry writes over an earlier one. -/
def stakeOf (vals : Stakes) (pk : Key) : Option Nat := vals.reverse.lookup pk

def totalStake (vals : Stakes) : Nat := (vals.map (·.2)).sum

/-- The stake behind some of the votes of a map, each voter by its map key. -/
def sumVoted (votes : Bucket Key Vote) (vals : Stakes) : Nat :=
  (votes.entries.map fun x => (stakeOf vals x.1).getD 0).sum

def quorumReached (votes : Bucket Key Vote) (vals : Stakes) : Bool :=
  2 * totalStake vals < 3 * sumVoted votes vals

/-- `tally[h]`: the stake of the votes for `h`, each voter by the key in its vote. -/
def tally (votes : Bucket Key Vote) (vals : Stakes) (h : Hash) : Nat :=
  (votes.entries.map fun x => if x.2.blockHash = h then (stakeOf vals x.2.validatorPK).getD 0 else 0).sum

/-- The hashes with an entry in the tally. -/
def tallied (votes : Bucket Key Vote) (vals : Stakes) : List Hash :=
  ((votes.entries.filter fun x => (stakeOf vals x.2.validatorPK).isSome).map fun x => x.2.blockHash).dedup

/-- More than two thirds of the stake voted for `h`. -/
def decided (votes : Bucket Key Vote) (vals : Stakes) (h : Hash) : Bool :=
  2 * totalStake vals < 3 * tally votes vals h

/-- The first hash in the order of the map walk that more than two thirds voted for. -/
def quorumBlock (order : MapOrder) (votes : Bucket Key Vote) (vals : Stakes) : Option Hash :=
  (order.list (tallied votes vals)).find? (decided votes vals)

/-! ## Attestations -/

/-- One round of the loop over the votes: the voters seen and their stake. -/
def checkAttestationVote (chainID : List UInt8) (a : AttestationSet) (vals : Stakes) (acc : List Key × Nat) (v : Vote) :
    Res (List Key × Nat) := do
  Go.check (v.type = VoteType.precommit.code ∧ v.height = a.height ∧ v.round = a.round ∧ v.blockHash = a.blockHash)
    (.plain "attestation vote context mismatch")
  Go.check (v.validatorPK ∈ vals.map (·.1)) (.plain "attestation contains non-validator vote")
  Go.check (v.validatorPK ∉ acc.1) (.plain "attestation contains duplicate validator vote")
  Go.check (verifyVoteForChain P v chainID) (.plain "attestation contains invalid vote signature")
  return (v.validatorPK :: acc.1, acc.2 + (stakeOf vals v.validatorPK).getD 0)

def verifyAttestationForChain (a : AttestationSet) (vals : Stakes) (chainID : List UInt8) : Res Unit := do
  Go.check (a.votes ≠ []) (.plain "empty attestation set")
  let (_, votedStake) ← a.votes.foldlM (checkAttestationVote P chainID a vals) ([], 0)
  Go.check (totalStake vals ≠ 0 ∧ 2 * totalStake vals < 3 * votedStake) (.plain "attestation does not reach quorum")

/-- The precommits for a hash, by voter. -/
def attestationFromPrecommits (votes : Bucket Key Vote) (blockHash : Hash) : AttestationSet :=
  let vs := ((votes.entries.map (·.2)).filter fun v =>
    v.type = VoteType.precommit.code ∧ v.blockHash = blockHash).insertionSort (·.validatorPK ≤ ·.validatorPK)
  match vs with
  | [] => { blockHash }
  | v :: _ => { height := v.height, round := v.round, blockHash, votes := vs }

/-! ## The tallies -/

theorem quorumBlock_some {order : MapOrder} {votes : Bucket Key Vote} {vals : Stakes} {h : Hash}
    (hq : quorumBlock order votes vals = some h) : decided votes vals h = true :=
  List.find?_some hq

/-- The validators as voters, weighted with their stake. -/
def voters (vals : Stakes) : Finset Key := (vals.map (·.1)).toFinset

def stakeWeight (vals : Stakes) (pk : Key) : Nat := (stakeOf vals pk).getD 0

section

variable {vals : Stakes} {votes : Bucket Key Vote} {h : Hash} {p : Key → Prop}

theorem lookup_of_mem {l : Stakes} (hnd : (l.map (·.1)).Nodup) {pk : Key} {s : Nat} (hm : (pk, s) ∈ l) :
    l.lookup pk = some s := by
  induction l with
  | nil => cases hm
  | cons x l ih =>
    obtain ⟨k, n⟩ := x
    obtain ⟨hx, hrest⟩ := List.nodup_cons.mp hnd
    rcases List.mem_cons.mp hm with heq | htail
    · obtain ⟨rfl, rfl⟩ := Prod.mk.inj heq
      exact List.lookup_cons_self
    · have hne : pk ≠ k := by
        rintro rfl
        exact hx (List.mem_map.mpr ⟨_, htail, rfl⟩)
      rw [List.lookup_cons, beq_eq_false_iff_ne.mpr hne]
      exact ih hrest htail

theorem stakeWeight_of_mem (hnd : (vals.map (·.1)).Nodup) {pk : Key} {s : Nat} (hm : (pk, s) ∈ vals) :
    stakeWeight vals pk = s := by
  have hl : vals.reverse.lookup pk = some s := by
    apply lookup_of_mem
    · rwa [List.map_reverse, List.nodup_reverse]
    · exact List.mem_reverse.mpr hm
  unfold stakeWeight stakeOf
  rw [hl]
  rfl

theorem totalStake_eq (hnd : (vals.map (·.1)).Nodup) : totalStake vals = ∑ v ∈ voters vals, stakeWeight vals v := by
  unfold voters totalStake
  rw [List.sum_toFinset _ hnd, List.map_map]
  congr 1
  apply List.map_congr_left
  intro x hx
  exact (stakeWeight_of_mem hnd hx).symm

open scoped Classical in
theorem weight_eq_sum (hnd : (vals.map (·.1)).Nodup) (p : Key → Prop) [DecidablePred p] :
    weight (voters vals) (stakeWeight vals) p = ((vals.filter fun v => p v.1).map (·.2)).sum := by
  have hsum : ∀ l : Stakes, (l.map fun v => if p v.1 then v.2 else 0).sum =
      ((l.filter fun v => p v.1).map (·.2)).sum := by
    intro l
    induction l with
    | nil => rfl
    | cons v l ih => by_cases hp : p v.1 <;> simp [hp, ih]
  unfold weight voters
  rw [List.sum_toFinset _ hnd, List.map_map, ← hsum vals]
  congr 1
  apply List.map_congr_left
  intro v hv
  by_cases hp : p v.1
  · simp [hp, stakeWeight_of_mem hnd hv]
  · simp [hp]

open scoped Classical in
theorem tally_le_weight (hv : ∀ pk v, votes.get pk = some v → v.validatorPK = pk ∧ pk ∈ vals.map (·.1) ∧
    (v.blockHash = h → p pk)) : tally votes vals h ≤ weight (voters vals) (stakeWeight vals) p := by
  calc tally votes vals h
      ≤ (votes.entries.map fun x => if p x.1 then stakeWeight vals x.1 else 0).sum := by
        apply List.sum_le_sum
        intro x hx
        obtain ⟨h1, -, h2⟩ := hv x.1 x.2 (Bucket.mem_entries.mp hx)
        by_cases hh : x.2.blockHash = h
        · rw [if_pos hh, if_pos (h2 hh), h1]
          rfl
        · rw [if_neg hh]
          exact Nat.zero_le _
    _ = ∑ pk ∈ votes.keys.toFinset, if p pk then stakeWeight vals pk else 0 := by
        rw [List.sum_toFinset _ votes.keys_nodup]
        simp only [Bucket.keys, List.map_map]
        rfl
    _ ≤ weight (voters vals) (stakeWeight vals) p := by
        apply Finset.sum_le_sum_of_subset
        intro pk hpk
        obtain ⟨v, hv'⟩ := Bucket.mem_keys.mp (List.mem_toFinset.mp hpk)
        exact List.mem_toFinset.mpr (hv pk v hv').2.1

theorem decided_quorum (hnd : (vals.map (·.1)).Nodup) (hd : decided votes vals h = true)
    (hv : ∀ pk v, votes.get pk = some v → v.validatorPK = pk ∧ pk ∈ vals.map (·.1) ∧ (v.blockHash = h → p pk)) :
    Quorum (voters vals) (stakeWeight vals) p := by
  have hle := tally_le_weight hv
  unfold decided at hd
  rw [decide_eq_true_eq, totalStake_eq hnd] at hd
  unfold Quorum
  omega

end

end Frg.Consensus
