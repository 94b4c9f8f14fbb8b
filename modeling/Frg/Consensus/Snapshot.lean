/-
  Frg.Consensus.Snapshot — the bytes of a persisted round state
  (`core/consensus/persistence.go`).

  The engine's model keeps round states on its disk (`Disk.snapshot`) and says what a restart
  makes of one (`decodeRoundState`). Here are the bytes in between: the votes of a table in
  whatever order Go enumerates the map, a proposal and an attestation behind their lengths, and
  a decoder that verifies every signature again. What is proved:

    - `encodeRoundState_isOk`: a round state can be written exactly when the engine's model
      says so (`encodable`).
    - `decode_encode`: what is read back from the bytes is what the engine's model reads back,
      for every order of the votes.
    - `attested_reached`: the last attestation of every state a node reaches is the empty one
      or precommits of one round for its block, each verified.
    - `snapshot_restores`: so the round states of a node are read back as they were, but for
      the round of a lock that is not there.
-/

import Frg.Consensus.Attesting
import Frg.Consensus.Certificates
import Frg.Lib.Reader

namespace Frg.Consensus

open Frg.Lib Frg.Core Frg.Wire Frg.Chain Relation

def Phase.byte : Phase → UInt8
  | .propose => 1
  | .prevote => 2
  | .precommit => 3
  | .commit => 4

def Phase.ofByte (b : UInt8) : Option Phase :=
  if b = 1 then some .propose else if b = 2 then some .prevote else if b = 3 then some .precommit
  else if b = 4 then some .commit else none

theorem Phase.ofByte_byte (phase : Phase) : ofByte phase.byte = some phase := by cases phase <;> rfl

namespace Snapshot

/-! ## Writing -/

section

variable (P : Prim)

def serializeOptionalProposal : Option BlockProposal → Res (List UInt8)
  | none => .ok []
  | some p => serializeProposal P p

def serializeAttestation (a : AttestationSet) : Res (List UInt8) :=
  if a.votes = [] then .ok []
  else do
    Go.check (a.votes.length ≤ maxPersistedVotes) (.plain "too many attestation votes")
    return u64 a.height.toNat ++ u32 a.round.toNat ++ a.blockHash.bytes ++ u32 a.votes.length ++
      a.votes.flatMap serializeVote

/-- The votes of a table as the map is enumerated. -/
def enumerate (order : MapOrder) (votes : Bucket Key Vote) : List Vote := (order.list votes.keys).filterMap votes.get

def writeVotes (order : MapOrder) (votes : Bucket Key Vote) : Res (List UInt8) := do
  Go.check (votes.entries.length ≤ maxPersistedVotes) (.plain "too many votes to persist")
  return u32 votes.entries.length ++ (enumerate order votes).flatMap serializeVote

def writeLock : Option Hash → List UInt8
  | some h => [1] ++ h.bytes
  | none => [0]

/-- The two tables are enumerated in orders of their own. -/
def encodeRoundState (order₁ order₂ : MapOrder) (rs : RoundState) : Res (List UInt8) := do
  let proposal ← serializeOptionalProposal P rs.proposal
  let prevotes ← writeVotes order₁ rs.prevotes
  let precommits ← writeVotes order₂ rs.precommits
  let attestation ← serializeAttestation rs.lastAttestation
  return u64 rs.height.toNat ++ u32 rs.round.toNat ++ [rs.phase.byte] ++ writeLock rs.lockedBlock ++
    u32 rs.lockedRound.toUInt32.toNat ++ u32 proposal.length ++ proposal ++ prevotes ++ precommits ++
    u32 attestation.length ++ attestation

end

/-! ## Reading -/

section

variable (P : Prim) (chainID : List UInt8)

/-- An error with the reader's own behind it, and one without. -/
def because (msg : String) (e : ReadErr) : Err := .plain (msg ++ ": " ++ e.text)
def whatever (msg : String) (_ : ReadErr) : Err := .plain msg

def deserializeOptionalProposal (data : List UInt8) : Res (Option BlockProposal) :=
  if data = [] then .ok none
  else do
    let p ← deserializeProposal P data
    Go.check (verifyProposalForChain P p chainID) (.plain "snapshot proposal signature")
    p.txs.forM fun t => verifySigsForChain P t chainID
    return some p

def readAttestationVotes (height : UInt64) (round : UInt32) (blockHash : Hash) : Nat → Act Err (List UInt8) (List Vote)
  | 0 => return []
  | n + 1 => do
    let data ← Reader.read (because "attestation vote") 141
    let vote ← Act.mapErr (fun _ => .plain "attestation vote signature") (.lift (deserializeVote data))
    Act.check (verifyVoteForChain P vote chainID) (.plain "attestation vote signature")
    Act.check (vote.type = VoteType.precommit.code ∧ vote.height = height ∧ vote.round = round ∧
      vote.blockHash = blockHash) (.plain "attestation vote context")
    let votes ← readAttestationVotes height round blockHash n
    return vote :: votes

def readAttestation : Act Err (List UInt8) AttestationSet := do
  let height ← Reader.readUint (because "attestation height") 8
  let round ← Reader.readUint (because "attestation round") 4
  let blockHash ← Reader.read (because "attestation block hash") 32
  let count ← Reader.readUint (whatever "attestation vote count") 4
  let left ← Reader.len
  Act.check (count ≤ maxPersistedVotes ∧ count * 141 ≤ left) (.plain "attestation vote count")
  let votes ← readAttestationVotes P chainID (.ofNat height) (.ofNat round) (wordOf 32 blockHash) count
  let left ← Reader.len
  Act.check (left = 0) (.plain "attestation trailing bytes")
  return { height := .ofNat height, round := .ofNat round, blockHash := wordOf 32 blockHash, votes }

def deserializeAttestation (data : List UInt8) : Res AttestationSet :=
  if data = [] then .ok {} else (readAttestation P chainID data).1

/-- The lock and its round: without a lock the round is the one of a new round state. -/
def readLock : Act Err (List UInt8) (Option Hash × Int32) := do
  let locked ← Reader.readByte (whatever "snapshot lock")
  let lockedHash ← if locked ≠ 0 then Reader.read (because "snapshot locked hash") 32 else pure (List.replicate 32 0)
  let lockedRound ← Reader.readUint (because "snapshot locked round") 4
  return if locked ≠ 0 then (some (wordOf 32 lockedHash), (UInt32.ofNat lockedRound).toInt32) else (none, -1)

/-- The length is compared with 32 bits of what is left. -/
def readProposal : Act Err (List UInt8) (Option BlockProposal) := do
  let proposalLen ← Reader.readUint (whatever "snapshot proposal length") 4
  let left ← Reader.len
  Act.check (proposalLen ≤ left % 2 ^ 32) (.plain "snapshot proposal length")
  let proposalData ← Reader.read (because "snapshot proposal") proposalLen
  Act.lift (deserializeOptionalProposal P chainID proposalData)

def readVotes (votes : Bucket Key Vote) : Nat → Act Err (List UInt8) (Bucket Key Vote)
  | 0 => return votes
  | n + 1 => do
    let data ← Reader.read (because "snapshot vote") 141
    let vote ← Act.lift (deserializeVote data)
    Act.check (verifyVoteForChain P vote chainID) (.plain "snapshot vote signature")
    readVotes (votes.put vote.validatorPK vote) n

def readTable : Act Err (List UInt8) (Bucket Key Vote) := do
  let count ← Reader.readUint (whatever "snapshot vote count") 4
  let left ← Reader.len
  Act.check (count ≤ maxPersistedVotes ∧ count * 141 ≤ left) (.plain "snapshot vote count")
  readVotes P chainID .empty count

/-- Where the data ends behind the votes there is no attestation. -/
def readLastAttestation : Act Err (List UInt8) AttestationSet := do
  let left ← Reader.len
  if 0 < left then
    let attestationLen ← Reader.readUint (whatever "snapshot attestation length") 4
    let left ← Reader.len
    Act.check (attestationLen ≤ left % 2 ^ 32) (.plain "snapshot attestation length")
    let attestationData ←
      if 0 < attestationLen then Reader.read (because "snapshot attestation") attestationLen else pure []
    Act.lift (deserializeAttestation P chainID attestationData)
  else return {}

def readRoundState : Act Err (List UInt8) RoundState := do
  let height ← Reader.readUint (because "snapshot height") 8
  let round ← Reader.readUint (because "snapshot round") 4
  let phase ← Reader.readByte (whatever "snapshot phase")
  let phase ← match Phase.ofByte phase with
    | some phase => pure phase
    | none => Act.fail (.plain "snapshot phase")
  let (lockedBlock, lockedRound) ← readLock
  let proposal ← readProposal P chainID
  let prevotes ← readTable P chainID
  let precommits ← readTable P chainID
  let lastAttestation ← readLastAttestation P chainID
  let left ← Reader.len
  Act.check (left = 0) (.plain "snapshot trailing bytes")
  return { height := .ofNat height, round := .ofNat round, phase, proposal, prevotes, precommits, lockedBlock
           lockedRound, lastAttestation }

def decodeRoundState (data : List UInt8) : Res RoundState := (readRoundState P chainID data).1

end

/-! ## Votes read back -/

section

variable {P : Prim} {chainID : List UInt8} {rest : List UInt8}

theorem read_vote {fault : ReadErr → Err} (v : Vote) (rest : List UInt8) :
    Reader.read fault 141 (serializeVote v ++ rest) = (.ok (serializeVote v), rest) :=
  Reader.read_append (length_serializeVote v) (.inl (by decide))

theorem readVotes_gives : ∀ (vs : List Vote) (votes : Bucket Key Vote),
    (readVotes P chainID votes vs.length).Gives (vs.flatMap serializeVote ++ rest)
      (if vs.all fun v => verifyVoteForChain P v chainID then some (vs.foldl (fun b v => b.put v.validatorPK v) votes)
        else none) rest := by
  intro vs
  induction vs with
  | nil => exact fun _ => rfl
  | cons v vs ih =>
    intro votes
    rw [List.flatMap_cons, List.append_assoc, List.length_cons, readVotes]
    refine .after (read_vote v _) (.after (Act.lift_ok.mpr ⟨deserializeVote_serializeVote v, rfl⟩) ?_)
    refine ((Act.Gives.check _ _).bind fun _ => ih (votes.put v.validatorPK v)).of_eq ?_
    by_cases hv : verifyVoteForChain P v chainID = true
    · simp [hv]
    · simp [hv]

/-- A verified precommit for the attestation's block, in its round. -/
def attests (P : Prim) (chainID : List UInt8) (a : AttestationSet) (v : Vote) : Bool :=
  verifyVoteForChain P v chainID && v.type = VoteType.precommit.code && v.height = a.height && v.round = a.round &&
    v.blockHash = a.blockHash

theorem attests_iff {a : AttestationSet} {v : Vote} : attests P chainID a v = true ↔
    verifyVoteForChain P v chainID = true ∧ v.type = VoteType.precommit.code ∧ v.height = a.height ∧
      v.round = a.round ∧ v.blockHash = a.blockHash := by
  simp only [attests, Bool.and_eq_true, decide_eq_true_eq, and_assoc]

theorem readAttestationVotes_gives (a : AttestationSet) : ∀ vs : List Vote,
    (readAttestationVotes P chainID a.height a.round a.blockHash vs.length).Gives (vs.flatMap serializeVote ++ rest)
      (if vs.all (attests P chainID a) then some vs else none) rest := by
  intro vs
  induction vs with
  | nil => rfl
  | cons v vs ih =>
    rw [List.flatMap_cons, List.append_assoc, List.length_cons, readAttestationVotes]
    refine .after (read_vote v _) ?_
    refine .after (Act.mapErr_ok.mpr (Act.lift_ok.mpr ⟨deserializeVote_serializeVote v, rfl⟩)) ?_
    refine ((Act.Gives.check _ _).bind fun _ => (Act.Gives.check _ _).bind fun _ => ih.bind
      (g := fun votes => some (v :: votes)) fun _ => rfl).of_eq ?_
    rw [List.all_cons]
    by_cases hv : attests P chainID a v = true
    · obtain ⟨hverified, hcontext⟩ := attests_iff.mp hv
      rw [if_pos hverified, if_pos hcontext, hv, Bool.true_and]
      by_cases hvs : vs.all (attests P chainID a) = true
      · rw [if_pos hvs, if_pos hvs]
        rfl
      · rw [if_neg hvs, if_neg hvs]
        rfl
    · have hrhs : ¬ (attests P chainID a v && vs.all (attests P chainID a)) = true := by simp [hv]
      rw [if_neg hrhs]
      by_cases hverified : verifyVoteForChain P v chainID = true
      · rw [if_pos hverified, if_neg fun hcontext => hv (attests_iff.mpr ⟨hverified, hcontext⟩)]
        rfl
      · rw [if_neg hverified]
        rfl

/-! ## The parts of a round state read back -/

section

variable {order : MapOrder} {votes : Bucket Key Vote} {data : List UInt8}

theorem enumerate_perm (order : MapOrder) (votes : Bucket Key Vote) :
    (enumerate order votes).Perm (votes.entries.map (·.2)) := by
  have hkeys : votes.keys.filterMap votes.get = votes.entries.map (·.2) := by
    unfold Bucket.keys
    rw [List.filterMap_map, List.filterMap_eq_map_iff_forall_eq_some.mpr]
    intro x hx
    exact Bucket.mem_entries.mp hx
  exact ((order.perm votes.keys).filterMap votes.get).trans (.of_eq hkeys)

theorem foldl_enumerate (hk : Keyed votes) :
    (enumerate order votes).foldl (fun b v => b.put v.validatorPK v) .empty = votes := by
  have hperm : ((enumerate order votes).map fun v => (v.validatorPK, v)).Perm votes.entries := by
    refine ((enumerate_perm order votes).map _).trans (.of_eq ?_)
    rw [List.map_map]
    refine (List.map_congr_left fun x hx => ?_).trans (List.map_id _)
    exact Prod.ext (hk x.1 x.2 (Bucket.mem_entries.mp hx)) rfl
  have hput := Bucket.foldl_put_perm hperm
  rwa [List.foldl_map] at hput

theorem writeVotes_ok (h : writeVotes order votes = .ok data) : votes.entries.length ≤ maxPersistedVotes ∧
    data = toBE 4 (enumerate order votes).length ++ (enumerate order votes).flatMap serializeVote := by
  obtain ⟨_, hmax, h⟩ := Go.bind_eq_ok.mp h
  have hlen : (enumerate order votes).length = votes.entries.length := by
    rw [(enumerate_perm order votes).length_eq, List.length_map]
  rw [hlen]
  exact ⟨Go.check_eq_ok.mp hmax, (Go.ok.inj h).symm⟩

theorem readTable_gives (hk : Keyed votes) (h : writeVotes order votes = .ok data) :
    (readTable P chainID).Gives (data ++ rest)
      (if votes.entries.all fun x => verifyVoteForChain P x.2 chainID then some votes else none) rest := by
  obtain ⟨hmax, rfl⟩ := writeVotes_ok h
  have hperm := enumerate_perm order votes
  have hlen : (enumerate order votes).length = votes.entries.length := by rw [hperm.length_eq, List.length_map]
  have hmax' : maxPersistedVotes < 256 ^ 4 := by decide
  have hleft : ((enumerate order votes).flatMap serializeVote ++ rest).length =
      141 * (enumerate order votes).length + rest.length := by
    rw [List.length_append, length_flatMap_serializeVote]
  rw [List.append_assoc]
  refine .after (Reader.readUint_toBE (by omega)) (.after (Act.read_ok.mpr ⟨rfl, rfl⟩) ?_)
  refine .checked ⟨by omega, by omega⟩ ((readVotes_gives _ _).of_eq ?_)
  have hall : ((enumerate order votes).all fun v => verifyVoteForChain P v chainID) =
      votes.entries.all fun x => verifyVoteForChain P x.2 chainID := by
    rw [hperm.all_eq, List.all_map]
    rfl
  rw [hall, foldl_enumerate hk]

variable {a : AttestationSet} {p : Option BlockProposal}

theorem readProposal_gives (hlen : (data ++ rest).length < 2 ^ 32) (hrest : rest ≠ []) :
    (readProposal P chainID).Gives (u32 data.length ++ (data ++ rest))
      (deserializeOptionalProposal P chainID data).toOption rest := by
  have hle : data.length ≤ (data ++ rest).length := by
    rw [List.length_append]
    omega
  refine .after (Reader.readUint_toBE (by omega)) (.after (Act.read_ok.mpr ⟨rfl, rfl⟩) ?_)
  refine .checked (by rwa [Nat.mod_eq_of_lt hlen]) (.after (Reader.read_append rfl (.inr hrest)) (.lift _ _))

theorem serializeAttestation_ok (h : serializeAttestation a = .ok data) : a.votes = [] ∧ data = [] ∨
    a.votes ≠ [] ∧ a.votes.length ≤ maxPersistedVotes ∧
      data = toBE 8 a.height.toNat ++ (toBE 4 a.round.toNat ++ (a.blockHash.bytes ++ (toBE 4 a.votes.length ++
        a.votes.flatMap serializeVote))) := by
  unfold serializeAttestation at h
  by_cases hnil : a.votes = []
  · rw [if_pos hnil] at h
    exact .inl ⟨hnil, (Go.ok.inj h).symm⟩
  · rw [if_neg hnil] at h
    obtain ⟨_, hmax, h⟩ := Go.bind_eq_ok.mp h
    obtain rfl := Go.ok.inj h
    refine .inr ⟨hnil, Go.check_eq_ok.mp hmax, ?_⟩
    simp only [u64, u32, List.append_assoc]

theorem readAttestation_gives (hmax : a.votes.length ≤ maxPersistedVotes) :
    (readAttestation P chainID).Gives (toBE 8 a.height.toNat ++ (toBE 4 a.round.toNat ++ (a.blockHash.bytes ++
        (toBE 4 a.votes.length ++ a.votes.flatMap serializeVote))))
      (if a.votes.all (attests P chainID a) then some a else none) [] := by
  have hmax' : maxPersistedVotes < 256 ^ 4 := by decide
  have hleft := length_flatMap_serializeVote a.votes
  refine .after (Reader.readUint_toBE a.height.toNat_lt) (.after (Reader.readUint_toBE a.round.toNat_lt) ?_)
  refine .after (Reader.read_append (length_bytes _) (.inl (by decide))) ?_
  refine .after (Reader.readUint_toBE (by omega)) (.after (Act.read_ok.mpr ⟨rfl, rfl⟩) ?_)
  refine .checked ⟨hmax, by omega⟩ ?_
  simp only [UInt64.ofNat_toNat, UInt32.ofNat_toNat, wordOf_bytes]
  have hvotes : (readAttestationVotes P chainID a.height a.round a.blockHash a.votes.length).Gives
      (a.votes.flatMap serializeVote ++ []) _ [] := readAttestationVotes_gives a a.votes
  rw [List.append_nil] at hvotes
  refine (hvotes.bind (g := fun votes => some { a with votes }) fun votes => ?_).of_eq ?_
  · exact .after (Act.read_ok.mpr ⟨rfl, rfl⟩) (.checked rfl rfl)
  · by_cases hall : a.votes.all (attests P chainID a) = true
    · rw [if_pos hall, if_pos hall]
      rfl
    · rw [if_neg hall, if_neg hall]
      rfl

theorem readLock_gives (lockedBlock : Option Hash) (lockedRound : Int32) :
    readLock.Gives (writeLock lockedBlock ++ (u32 lockedRound.toUInt32.toNat ++ rest))
      (some (lockedBlock, if lockedBlock = none then -1 else lockedRound)) rest := by
  have hround : lockedRound.toUInt32.toNat < 256 ^ 4 := lockedRound.toUInt32.toNat_lt
  cases lockedBlock with
  | none => exact .after (Reader.readByte_cons 0) (.after rfl (.after (Reader.readUint_toBE hround) rfl))
  | some h =>
    rw [writeLock, List.append_assoc, List.singleton_append]
    refine .after (Reader.readByte_cons 1) (.after (Reader.read_append (length_bytes h) (.inl (by decide))) ?_)
    refine .after (Reader.readUint_toBE hround) ?_
    rw [UInt32.ofNat_toNat, Int32.toInt32_toUInt32, wordOf_bytes]
    rfl

end

end

/-! ## Lengths -/

section

variable {P : Prim} {data : List UInt8}

theorem proposalTxs_length {txs : List Tx} (h : proposalTxs P txs = .ok data) : data.length ≤ maxBatchBytes := by
  unfold proposalTxs at h
  by_cases hnil : txs = []
  · rw [if_pos hnil] at h
    rw [← Go.ok.inj h]
    exact Nat.zero_le _
  · rw [if_neg hnil] at h
    obtain ⟨-, -, -, hmax, rfl⟩ := serializeBatch_ok.mp h
    simp only [List.length_append, u16, length_toBE, domainTxBatch, List.length_cons, List.length_nil]
    omega

theorem serializeProposal_length {p : BlockProposal} (h : serializeProposal P p = .ok data) :
    0 < data.length ∧ data.length < 2 ^ 26 := by
  obtain ⟨hvotes, -, txBytes, htxs, hdata⟩ := serializeProposal_ok.mp h
  have hlen : data.length = 192 + 141 * p.prevAttestations.votes.length + txBytes.length := by
    rw [hdata]
    simp only [List.length_append, length_toBE, length_bytes, length_flatMap_serializeVote]
    omega
  have hbatch : txBytes.length ≤ 33554432 := proposalTxs_length htxs
  have hvotes : p.prevAttestations.votes.length ≤ 4096 := hvotes
  clear hdata h htxs
  omega

theorem serializeOptionalProposal_length {p : Option BlockProposal} (h : serializeOptionalProposal P p = .ok data) :
    data.length < 2 ^ 26 := by
  cases p with
  | none =>
    rw [← Go.ok.inj h]
    decide
  | some p => exact (serializeProposal_length h).2

theorem writeVotes_length {order : MapOrder} {votes : Bucket Key Vote} (h : writeVotes order votes = .ok data) :
    0 < data.length ∧ data.length < 2 ^ 20 := by
  obtain ⟨hmax, rfl⟩ := writeVotes_ok h
  have hlen : (enumerate order votes).length = votes.entries.length := by
    rw [(enumerate_perm order votes).length_eq, List.length_map]
  have hmaxVotes : maxPersistedVotes = 4096 := rfl
  simp only [List.length_append, length_toBE, length_flatMap_serializeVote]
  omega

theorem serializeAttestation_length {a : AttestationSet} (h : serializeAttestation a = .ok data) :
    data.length < 2 ^ 20 := by
  rcases serializeAttestation_ok h with ⟨-, rfl⟩ | ⟨-, hmax, rfl⟩
  · decide
  · have hmaxVotes : maxPersistedVotes = 4096 := rfl
    simp only [List.length_append, length_toBE, length_bytes, length_flatMap_serializeVote]
    omega

end

/-! ## What the engine's model keeps of the bytes -/

section

variable {σ : Type} (c : Config σ)

def restoreOptional : Option BlockProposal → Option (Option BlockProposal)
  | none => some none
  | some p => (restoreProposal c p).map some

def restoreTable (votes : Bucket Key Vote) : Option (Bucket Key Vote) :=
  if votes.entries.all fun x => verifyVoteForChain c.W.toPrim x.2 c.chainID then some votes else none

theorem decodeRoundState_parts (rs : RoundState) : Consensus.decodeRoundState c rs =
    (restoreOptional c rs.proposal).bind fun proposal => (restoreTable c rs.prevotes).bind fun prevotes =>
      (restoreTable c rs.precommits).bind fun precommits =>
        (restoreAttestation c rs.lastAttestation).bind fun lastAttestation =>
          some { rs with proposal, prevotes, precommits, lastAttestation
                         lockedRound := if rs.lockedBlock = none then -1 else rs.lockedRound } := by
  unfold Consensus.decodeRoundState restoreTable
  simp only [bind_ite_ite]
  cases hp : rs.proposal with
  | none =>
    cases restoreAttestation c rs.lastAttestation with
    | none => exact (ite_self none).symm
    | some a => rfl
  | some p =>
    dsimp only [restoreOptional]
    cases restoreProposal c p with
    | none => cases restoreAttestation c rs.lastAttestation <;> rfl
    | some q =>
      cases restoreAttestation c rs.lastAttestation with
      | none => exact (ite_self none).symm
      | some a => rfl

variable {c} {data : List UInt8}

theorem deserializeOptionalProposal_restores {p : Option BlockProposal}
    (h : serializeOptionalProposal c.W.toPrim p = .ok data) :
    (deserializeOptionalProposal c.W.toPrim c.chainID data).toOption = restoreOptional c p := by
  unfold deserializeOptionalProposal
  cases p with
  | none =>
    obtain rfl := Go.ok.inj h
    rfl
  | some p =>
    have hser : serializeProposal c.W.toPrim p = .ok data := h
    have hne : data ≠ [] := List.ne_nil_of_length_pos (serializeProposal_length hser).1
    rw [if_neg hne]
    show _ = (restoreProposal c p).map some
    unfold restoreProposal
    rw [hser, Go.ok_bind]
    cases hd : deserializeProposal c.W.toPrim data with
    | ok q =>
      rw [Go.ok_bind]
      dsimp only
      by_cases hv : verifyProposalForChain c.W.toPrim q c.chainID = true
      · rw [Go.check_pos hv, Go.ok_bind]
        cases hsigs : q.txs.forM fun t => verifySigsForChain c.W.toPrim t c.chainID with
        | ok u =>
          rw [if_pos ⟨hv, rfl⟩]
          rfl
        | err e =>
          rw [if_neg fun hh => by cases hh.2]
          rfl
        | panic w =>
          rw [if_neg fun hh => by cases hh.2]
          rfl
      · rw [Go.check_neg hv, Go.err_bind, if_neg fun hh => hv hh.1]
        rfl
    | err e => rfl
    | panic w => rfl

theorem deserializeAttestation_restores {a : AttestationSet} (h : serializeAttestation a = .ok data) :
    (deserializeAttestation c.W.toPrim c.chainID data).toOption = restoreAttestation c a := by
  rcases serializeAttestation_ok h with ⟨hnil, rfl⟩ | ⟨hne, hmax, rfl⟩
  · unfold deserializeAttestation restoreAttestation
    rw [if_pos rfl, if_pos hnil]
    rfl
  · unfold deserializeAttestation restoreAttestation
    rw [if_neg hne, if_neg]
    · exact (readAttestation_gives hmax).toOption
    · intro hnil
      have hlen := congrArg List.length hnil
      simp only [List.length_append, length_toBE, List.length_nil] at hlen
      omega

theorem readLastAttestation_gives {a : AttestationSet} (h : serializeAttestation a = .ok data) :
    (readLastAttestation c.W.toPrim c.chainID).Gives (u32 data.length ++ data) (restoreAttestation c a) [] := by
  have hlen := serializeAttestation_length h
  have hleft : 0 < (u32 data.length ++ data).length := by
    rw [List.length_append, u32, length_toBE]
    omega
  refine .after (Act.read_ok.mpr ⟨rfl, rfl⟩) ?_
  rw [if_pos hleft]
  refine .after (Reader.readUint_toBE (by omega)) (.after (Act.read_ok.mpr ⟨rfl, rfl⟩) ?_)
  refine .checked (by rw [Nat.mod_eq_of_lt (by omega)]) ?_
  have hlift := (Act.Gives.lift (deserializeAttestation c.W.toPrim c.chainID data) ([] : List UInt8)).of_eq
    (deserializeAttestation_restores h)
  by_cases hpos : 0 < data.length
  · rw [if_pos hpos]
    have hread : Reader.read (because "snapshot attestation") data.length (data ++ []) = (.ok data, []) :=
      Reader.read_append rfl (.inl hpos)
    rw [List.append_nil] at hread
    exact .after hread hlift
  · obtain rfl : data = [] := List.length_eq_zero_iff.mp (Nat.eq_zero_of_not_pos hpos)
    exact .after rfl hlift

theorem encodeRoundState_ok {P : Prim} {order₁ order₂ : MapOrder} {rs : RoundState}
    (h : encodeRoundState P order₁ order₂ rs = .ok data) : ∃ proposal prevotes precommits attestation,
      serializeOptionalProposal P rs.proposal = .ok proposal ∧ writeVotes order₁ rs.prevotes = .ok prevotes ∧
      writeVotes order₂ rs.precommits = .ok precommits ∧ serializeAttestation rs.lastAttestation = .ok attestation ∧
      data = toBE 8 rs.height.toNat ++ (toBE 4 rs.round.toNat ++ (rs.phase.byte :: (writeLock rs.lockedBlock ++
        (u32 rs.lockedRound.toUInt32.toNat ++ (u32 proposal.length ++ (proposal ++ (prevotes ++ (precommits ++
        (u32 attestation.length ++ attestation))))))))) := by
  obtain ⟨proposal, hproposal, h⟩ := Go.bind_eq_ok.mp h
  obtain ⟨prevotes, hprevotes, h⟩ := Go.bind_eq_ok.mp h
  obtain ⟨precommits, hprecommits, h⟩ := Go.bind_eq_ok.mp h
  obtain ⟨attestation, hattestation, h⟩ := Go.bind_eq_ok.mp h
  refine ⟨proposal, prevotes, precommits, attestation, hproposal, hprevotes, hprecommits, hattestation, ?_⟩
  rw [← Go.ok.inj h]
  simp only [u64, u32, List.append_assoc, List.cons_append, List.nil_append]

theorem decode_encode {order₁ order₂ : MapOrder} {rs : RoundState} (hk₁ : Keyed rs.prevotes) (hk₂ : Keyed rs.precommits)
    (h : encodeRoundState c.W.toPrim order₁ order₂ rs = .ok data) :
    (decodeRoundState c.W.toPrim c.chainID data).toOption = Consensus.decodeRoundState c rs := by
  obtain ⟨proposal, prevotes, precommits, attestation, hproposal, hprevotes, hprecommits, hattestation, rfl⟩ :=
    encodeRoundState_ok h
  have hlen₁ := serializeOptionalProposal_length hproposal
  have hlen₂ := writeVotes_length hprevotes
  have hlen₃ := writeVotes_length hprecommits
  have hlen₄ := serializeAttestation_length hattestation
  have hu32 : (u32 attestation.length).length = 4 := length_toBE 4 _
  suffices hgives : (readRoundState c.W.toPrim c.chainID).Gives _ (Consensus.decodeRoundState c rs) [] from
    hgives.toOption
  rw [decodeRoundState_parts]
  refine .after (Reader.readUint_toBE rs.height.toNat_lt) (.after (Reader.readUint_toBE rs.round.toNat_lt) ?_)
  refine .after (Reader.readByte_cons _) ?_
  rw [Phase.ofByte_byte]
  refine .after rfl (.after (readLock_gives _ _) ?_)
  refine ((readProposal_gives ?_ ?_).of_eq (deserializeOptionalProposal_restores hproposal)).bind fun p => ?_
  · simp only [List.length_append]
    omega
  · apply List.ne_nil_of_length_pos
    simp only [List.length_append]
    omega
  refine (readTable_gives hk₁ hprevotes).bind fun t₁ => (readTable_gives hk₂ hprecommits).bind fun t₂ => ?_
  refine (readLastAttestation_gives hattestation).bind fun a => ?_
  refine .after (Act.read_ok.mpr ⟨rfl, rfl⟩) (.checked rfl ?_)
  rw [UInt64.ofNat_toNat, UInt32.ofNat_toNat]
  rfl

theorem encodeRoundState_isOk (order₁ order₂ : MapOrder) (rs : RoundState) :
    (∃ data, encodeRoundState c.W.toPrim order₁ order₂ rs = .ok data) ↔ encodable c rs = true := by
  unfold encodable
  simp only [Bool.and_eq_true, decide_eq_true_eq]
  constructor
  · rintro ⟨data, h⟩
    obtain ⟨proposal, prevotes, precommits, attestation, hproposal, hprevotes, hprecommits, hattestation, -⟩ :=
      encodeRoundState_ok h
    refine ⟨⟨⟨?_, (writeVotes_ok hprevotes).1⟩, (writeVotes_ok hprecommits).1⟩, ?_⟩
    · cases hp : rs.proposal with
      | none => rfl
      | some p =>
        rw [hp] at hproposal
        exact Go.isOk_iff.mpr ⟨proposal, hproposal⟩
    · rcases serializeAttestation_ok hattestation with ⟨hnil, -⟩ | ⟨-, hmax, -⟩
      · rw [hnil]
        exact Nat.zero_le _
      · exact hmax
  · rintro ⟨⟨⟨hproposal, hprevotes⟩, hprecommits⟩, hattestation⟩
    have hproposal : ∃ proposal, serializeOptionalProposal c.W.toPrim rs.proposal = .ok proposal := by
      cases hp : rs.proposal with
      | none => exact ⟨[], rfl⟩
      | some p =>
        rw [hp] at hproposal
        exact Go.isOk_iff.mp hproposal
    have hattestation : ∃ attestation, serializeAttestation rs.lastAttestation = .ok attestation := by
      unfold serializeAttestation
      by_cases hnil : rs.lastAttestation.votes = []
      · exact ⟨_, if_pos hnil⟩
      · rw [if_neg hnil, Go.check_pos hattestation]
        exact ⟨_, rfl⟩
    obtain ⟨proposal, hproposal⟩ := hproposal
    obtain ⟨attestation, hattestation⟩ := hattestation
    unfold encodeRoundState writeVotes
    rw [hproposal, Go.ok_bind, Go.check_pos hprevotes, Go.check_pos hprecommits, hattestation]
    exact ⟨_, rfl⟩

end

/-! ## The last attestation of a reachable state -/

section

variable {σ : Type} {c : Config σ} {rs rs' : RoundState} {s s' : Core}

/-- The last attestation is read back as it is. -/
def Lasts (c : Config σ) (rs : RoundState) : Prop := restoreAttestation c rs.lastAttestation = some rs.lastAttestation

structure LastsCore (c : Config σ) (s : Core) : Prop where
  tabled : TabledCore c.W c.chainID s
  rs : Lasts c s.rs
  snapshot : ∀ rs, s.snapshot = some rs → Lasts c rs

theorem Lasts.of_decided {vals : Stakes} {h : Hash} (hs : Tabled c.W c.chainID rs)
    (hd : decided rs.precommits vals h = true) :
    restoreAttestation c (attestationFromPrecommits rs.precommits h) =
      some (attestationFromPrecommits rs.precommits h) := by
  have hheard : ∀ pk v, rs.precommits.get pk = some v → Heard c.W c.chainID rs .precommit pk v := hs .precommit
  have hne := attestation_ne_nil (fun pk v e => (hheard pk v e).type) hd
  obtain ⟨hheight, hround, -⟩ := attestation_iff hheard hd
  unfold restoreAttestation
  rw [if_neg hne, if_pos]
  rw [List.all_eq_true]
  intro v hv
  obtain ⟨⟨pk, hget⟩, htype, hhash⟩ := mem_attestation.mp hv
  have hvote := hheard pk v hget
  exact attests_iff.mpr ⟨hvote.verified, htype, hvote.height.trans hheight.symm, hvote.round.trans hround.symm,
    hhash.trans attestation_blockHash.symm⟩

theorem LastsCore.move {ρ : Rules} (h : LastsCore c s) (hm : Move c ρ s s') : LastsCore c s' := by
  refine ⟨h.tabled.move hm, ?_, ?_⟩
  · cases hm with
    | lock | abstain | enter =>
      rw [Core.cast_rs]
      exact h.rs
    | prevote | precommit | polka | next | restart | decide | refuse | persist => exact h.rs
  · cases hm with
    | lock | abstain | enter =>
      rw [Core.cast_snapshot]
      exact h.snapshot
    | prevote | precommit | polka | next | restart | decide | refuse => exact h.snapshot
    | persist => exact fun rs e => Option.some.inj e ▸ h.rs

theorem LastsCore.moves {ρ : Rules} (h : LastsCore c s) (hm : Moves c ρ s s') : LastsCore c s' :=
  run_keeps (fun h hm => h.move hm) hm h

theorem LastsCore.next {vals : Stakes} {x : Hash} (h : LastsCore c s) (hd : decided s.rs.precommits vals x = true)
    (hn : Next s s' x) : LastsCore c s' := by
  have hrs : Lasts c s'.rs := by
    rw [hn.rs]
    exact Lasts.of_decided h.tabled.rs hd
  refine ⟨h.tabled.next hn, hrs, fun rs e => ?_⟩
  rcases hn.snapshot with h0 | h1 | h2
  · rw [h0] at e
    cases e
  · exact h.snapshot rs (h1 ▸ e)
  · rw [h2] at e
    exact Option.some.inj e ▸ hrs

theorem Lasts.decoded (hs : Lasts c rs) (h : Consensus.decodeRoundState c rs = some rs') : Lasts c rs' := by
  rw [decodeRoundState_parts] at h
  obtain ⟨_, -, h⟩ := Option.bind_eq_some_iff.mp h
  obtain ⟨_, -, h⟩ := Option.bind_eq_some_iff.mp h
  obtain ⟨_, -, h⟩ := Option.bind_eq_some_iff.mp h
  obtain ⟨a, ha, h⟩ := Option.bind_eq_some_iff.mp h
  obtain rfl := Option.some.inj h
  obtain rfl := Option.some.inj (hs.symm.trans ha)
  exact ha

theorem start_lasts {disk : Disk} {pool : σ} {history : List Entry}
    (ht : ∀ rs, disk.snapshot = some rs → Tabled c.W c.chainID rs) (hs : ∀ rs, disk.snapshot = some rs → Lasts c rs) :
    LastsCore c (start c disk pool history).core := by
  have hnew : Lasts c (.new (disk.db.height + 1)) := rfl
  obtain ⟨hrs, hsnap⟩ := start_keeps c hnew Lasts.decoded hs pool history
  exact ⟨start_tabled ht, hrs, hsnap⟩

theorem LastsCore.life {e e' : Engine σ} (h : LastsCore c e.core) (hs : LifeStep c e e') : LastsCore c e'.core := by
  obtain ⟨_, hs⟩ := hs
  cases hs with
  | @input fault order i _ _ hs =>
    obtain ⟨-, rfl⟩ := step_eq_some hs
    have h : LastsCore (c.failing fault) e.core := ⟨h.tabled, h.rs, h.snapshot⟩
    have h' : LastsCore (c.failing fault) (handle (c.failing fault) order e i).core := by
      rcases handle_core (Permits.free (c.failing fault) order e i) with hm | ⟨s, x, vals, hm, hd, hn⟩
      · exact h.moves hm
      · exact (h.moves hm).next hd hn
    exact ⟨h'.tabled, h'.rs, h'.snapshot⟩
  | crash hsnap =>
    exact start_lasts (fun rs e => h.tabled.snapshot rs (hsnap.symm.trans e))
      fun rs e => h.snapshot rs (hsnap.symm.trans e)

theorem attested_reached {disk : Disk} {pool : σ} {history : List Entry} {e : Engine σ} (hd : disk.snapshot = none)
    (hrun : ReflTransGen (LifeStep c) (start c disk pool history) e) : LastsCore c e.core := by
  have hnone : ∀ rs, disk.snapshot ≠ some rs := by
    intro rs e
    rw [hd] at e
    cases e
  exact run_keeps (I := fun e => LastsCore c e.core) (fun h hs => h.life hs) hrun
    (start_lasts (fun rs e => absurd e (hnone rs)) fun rs e => absurd e (hnone rs))

/-! ## Reachable round states -/

/-- The proposal came in as bytes and passed the checks of `handleProposal`. -/
def Received (c : Config σ) (p : BlockProposal) : Prop :=
  ∃ raw e, parseProposal c raw = .ok (some p) ∧ checkProposal c p e = .ok ()

theorem parseProposal_some {raw : List UInt8} {p : BlockProposal} (h : parseProposal c raw = .ok (some p)) :
    deserializeProposal c.W.toPrim raw = .ok p ∧ verifyProposalForChain c.W.toPrim p c.chainID = true := by
  unfold parseProposal at h
  split at h
  · rename_i q hq
    have h := Go.ok.inj h
    by_cases hv : verifyProposalForChain c.W.toPrim q c.chainID = true
    · rw [if_pos hv] at h
      obtain rfl := Option.some.inj h
      exact ⟨hq, hv⟩
    · rw [if_neg hv] at h
      cases h
  · cases h
  · cases h

theorem Received.restores {p : BlockProposal} (h : Received c p) :
    (∃ data, serializeProposal c.W.toPrim p = .ok data) ∧ restoreProposal c p = some p := by
  obtain ⟨raw, e, hparse, hcheck⟩ := h
  obtain ⟨hread, hverified⟩ := parseProposal_some hparse
  have hser := deserializeProposal_canonical hread
  obtain ⟨_, hsigs, -⟩ := Go.bind_eq_ok.mp hcheck
  refine ⟨⟨raw, hser⟩, ?_⟩
  unfold restoreProposal
  rw [hser, Go.ok_bind, hread]
  exact if_pos ⟨hverified, Go.isOk_iff.mpr ⟨_, hsigs⟩⟩

theorem restoreTable_tabled (h : Tabled c.W c.chainID rs) (t : VoteType) :
    restoreTable c (rs.table t) = some (rs.table t) := by
  apply if_pos
  rw [List.all_eq_true]
  intro x hx
  exact (h t x.1 x.2 (Bucket.mem_entries.mp hx)).verified

/-- The round state of a node is written, and read back as it was, whatever the order of its
    votes. -/
theorem snapshot_restores {disk : Disk} {pool : σ} {history : List Entry} {e : Engine σ} (hd : disk.snapshot = none)
    (hrun : ReflTransGen (LifeStep c) (start c disk pool history) e)
    (hprevotes : e.rs.prevotes.entries.length ≤ maxPersistedVotes)
    (hprecommits : e.rs.precommits.entries.length ≤ maxPersistedVotes)
    (hattestation : e.rs.lastAttestation.votes.length ≤ maxPersistedVotes)
    (hproposal : ∀ p, e.rs.proposal = some p → Received c p) (order₁ order₂ : MapOrder) :
    ∃ data, encodeRoundState c.W.toPrim order₁ order₂ e.rs = .ok data ∧
      decodeRoundState c.W.toPrim c.chainID data =
        .ok { e.rs with lockedRound := if e.rs.lockedBlock = none then -1 else e.rs.lockedRound } := by
  obtain ⟨htabled, hlasts, -⟩ := attested_reached hd hrun
  have htabled : Tabled c.W c.chainID e.rs := htabled.rs
  have hlasts : restoreAttestation c e.rs.lastAttestation = some e.rs.lastAttestation := hlasts
  have hrestored : restoreOptional c e.rs.proposal = some e.rs.proposal := by
    cases hp : e.rs.proposal with
    | none => rfl
    | some p => exact congrArg (Option.map some) (hproposal p hp).restores.2
  have hencodable : encodable c e.rs = true := by
    unfold encodable
    simp only [Bool.and_eq_true, decide_eq_true_eq]
    refine ⟨⟨⟨?_, hprevotes⟩, hprecommits⟩, hattestation⟩
    cases hp : e.rs.proposal with
    | none => rfl
    | some p => exact Go.isOk_iff.mpr (hproposal p hp).restores.1
  obtain ⟨data, hdata⟩ := (encodeRoundState_isOk order₁ order₂ e.rs).mpr hencodable
  have hread := decode_encode (c := c) (htabled.keyed .prevote) (htabled.keyed .precommit) hdata
  have h₁ : restoreTable c e.rs.prevotes = some e.rs.prevotes := restoreTable_tabled htabled .prevote
  have h₂ : restoreTable c e.rs.precommits = some e.rs.precommits := restoreTable_tabled htabled .precommit
  rw [decodeRoundState_parts, hrestored, h₁, h₂, hlasts] at hread
  exact ⟨data, hdata, Go.toOption_eq_some.mp hread⟩

end

/-- Validator 3 has the proposal for height 2, and the precommits of height 1 as its last
    attestation. -/
def secondProposed : Option (Engine Mempool) := do
  let e ← firstCommitted
  step (.node World.sample defaultChainID 3) .id e (sent (nextProposal e.prevStateRoot e.rs.lastAttestation))

theorem secondProposed_reaches {e : Engine Mempool} (h : secondProposed = some e) :
    ReflTransGen (LifeStep (.node World.sample defaultChainID 3)) (member 3) e := by
  unfold secondProposed at h
  dsimp only [Option.bind_eq_bind] at h
  obtain ⟨e₁, hfirst, h⟩ := Option.bind_eq_some_iff.mp h
  have hstep : ∀ a i b, step (.node World.sample defaultChainID 3) .id a i = some b →
      LifeStep (.node World.sample defaultChainID 3) a b := fun a i b hs => .input (fun _ => none) trivial hs
  exact (foldlM_reaches hstep hfirst).tail (hstep _ _ _ h)

theorem snapshot_restores_second : ∃ e p data, secondProposed = some e ∧ e.rs.proposal = some p ∧
    e.rs.lastAttestation.votes.length = 2 ∧ encodeRoundState Prim.sample .id .id e.rs = .ok data ∧
    decodeRoundState Prim.sample defaultChainID data =
      .ok { e.rs with lockedRound := if e.rs.lockedBlock = none then -1 else e.rs.lockedRound } := by
  have hrun : (secondProposed.any fun e => decide (e.rs.prevotes.entries.length ≤ 4096 ∧
      e.rs.precommits.entries.length ≤ 4096 ∧ e.rs.lastAttestation.votes.length = 2) && e.rs.proposal.any fun p =>
        (serializeProposal Prim.sample p).toOption.any fun raw =>
          decide (parseProposal (.node World.sample defaultChainID 3) raw = .ok (some p) ∧
            checkProposal (.node World.sample defaultChainID 3) p e = .ok ())) = true := by
    decide +kernel
  obtain ⟨e, he, hall⟩ := (Option.any_eq_true _ _).mp hrun
  obtain ⟨hcounts, hall⟩ := Bool.and_eq_true_iff.mp hall
  obtain ⟨h₁, h₂, h₃⟩ := of_decide_eq_true hcounts
  obtain ⟨p, hp, hall⟩ := (Option.any_eq_true _ _).mp hall
  obtain ⟨raw, -, hall⟩ := (Option.any_eq_true _ _).mp hall
  have hreceived : ∀ q, e.rs.proposal = some q → Received (.node World.sample defaultChainID 3) q := by
    intro q hq
    obtain rfl := Option.some.inj (hp.symm.trans hq)
    exact ⟨raw, e, of_decide_eq_true hall⟩
  have h₃' : e.rs.lastAttestation.votes.length ≤ maxPersistedVotes := by
    rw [h₃]
    decide
  have hdisk : (⟨threeDB, [], none⟩ : Disk).snapshot = none := rfl
  obtain ⟨data, hdata, hread⟩ := snapshot_restores hdisk (secondProposed_reaches he) h₁ h₂ h₃' hreceived .id .id
  exact ⟨e, p, data, he, hp, h₃, hdata, hread⟩

end Snapshot

end Frg.Consensus
