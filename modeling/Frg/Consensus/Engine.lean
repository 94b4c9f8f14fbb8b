/-
  Frg.Consensus.Engine — the consensus engine of one node (`core/consensus/consensus.go`):
  the round state with its lock, the handlers for votes, proposals, timeouts and the
  delayed proposal, the durable vote slots and the persisted round state.

  Everything runs on the goroutine of `Start`, and `handleVote` calls itself through
  `broadcastPrecommit`, `restartRound` and `broadcastProposal`. The calls still to be made
  are a stack of frames: a handler runs up to the vote it casts, pushes a frame for it and
  one for the persist behind it, and `resume` runs the frame on top. The select loop is
  reached again when the stack is empty. So the state between two steps is one a crash can
  meet, and a whole event is its input followed by `resume` until the stack is empty.

  `validators` is the copy of the validator set that `Start` passes to the handlers;
  frames carry the copy their call was made with. `history` is ghost state, newest entry
  first, and nothing reads it back. A timer is armed with the height and round it was
  armed in. Ed25519 signing does not fail, and the database is read without errors; a
  write transaction fails when `fault` says so, and then leaves the database as it was.
-/

import Frg.Consensus.Vote

namespace Frg.Consensus

open Frg.Lib Frg.Core Frg.Wire Frg.Chain

inductive Phase where
  | propose
  | prevote
  | precommit
  | commit
  deriving DecidableEq, Repr

structure RoundState where
  height : UInt64
  round : UInt32
  phase : Phase
  proposal : Option BlockProposal
  prevotes : Bucket Key Vote
  precommits : Bucket Key Vote
  lockedBlock : Option Hash
  lockedRound : Int32
  lastAttestation : AttestationSet

namespace RoundState

def new (height : UInt64) : RoundState :=
  { height, round := 0, phase := .propose, proposal := none, prevotes := .empty, precommits := .empty
    lockedBlock := none, lockedRound := -1, lastAttestation := {} }

def toPhase (rs : RoundState) (phase : Phase) : RoundState := { rs with phase }

/-- The next round: no proposal and no votes, the lock stays. -/
def incrementRound (rs : RoundState) : RoundState :=
  { rs with round := rs.round + 1, phase := .propose, proposal := none, prevotes := .empty, precommits := .empty }

def lock (rs : RoundState) (blockHash : Hash) (round : UInt32) : RoundState :=
  { rs with lockedBlock := some blockHash, lockedRound := round.toInt32 }

def unlock (rs : RoundState) : RoundState := { rs with lockedBlock := none, lockedRound := -1 }

/-- `startNextRound` resets the locked block, not its round. -/
def nextHeight (rs : RoundState) : RoundState :=
  { rs with height := rs.height + 1, round := 0, phase := .propose, proposal := none, prevotes := .empty
            precommits := .empty, lockedBlock := none }

end RoundState

/-- What the engine is built on: the `Proposer` interface with the optional
    `StateRootProposer` and `RejectingProposer`, and the transactions that reach it. A node
    without a proposer is one that never proposes. -/
structure Proposer (σ : Type) where
  propose : σ → UInt64 → UInt32 → AttestationSet → Hash → Option BlockProposal
  onCommit : σ → UInt64 → List Tx → σ
  onReject : σ → UInt64 → List Tx → σ
  enqueue : σ → Tx → σ

/-- The write transactions of the engine: a vote slot, the round state, its removal, a block. -/
inductive Write where
  | slot (height : UInt64) (round : UInt32) (type : VoteType)
  | snapshot (rs : RoundState)
  | clear
  | block (b : Block)

structure Config (σ : Type) where
  W : World
  chainID : List UInt8
  self : Key
  proposer : Proposer σ
  /-- The error of a write transaction that fails at its commit. -/
  fault : Write → Option Err

/-- A call the goroutine still has to make: `handleVote` on a vote of its own, the persist
    at the end of a handler, or the commit branch of `Start`. -/
inductive Frame where
  | vote (v : Vote) (vals : Stakes)
  | persist
  | recommit
  deriving DecidableEq, Repr

/-- What has happened so far. A `cast` keeps the lock of its moment, a `polka` is a hash
    `quorumBlock` finds among the prevotes. -/
inductive Entry where
  | cast (type : VoteType) (height : UInt64) (round : UInt32) (blockHash : Hash) (lockedBlock : Option Hash)
  | polka (height : UInt64) (round : UInt32) (blockHash : Hash)
  | locked (blockHash : Hash)
  | unlocked
  | refused (height : UInt64) (blockHash : Hash)
  | committed (height : UInt64) (blockHash : Hash)
  deriving DecidableEq, Repr

/-- What survives a crash: the chain, the reserved vote slots, the persisted round state. -/
structure Disk where
  db : DB
  slots : List (UInt64 × UInt32 × VoteType)
  snapshot : Option RoundState

structure Engine (σ : Type) where
  rs : RoundState
  validators : Stakes
  disk : Disk
  pool : σ
  proposeTimer : Option (UInt64 × UInt32)
  prevoteTimer : Option (UInt64 × UInt32)
  precommitTimer : Option (UInt64 × UInt32)
  /-- Pending `AfterFunc` calls, and the buffered `proposeReady` signal. -/
  delayed : Nat
  ready : Bool
  stack : List Frame
  halted : Bool
  history : List Entry

variable {σ : Type}

namespace Engine

def now (e : Engine σ) : UInt64 × UInt32 := (e.rs.height, e.rs.round)

def note (e : Engine σ) (x : Entry) : Engine σ := { e with history := x :: e.history }

/-- The prevotes have more than two thirds for a hash. -/
def notePolka (e : Engine σ) : Option Hash → Engine σ
  | some h => e.note (.polka e.rs.height e.rs.round h)
  | none => e

def setPhase (e : Engine σ) (phase : Phase) : Engine σ := { e with rs := e.rs.toPhase phase }

def push (e : Engine σ) (f : Frame) : Engine σ := { e with stack := f :: e.stack }

def lock (e : Engine σ) (blockHash : Hash) : Engine σ :=
  { e with rs := e.rs.lock blockHash e.rs.round, history := .locked blockHash :: e.history }

def prevStateRoot (e : Engine σ) : Hash := e.disk.db.stateRoot

end Engine

variable (c : Config σ)

/-! ## The persisted round state -/

def maxPersistedVotes : Nat := 4096

/-- `encodeRoundState` succeeds. -/
def encodable (rs : RoundState) : Bool :=
  (match rs.proposal with | none => true | some p => (serializeProposal c.W.toPrim p).isOk) &&
    rs.prevotes.entries.length ≤ maxPersistedVotes && rs.precommits.entries.length ≤ maxPersistedVotes &&
    rs.lastAttestation.votes.length ≤ maxPersistedVotes

def Engine.persist (e : Engine σ) : Engine σ :=
  if encodable c e.rs && c.fault (.snapshot e.rs) = none then { e with disk := { e.disk with snapshot := some e.rs } }
  else e

/-- The stored proposal, read back and verified again. -/
def restoreProposal (p : BlockProposal) : Option BlockProposal :=
  match serializeProposal c.W.toPrim p >>= deserializeProposal c.W.toPrim with
  | .ok p =>
    if verifyProposalForChain c.W.toPrim p c.chainID ∧
        ((p.txs.forM fun t => verifySigsForChain c.W.toPrim t c.chainID).isOk = true) then some p
    else none
  | _ => none

/-- The stored attestation, read back and verified again: without votes it is the empty one. -/
def restoreAttestation (a : AttestationSet) : Option AttestationSet :=
  if a.votes = [] then some {}
  else if a.votes.all fun v => verifyVoteForChain c.W.toPrim v c.chainID && v.type = VoteType.precommit.code &&
      v.height = a.height && v.round = a.round && v.blockHash = a.blockHash then some a
  else none

/-- `decodeRoundState` on what `encodeRoundState` wrote for `rs`. -/
def decodeRoundState (rs : RoundState) : Option RoundState :=
  let verified (votes : Bucket Key Vote) := votes.entries.all fun x => verifyVoteForChain c.W.toPrim x.2 c.chainID
  let proposal := match rs.proposal with
    | none => some none
    | some p => (restoreProposal c p).map some
  match proposal, restoreAttestation c rs.lastAttestation with
  | some proposal, some lastAttestation =>
    if verified rs.prevotes ∧ verified rs.precommits then
      some { rs with proposal, lastAttestation, lockedRound := if rs.lockedBlock = none then -1 else rs.lockedRound }
    else none
  | _, _ => none

theorem decodeRoundState_some {rs rs' : RoundState} (h : decodeRoundState c rs = some rs') :
    ∃ proposal lastAttestation, rs' = { rs with
      proposal, lastAttestation, lockedRound := if rs.lockedBlock = none then -1 else rs.lockedRound } := by
  unfold decodeRoundState at h
  dsimp only at h
  split at h
  · split at h
    · exact ⟨_, _, (Option.some.inj h).symm⟩
    · cases h
  · cases h

/-! ## Casting votes -/

/-- The proposer of the current round; the zero key when there is none. -/
def proposerOf (e : Engine σ) (vals : Stakes) : Key :=
  match skipProposer c.W.toPrim e.prevStateRoot e.rs.height (vals.map (·.1)) e.rs.round with
  | .ok pk => pk
  | _ => 0

def signVote (type : VoteType) (height : UInt64) (round : UInt32) (blockHash : Hash) : Vote :=
  let v : Vote := { type := type.code, height, round, blockHash, validatorPK := c.self, sig := 0 }
  { v with sig := c.W.sign c.self (voteSignBytesForChain v c.chainID) }

/-- The slots after `RecordConsensusVote` on a free one: it returns true also when the write
    that reserves the slot fails. -/
def recordConsensusVote (height : UInt64) (round : UInt32) (type : VoteType)
    (slots : List (UInt64 × UInt32 × VoteType)) : List (UInt64 × UInt32 × VoteType) :=
  if c.fault (.slot height round type) = none then (height, round, type) :: slots else slots

/-- `broadcastPrevote` and `broadcastPrecommit` up to `handleVote` on the vote: the slot is
    reserved first, and a reserved slot casts nothing. -/
def castVote (type : VoteType) (blockHash : Hash) (vals : Stakes) (e : Engine σ) : Engine σ :=
  if (e.rs.height, e.rs.round, type) ∈ e.disk.slots then e
  else
    { e with
      disk := { e.disk with slots := recordConsensusVote c e.rs.height e.rs.round type e.disk.slots }
      stack := .vote (signVote c type e.rs.height e.rs.round blockHash) vals :: e.stack
      history := .cast type e.rs.height e.rs.round blockHash e.rs.lockedBlock :: e.history }

def broadcastPrevote : Hash → Stakes → Engine σ → Engine σ := castVote c .prevote

def broadcastPrecommit : Hash → Stakes → Engine σ → Engine σ := castVote c .precommit

/-- The lock is not consulted, and the prevote timer is not armed. -/
def broadcastProposal (vals : Stakes) (e : Engine σ) : Engine σ :=
  match c.proposer.propose e.pool e.rs.height e.rs.round e.rs.lastAttestation e.prevStateRoot with
  | none => e
  | some p =>
    if e.rs.phase ≠ .propose ∨ (serializeProposal c.W.toPrim p).isOk = false then e
    else
      broadcastPrevote c (blockHashForChain c.W.toPrim p c.chainID) vals
        (({ e with rs := { e.rs with proposal := some p, phase := .prevote } } : Engine σ).persist c)

/-! ## The end of a round -/

inductive CommitFault where
  | noProposal
  | unserializable (err : Err)
  | refused (err : Err)
  deriving DecidableEq, Repr

/-- The block of a proposal. It claims no state root and does not carry the round. -/
def blockOf (height : UInt64) (p : BlockProposal) (proposalBytes : List UInt8) : Block :=
  { height, txs := p.txs, proposerPubKey := p.proposerPK, prevStateRoot := p.prevStateRoot, stateRoot := 0
    proposalBytes }

def commit (order : MapOrder) (blockHash : Hash) (e : Engine σ) : Go CommitFault (Engine σ) :=
  match e.rs.proposal with
  | none => .err .noProposal
  | some p =>
    if blockHashForChain c.W.toPrim p c.chainID ≠ blockHash then .err .noProposal
    else
      match serializeProposal c.W.toPrim p with
      | .err x => .err (.unserializable x)
      | .panic w => .panic w
      | .ok bytes =>
        match applyBlockForChain c.W order e.disk.db (blockOf e.rs.height p bytes) c.chainID with
        | (.err x, _) => .err (.refused x)
        | (.panic w, _) => .panic w
        | (.ok _, db) =>
          match c.fault (.block (blockOf e.rs.height p bytes)) with
          | some x => .err (.refused x)
          | none => .ok { e with
              disk := { e.disk with db, snapshot := if c.fault .clear = none then none else e.disk.snapshot }
              pool := c.proposer.onCommit e.pool e.rs.height p.txs
              history := .committed e.rs.height blockHash :: e.history }

theorem commit_ok {order : MapOrder} {h : Hash} {e e' : Engine σ} (hok : commit c order h e = .ok e') :
    ∃ p bytes r db, e.rs.proposal = some p ∧ blockHashForChain c.W.toPrim p c.chainID = h ∧
      serializeProposal c.W.toPrim p = .ok bytes ∧
      applyBlockForChain c.W order e.disk.db (blockOf e.rs.height p bytes) c.chainID = (.ok r, db) ∧
      e' = { e with disk := { e.disk with db, snapshot := if c.fault .clear = none then none else e.disk.snapshot }
                    pool := c.proposer.onCommit e.pool e.rs.height p.txs
                    history := .committed e.rs.height h :: e.history } := by
  unfold commit at hok
  split at hok
  · cases hok
  · rename_i p hp
    split at hok
    · cases hok
    · rename_i hh
      split at hok
      · cases hok
      · cases hok
      · rename_i bytes hb
        split at hok
        · cases hok
        · cases hok
        · rename_i r db happ
          split at hok
          · cases hok
          · exact ⟨p, bytes, r, db, hp, not_not.mp hh, hb, happ, (Go.ok.inj hok).symm⟩

def rejectProposal (e : Engine σ) : Engine σ :=
  match e.rs.proposal with
  | none => e
  | some p => { e with pool := c.proposer.onReject e.pool e.rs.height p.txs }

/-- The next round of the same height with the validators of the store, unlocked. -/
def restartRound (e : Engine σ) : Engine σ :=
  let vals := bondedAmounts e.disk.db
  let e := { e with rs := e.rs.unlock.incrementRound, history := .unlocked :: e.history }
  let e := { e with proposeTimer := some e.now }.push .persist
  if proposerOf c e vals = c.self then broadcastProposal c vals e else e

def startNextRound (vals : Stakes) (e : Engine σ) : Engine σ :=
  let e := { e with rs := e.rs.nextHeight, history := .unlocked :: e.history }
  let e := { e with proposeTimer := some e.now }
  let e := if proposerOf c e vals = c.self then { e with delayed := e.delayed + 1 } else e
  e.persist c

/-! ## Votes -/

/-- How a vote, or the commit branch of `Start`, leaves the round: it goes on, its block is
    committed, it is to be restarted, or the node is down. -/
inductive Outcome (σ : Type) where
  | stay (e : Engine σ)
  | committed (blockHash : Hash) (e : Engine σ)
  | restart (e : Engine σ)
  | crash (e : Engine σ)

def tryCommit (order : MapOrder) (blockHash : Hash) (e : Engine σ) : Outcome σ :=
  match commit c order blockHash e with
  | .ok e' => .committed blockHash e'
  | .err (.refused _) => .restart (rejectProposal c (e.note (.refused e.rs.height blockHash)))
  | .err _ => .restart (rejectProposal c e)
  | .panic _ => .crash e

/-- `refresh`: `Start` itself commits, and takes the new validators for its own copy. -/
def finish (refresh : Bool) : Outcome σ → Engine σ
  | .stay e => e
  | .committed blockHash e =>
    let vals := bondedAmounts e.disk.db
    startNextRound c vals { e with
      rs := { e.rs with lastAttestation := attestationFromPrecommits e.rs.precommits blockHash }
      validators := if refresh then vals else e.validators }
  | .restart e => restartRound c e
  | .crash e => { e with halted := true }

/-- `case VotePrevote`. -/
def receivePrevote (order : MapOrder) (v : Vote) (vals : Stakes) (e : Engine σ) : Engine σ :=
  if (e.rs.prevotes.get v.validatorPK).isSome then e
  else
    let e := { e with rs := { e.rs with prevotes := e.rs.prevotes.put v.validatorPK v } }
    let quorum := quorumBlock order e.rs.prevotes vals
    let e := (e.notePolka quorum).persist c
    if quorumReached e.rs.prevotes vals ∧ e.rs.phase = .prevote then
      let e := { e.setPhase .precommit with prevoteTimer := none, precommitTimer := some e.now }
      match quorum with
      | some h => broadcastPrecommit c h vals (e.lock h)
      | none => broadcastPrecommit c 0 vals e
    else e

/-- `case VotePrecommit`, up to the end of the round it may bring. -/
def receivePrecommit (order : MapOrder) (v : Vote) (vals : Stakes) (e : Engine σ) : Outcome σ :=
  if (e.rs.precommits.get v.validatorPK).isSome then .stay e
  else
    let e := { e with rs := { e.rs with precommits := e.rs.precommits.put v.validatorPK v } }.persist c
    if quorumReached e.rs.precommits vals ∧ e.rs.phase = .precommit then
      match quorumBlock order e.rs.precommits vals with
      | some h =>
        if h ≠ 0 then tryCommit c order h { e.setPhase .commit with precommitTimer := none }
        else .restart (rejectProposal c e)
      | none => .restart (rejectProposal c e)
    else .stay e

/-- The checks `handleVote` begins with. -/
def acceptable (v : Vote) (vals : Stakes) (e : Engine σ) : Bool :=
  v.height = e.rs.height && v.round = e.rs.round && verifyVoteForChain c.W.toPrim v c.chainID &&
    v.validatorPK ∈ vals.map (·.1)

def receiveVote (order : MapOrder) (v : Vote) (vals : Stakes) (e : Engine σ) : Outcome σ :=
  if acceptable c v vals e then
    if v.type = VoteType.prevote.code then .stay (receivePrevote c order v vals e)
    else receivePrecommit c order v vals e
  else .stay e

def handleVote (order : MapOrder) (v : Vote) (vals : Stakes) (e : Engine σ) : Engine σ :=
  finish c false (receiveVote c order v vals e)

/-! ## Proposals -/

def parseProposal (raw : List UInt8) : Res (Option BlockProposal) :=
  match deserializeProposal c.W.toPrim raw with
  | .ok p => .ok (if verifyProposalForChain c.W.toPrim p c.chainID then some p else none)
  | .err _ => .ok none
  | .panic w => .panic w

/-- Height, round, parent state, phase and proposer of a proposal fit the round. -/
def timely (p : BlockProposal) (e : Engine σ) : Bool :=
  p.height = e.rs.height && p.round = e.rs.round && p.prevStateRoot = e.prevStateRoot &&
    e.rs.phase = .propose && e.rs.proposal = none &&
    skipProposer c.W.toPrim e.prevStateRoot e.rs.height (e.validators.map (·.1)) e.rs.round = .ok p.proposerPK

/-- The transactions are signed, and the attestation is one if it has votes. -/
def checkProposal (p : BlockProposal) (e : Engine σ) : Res Unit := do
  p.txs.forM fun t => verifySigsForChain c.W.toPrim t c.chainID
  if p.prevAttestations.votes ≠ [] then
    verifyAttestationForChain c.W.toPrim p.prevAttestations e.validators c.chainID

/-- The lock rule: locked on another block, the prevote is nil. -/
def prevoteFor (lockedBlock : Option Hash) (blockHash : Hash) : Hash :=
  if lockedBlock = none ∨ lockedBlock = some blockHash then blockHash else 0

def handleProposal (p : BlockProposal) (e : Engine σ) : Engine σ :=
  if timely c p e then
    match checkProposal c p e with
    | .ok _ =>
      let e := { e with rs := { e.rs with proposal := some p, phase := .prevote }
                        proposeTimer := none, prevoteTimer := some e.now }
      broadcastPrevote c (prevoteFor e.rs.lockedBlock (blockHashForChain c.W.toPrim p c.chainID)) e.validators
        (e.push .persist)
    | .err _ => e
    | .panic _ => { e with halted := true }
  else e

/-! ## Timeouts -/

def onProposeTimeout (e : Engine σ) : Engine σ :=
  if e.rs.phase ≠ .propose then e
  else broadcastPrevote c 0 e.validators ({ e.setPhase .prevote with prevoteTimer := some e.now }.push .persist)

def onPrevoteTimeout (e : Engine σ) : Engine σ :=
  if e.rs.phase ≠ .prevote then e
  else broadcastPrecommit c 0 e.validators ({ e.setPhase .precommit with precommitTimer := some e.now }.push .persist)

/-- The `precommitTimer` branch of `Start`: the phase is not asked. -/
def onPrecommitTimeout (e : Engine σ) : Engine σ :=
  let e := { e with rs := e.rs.incrementRound }
  let e := { e with proposeTimer := some e.now }.push .persist
  if proposerOf c e e.validators = c.self then broadcastProposal c e.validators e else e

/-- The `proposeReady` branch of `Start`. -/
def onProposeReady (e : Engine σ) : Engine σ :=
  if e.rs.phase = .propose ∧ proposerOf c e e.validators = c.self then broadcastProposal c e.validators e else e

/-- The commit branch of `Start` for a restored round. -/
def recommit (order : MapOrder) (e : Engine σ) : Outcome σ :=
  match quorumBlock order e.rs.precommits e.validators with
  | some h => if h ≠ 0 then tryCommit c order h e else .stay e
  | none => .stay e

/-! ## Steps -/

inductive Input where
  | vote (raw : List UInt8)
  | proposal (raw : List UInt8)
  | proposeTimeout
  | prevoteTimeout
  | precommitTimeout
  | proposeReady
  | delayElapsed
  | enqueue (t : Tx)
  | resume
  deriving DecidableEq, Repr

/-- The vote an input hands to `handleVote`, and the validators it is handed with. -/
def incoming (e : Engine σ) : Input → Option (Vote × Stakes)
  | .vote raw =>
    match deserializeVote raw with
    | .ok v => some (v, e.validators)
    | _ => none
  | .resume =>
    match e.stack with
    | .vote v vals :: _ => some (v, vals)
    | _ => none
  | _ => none

def handle (order : MapOrder) (e : Engine σ) : Input → Engine σ
  | .vote raw =>
    match deserializeVote raw with
    | .ok v => handleVote c order v e.validators e
    | _ => e
  | .proposal raw =>
    match parseProposal c raw with
    | .ok (some p) => handleProposal c p e
    | .ok none => e
    | .err _ => e
    | .panic _ => { e with halted := true }
  | .proposeTimeout => onProposeTimeout c { e with proposeTimer := none }
  | .prevoteTimeout => onPrevoteTimeout c { e with prevoteTimer := none }
  | .precommitTimeout => onPrecommitTimeout c { e with precommitTimer := none }
  | .proposeReady => onProposeReady c { e with ready := false }
  | .delayElapsed => { e with delayed := e.delayed - 1, ready := true }
  | .enqueue t => { e with pool := c.proposer.enqueue e.pool t }
  | .resume =>
    match e.stack with
    | [] => e
    | .vote v vals :: s => handleVote c order v vals { e with stack := s }
    | .persist :: s => { e with stack := s }.persist c
    | .recommit :: s => finish c true (recommit c order { e with stack := s })

/-- The goroutine takes an event only from the select loop; the timer of a delayed
    proposal and the mempool run beside it. -/
def accepts (e : Engine σ) : Input → Bool
  | .resume => !e.halted && e.stack ≠ []
  | .delayElapsed => 0 < e.delayed
  | .enqueue _ => true
  | _ => !e.halted && e.stack = []

/-- A timer fires only when armed, and the delayed proposal only when signalled. -/
def armed (e : Engine σ) : Input → Bool
  | .proposeTimeout => e.proposeTimer.isSome
  | .prevoteTimeout => e.prevoteTimer.isSome
  | .precommitTimeout => e.precommitTimer.isSome
  | .proposeReady => e.ready
  | _ => true

def step (order : MapOrder) (e : Engine σ) (i : Input) : Option (Engine σ) :=
  if accepts e i && armed e i then some (handle c order e i) else none

/-- The round state `Start` begins with: the persisted one if it belongs to the next height. -/
def restored (disk : Disk) : RoundState :=
  match disk.snapshot.bind (decodeRoundState c) with
  | some rs => if rs.height = disk.db.height + 1 then rs else .new (disk.db.height + 1)
  | none => .new (disk.db.height + 1)

/-- `Start` up to its loop, on what the disk holds. -/
def start (disk : Disk) (pool : σ) (history : List Entry) : Engine σ :=
  let vals := bondedAmounts disk.db
  let e : Engine σ :=
    { rs := restored c disk, validators := vals, disk, pool, proposeTimer := none, prevoteTimer := none
      precommitTimer := none, delayed := 0, ready := false, stack := [], halted := false, history }
  match e.rs.phase with
  | .propose =>
    { e with proposeTimer := some e.now, delayed := if proposerOf c e vals = c.self then 1 else 0 }
  | .prevote => { e with prevoteTimer := some e.now }
  | .precommit => { e with precommitTimer := some e.now }
  | .commit => e.push .recommit

/-- What a started engine holds. -/
structure Started (c : Config σ) (disk : Disk) (history : List Entry) (e : Engine σ) : Prop where
  rs : e.rs = restored c disk
  validators : e.validators = bondedAmounts disk.db
  disk : e.disk = disk
  history : e.history = history
  stack : e.stack = [] ∨ e.stack = [.recommit]

theorem start_started (disk : Disk) (pool : σ) (history : List Entry) :
    Started c disk history (start c disk pool history) := by
  unfold start
  dsimp only
  split
  · exact ⟨rfl, rfl, rfl, rfl, Or.inl rfl⟩
  · exact ⟨rfl, rfl, rfl, rfl, Or.inl rfl⟩
  · exact ⟨rfl, rfl, rfl, rfl, Or.inl rfl⟩
  · exact ⟨rfl, rfl, rfl, rfl, Or.inr rfl⟩

theorem start_pool (disk : Disk) (pool : σ) (history : List Entry) : (start c disk pool history).pool = pool := by
  unfold start
  dsimp only
  split <;> rfl

theorem restored_height (disk : Disk) : (restored c disk).height = disk.db.height + 1 := by
  unfold restored
  split
  · split
    · assumption
    · rfl
  · rfl

/-- What is true of a new round state and kept by the decoder is true behind a restart. -/
theorem start_keeps {I : RoundState → Prop} {disk : Disk} (hnew : I (.new (disk.db.height + 1)))
    (hdec : ∀ {rs rs'}, I rs → decodeRoundState c rs = some rs' → I rs') (hs : ∀ rs, disk.snapshot = some rs → I rs)
    (pool : σ) (history : List Entry) :
    I (start c disk pool history).rs ∧ ∀ rs, (start c disk pool history).disk.snapshot = some rs → I rs := by
  obtain ⟨hrs, -, hdisk, -, -⟩ := start_started c disk pool history
  rw [hrs, hdisk]
  refine ⟨?_, hs⟩
  unfold restored
  split
  · rename_i rs hread
    obtain ⟨rs₀, hsnap, hread⟩ := Option.bind_eq_some_iff.mp hread
    split
    · exact hdec (hs rs₀ hsnap) hread
    · exact hnew
  · exact hnew

end Frg.Consensus
