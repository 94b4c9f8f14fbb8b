/-
  Frg.Node.Sync — catching up with the peers (`cmd/frg-node/main.go`): `validateSyncedBlocks`
  and `catchUpCommittedBlocks`, the second way a block reaches the state machine.

  A stored block carries its proposal, and the proposal the precommits of the block before
  it. The precommits of a block itself are neither stored nor sent, so a range of blocks is
  taken on the word of the peers: the only valid answer, or one that two peers give.

    - `synced_blocks_vetted`: what holds of every block the catch-up applies. It follows the
      chain, comes from a valid answer that is the only one or was given twice, and carries a
      proposal signed by a validator of the set the catch-up began with.
    - `unelected_block_synced`: a block whose proposer was not elected, and that nobody voted
      for, is applied.
-/

import Frg.Consensus.Certificates
import Frg.Consensus.BlockLoop

namespace Frg.Node

open Frg.Lib Frg.Core Frg.Wire Frg.Contract Frg.Chain Frg.Consensus

/-! ## One answer -/

/-- `return nil, false`: what was wrong is not kept. -/
def orReject {α : Type} : Res α → Go Unit α
  | .ok a => .ok a
  | .err _ => .err ()
  | .panic w => .panic w

@[simp] theorem orReject_ok {α : Type} {x : Res α} {a : α} : orReject x = .ok a ↔ x = .ok a := by
  cases x <;> simp [orReject]

variable (W : World) (chainID : List UInt8)

/-- The attestation is verified if it has votes. -/
def checkAttestations (vals : Stakes) (p : BlockProposal) : Res Unit :=
  if p.prevAttestations.votes = [] then .ok ()
  else verifyAttestationForChain W.toPrim p.prevAttestations vals chainID

def validateSyncedBlock (vals : Stakes) (height : UInt64) (raw : List UInt8) : Go Unit Block := do
  let block ← orReject (deserializeBlock W raw)
  Go.check (block.height = height) ()
  let proposal ← orReject (deserializeProposal W.toPrim block.proposalBytes)
  Go.check (verifyProposalForChain W.toPrim proposal chainID = true) ()
  Go.check (proposal.proposerPK ∈ vals.map (·.1) ∧ proposal.height = block.height ∧
    proposal.proposerPK = block.proposerPubKey ∧ proposal.prevStateRoot = block.prevStateRoot) ()
  let proposalTxs ← orReject (serializeBatch W.toPrim proposal.txs)
  let blockTxs ← orReject (serializeBatch W.toPrim block.txs)
  Go.check (proposalTxs = blockTxs) ()
  let _ ← orReject (checkAttestations W chainID vals proposal)
  return block

def validateSyncedBlocks (vals : Stakes) : UInt64 → List (List UInt8) → Go Unit (List Block)
  | _, [] => .ok []
  | height, raw :: raws => do
    let block ← validateSyncedBlock W chainID vals height raw
    let decoded ← validateSyncedBlocks vals (height + 1) raws
    return block :: decoded

/-! ## All answers -/

/-- One pass of the loop of `catchUpCommittedBlocks`: the peers it asks, what each answers at
    each attempt (nothing if the request fails), and when the context ends. -/
structure Round where
  peers : List Nat
  answer : Nat → Nat → Option (List (List UInt8))
  order : MapOrder
  endsWaiting : Nat → Bool
  endsAfter : Bool

def syncedBlockRangeKey (blocks : List (List UInt8)) : Hash :=
  W.hash (W.hash (blocks.flatMap fun block => u64 block.length ++ block)).bytes

/-- The answers that validate, with their blocks. An invalid one is no error. -/
def validAnswers (vals : Stakes) (height : UInt64) :
    List (Option (List (List UInt8))) → Go Empty (List (List (List UInt8) × List Block))
  | [] => .ok []
  | none :: answers => validAnswers vals height answers
  | some raws :: answers =>
    if raws = [] then validAnswers vals height answers
    else
      match validateSyncedBlocks W chainID vals height raws with
      | .ok blocks => do
        let rest ← validAnswers vals height answers
        return (raws, blocks) :: rest
      | .err _ => validAnswers vals height answers
      | .panic w => .panic w

/-- The map from range keys to the blocks and the number of the answers with that key. -/
def candidates (valid : List (List (List UInt8) × List Block)) : Bucket Hash (List Block × Nat) :=
  valid.foldl (fun m x =>
    let key := syncedBlockRangeKey W x.1
    m.put key (x.2, ((m.get key).map (·.2)).getD 0 + 1)) .empty

/-- The first candidate of the map walk with the highest count. -/
def mostFrequent (order : MapOrder) (m : Bucket Hash (List Block × Nat)) : Option (List Block × Nat) :=
  (order.list m.keys).foldl (fun best key =>
    match m.get key with
    | some x => if (best.map (·.2)).getD 0 < x.2 then some x else best
    | none => best) none

inductive Choice where
  | selected (blocks : List Block)
  | nothing
  | disagreement
  | cancelled
  deriving DecidableEq, Repr

/-- One attempt: the blocks to apply, if the only valid answer or two of them have them, and
    the number of valid answers. -/
def poll (r : Round) (vals : Stakes) (height : UInt64) (attempt : Nat) : Go Empty (Option (List Block) × Nat) := do
  let valid ← validAnswers W chainID vals height (r.peers.map (r.answer attempt))
  let best := (mostFrequent r.order (candidates W valid)).filter fun x => valid.length = 1 ∨ 2 ≤ x.2
  return (best.map (·.1), valid.length)

/-- The attempts of a pass, with the number of those that may still follow. -/
def selectBlocks (r : Round) (vals : Stakes) (height : UInt64) : Nat → Go Empty Choice
  | 0 => do
    let (blocks?, candidateCount) ← poll W chainID r vals height 2
    match blocks? with
    | some blocks => return .selected blocks
    | none => return if candidateCount = 0 then .nothing else .disagreement
  | left + 1 => do
    let attempt := 1 - left
    let (blocks?, _) ← poll W chainID r vals height attempt
    match blocks? with
    | some blocks => return .selected blocks
    | none => if r.endsWaiting attempt then return .cancelled else selectBlocks r vals height left

/-- The chain, and the blocks applied to it, newest first, each with the state before it. -/
structure Synced where
  db : DB
  applied : List (DB × Block)

def applySynced (order : MapOrder) : List Block → Synced → Res Unit × Synced
  | [], s => (.ok (), s)
  | block :: blocks, s =>
    match applyBlockForChain W order s.db block chainID with
    | (.ok _, db) => applySynced order blocks ⟨db, (s.db, block) :: s.applied⟩
    | (.err e, _) => (.err (.context s!"apply synced block {block.height.toNat}" e), s)
    | (.panic w, _) => (.panic w, s)

def contextErr : Err := .plain "context canceled"

/-- As many passes of the loop as there are in the list. -/
def catchUpLoop (vals : Stakes) : List Round → Synced → Res Unit × Synced
  | [], s => (.ok (), s)
  | r :: rs, s =>
    if s.db.height = maxUint64 ∨ r.peers = [] then (.ok (), s)
    else
      match selectBlocks W chainID r vals (s.db.height + 1) 2 with
      | .ok (.selected blocks) =>
        match applySynced W chainID r.order blocks s with
        | (.ok _, s) => if r.endsAfter then (.err contextErr, s) else catchUpLoop vals rs s
        | failed => failed
      | .ok .nothing => (.ok (), s)
      | .ok .disagreement =>
        (.err (.plain s!"connected peers did not agree on blocks at height {(s.db.height + 1).toNat}"), s)
      | .ok .cancelled => (.err contextErr, s)
      | .panic w => (.panic w, s)

/-- The validators and stakes are read once, before the loop. -/
def catchUpCommittedBlocks (rounds : List Round) (db : DB) : Res Unit × Synced :=
  catchUpLoop W chainID (bondedAmounts db) rounds ⟨db, []⟩

/-! ## What an answer has to satisfy -/

/-- The proposal `p` stored with the block `b` is a signed one of a validator, for this block. -/
structure Vetted (vals : Stakes) (b : Block) (p : BlockProposal) : Prop where
  stored : deserializeProposal W.toPrim b.proposalBytes = .ok p
  signed : verifyProposalForChain W.toPrim p chainID = true
  validator : p.proposerPK ∈ vals.map (·.1)
  height : p.height = b.height
  proposer : p.proposerPK = b.proposerPubKey
  parent : p.prevStateRoot = b.prevStateRoot
  txs : ∃ batch, serializeBatch W.toPrim p.txs = .ok batch ∧ serializeBatch W.toPrim b.txs = .ok batch
  attestation : checkAttestations W chainID vals p = .ok ()

variable {W chainID} {vals : Stakes} {height : UInt64}

/-- Votes carried along are a certificate of some block. -/
theorem Vetted.certificate {b : Block} {p : BlockProposal} (h : Vetted W chainID vals b p)
    (hne : p.prevAttestations.votes ≠ []) : Certificate W.toPrim chainID vals p.prevAttestations := by
  have hcheck := h.attestation
  rw [checkAttestations, if_neg hne] at hcheck
  exact (verifyAttestationForChain_ok.mp hcheck).2.2

theorem validateSyncedBlock_ok {raw : List UInt8} {b : Block} :
    validateSyncedBlock W chainID vals height raw = .ok b ↔
      deserializeBlock W raw = .ok b ∧ b.height = height ∧ ∃ p, Vetted W chainID vals b p := by
  unfold validateSyncedBlock
  constructor
  · intro h
    obtain ⟨b', hb, h⟩ := Go.bind_eq_ok.mp h
    obtain ⟨_, hheight, h⟩ := Go.bind_eq_ok.mp h
    obtain ⟨p, hp, h⟩ := Go.bind_eq_ok.mp h
    obtain ⟨_, hsig, h⟩ := Go.bind_eq_ok.mp h
    obtain ⟨_, hfields, h⟩ := Go.bind_eq_ok.mp h
    obtain ⟨batch, hbatch, h⟩ := Go.bind_eq_ok.mp h
    obtain ⟨batch', hbatch', h⟩ := Go.bind_eq_ok.mp h
    obtain ⟨_, hsame, h⟩ := Go.bind_eq_ok.mp h
    obtain ⟨_, hatt, h⟩ := Go.bind_eq_ok.mp h
    obtain rfl := Go.ok.inj h
    obtain rfl : batch = batch' := Go.check_eq_ok.mp hsame
    obtain ⟨hval, hh, hpk, hroot⟩ := Go.check_eq_ok.mp hfields
    exact ⟨orReject_ok.mp hb, Go.check_eq_ok.mp hheight, p, orReject_ok.mp hp, Go.check_eq_ok.mp hsig, hval, hh, hpk,
      hroot, ⟨batch, orReject_ok.mp hbatch, orReject_ok.mp hbatch'⟩, orReject_ok.mp hatt⟩
  · rintro ⟨hb, hheight, p, hv⟩
    obtain ⟨batch, hbatch, hbatch'⟩ := hv.txs
    rw [orReject_ok.mpr hb, Go.ok_bind, Go.check_pos hheight, Go.ok_bind, orReject_ok.mpr hv.stored, Go.ok_bind,
      Go.check_pos hv.signed, Go.ok_bind, Go.check_pos ⟨hv.validator, hv.height, hv.proposer, hv.parent⟩, Go.ok_bind,
      orReject_ok.mpr hbatch, Go.ok_bind, orReject_ok.mpr hbatch', Go.ok_bind, Go.check_pos rfl, Go.ok_bind,
      orReject_ok.mpr hv.attestation, Go.ok_bind]
    rfl

theorem validateSyncedBlocks_cons {raw : List UInt8} {raws : List (List UInt8)} {bs : List Block} :
    validateSyncedBlocks W chainID vals height (raw :: raws) = .ok bs ↔
      ∃ b bs', validateSyncedBlock W chainID vals height raw = .ok b ∧
        validateSyncedBlocks W chainID vals (height + 1) raws = .ok bs' ∧ bs = b :: bs' := by
  rw [validateSyncedBlocks]
  constructor
  · intro h
    obtain ⟨b, hb, h⟩ := Go.bind_eq_ok.mp h
    obtain ⟨bs', hbs, h⟩ := Go.bind_eq_ok.mp h
    exact ⟨b, bs', hb, hbs, (Go.ok.inj h).symm⟩
  · rintro ⟨b, bs', hb, hbs, rfl⟩
    rw [hb, Go.ok_bind, hbs, Go.ok_bind, Go.pure_eq]

theorem validateSyncedBlocks_mem : ∀ {raws : List (List UInt8)} {height : UInt64} {bs : List Block},
    validateSyncedBlocks W chainID vals height raws = .ok bs → ∀ b ∈ bs, ∃ p, Vetted W chainID vals b p := by
  intro raws
  induction raws with
  | nil =>
    intro height bs h b hb
    obtain rfl := Go.ok.inj h
    cases hb
  | cons raw raws ih =>
    intro height bs h b hb
    obtain ⟨b', bs', hb', hbs', rfl⟩ := validateSyncedBlocks_cons.mp h
    rcases List.mem_cons.mp hb with rfl | hb
    · exact (validateSyncedBlock_ok.mp hb').2.2
    · exact ih hbs' b hb

/-! ## The choice between the answers -/

variable (W) in
/-- How many of the valid answers have a range key. -/
def answersWith (valid : List (List (List UInt8) × List Block)) (key : Hash) : Nat :=
  valid.countP fun x => syncedBlockRangeKey W x.1 = key

theorem validAnswers_mem {answers : List (Option (List (List UInt8)))} :
    ∀ {valid : List (List (List UInt8) × List Block)},
    validAnswers W chainID vals height answers = .ok valid →
      ∀ x ∈ valid, some x.1 ∈ answers ∧ validateSyncedBlocks W chainID vals height x.1 = .ok x.2 := by
  induction answers with
  | nil =>
    intro valid h x hx
    obtain rfl := Go.ok.inj h
    cases hx
  | cons answer answers ih =>
    intro valid h x hx
    have hskip : validAnswers W chainID vals height answers = .ok valid →
        some x.1 ∈ answer :: answers ∧ validateSyncedBlocks W chainID vals height x.1 = .ok x.2 := fun h =>
      ⟨List.mem_cons_of_mem _ (ih h x hx).1, (ih h x hx).2⟩
    cases answer with
    | none => exact hskip h
    | some raws =>
      rw [validAnswers] at h
      split at h
      · exact hskip h
      · split at h
        · rename_i blocks hblocks
          obtain ⟨rest, hrest, h⟩ := Go.bind_eq_ok.mp h
          obtain rfl := Go.ok.inj h
          rcases List.mem_cons.mp hx with rfl | hx
          · exact ⟨List.mem_cons_self, hblocks⟩
          · exact ⟨List.mem_cons_of_mem _ (ih hrest x hx).1, (ih hrest x hx).2⟩
        · exact hskip h
        · cases h

theorem candidates_get {valid : List (List (List UInt8) × List Block)} {key : Hash} {blocks : List Block} {n : Nat} :
    (candidates W valid).get key = some (blocks, n) →
      n = answersWith W valid key ∧ ∃ raws, (raws, blocks) ∈ valid ∧ syncedBlockRangeKey W raws = key := by
  have hcount : ∀ (valid : List (List (List UInt8) × List Block)) (key : Hash),
      (((candidates W valid).get key).map (·.2)).getD 0 = answersWith W valid key := by
    intro valid
    induction valid using List.reverseRecOn with
    | nil => exact fun _ => rfl
    | append_singleton valid x ih =>
      intro key
      unfold candidates answersWith at ih ⊢
      rw [List.foldl_append, List.countP_append, ← ih key, List.foldl_cons, List.foldl_nil]
      by_cases hk : key = syncedBlockRangeKey W x.1
      · subst hk
        simp [Bucket.get_put_self]
      · simp [Bucket.get_put_ne _ _ hk, Ne.symm hk]
  intro h
  refine ⟨by rw [← hcount, h]; rfl, ?_⟩
  induction valid using List.reverseRecOn generalizing blocks n with
  | nil => cases h
  | append_singleton valid x ih =>
    unfold candidates at h ih
    rw [List.foldl_append, List.foldl_cons, List.foldl_nil] at h
    by_cases hk : key = syncedBlockRangeKey W x.1
    · subst hk
      rw [Bucket.get_put_self] at h
      obtain ⟨rfl, -⟩ := Prod.mk.inj (Option.some.inj h)
      exact ⟨x.1, List.mem_append_right _ (List.mem_singleton.mpr rfl), rfl⟩
    · rw [Bucket.get_put_ne _ _ hk] at h
      obtain ⟨raws, hm, hraws⟩ := ih h
      exact ⟨raws, List.mem_append_left _ hm, hraws⟩

theorem mostFrequent_some {order : MapOrder} {m : Bucket Hash (List Block × Nat)} {x : List Block × Nat}
    (h : mostFrequent order m = some x) : ∃ key, m.get key = some x := by
  have hfold : ∀ (keys : List Hash) (best : Option (List Block × Nat)),
      (∀ x, best = some x → ∃ key, m.get key = some x) →
      ∀ x, keys.foldl (fun best key =>
        match m.get key with
        | some x => if (best.map (·.2)).getD 0 < x.2 then some x else best
        | none => best) best = some x → ∃ key, m.get key = some x := by
    intro keys
    induction keys with
    | nil => exact fun best hbest => hbest
    | cons key keys ih =>
      intro best hbest
      refine ih _ ?_
      dsimp only
      split
      · rename_i y hy
        split
        · exact fun x hx => ⟨key, hy.trans hx⟩
        · exact hbest
      · exact hbest
  exact hfold _ none (fun _ h => nomatch h) x h

variable (W chainID) in
/-- The blocks are those of a valid answer, at some attempt, that was the only valid one or
    had the range key of another. -/
def Vouched (r : Round) (vals : Stakes) (height : UInt64) (blocks : List Block) : Prop :=
  ∃ attempt valid raws, validAnswers W chainID vals height (r.peers.map (r.answer attempt)) = .ok valid ∧
    (raws, blocks) ∈ valid ∧ (valid.length = 1 ∨ 2 ≤ answersWith W valid (syncedBlockRangeKey W raws))

theorem poll_vouched {r : Round} {attempt n : Nat} {blocks : List Block}
    (h : poll W chainID r vals height attempt = .ok (some blocks, n)) : Vouched W chainID r vals height blocks := by
  obtain ⟨valid, hvalid, h⟩ := Go.bind_eq_ok.mp h
  obtain ⟨hbest, -⟩ := Prod.mk.inj (Go.ok.inj h)
  obtain ⟨⟨blocks', count⟩, hx, rfl⟩ := Option.map_eq_some_iff.mp hbest
  obtain ⟨hmost, hagree⟩ := Option.filter_eq_some_iff.mp hx
  obtain ⟨key, hkey⟩ := mostFrequent_some hmost
  obtain ⟨hcount, raws, hm, hraws⟩ := candidates_get hkey
  refine ⟨attempt, valid, raws, hvalid, hm, (of_decide_eq_true hagree).imp id fun h2 => ?_⟩
  rw [hraws, ← hcount]
  exact h2

theorem selectBlocks_vouched {r : Round} {blocks : List Block} : ∀ {left : Nat},
    selectBlocks W chainID r vals height left = .ok (.selected blocks) → Vouched W chainID r vals height blocks := by
  intro left
  induction left with
  | zero =>
    intro h
    obtain ⟨⟨blocks?, n⟩, hpoll, h⟩ := Go.bind_eq_ok.mp h
    cases blocks? with
    | some blocks' =>
      obtain rfl := Choice.selected.inj (Go.ok.inj h)
      exact poll_vouched hpoll
    | none =>
      dsimp only at h
      split at h <;> cases h
  | succ left ih =>
    intro h
    obtain ⟨⟨blocks?, n⟩, hpoll, h⟩ := Go.bind_eq_ok.mp h
    cases blocks? with
    | some blocks' =>
      obtain rfl := Choice.selected.inj (Go.ok.inj h)
      exact poll_vouched hpoll
    | none =>
      dsimp only at h
      split at h
      · cases h
      · exact ih h

/-! ## The blocks applied -/

theorem applySynced_applied {order : MapOrder} : ∀ {blocks : List Block} {s : Synced},
    ∀ x ∈ (applySynced W chainID order blocks s).2.applied, x ∈ s.applied ∨
      x.2 ∈ blocks ∧ ∃ r post, applyBlockForChain W order x.1 x.2 chainID = (.ok r, post) := by
  intro blocks
  induction blocks with
  | nil => exact fun x hx => Or.inl hx
  | cons b blocks ih =>
    intro s x hx
    rw [applySynced] at hx
    split at hx
    · rename_i r db happ
      rcases ih x hx with hx | ⟨hm, happ'⟩
      · rcases List.mem_cons.mp hx with rfl | hx
        · exact Or.inr ⟨List.mem_cons_self, r, db, happ⟩
        · exact Or.inl hx
      · exact Or.inr ⟨List.mem_cons_of_mem _ hm, happ'⟩
    · exact Or.inl hx
    · exact Or.inl hx

variable (W chainID) in
/-- What is known of a block applied to the state `pre` by a catch-up that began with the
    validators `vals`. -/
structure Adopted (rounds : List Round) (vals : Stakes) (pre : DB) (b : Block) : Prop where
  follows : b.height = pre.height + 1
  parent : b.prevStateRoot = 0 ∨ pre.stateRoot = b.prevStateRoot
  vouched : ∃ r ∈ rounds, ∃ height blocks, Vouched W chainID r vals height blocks ∧ b ∈ blocks
  vetted : ∃ p, Vetted W chainID vals b p ∧
    (p.prevAttestations.votes ≠ [] → Certificate W.toPrim chainID vals p.prevAttestations)

theorem Adopted.intro {rounds : List Round} {r : Round} {order : MapOrder} {pre post : DB} {b : Block} {res : Result}
    {blocks : List Block} (hr : r ∈ rounds) (hv : Vouched W chainID r vals height blocks) (hb : b ∈ blocks)
    (happ : applyBlockForChain W order pre b chainID = (.ok res, post)) : Adopted W chainID rounds vals pre b := by
  obtain ⟨run, -⟩ := applyBlockForChain_ok happ
  obtain ⟨_, hheight, hrest⟩ := Go.bind_eq_ok.mp run.checked
  obtain ⟨_, hroot, -⟩ := Go.bind_eq_ok.mp hrest
  obtain ⟨attempt, valid, raws, hvalid, hm, -⟩ := id hv
  obtain ⟨p, hp⟩ := validateSyncedBlocks_mem (validAnswers_mem hvalid _ hm).2 b hb
  exact ⟨Go.check_eq_ok.mp hheight, Go.check_eq_ok.mp hroot, ⟨r, hr, height, blocks, hv, hb⟩, p, hp, hp.certificate⟩

theorem catchUpLoop_applied : ∀ {rounds : List Round} {s : Synced},
    ∀ x ∈ (catchUpLoop W chainID vals rounds s).2.applied, x ∈ s.applied ∨ Adopted W chainID rounds vals x.1 x.2 := by
  intro rounds
  induction rounds with
  | nil => exact fun x hx => Or.inl hx
  | cons r rounds ih =>
    intro s x hx
    rw [catchUpLoop] at hx
    split at hx
    · exact Or.inl hx
    · split at hx
      · rename_i blocks hsel
        have hpass : x ∈ (applySynced W chainID r.order blocks s).2.applied →
            x ∈ s.applied ∨ Adopted W chainID (r :: rounds) vals x.1 x.2 := fun hx => by
          refine (applySynced_applied x hx).imp id fun ⟨hm, res, post, happ⟩ => ?_
          exact .intro List.mem_cons_self (selectBlocks_vouched hsel) hm happ
        split at hx
        · rename_i u s' happly
          rw [happly] at hpass
          split at hx
          · exact hpass hx
          · rcases ih x hx with hx | ⟨h1, h2, ⟨r', hr', hv⟩, h4⟩
            · exact hpass hx
            · exact Or.inr ⟨h1, h2, ⟨r', List.mem_cons_of_mem _ hr', hv⟩, h4⟩
        · exact hpass hx
      all_goals exact Or.inl hx

variable (W chainID) in
/-- What holds of every block the catch-up applies, whatever the peers answer. -/
theorem synced_blocks_vetted (rounds : List Round) (db : DB) :
    ∀ x ∈ (catchUpCommittedBlocks W chainID rounds db).2.applied,
      Adopted W chainID rounds (bondedAmounts db) x.1 x.2 := by
  intro x hx
  exact (catchUpLoop_applied x hx).resolve_left List.not_mem_nil

/-! ## A block of a single validator -/

/-- Four validators with equal bonds, and account 5 with some money. -/
def fourDB : DB := { DB.new with
  balances := Bucket.empty.put 5 1000
  validators := [1, 2, 3, 4].foldl (fun m k => m.put k (.fresh (1000 * 10 ^ 18) 0)) .empty
  totalSupply := some (4000 * 10 ^ 18 + 1000) }

/-- Validator 1's proposal for the first round of height 1, with one transfer. -/
def forgedProposal : BlockProposal :=
  let t := (Tx.plain .transfer 5 6 10 1).signed Prim.sample defaultChainID
  propose Prim.sample 1 defaultChainID ((Mempool.new defaultCap).enqueue Prim.sample t) 1 0 {} 0

def written : Res (List UInt8) → List UInt8
  | .ok bytes => bytes
  | _ => []

def forged : Block := blockOf 1 forgedProposal (written (serializeProposal Prim.sample forgedProposal))

/-- Validator 1, the only peer, answers with its block. -/
def forgery : Round where
  peers := [1]
  answer _ _ := some [written (serializeBlock World.sample forged)]
  order := .id
  endsWaiting _ := false
  endsAfter := false

theorem forgery_applied :
    (catchUpCommittedBlocks World.sample defaultChainID [forgery] fourDB).2.applied.map (·.2) = [forged] := by
  decide +kernel

/-- What the catch-up has checked of the block of validator 1. -/
theorem synced_blocks_vetted_forged : ∃ pre,
    (pre, forged) ∈ (catchUpCommittedBlocks World.sample defaultChainID [forgery] fourDB).2.applied ∧
      Adopted World.sample defaultChainID [forgery] (bondedAmounts fourDB) pre forged := by
  have hm : forged ∈ (catchUpCommittedBlocks World.sample defaultChainID [forgery] fourDB).2.applied.map (·.2) := by
    rw [forgery_applied]
    exact List.mem_singleton_self forged
  obtain ⟨⟨pre, _⟩, hx, rfl⟩ := List.mem_map.mp hm
  exact ⟨pre, hx, synced_blocks_vetted World.sample defaultChainID [forgery] fourDB _ hx⟩

/-- The catch-up applies the block of validator 1. The proposer of the round is another
    validator, and there is no vote anywhere. -/
theorem unelected_block_synced :
    (catchUpCommittedBlocks World.sample defaultChainID [forgery] fourDB).2.applied.map (·.2) = [forged] ∧
      forgedProposal.height = 1 ∧ forgedProposal.round = 0 ∧ forgedProposal.proposerPK = 1 ∧
      forgedProposal.prevAttestations.votes = [] ∧
      skipProposer Prim.sample fourDB.stateRoot 1 ((bondedAmounts fourDB).map (·.1)) 0 ≠ .ok 1 :=
  ⟨forgery_applied, by decide +kernel⟩

end Frg.Node
