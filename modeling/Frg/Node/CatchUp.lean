/-
  Frg.Node.CatchUp — which blocks of an honest node its peers can catch up with.

  The blocks a node commits come from proposals it has checked or made itself (`Sound`), in
  rounds whose precommits are verified votes of validators (`SoundRound`). With one set of
  validators throughout, such a proposal and the attestation in it pass every check of
  `validateSyncedBlocks` except those on the transactions: `SerializeBatch` refuses an
  empty list, and writes the count of a full one as zero.

    - `synced_iff`: the stored blocks of a range are accepted exactly when each has between 1
      and 65535 transactions.
    - `empty_block_not_synced`: the first block of a node without transactions is refused.
-/

import Frg.Node.Sync
import Frg.Consensus.Attesting
import Frg.Consensus.Proposing

namespace Frg.Node

open Frg.Lib Frg.Core Frg.Wire Frg.Chain Frg.Consensus Relation

/-! ## Sound rounds -/

section

variable (W : World) (chainID : List UInt8) (vals : Stakes)

/-- An attestation that is empty or a certificate. -/
def Attested (a : AttestationSet) : Prop :=
  a.votes = [] ∨ verifyAttestationForChain W.toPrim a vals chainID = .ok ()

/-- A proposal its block will be vetted with. -/
structure Sound (height : UInt64) (p : BlockProposal) : Prop where
  height : p.height = height
  signed : verifyProposalForChain W.toPrim p chainID = true
  validator : vals ≠ [] → p.proposerPK ∈ vals.map (·.1)
  attestation : Attested W chainID vals p.prevAttestations
  decoded : ∀ t ∈ p.txs, Decoded W.toPrim t

/-- The vote is a verified precommit of the round by the validator `pk`. -/
structure Precommitted (rs : RoundState) (pk : Key) (v : Vote) : Prop where
  voter : v.validatorPK = pk
  validator : pk ∈ vals.map (·.1)
  type : v.type = VoteType.precommit.code
  height : v.height = rs.height
  round : v.round = rs.round
  verified : verifyVoteForChain W.toPrim v chainID = true

structure SoundRound (rs : RoundState) : Prop where
  proposal : ∀ p, rs.proposal = some p → Sound W chainID vals rs.height p
  precommits : ∀ pk v, rs.precommits.get pk = some v → Precommitted W chainID vals rs pk v
  last : Attested W chainID vals rs.lastAttestation

structure SoundCore (s : Core) : Prop where
  rs : SoundRound W chainID vals s.rs
  snapshot : ∀ rs, s.snapshot = some rs → SoundRound W chainID vals rs

/-- Votes are counted with `vals`, transactions have been decoded, and a proposal that enters
    a round is sound. -/
def soundRules : Rules := { Rules.free with
  stakes := fun w => w = vals
  proposal := fun rs p => Attested W chainID vals rs.lastAttestation → Sound W chainID vals rs.height p
  tx := Decoded W.toPrim }

end

variable {W : World} {chainID : List UInt8} {vals : Stakes}

theorem checkAttestations_ok {p : BlockProposal} :
    checkAttestations W chainID vals p = .ok () ↔ Attested W chainID vals p.prevAttestations := by
  unfold checkAttestations Attested
  split
  · rename_i h
    simp [h]
  · rename_i h
    simp [h]

section

variable {rs rs' : RoundState}

theorem SoundRound.of_eq (h : SoundRound W chainID vals rs) (hp : rs'.proposal = rs.proposal)
    (hc : rs'.precommits = rs.precommits) (hh : rs'.height = rs.height) (hr : rs'.round = rs.round)
    (hl : rs'.lastAttestation = rs.lastAttestation) : SoundRound W chainID vals rs' := by
  refine ⟨fun p e => ?_, fun pk v e => ?_, hl ▸ h.last⟩
  · rw [hh]
    exact h.proposal p (hp ▸ e)
  · obtain ⟨h1, h2, h3, h4, h5, h6⟩ := h.precommits pk v (hc ▸ e)
    exact ⟨h1, h2, h3, h4.trans hh.symm, h5.trans hr.symm, h6⟩

theorem SoundRound.begin (hp : rs.proposal = none) (hc : rs.precommits = .empty)
    (hl : Attested W chainID vals rs.lastAttestation) : SoundRound W chainID vals rs := by
  refine ⟨fun p e => ?_, fun pk v e => ?_, hl⟩
  · rw [hp] at e
    cases e
  · rw [hc] at e
    cases e

end

section

variable {σ : Type} {c : Config σ} {s s' : Core}

theorem SoundCore.move (h : SoundCore c.W c.chainID vals s) (hm : Move c (soundRules c.W c.chainID vals) s s') :
    SoundCore c.W c.chainID vals s' := by
  have hsame : ∀ {rs' : RoundState}, rs'.proposal = s.rs.proposal → rs'.precommits = s.rs.precommits →
      rs'.height = s.rs.height → rs'.round = s.rs.round → rs'.lastAttestation = s.rs.lastAttestation →
      SoundRound c.W c.chainID vals rs' := fun h1 h2 h3 h4 h5 => h.rs.of_eq h1 h2 h3 h4 h5
  cases hm with
  | prevote | decide => exact ⟨hsame rfl rfl rfl rfl rfl, h.snapshot⟩
  | polka | refuse => exact ⟨h.rs, h.snapshot⟩
  | persist => exact ⟨h.rs, fun rs e => Option.some.inj e ▸ h.rs⟩
  | next | restart => exact ⟨.begin rfl rfl h.rs.last, h.snapshot⟩
  | lock | abstain =>
    refine ⟨?_, by rw [Core.cast_snapshot]; exact h.snapshot⟩
    rw [Core.cast_rs]
    exact hsame rfl rfl rfl rfl rfl
  | enter x p w _ _ _ hp =>
    refine ⟨?_, by rw [Core.cast_snapshot]; exact h.snapshot⟩
    rw [Core.cast_rs]
    refine ⟨fun q e => ?_, fun pk v e => ?_, h.rs.last⟩
    · rcases hp with hp | ⟨q', hq', hsound⟩
      · exact h.rs.proposal q (hp ▸ e)
      · obtain rfl := Option.some.inj (hq'.symm.trans e)
        exact hsound h.rs.last
    · obtain ⟨h1, h2, h3, h4, h5, h6⟩ := h.rs.precommits pk v e
      exact ⟨h1, h2, h3, h4, h5, h6⟩
  | precommit v w hv ht hfree =>
    refine ⟨⟨h.rs.proposal, fun pk x e => ?_, h.rs.last⟩, h.snapshot⟩
    have e : (s.rs.precommits.put v.validatorPK v).get pk = some x := e
    by_cases hpk : pk = v.validatorPK
    · subst hpk
      rw [Bucket.get_put_self] at e
      obtain rfl := Option.some.inj e
      exact ⟨rfl, (show w = vals from hv.stakes) ▸ hv.validator, ht, hv.height, hv.round, hv.verified⟩
    · rw [Bucket.get_put_ne _ _ hpk] at e
      obtain ⟨h1, h2, h3, h4, h5, h6⟩ := h.rs.precommits pk x e
      exact ⟨h1, h2, h3, h4, h5, h6⟩

theorem SoundCore.moves (h : SoundCore c.W c.chainID vals s) (hm : Moves c (soundRules c.W c.chainID vals) s s') :
    SoundCore c.W c.chainID vals s' :=
  run_keeps (fun h hm => h.move hm) hm h

end

/-! ## The attestation of a committed block -/

section

variable {h : Hash} {rs : RoundState}

theorem SoundRound.attested (hs : SoundRound W chainID vals rs) (hd : decided rs.precommits vals h = true) :
    Attested W chainID vals (attestationFromPrecommits rs.precommits h) := by
  have hheard : ∀ pk v, rs.precommits.get pk = some v → Heard W chainID rs .precommit pk v := by
    intro pk v hget
    obtain ⟨h1, -, h3, h4, h5, h6⟩ := hs.precommits pk v hget
    exact ⟨h1, h3, h4, h5, h6⟩
  obtain ⟨-, -, hcert⟩ := attestation_iff hheard hd
  exact Or.inr (hcert.mpr fun pk v hget _ => (hs.precommits pk v hget).validator)

theorem SoundCore.next {s s' : Core} (hs : SoundCore W chainID vals s)
    (hd : decided s.rs.precommits vals h = true) (hn : Next s s' h) : SoundCore W chainID vals s' := by
  have hrs : SoundRound W chainID vals s'.rs := by
    rw [hn.rs]
    exact .begin rfl rfl (hs.rs.attested hd)
  refine ⟨hrs, fun rs e => ?_⟩
  rcases hn.snapshot with h0 | h1 | h2
  · rw [h0] at e
    cases e
  · exact hs.snapshot rs (h1 ▸ e)
  · rw [h2] at e
    exact Option.some.inj e ▸ hrs

end

/-! ## Restarts -/

section

variable {σ : Type} {c : Config σ} {rs rs' : RoundState}

theorem restoreProposal_sound {height : UInt64} {p p' : BlockProposal} (hs : Sound c.W c.chainID vals height p)
    (h : restoreProposal c p = some p') : p' = p := by
  unfold restoreProposal at h
  split at h
  · rename_i q hq
    split at h
    · obtain rfl := Option.some.inj h
      obtain ⟨bytes, hser, hdes⟩ := Go.bind_eq_ok.mp hq
      obtain ⟨-, hmax, -⟩ := serializeProposal_ok.mp hser
      rcases Nat.lt_or_ge p.txs.length 65536 with hlt | hge
      · rw [deserializeProposal_serializeProposal hser hs.decoded hlt] at hdes
        exact (Go.ok.inj hdes).symm
      · rw [deserializeProposal_full hser (le_antisymm hmax hge)] at hdes
        cases hdes
    · cases h
  · cases h

theorem SoundRound.decoded (hs : SoundRound c.W c.chainID vals rs) (h : decodeRoundState c rs = some rs') :
    SoundRound c.W c.chainID vals rs' := by
  unfold decodeRoundState at h
  dsimp only at h
  split at h
  swap
  · cases h
  rename_i proposal last hprop hlast
  split at h
  swap
  · cases h
  obtain rfl := Option.some.inj h
  refine ⟨fun p e => ?_, fun pk v e => ?_, ?_⟩
  · obtain rfl : proposal = some p := e
    cases hp : rs.proposal with
    | none =>
      rw [hp] at hprop
      cases hprop
    | some q =>
      rw [hp] at hprop
      obtain ⟨q', hq', hq⟩ := Option.map_eq_some_iff.mp hprop
      obtain rfl := Option.some.inj hq
      have hsound := hs.proposal q hp
      rw [restoreProposal_sound hsound hq']
      exact hsound
  · obtain ⟨h1, h2, h3, h4, h5, h6⟩ := hs.precommits pk v e
    exact ⟨h1, h2, h3, h4, h5, h6⟩
  · unfold restoreAttestation at hlast
    split at hlast
    · obtain rfl := Option.some.inj hlast
      exact Or.inl rfl
    · split at hlast
      · obtain rfl := Option.some.inj hlast
        exact hs.last
      · cases hlast

theorem start_sound {disk : Disk} {pool : σ} {history : List Entry}
    (hs : ∀ rs, disk.snapshot = some rs → SoundRound c.W c.chainID vals rs) :
    SoundCore c.W c.chainID vals (start c disk pool history).core := by
  have hnew : SoundRound c.W c.chainID vals (.new (disk.db.height + 1)) := .begin rfl rfl (Or.inl rfl)
  obtain ⟨hrs, hsnap⟩ := start_keeps c hnew SoundRound.decoded hs pool history
  exact ⟨hrs, hsnap⟩

end

/-! ## Proposals that enter a round -/

/-- Every queued transaction has been decoded. -/
def PoolDecoded (P : Prim) (m : Mempool) : Prop := ∀ t ∈ m.queue.map (·.2), Decoded P t

theorem PoolDecoded.removeCommitted {P : Prim} {m : Mempool} (h : PoolDecoded P m) (txs : List Tx) :
    PoolDecoded P (m.removeCommitted P txs) := fun t ht => h t (((m.removeCommitted_sublist P txs).map _).subset ht)

section

variable (W) (chainID) (self : Key) (fault : Write → Option Err)

/-- The engine of a node, with any of its writes failing. -/
def nodeConfig : Config Mempool := (Config.node W chainID self).failing fault

end

section

variable {self : Key} {fault : Write → Option Err} {e : Engine Mempool} {i : Input} {order : MapOrder}

theorem PoolDecoded.feeds {ρ : Rules} (ht : ∀ t, ρ.tx t → Decoded W.toPrim t) {m m' : Mempool}
    (h : PoolDecoded W.toPrim m) (hm : ReflTransGen (Feeds (nodeConfig W chainID self fault) ρ) m m') :
    PoolDecoded W.toPrim m' := by
  refine run_keeps (fun {a b} ha hstep => ?_) hm h
  rcases hstep with ⟨height, txs, rfl⟩ | ⟨t, hok, rfl⟩
  · exact ha.removeCommitted txs
  · intro x hx
    rcases mem_enqueue hx with rfl | hx
    · exact ht x hok
    · exact ha x hx

theorem proposerOf_mem {σ : Type} {c : Config σ} {e : Engine σ} (hne : vals ≠ []) :
    proposerOf c e vals ∈ vals.map (·.1) := by
  obtain ⟨k, hk, heq⟩ := skipProposer_mem c.W.toPrim e.prevStateRoot e.rs.height
    (show vals.map (·.1) ≠ [] by simpa using hne) e.rs.round
  unfold proposerOf
  rw [heq]
  exact hk

theorem offers_sound (hsign : ∀ k m, W.verify k m (W.sign k m) = true) (hp : PoolDecoded W.toPrim e.pool) :
    Offers (nodeConfig W chainID self fault) (soundRules W chainID vals) e vals := by
  intro rs p helected hown hlast
  obtain rfl := Option.some.inj hown
  refine ⟨rfl, hsign self _, fun hne => ?_, hlast, fun t ht => hp t ((List.take_sublist _ _).map _ |>.subset ht)⟩
  have hmem : proposerOf (nodeConfig W chainID self fault) { e with rs } vals ∈ vals.map (·.1) := proposerOf_mem hne
  rw [helected] at hmem
  exact hmem

theorem arriving_sound {c : Config Mempool} {raw : List UInt8} {p : BlockProposal} (hvals : e.validators = vals)
    (hparse : parseProposal c raw = .ok (some p)) (htimely : timely c p e = true)
    (hcheck : checkProposal c p e = .ok ()) :
    Sound c.W c.chainID vals e.rs.height p := by
  unfold parseProposal at hparse
  split at hparse
  · rename_i q hq
    split at hparse
    · rename_i hverify
      obtain rfl := Option.some.inj (Go.ok.inj hparse)
      simp only [timely, Bool.and_eq_true, decide_eq_true_eq] at htimely
      refine ⟨htimely.1.1.1.1.1, hverify, fun hne => ?_, ?_, deserializeProposal_decoded hq⟩
      · obtain ⟨k, hk, heq⟩ := skipProposer_mem c.W.toPrim e.prevStateRoot e.rs.height
          (show vals.map (·.1) ≠ [] by simpa using hne) e.rs.round
        have helected := htimely.2
        rw [hvals, heq] at helected
        exact Go.ok.inj helected ▸ hk
      · by_cases hnil : q.prevAttestations.votes = []
        · exact Or.inl hnil
        · exact Or.inr (hvals ▸ checkProposal_certificate hcheck hnil)
    · cases Go.ok.inj hparse
  · cases Go.ok.inj hparse
  · cases hparse

/-- A step of a node with fresh copies of the validators and a decoded mempool. -/
theorem sound_permits (hsign : ∀ k m, W.verify k m (W.sign k m) = true) (hf : Fresh e)
    (hb : bondedAmounts e.disk.db = vals) (hp : PoolDecoded W.toPrim e.pool)
    (ht : ∀ t, i = .enqueue t → Decoded W.toPrim t) :
    Permits (nodeConfig W chainID self fault) (soundRules W chainID vals) order e i := by
  refine ⟨hf.valsFor.trans hb, fun _ _ _ => trivial, fun _ _ => Or.inr trivial, fun _ _ => ⟨trivial, trivial⟩,
    fun _ => trivial, fun _ _ => trivial, ?_, ?_, fun e₁ he₁ => ?_, ht⟩
  · intro raw p _ hparse htimely hcheck _
    exact arriving_sound (hf.validators.trans hb) hparse htimely hcheck
  · rw [hf.validators, hb]
    exact offers_sound hsign hp
  · -- the pool of the restarted round lacks at most the transactions of the rejected block
    have hruns : Runs (nodeConfig W chainID self fault) { Rules.free with tx := Decoded W.toPrim } (valsFor e i)
        (e.popped i) e₁ := pending_restart_runs trivial (fun _ _ => trivial) (fun _ _ _ => trivial) he₁
    have hpop : (e.popped i).pool = e.pool := by cases i <;> rfl
    rw [hruns.db, popped_disk, hb]
    exact offers_sound hsign (PoolDecoded.feeds (fun _ h => h) (hpop ▸ hp) hruns.pool)

end

/-! ## Runs of an honest node -/

section

variable (W) (chainID) (self : Key)

/-- The block a step commits leaves the bonded validators as they were. -/
def KeepsSet (c : Config Mempool) (order : MapOrder) (e : Engine Mempool) (i : Input) : Prop :=
  match pending c order e i with
  | .committed _ e₁ => bondedAmounts e₁.disk.db = bondedAmounts e.disk.db
  | _ => True

/-- The committed proposals by height, after a step. -/
def grown (c : Config Mempool) (order : MapOrder) (e : Engine Mempool) (i : Input)
    (chain : UInt64 → Option BlockProposal) : UInt64 → Option BlockProposal :=
  match pending c order e i with
  | .committed _ _ => Function.update chain e.rs.height e.rs.proposal
  | _ => chain

/-- The bonded validators stay the same, and the transactions that reach the node have been decoded. -/
def honestRegime : Regime Mempool where
  takes c order e i := (∀ t, i = .enqueue t → Decoded W.toPrim t) ∧ KeepsSet c order e i
  finds _ e disk pool _ := disk = e.disk ∧ PoolDecoded W.toPrim pool

/-- Runs of a node from what is on its disk, with the proposals it committed. The bonded
    validators stay the same, the transactions that reach the node have been decoded, writes
    may fail, and the node may be restarted at any time. -/
def NodeRun (disk₀ : Disk) : (UInt64 → Option BlockProposal) → Engine Mempool → Prop :=
  Recorded (fun e => ∃ pool history, PoolDecoded W.toPrim pool ∧
    e = start (Config.node W chainID self) disk₀ pool history)
    ((honestRegime W).Turns (Config.node W chainID self)) (fun _ => none) fun chain e turn =>
      match turn with
      | .input fault order i => grown (nodeConfig W chainID self fault) order e i chain
      | .crash _ _ _ => chain

/-- The block stored at a height is that of the proposal `p`. -/
def StoredFrom (db : DB) (height : UInt64) (p : BlockProposal) : Prop :=
  ∃ root bytes data, serializeProposal W.toPrim p = .ok bytes ∧
    serializeBlock W { blockOf height p bytes with stateRoot := root } = .ok data ∧
    db.blocks.get (blockKey height) = some data

/-- What holds in every state of a run: the round, the saved round and every block committed
    since height `h₀` are sound. -/
structure Intact (vals : Stakes) (h₀ : UInt64) (chain : UInt64 → Option BlockProposal) (e : Engine Mempool) : Prop where
  fresh : Fresh e
  bonds : bondedAmounts e.disk.db = vals
  core : SoundCore W chainID vals e.core
  pool : PoolDecoded W.toPrim e.pool
  stored : ∀ k, h₀ < k → k ≤ e.disk.db.height →
    ∃ p, chain k = some p ∧ vals ≠ [] ∧ Sound W chainID vals k p ∧ StoredFrom W e.disk.db k p

end

section

variable {self : Key} {fault : Write → Option Err} {order : MapOrder} {i : Input} {e e' : Engine Mempool} {h₀ : UInt64}
  {chain : UInt64 → Option BlockProposal}

theorem KeepsSet.keepsBonds {c : Config Mempool} (h : KeepsSet c order e i) : KeepsBonds c order e i := by
  unfold KeepsSet at h
  unfold KeepsBonds
  split
  · rename_i x e₁ hp
    rw [hp] at h
    exact Or.inr h
  · trivial

theorem decided_ne_nil {votes : Bucket Key Vote} {h : Hash} (hd : decided votes vals h = true) : vals ≠ [] := by
  rintro rfl
  exact totalStake_pos hd rfl

theorem StoredFrom.commit {pre post : DB} {chainID : List UInt8} {height : UInt64} {p q : BlockProposal}
    {bytes : List UInt8}
    {r : Result} (hser : serializeProposal W.toPrim p = .ok bytes)
    (happ : applyBlockForChain W order pre (blockOf height p bytes) chainID = (.ok r, post)) :
    StoredFrom W post height p ∧
      ∀ k, 0 < k → k ≤ pre.height → StoredFrom W pre k q → StoredFrom W post k q := by
  obtain ⟨hnext, -, data, hdata, hblocks⟩ := applyBlockForChain_blocks happ
  have hnext : height = pre.height + 1 := hnext
  have hblocks : post.blocks = pre.blocks.put (blockKey height) data := hblocks
  refine ⟨⟨r.stateRoot, bytes, data, hser, hdata, by rw [hblocks, Bucket.get_put_self]⟩, ?_⟩
  rintro k hk hle ⟨root, bytes', data', hs, hb, hget⟩
  refine ⟨root, bytes', data', hs, hb, ?_⟩
  have hne : k ≠ height := hnext ▸ ne_next hk hle
  rw [hblocks, Bucket.get_put_ne _ _ fun e => hne (blockKey_inj e), hget]

theorem Intact.extended (h : Intact W chainID vals h₀ chain e) {p : BlockProposal} {bytes : List UInt8}
    {r : Result} {db : DB}
    (hprop : e.rs.proposal = some p) (hne : vals ≠ []) (hser : serializeProposal W.toPrim p = .ok bytes)
    (happ : applyBlockForChain W order e.disk.db (blockOf e.rs.height p bytes) chainID = (.ok r, db)) :
    ∀ k, h₀ < k → k ≤ db.height → ∃ q, Function.update chain e.rs.height e.rs.proposal k = some q ∧ vals ≠ [] ∧
      Sound W chainID vals k q ∧ StoredFrom W db k q := by
  intro k hk hle
  by_cases hke : k = e.rs.height
  · subst hke
    rw [Function.update_self]
    exact ⟨p, hprop, hne, h.core.rs.proposal p hprop, (StoredFrom.commit (q := p) hser happ).1⟩
  · rw [Function.update_of_ne hke]
    have hheight : e.rs.height = e.disk.db.height + 1 := h.fresh.height
    have hpost : db.height = e.rs.height := by
      obtain ⟨run, -⟩ := applyBlockForChain_ok happ
      exact run.height
    rw [hpost, hheight] at hle
    have hle' : k ≤ e.disk.db.height := le_of_le_next hle (hheight ▸ hke)
    obtain ⟨q, hq, -, hsound, hstored⟩ := h.stored k hk hle'
    have hpos : 0 < k := UInt64.lt_of_le_of_lt UInt64.zero_le hk
    exact ⟨q, hq, hne, hsound, (StoredFrom.commit hser happ).2 k hpos hle' hstored⟩

theorem Intact.step (hsign : ∀ k m, W.verify k m (W.sign k m) = true) (h : Intact W chainID vals h₀ chain e)
    (hs : step (nodeConfig W chainID self fault) order e i = some e') (ht : ∀ t, i = .enqueue t → Decoded W.toPrim t)
    (hk : KeepsSet (nodeConfig W chainID self fault) order e i) :
    Intact W chainID vals h₀ (grown (nodeConfig W chainID self fault) order e i chain) e' := by
  have hfresh : Fresh e' := h.fresh.step hk.keepsBonds hs
  have hperm : Permits (nodeConfig W chainID self fault) (soundRules W chainID vals) order e i :=
    sound_permits hsign h.fresh h.bonds h.pool ht
  have hpop : (e.popped i).pool = e.pool := by cases i <;> rfl
  obtain ⟨-, rfl⟩ := step_eq_some hs
  cases hp : pending (nodeConfig W chainID self fault) order e i with
  | committed x e₁ =>
    obtain ⟨hcom, -⟩ := handle_commits hperm hp
    obtain ⟨s, hm, -, hd, hn⟩ := hcom.moves
    rw [popped_core] at hm
    rw [h.fresh.valsFor, h.bonds] at hd
    obtain ⟨m, txs, hfeeds, hpool⟩ := hcom.pool
    obtain ⟨p, bytes, r, hprop, -, hser, happ⟩ := pending_committed hp
    simp only [KeepsSet, hp] at hk
    refine ⟨hfresh, ?_, (h.core.moves hm).next hd hn, ?_, ?_⟩
    · rw [hcom.db, hk, h.bonds]
    · rw [hpool]
      exact (PoolDecoded.feeds (ρ := soundRules W chainID vals) (fun _ h => h) (hpop ▸ h.pool) hfeeds).removeCommitted
        txs
    · simp only [grown, hp]
      rw [hcom.db]
      exact h.extended hprop (decided_ne_nil hd) hser happ
  | stay | restart | crash =>
    have hruns := handle_runs hperm fun x e₁ h => by rw [hp] at h; cases h
    have hdb : (handle (nodeConfig W chainID self fault) order e i).disk.db = e.disk.db := by rw [hruns.db, popped_disk]
    have hm := hruns.moves
    rw [popped_core] at hm
    refine ⟨hfresh, by rw [hdb, h.bonds], h.core.moves hm, ?_, ?_⟩
    · exact PoolDecoded.feeds (ρ := soundRules W chainID vals) (fun _ h => h) (hpop ▸ h.pool) hruns.pool
    · simp only [grown, hp]
      rw [hdb]
      exact h.stored

theorem start_intact {disk : Disk} {pool : Mempool} {history : List Entry} (hb : bondedAmounts disk.db = vals)
    (hsnap : ∀ rs, disk.snapshot = some rs → SoundRound W chainID vals rs) (hpool : PoolDecoded W.toPrim pool)
    (hstored : ∀ k, h₀ < k → k ≤ disk.db.height →
      ∃ p, chain k = some p ∧ vals ≠ [] ∧ Sound W chainID vals k p ∧ StoredFrom W disk.db k p) :
    Intact W chainID vals h₀ chain (start (Config.node W chainID self) disk pool history) := by
  obtain ⟨-, -, hdisk, -, -⟩ := start_started (Config.node W chainID self) disk pool history
  refine ⟨start_fresh _ _ _ _, by rw [hdisk, hb], start_sound (c := Config.node W chainID self) hsnap, ?_, ?_⟩
  · rw [start_pool]
    exact hpool
  · rw [hdisk]
    exact hstored

theorem NodeRun.intact {disk₀ : Disk} (hsign : ∀ k m, W.verify k m (W.sign k m) = true)
    (hsaved : ∀ rs, disk₀.snapshot = some rs → SoundRound W chainID (bondedAmounts disk₀.db) rs)
    (hrun : NodeRun W chainID self disk₀ chain e) :
    Intact W chainID (bondedAmounts disk₀.db) disk₀.db.height chain e := by
  induction hrun with
  | start hstart =>
    obtain ⟨pool, history, hpool, rfl⟩ := hstart
    exact start_intact rfl hsaved hpool fun k hk hle => absurd hle (UInt64.not_le.mpr hk)
  | step _ hturn ih =>
    cases hturn with
    | input hg hs => exact ih.step hsign hs hg.1 hg.2
    | crash hf =>
      obtain ⟨rfl, hpool⟩ := hf
      exact start_intact ih.bonds ih.core.snapshot hpool ih.stored

/-! ## Which ranges are accepted -/

/-- The stored blocks of `n` heights, up to the first that is missing. -/
def rawBlocks (db : DB) (height : UInt64) : Nat → List (List UInt8)
  | 0 => []
  | n + 1 =>
    match db.blocks.get (blockKey height) with
    | some raw => raw :: rawBlocks db (height + 1) n
    | none => []

/-- A stored block of a sound proposal is accepted exactly when its transactions can be
    written and read again. -/
theorem validateSyncedBlock_iff {height : UInt64} {p : BlockProposal} {root : Hash} {bytes data : List UInt8}
    (hne : vals ≠ []) (hs : Sound W chainID vals height p) (hser : serializeProposal W.toPrim p = .ok bytes)
    (hdata : serializeBlock W { blockOf height p bytes with stateRoot := root } = .ok data) :
    (∃ b, validateSyncedBlock W chainID vals height data = .ok b) ↔ p.txs ≠ [] ∧ p.txs.length < 65536 := by
  obtain ⟨batch, hbatch, -⟩ := serializeBlock_ok.mp hdata
  have hbatch : (if p.txs = [] then .ok [] else serializeBatch W.toPrim p.txs) = Go.ok batch := hbatch
  constructor
  · rintro ⟨b, hb⟩
    obtain ⟨hread, -, q, hq⟩ := validateSyncedBlock_ok.mp hb
    have hcount : p.txs.length < 65536 := by
      obtain ⟨-, hmax, -⟩ := serializeProposal_ok.mp hser
      refine lt_of_le_of_ne hmax fun hfull => ?_
      rw [deserializeBlock_full hdata hfull] at hread
      cases hread
    refine ⟨fun hnil => ?_, hcount⟩
    rw [deserializeBlock_serializeBlock hdata hs.decoded hcount] at hread
    obtain ⟨_, -, hwritten⟩ := hq.txs
    rw [← Go.ok.inj hread] at hwritten
    exact (serializeBatch_ok.mp hwritten).1 hnil
  · rintro ⟨hnil, hcount⟩
    rw [if_neg hnil] at hbatch
    exact ⟨_, validateSyncedBlock_ok.mpr ⟨deserializeBlock_serializeBlock hdata hs.decoded hcount, rfl, p,
      deserializeProposal_serializeProposal hser hs.decoded hcount, hs.signed, hs.validator hne, hs.height, rfl, rfl,
      ⟨batch, hbatch, hbatch⟩, checkAttestations_ok.mpr hs.attestation⟩⟩

/-- The block at a height has at least one and at most 65535 transactions. -/
def Sizable (chain : UInt64 → Option BlockProposal) (height : UInt64) : Prop :=
  ∃ p, chain height = some p ∧ p.txs ≠ [] ∧ p.txs.length < 65536

theorem validateSyncedBlocks_cons_isOk {data : List UInt8} {raws : List (List UInt8)} {a : UInt64} :
    (∃ bs, validateSyncedBlocks W chainID vals a (data :: raws) = .ok bs) ↔
      (∃ b, validateSyncedBlock W chainID vals a data = .ok b) ∧
        ∃ bs, validateSyncedBlocks W chainID vals (a + 1) raws = .ok bs := by
  constructor
  · rintro ⟨bs, hbs⟩
    obtain ⟨b, bs', hb, hbs', -⟩ := validateSyncedBlocks_cons.mp hbs
    exact ⟨⟨b, hb⟩, bs', hbs'⟩
  · rintro ⟨⟨b, hb⟩, bs', hbs'⟩
    exact ⟨b :: bs', validateSyncedBlocks_cons.mpr ⟨b, bs', hb, hbs', rfl⟩⟩

theorem Intact.synced (h : Intact W chainID vals h₀ chain e) : ∀ {n : Nat} {a : UInt64}, h₀ < a →
    a.toNat + n ≤ e.disk.db.height.toNat + 1 → (rawBlocks e.disk.db a n).length = n ∧
      ((∃ bs, validateSyncedBlocks W chainID vals a (rawBlocks e.disk.db a n) = .ok bs) ↔
        ∀ k, a ≤ k → k.toNat < a.toNat + n → Sizable chain k) := by
  intro n
  induction n with
  | zero =>
    intro a _ _
    refine ⟨rfl, iff_of_true ⟨[], rfl⟩ fun k hk hlt => ?_⟩
    have := UInt64.le_iff_toNat_le.mp hk
    omega
  | succ n ih =>
    intro a ha hle
    have hle' : a ≤ e.disk.db.height := UInt64.le_iff_toNat_le.mpr (by omega)
    obtain ⟨p, hchain, hne, hsound, root, bytes, data, hser, hdata, hget⟩ := h.stored a ha hle'
    have hone := validateSyncedBlock_iff hne hsound hser hdata
    have hrest : (rawBlocks e.disk.db (a + 1) n).length = n ∧
        ((∃ bs, validateSyncedBlocks W chainID vals (a + 1) (rawBlocks e.disk.db (a + 1) n) = .ok bs) ↔
          ∀ k, a < k → k.toNat < a.toNat + (n + 1) → Sizable chain k) := by
      cases n with
      | zero =>
        -- the height after the last one may not exist
        refine ⟨rfl, iff_of_true ⟨[], rfl⟩ fun k hk hlt => ?_⟩
        have := UInt64.lt_iff_toNat_lt.mp hk
        omega
      | succ m =>
        have hbound := e.disk.db.height.toNat_lt
        have hsucc : (a + 1).toNat = a.toNat + 1 := by
          rw [UInt64.toNat_add, UInt64.toNat_one]
          omega
        have hlt := UInt64.lt_iff_toNat_lt.mp ha
        obtain ⟨hlen, hiff⟩ := ih (a := a + 1) (UInt64.lt_iff_toNat_lt.mpr (by omega)) (by omega)
        refine ⟨hlen, hiff.trans (forall_congr' fun k => ?_)⟩
        rw [UInt64.le_iff_toNat_le, UInt64.lt_iff_toNat_lt, hsucc, Nat.succ_le_iff, Nat.add_right_comm, Nat.add_assoc]
    obtain ⟨hlen, hrest⟩ := hrest
    rw [rawBlocks, hget]
    dsimp only
    refine ⟨by rw [List.length_cons, hlen], ?_⟩
    rw [validateSyncedBlocks_cons_isOk, hone, hrest]
    constructor
    · rintro ⟨hsize, hlater⟩ k hk hlt
      by_cases hka : k = a
      · exact ⟨p, hka ▸ hchain, hsize⟩
      · refine hlater k (UInt64.lt_of_le_of_ne hk (Ne.symm hka)) hlt
    · intro hall
      refine ⟨?_, fun k hk hlt => hall k (UInt64.le_of_lt hk) hlt⟩
      obtain ⟨q, hq, hsize⟩ := hall a (UInt64.le_refl a) (by omega)
      rw [hchain] at hq
      exact Option.some.inj hq ▸ hsize

/-- The blocks a node committed, as stored, are accepted by a node with the same validators
    exactly when each of them has between 1 and 65535 transactions. -/
theorem synced_iff {disk₀ : Disk} (hsign : ∀ k m, W.verify k m (W.sign k m) = true)
    (hsaved : ∀ rs, disk₀.snapshot = some rs → SoundRound W chainID (bondedAmounts disk₀.db) rs)
    (hrun : NodeRun W chainID self disk₀ chain e) {db : DB} (hstate : bondedAmounts db = bondedAmounts disk₀.db)
    {a : UInt64}
    {n : Nat} (ha : disk₀.db.height < a) (hle : a.toNat + n ≤ e.disk.db.height.toNat + 1) :
    (rawBlocks e.disk.db a n).length = n ∧
      ((∃ bs, validateSyncedBlocks W chainID (bondedAmounts db) a (rawBlocks e.disk.db a n) = .ok bs) ↔
        ∀ k, a ≤ k → k.toNat < a.toNat + n → Sizable chain k) := by
  rw [hstate]
  exact (hrun.intact hsign hsaved).synced ha hle

end

/-! ## A chain of one validator -/

instance (c : Config Mempool) (order : MapOrder) (e : Engine Mempool) (i : Input) :
    Decidable (KeepsSet c order e i) := by
  unfold KeepsSet
  split <;> infer_instance

/-- One more input of validator 1, the only one, with the proposals committed so far. -/
def soloStep (s : (UInt64 → Option BlockProposal) × Engine Mempool) (i : Input) :
    Option ((UInt64 → Option BlockProposal) × Engine Mempool) :=
  let c := Config.node World.sample defaultChainID 1
  if KeepsSet c .id s.2 i then (step c .id s.2 i).map fun e => (grown c .id s.2 i s.1, e) else none

theorem NodeRun.computed {disk₀ : Disk} {is : List Input} {s s' : (UInt64 → Option BlockProposal) × Engine Mempool}
    (ht : ∀ t, Input.enqueue t ∈ is → Decoded Prim.sample t) (hs : NodeRun World.sample defaultChainID 1 disk₀ s.1 s.2)
    (h : is.foldlM soloStep s = some s') : NodeRun World.sample defaultChainID 1 disk₀ s'.1 s'.2 := by
  refine foldlM_keeps (I := fun s => NodeRun World.sample defaultChainID 1 disk₀ s.1 s.2)
    (fun x i hi y hx hstep => ?_) h hs
  unfold soloStep at hstep
  dsimp only at hstep
  split at hstep
  · rename_i hk
    obtain ⟨e, he, rfl⟩ := Option.map_eq_some_iff.mp hstep
    have htx : ∀ t, i = .enqueue t → Decoded Prim.sample t := fun t e => ht t (e ▸ hi)
    have he : Consensus.step (nodeConfig World.sample defaultChainID 1 fun _ => none) .id x.2 i = some e := he
    have hk : KeepsSet (nodeConfig World.sample defaultChainID 1 fun _ => none) .id x.2 i := hk
    have hturn : (honestRegime World.sample).Turns (.node World.sample defaultChainID 1) x.2
        (.input (fun _ => none) .id i) e := .input ⟨htx, hk⟩ he
    exact Recorded.step hx hturn
  · cases hstep

def soloDisk : Disk := ⟨soloDB, [], none⟩

theorem NodeRun.ofSolo {is : List Input} {s : (UInt64 → Option BlockProposal) × Engine Mempool}
    (ht : ∀ t, Input.enqueue t ∈ is → Decoded Prim.sample t) (h : is.foldlM soloStep (fun _ => none, solo) = some s) :
    NodeRun World.sample defaultChainID 1 soloDisk s.1 s.2 := by
  have hstart : NodeRun World.sample defaultChainID 1 soloDisk (fun _ => none) solo :=
    .start ⟨.new defaultCap, [], fun t ht => absurd ht List.not_mem_nil, rfl⟩
  exact NodeRun.computed (s := (fun _ => none, solo)) ht hstart h

/-- Account 2 pays account 3. -/
def paid : Tx := (Tx.plain .transfer 2 3 10 1).signed Prim.sample defaultChainID

theorem paid_decoded : Decoded Prim.sample paid := by
  have hok : (serialize Prim.sample paid).isOk = true := by decide +kernel
  obtain ⟨b, hb⟩ := Go.isOk_iff.mp hok
  exact ⟨b, deserialize_serialize ⟨rfl, rfl, rfl, fun _ => rfl, fun _ => rfl, fun _ => ⟨rfl, rfl⟩⟩ hb⟩

/-- The first block, with a payment, is accepted. -/
theorem synced_iff_paid : ∃ chain e, NodeRun World.sample defaultChainID 1 soloDisk chain e ∧ e.disk.db.height = 1 ∧
    ∃ bs, validateSyncedBlocks World.sample defaultChainID (bondedAmounts soloDB) 1 (rawBlocks e.disk.db 1 1) =
      .ok bs := by
  have hall : ((.enqueue paid :: soloBlock).foldlM soloStep (fun _ => none, solo)).any (fun s =>
      decide (s.2.disk.db.height = 1 ∧ (s.1 1).map (·.txs.length) = some 1)) = true := by decide +kernel
  obtain ⟨s, hs, hall⟩ := (Option.any_eq_true _ _).mp hall
  obtain ⟨hheight, hcount⟩ := of_decide_eq_true hall
  have htx : ∀ t, Input.enqueue t ∈ .enqueue paid :: soloBlock → Decoded Prim.sample t := by
    intro t ht
    obtain rfl : t = paid := by simpa [soloBlock] using ht
    exact paid_decoded
  have hrun : NodeRun World.sample defaultChainID 1 soloDisk s.1 s.2 := NodeRun.ofSolo htx hs
  obtain ⟨p, hp, hlen⟩ := Option.map_eq_some_iff.mp hcount
  have hsaved : ∀ rs, soloDisk.snapshot = some rs →
      SoundRound World.sample defaultChainID (bondedAmounts soloDisk.db) rs := fun rs h => by cases h
  have hfirst : soloDisk.db.height < 1 := by decide
  have hlast : (1 : UInt64).toNat + 1 ≤ s.2.disk.db.height.toNat + 1 := by
    rw [hheight]
  have hstate : bondedAmounts soloDB = bondedAmounts soloDisk.db := rfl
  have hiff := (synced_iff (W := World.sample) sample_verifies hsaved hrun hstate hfirst hlast).2
  refine ⟨s.1, s.2, hrun, hheight, hiff.mpr fun k hk hlt => ?_⟩
  obtain rfl : k = 1 := by
    have h1 := UInt64.le_iff_toNat_le.mp hk
    have h2 : (1 : UInt64).toNat = 1 := rfl
    exact UInt64.toNat_inj.mp (by omega)
  exact ⟨p, hp, by intro h; simp [h] at hlen, by omega⟩

/-- The first block of validator 1 is empty, and is refused. -/
theorem empty_block_not_synced : ∃ chain e, NodeRun World.sample defaultChainID 1 soloDisk chain e ∧
    e.disk.db.height = 1 ∧ (rawBlocks e.disk.db 1 1).length = 1 ∧
    validateSyncedBlocks World.sample defaultChainID (bondedAmounts soloDB) 1 (rawBlocks e.disk.db 1 1) = .err () := by
  have hall : (soloBlock.foldlM soloStep (fun _ => none, solo)).any (fun s =>
      decide (s.2.disk.db.height = 1 ∧ (rawBlocks s.2.disk.db 1 1).length = 1 ∧
        validateSyncedBlocks World.sample defaultChainID (bondedAmounts soloDB) 1 (rawBlocks s.2.disk.db 1 1) =
          .err ())) =
          true := by decide +kernel
  obtain ⟨s, hs, hall⟩ := (Option.any_eq_true _ _).mp hall
  exact ⟨s.1, s.2, NodeRun.ofSolo (fun t ht => by simp [soloBlock] at ht) hs, of_decide_eq_true hall⟩

end Frg.Node
