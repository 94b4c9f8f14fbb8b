/-
  Frg.Consensus.Attesting — the certificate an engine keeps of a block it commits.

  A vote enters a table of the round once `handleVote` has checked its height, its round, its
  signature and that its voter is among the validators it was called with (`Heard`). The
  tables outlive the call: they are persisted, and a restart reads them back and checks the
  signatures again, not the voters. `quorumBlock` gives a voter that is no longer a validator
  no stake, while `attestationFromPrecommits` takes its precommit with the others, and
  `VerifyAttestationForChain` refuses an attestation with such a vote.

    - `tabled_reached`: every vote in a table is verified, of this height and round, and kept
      under its voter, in every state of a node that may be restarted at any time; so the
      order of the tables does not matter (`quorumBlock_reached`).
    - `attestation_iff`: precommits that decide a round give an attestation for it; it is a
      certificate exactly when they are all of validators.
    - `commit_attested_iff`: the same for the attestation a commit leaves behind.
    - `unbonded_attested`: a precommit of an unbonded validator is restored and attested.
-/

import Frg.Consensus.Accountable
import Frg.Consensus.Validators
import Frg.Lib.Lists

namespace Frg.Consensus

open Frg.Lib Frg.Core Frg.Wire Frg.Chain Relation

/-! ## The tables of a round -/

/-- The votes of one type. -/
def RoundState.table (rs : RoundState) : VoteType → Bucket Key Vote
  | .prevote => rs.prevotes
  | .precommit => rs.precommits

section

variable (W : World) (chainID : List UInt8)

/-- The vote is a verified one of `pk` in this round. -/
structure Heard (rs : RoundState) (t : VoteType) (pk : Key) (v : Vote) : Prop where
  voter : v.validatorPK = pk
  type : v.type = t.code
  height : v.height = rs.height
  round : v.round = rs.round
  verified : verifyVoteForChain W.toPrim v chainID = true

def Tabled (rs : RoundState) : Prop := ∀ t pk v, (rs.table t).get pk = some v → Heard W chainID rs t pk v

structure TabledCore (s : Core) : Prop where
  rs : Tabled W chainID s.rs
  snapshot : ∀ rs, s.snapshot = some rs → Tabled W chainID rs

end

section

variable {W : World} {chainID : List UInt8} {rs rs' : RoundState}

theorem Tabled.keyed (h : Tabled W chainID rs) (t : VoteType) : Keyed (rs.table t) := fun pk v e => (h t pk v e).voter

theorem Tabled.of_eq (h : Tabled W chainID rs) (ht : ∀ t, rs'.table t = rs.table t) (hh : rs'.height = rs.height)
    (hr : rs'.round = rs.round) : Tabled W chainID rs' := by
  intro t pk v e
  obtain ⟨h1, h2, h3, h4, h5⟩ := h t pk v (ht t ▸ e)
  exact ⟨h1, h2, h3.trans hh.symm, h4.trans hr.symm, h5⟩

theorem Tabled.begin (h : ∀ t, rs.table t = .empty) : Tabled W chainID rs := by
  intro t pk v e
  rw [h t] at e
  cases e

theorem Tabled.put (h : Tabled W chainID rs) {t : VoteType} {v : Vote} (hv : Heard W chainID rs t v.validatorPK v)
    (hput : rs'.table t = (rs.table t).put v.validatorPK v) (hother : ∀ u, u ≠ t → rs'.table u = rs.table u)
    (hh : rs'.height = rs.height) (hr : rs'.round = rs.round) : Tabled W chainID rs' := by
  have hmove : ∀ {u pk x}, Heard W chainID rs u pk x → Heard W chainID rs' u pk x := fun hx =>
    ⟨hx.voter, hx.type, hx.height.trans hh.symm, hx.round.trans hr.symm, hx.verified⟩
  intro u pk x e
  by_cases hu : u = t
  · subst hu
    rw [hput] at e
    by_cases hpk : pk = v.validatorPK
    · subst hpk
      rw [Bucket.get_put_self] at e
      obtain rfl := Option.some.inj e
      exact hmove hv
    · rw [Bucket.get_put_ne _ _ hpk] at e
      exact hmove (h u pk x e)
  · rw [hother u hu] at e
    exact hmove (h u pk x e)

variable {σ : Type} {c : Config σ} {ρ : Rules} {s s' : Core}

theorem Counts.heard {v : Vote} {vals : Stakes} {t : VoteType} (h : Counts c ρ rs v vals) (ht : v.type = t.code) :
    Heard c.W c.chainID rs t v.validatorPK v := ⟨rfl, ht, h.height, h.round, h.verified⟩

theorem TabledCore.move (h : TabledCore c.W c.chainID s) (hm : Move c ρ s s') : TabledCore c.W c.chainID s' := by
  have hsame : ∀ {rs' : RoundState}, (∀ t, rs'.table t = s.rs.table t) → rs'.height = s.rs.height →
      rs'.round = s.rs.round → Tabled c.W c.chainID rs' := fun ht hh hr => h.rs.of_eq ht hh hr
  cases hm with
  | prevote v vals hv ht =>
    refine ⟨h.rs.put (hv.heard ht) rfl (fun u hu => ?_) rfl rfl, h.snapshot⟩
    cases u with
    | prevote => exact absurd rfl hu
    | precommit => rfl
  | precommit v vals hv ht =>
    refine ⟨h.rs.put (hv.heard ht) rfl (fun u hu => ?_) rfl rfl, h.snapshot⟩
    cases u with
    | prevote => rfl
    | precommit => exact absurd rfl hu
  | decide => exact ⟨hsame (fun t => by cases t <;> rfl) rfl rfl, h.snapshot⟩
  | polka | refuse => exact ⟨h.rs, h.snapshot⟩
  | persist => exact ⟨h.rs, fun rs e => Option.some.inj e ▸ h.rs⟩
  | next | restart => exact ⟨.begin fun t => by cases t <;> rfl, h.snapshot⟩
  | lock | abstain | enter =>
    refine ⟨?_, by rw [Core.cast_snapshot]; exact h.snapshot⟩
    rw [Core.cast_rs]
    exact hsame (fun t => by cases t <;> rfl) rfl rfl

theorem TabledCore.moves (h : TabledCore c.W c.chainID s) (hm : Moves c ρ s s') : TabledCore c.W c.chainID s' :=
  run_keeps (fun h hm => h.move hm) hm h

theorem TabledCore.next {h : Hash} (hs : TabledCore W chainID s) (hn : Next s s' h) : TabledCore W chainID s' := by
  have hrs : Tabled W chainID s'.rs := .begin fun t => by rw [hn.rs]; cases t <;> rfl
  refine ⟨hrs, fun rs e => ?_⟩
  rcases hn.snapshot with h0 | h1 | h2
  · rw [h0] at e
    cases e
  · exact hs.snapshot rs (h1 ▸ e)
  · rw [h2] at e
    exact Option.some.inj e ▸ hrs

/-! ## Restarts -/

theorem Tabled.decoded (hs : Tabled c.W c.chainID rs) (h : decodeRoundState c rs = some rs') :
    Tabled c.W c.chainID rs' := by
  obtain ⟨_, _, rfl⟩ := decodeRoundState_some c h
  exact hs.of_eq (fun t => by cases t <;> rfl) rfl rfl

theorem start_tabled {disk : Disk} {pool : σ} {history : List Entry}
    (hs : ∀ rs, disk.snapshot = some rs → Tabled c.W c.chainID rs) :
    TabledCore c.W c.chainID (start c disk pool history).core := by
  have hnew : Tabled c.W c.chainID (.new (disk.db.height + 1)) := .begin fun t => by cases t <;> rfl
  obtain ⟨hrs, hsnap⟩ := start_keeps c hnew Tabled.decoded hs pool history
  exact ⟨hrs, hsnap⟩

/-- A step of a node, in which writes may fail, or a crash and the restart behind it: the
    persisted round state is read back, whatever has become of the chain meanwhile. -/
def LifeStep : Config σ → Engine σ → Engine σ → Prop :=
  Regime.Step ⟨fun _ _ _ _ => True, fun _ e disk _ _ => disk.snapshot = e.disk.snapshot⟩

theorem TabledCore.life {e e' : Engine σ} (h : TabledCore c.W c.chainID e.core) (hs : LifeStep c e e') :
    TabledCore c.W c.chainID e'.core := by
  obtain ⟨_, hs⟩ := hs
  cases hs with
  | @input fault order i _ _ hs =>
    obtain ⟨-, rfl⟩ := step_eq_some hs
    rcases handle_core (Permits.free (c.failing fault) order e i) with hm | ⟨s, x, -, hm, -, hn⟩
    · exact TabledCore.moves (c := c.failing fault) h hm
    · exact (TabledCore.moves (c := c.failing fault) h hm).next hn
  | crash hsnap => exact start_tabled fun rs e => h.snapshot rs (hsnap.symm.trans e)

theorem tabled_reached {disk : Disk} {pool : σ} {history : List Entry} {e : Engine σ} (hd : disk.snapshot = none)
    (hrun : ReflTransGen (LifeStep c) (start c disk pool history) e) : TabledCore c.W c.chainID e.core := by
  refine run_keeps (I := fun e => TabledCore c.W c.chainID e.core) (fun h hs => h.life hs) hrun
    (start_tabled fun rs e => ?_)
  rw [hd] at e
  cases e

/-- A node counts the same in whatever order it goes through its tables. -/
theorem quorumBlock_reached {disk : Disk} {pool : σ} {history : List Entry} {e : Engine σ} (hd : disk.snapshot = none)
    (hrun : ReflTransGen (LifeStep c) (start c disk pool history) e) {vals : Stakes} (hnd : (vals.map (·.1)).Nodup)
    (t : VoteType) (order order' : MapOrder) :
    quorumBlock order (e.rs.table t) vals = quorumBlock order' (e.rs.table t) vals :=
  quorumBlock_order hnd ((tabled_reached hd hrun).rs.keyed t) order order'

end

/-! ## The attestation of a round -/

section

variable {votes : Bucket Key Vote} {vals : Stakes} {h : Hash}

theorem attestation_perm : (attestationFromPrecommits votes h).votes.Perm
    ((votes.entries.map (·.2)).filter fun v => v.type = VoteType.precommit.code ∧ v.blockHash = h) := by
  refine List.Perm.trans (.of_eq ?_) (List.perm_insertionSort (·.validatorPK ≤ ·.validatorPK) _)
  unfold attestationFromPrecommits
  dsimp only
  split
  · rename_i hnil
    exact hnil.symm
  · rfl

theorem mem_attestation {v : Vote} : v ∈ (attestationFromPrecommits votes h).votes ↔
    (∃ pk, votes.get pk = some v) ∧ v.type = VoteType.precommit.code ∧ v.blockHash = h := by
  rw [attestation_perm.mem_iff, List.mem_filter, decide_eq_true_eq, List.mem_map]
  refine and_congr_left fun _ => ⟨?_, ?_⟩
  · rintro ⟨x, hx, rfl⟩
    exact ⟨x.1, Bucket.mem_entries.mp hx⟩
  · rintro ⟨pk, hget⟩
    exact ⟨(pk, v), Bucket.mem_entries.mpr hget, rfl⟩

@[simp] theorem attestation_blockHash : (attestationFromPrecommits votes h).blockHash = h := by
  unfold attestationFromPrecommits
  dsimp only
  split <;> rfl

theorem attestation_context (hne : (attestationFromPrecommits votes h).votes ≠ []) :
    ∃ v ∈ (attestationFromPrecommits votes h).votes, (attestationFromPrecommits votes h).height = v.height ∧
      (attestationFromPrecommits votes h).round = v.round := by
  revert hne
  unfold attestationFromPrecommits
  dsimp only
  split
  · exact fun hne => absurd rfl hne
  · rename_i v _ hv
    intro _
    refine ⟨v, ?_, rfl, rfl⟩
    rw [hv]
    exact List.mem_cons_self

theorem attestation_distinct (hk : Keyed votes) :
    ((attestationFromPrecommits votes h).votes.map (·.validatorPK)).Nodup := by
  have hkeys : (votes.entries.map (·.2)).map (·.validatorPK) = votes.keys := by
    unfold Bucket.keys
    rw [List.map_map]
    exact List.map_congr_left fun x hx => hk x.1 x.2 (Bucket.mem_entries.mp hx)
  rw [(attestation_perm.map _).nodup_iff]
  exact (hkeys ▸ votes.keys_nodup).sublist (List.filter_sublist.map _)

/-- The stake that is attested is the stake that was counted. -/
theorem attestation_stake (ht : ∀ pk v, votes.get pk = some v → v.type = VoteType.precommit.code) :
    attestedStake vals (attestationFromPrecommits votes h).votes = tally votes vals h := by
  unfold attestedStake tally
  rw [(attestation_perm.map _).sum_eq, sum_filter_map, List.map_map]
  refine congrArg List.sum (List.map_congr_left fun x hx => ?_)
  simp [ht x.1 x.2 (Bucket.mem_entries.mp hx), stakeWeight]

theorem attestation_ne_nil (ht : ∀ pk v, votes.get pk = some v → v.type = VoteType.precommit.code)
    (hd : decided votes vals h = true) : (attestationFromPrecommits votes h).votes ≠ [] := by
  intro hnil
  unfold decided at hd
  rw [decide_eq_true_eq, ← attestation_stake ht, hnil] at hd
  exact absurd hd (Nat.not_lt_zero _)

theorem totalStake_pos (hd : decided votes vals h = true) : totalStake vals ≠ 0 := by
  intro h0
  have hzero : ∀ pk, (stakeOf vals pk).getD 0 = 0 := by
    intro pk
    cases hs : stakeOf vals pk with
    | none => rfl
    | some s =>
      obtain ⟨l₁, l₂, hl, -⟩ := List.lookup_eq_some_iff.mp hs
      have hmem : (pk, s) ∈ vals := List.mem_reverse.mp (hl ▸ List.mem_append_right _ List.mem_cons_self)
      exact List.sum_eq_zero_iff.mp h0 s (List.mem_map_of_mem hmem)
  have htally : tally votes vals h = 0 := by
    unfold tally
    rw [List.sum_eq_zero_iff]
    intro n hn
    obtain ⟨x, -, rfl⟩ := List.mem_map.mp hn
    rw [hzero, ite_self]
  unfold decided at hd
  rw [decide_eq_true_eq, htally] at hd
  omega

variable {W : World} {chainID : List UInt8} {rs : RoundState}

theorem attestation_iff (hs : ∀ pk v, rs.precommits.get pk = some v → Heard W chainID rs .precommit pk v)
    (hd : decided rs.precommits vals h = true) :
    let a := attestationFromPrecommits rs.precommits h
    a.height = rs.height ∧ a.round = rs.round ∧ (verifyAttestationForChain W.toPrim a vals chainID = .ok () ↔
      ∀ pk v, rs.precommits.get pk = some v → v.blockHash = h → pk ∈ vals.map (·.1)) := by
  intro a
  have hheard : ∀ v ∈ a.votes, Heard W chainID rs .precommit v.validatorPK v ∧ v.blockHash = h := by
    intro v hv
    obtain ⟨⟨pk, hget⟩, -, hh⟩ := mem_attestation.mp hv
    have hv' := hs pk v hget
    exact ⟨hv'.voter.symm ▸ hv', hh⟩
  have hstake : attestedStake vals a.votes = tally rs.precommits vals h :=
    attestation_stake fun pk v e => (hs pk v e).type
  have hpos : totalStake vals ≠ 0 := totalStake_pos hd
  have hne : a.votes ≠ [] := attestation_ne_nil (fun pk v e => (hs pk v e).type) hd
  unfold decided at hd
  rw [decide_eq_true_eq, ← hstake] at hd
  obtain ⟨v₀, hv₀, hheight, hround⟩ := attestation_context hne
  have hheight : a.height = rs.height := hheight.trans (hheard v₀ hv₀).1.height
  have hround : a.round = rs.round := hround.trans (hheard v₀ hv₀).1.round
  refine ⟨hheight, hround, ?_⟩
  rw [verifyAttestationForChain_ok]
  constructor
  · rintro ⟨-, -, hcert⟩ pk v hget hh
    have hv := hs pk v hget
    exact hv.voter ▸ (hcert.votes v (mem_attestation.mpr ⟨⟨pk, hget⟩, hv.type, hh⟩)).validator
  · intro hvals
    refine ⟨hne, hpos, fun v hv => ?_, attestation_distinct fun pk v e => (hs pk v e).voter, hd⟩
    obtain ⟨hv', hh⟩ := hheard v hv
    obtain ⟨⟨pk, hget⟩, -, -⟩ := mem_attestation.mp hv
    have hpk : v.validatorPK = pk := (hs pk v hget).voter
    exact ⟨hv'.type, hv'.height.trans hheight.symm, hv'.round.trans hround.symm, hh.trans attestation_blockHash.symm,
      hpk ▸ hvals pk v hget hh, hv'.verified⟩

end

/-! ## Commits -/

/-- Votes are counted with `vals`, and the round stays. -/
def standing (vals : Stakes) : Rules := { Rules.free with stakes := fun w => w = vals, advance := fun _ => False }

section

variable {σ : Type} {c : Config σ} {vals : Stakes} {s s' : Core}

/-- What moves within a round do to its precommits: some of validators are added. -/
structure Joined (vals : Stakes) (s s' : Core) : Prop where
  round : s'.rs.round = s.rs.round
  kept : ∀ pk v, s.rs.precommits.get pk = some v → s'.rs.precommits.get pk = some v
  added : ∀ pk v, s'.rs.precommits.get pk = some v → s.rs.precommits.get pk = some v ∨ pk ∈ vals.map (·.1)

theorem Joined.of_eq (hr : s'.rs.round = s.rs.round) (hp : s'.rs.precommits = s.rs.precommits) : Joined vals s s' :=
  ⟨hr, fun _ _ e => hp ▸ e, fun _ _ e => Or.inl (hp ▸ e)⟩

theorem Joined.trans {s₁ s₂ s₃ : Core} (h : Joined vals s₁ s₂) (h' : Joined vals s₂ s₃) : Joined vals s₁ s₃ := by
  refine ⟨h'.round.trans h.round, fun pk v e => h'.kept pk v (h.kept pk v e), fun pk v e => ?_⟩
  rcases h'.added pk v e with e | hm
  · exact h.added pk v e
  · exact Or.inr hm

theorem Move.joined (hm : Move c (standing vals) s s') : Joined vals s s' := by
  cases hm with
  | precommit v w hv _ hfree =>
    refine ⟨rfl, fun pk x e => ?_, fun pk x e => ?_⟩
    · have hpk : pk ≠ v.validatorPK := by
        rintro rfl
        rw [hfree] at e
        cases e
      exact (Bucket.get_put_ne _ _ hpk).trans e
    · have e : (s.rs.precommits.put v.validatorPK v).get pk = some x := e
      by_cases hpk : pk = v.validatorPK
      · exact Or.inr (hpk ▸ (show w = vals from hv.stakes) ▸ hv.validator)
      · rw [Bucket.get_put_ne _ _ hpk] at e
        exact Or.inl e
  | prevote | decide | polka | refuse | persist => exact .of_eq rfl rfl
  | next h => exact False.elim h
  | restart _ h => exact False.elim h
  | lock | abstain | enter => exact .of_eq (by rw [Core.cast_rs]; rfl) (by rw [Core.cast_rs]; rfl)

theorem Moves.joined (hm : Moves c (standing vals) s s') : Joined vals s s' := by
  induction hm with
  | refl => exact .of_eq rfl rfl
  | tail _ hm ih => exact ih.trans hm.joined

variable {order : MapOrder} {e e₁ : Engine σ} {i : Input} {v : Vote} {x : Hash}

/-- A vote that leads to a commit is handled within its round. -/
theorem standing_permits (hi : incoming e i = some (v, vals)) (hc : pending c order e i = .committed x e₁) :
    Permits c (standing vals) order e i := by
  refine ⟨by simp only [valsFor, hi]; rfl, fun _ _ _ => trivial, fun _ _ => Or.inr trivial, fun e₂ hr => ?_,
    fun ht => ?_, fun _ _ => trivial, .free (fun _ _ => trivial) (fun _ => trivial) order e i⟩
  · rw [hc] at hr
    cases hr
  · subst ht
    cases hi

/-- Whatever a node has been through: when a vote that is counted with `vals` commits `x`,
    the attestation is for `x`, at this height and round, and a certificate, exactly when
    nobody but these validators has a precommit for the proposal in the round. -/
theorem commit_attested_iff {disk : Disk} {pool : σ} {history : List Entry} {fault : Write → Option Err} {e' : Engine σ}
    (hd : disk.snapshot = none) (hrun : ReflTransGen (LifeStep c) (start c disk pool history) e)
    (hs : step (c.failing fault) order e i = some e') (hi : incoming e i = some (v, vals))
    (hc : pending (c.failing fault) order e i = .committed x e₁) :
    (e'.rs.lastAttestation.blockHash = x ∧ e'.rs.lastAttestation.height = e.rs.height ∧
      e'.rs.lastAttestation.round = e.rs.round ∧
      verifyAttestationForChain c.W.toPrim e'.rs.lastAttestation vals c.chainID = .ok ()) ↔
    ∀ p, e.rs.proposal = some p → ∀ pk w, e.rs.precommits.get pk = some w →
      w.blockHash = blockHashForChain c.W.toPrim p c.chainID → pk ∈ vals.map (·.1) := by
  have htab : TabledCore c.W c.chainID e.core := tabled_reached hd hrun
  obtain ⟨-, rfl⟩ := step_eq_some hs
  obtain ⟨p, _, _, hp, hx, -⟩ := pending_committed hc
  have hx : blockHashForChain c.W.toPrim p c.chainID = x := hx
  obtain ⟨s, hm, -, hdec, hn⟩ := (handle_commits (standing_permits hi hc) hc).1.moves
  have hvals : valsFor e i = vals := by simp only [valsFor, hi]
  rw [popped_core] at hm
  rw [hvals] at hdec
  have hj : Joined vals e.core s := hm.joined
  have htab' : Tabled c.W c.chainID s.rs := (TabledCore.moves (c := c.failing fault) htab hm).rs
  obtain ⟨hheight, hround, hcert⟩ := attestation_iff (htab' .precommit) hdec
  have hlast : (handle (c.failing fault) order e i).rs.lastAttestation = attestationFromPrecommits s.rs.precommits x :=
    congrArg RoundState.lastAttestation hn.rs
  have hsh : s.rs.height = e.rs.height := hm.height
  have hsr : s.rs.round = e.rs.round := hj.round
  rw [hlast, hheight, hround, hcert, hsh, hsr]
  constructor
  · rintro ⟨-, -, -, hall⟩ q hq pk w hget hw
    obtain rfl := Option.some.inj (hp.symm.trans hq)
    exact hall pk w (hj.kept pk w hget) (hw.trans hx)
  · intro hall
    refine ⟨attestation_blockHash, rfl, rfl, fun pk w hget hw => ?_⟩
    rcases hj.added pk w hget with hget | hm
    · exact hall p hp pk w hget (hw.trans hx.symm)
    · exact hm

end

/-- The validators and the hash of a vote that commits. -/
def commits {σ : Type} (c : Config σ) (e : Engine σ) (i : Input) : Option (Stakes × Hash) :=
  match incoming e i, pending c .id e i with
  | some (_, vals), .committed x _ => some (vals, x)
  | _, _ => none

theorem commits_some {σ : Type} {c : Config σ} {e : Engine σ} {i : Input} {vals : Stakes} {x : Hash}
    (h : commits c e i = some (vals, x)) :
    ∃ v e₁, incoming e i = some (v, vals) ∧ pending c .id e i = .committed x e₁ := by
  unfold commits at h
  split at h
  · rename_i hi hp
    obtain ⟨rfl, rfl⟩ := Prod.mk.inj (Option.some.inj h)
    exact ⟨_, _, hi, hp⟩
  · cases h

/-- Validator 1 is about to leave validator 2 alone. -/
def pairDB : DB := { DB.new with
  balances := Bucket.empty.put 1 1000
  validators := (Bucket.empty.put 1 (.fresh (1000 * 10 ^ 18) 0)).put 2 (.fresh (3000 * 10 ^ 18) 0)
  totalSupply := some (4000 * 10 ^ 18 + 1000) }

/-- The node of validator 2. -/
def second : Config Mempool := .node World.sample defaultChainID 2

def pair : Engine Mempool := start second ⟨pairDB, [], none⟩ (.new defaultCap) []

def goes (e : Engine Mempool) (is : List Input) : Option (Engine Mempool) := is.foldlM (step second .id) e

theorem goes_reaches {e e' : Engine Mempool} {is : List Input} (h : goes e is = some e') :
    ReflTransGen (LifeStep second) e e' :=
  foldlM_reaches (fun _ _ _ hf => .input second.fault trivial hf) h

/-- Validator 1 precommits the block that validator 2 is going to propose. Validator 2 proposes and
    commits: the states around the last step. -/
def joinedRun : Option (Engine Mempool × Engine Mempool) := do
  let p ← (← goes pair [.delayElapsed, .proposeReady]).rs.proposal
  let v :=
    signVote (.node World.sample defaultChainID 1) .precommit 1 0 (blockHashForChain Prim.sample p defaultChainID)
  let e ← goes pair [.delayElapsed, .vote (serializeVote v), .proposeReady, .resume]
  return (e, ← step second .id e .resume)

theorem commit_attested_iff_joined : ∃ e e' vals x w, ReflTransGen (LifeStep second) pair e ∧
    step second .id e .resume = some e' ∧ commits second e .resume = some (vals, x) ∧
    e.rs.precommits.get 1 = some w ∧ w.blockHash = x ∧
    e'.rs.lastAttestation.blockHash = x ∧ e'.rs.lastAttestation.height = 1 ∧ e'.rs.lastAttestation.round = 0 ∧
    verifyAttestationForChain Prim.sample e'.rs.lastAttestation vals defaultChainID = .ok () := by
  have hrun : (joinedRun.bind fun (e, _) => (commits second e .resume).bind fun (vals, x) =>
      (e.rs.precommits.get 1).map fun w => decide ((e.rs.height = 1 ∧ e.rs.round = 0 ∧ w.blockHash = x) ∧
        ∀ y ∈ e.rs.precommits.entries, y.1 ∈ vals.map (·.1))) = some true := by
    decide +kernel
  obtain ⟨⟨e, e'⟩, hsteps, hrun⟩ := Option.bind_eq_some_iff.mp hrun
  obtain ⟨⟨vals, x⟩, hc, hrun⟩ := Option.bind_eq_some_iff.mp hrun
  obtain ⟨w, hw, hrun⟩ := Option.map_eq_some_iff.mp hrun
  obtain ⟨⟨hheight, hround, hx⟩, hall⟩ := of_decide_eq_true hrun
  unfold joinedRun at hsteps
  dsimp only [Option.bind_eq_bind] at hsteps
  obtain ⟨_, -, hsteps⟩ := Option.bind_eq_some_iff.mp hsteps
  obtain ⟨_, -, hsteps⟩ := Option.bind_eq_some_iff.mp hsteps
  obtain ⟨b, hb, hsteps⟩ := Option.bind_eq_some_iff.mp hsteps
  obtain ⟨b', hs, hsteps⟩ := Option.bind_eq_some_iff.mp hsteps
  obtain ⟨rfl, rfl⟩ := Prod.mk.inj (Option.some.inj hsteps)
  have hreach := goes_reaches hb
  obtain ⟨v, e₁, hi, hp⟩ := commits_some hc
  refine ⟨b, b', vals, x, w, hreach, hs, hc, hw, hx, ?_⟩
  rw [← hheight, ← hround]
  have hs : step (second.failing second.fault) .id b .resume = some b' := hs
  have hp : pending (second.failing second.fault) .id b .resume = .committed x e₁ := hp
  refine (commit_attested_iff rfl hreach hs hi hp).mpr ?_
  intro p _ pk u hget _
  exact hall _ (Bucket.mem_entries.mpr hget)

/-- Block 1 unbonds validator 1. Its precommit for the block the node is going to propose at
    height 2 is still counted with the validators of height 1. The node restarts, proposes
    and commits: the states around the last step. -/
def unbondedRun : Option (Engine Mempool × Engine Mempool) := do
  let unbond := (Tx.plain .unbond 1 0 0 1).signed Prim.sample defaultChainID
  let restarted (e : Engine Mempool) := start second e.disk (.new defaultCap) []
  let e ← goes pair (.enqueue unbond :: soloBlock)
  let p ← (← goes (restarted e) [.delayElapsed, .proposeReady]).rs.proposal
  let x := blockHashForChain Prim.sample p defaultChainID
  let e ← goes e [.vote (serializeVote (signVote (.node World.sample defaultChainID 1) .precommit 2 0 x))]
  let e ← goes (restarted e) [.delayElapsed, .proposeReady, .resume]
  return (e, ← step second .id e .resume)

theorem unbonded_attested : ∃ e e' vals x, ReflTransGen (LifeStep second) pair e ∧ step second .id e .resume = some e' ∧
    commits second e .resume = some (vals, x) ∧
    verifyAttestationForChain Prim.sample e'.rs.lastAttestation vals defaultChainID =
      .err (.plain "attestation contains non-validator vote") := by
  have hrun : (unbondedRun.bind fun (e, e') => (commits second e .resume).map fun (vals, _) =>
      verifyAttestationForChain Prim.sample e'.rs.lastAttestation vals defaultChainID) =
        some (.err (.plain "attestation contains non-validator vote")) := by
    decide +kernel
  obtain ⟨⟨e, e'⟩, hsteps, hrun⟩ := Option.bind_eq_some_iff.mp hrun
  obtain ⟨⟨vals, x⟩, hc, hv⟩ := Option.map_eq_some_iff.mp hrun
  unfold unbondedRun at hsteps
  dsimp only [Option.bind_eq_bind] at hsteps
  obtain ⟨a, ha, hsteps⟩ := Option.bind_eq_some_iff.mp hsteps
  obtain ⟨_, -, hsteps⟩ := Option.bind_eq_some_iff.mp hsteps
  obtain ⟨_, -, hsteps⟩ := Option.bind_eq_some_iff.mp hsteps
  obtain ⟨b, hb, hsteps⟩ := Option.bind_eq_some_iff.mp hsteps
  obtain ⟨d, hd, hsteps⟩ := Option.bind_eq_some_iff.mp hsteps
  obtain ⟨d', hd', hsteps⟩ := Option.bind_eq_some_iff.mp hsteps
  obtain ⟨rfl, rfl⟩ := Prod.mk.inj (Option.some.inj hsteps)
  have hcrash : LifeStep second b (start second b.disk (.new defaultCap) []) := .crash _ _ _ rfl
  exact ⟨d, d', vals, x, (goes_reaches ha).trans ((goes_reaches hb).trans (.head hcrash (goes_reaches hd))),
    hd', hc, hv⟩

end Frg.Consensus
