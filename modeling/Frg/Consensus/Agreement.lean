/-
  Frg.Consensus.Agreement — one height, many engines.

  A network is a set of honest engines over fixed validators and stakes. One engine takes a
  step at a time, on any input: a vote may come from anybody, but a verified vote of an
  honest validator has been cast by it; proposals are arbitrary, timeouts fire at any time,
  and what is never delivered is lost. An engine that has committed the height is done.

  Engines do not agree in general: `restartRound` unlocks after any precommit quorum without
  a block, and `broadcastProposal` prevotes against the lock.

    - `commits_agree`: while less than a third of the stake is not honest, engines that stay off
      these two paths (`Careful`) commit the same hash. The votes of such a run satisfy
      `Discipline` (`Inv.discipline`).
    - `agreement_broken`: three honest engines, two committed hashes.
-/

import Frg.Consensus.Lock

namespace Frg.Consensus

open Frg.Lib Frg.Core Frg.Wire Frg.Chain Relation

/-! ## The network -/

/-- The engines of one height; `chain` is what each has committed before it. -/
structure Network (σ : Type) where
  W : World
  chainID : List UInt8
  proposer : Key → Proposer σ
  honest : List Key
  height : UInt64
  stakes : Stakes
  chain : Key → DB

/-- The hash of the last block locked since the last unlock. A lock on nil is none. -/
def pledge : List Entry → Option Hash
  | [] => none
  | .unlocked :: _ => none
  | .locked h :: history => if h = 0 then pledge history else some h
  | _ :: history => pledge history

/-- A vote of the height stands in the history. -/
def Casts (height : UInt64) (history : List Entry) (type : VoteType) (round : ℕ) (blockHash : Hash) : Prop :=
  ∃ r l, r.toNat = round ∧ Entry.cast type height r blockHash l ∈ history

variable {σ : Type}

namespace Network

variable (N : Network σ)

def config (i : Key) : Config σ := ⟨N.W, N.chainID, i, N.proposer i, fun _ => none⟩

/-- The stake of the validators that are not honest. -/
def faultyStake : ℕ := ((N.stakes.filter fun v => v.1 ∉ N.honest).map (·.2)).sum

/-- No honest engine can apply a block with the hash. -/
def Dead (x : Hash) : Prop :=
  ∀ i ∈ N.honest, ∀ order p bytes r db, blockHashForChain N.W.toPrim p N.chainID = x →
    serializeProposal N.W.toPrim p = .ok bytes →
    applyBlockForChain N.W order (N.chain i) (blockOf N.height p bytes) N.chainID ≠ (.ok r, db)

/-- Signatures are not forged: a verified vote of an honest validator is one it has cast. -/
def Authentic (net : Key → Engine σ) : Input → Prop
  | .vote raw => ∀ v, deserializeVote raw = .ok v → verifyVoteForChain N.W.toPrim v N.chainID = true →
      v.height = N.height → v.validatorPK ∈ N.honest → ∀ t, v.type = VoteType.code t →
      ∃ l, Entry.cast t v.height v.round v.blockHash l ∈ (net v.validatorPK).history
  | _ => True

/-- An honest engine at the beginning of the height. -/
structure Begins (i : Key) (e : Engine σ) : Prop where
  height : e.rs.height = N.height
  round : e.rs.round = 0
  phase : e.rs.phase = .propose
  prevotes : e.rs.prevotes = .empty
  precommits : e.rs.precommits = .empty
  lockedBlock : e.rs.lockedBlock = none
  validators : e.validators = N.stakes
  db : e.disk.db = N.chain i
  bonded : bondedAmounts (N.chain i) = N.stakes
  stack : ∀ f ∈ e.stack, f = .persist
  pledge : pledge e.history = none
  casts : ∀ t r x l, Entry.cast t N.height r x l ∉ e.history
  polkas : ∀ r x, Entry.polka N.height r x ∉ e.history
  committed : ∀ x, Entry.committed N.height x ∉ e.history

/-- The engine `i` handles an input. -/
structure Takes (net net' : Key → Engine σ) (i : Key) (order : MapOrder) (x : Input) : Prop where
  honest : i ∈ N.honest
  current : (net i).rs.height = N.height
  accepts : accepts (net i) x = true
  authentic : N.Authentic net x
  update : net' = Function.update net i (handle (N.config i) order (net i) x)

/-- The history gives a reason to give up the hash: no engine can apply it, or another one
    had more than two thirds of the prevotes after every precommit for it. -/
def Outdated (history : List Entry) (x : Hash) : Prop :=
  N.Dead x ∨ ∃ r z, Entry.polka N.height r z ∈ history ∧ z ≠ x ∧ z ≠ 0 ∧
    ∀ r', Casts N.height history .precommit r' x → r' < r.toNat

/-- The steps that keep to the lock: the engine puts its own proposal forward only unlocked
    or for the locked block; it restarts a round only when the block it has locked since it
    was last unlocked is outdated; and the rounds stay below `2 ^ 32`. -/
structure Careful (i : Key) (order : MapOrder) (e : Engine σ) (x : Input) : Prop where
  own : ∀ p ∈ proposing (N.config i) e x, e.rs.lockedBlock = none ∨
    e.rs.lockedBlock = some (blockHashForChain N.W.toPrim p N.chainID)
  restart : (pending (N.config i) order e x).restarts = true → e.rs.round.toNat + 1 < 2 ^ 32 ∧
    ∀ y ∈ Consensus.pledge e.history, N.Outdated e.history y
  rounds : x = .precommitTimeout → e.rs.round.toNat + 1 < 2 ^ 32

/-- A step of one engine, whatever it is. -/
def Step (net net' : Key → Engine σ) : Prop := ∃ i order x, N.Takes net net' i order x

def CarefulStep (net net' : Key → Engine σ) : Prop :=
  ∃ i order x, N.Takes net net' i order x ∧ N.Careful i order (net i) x

/-- What counts as a vote of `pk`: anything, unless it is honest. -/
def Voted (net : Key → Engine σ) (type : VoteType) (round : ℕ) (x : Hash) (pk : Key) : Prop :=
  pk ∉ N.honest ∨ Casts N.height (net pk).history type round x

end Network

/-! ## What one engine keeps -/

section

variable (N : Network σ)

/-- Who has voted what; it only grows. -/
abbrev Votes := VoteType → ℕ → Hash → Key → Prop

/-- More than two thirds of the stake stand behind a vote. -/
def Backed (S : Votes) (type : VoteType) (round : ℕ) (x : Hash) : Prop :=
  Quorum (voters N.stakes) (stakeWeight N.stakes) (S type round x)

/-- Between two rounds, another hash had more than two thirds of the prevotes. -/
def Overtaken (S : Votes) (x : Hash) (r r' : ℕ) : Prop :=
  ∃ r'' z, r < r'' ∧ r'' < r' ∧ z ≠ x ∧ z ≠ 0 ∧ Backed N S .prevote r'' z

/-- The votes and commits in a history. -/
structure Record (S : Votes) (history : List Entry) : Prop where
  once : ∀ t r x y, Casts N.height history t r x → Casts N.height history t r y → x = y
  justified : ∀ r x, x ≠ 0 → Casts N.height history .precommit r x → Backed N S .prevote r x
  locked : ∀ r x r' y, Casts N.height history .precommit r x → Casts N.height history .prevote r' y →
    x ≠ 0 → y ≠ 0 → y ≠ x → r < r' → N.Dead x ∨ Overtaken N S x r r'
  committed : ∀ x, Entry.committed N.height x ∈ history →
    x ≠ 0 ∧ ¬ N.Dead x ∧ ∃ r, Backed N S .precommit r x

/-- The first round in which the engine can still prevote. -/
def nextPrevote (rs : RoundState) : ℕ := if rs.phase = .propose then rs.round.toNat else rs.round.toNat + 1

/-- The votes an engine has counted in its round. -/
def Counted (S : Votes) (t : VoteType) (round : UInt32) (votes : Bucket Key Vote) : Prop :=
  ∀ pk v, votes.get pk = some v → v.validatorPK = pk ∧ pk ∈ N.stakes.map (·.1) ∧ S t round.toNat v.blockHash pk

/-- An engine that has not yet committed the height. -/
structure Voting (S : Votes) (s : Core) : Prop where
  height : s.rs.height = N.height
  prevotes : Counted N S .prevote s.rs.round s.rs.prevotes
  precommits : Counted N S .precommit s.rs.round s.rs.precommits
  slots : ∀ t r x l, Entry.cast t N.height r x l ∈ s.history → (N.height, r, t) ∈ s.slots
  past : ∀ t r x, Casts N.height s.history t r x → r ≤ s.rs.round.toNat
  fresh : ∀ r x, Casts N.height s.history .precommit r x → s.rs.phase = .propose ∨ s.rs.phase = .prevote →
    r < s.rs.round.toNat
  polkas : ∀ r z, Entry.polka N.height r z ∈ s.history → r.toNat ≤ s.rs.round.toNat ∧ Backed N S .prevote r.toNat z
  free : s.rs.lockedBlock = none → pledge s.history = none
  lock : ∀ y, s.rs.lockedBlock = some y → y = 0 ∨ pledge s.history = some y
  held : ∀ r x, x ≠ 0 → Casts N.height s.history .precommit r x →
    pledge s.history = some x ∨ N.Dead x ∨ Overtaken N S x r (nextPrevote s.rs)
  record : Record N S s.history

/-- The rules of `Careful`. -/
def Network.rules (S : Votes) : Rules where
  stakes vals := vals = N.stakes
  vote v := verifyVoteForChain N.W.toPrim v N.chainID = true → v.height = N.height → ∀ t, v.type = VoteType.code t →
    S t v.round.toNat v.blockHash v.validatorPK
  own l h := l = some h
  restart s := ∀ y ∈ pledge s.history, N.Outdated s.history y
  advance r := r.toNat + 1 < 2 ^ 32
  reserve _ _ _ written := written = true
  proposal _ _ := True
  tx _ := True

end

variable {N : Network σ} {S S' : Votes} {s s' : Core}

section

variable (hS : ∀ t r x pk, S t r x pk → S' t r x pk)

include hS

theorem Backed.mono {t : VoteType} {r : ℕ} {x : Hash} (h : Backed N S t r x) : Backed N S' t r x :=
  Quorum.mono h fun pk _ => hS t r x pk

theorem Overtaken.mono {x : Hash} {r r' : ℕ} (h : Overtaken N S x r r') : Overtaken N S' x r r' := by
  obtain ⟨r'', z, h1, h2, h3, h4, h5⟩ := h
  exact ⟨r'', z, h1, h2, h3, h4, h5.mono hS⟩

theorem Record.mono {history : List Entry} (h : Record N S history) : Record N S' history := by
  refine ⟨h.once, fun r x hx hc => (h.justified r x hx hc).mono hS, ?_, ?_⟩
  · intro r x r' y hc hp hx hy hne hr
    exact (h.locked r x r' y hc hp hx hy hne hr).imp id (Overtaken.mono hS)
  · intro x hx
    obtain ⟨h1, h2, r, h3⟩ := h.committed x hx
    exact ⟨h1, h2, r, h3.mono hS⟩

theorem Counted.mono {t : VoteType} {r : UInt32} {votes : Bucket Key Vote} (h : Counted N S t r votes) :
    Counted N S' t r votes := by
  intro pk v hv
  obtain ⟨h1, h2, h3⟩ := h pk v hv
  exact ⟨h1, h2, hS _ _ _ _ h3⟩

theorem Voting.mono (h : Voting N S s) : Voting N S' s := by
  refine ⟨h.height, h.prevotes.mono hS, h.precommits.mono hS, h.slots, h.past, h.fresh, ?_, h.free, h.lock, ?_,
    h.record.mono hS⟩
  · intro r z hz
    obtain ⟨h1, h2⟩ := h.polkas r z hz
    exact ⟨h1, h2.mono hS⟩
  · intro r x hx hc
    exact (h.held r x hx hc).imp id (Or.imp id (Overtaken.mono hS))

end

theorem Overtaken.later {x : Hash} {r r' r'' : ℕ} (h : Overtaken N S x r r') (hle : r' ≤ r'') :
    Overtaken N S x r r'' := by
  obtain ⟨q, z, h1, h2, h3⟩ := h
  exact ⟨q, z, h1, lt_of_lt_of_le h2 hle, h3⟩

theorem Counted.backed {t : VoteType} {r : UInt32} {votes : Bucket Key Vote} {h : Hash} (hc : Counted N S t r votes)
    (hnd : (N.stakes.map (·.1)).Nodup) (hd : decided votes N.stakes h = true) : Backed N S t r.toNat h := by
  apply decided_quorum hnd hd
  intro pk v hv
  obtain ⟨h1, h2, h3⟩ := hc pk v hv
  exact ⟨h1, h2, fun hh => hh ▸ h3⟩

theorem Counted.put {i : Key} {t : VoteType} {rs : RoundState} {votes : Bucket Key Vote} {v : Vote} {vals : Stakes}
    (hc : Counted N S t rs.round votes) (hv : Counts (N.config i) (N.rules S) rs v vals) (hh : rs.height = N.height)
    (ht : v.type = t.code) : Counted N S t rs.round (votes.put v.validatorPK v) := by
  intro pk w hw
  rw [Bucket.get_put] at hw
  split at hw
  · rename_i hpk
    cases hw
    obtain rfl := hpk
    have hvals : vals = N.stakes := hv.stakes
    refine ⟨rfl, hvals ▸ hv.validator, ?_⟩
    rw [← hv.round]
    exact hv.allowed hv.verified (hv.height.trans hh) t ht
  · exact hc pk w hw

theorem counted_empty {t : VoteType} {r : UInt32} : Counted N S t r .empty := fun _ _ h => nomatch h

theorem Casts.of_cons {H : UInt64} {a : Entry} {l : List Entry} {t : VoteType} {r : ℕ} {x : Hash}
    (h : Casts H (a :: l) t r x) (ha : ∀ t r x l, a ≠ .cast t H r x l) : Casts H l t r x := by
  obtain ⟨q, lock, hq, hm⟩ := h
  rcases List.mem_cons.mp hm with hm | hm
  · exact absurd hm.symm (ha _ _ _ _)
  · exact ⟨q, lock, hq, hm⟩

theorem Casts.mono {H : UInt64} {l l' : List Entry} {t : VoteType} {r : ℕ} {x : Hash} (h : Casts H l t r x)
    (hl : l <:+ l') : Casts H l' t r x := by
  obtain ⟨q, lock, hq, hm⟩ := h
  exact ⟨q, lock, hq, hl.subset hm⟩

theorem Record.cons {a : Entry} {l : List Entry} (h : Record N S l) (hcast : ∀ t r x l, a ≠ .cast t N.height r x l)
    (hcommit : ∀ x, a ≠ .committed N.height x) : Record N S (a :: l) := by
  refine ⟨?_, ?_, ?_, ?_⟩
  · intro t r x y hx hy
    exact h.once t r x y (hx.of_cons hcast) (hy.of_cons hcast)
  · intro r x hx hc
    exact h.justified r x hx (hc.of_cons hcast)
  · intro r x r' y hx hy
    exact h.locked r x r' y (hx.of_cons hcast) (hy.of_cons hcast)
  · intro x hx
    rcases List.mem_cons.mp hx with hx | hx
    · exact absurd hx.symm (hcommit x)
    · exact h.committed x hx

namespace Voting

theorem setRound (h : Voting N S s) {rs : RoundState} (hh : rs.height = s.rs.height) (hr : rs.round = s.rs.round)
    (hl : rs.lockedBlock = s.rs.lockedBlock)
    (hp : rs.phase = s.rs.phase ∨ (s.rs.phase = .propose ∧ rs.phase = .prevote) ∨ rs.phase = .precommit ∨
      rs.phase = .commit)
    (hpv : Counted N S .prevote s.rs.round rs.prevotes) (hpc : Counted N S .precommit s.rs.round rs.precommits) :
    Voting N S { s with rs } := by
  have hnext : nextPrevote s.rs ≤ nextPrevote rs := by
    unfold nextPrevote
    rw [hr]
    rcases hp with hp | ⟨hp, hp'⟩ | hp | hp
    · rw [hp]
    · simp [hp, hp']
    · rw [hp]
      simp only [reduceCtorEq, if_false]
      split <;> omega
    · rw [hp]
      simp only [reduceCtorEq, if_false]
      split <;> omega
  refine ⟨hh.trans h.height, hr ▸ hpv, hr ▸ hpc, h.slots, ?_, ?_, ?_, ?_, ?_, ?_, h.record⟩
  · show ∀ t r x, _ → r ≤ rs.round.toNat
    rw [hr]
    exact h.past
  · intro r x hc hp'
    show r < rs.round.toNat
    rw [hr]
    apply h.fresh r x hc
    rcases hp with hp | ⟨hp, -⟩ | hp | hp
    · rw [← hp]
      exact hp'
    · exact Or.inl hp
    · rcases hp' with hp' | hp' <;> cases hp.symm.trans hp'
    · rcases hp' with hp' | hp' <;> cases hp.symm.trans hp'
  · show ∀ (r : UInt32) z, _ → r.toNat ≤ rs.round.toNat ∧ _
    rw [hr]
    exact h.polkas
  · exact fun hn => h.free (hl.symm.trans hn)
  · exact fun y hy => h.lock y (hl.symm.trans hy)
  · intro r x hx hc
    exact (h.held r x hx hc).imp id (Or.imp id (·.later hnext))

/-- An entry that is neither a vote, a commit, a polka, a lock nor an unlock. -/
theorem refuse (h : Voting N S s) (x : Hash) : Voting N S (s.note (.refused s.rs.height x)) := by
  have hc : ∀ {t r y}, Casts N.height (.refused s.rs.height x :: s.history) t r y → Casts N.height s.history t r y :=
    fun hc => hc.of_cons nofun
  refine ⟨h.height, h.prevotes, h.precommits, ?_, fun t r y hy => h.past t r y (hc hy),
    fun r y hy => h.fresh r y (hc hy), ?_, h.free, h.lock, fun r y hy hc' => h.held r y hy (hc hc'),
    h.record.cons nofun nofun⟩
  · intro t r y l hm
    exact h.slots t r y l ((List.mem_cons.mp hm).resolve_left nofun)
  · intro r z hm
    exact h.polkas r z ((List.mem_cons.mp hm).resolve_left nofun)

theorem polka (h : Voting N S s) {x : Hash} (hb : Backed N S .prevote s.rs.round.toNat x) :
    Voting N S (s.note (.polka s.rs.height s.rs.round x)) := by
  have hc : ∀ {t r y}, Casts N.height (.polka s.rs.height s.rs.round x :: s.history) t r y →
      Casts N.height s.history t r y := fun hc => hc.of_cons nofun
  refine ⟨h.height, h.prevotes, h.precommits, ?_, fun t r y hy => h.past t r y (hc hy),
    fun r y hy => h.fresh r y (hc hy), ?_, h.free, h.lock, fun r y hy hc' => h.held r y hy (hc hc'),
    h.record.cons nofun nofun⟩
  · intro t r y l hm
    exact h.slots t r y l ((List.mem_cons.mp hm).resolve_left nofun)
  · intro r z hm
    rcases List.mem_cons.mp hm with hm | hm
    · obtain ⟨-, rfl, rfl⟩ := Entry.polka.inj hm
      exact ⟨le_rfl, hb⟩
    · exact h.polkas r z hm

/-- A new lock comes with its polka and outdates every other precommit. -/
theorem setLock (h : Voting N S s) {x : Hash} (hp : s.rs.phase = .prevote)
    (hb : Backed N S .prevote s.rs.round.toNat x) :
    Voting N S ((s.on fun rs => (rs.toPhase .precommit).lock x rs.round).note (.locked x)) := by
  have hphase : Voting N S (s.on (·.toPhase .precommit)) :=
    h.setRound rfl rfl rfl (Or.inr (Or.inr (Or.inl rfl))) h.prevotes h.precommits
  have hc : ∀ {t r y}, Casts N.height (.locked x :: s.history) t r y → Casts N.height s.history t r y :=
    fun hc => hc.of_cons nofun
  refine ⟨h.height, h.prevotes, h.precommits, ?_, fun t r y hy => h.past t r y (hc hy), ?_, ?_, nofun, ?_, ?_,
    h.record.cons nofun nofun⟩
  · intro t r y l hm
    exact h.slots t r y l ((List.mem_cons.mp hm).resolve_left nofun)
  · rintro r y - (hp' | hp') <;> cases hp'
  · intro r z hm
    exact h.polkas r z ((List.mem_cons.mp hm).resolve_left nofun)
  · intro y hy
    obtain rfl := Option.some.inj hy
    by_cases h0 : x = 0
    · exact Or.inl h0
    · exact Or.inr (if_neg h0)
  · intro r y hy hc'
    show (if x = 0 then pledge s.history else some x) = some y ∨ _
    rcases hphase.held r y hy (hc hc') with hpl | hdead | hover
    · by_cases h0 : x = 0
      · rw [if_pos h0]
        exact Or.inl hpl
      · by_cases hxy : x = y
        · rw [if_neg h0, hxy]
          exact Or.inl rfl
        · have hr := h.fresh r y (hc hc') (Or.inr hp)
          exact Or.inr (Or.inr ⟨_, x, hr, Nat.lt_succ_self _, hxy, h0, hb⟩)
    · exact Or.inr (Or.inl hdead)
    · exact Or.inr (Or.inr hover)

theorem casts_cast {t t' : VoteType} {x y : Hash} {r : ℕ}
    {w : Bool} (hc : Casts N.height (s.cast t x w).history t' r y) :
    Casts N.height s.history t' r y ∨
      ((s.rs.height, s.rs.round, t) ∉ s.slots ∧ t' = t ∧ r = s.rs.round.toNat ∧ y = x) := by
  obtain ⟨q, l, hq, hm⟩ := hc
  unfold Core.cast at hm
  split at hm
  · exact Or.inl ⟨q, l, hq, hm⟩
  · rename_i hs
    rcases List.mem_cons.mp hm with hm | hm
    · obtain ⟨rfl, -, rfl, rfl, -⟩ := Entry.cast.inj hm
      exact Or.inr ⟨hs, rfl, hq.symm, rfl⟩
    · exact Or.inl ⟨q, l, hq, hm⟩

theorem pledge_cast (t : VoteType) (x : Hash) (w : Bool) : pledge (s.cast t x w).history = pledge s.history := by
  unfold Core.cast
  split <;> rfl

theorem mem_cast {t : VoteType} {x : Hash} {a : Entry} (ha : a ∈ (s.cast t x true).history)
    (hne : ∀ t r x l, a ≠ .cast t s.rs.height r x l) : a ∈ s.history := by
  unfold Core.cast at ha
  split at ha
  · exact ha
  · exact (List.mem_cons.mp ha).resolve_left (hne _ _ _ _)

theorem slots_cast (h : Voting N S s) {t t' : VoteType} {x y : Hash} {r : UInt32} {l : Option Hash}
    (hm : Entry.cast t' N.height r y l ∈ (s.cast t x true).history) : (N.height, r, t') ∈ (s.cast t x true).slots := by
  unfold Core.cast at hm ⊢
  split at hm
  · rename_i hs
    rw [if_pos hs]
    exact h.slots t' r y l hm
  · rename_i hs
    rw [if_neg hs]
    rcases List.mem_cons.mp hm with hm | hm
    · obtain ⟨rfl, hh, rfl, -, -⟩ := Entry.cast.inj hm
      rw [hh]
      exact List.mem_cons_self
    · exact List.mem_cons_of_mem _ (h.slots t' r y l hm)

theorem record_cast (h : Voting N S s) {t : VoteType} {x : Hash}
    (hprevote : t = .prevote → x ≠ 0 → ∀ r y, Casts N.height s.history .precommit r y → y ≠ 0 → x ≠ y →
      r < s.rs.round.toNat → N.Dead y ∨ Overtaken N S y r s.rs.round.toNat)
    (hprecommit : t = .precommit → x ≠ 0 → Backed N S .prevote s.rs.round.toNat x) :
    Record N S (s.cast t x true).history := by
  refine ⟨?_, ?_, ?_, fun y hy => h.record.committed y (mem_cast hy nofun)⟩
  · -- a second vote would need the slot that the first one has reserved
    intro t' r y z hy hz
    have hslot : ∀ {u}, Casts N.height s.history t s.rs.round.toNat u → (s.rs.height, s.rs.round, t) ∈ s.slots := by
      rintro u ⟨q, l, hq, hm⟩
      rw [h.height, ← UInt32.toNat_inj.mp hq]
      exact h.slots t q u l hm
    rcases casts_cast hy with hy' | ⟨hs, rfl, rfl, rfl⟩
    · rcases casts_cast hz with hz | ⟨hs, rfl, rfl, rfl⟩
      · exact h.record.once t' r y z hy' hz
      · exact absurd (hslot hy') hs
    · rcases casts_cast hz with hz | ⟨-, -, -, rfl⟩
      · exact absurd (hslot hz) hs
      · rfl
  · intro r y hy hc
    rcases casts_cast hc with hc | ⟨-, ht, rfl, rfl⟩
    · exact h.record.justified r y hy hc
    · exact hprecommit ht.symm hy
  · intro r y r' z hy hz hy0 hz0 hne hr
    rcases casts_cast hz with hz | ⟨-, ht, rfl, rfl⟩
    · rcases casts_cast hy with hy | ⟨-, -, rfl, -⟩
      · exact h.record.locked r y r' z hy hz hy0 hz0 hne hr
      · exact absurd (h.past _ r' z hz) (by omega)
    · rcases casts_cast hy with hy | ⟨-, -, rfl, -⟩
      · exact hprevote ht.symm hz0 r y hy hy0 hne hr
      · exact absurd hr (lt_irrefl _)

theorem cast (h : Voting N S s) {t : VoteType} {x : Hash}
    (hprevote : t = .prevote → x ≠ 0 → ∀ r y, Casts N.height s.history .precommit r y → y ≠ 0 → x ≠ y →
      r < s.rs.round.toNat → N.Dead y ∨ Overtaken N S y r s.rs.round.toNat)
    (hprecommit : t = .precommit → s.rs.phase = .precommit ∧
      (x ≠ 0 → pledge s.history = some x ∧ Backed N S .prevote s.rs.round.toNat x)) :
    Voting N S (s.cast t x true) := by
  have hrecord := record_cast h hprevote fun ht hx => ((hprecommit ht).2 hx).2
  refine ⟨by rw [Core.cast_rs]; exact h.height, by rw [Core.cast_rs]; exact h.prevotes,
    by rw [Core.cast_rs]; exact h.precommits, fun t' r y l hm => slots_cast h hm, ?_, ?_, ?_, ?_, ?_, ?_, hrecord⟩
  · intro t' r y hy
    rw [Core.cast_rs]
    rcases casts_cast hy with hy | ⟨-, -, rfl, -⟩
    · exact h.past t' r y hy
    · exact le_rfl
  · intro r y hy hp
    rw [Core.cast_rs] at hp ⊢
    rcases casts_cast hy with hy | ⟨-, ht, -, -⟩
    · exact h.fresh r y hy hp
    · rw [(hprecommit ht.symm).1] at hp
      rcases hp with hp | hp <;> cases hp
  · intro r z hm
    rw [Core.cast_rs]
    exact h.polkas r z (mem_cast hm nofun)
  · rw [Core.cast_rs, pledge_cast]
    exact h.free
  · rw [Core.cast_rs, pledge_cast]
    exact h.lock
  · intro r y hy hc
    rw [Core.cast_rs, pledge_cast]
    rcases casts_cast hc with hc | ⟨-, ht, -, rfl⟩
    · exact h.held r y hy hc
    · exact Or.inl ((hprecommit ht.symm).2 hy).1

theorem advance (h : Voting N S s) (hr : s.rs.round.toNat + 1 < 2 ^ 32) : Voting N S (s.on (·.incrementRound)) := by
  have hsucc : (s.rs.round + 1).toNat = s.rs.round.toNat + 1 := toNat_succ hr
  have hpast : ∀ t r x, Casts N.height s.history t r x → r < (s.rs.round + 1).toNat := by
    intro t r x hc
    rw [hsucc]
    exact Nat.lt_succ_of_le (h.past t r x hc)
  refine ⟨h.height, counted_empty, counted_empty, h.slots, fun t r x hc => (hpast t r x hc).le,
    fun r x hc _ => hpast _ r x hc, ?_, h.free, h.lock, ?_, h.record⟩
  · intro r z hm
    obtain ⟨h1, h2⟩ := h.polkas r z hm
    exact ⟨h1.trans (hsucc ▸ Nat.le_succ _), h2⟩
  · intro r x hx hc
    refine (h.held r x hx hc).imp id (Or.imp id fun ho => ho.later ?_)
    show nextPrevote s.rs ≤ (s.rs.round + 1).toNat
    unfold nextPrevote
    split <;> omega

theorem restart (h : Voting N S s) (hr : s.rs.round.toNat + 1 < 2 ^ 32)
    (hout : ∀ y ∈ pledge s.history, N.Outdated s.history y) :
    Voting N S ((s.on (·.unlock.incrementRound)).note .unlocked) := by
  have hadv := h.advance hr
  have hc : ∀ {t r y}, Casts N.height (.unlocked :: s.history) t r y → Casts N.height s.history t r y :=
    fun hc => hc.of_cons nofun
  refine ⟨h.height, counted_empty, counted_empty, ?_, fun t r y hy => hadv.past t r y (hc hy),
    fun r y hy => hadv.fresh r y (hc hy), ?_, fun _ => rfl, nofun, ?_, h.record.cons nofun nofun⟩
  · intro t r y l hm
    exact h.slots t r y l ((List.mem_cons.mp hm).resolve_left nofun)
  · intro r z hm
    exact hadv.polkas r z ((List.mem_cons.mp hm).resolve_left nofun)
  · intro r y hy hc'
    rcases hadv.held r y hy (hc hc') with hpl | hrest
    · rcases hout y hpl with hdead | ⟨q, z, hm, hzy, hz0, hlast⟩
      · exact Or.inr (Or.inl hdead)
      · obtain ⟨hq, hb⟩ := h.polkas q z hm
        refine Or.inr (Or.inr ⟨q.toNat, z, hlast r (hc hc'), ?_, hzy, hz0, hb⟩)
        show q.toNat < (s.rs.round + 1).toNat
        rw [toNat_succ hr]
        omega
    · exact Or.inr hrest

theorem move {i : Key} (hnd : (N.stakes.map (·.1)).Nodup) (h : Voting N S s) (hm : Move (N.config i) (N.rules S) s s') :
    Voting N S s' := by
  cases hm with
  | prevote v vals hv ht => exact h.setRound rfl rfl rfl (Or.inl rfl) (h.prevotes.put hv h.height ht) h.precommits
  | precommit v vals hv ht => exact h.setRound rfl rfl rfl (Or.inl rfl) h.prevotes (h.precommits.put hv h.height ht)
  | polka x vals hs hd => exact h.polka (h.prevotes.backed hnd ((show vals = N.stakes from hs) ▸ hd))
  | lock x vals w hs hp hd hpol hw =>
    obtain rfl : w = true := hw
    have hb := h.prevotes.backed hnd ((show vals = N.stakes from hs) ▸ hd)
    exact (h.setLock hp hb).cast nofun fun _ => ⟨rfl, fun h0 => ⟨if_neg h0, hb⟩⟩
  | abstain w hp hw =>
    obtain rfl : w = true := hw
    have hphase : Voting N S (s.on (·.toPhase .precommit)) :=
      h.setRound rfl rfl rfl (Or.inr (Or.inr (Or.inl rfl))) h.prevotes h.precommits
    exact hphase.cast nofun fun _ => ⟨rfl, fun h0 => absurd rfl h0⟩
  | enter x p w hp hx hw =>
    obtain rfl : w = true := hw
    have hphase : Voting N S (s.on fun rs => { rs with proposal := p, phase := .prevote }) :=
      h.setRound rfl rfl rfl (Or.inr (Or.inl ⟨hp, rfl⟩)) h.prevotes h.precommits
    refine hphase.cast (fun _ h0 r y hc hy hne hr => ?_) nofun
    have hnext : nextPrevote s.rs = s.rs.round.toNat := if_pos hp
    rcases h.held r y hy hc with hpl | hrest
    · -- the engine is locked on `y`, and prevotes nothing else
      have hlock : s.rs.lockedBlock = none ∨ s.rs.lockedBlock = some x := by
        rcases hx with hx | hx | hx | hx
        · exact absurd hx h0
        · exact Or.inl hx
        · exact Or.inr hx
        · exact Or.inr hx
      rcases hlock with hl | hl
      · rw [h.free hl] at hpl
        cases hpl
      · rcases h.lock x hl with hx0 | hpl'
        · exact absurd hx0 h0
        · exact absurd (Option.some.inj (hpl'.symm.trans hpl)) hne
    · rw [hnext] at hrest
      exact hrest
  | next ha => exact h.advance ha
  | restart hr ha => exact h.restart ha hr
  | decide hp => exact h.setRound rfl rfl rfl (Or.inr (Or.inr (Or.inr rfl))) h.prevotes h.precommits
  | refuse x => exact h.refuse x
  | persist => exact ⟨h.height, h.prevotes, h.precommits, h.slots, h.past, h.fresh, h.polkas, h.free, h.lock, h.held,
      h.record⟩

theorem moves {i : Key} (hnd : (N.stakes.map (·.1)).Nodup) (h : Voting N S s)
    (hm : Moves (N.config i) (N.rules S) s s') : Voting N S s' :=
  run_keeps (fun h hm => h.move hnd hm) hm h

end Voting

/-! ## What the network keeps -/

/-- The engine `i` in the middle of the height: its stack holds only its own votes. -/
structure Engaged (N : Network σ) (S : Votes) (i : Key) (e : Engine σ) : Prop where
  voting : Voting N S e.core
  validators : e.validators = N.stakes
  db : e.disk.db = N.chain i
  frames : ∀ f ∈ e.stack, Pushed (N.config i) N.stakes (N.chain i) e.history f

structure Inv (N : Network σ) (net : Key → Engine σ) : Prop where
  bonded : ∀ i ∈ N.honest, bondedAmounts (N.chain i) = N.stakes
  record : ∀ i ∈ N.honest, Record N (N.Voted net) (net i).history
  engaged : ∀ i ∈ N.honest, (net i).rs.height = N.height → Engaged N (N.Voted net) i (net i)

theorem Engaged.mono {i : Key} {e : Engine σ} (hS : ∀ t r x pk, S t r x pk → S' t r x pk) (h : Engaged N S i e) :
    Engaged N S' i e := ⟨h.voting.mono hS, h.validators, h.db, h.frames⟩

theorem Network.Begins.engaged {i : Key} {e : Engine σ} (h : N.Begins i e) : Engaged N S i e := by
  have hno : ∀ {t r x}, ¬ Casts N.height e.history t r x := by
    rintro t r x ⟨q, l, -, hm⟩
    exact h.casts t q x l hm
  refine ⟨⟨h.height, ?_, ?_, ?_, fun t r x hc => absurd hc hno, fun r x hc => absurd hc hno, ?_, fun _ => h.pledge, ?_,
    fun r x _ hc => absurd hc hno, ⟨fun t r x y hc => absurd hc hno, fun r x _ hc => absurd hc hno,
      fun r x r' y hc => absurd hc hno, fun x hx => absurd hx (h.committed x)⟩⟩, h.validators, h.db, ?_⟩
  · show Counted N S .prevote e.rs.round e.rs.prevotes
    rw [h.prevotes]
    exact counted_empty
  · show Counted N S .precommit e.rs.round e.rs.precommits
    rw [h.precommits]
    exact counted_empty
  · exact fun t r x l hm => absurd hm (h.casts t r x l)
  · exact fun r z hm => absurd hm (h.polkas r z)
  · intro y hy
    rw [show e.core.rs.lockedBlock = none from h.lockedBlock] at hy
    cases hy
  · exact fun f hf => Or.inl (h.stack f hf)

theorem Engaged.vote {net : Key → Engine σ} {i : Key} {x : Input} (h : Engaged N (N.Voted net) i (net i))
    (ha : N.Authentic net x) {v : Vote} {vals : Stakes} (hi : incoming (net i) x = some (v, vals))
    (hv : verifyVoteForChain N.W.toPrim v N.chainID = true) (hh : v.height = N.height) {t : VoteType}
    (ht : v.type = t.code) : N.Voted net t v.round.toNat v.blockHash v.validatorPK := by
  by_cases hp : v.validatorPK ∈ N.honest
  · right
    cases x with
    | vote raw =>
      simp only [incoming] at hi
      split at hi
      · rename_i w hd
        cases hi
        obtain ⟨l, hm⟩ := ha v hd hv hh hp t ht
        exact ⟨v.round, l, rfl, hh ▸ hm⟩
      · cases hi
    | resume =>
      simp only [incoming] at hi
      split at hi
      · rename_i w u s hs
        cases hi
        rcases h.frames _ (hs ▸ List.mem_cons_self) with hf | ⟨t', q, r, y, l, w, hf, hm, -⟩
        · cases hf
        · obtain ⟨rfl, -⟩ := Frame.vote.inj hf
          rw [← VoteType.code_inj ht, ← hh]
          exact ⟨r, l, rfl, hm⟩
      · cases hi
    | proposal | proposeTimeout | prevoteTimeout | precommitTimeout | proposeReady | delayElapsed | enqueue => cases hi
  · exact Or.inl hp

theorem Engaged.valsFor {i : Key} {e : Engine σ} {x : Input} (h : Engaged N S i e)
    (hb : bondedAmounts (N.chain i) = N.stakes) : valsFor e x = N.stakes := by
  unfold Consensus.valsFor
  split
  · rename_i v vals hi
    cases x with
    | vote raw =>
      simp only [incoming] at hi
      split at hi
      · cases hi
        exact h.validators
      · cases hi
    | resume =>
      simp only [incoming] at hi
      split at hi
      · rename_i w u s hs
        cases hi
        rcases h.frames _ (hs ▸ List.mem_cons_self) with hf | ⟨t, q, r, y, l, w, hf, -, hw⟩
        · cases hf
        · obtain ⟨-, rfl⟩ := Frame.vote.inj hf
          exact hw.elim id (·.trans hb)
      · cases hi
    | proposal | proposeTimeout | prevoteTimeout | precommitTimeout | proposeReady | delayElapsed | enqueue => cases hi
  · exact h.validators

theorem pledge_of_undecided {e e₁ : Engine σ} (h : Undecided e e₁) : pledge e₁.history = pledge e.history := by
  rcases h.history with hh | ⟨x, hh⟩
  · rw [hh]
  · rw [hh]
    rfl

theorem Network.Outdated.undecided {e e₁ : Engine σ} {y : Hash} (h : Undecided e e₁) (ho : N.Outdated e.history y) :
    N.Outdated e₁.history y := by
  rcases ho with hd | ⟨r, z, hm, hz, hz0, hlast⟩
  · exact Or.inl hd
  · rcases h.history with hh | ⟨x, hh⟩
    · exact Or.inr ⟨r, z, hh ▸ hm, hz, hz0, hh ▸ hlast⟩
    · rw [hh]
      exact Or.inr ⟨r, z, List.mem_cons_of_mem _ hm, hz, hz0, fun r' hc => hlast r' (hc.of_cons nofun)⟩

theorem Network.Careful.permits {net : Key → Engine σ} {i : Key} {order : MapOrder} {x : Input}
    (hc : N.Careful i order (net i) x) (ha : N.Authentic net x) (h : Engaged N (N.Voted net) i (net i))
    (hb : bondedAmounts (N.chain i) = N.stakes) :
    Permits (N.config i) (N.rules (N.Voted net)) order (net i) x := by
  refine ⟨h.valsFor hb, fun v vals hi hv hh t ht => h.vote ha hi hv hh ht, hc.own, fun e₁ he₁ => ?_, hc.rounds,
    fun _ _ => rfl,
    .free (fun _ _ => trivial) (fun _ => trivial) _ _ _⟩
  obtain ⟨hround, hout⟩ := hc.restart (by rw [he₁]; rfl)
  have hund := (pending_restart (h := 0) he₁).1
  refine ⟨fun y hy => ?_, show e₁.rs.round.toNat + 1 < _ by rw [hund.round]; exact hround⟩
  exact (hout y (pledge_of_undecided hund ▸ hy)).undecided hund

variable {net net' : Key → Engine σ}

theorem voted_update {i : Key} {e : Engine σ} (hl : (net i).history <:+ e.history) {t : VoteType} {r : ℕ} {x : Hash}
    {pk : Key} (h : N.Voted net t r x pk) : N.Voted (Function.update net i e) t r x pk := by
  refine h.imp id fun h => ?_
  by_cases hpk : pk = i
  · subst hpk
    rw [Function.update_self]
    exact h.mono hl
  · rw [Function.update_of_ne hpk]
    exact h

/-- It is enough to look at the engine that took the step. -/
theorem Inv.update {i : Key} {e : Engine σ} (h : Inv N net) (hl : (net i).history <:+ e.history)
    (hrec : Record N (N.Voted net) e.history) (heng : e.rs.height = N.height → Engaged N (N.Voted net) i e) :
    Inv N (Function.update net i e) := by
  have hS : ∀ t r x pk, N.Voted net t r x pk → N.Voted (Function.update net i e) t r x pk :=
    fun _ _ _ _ => voted_update hl
  refine ⟨h.bonded, fun j hj => ?_, fun j hj hh => ?_⟩
  · by_cases hji : j = i
    · subst hji
      rw [Function.update_self]
      exact hrec.mono hS
    · rw [Function.update_of_ne hji]
      exact (h.record j hj).mono hS
  · by_cases hji : j = i
    · subst hji
      rw [Function.update_self] at hh ⊢
      exact (heng hh).mono hS
    · rw [Function.update_of_ne hji] at hh ⊢
      exact (h.engaged j hj hh).mono hS

/-- A block that has been committed is backed by precommits and could be applied. -/
theorem Record.commit {c : Config σ} {order : MapOrder} {i : Key} {x : Hash} {db : DB} {e e' : Engine σ}
    (hi : i ∈ N.honest) (hnd : (N.stakes.map (·.1)).Nodup) (hcfg : c = N.config i) (h : Engaged N S i e)
    (hc : Commits c (N.rules S) order N.stakes x db e e') :
    Record N S e'.history ∧ e.history <:+ e'.history := by
  subst hcfg
  obtain ⟨s, hm, hx, hd, hn⟩ := hc.moves
  have hs := h.voting.moves hnd hm
  have hhist : e'.history = .unlocked :: .committed s.rs.height x :: s.history := hn.history
  refine ⟨?_, ?_⟩
  · rw [hhist]
    refine Record.cons (a := .unlocked) ?_ nofun nofun
    have hcast : ∀ t r y l, Entry.committed s.rs.height x ≠ .cast t N.height r y l := nofun
    refine ⟨?_, ?_, ?_, ?_⟩
    · exact fun t r y z hy hz => hs.record.once t r y z (hy.of_cons hcast) (hz.of_cons hcast)
    · exact fun r y hy hc => hs.record.justified r y hy (hc.of_cons hcast)
    · exact fun r y r' z hy hz => hs.record.locked r y r' z (hy.of_cons hcast) (hz.of_cons hcast)
    · intro y hy
      rcases List.mem_cons.mp hy with hy | hy
      · obtain ⟨-, rfl⟩ := Entry.committed.inj hy
        obtain ⟨p, bytes, r, hp, hb, happ⟩ := hc.applied
        rw [h.db, show e.rs.height = N.height from h.voting.height] at happ
        exact ⟨hx, fun hdead => hdead i hi order p bytes r db hp hb happ, _, hs.precommits.backed hnd hd⟩
      · exact hs.record.committed y hy
  · rw [hhist]
    exact hm.history.trans ((List.suffix_cons _ _).trans (List.suffix_cons _ _))

theorem Engaged.runs {i : Key} {x : Input} {e e' : Engine σ} (hnd : (N.stakes.map (·.1)).Nodup)
    (h : Engaged N S i e) (hr : Runs (N.config i) (N.rules S) N.stakes (e.popped x) e') : Engaged N S i e' := by
  have hmoves : Moves (N.config i) (N.rules S) e.core e'.core := popped_core (e := e) (i := x) ▸ hr.moves
  refine ⟨h.voting.moves hnd hmoves, hr.validators.trans (popped_validators.trans h.validators), ?_, ?_⟩
  · rw [hr.db, popped_disk]
    exact h.db
  · obtain ⟨fs, hfs, hp⟩ := hr.stack
    intro f hf
    rw [hfs] at hf
    rcases List.mem_append.mp hf with hf | hf
    · have hpf := hp f hf
      rw [popped_disk, h.db] at hpf
      exact hpf
    · have hmem : f ∈ e.stack := by
        cases x <;> first | exact hf | exact List.mem_of_mem_tail hf
      exact (h.frames f hmem).mono hmoves.history

theorem Network.CarefulStep.inv (h : Inv N net) (hs : N.CarefulStep net net') : Inv N net' := by
  obtain ⟨i, order, x, ht, hc⟩ := hs
  have heng := h.engaged i ht.honest ht.current
  have hb := h.bonded i ht.honest
  have hnd : (N.stakes.map (·.1)).Nodup := hb ▸ bondedAmounts_nodup (N.chain i)
  have hperm := hc.permits ht.authentic heng hb
  rw [ht.update]
  cases hp : pending (N.config i) order (net i) x with
  | committed y e₁ =>
    have hcom := (handle_commits hperm hp).1
    rw [heng.valsFor hb] at hcom
    have hpop : Engaged N (N.Voted net) i ((net i).popped x) := heng.runs hnd (.refl _)
    obtain ⟨hrec, hl⟩ := Record.commit ht.honest hnd rfl hpop hcom
    rw [popped_history] at hl
    refine h.update hl hrec fun hh => ?_
    have hheight := hcom.height
    rw [popped_rs, hh, ht.current] at hheight
    exact absurd hheight (height_ne_succ _)
  | stay | restart | crash =>
    have hruns := handle_runs hperm fun y e₁ h => by rw [hp] at h; cases h
    rw [heng.valsFor hb] at hruns
    have heng' := heng.runs hnd hruns
    have hl : ((net i).popped x).core.history <:+ _ := hruns.moves.history
    rw [popped_core] at hl
    exact h.update hl heng'.voting.record fun _ => heng'

theorem Inv.discipline {i : Key} (h : Inv N net) (hi : i ∈ N.honest) (hf : 3 * N.faultyStake < totalStake N.stakes) :
    Discipline (voters N.stakes) (stakeWeight N.stakes) (· ∉ N.honest) (fun pk r x => N.Voted net .prevote r x pk)
      (fun pk r x => N.Voted net .precommit r x pk) 0 (¬ N.Dead ·) := by
  have hnd : (N.stakes.map (·.1)).Nodup := h.bonded i hi ▸ bondedAmounts_nodup (N.chain i)
  have hcast : ∀ {pk t r x}, ¬ pk ∉ N.honest → N.Voted net t r x pk → Casts N.height (net pk).history t r x :=
    fun hpk hv => hv.resolve_left hpk
  refine ⟨?_, ?_, ?_, ?_⟩
  · rw [weight_eq_sum hnd, ← totalStake_eq hnd]
    exact hf
  · intro pk _ hpk r x y hx hy
    exact (h.record pk (not_not.mp hpk)).once _ r x y (hcast hpk hx) (hcast hpk hy)
  · intro pk _ hpk r x hx hv
    exact (h.record pk (not_not.mp hpk)).justified r x hx (hcast hpk hv)
  · intro pk _ hpk r x r' y hlive hx hy hne hr hvx hvy
    exact ((h.record pk (not_not.mp hpk)).locked r x r' y (hcast hpk hvx) (hcast hpk hvy) hx hy hne hr).resolve_left
      hlive

theorem inv_of_run {net₀ : Key → Engine σ} (h₀ : ∀ i ∈ N.honest, N.Begins i (net₀ i))
    (hrun : ReflTransGen N.CarefulStep net₀ net) : Inv N net := by
  have heng : ∀ k ∈ N.honest, Engaged N (N.Voted net₀) k (net₀ k) := fun k hk => (h₀ k hk).engaged
  have hinv : Inv N net₀ :=
    ⟨fun k hk => (h₀ k hk).bonded, fun k hk => (heng k hk).voting.record, fun k hk _ => heng k hk⟩
  exact run_keeps (fun h hs => hs.inv h) hrun hinv

/-- Honest engines that keep to the lock commit the same hash. -/
theorem commits_agree {net₀ : Key → Engine σ} (hf : 3 * N.faultyStake < totalStake N.stakes)
    (h₀ : ∀ i ∈ N.honest, N.Begins i (net₀ i)) (hrun : ReflTransGen N.CarefulStep net₀ net) {i j : Key}
    (hi : i ∈ N.honest) (hj : j ∈ N.honest) {x y : Hash} (hx : Entry.committed N.height x ∈ (net i).history)
    (hy : Entry.committed N.height y ∈ (net j).history) : x = y := by
  have hinv := inv_of_run h₀ hrun
  obtain ⟨hx0, hlx, r, hqx⟩ := (hinv.record i hi).committed x hx
  obtain ⟨hy0, hly, r', hqy⟩ := (hinv.record j hj).committed y hy
  exact (hinv.discipline hi hf).agreement hx0 hy0 hlx hly hqx hqy

/-! ## Three honest validators -/

/-- The validators 1, 2 and 3 of `threeDB` at height 1. -/
def trio : Network Mempool where
  W := World.sample
  chainID := defaultChainID
  proposer i := (Config.node World.sample defaultChainID i).proposer
  honest := [1, 2, 3]
  height := 1
  stakes := bondedAmounts threeDB
  chain _ := threeDB

theorem trio_begins (i : Key) : trio.Begins i (member i) := by
  obtain ⟨hrs, hvals, hdisk, hhist, hst⟩ :=
    start_started (.node World.sample defaultChainID i) ⟨threeDB, [], none⟩ (.new defaultCap) []
  have hnew : (member i).rs = .new 1 := hrs
  have hnil : (member i).history = [] := hhist
  refine ⟨by rw [hnew]; rfl, by rw [hnew]; rfl, by rw [hnew]; rfl, by rw [hnew]; rfl, by rw [hnew]; rfl,
    by rw [hnew]; rfl, hvals, congrArg Disk.db hdisk, rfl, ?_, by rw [hnil]; rfl, by simp [hnil], by simp [hnil],
    by simp [hnil]⟩
  have hstack : (member i).stack = [] := rfl
  simp [hstack]

/-- The engines after their steps, the latest first. -/
def seat (l : List (Key × Engine Mempool)) (i : Key) : Engine Mempool := (l.lookup i).getD (member i)

theorem seat_cons (l : List (Key × Engine Mempool)) (i : Key) (e : Engine Mempool) :
    seat ((i, e) :: l) = Function.update (seat l) i e := by
  funext j
  unfold seat
  by_cases hj : j = i
  · subst hj
    rw [List.lookup_cons_self, Function.update_self]
    rfl
  · rw [List.lookup_cons, beq_eq_false_iff_ne.mpr hj, Function.update_of_ne hj]

/-- The sender of a vote has cast it. -/
def genuine (l : List (Key × Engine Mempool)) : Input → Bool
  | .vote raw =>
    match deserializeVote raw with
    | .ok v => (seat l v.validatorPK).history.any fun
      | .cast t h r x _ => t.code = v.type && h = v.height && r = v.round && x = v.blockHash
      | _ => false
    | _ => true
  | _ => true

theorem genuine_authentic {l : List (Key × Engine Mempool)} {x : Input} (h : genuine l x = true) :
    trio.Authentic (seat l) x := by
  cases x with
  | vote raw =>
    intro v hd _ _ _ t ht
    simp only [genuine, hd, List.any_eq_true] at h
    obtain ⟨a, ha, hp⟩ := h
    cases a with
    | cast t' h r y lock =>
      simp only [Bool.and_eq_true, decide_eq_true_eq] at hp
      obtain ⟨⟨⟨h1, rfl⟩, rfl⟩, rfl⟩ := hp
      obtain rfl := VoteType.code_inj (h1.trans ht)
      exact ⟨lock, ha⟩
    | _ => cases hp
  | _ => trivial

/-- A run of the three, input by input, as long as `ok` holds. -/
def trioRun (ok : Key → Engine Mempool → Input → Bool) (is : List (Key × Input)) :
    Option (List (Key × Engine Mempool)) :=
  is.foldlM (fun l (i, x) =>
    if i ∈ trio.honest ∧ (seat l i).rs.height = 1 ∧ accepts (seat l i) x ∧ genuine l x ∧ ok i (seat l i) x then
      some ((i, handle (trio.config i) .id (seat l i) x) :: l)
    else none) []

theorem trioRun_reaches {ok : Key → Engine Mempool → Input → Bool}
    {R : (Key → Engine Mempool) → (Key → Engine Mempool) → Prop}
    (hR : ∀ net net' i x, trio.Takes net net' i .id x → ok i (net i) x = true → R net net')
    {is : List (Key × Input)} {l : List (Key × Engine Mempool)} (h : trioRun ok is = some l) :
    ReflTransGen R member (seat l) := by
  have hlist := foldlM_reaches (R := fun l l' => R (seat l) (seat l')) (fun l ix l' hf => ?_) h
  · exact hlist.lift seat fun _ _ => id
  · obtain ⟨i, x⟩ := ix
    dsimp only at hf
    split at hf
    · rename_i hok
      obtain ⟨hi, hh, ha, hg, hok⟩ := hok
      cases hf
      exact hR _ _ i x ⟨hi, hh, ha, genuine_authentic hg, seat_cons l i _⟩ hok
    · cases hf

/-- Validator 2 proposes, 1 and 2 prevote and precommit the proposal. -/
def firstRound : List (Key × Input) :=
  [(2, .delayElapsed), (2, .proposeReady), (2, .resume), (1, sent firstProposal), (1, .resume), (1, .resume),
   (1, ballot 2 .prevote 0 firstHash), (1, .resume), (2, ballot 1 .prevote 0 firstHash), (2, .resume),
   (1, ballot 2 .precommit 0 firstHash)]

/-- Nothing is proposed under a lock, and no round ends without a block. -/
def calm (i : Key) (e : Engine Mempool) (x : Input) : Bool :=
  (proposing (trio.config i) e x = none || e.rs.lockedBlock = none) &&
    !(pending (trio.config i) .id e x).restarts && x ≠ .precommitTimeout

theorem calm_careful {i : Key} {e : Engine Mempool} {x : Input} (h : calm i e x = true) : trio.Careful i .id e x := by
  simp only [calm, Bool.and_eq_true, Bool.or_eq_true, decide_eq_true_eq, Bool.not_eq_true'] at h
  obtain ⟨⟨h1, h2⟩, h3⟩ := h
  refine ⟨fun p hp => ?_, fun hr => ?_, fun hx => absurd hx h3⟩
  · rcases h1 with h1 | h1
    · rw [h1] at hp
      cases hp
    · exact Or.inl h1
  · rw [h2] at hr
    cases hr

theorem commits_agree_trio : ∃ net, ReflTransGen trio.CarefulStep member net ∧
    Entry.committed 1 firstHash ∈ (net 1).history ∧ (∃ y, Entry.committed 1 y ∈ (net 2).history) ∧
      ∀ x y, Entry.committed 1 x ∈ (net 1).history → Entry.committed 1 y ∈ (net 2).history → x = y := by
  have hrun : (trioRun calm (firstRound ++ [(2, ballot 1 .precommit 0 firstHash)])).map (fun l =>
      decide (Entry.committed 1 firstHash ∈ (seat l 1).history ∧ Entry.committed 1 firstHash ∈ (seat l 2).history)) =
      some true := by decide +kernel
  obtain ⟨l, hl, hc⟩ := Option.map_eq_some_iff.mp hrun
  obtain ⟨h1, h2⟩ := of_decide_eq_true hc
  have hreach : ReflTransGen trio.CarefulStep member (seat l) :=
    trioRun_reaches (fun _ _ i x ht hok => ⟨i, .id, x, ht, calm_careful hok⟩) hl
  refine ⟨seat l, hreach, h1, ⟨_, h2⟩, fun x y hx hy => ?_⟩
  exact commits_agree (by decide +kernel) (fun i _ => trio_begins i) hreach (by decide) (by decide) hx hy

/-- Validator 3's proposal for the second round. -/
def secondProposal : BlockProposal := propose Prim.sample 3 defaultChainID (.new defaultCap) 1 1 {} 0

def secondHash : Hash := blockHashForChain Prim.sample secondProposal defaultChainID

/-- Validator 3 sees no proposal and precommits nil; that precommit makes 2 drop its lock and
    2's makes 3 enter the second round, which the two decide between them. -/
def secondRound : List (Key × Input) :=
  [(3, .proposeTimeout), (3, .resume), (3, .resume), (3, ballot 2 .prevote 0 firstHash), (3, .resume),
   (2, ballot 3 .precommit 0 0), (2, .resume), (3, ballot 2 .precommit 0 firstHash), (3, .resume), (3, .resume),
   (2, sent secondProposal), (2, .resume), (2, .resume), (2, ballot 3 .prevote 1 secondHash), (2, .resume),
   (3, ballot 2 .prevote 1 secondHash), (3, .resume), (2, ballot 3 .precommit 1 secondHash)]

/-- Three honest validators, and two of them commit different blocks. -/
theorem agreement_broken : trio.faultyStake = 0 ∧ 0 < totalStake trio.stakes ∧
    (∀ i ∈ trio.honest, trio.Begins i (member i)) ∧ firstHash ≠ secondHash ∧
    ∃ net, ReflTransGen trio.Step member net ∧ Entry.committed 1 firstHash ∈ (net 1).history ∧
      Entry.committed 1 secondHash ∈ (net 2).history := by
  refine ⟨by decide +kernel, by decide +kernel, fun i _ => trio_begins i, by decide +kernel, ?_⟩
  have hrun : (trioRun (fun _ => armed) (firstRound ++ secondRound)).map (fun l =>
      decide (Entry.committed 1 firstHash ∈ (seat l 1).history ∧ Entry.committed 1 secondHash ∈ (seat l 2).history)) =
      some true := by decide +kernel
  obtain ⟨l, hl, hc⟩ := Option.map_eq_some_iff.mp hrun
  exact ⟨seat l, trioRun_reaches (fun _ _ i x ht _ => ⟨i, .id, x, ht⟩) hl, of_decide_eq_true hc⟩

end Frg.Consensus
