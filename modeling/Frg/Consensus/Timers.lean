/-
  Frg.Consensus.Timers — the three timers of the select loop.

  `Clock` is the part of an engine the timers are about, and `Tick` lists everything that
  happens to it: a timer fires into the wrong phase, a phase is entered with its timer, a
  round or a height begins, the engine puts its own proposal forward. The last one arms
  nothing, and a round that ends without a block leaves the precommit timer running; both
  ticks have a condition of their own (`own`, `undecided`). `handle_ticks` says once that
  every step is made of ticks.

    - `rounds_armed`: when the goroutine is back in its loop, the timer of the phase is
      armed and the phase is not `commit`, in every run where an own proposal finds the
      prevote timer armed or gets its quorum at once.
    - `round_stranded`: a proposer waits for prevotes without a timer.
    - `precommit_timeout_current`: a precommit timeout belongs to the round and to its
      precommit phase, in every run where no precommit quorum is split or nil.
    - `stale_timeout`: after a split one, the timeout ends the next round as it begins.
-/

import Frg.Consensus.Lock
import Frg.Consensus.Validators

namespace Frg.Consensus

open Frg.Lib Frg.Core Frg.Wire Frg.Chain Relation

variable {σ : Type}

/-! ## Clocks -/

/-- The prevote is a new one and completes a quorum of prevotes. -/
def Completes (c : Config σ) (v : Vote) (vals : Stakes) (e : Engine σ) : Prop :=
  v.type = VoteType.prevote.code ∧ acceptable c v vals e = true ∧ e.rs.prevotes.get v.validatorPK = none ∧
    quorumReached (e.rs.prevotes.put v.validatorPK v) vals = true

/-- The frame on top of the stack moves the phase on. -/
def Due (c : Config σ) (e : Engine σ) : Prop :=
  match e.rs.phase, e.stack with
  | .prevote, .vote v vals :: _ => Completes c v vals e
  | .commit, .recommit :: _ => ∀ order, ∃ h, h ≠ 0 ∧ quorumBlock order e.rs.precommits e.validators = some h
  | _, _ => False

structure Clock where
  phase : Phase
  now : UInt64 × UInt32
  propose : Option (UInt64 × UInt32)
  prevote : Option (UInt64 × UInt32)
  precommit : Option (UInt64 × UInt32)
  due : Prop

def Engine.clockWith (e : Engine σ) (due : Prop) : Clock :=
  ⟨e.rs.phase, e.now, e.proposeTimer, e.prevoteTimer, e.precommitTimer, due⟩

def Engine.clock (c : Config σ) (e : Engine σ) : Clock := e.clockWith (Due c e)

inductive Tick (own : Clock → Prop) (undecided : Prop) : Clock → Clock → Prop
  | keep (k : Clock) (d : Prop) : (k.due → d) →
      Tick own undecided k ⟨k.phase, k.now, k.propose, k.prevote, k.precommit, d⟩
  | proposeFired (k : Clock) : k.phase ≠ .propose →
      Tick own undecided k ⟨k.phase, k.now, none, k.prevote, k.precommit, k.due⟩
  | prevoteFired (k : Clock) : k.phase ≠ .prevote →
      Tick own undecided k ⟨k.phase, k.now, k.propose, none, k.precommit, k.due⟩
  /-- A proposal or the propose timeout. -/
  | prevote (k : Clock) (d : Prop) : k.phase = .propose →
      Tick own undecided k ⟨.prevote, k.now, none, some k.now, k.precommit, d⟩
  /-- A quorum of prevotes or the prevote timeout. -/
  | precommit (k : Clock) (d : Prop) : k.phase = .prevote →
      Tick own undecided k ⟨.precommit, k.now, k.propose, none, some k.now, d⟩
  /-- The own proposal: no timer is touched. -/
  | own (k : Clock) (d : Prop) : k.phase = .propose →
      own ⟨.prevote, k.now, k.propose, k.prevote, k.precommit, d⟩ →
      Tick own undecided k ⟨.prevote, k.now, k.propose, k.prevote, k.precommit, d⟩
  /-- The next round or height, with the precommit timer fired or stopped. -/
  | next (k : Clock) (now : UInt64 × UInt32) (d : Prop) :
      Tick own undecided k ⟨.propose, now, some now, k.prevote, none, d⟩
  /-- The same from the commit branch of `Start`. -/
  | restored (k : Clock) (now : UInt64 × UInt32) (d : Prop) : k.phase = .commit →
      Tick own undecided k ⟨.propose, now, some now, k.prevote, k.precommit, d⟩
  /-- The next round after a precommit quorum that is split or nil. -/
  | undecided (k : Clock) (now : UInt64 × UInt32) (d : Prop) : undecided → k.phase = .precommit →
      Tick own undecided k ⟨.propose, now, some now, k.prevote, k.precommit, d⟩

abbrev Ticks (own : Clock → Prop) (undecided : Prop) : Clock → Clock → Prop := ReflTransGen (Tick own undecided)

/-- The timer of the phase is armed, or what is due next moves the phase on. -/
structure Armed (k : Clock) : Prop where
  propose : k.phase = .propose → k.propose.isSome = true
  prevote : k.phase = .prevote → k.prevote.isSome = true ∨ k.due
  precommit : k.phase = .precommit → k.precommit.isSome = true
  commit : k.phase = .commit → k.due

theorem Armed.tick {und : Prop} {k k' : Clock} (h : Armed k)
    (ht : Tick (fun k => k.prevote.isSome = true ∨ k.due) und k k') : Armed k' := by
  cases ht with
  | keep d hd => exact ⟨h.propose, fun hp => (h.prevote hp).imp id hd, h.precommit, fun hp => hd (h.commit hp)⟩
  | proposeFired hp => exact ⟨fun hp' => absurd hp' hp, h.prevote, h.precommit, h.commit⟩
  | prevoteFired hp => exact ⟨h.propose, fun hp' => absurd hp' hp, h.precommit, h.commit⟩
  | prevote d hp => exact ⟨nofun, fun _ => Or.inl rfl, nofun, nofun⟩
  | precommit d hp => exact ⟨nofun, nofun, fun _ => rfl, nofun⟩
  | own d hp ho => exact ⟨nofun, fun _ => ho, nofun, nofun⟩
  | next now d => exact ⟨fun _ => rfl, nofun, nofun, nofun⟩
  | restored now d hp => exact ⟨fun _ => rfl, nofun, nofun, nofun⟩
  | undecided now d hu hp => exact ⟨fun _ => rfl, nofun, nofun, nofun⟩

/-- The precommit timer is only armed in the precommit phase it was armed for. -/
def Punctual (k : Clock) : Prop := ∀ t, k.precommit = some t → k.phase = .precommit ∧ t = k.now

theorem Punctual.tick {own : Clock → Prop} {k k' : Clock} (h : Punctual k) (ht : Tick own False k k') :
    Punctual k' := by
  have hnone : k.phase ≠ .precommit → k.precommit = none := by
    intro hp
    cases hk : k.precommit with
    | none => rfl
    | some t => exact absurd (h t hk).1 hp
  cases ht with
  | keep | proposeFired | prevoteFired => exact h
  | prevote d hp =>
    intro t ht
    cases (hnone (by rw [hp]; decide)).symm.trans ht
  | precommit d hp =>
    intro t ht
    exact ⟨rfl, (Option.some.inj ht).symm⟩
  | own d hp =>
    intro t ht
    cases (hnone (by rw [hp]; decide)).symm.trans ht
  | next => exact fun t ht => nomatch ht
  | restored now d hp =>
    intro t ht
    cases (hnone (by rw [hp]; decide)).symm.trans ht
  | undecided now d hu => exact hu.elim

/-! ## Handlers -/

section

variable {c : Config σ} {own : Clock → Prop} {und : Prop} {order : MapOrder} {vals : Stakes} {e e' : Engine σ}
  {k : Clock} {v : Vote}

theorem persist_clock : (e.persist c).clock c = e.clock c := by
  unfold Engine.persist
  split <;> rfl

theorem castVote_clock (t : VoteType) (h : Hash) :
    (castVote c t h vals e).clock c = e.clockWith (Due c (castVote c t h vals e)) := by
  unfold castVote
  split <;> rfl

theorem not_due (hs : e.stack = []) : ¬ Due c e := by
  unfold Due
  rw [hs]
  split
  · rename_i h
    cases h
  · rename_i h
    cases h
  · exact id

/-- A proposal of its own that the engine puts forward leaves the clock in `own`. -/
def Launches (c : Config σ) (own : Clock → Prop) (vals : Stakes) (e : Engine σ) : Prop :=
  ∀ p, ownProposal c e = some p → e.rs.phase = .propose → (serializeProposal c.W.toPrim p).isOk = true →
    own ((broadcastProposal c vals e).clock c)

theorem broadcastProposal_eq {p : BlockProposal} (hp : ownProposal c e = some p) (hphase : e.rs.phase = .propose)
    (hok : (serializeProposal c.W.toPrim p).isOk = true) : broadcastProposal c vals e =
      broadcastPrevote c (blockHashForChain c.W.toPrim p c.chainID) vals
        (({ e with rs := { e.rs with proposal := some p, phase := .prevote } } : Engine σ).persist c) := by
  unfold broadcastProposal
  rw [show c.proposer.propose _ _ _ _ _ = some p from hp]
  exact if_neg (by simp [hphase, hok])

theorem broadcastProposal_clock {p : BlockProposal} (hp : ownProposal c e = some p) (hphase : e.rs.phase = .propose)
    (hok : (serializeProposal c.W.toPrim p).isOk = true) : (broadcastProposal c vals e).clock c =
      ⟨.prevote, e.now, e.proposeTimer, e.prevoteTimer, e.precommitTimer, Due c (broadcastProposal c vals e)⟩ := by
  rw [broadcastProposal_eq hp hphase hok]
  unfold broadcastPrevote
  rw [castVote_clock]
  unfold Engine.persist
  split <;> rfl

theorem broadcastProposal_ticks (hown : Launches c own vals e) :
    Ticks own und (e.clock c) ((broadcastProposal c vals e).clock c) := by
  cases hp : ownProposal c e with
  | none =>
    have heq : broadcastProposal c vals e = e := by
      unfold broadcastProposal
      rw [show c.proposer.propose _ _ _ _ _ = none from hp]
    rw [heq]
  | some p =>
    by_cases hno : e.rs.phase ≠ .propose ∨ (serializeProposal c.W.toPrim p).isOk = false
    · have heq : broadcastProposal c vals e = e := by
        unfold broadcastProposal
        rw [show c.proposer.propose _ _ _ _ _ = some p from hp]
        exact if_pos hno
      rw [heq]
    · obtain ⟨hphase, hser⟩ := not_or.mp hno
      have hprop : e.rs.phase = .propose := not_not.mp hphase
      have hok : (serializeProposal c.W.toPrim p).isOk = true := by simpa using hser
      have hclock := hown p hp hprop hok
      rw [broadcastProposal_clock hp hprop hok] at hclock ⊢
      exact .single (.own (e.clock c) _ hprop hclock)

/-- How an engine stands at the end of its round. -/
def Leaves (und : Prop) (k : Clock) (e : Engine σ) : Prop :=
  e.prevoteTimer = k.prevote ∧ (e.precommitTimer = none ∨ (k.phase = .commit ∧ e.precommitTimer = k.precommit) ∨
    (und ∧ k.phase = .precommit ∧ e.precommitTimer = k.precommit))

theorem Leaves.tick (h : Leaves und k e) (now : UInt64 × UInt32) (d : Prop) :
    Tick own und k ⟨.propose, now, some now, e.prevoteTimer, e.precommitTimer, d⟩ := by
  obtain ⟨h1, h2⟩ := h
  rw [h1]
  rcases h2 with h2 | ⟨hp, h2⟩ | ⟨hu, hp, h2⟩
  · rw [h2]
    exact .next k now d
  · rw [h2]
    exact .restored k now d hp
  · rw [h2]
    exact .undecided k now d hu hp

theorem Leaves.reject (h : Leaves und k e) : Leaves und k (rejectProposal c e) := by
  unfold rejectProposal
  split <;> exact h

/-- The engine in the round that `restartRound` begins. -/
def Engine.restarted (e : Engine σ) : Engine σ :=
  ({ e with rs := e.rs.unlock.incrementRound, history := .unlocked :: e.history
            proposeTimer := some (e.rs.height, e.rs.round + 1) } : Engine σ).push .persist

theorem restartRound_eq : restartRound c e =
    if proposerOf c e.restarted (bondedAmounts e.disk.db) = c.self then
      broadcastProposal c (bondedAmounts e.disk.db) e.restarted else e.restarted := rfl

theorem startNextRound_clock (vals : Stakes) (e : Engine σ) : ∃ d, (startNextRound c vals e).clock c =
    ⟨.propose, (e.rs.height + 1, 0), some (e.rs.height + 1, 0), e.prevoteTimer, e.precommitTimer, d⟩ := by
  unfold startNextRound
  dsimp only
  rw [persist_clock]
  split
  · exact ⟨_, rfl⟩
  · exact ⟨_, rfl⟩

/-- What the outcome of a vote, or of the commit branch, means for the clock. -/
def Timed (c : Config σ) (own : Clock → Prop) (und : Prop) (k : Clock) : Outcome σ → Prop
  | .stay e => Ticks own und k (e.clock c)
  | .committed _ e => Leaves und k e
  | .restart e => Leaves und k e
  | .crash _ => True

theorem finish_ticks {o : Outcome σ} (ho : Timed c own und k o) (refresh : Bool)
    (hown : ∀ e₁, o = .restart e₁ → proposerOf c e₁.restarted (bondedAmounts e₁.disk.db) = c.self →
      Launches c own (bondedAmounts e₁.disk.db) e₁.restarted) :
    (finish c refresh o).halted = true ∨ Ticks own und k ((finish c refresh o).clock c) := by
  cases o with
  | stay e => exact Or.inr ho
  | crash e => exact Or.inl rfl
  | committed x e =>
    right
    obtain ⟨d, hclock⟩ := startNextRound_clock (c := c) (bondedAmounts e.disk.db) { e with
      rs := { e.rs with lastAttestation := attestationFromPrecommits e.rs.precommits x }
      validators := if refresh then bondedAmounts e.disk.db else e.validators }
    unfold finish
    rw [hclock]
    exact .single (Leaves.tick ho _ d)
  | restart e =>
    right
    have hbegin : Ticks own und k (e.restarted.clock c) := .single (Leaves.tick ho _ _)
    show Ticks own und k ((restartRound c e).clock c)
    rw [restartRound_eq]
    split
    · rename_i hp
      exact hbegin.trans (broadcastProposal_ticks (hown e rfl hp))
    · exact hbegin

theorem receivePrevote_ticks {d : Prop} (hd : d → e.rs.phase = .prevote ∧ Completes c v vals e) :
    Ticks own und (e.clockWith d) ((receivePrevote c order v vals e).clock c) := by
  unfold receivePrevote
  split
  · rename_i hdup
    refine .single (.keep (e.clockWith d) _ fun h => ?_)
    rw [(hd h).2.2.2.1] at hdup
    cases hdup
  · dsimp only
    set e₁ : Engine σ := { e with rs := { e.rs with prevotes := e.rs.prevotes.put v.validatorPK v } }
    set e₂ : Engine σ := (e₁.notePolka (quorumBlock order e₁.rs.prevotes vals)).persist c with he₂
    have hclock : ∀ d, e₂.clockWith d = e.clockWith d := by
      intro d
      rw [he₂]
      unfold Engine.persist
      cases quorumBlock order e₁.rs.prevotes vals <;> split <;> rfl
    have hrs : e₂.rs = e₁.rs := by
      rw [he₂, persist_rs]
      cases quorumBlock order e₁.rs.prevotes vals <;> rfl
    split
    · rename_i hq
      have hphase : e₂.rs.phase = .prevote := hq.2
      rw [← hclock]
      split
      · unfold broadcastPrecommit
        rw [castVote_clock]
        exact .single (.precommit (e₂.clockWith d) _ hphase)
      · unfold broadcastPrecommit
        rw [castVote_clock]
        exact .single (.precommit (e₂.clockWith d) _ hphase)
    · rename_i hq
      rw [← hclock]
      refine .single (.keep (e₂.clockWith d) _ fun h => absurd ?_ hq)
      obtain ⟨hphase, -, -, -, hquorum⟩ := hd h
      rw [hrs]
      exact ⟨hquorum, hphase⟩

theorem tryCommit_timed {h : Hash} (hl : Leaves und k e) : Timed c own und k (tryCommit c order h e) := by
  unfold tryCommit
  split
  · rename_i e₁ hc
    obtain ⟨p, bytes, r, db, -, -, -, -, rfl⟩ := commit_ok c hc
    exact hl
  · exact Leaves.reject (e := e.note (.refused e.rs.height h)) hl
  · exact hl.reject
  · trivial

theorem receivePrecommit_timed {d : Prop} (hd : ¬ d)
    (hund : (receivePrecommit c order v vals e).restarts = true →
      (∀ h, quorumBlock order (e.rs.precommits.put v.validatorPK v) vals = some h → h = 0) → und) :
    Timed c own und (e.clockWith d) (receivePrecommit c order v vals e) := by
  revert hund
  unfold receivePrecommit
  split
  · exact fun _ => .single (.keep (e.clockWith d) _ fun h => absurd h hd)
  · dsimp only
    set e₁ : Engine σ := { e with rs := { e.rs with precommits := e.rs.precommits.put v.validatorPK v } } with he₁
    have hclock : ∀ d, (e₁.persist c).clockWith d = e.clockWith d := by
      intro d
      unfold Engine.persist
      split <;> rfl
    have hpre : (e₁.persist c).rs.precommits = e.rs.precommits.put v.validatorPK v := by rw [persist_rs]
    have hpt : (e₁.persist c).prevoteTimer = e.prevoteTimer := congrArg Clock.prevote (hclock d)
    have hct : (e₁.persist c).precommitTimer = e.precommitTimer := congrArg Clock.precommit (hclock d)
    have hphase : (e₁.persist c).rs.phase = e.rs.phase := congrArg Clock.phase (hclock d)
    have hsplit : (∀ h, quorumBlock order (e₁.persist c).rs.precommits vals = some h → h = 0) →
        (e₁.persist c).rs.phase = .precommit →
        (((Outcome.restart (rejectProposal c (e₁.persist c))).restarts = true →
          (∀ h, quorumBlock order (e.rs.precommits.put v.validatorPK v) vals = some h → h = 0) → und) →
        Leaves und (e.clockWith d) (rejectProposal c (e₁.persist c))) := by
      intro hq hp hund
      have hu : und := hund rfl (hpre ▸ hq)
      have hl : Leaves und (e.clockWith d) (e₁.persist c) := ⟨hpt, Or.inr (Or.inr ⟨hu, hphase.symm.trans hp, hct⟩)⟩
      exact hl.reject
    split
    · rename_i hquorum
      split
      · rename_i h hq
        split
        · exact fun _ => tryCommit_timed ⟨hpt, Or.inl rfl⟩
        · rename_i hx
          refine hsplit (fun h' hq' => ?_) hquorum.2
          rw [hq] at hq'
          exact Option.some.inj hq' ▸ not_not.mp hx
      · rename_i hq
        refine hsplit (fun h' hq' => ?_) hquorum.2
        rw [hq] at hq'
        cases hq'
    · intro _
      show Ticks own und (e.clockWith d) ((e₁.persist c).clock c)
      unfold Engine.clock
      rw [hclock]
      exact .single (.keep (e.clockWith d) _ fun h => absurd h hd)

theorem receiveVote_timed {d : Prop} (hd : d → e.rs.phase = .prevote ∧ Completes c v vals e)
    (hund : (receiveVote c order v vals e).restarts = true →
      (∀ h, quorumBlock order (e.rs.precommits.put v.validatorPK v) vals = some h → h = 0) → und) :
    Timed c own und (e.clockWith d) (receiveVote c order v vals e) := by
  revert hund
  unfold receiveVote
  split
  · split
    · exact fun _ => receivePrevote_ticks hd
    · rename_i ht
      exact receivePrecommit_timed fun h => absurd (hd h).2.1 ht
  · rename_i hacc
    intro _
    exact .single (.keep (e.clockWith d) _ fun h => absurd (hd h).2.2.1 hacc)

theorem recommit_timed {d : Prop} (hphase : e.rs.phase = .commit)
    (hd : d → ∃ h, h ≠ 0 ∧ quorumBlock order e.rs.precommits e.validators = some h) :
    Timed c own und (e.clockWith d) (recommit c order e) := by
  unfold recommit
  split
  · rename_i h hq
    split
    · exact tryCommit_timed ⟨rfl, Or.inr (Or.inl ⟨hphase, rfl⟩)⟩
    · rename_i hx
      refine .single (.keep (e.clockWith d) _ fun h' => ?_)
      obtain ⟨h'', hne, hq'⟩ := hd h'
      rw [hq] at hq'
      exact absurd (Option.some.inj hq' ▸ hne) hx
  · rename_i hq
    refine .single (.keep (e.clockWith d) _ fun h' => ?_)
    obtain ⟨h'', -, hq'⟩ := hd h'
    rw [hq] at hq'
    cases hq'

end

/-! ## Steps -/

/-- The engine in the round that the precommit timeout begins. -/
def Engine.timedOut (e : Engine σ) : Engine σ :=
  ({ e with rs := e.rs.incrementRound, precommitTimer := none
            proposeTimer := some (e.rs.height, e.rs.round + 1) } : Engine σ).push .persist

/-- The engine as a step calls `broadcastProposal`, and the validators it is called with. -/
def launching (c : Config σ) (order : MapOrder) (e : Engine σ) : Input → Option (Stakes × Engine σ)
  | .precommitTimeout => if proposerOf c e.timedOut e.validators = c.self then some (e.validators, e.timedOut) else none
  | .proposeReady =>
    if e.rs.phase = .propose ∧ proposerOf c e e.validators = c.self then some (e.validators, { e with ready := false })
    else none
  | i =>
    match pending c order e i with
    | .restart e =>
      if proposerOf c e.restarted (bondedAmounts e.disk.db) = c.self then some (bondedAmounts e.disk.db, e.restarted)
      else none
    | _ => none

/-- A frame for the commit branch of `Start` stands alone, in the commit phase. -/
def Restoring (e : Engine σ) : Prop := Frame.recommit ∈ e.stack → e.stack = [.recommit] ∧ e.rs.phase = .commit

section

variable {c : Config σ} {own : Clock → Prop} {und : Prop} {order : MapOrder} {e e' : Engine σ} {i : Input}

theorem incoming_accepts {v : Vote} {vals : Stakes} (ha : accepts e i = true) (hi : incoming e i = some (v, vals)) :
    (Due c e → e.rs.phase = .prevote ∧ Completes c v vals e) := by
  intro hdue
  cases i with
  | vote raw =>
    simp only [accepts, Bool.and_eq_true, decide_eq_true_eq] at ha
    exact absurd hdue (not_due ha.2)
  | resume =>
    simp only [incoming] at hi
    split at hi
    · rename_i w u s hs
      cases hi
      unfold Due at hdue
      rw [hs] at hdue
      cases hp : e.rs.phase with
      | prevote =>
        rw [hp] at hdue
        exact ⟨rfl, hdue⟩
      | propose | precommit | commit =>
        rw [hp] at hdue
        exact hdue.elim
    · cases hi
  | proposal | proposeTimeout | prevoteTimeout | precommitTimeout | proposeReady | delayElapsed | enqueue => cases hi

theorem launching_restart {e₁ : Engine σ} (hp : pending c order e i = .restart e₁) (h1 : i ≠ .precommitTimeout)
    (h2 : i ≠ .proposeReady) (hself : proposerOf c e₁.restarted (bondedAmounts e₁.disk.db) = c.self) :
    launching c order e i = some (bondedAmounts e₁.disk.db, e₁.restarted) := by
  unfold launching
  split
  · exact absurd rfl h1
  · exact absurd rfl h2
  · rw [hp]
    exact if_pos hself

theorem incoming_ticks {v : Vote} {vals : Stakes} (ha : accepts e i = true) (hi : incoming e i = some (v, vals))
    (hown : ∀ x ∈ launching c order e i, Launches c own x.1 x.2)
    (hund : (pending c order e i).restarts = true → (∀ h, quorumOf order e i = some h → h = 0) → und) :
    (handle c order e i).halted = true ∨ Ticks own und (e.clock c) ((handle c order e i).clock c) := by
  have hpend : pending c order e i = receiveVote c order v vals (e.popped i) := by simp only [pending, hi]
  have hquorum : quorumOf order e i = quorumBlock order (e.rs.precommits.put v.validatorPK v) vals := by
    simp only [quorumOf, hi]
  have hclock : e.clock c = (e.popped i).clockWith (Due c e) := by cases i <;> rfl
  have htimed : Timed c own und ((e.popped i).clockWith (Due c e)) (receiveVote c order v vals (e.popped i)) := by
    apply receiveVote_timed
    · intro hd
      obtain ⟨h1, h2⟩ := incoming_accepts ha hi hd
      cases i <;> exact ⟨h1, h2⟩
    · rw [← hpend, popped_rs, ← hquorum]
      exact hund
  rw [handle_incoming hi, hclock]
  apply finish_ticks htimed
  intro e₁ he₁ hself
  apply hown _ (launching_restart (hpend.trans he₁) _ _ hself)
  · rintro rfl
    cases hi
  · rintro rfl
    cases hi

theorem handleProposal_ticks (p : BlockProposal) :
    (handleProposal c p e).halted = true ∨ Ticks own und (e.clock c) ((handleProposal c p e).clock c) := by
  unfold handleProposal
  split
  · rename_i ht
    simp only [timely, Bool.and_eq_true, decide_eq_true_eq] at ht
    split
    · right
      unfold broadcastPrevote
      rw [castVote_clock]
      exact .single (.prevote (e.clock c) _ ht.1.1.2)
    · exact Or.inr .refl
    · exact Or.inl rfl
  · exact Or.inr .refl

theorem onProposeTimeout_ticks :
    Ticks own und (e.clock c) ((onProposeTimeout c { e with proposeTimer := none }).clock c) := by
  unfold onProposeTimeout
  split
  · rename_i hp
    exact .single (.proposeFired (e.clock c) hp)
  · rename_i hp
    unfold broadcastPrevote
    rw [castVote_clock]
    exact .single (.prevote (e.clock c) _ (not_not.mp hp))

theorem onPrevoteTimeout_ticks :
    Ticks own und (e.clock c) ((onPrevoteTimeout c { e with prevoteTimer := none }).clock c) := by
  unfold onPrevoteTimeout
  split
  · rename_i hp
    exact .single (.prevoteFired (e.clock c) hp)
  · rename_i hp
    unfold broadcastPrecommit
    rw [castVote_clock]
    exact .single (.precommit (e.clock c) _ (not_not.mp hp))

theorem precommitTimeout_ticks (hown : ∀ x ∈ launching c order e .precommitTimeout, Launches c own x.1 x.2) :
    Ticks own und (e.clock c) ((handle c order e .precommitTimeout).clock c) := by
  have hbegin : Ticks own und (e.clock c) (e.timedOut.clock c) := .single (.next (e.clock c) _ _)
  have heq : handle c order e .precommitTimeout =
      if proposerOf c e.timedOut e.validators = c.self then broadcastProposal c e.validators e.timedOut
      else e.timedOut := rfl
  rw [heq]
  split
  · rename_i hp
    exact hbegin.trans (broadcastProposal_ticks (hown _ (if_pos hp)))
  · exact hbegin

theorem proposeReady_ticks (hown : ∀ x ∈ launching c order e .proposeReady, Launches c own x.1 x.2) :
    Ticks own und (e.clock c) ((onProposeReady c { e with ready := false }).clock c) := by
  unfold onProposeReady
  split
  · rename_i hp
    exact broadcastProposal_ticks (hown _ (if_pos hp))
  · exact .refl

theorem persistFrame_ticks {s : List Frame} (hst : e.stack = .persist :: s) :
    Ticks own und (e.clock c) ((({ e with stack := s } : Engine σ).persist c).clock c) := by
  rw [persist_clock]
  refine .single (.keep (e.clock c) _ fun hd => ?_)
  change Due c e at hd
  unfold Due at hd
  rw [hst] at hd
  cases hp : e.rs.phase <;> rw [hp] at hd <;> exact hd.elim

theorem recommitFrame_ticks (hst : e.stack = [.recommit]) (hphase : e.rs.phase = .commit)
    (hown : ∀ x ∈ launching c order e .resume, Launches c own x.1 x.2) :
    (finish c true (recommit c order { e with stack := [] })).halted = true ∨
      Ticks own und (e.clock c) ((finish c true (recommit c order { e with stack := [] })).clock c) := by
  have hpend : pending c order e .resume = recommit c order { e with stack := [] } := by
    simp [pending, incoming, hst, Engine.popped]
  have htimed : Timed c own und (({ e with stack := [] } : Engine σ).clockWith (Due c e))
      (recommit c order { e with stack := [] }) := by
    refine recommit_timed (e := { e with stack := [] }) hphase fun hd => ?_
    unfold Due at hd
    rw [hst, hphase] at hd
    exact hd order
  apply finish_ticks htimed true
  intro e₁ he₁ hself
  apply hown _ (launching_restart (hpend.trans he₁) _ _ hself)
  · intro h
    cases h
  · intro h
    cases h

theorem handle_ticks (ha : accepts e i = true) (hr : Restoring e)
    (hown : ∀ x ∈ launching c order e i, Launches c own x.1 x.2)
    (hund : (pending c order e i).restarts = true → (∀ h, quorumOf order e i = some h → h = 0) → und) :
    (handle c order e i).halted = true ∨ Ticks own und (e.clock c) ((handle c order e i).clock c) := by
  cases hi : incoming e i with
  | some x => exact incoming_ticks ha hi hown hund
  | none =>
    cases i with
    | vote raw =>
      simp only [incoming] at hi
      cases hd : deserializeVote raw with
      | ok w => rw [hd] at hi; cases hi
      | err x => simp only [handle, hd]; exact Or.inr .refl
      | panic x => simp only [handle, hd]; exact Or.inr .refl
    | proposal raw =>
      unfold handle
      dsimp only
      split
      · exact handleProposal_ticks _
      · exact Or.inr .refl
      · exact Or.inr .refl
      · exact Or.inl rfl
    | proposeTimeout => exact Or.inr onProposeTimeout_ticks
    | prevoteTimeout => exact Or.inr onPrevoteTimeout_ticks
    | precommitTimeout => exact Or.inr (precommitTimeout_ticks hown)
    | proposeReady => exact Or.inr (proposeReady_ticks hown)
    | delayElapsed => exact Or.inr .refl
    | enqueue t => exact Or.inr .refl
    | resume =>
      cases hst : e.stack with
      | nil =>
        simp only [handle, hst]
        exact Or.inr .refl
      | cons f s =>
        cases f with
        | persist =>
          simp only [handle, hst]
          exact Or.inr (persistFrame_ticks hst)
        | recommit =>
          have halone : e.stack = [.recommit] ∧ e.rs.phase = .commit := hr (by rw [hst]; exact List.mem_cons_self)
          obtain ⟨-, rfl⟩ := List.cons.inj (hst.symm.trans halone.1)
          simp only [handle, hst]
          exact recommitFrame_ticks hst halone.2 hown
        | vote v vals => simp [incoming, hst] at hi

theorem handle_restoring (ha : accepts e i = true) (hr : Restoring e) : Restoring (handle c order e i) := by
  have hbelow : i ≠ .delayElapsed → (∀ t, i ≠ .enqueue t) → Frame.recommit ∉ (e.popped i).stack := by
    intro h1 h2
    cases i with
    | resume =>
      intro hm
      have hm : Frame.recommit ∈ e.stack.tail := hm
      rw [(hr (List.mem_of_mem_tail hm)).1] at hm
      exact absurd hm List.not_mem_nil
    | delayElapsed => exact absurd rfl h1
    | enqueue t => exact absurd rfl (h2 t)
    | vote | proposal | proposeTimeout | prevoteTimeout | precommitTimeout | proposeReady =>
      simp only [accepts, Bool.and_eq_true, decide_eq_true_eq] at ha
      show Frame.recommit ∉ e.stack
      rw [ha.2]
      exact List.not_mem_nil
  by_cases h1 : i = .delayElapsed
  · subst h1
    exact hr
  by_cases h2 : ∃ t, i = .enqueue t
  · obtain ⟨t, rfl⟩ := h2
    exact hr
  have hno := hbelow h1 (not_exists.mp h2)
  intro hm
  exfalso
  cases hp : pending c order e i with
  | committed x e₁ =>
    rw [(handle_commits (.free c order e i) hp).1.stack] at hm
    exact hno hm
  | stay | restart | crash =>
    have hruns := handle_runs (.free c order e i) fun x e₁ h => by rw [hp] at h; cases h
    obtain ⟨fs, hfs, hpush⟩ := hruns.stack
    rw [hfs] at hm
    rcases List.mem_append.mp hm with hm | hm
    · rcases hpush _ hm with hf | ⟨t, h, r, x, l, w, hf, -⟩
      · cases hf
      · cases hf
    · exact hno hm

end

/-! ## Runs -/

/-- A proposal of its own leaves the engine with a prevote timer that is still armed, or its
    prevote completes a quorum at once. -/
def Carried (c : Config σ) (vals : Stakes) (e : Engine σ) : Prop :=
  ∀ p ∈ ownProposal c e, (serializeProposal c.W.toPrim p).isOk = true →
    e.prevoteTimer.isSome = true ∨ ((e.rs.height, e.rs.round, VoteType.prevote) ∉ e.disk.slots ∧
      Completes c (signVote c .prevote e.rs.height e.rs.round (blockHashForChain c.W.toPrim p c.chainID)) vals e)

/-- The step strands no proposal of the engine's own. -/
def Steady (c : Config σ) (order : MapOrder) (e : Engine σ) (i : Input) : Prop :=
  ∀ x ∈ launching c order e i, Carried c x.1 x.2

/-- The round is restarted only by a precommit quorum for a block. -/
def Decisive (c : Config σ) (order : MapOrder) (e : Engine σ) (i : Input) : Prop :=
  (pending c order e i).restarts = true → ∃ h ∈ quorumOf order e i, h ≠ 0

instance (c : Config σ) (v : Vote) (vals : Stakes) (e : Engine σ) : Decidable (Completes c v vals e) :=
  inferInstanceAs (Decidable (_ ∧ _ ∧ _ ∧ _))

instance (c : Config σ) (vals : Stakes) (e : Engine σ) : Decidable (Carried c vals e) :=
  inferInstanceAs (Decidable (∀ p ∈ ownProposal c e, _))

instance (c : Config σ) (order : MapOrder) (e : Engine σ) (i : Input) : Decidable (Steady c order e i) :=
  inferInstanceAs (Decidable (∀ x ∈ launching c order e i, _))

instance (c : Config σ) (order : MapOrder) (e : Engine σ) (i : Input) : Decidable (Decisive c order e i) :=
  inferInstanceAs (Decidable (_ → _))

/-- A run computed input by input, each of which meets `P`, with no write failing. -/
theorem guarded_reaches {P : Config Mempool → MapOrder → Engine Mempool → Input → Prop} {W : World}
    {chainID : List UInt8} {self : Key} [∀ e i, Decidable (P (.node W chainID self) .id e i)] {is : List Input}
    {e e' : Engine Mempool} (h : is.foldlM (fun e i =>
      if P (.node W chainID self) .id e i then step (.node W chainID self) .id e i else none) e = some e') :
    ReflTransGen (GuardedStep P (.node W chainID self)) e e' := by
  refine foldlM_reaches (fun a i b hf => ?_) h
  split at hf
  · exact guardedStep_iff.mpr ⟨fun _ => none, .id, i, ‹_›, hf⟩
  · cases hf

section

variable {c : Config σ} {order : MapOrder} {vals : Stakes} {e e' : Engine σ} {i : Input}

theorem Carried.launches (h : Carried c vals e) : Launches c (fun k => k.prevote.isSome = true ∨ k.due) vals e := by
  intro p hp hphase hok
  rw [broadcastProposal_eq hp hphase hok]
  set e₁ : Engine σ := { e with rs := { e.rs with proposal := some p, phase := .prevote } }
  unfold broadcastPrevote
  rcases h p hp hok with ht | ⟨hslot, hcomp⟩
  · left
    rw [castVote_clock]
    unfold Engine.persist
    split <;> exact ht
  · right
    -- the persist touches neither the round state nor the slots
    have hfree : ((e₁.persist c).rs.height, (e₁.persist c).rs.round, VoteType.prevote) ∉ (e₁.persist c).disk.slots := by
      unfold Engine.persist
      split <;> exact hslot
    show Due c (castVote c .prevote _ vals (e₁.persist c))
    unfold castVote
    rw [if_neg hfree]
    unfold Due
    dsimp only
    rw [persist_rs]
    exact hcomp

/-- A halted engine only has its mempool and its delayed proposals left. -/
theorem handle_halted (hh : e.halted = true) (ha : accepts e i = true) : (handle c order e i).halted = true := by
  cases i with
  | delayElapsed | enqueue => exact hh
  | _ => simp [accepts, hh] at ha

/-- What the run of an engine keeps. -/
structure Kept (c : Config σ) (I : Clock → Prop) (e : Engine σ) : Prop where
  restoring : Restoring e
  clock : e.halted = true ∨ I (e.clock c)

theorem Kept.step {I : Clock → Prop} {own : Clock → Prop} {und : Prop} (hI : ∀ {k k'}, I k → Tick own und k k' → I k')
    (h : Kept c I e) {fault : Write → Option Err} (hs : step (c.failing fault) order e i = some e')
    (hown : ∀ x ∈ launching (c.failing fault) order e i, Launches (c.failing fault) own x.1 x.2)
    (hund : (pending (c.failing fault) order e i).restarts = true → (∀ h, quorumOf order e i = some h → h = 0) → und) :
    Kept c I e' := by
  obtain ⟨ha, rfl⟩ := step_eq_some hs
  refine ⟨handle_restoring ha h.restoring, ?_⟩
  rcases h.clock with hh | hk
  · exact Or.inl (handle_halted hh ha)
  · exact (handle_ticks ha h.restoring hown hund).imp id fun hticks => run_keeps hI hticks hk

theorem start_restoring (c : Config σ) (disk : Disk) (pool : σ) (history : List Entry) :
    Restoring (start c disk pool history) := by
  unfold start
  dsimp only
  split
  · exact fun hm => absurd hm List.not_mem_nil
  · exact fun hm => absurd hm List.not_mem_nil
  · exact fun hm => absurd hm List.not_mem_nil
  · rename_i hp
    exact fun _ => ⟨rfl, hp⟩

theorem start_armed {disk : Disk} {pool : σ} {history : List Entry}
    (hdisk : (restored c disk).phase = .commit → ∀ order, ∃ h, h ≠ 0 ∧
      quorumBlock order (restored c disk).precommits (bondedAmounts disk.db) = some h) :
    Armed ((start c disk pool history).clock c) := by
  have hother : ∀ {p p' : Phase} {P : Prop}, (restored c disk).phase = p → p ≠ p' →
      (restored c disk).phase = p' → P := fun hp hne hp' => absurd (hp.symm.trans hp') hne
  unfold start
  dsimp only
  split
  · rename_i hp
    exact ⟨fun _ => rfl, hother hp nofun, hother hp nofun, hother hp nofun⟩
  · rename_i hp
    exact ⟨hother hp nofun, fun _ => Or.inl rfl, hother hp nofun, hother hp nofun⟩
  · rename_i hp
    exact ⟨hother hp nofun, hother hp nofun, fun _ => rfl, hother hp nofun⟩
  · rename_i hp
    refine ⟨hother hp nofun, hother hp nofun, hother hp nofun, fun _ => ?_⟩
    show Due c _
    unfold Due Engine.push
    dsimp only
    rw [show (restored c disk).phase = .commit from hp]
    exact hdisk hp

theorem start_punctual (disk : Disk) (pool : σ) (history : List Entry) :
    Punctual ((start c disk pool history).clock c) := by
  unfold start
  dsimp only
  split
  · exact fun t ht => nomatch ht
  · exact fun t ht => nomatch ht
  · rename_i hp
    exact fun t ht => ⟨hp, (Option.some.inj ht).symm⟩
  · exact fun t ht => nomatch ht

/-- Back in the loop, the timer of the phase is armed and nothing waits for a commit. -/
theorem rounds_armed {disk : Disk} {pool : σ} {history : List Entry}
    (hdisk : (restored c disk).phase = .commit → ∀ order, ∃ h, h ≠ 0 ∧
      quorumBlock order (restored c disk).precommits (bondedAmounts disk.db) = some h)
    (hrun : ReflTransGen (GuardedStep Steady c) (start c disk pool history) e) (hstack : e.stack = [])
    (hhalted : e.halted = false) :
    (e.rs.phase = .propose → e.proposeTimer.isSome = true) ∧ (e.rs.phase = .prevote → e.prevoteTimer.isSome = true) ∧
      (e.rs.phase = .precommit → e.precommitTimer.isSome = true) ∧ e.rs.phase ≠ .commit := by
  have hstart : Kept c Armed (start c disk pool history) :=
    ⟨start_restoring c disk pool history, Or.inr (start_armed hdisk)⟩
  have hkept : Kept c Armed e := by
    refine run_keeps (fun {x y} h hs => ?_) hrun hstart
    obtain ⟨fault, order, i, hc, hs⟩ := guardedStep_iff.mp hs
    exact h.step Armed.tick hs (fun l hl => (hc l hl).launches) fun _ _ => trivial
  have harmed := hkept.clock.resolve_left (by rw [hhalted]; decide)
  have hdue : ¬ Due c e := not_due hstack
  exact ⟨harmed.propose, fun hp => (harmed.prevote hp).resolve_right hdue, harmed.precommit,
    fun hp => hdue (harmed.commit hp)⟩

end

def steadyRun (is : List Input) : Option (Engine Mempool) :=
  let c := Config.node World.sample defaultChainID 1
  is.foldlM (fun e i => if Steady c .id e i then step c .id e i else none) solo

/-- A validator alone has its quorum at once: no timer is needed to commit a block. -/
theorem rounds_armed_solo : ∃ e, steadyRun soloBlock = some e ∧ e.rs.height = 2 ∧
    (e.rs.phase = .propose → e.proposeTimer.isSome = true) ∧ (e.rs.phase = .prevote → e.prevoteTimer.isSome = true) ∧
      (e.rs.phase = .precommit → e.precommitTimer.isSome = true) ∧ e.rs.phase ≠ .commit := by
  have hrun : (steadyRun soloBlock).map (fun e => (e.rs.height, e.stack, e.halted)) = some (2, [], false) := by
    decide +kernel
  obtain ⟨e, he, hend⟩ := Option.map_eq_some_iff.mp hrun
  simp only [Prod.mk.injEq] at hend
  exact ⟨e, he, hend.1, rounds_armed (fun h => absurd h (by decide +kernel)) (guarded_reaches he) hend.2.1 hend.2.2⟩

/-- Validator 2 proposes and votes. It has half of the stake, and no prevote timer runs: when
    the other prevotes are lost, the round never ends. -/
theorem round_stranded : (memberRun 2 [.delayElapsed, .proposeReady, .resume]).map (fun e =>
    (e.stack, e.rs.phase, e.prevoteTimer)) = some ([], .prevote, none) := by
  decide +kernel

section

variable {c : Config σ} {e e' : Engine σ}

/-- When the precommit timeout fires, its round is in the precommit phase. -/
theorem precommit_timeout_current {disk : Disk} {pool : σ} {history : List Entry}
    (hrun : ReflTransGen (GuardedStep Decisive c) (start c disk pool history) e) {order : MapOrder}
    (hs : step c order e .precommitTimeout = some e') :
    e.rs.phase = .precommit ∧ e.precommitTimer = some (e.rs.height, e.rs.round) := by
  have hstart : Kept c Punctual (start c disk pool history) :=
    ⟨start_restoring c disk pool history, Or.inr (start_punctual disk pool history)⟩
  have htick : ∀ {k k'}, Punctual k → Tick (fun _ => True) False k k' → Punctual k' := Punctual.tick
  have hkept : Kept c Punctual e := by
    refine run_keeps (fun {x y} h hs => ?_) hrun hstart
    obtain ⟨fault, order, i, hc, hs⟩ := guardedStep_iff.mp hs
    refine h.step htick hs (fun _ _ _ _ _ _ => trivial) fun hr hq => ?_
    obtain ⟨h, hquorum, hne⟩ := hc hr
    exact hne (hq h hquorum)
  unfold step at hs
  split at hs
  · rename_i hen
    simp only [accepts, armed, Bool.and_eq_true, decide_eq_true_eq, Bool.not_eq_true'] at hen
    obtain ⟨⟨hhalted, -⟩, harmed⟩ := hen
    have hp := hkept.clock.resolve_left (by rw [hhalted]; decide)
    obtain ⟨t, ht⟩ := Option.isSome_iff_exists.mp harmed
    obtain ⟨hphase, rfl⟩ := hp t ht
    exact ⟨hphase, ht⟩
  · cases hs

end

def decisiveRun (self : Key) (is : List Input) : Option (Engine Mempool) :=
  let c := Config.node World.sample defaultChainID self
  is.foldlM (fun e i => if Decisive c .id e i then step c .id e i else none) (member self)

/-- Validator 3 has locked the first proposal and waits for precommits. -/
theorem precommit_timeout_current_lockedFirst : ∃ e e', decisiveRun 3 lockedFirst = some e ∧
    step (.node World.sample defaultChainID 3) .id e .precommitTimeout = some e' ∧
    e.rs.phase = .precommit ∧ e.precommitTimer = some (e.rs.height, e.rs.round) := by
  have hrun : ((decisiveRun 3 lockedFirst).bind fun e =>
      step (.node World.sample defaultChainID 3) .id e .precommitTimeout).isSome = true := by
    decide +kernel
  obtain ⟨e', he'⟩ := Option.isSome_iff_exists.mp hrun
  obtain ⟨e, he, hs⟩ := Option.bind_eq_some_iff.mp he'
  exact ⟨e, e', he, hs, precommit_timeout_current (guarded_reaches he) hs⟩

/-- Validator 2 restarts the round on the nil precommit of validator 3. The timer of round 0
    is still armed, and ends round 1 in its propose phase. -/
theorem stale_timeout :
    (memberRun 2 (lockedOwn ++ [ballot 3 .precommit 0 0, .resume])).map (fun e =>
      (e.now, e.rs.phase, e.precommitTimer, e.stack)) = some ((1, 1), .propose, some (1, 0), []) ∧
    (memberRun 2 (lockedOwn ++ [ballot 3 .precommit 0 0, .resume, .precommitTimeout])).map (·.now) =
      some (1, 2) := by
  decide +kernel

end Frg.Consensus
