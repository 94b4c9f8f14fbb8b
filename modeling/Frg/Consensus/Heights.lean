/-
  Frg.Consensus.Heights — the height of the engine and the height of the chain.

  A step of the engine here is one where any of its write transactions may fail: the
  reservation of a slot, the persisted round state, its removal, the block itself.

    - `Regime.Step`: the steps of a run, guarded, with writes that fail and with crashes.
    - `Engine.Step.follows`: whatever a step does, the engine works on the height after the
      committed one; a failed application changes neither.
    - `height_follows`: so it does in every run from `Start`, and within one height the
      round never goes back.
-/

import Frg.Chain.Run
import Frg.Consensus.BlockLoop
import Frg.Consensus.Steps

namespace Frg.Consensus

open Frg.Lib Frg.Core Frg.Wire Frg.Chain Relation

variable {σ : Type}

/-- The same node with writes that fail as `fault` says. -/
def Config.failing (c : Config σ) (fault : Write → Option Err) : Config σ := { c with fault }

/-! ## Runs -/

/-- What happens to an engine: it takes an input while writes fail as `fault` says, or it crashes
    and is started again with what is left. -/
inductive Turn (σ : Type) where
  | input (fault : Write → Option Err) (order : MapOrder) (i : Input)
  | crash (disk : Disk) (pool : σ) (history : List Entry)

/-- Which inputs the runs of a node take, and with what it is started again after a crash. -/
structure Regime (σ : Type) where
  takes : Config σ → MapOrder → Engine σ → Input → Prop
  finds : Config σ → Engine σ → Disk → σ → List Entry → Prop

inductive Regime.Turns (g : Regime σ) (c : Config σ) (e : Engine σ) : Turn σ → Engine σ → Prop
  | input {fault : Write → Option Err} {order : MapOrder} {i : Input} {e' : Engine σ} :
      g.takes (c.failing fault) order e i → step (c.failing fault) order e i = some e' →
      g.Turns c e (.input fault order i) e'
  | crash {disk : Disk} {pool : σ} {history : List Entry} : g.finds c e disk pool history →
      g.Turns c e (.crash disk pool history) (start c disk pool history)

def Regime.Step (g : Regime σ) (c : Config σ) (e e' : Engine σ) : Prop := ∃ t, g.Turns c e t e'

/-- A step that meets `P`; any of its writes may fail. -/
def GuardedStep (P : Config σ → MapOrder → Engine σ → Input → Prop) : Config σ → Engine σ → Engine σ → Prop :=
  Regime.Step ⟨P, fun _ _ _ _ _ => False⟩

/-- A step on any input, with any of its writes failing. -/
def Engine.Step : Config σ → Engine σ → Engine σ → Prop := GuardedStep fun _ _ _ _ => True

section

variable {g : Regime σ} {c : Config σ} {e e' : Engine σ} {P : Config σ → MapOrder → Engine σ → Input → Prop}

theorem Regime.Step.input (fault : Write → Option Err) {order : MapOrder} {i : Input}
    (hg : g.takes (c.failing fault) order e i) (hs : step (c.failing fault) order e i = some e') : g.Step c e e' :=
  ⟨_, .input hg hs⟩

theorem Regime.Step.crash (disk : Disk) (pool : σ) (history : List Entry) (hg : g.finds c e disk pool history) :
    g.Step c e (start c disk pool history) := ⟨_, .crash hg⟩

theorem guardedStep_iff : GuardedStep P c e e' ↔
    ∃ fault order i, P (c.failing fault) order e i ∧ step (c.failing fault) order e i = some e' := by
  constructor
  · rintro ⟨t, ht⟩
    cases ht with
    | input hp hs => exact ⟨_, _, _, hp, hs⟩
    | crash hno => exact hno.elim
  · rintro ⟨fault, order, i, hp, hs⟩
    exact .input fault hp hs

end

/-- The engine works on the height after the committed one. -/
def Follows (e : Engine σ) : Prop := e.rs.height = e.disk.db.height + 1

variable {c : Config σ} {order : MapOrder} {e e' : Engine σ} {i : Input}

theorem handle_follows (h : Follows e) : Follows (handle c order e i) := by
  unfold Follows at *
  cases hp : pending c order e i with
  | committed x e₁ =>
    have hcom := (handle_commits (.free c order e i) hp).1
    obtain ⟨p, bytes, r, -, -, happ⟩ := hcom.applied
    obtain ⟨run, -⟩ := applyBlockForChain_ok happ
    have hheight : e₁.disk.db.height = (e.popped i).rs.height := run.height
    rw [hcom.height, hcom.db, hheight]
  | stay | restart | crash =>
    have hruns := handle_runs (.free c order e i) fun x e₁ h => by rw [hp] at h; cases h
    rw [hruns.height, hruns.db, popped_rs, popped_disk]
    exact h

theorem Engine.Step.follows (hs : Engine.Step c e e') (h : Follows e) : Follows e' := by
  obtain ⟨fault, order, i, -, hs⟩ := guardedStep_iff.mp hs
  obtain ⟨-, rfl⟩ := step_eq_some hs
  exact handle_follows h

theorem start_follows (disk : Disk) (pool : σ) (history : List Entry) : Follows (start c disk pool history) := by
  obtain ⟨hrs, -, hdisk, -, -⟩ := start_started c disk pool history
  unfold Follows
  rw [hrs, hdisk]
  exact restored_height c disk

/-! ## Rounds -/

/-- A step within one height, which has not used up its rounds. -/
structure Within (c : Config σ) (e e' : Engine σ) : Prop where
  step : Engine.Step c e e'
  height : e'.rs.height = e.rs.height
  rounds : e.rs.round.toNat + 1 < 2 ^ 32

theorem toNat_succ {r : UInt32} (h : r.toNat + 1 < 2 ^ 32) : (r + 1).toNat = r.toNat + 1 := by
  rw [UInt32.toNat_add]
  have : (1 : UInt32).toNat = 1 := rfl
  omega

/-- The rules under which the rounds do not run out. -/
def roundRules : Rules := { Rules.free with advance := fun r => r.toNat + 1 < 2 ^ 32 }

theorem Move.round {s s' : Core} (hm : Move c roundRules s s') : s.rs.round.toNat ≤ s'.rs.round.toNat := by
  cases hm with
  | prevote | precommit | polka | decide | refuse | persist => exact le_rfl
  | lock | abstain | enter =>
    rw [Core.cast_rs]
    exact le_rfl
  | next ha =>
    show _ ≤ (s.rs.round + 1).toNat
    rw [toNat_succ ha]
    omega
  | restart hr ha =>
    show _ ≤ (s.rs.round + 1).toNat
    rw [toNat_succ ha]
    omega

theorem Moves.round {s s' : Core} (hm : Moves c roundRules s s') : s.rs.round.toNat ≤ s'.rs.round.toNat := by
  induction hm with
  | refl => exact le_rfl
  | tail _ hm ih => exact ih.trans hm.round

theorem Within.round (h : Within c e e') : e.rs.round.toNat ≤ e'.rs.round.toNat := by
  obtain ⟨hstep, hh, hr⟩ := h
  obtain ⟨fault, order, i, -, hs⟩ := guardedStep_iff.mp hstep
  obtain ⟨-, rfl⟩ := step_eq_some hs
  set d := c.failing fault
  have hperm : Permits d roundRules order e i := by
    refine ⟨trivial, fun _ _ _ => trivial, fun _ _ => Or.inr trivial, fun e₁ he₁ => ⟨trivial, ?_⟩, fun _ => hr,
      fun _ _ => trivial, .free (fun _ _ => trivial) (fun _ => trivial) _ _ _⟩
    show e₁.rs.round.toNat + 1 < _
    rw [(pending_restart (h := 0) he₁).1.round]
    exact hr
  have hno : ∀ x e₁, pending d order e i ≠ .committed x e₁ := by
    intro x e₁ hp
    have hcom := (handle_commits (.free d order e i) hp).1.height
    rw [popped_rs, hh] at hcom
    exact height_ne_succ _ hcom
  have hmoves := (handle_runs hperm hno).moves
  rw [popped_core] at hmoves
  exact hmoves.round

/-- In every run the engine is one height ahead of the chain, and its rounds only grow
    within a height. -/
theorem height_follows {disk : Disk} {pool : σ} {history : List Entry}
    (hrun : ReflTransGen (Engine.Step c) (start c disk pool history) e) :
    e.rs.height = e.disk.db.height + 1 ∧
      ∀ e', ReflTransGen (Within c) e e' → e.rs.round.toNat ≤ e'.rs.round.toNat := by
  constructor
  · have hfollows : Follows e := run_keeps (fun h hs => hs.follows h) hrun (start_follows disk pool history)
    exact hfollows
  · intro e' h
    induction h with
    | refl => exact le_rfl
    | tail _ hw ih => exact ih.trans hw.round

/-- A node on an empty chain whose three timers fire in turn. -/
def timedOut : Option (Engine Mempool) :=
  let c := Config.node World.sample defaultChainID 1
  [.proposeTimeout, .resume, .resume, .prevoteTimeout, .resume, .resume, .precommitTimeout].foldlM (step c .id)
    (start c ⟨DB.new, [], none⟩ (.new defaultCap) [])

theorem height_follows_timedOut : ∃ e, timedOut = some e ∧ e.rs.round = 1 ∧ e.rs.height = e.disk.db.height + 1 ∧
    ∀ e', ReflTransGen (Within (.node World.sample defaultChainID 1)) e e' → e.rs.round.toNat ≤ e'.rs.round.toNat := by
  have hrun : timedOut.map (·.rs.round) = some 1 := by decide +kernel
  obtain ⟨e, he, hround⟩ := Option.map_eq_some_iff.mp hrun
  refine ⟨e, he, hround, height_follows (foldlM_reaches (fun a i b hs => ?_) he)⟩
  exact guardedStep_iff.mpr ⟨fun _ => none, .id, i, trivial, hs⟩

end Frg.Consensus
