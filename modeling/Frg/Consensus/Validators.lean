/-
  Frg.Consensus.Validators — which validators the engine votes with.

  `Start` reads the bonded validators once and passes its copy to every handler. After a
  commit `handleVote` refreshes its own argument, not the copy of the loop.

    - `validators_current`: in every run from `Start` whose blocks leave the bonded
      validators and amounts as they were, every vote and proposal is checked and tallied
      with the bonded validators after the last block, and the engine is one height above
      the chain.
    - `validators_stale`: a block with a bond is committed, and a vote of the new validator
      for the next height is not counted.
-/

import Frg.Consensus.Heights

namespace Frg.Consensus

open Frg.Lib Frg.Core Frg.Wire Frg.Chain Relation

variable {σ : Type} {c : Config σ} {order : MapOrder} {e e' : Engine σ} {i : Input}

/-- The validators an input is checked and tallied with, or the proposer elected from. -/
def consulted (e : Engine σ) : Input → Option Stakes
  | .vote _ | .proposal _ | .precommitTimeout | .proposeReady => some e.validators
  | .resume =>
    match e.stack with
    | .vote _ vals :: _ => some vals
    | .recommit :: _ => some e.validators
    | _ => none
  | _ => none

/-- The engine works on the height after the last block, with the validators bonded after it. -/
structure Current (e : Engine σ) : Prop where
  validators : ∀ i vals, accepts e i = true → consulted e i = some vals → vals = bondedAmounts e.disk.db
  height : e.rs.height = e.disk.db.height + 1

/-- A block the step commits from `handleVote` leaves the bonded validators as they were. -/
def KeepsBonds (c : Config σ) (order : MapOrder) (e : Engine σ) (i : Input) : Prop :=
  match pending c order e i with
  | .committed _ e₁ => e.stack.head? = some .recommit ∨ bondedAmounts e₁.disk.db = bondedAmounts e.disk.db
  | _ => True

instance : Decidable (KeepsBonds c order e i) := by
  unfold KeepsBonds
  split <;> infer_instance

/-- One step of a run whose blocks keep the bonded validators. -/
def KeepingStep : Config σ → Engine σ → Engine σ → Prop := GuardedStep KeepsBonds

/-- Every copy of the validators is the one in the store. -/
structure Fresh (e : Engine σ) : Prop where
  validators : e.validators = bondedAmounts e.disk.db
  frames : ∀ v w, Frame.vote v w ∈ e.stack → w = bondedAmounts e.disk.db
  alone : Frame.recommit ∈ e.stack → e.stack = [.recommit]
  height : e.rs.height = e.disk.db.height + 1

theorem Fresh.current (h : Fresh e) : Current e := by
  refine ⟨fun i vals _ hi => ?_, h.height⟩
  cases i with
  | vote | proposal | precommitTimeout | proposeReady => exact (Option.some.inj hi).symm.trans h.validators
  | proposeTimeout | prevoteTimeout | delayElapsed | enqueue => cases hi
  | resume =>
    simp only [consulted] at hi
    split at hi
    · rename_i v w s hst
      have hw := h.frames v w (by rw [hst]; exact List.mem_cons_self)
      exact (Option.some.inj hi).symm.trans hw
    · exact (Option.some.inj hi).symm.trans h.validators
    · cases hi

theorem start_fresh (c : Config σ) (disk : Disk) (pool : σ) (history : List Entry) :
    Fresh (start c disk pool history) := by
  obtain ⟨hrs, hval, hdisk, -, hst⟩ := start_started c disk pool history
  refine ⟨by rw [hval, hdisk], fun v w hm => ?_, fun hm => ?_, by rw [hrs, hdisk, restored_height]⟩
  · rcases hst with hst | hst
    · rw [hst] at hm
      cases hm
    · rw [hst] at hm
      cases List.mem_singleton.mp hm
  · rcases hst with hst | hst
    · rw [hst] at hm
      cases hm
    · exact hst

/-- The timer of a delayed proposal and the mempool run beside the goroutine of `Start`. -/
def Input.beside : Input → Bool
  | .delayElapsed | .enqueue _ => true
  | _ => false

theorem handle_beside (hb : i.beside = true) : (handle c order e i).validators = e.validators ∧
    (handle c order e i).disk = e.disk ∧ (handle c order e i).stack = e.stack := by
  cases i with
  | delayElapsed | enqueue => exact ⟨rfl, rfl, rfl⟩
  | _ => cases hb

/-- Every other step is made from an empty stack or runs the frame on top, so it leaves no
    `recommit` below. -/
theorem Fresh.below (h : Fresh e) (ha : accepts e i = true) (hb : i.beside = false) :
    (∀ v w, Frame.vote v w ∈ (e.popped i).stack → w = bondedAmounts e.disk.db) ∧
      Frame.recommit ∉ (e.popped i).stack := by
  cases i with
  | delayElapsed | enqueue => cases hb
  | resume =>
    refine ⟨fun v w hm => h.frames v w (List.mem_of_mem_tail hm), fun hm => ?_⟩
    have hone := h.alone (List.mem_of_mem_tail hm)
    simp [Engine.popped, hone] at hm
  | _ =>
    have hst : e.stack = [] := by
      simp only [accepts, Bool.and_eq_true, decide_eq_true_eq] at ha
      exact ha.2
    refine ⟨h.frames, fun hm => ?_⟩
    simp [Engine.popped, hst] at hm

theorem Fresh.resumes (h : Fresh e) (ha : accepts e i = true) (hb : i.beside = false)
    (ht : e.stack.head? = some .recommit) : i = .resume ∧ (e.popped i).stack = [] := by
  have hone : e.stack = [.recommit] := h.alone (List.mem_of_mem_head? ht)
  cases i with
  | delayElapsed | enqueue => cases hb
  | resume => exact ⟨rfl, by simp [Engine.popped, hone]⟩
  | _ => simp [accepts, hone] at ha

theorem Fresh.push {vals : Stakes} {db : DB} {history : List Entry} {fs s : List Frame}
    (hvals : vals = bondedAmounts db)
    (hp : ∀ f ∈ fs, Pushed c vals db history f) (hs : ∀ v w, Frame.vote v w ∈ s → w = bondedAmounts db)
    (hr : Frame.recommit ∉ s) :
    (∀ v w, Frame.vote v w ∈ fs ++ s → w = bondedAmounts db) ∧ Frame.recommit ∉ fs ++ s := by
  constructor
  · intro v w hm
    rcases List.mem_append.mp hm with hm | hm
    · rcases hp _ hm with hp | ⟨t, ht, r, x, l, w', heq, -, hw⟩
      · cases hp
      · cases heq
        rcases hw with rfl | rfl
        · exact hvals
        · rfl
    · exact hs v w hm
  · intro hm
    rcases List.mem_append.mp hm with hm | hm
    · rcases hp _ hm with hp | ⟨t, ht, r, x, l, w', heq, -, -⟩
      · cases hp
      · cases heq
    · exact hr hm

theorem Fresh.valsFor (h : Fresh e) : valsFor e i = bondedAmounts e.disk.db := by
  unfold Consensus.valsFor
  cases i with
  | vote raw =>
    simp only [incoming]
    cases deserializeVote raw <;> exact h.validators
  | resume =>
    simp only [incoming]
    cases hst : e.stack with
    | nil => exact h.validators
    | cons f s =>
      cases f with
      | vote v w => exact h.frames v w (by rw [hst]; exact List.mem_cons_self)
      | persist | recommit => exact h.validators
  | _ => exact h.validators

theorem Fresh.step (h : Fresh e) (hk : KeepsBonds c order e i) (hs : step c order e i = some e') : Fresh e' := by
  obtain ⟨ha, rfl⟩ := step_eq_some hs
  have hfollows : Follows (handle c order e i) := handle_follows h.height
  cases hb : i.beside with
  | true =>
    obtain ⟨h1, h2, h3⟩ : (handle c order e i).validators = e.validators ∧ _ := handle_beside hb
    exact ⟨by rw [h1, h2, h.validators], by rw [h3, h2]; exact h.frames, by rw [h3]; exact h.alone, hfollows⟩
  | false =>
    obtain ⟨hbelow, hnone⟩ := h.below ha hb
    cases hp : pending c order e i with
    | committed x e₁ =>
      obtain ⟨hcom, hval⟩ := handle_commits (.free c order e i) hp
      simp only [KeepsBonds, hp] at hk
      refine ⟨?_, ?_, fun hm => absurd (hcom.stack ▸ hm) hnone, hfollows⟩
      · rw [hval, hcom.db]
        rcases hk with ht | hk
        · rw [if_pos ⟨ht, (h.resumes ha hb ht).1⟩]
        · rw [hk, h.validators, ite_self]
      · rw [hcom.stack, hcom.db]
        rcases hk with ht | hk
        · rw [(h.resumes ha hb ht).2]
          exact fun _ _ hm => absurd hm List.not_mem_nil
        · rw [hk]
          exact hbelow
    | stay | restart | crash =>
      have hruns := handle_runs (.free c order e i) fun x e₁ h => by rw [hp] at h; cases h
      obtain ⟨fs, hfs, hpush⟩ := hruns.stack
      have hdb : (handle c order e i).disk.db = e.disk.db := by rw [hruns.db, popped_disk]
      rw [popped_disk] at hpush
      obtain ⟨h1, h2⟩ := Fresh.push h.valsFor hpush hbelow hnone
      refine ⟨?_, ?_, ?_, hfollows⟩
      · rw [hruns.validators, popped_validators, hdb, h.validators]
      · rw [hfs, hdb]
        exact h1
      · rw [hfs]
        exact fun hm => absurd hm h2

/-- The engine votes with the validators bonded after the last block, in every run whose
    blocks leave them as they were. -/
theorem validators_current {disk : Disk} {pool : σ} {history : List Entry}
    (hrun : ReflTransGen (KeepingStep c) (start c disk pool history) e) : Current e := by
  suffices h : Fresh e from h.current
  refine run_keeps (fun {x y} h hs => ?_) hrun (start_fresh c disk pool history)
  obtain ⟨fault, order, i, hk, hs⟩ := guardedStep_iff.mp hs
  exact h.step hk hs

/-! ## A validator that bonds -/

/-- Validator 1 alone, and account 2 with the money for a bond. -/
def soloDB : DB := { DB.new with
  balances := Bucket.empty.put 2 2000000000000000000000
  validators := Bucket.empty.put 1 (.fresh (1000 * 10 ^ 18) 0)
  totalSupply := some (3000 * 10 ^ 18) }

def solo : Engine Mempool :=
  start (.node World.sample defaultChainID 1) ⟨soloDB, [], none⟩ (.new defaultCap) []

/-- The engine of validator 1 after some inputs. -/
def soloRun (is : List Input) : Option (Engine Mempool) :=
  is.foldlM (step (.node World.sample defaultChainID 1) .id) solo

/-- The proposal of validator 1, its prevote, its precommit and the commit. -/
def soloBlock : List Input := [.delayElapsed, .proposeReady, .resume, .resume]

def keepingRun (is : List Input) : Option (Engine Mempool) :=
  let c := Config.node World.sample defaultChainID 1
  is.foldlM (fun e i => if KeepsBonds c .id e i then step c .id e i else none) solo

theorem keepingRun_reaches {is : List Input} {e : Engine Mempool} (h : keepingRun is = some e) :
    ReflTransGen (KeepingStep (.node World.sample defaultChainID 1)) solo e := by
  refine foldlM_reaches (fun a i b hf => ?_) h
  split at hf
  · exact guardedStep_iff.mpr ⟨fun _ => none, .id, i, ‹_›, hf⟩
  · cases hf

/-- An empty block is committed. -/
theorem validators_current_solo :
    ∃ e, keepingRun soloBlock = some e ∧ e.rs.height = 2 ∧ Current e := by
  have hrun : (keepingRun soloBlock).map (·.rs.height) = some 2 := by decide +kernel
  obtain ⟨e, he, hheight⟩ := Option.map_eq_some_iff.mp hrun
  exact ⟨e, he, hheight, validators_current (keepingRun_reaches he)⟩

def bonding : Tx := (Tx.plain .bond 2 2 (1000 * 10 ^ 18) 1).signed Prim.sample defaultChainID

/-- Validator 2's prevote in the first round of height 2. -/
def newcomer : Vote := signVote (.node World.sample defaultChainID 2) .prevote 2 0 0

/-- The bond of account 2 is committed at height 1. At height 2 the engine still has
    validator 1 alone, and does not count the vote of validator 2. -/
theorem validators_stale :
    (soloRun (.enqueue bonding :: soloBlock)).map (fun e =>
      (e.rs.height, consulted e (.vote (serializeVote newcomer)), bondedAmounts e.disk.db)) =
        some (2, some [(1, 1000 * 10 ^ 18)], [(1, 1000 * 10 ^ 18), (2, 1000 * 10 ^ 18)]) ∧
    (soloRun (.enqueue bonding :: soloBlock ++ [.vote (serializeVote newcomer)])).map
      (fun e => e.rs.prevotes.get 2) = some none := by
  decide +kernel

end Frg.Consensus
