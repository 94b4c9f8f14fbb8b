/-
  Frg.Lib.WorkerPool — a list of items split into chunks, a worker for each chunk, a buffered
  channel for the errors and a wait group.

  The caller starts one worker after the other and then waits; the workers run from the moment
  they are started. A worker writes to the shared memory for each of its items, and stops at
  the first item that fails, after sending the error. A send waits for room in the buffer.
  What is proved, for every schedule:

    - `Pool.send_has_room`: a worker that is about to send finds room, so no send blocks.
    - `Pool.terminates`: every run is finite, and one that is not over has a next step
      (`Pool.exists_waited`: some run gets to its end).
    - `Pool.sent_nil_iff`, `Pool.sent_mem`: behind the wait the buffer is empty exactly when no
      item fails, and it holds errors of items only.
    - `Pool.each_once`: when no item fails, each one has been worked on exactly once;
      `foldl_update`: what such workers leave in cells of their own.
-/

import Frg.Lib.Run
import Mathlib.Algebra.GroupWithZero.Nat
import Mathlib.Data.List.Nodup
import Mathlib.Data.List.Perm.Basic
import Mathlib.Logic.Function.Basic
import Mathlib.Order.WellFounded

namespace Frg.Lib

open Relation

/-- What the caller hands to the workers. The channel has room for `capacity` errors. -/
structure Pool (α ε σ : Type) where
  items : List α
  fails : α → Option ε
  write : α → σ → σ
  memory : σ
  chunk : Nat
  capacity : Nat
  chunk_pos : 0 < chunk
  covers : items.length ≤ capacity * chunk

namespace Pool

variable {α ε σ : Type}

/-- The items in chunks of `(len + workers - 1) / workers`, with room for an error of each worker. -/
def among (workers : Nat) (items : List α) (fails : α → Option ε) (write : α → σ → σ) (memory : σ)
    (hworkers : 0 < workers) (hitems : 0 < items.length) : Pool α ε σ where
  items := items
  fails := fails
  write := write
  memory := memory
  chunk := (items.length + workers - 1) / workers
  capacity := workers
  chunk_pos := Nat.div_pos (by omega) hworkers
  covers := by
    have := Nat.div_add_mod (items.length + workers - 1) workers
    have := Nat.mod_lt (items.length + workers - 1) hworkers
    omega

/-- A worker is at the head of its loop, at its send, past its `return`, or gone: its deferred
    `Done` has run. -/
inductive Worker (α ε : Type) where
  | working (rest : List α)
  | sending (e : ε)
  | leaving
  | gone

inductive Main where
  | spawning (start : Nat)
  | waiting
  | waited

/-- `running` is the counter of the wait group, `sent` the buffer of the channel; `log` lists
    the items worked on so far. -/
structure State (α ε σ : Type) where
  main : Main
  workers : List (Worker α ε)
  running : Nat
  sent : List ε
  memory : σ
  log : List α

/-- `items[start:stop]`, where `stop` is `start + chunk` or the end of the items. -/
def slice (p : Pool α ε σ) (start : Nat) : List α :=
  (p.items.drop start).take (min (start + p.chunk) p.items.length - start)

inductive Step (p : Pool α ε σ) : State α ε σ → State α ε σ → Prop
  | spawn {start ws n buf m log} (h : start < p.items.length) :
      Step p ⟨.spawning start, ws, n, buf, m, log⟩
        ⟨.spawning (start + p.chunk), ws ++ [.working (p.slice start)], n + 1, buf, m, log⟩
  | spawned {start ws n buf m log} (h : p.items.length ≤ start) :
      Step p ⟨.spawning start, ws, n, buf, m, log⟩ ⟨.waiting, ws, n, buf, m, log⟩
  | pass {main l r t rest n buf m log} (h : p.fails t = none) :
      Step p ⟨main, l ++ .working (t :: rest) :: r, n, buf, m, log⟩
        ⟨main, l ++ .working rest :: r, n, buf, p.write t m, log ++ [t]⟩
  | fail {main l r t rest n buf m log e} (h : p.fails t = some e) :
      Step p ⟨main, l ++ .working (t :: rest) :: r, n, buf, m, log⟩
        ⟨main, l ++ .sending e :: r, n, buf, p.write t m, log ++ [t]⟩
  | send {main l r e n buf m log} (h : buf.length < p.capacity) :
      Step p ⟨main, l ++ .sending e :: r, n, buf, m, log⟩ ⟨main, l ++ .leaving :: r, n, buf ++ [e], m, log⟩
  | finish {main l r n buf m log} :
      Step p ⟨main, l ++ .working [] :: r, n, buf, m, log⟩ ⟨main, l ++ .leaving :: r, n, buf, m, log⟩
  | done {main l r n buf m log} :
      Step p ⟨main, l ++ .leaving :: r, n, buf, m, log⟩ ⟨main, l ++ .gone :: r, n - 1, buf, m, log⟩
  | wait {ws buf m log} : Step p ⟨.waiting, ws, 0, buf, m, log⟩ ⟨.waited, ws, 0, buf, m, log⟩

def start (p : Pool α ε σ) : State α ε σ := ⟨.spawning 0, [], 0, [], p.memory, []⟩

def Reach (p : Pool α ε σ) (s : State α ε σ) : Prop := ReflTransGen p.Step p.start s

/-! ## What is left to do -/

def Worker.left : Worker α ε → List α
  | .working rest => rest
  | _ => []

/-- The error a worker holds and has not sent. -/
def Worker.held : Worker α ε → List ε
  | .sending e => [e]
  | _ => []

def Worker.live : Worker α ε → Nat
  | .gone => 0
  | _ => 1

/-- One for a worker that may still send. -/
def Worker.sender : Worker α ε → Nat
  | .working _ | .sending _ => 1
  | _ => 0

def Worker.weight : Worker α ε → Nat
  | .working rest => rest.length + 2
  | .sending _ => 2
  | .leaving => 1
  | .gone => 0

@[simp] theorem left_working (rest : List α) : (.working rest : Worker α ε).left = rest := rfl
@[simp] theorem left_sending (e : ε) : (.sending e : Worker α ε).left = [] := rfl
@[simp] theorem left_leaving : (.leaving : Worker α ε).left = [] := rfl
@[simp] theorem left_gone : (.gone : Worker α ε).left = [] := rfl
@[simp] theorem held_working (rest : List α) : (.working rest : Worker α ε).held = [] := rfl
@[simp] theorem held_sending (e : ε) : (.sending e : Worker α ε).held = [e] := rfl
@[simp] theorem held_leaving : (.leaving : Worker α ε).held = [] := rfl
@[simp] theorem held_gone : (.gone : Worker α ε).held = [] := rfl

/-- The items no worker has been started for. -/
def unspawned (p : Pool α ε σ) : Main → List α
  | .spawning start => p.items.drop start
  | _ => []

/-- The items that are still to be worked on, if nothing fails. -/
def State.left (p : Pool α ε σ) (s : State α ε σ) : List α := s.workers.flatMap Worker.left ++ p.unspawned s.main

def State.held (s : State α ε σ) : List ε := s.workers.flatMap Worker.held

theorem slice_append (p : Pool α ε σ) (start : Nat) :
    p.slice start ++ p.items.drop (start + p.chunk) = p.items.drop start := by
  have hslice : p.slice start = (p.items.drop start).take p.chunk := by
    unfold slice
    rw [List.take_eq_take_iff, List.length_drop]
    omega
  rw [hslice, ← List.drop_drop, List.take_append_drop]

/-! ## Every run is finite -/

def Main.weight (p : Pool α ε σ) : Main → Nat
  | .spawning start => 4 * (p.items.length - start) + 2
  | .waiting => 1
  | .waited => 0

def weight (p : Pool α ε σ) (s : State α ε σ) : Nat := s.main.weight p + (s.workers.map Worker.weight).sum

variable {p : Pool α ε σ} {s t : State α ε σ}

theorem length_slice (start : Nat) : (p.slice start).length = min (start + p.chunk) p.items.length - start := by
  unfold slice
  rw [List.length_take, List.length_drop]
  omega

theorem weight_lt (h : p.Step s t) : p.weight t < p.weight s := by
  have hc := p.chunk_pos
  cases h with
  | @spawn start ws n buf m log h =>
    have hlen := p.length_slice start
    simp only [weight, Main.weight, List.map_append, List.sum_append, List.map_cons, List.map_nil, List.sum_cons,
      List.sum_nil, Worker.weight]
    omega
  | spawned h => simp only [weight, Main.weight]; omega
  | wait => simp only [weight, Main.weight]; omega
  | pass | fail | send | finish | done =>
    simp only [weight, List.map_append, List.sum_append, List.map_cons, List.sum_cons, Worker.weight, List.length_cons]
    omega

theorem steps_wellFounded (p : Pool α ε σ) : WellFounded fun t s => p.Step s t :=
  Subrelation.wf weight_lt (InvImage.wf p.weight Nat.lt_wfRel.wf)

/-! ## Room in the channel -/

/-- The wait group counts the workers that are not gone; each error in the buffer was sent by a
    worker that sends no more; and the chunks started so far begin inside the items. -/
structure Counted (p : Pool α ε σ) (s : State α ε σ) : Prop where
  running : s.running = (s.workers.map Worker.live).sum
  senders : s.sent.length + (s.workers.map Worker.sender).sum ≤ s.workers.length
  begun : s.workers.length * p.chunk < p.items.length + p.chunk
  next : ∀ start, s.main = .spawning start → start = s.workers.length * p.chunk
  waited : s.main = .waited → s.running = 0

theorem counted_start : p.Counted p.start where
  running := rfl
  senders := le_rfl
  begun := by
    have := p.chunk_pos
    simp only [start, List.length_nil]
    omega
  next := by
    intro n h
    cases h
    simp [start]
  waited := by
    intro h
    cases h

/-- A worker that moves keeps the counts, as long as it sends no more than it was counted for. -/
theorem Counted.moves {main : Main} {l r : List (Worker α ε)} {w w' : Worker α ε} {n n' : Nat} {buf buf' : List ε}
    {m m' : σ} {log log' : List α} (h : p.Counted ⟨main, l ++ w :: r, n, buf, m, log⟩) (hw : w.live = 1)
    (hn : n' + 1 = n + w'.live) (hbuf : buf'.length + w'.sender ≤ buf.length + w.sender) :
    p.Counted ⟨main, l ++ w' :: r, n', buf', m', log'⟩ := by
  obtain ⟨h₁, h₂, h₃, h₄, h₅⟩ := h
  simp only [List.map_append, List.sum_append, List.map_cons, List.sum_cons, List.length_append, List.length_cons, hw]
    at h₁ h₂ h₃ h₄
  constructor
  · simp only [List.map_append, List.sum_append, List.map_cons, List.sum_cons]
    omega
  · simp only [List.map_append, List.sum_append, List.map_cons, List.sum_cons, List.length_append, List.length_cons]
    omega
  · simpa only [List.length_append, List.length_cons] using h₃
  · simpa only [List.length_append, List.length_cons] using h₄
  · -- the worker was counted, so the caller is not past its wait
    intro hmain
    have hzero : n = 0 := h₅ hmain
    omega

theorem Counted.step (h : p.Counted s) (hs : p.Step s t) : p.Counted t := by
  cases hs with
  | @spawn start ws n buf m log hlt =>
    obtain ⟨h₁, h₂, h₃, h₄, -⟩ := h
    have hstart : start = ws.length * p.chunk := h₄ start rfl
    dsimp only at h₁ h₂
    constructor
    · simp [Worker.live, h₁]
    · simp [Worker.sender]
      omega
    · simp only [List.length_append, List.length_singleton, Nat.add_mul, Nat.one_mul, ← hstart]
      omega
    · intro n' hn
      cases hn
      simp only [List.length_append, List.length_singleton, Nat.add_mul, Nat.one_mul, ← hstart]
    · intro hw
      cases hw
  | spawned hle =>
    refine ⟨h.running, h.senders, h.begun, ?_, ?_⟩
    · intro n hm
      cases hm
    · intro hm
      cases hm
  | wait =>
    refine ⟨h.running, h.senders, h.begun, ?_, fun _ => rfl⟩
    intro n hm
    cases hm
  | pass | fail => exact h.moves rfl rfl le_rfl
  | finish => exact h.moves rfl rfl (Nat.add_le_add_left (Nat.zero_le 1) _)
  | send =>
    refine h.moves rfl rfl ?_
    simp [Worker.sender]
  | @done main l r n buf m log =>
    have hpos : 0 < n := by
      have := h.running
      simp only [List.map_append, List.sum_append, List.map_cons, List.sum_cons, Worker.live] at this
      omega
    exact h.moves rfl (Nat.sub_add_cancel hpos) le_rfl

theorem Reach.counted (h : p.Reach s) : p.Counted s := run_keeps Counted.step h counted_start

theorem Counted.workers_le (h : p.Counted s) : s.workers.length ≤ p.capacity := by
  have hlt : s.workers.length * p.chunk < (p.capacity + 1) * p.chunk := by
    have := h.begun
    have := p.covers
    rw [Nat.add_mul, Nat.one_mul]
    omega
  exact Nat.lt_succ_iff.mp (Nat.lt_of_mul_lt_mul_right hlt)

theorem sum_map_pos {f : Worker α ε → Nat} {ws : List (Worker α ε)} {w : Worker α ε} (hw : w ∈ ws) (hf : 0 < f w) :
    0 < (ws.map f).sum :=
  List.sum_pos_iff_exists_pos_nat.mpr ⟨f w, List.mem_map_of_mem hw, hf⟩

theorem send_has_room (h : p.Reach s) {e : ε} (hw : .sending e ∈ s.workers) : s.sent.length < p.capacity := by
  have hsender : 0 < (s.workers.map Worker.sender).sum := sum_map_pos hw Nat.one_pos
  have := h.counted.senders
  have := h.counted.workers_le
  omega

theorem all_gone (h : p.Reach s) (hm : s.main = .waited) : ∀ w ∈ s.workers, w = .gone := by
  have hzero : (s.workers.map Worker.live).sum = 0 := h.counted.running ▸ h.counted.waited hm
  intro w hw
  cases w with
  | gone => rfl
  | working rest | sending e | leaving =>
    have hlive : 0 < (s.workers.map Worker.live).sum := sum_map_pos hw Nat.one_pos
    omega

/-! ## No deadlock -/

theorem worker_moves (h : p.Reach s) {w : Worker α ε} (hw : w ∈ s.workers) (hg : w ≠ .gone) : ∃ t, p.Step s t := by
  have hroom : ∀ e, w = .sending e → s.sent.length < p.capacity := fun e he => send_has_room h (he ▸ hw)
  obtain ⟨main, ws, n, buf, m, log⟩ := s
  obtain ⟨l, r, rfl⟩ : ∃ l r, ws = l ++ w :: r := List.append_of_mem hw
  cases w with
  | working rest =>
    cases rest with
    | nil => exact ⟨_, .finish⟩
    | cons t rest =>
      cases hf : p.fails t with
      | none => exact ⟨_, .pass hf⟩
      | some e => exact ⟨_, .fail hf⟩
  | sending e => exact ⟨_, .send (hroom e rfl)⟩
  | leaving => exact ⟨_, .done⟩
  | gone => exact absurd rfl hg

theorem progress (h : p.Reach s) : s.main = .waited ∨ ∃ t, p.Step s t := by
  by_cases hall : ∀ w ∈ s.workers, w = .gone
  · have hzero : s.running = 0 := by
      rw [h.counted.running, List.sum_eq_zero_iff_forall_eq_nat]
      intro n hn
      obtain ⟨w, hw, rfl⟩ := List.mem_map.mp hn
      rw [hall w hw]
      rfl
    obtain ⟨main, ws, n, buf, m, log⟩ := s
    cases main with
    | spawning start =>
      by_cases hlt : start < p.items.length
      · exact .inr ⟨_, .spawn hlt⟩
      · exact .inr ⟨_, .spawned (not_lt.mp hlt)⟩
    | waiting =>
      obtain rfl : n = 0 := hzero
      exact .inr ⟨_, .wait⟩
    | waited => exact .inl rfl
  · push Not at hall
    obtain ⟨w, hw, hg⟩ := hall
    exact .inr (worker_moves h hw hg)

/-- Every run is finite, only the caller that has returned from its wait has no next step, and
    no send waits for room. -/
structure Terminates (p : Pool α ε σ) : Prop where
  finite : WellFounded fun t s => p.Step s t
  goesOn : ∀ s, p.Reach s → s.main = .waited ∨ ∃ t, p.Step s t
  room : ∀ s e, p.Reach s → .sending e ∈ s.workers → s.sent.length < p.capacity

theorem terminates (p : Pool α ε σ) : p.Terminates :=
  ⟨p.steps_wellFounded, fun _ => progress, fun _ _ h => send_has_room h⟩

theorem exists_waited (p : Pool α ε σ) : ∃ s, p.Reach s ∧ s.main = .waited := by
  have hfrom : ∀ s, p.Reach s → ∃ t, p.Reach t ∧ t.main = .waited := by
    intro s
    induction s using p.steps_wellFounded.induction with
    | _ s ih =>
      intro hs
      rcases progress hs with hm | ⟨t, ht⟩
      · exact ⟨s, hs, hm⟩
      · exact ih t ht (hs.tail ht)
  exact hfrom p.start .refl

/-! ## What the workers have done -/

/-- Errors are errors of items, the memory is what the log wrote, and while nothing has failed
    the log and what is left make up the items. -/
structure Sound (p : Pool α ε σ) (s : State α ε σ) : Prop where
  left : ∀ t ∈ s.left p, t ∈ p.items
  errors : ∀ e ∈ s.sent ++ s.held, ∃ t ∈ p.items, p.fails t = some e
  memory : s.memory = s.log.foldl (fun m t => p.write t m) p.memory
  clean : s.sent ++ s.held = [] → (s.log ++ s.left p).Perm p.items ∧ ∀ t ∈ s.log, p.fails t = none

theorem sound_start : p.Sound p.start where
  left := fun _ ht => ht
  errors := by simp [start, State.held]
  memory := rfl
  clean := by simp [start, State.left, unspawned]

theorem left_split (main : Main) (l r : List (Worker α ε)) (w : Worker α ε) (n : Nat) (buf : List ε) (m : σ)
    (log : List α) : State.left p ⟨main, l ++ w :: r, n, buf, m, log⟩ =
      l.flatMap Worker.left ++ (w.left ++ (r.flatMap Worker.left ++ p.unspawned main)) := by
  simp only [State.left, List.flatMap_append, List.flatMap_cons, List.append_assoc]

theorem held_split (main : Main) (l r : List (Worker α ε)) (w : Worker α ε) (n : Nat) (buf : List ε) (m : σ)
    (log : List α) : State.held (⟨main, l ++ w :: r, n, buf, m, log⟩ : State α ε σ) =
      l.flatMap Worker.held ++ (w.held ++ r.flatMap Worker.held) := by
  simp only [State.held, List.flatMap_append, List.flatMap_cons]

section

variable {main : Main} {l r : List (Worker α ε)} {n n' : Nat} {buf : List ε} {m : σ} {log rest : List α}

theorem Sound.spawn {start : Nat} {ws : List (Worker α ε)} (h : p.Sound ⟨.spawning start, ws, n, buf, m, log⟩) :
    p.Sound ⟨.spawning (start + p.chunk), ws ++ [.working (p.slice start)], n', buf, m, log⟩ := by
  obtain ⟨h₁, h₂, h₃, h₄⟩ := h
  have hleft : State.left p ⟨.spawning (start + p.chunk), ws ++ [.working (p.slice start)], n', buf, m, log⟩ =
      State.left p ⟨.spawning start, ws, n, buf, m, log⟩ := by
    simp only [State.left, unspawned, List.flatMap_append, List.flatMap_singleton, left_working, List.append_assoc,
      slice_append]
  have hheld : State.held (⟨.spawning (start + p.chunk), ws ++ [.working (p.slice start)], n', buf, m, log⟩ :
      State α ε σ) = State.held (⟨.spawning start, ws, n, buf, m, log⟩ : State α ε σ) := by
    simp only [State.held, List.flatMap_append, List.flatMap_singleton, held_working, List.append_nil]
  refine ⟨?_, ?_, h₃, ?_⟩
  · rw [hleft]
    exact h₁
  · rw [hheld]
    exact h₂
  · rw [hheld, hleft]
    exact h₄

theorem Sound.spawned {start : Nat} {ws : List (Worker α ε)} (h : p.Sound ⟨.spawning start, ws, n, buf, m, log⟩)
    (hle : p.items.length ≤ start) : p.Sound ⟨.waiting, ws, n, buf, m, log⟩ := by
  have hleft : State.left p ⟨.waiting, ws, n, buf, m, log⟩ = State.left p ⟨.spawning start, ws, n, buf, m, log⟩ := by
    simp only [State.left, unspawned, List.drop_eq_nil_of_le hle]
  exact ⟨hleft ▸ h.left, h.errors, h.memory, hleft ▸ h.clean⟩

theorem Sound.takes {t : α} (h : p.Sound ⟨main, l ++ .working (t :: rest) :: r, n, buf, m, log⟩) (w' : Worker α ε)
    (hw : ∀ u ∈ w'.left, u ∈ rest) :
    (∀ u ∈ State.left p ⟨main, l ++ w' :: r, n, buf, p.write t m, log ++ [t]⟩, u ∈ p.items) ∧
      p.write t m = (log ++ [t]).foldl (fun m t => p.write t m) p.memory := by
  obtain ⟨h₁, -, h₃, -⟩ := h
  rw [left_split] at h₁ ⊢
  refine ⟨?_, ?_⟩
  · intro u hu
    have hrest := hw u
    apply h₁ u
    simp only [List.mem_append, left_working, List.mem_cons] at hu ⊢
    tauto
  · dsimp only at h₃
    rw [List.foldl_append, ← h₃]
    rfl

theorem Sound.pass {t : α} (h : p.Sound ⟨main, l ++ .working (t :: rest) :: r, n, buf, m, log⟩)
    (hf : p.fails t = none) : p.Sound ⟨main, l ++ .working rest :: r, n, buf, p.write t m, log ++ [t]⟩ := by
  obtain ⟨hleft, hmemory⟩ := h.takes (.working rest) fun u hu => hu
  obtain ⟨-, h₂, -, h₄⟩ := h
  rw [left_split] at h₄
  rw [held_split] at h₂ h₄
  refine ⟨hleft, ?_, hmemory, ?_⟩
  · rw [held_split]
    exact h₂
  · rw [left_split, held_split]
    intro hnil
    obtain ⟨hperm, hlog⟩ := h₄ hnil
    refine ⟨?_, ?_⟩
    · refine List.Perm.trans ?_ hperm
      simp only [left_working, List.append_assoc, List.cons_append, List.nil_append]
      exact List.Perm.append_left log List.perm_middle.symm
    · intro u hu
      rcases List.mem_append.mp hu with hu | hu
      · exact hlog u hu
      · rw [List.mem_singleton.mp hu, hf]

theorem Sound.fail {t : α} {e : ε} (h : p.Sound ⟨main, l ++ .working (t :: rest) :: r, n, buf, m, log⟩)
    (hf : p.fails t = some e) : p.Sound ⟨main, l ++ .sending e :: r, n, buf, p.write t m, log ++ [t]⟩ := by
  obtain ⟨hleft, hmemory⟩ := h.takes (.sending e) fun u hu => absurd hu List.not_mem_nil
  obtain ⟨h₁, h₂, -, -⟩ := h
  rw [left_split] at h₁
  rw [held_split] at h₂
  refine ⟨hleft, ?_, hmemory, ?_⟩
  · rw [held_split]
    intro e' he
    by_cases hee : e' = e
    · rw [hee]
      exact ⟨t, h₁ t (by simp), hf⟩
    · apply h₂ e'
      simp only [List.mem_append, held_working, held_sending, List.mem_singleton, List.nil_append] at he ⊢
      tauto
  · rw [held_split]
    intro hnil
    simp at hnil

theorem Sound.send {e : ε} (h : p.Sound ⟨main, l ++ .sending e :: r, n, buf, m, log⟩) :
    p.Sound ⟨main, l ++ .leaving :: r, n, buf ++ [e], m, log⟩ := by
  obtain ⟨h₁, h₂, h₃, -⟩ := h
  rw [left_split] at h₁
  rw [held_split] at h₂
  refine ⟨?_, ?_, h₃, ?_⟩
  · rw [left_split]
    exact h₁
  · rw [held_split]
    intro e' he
    apply h₂ e'
    simp only [List.mem_append, held_leaving, held_sending, List.mem_singleton, List.nil_append] at he ⊢
    tauto
  · intro hnil
    simp at hnil

/-- A worker that moves without taking an item or an error keeps the state sound. -/
theorem Sound.moves {w w' : Worker α ε} (h : p.Sound ⟨main, l ++ w :: r, n, buf, m, log⟩) (hleft : w'.left = w.left)
    (hheld : w'.held = w.held) : p.Sound ⟨main, l ++ w' :: r, n', buf, m, log⟩ := by
  obtain ⟨h₁, h₂, h₃, h₄⟩ := h
  rw [left_split] at h₁ h₄
  rw [held_split] at h₂ h₄
  refine ⟨?_, ?_, h₃, ?_⟩
  · rw [left_split, hleft]
    exact h₁
  · rw [held_split, hheld]
    exact h₂
  · rw [left_split, held_split, hleft, hheld]
    exact h₄

end

theorem Sound.step (h : p.Sound s) (hs : p.Step s t) : p.Sound t := by
  cases hs with
  | spawn => exact h.spawn
  | spawned hle => exact h.spawned hle
  | wait => exact ⟨h.left, h.errors, h.memory, h.clean⟩
  | pass hf => exact h.pass hf
  | fail hf => exact h.fail hf
  | send => exact h.send
  | finish | done => exact h.moves rfl rfl

theorem Reach.sound (h : p.Reach s) : p.Sound s := run_keeps Sound.step h sound_start

/-! ## Behind the wait -/

theorem waited_held (h : p.Reach s) (hm : s.main = .waited) : s.held = [] := by
  rw [State.held, List.flatMap_eq_nil_iff]
  intro w hw
  rw [all_gone h hm w hw, held_gone]

theorem waited_left (h : p.Reach s) (hm : s.main = .waited) : s.left p = [] := by
  have hworkers : s.workers.flatMap Worker.left = [] := by
    rw [List.flatMap_eq_nil_iff]
    intro w hw
    rw [all_gone h hm w hw, left_gone]
  rw [State.left, hworkers, hm]
  rfl

theorem sent_mem (h : p.Reach s) {e : ε} (he : e ∈ s.sent) : ∃ t ∈ p.items, p.fails t = some e :=
  h.sound.errors e (List.mem_append_left _ he)

theorem clean_log (h : p.Reach s) (hm : s.main = .waited) (hsent : s.sent = []) :
    s.log.Perm p.items ∧ ∀ t ∈ s.log, p.fails t = none := by
  have hclean := h.sound.clean
  rw [hsent, waited_held h hm, waited_left h hm, List.append_nil, List.append_nil] at hclean
  exact hclean rfl

theorem sent_nil_iff (h : p.Reach s) (hm : s.main = .waited) : s.sent = [] ↔ ∀ t ∈ p.items, p.fails t = none := by
  constructor
  · intro hsent t ht
    obtain ⟨hperm, hlog⟩ := clean_log h hm hsent
    exact hlog t (hperm.mem_iff.mpr ht)
  · intro hall
    rw [List.eq_nil_iff_forall_not_mem]
    intro e he
    obtain ⟨t, ht, hf⟩ := sent_mem h he
    rw [hall t ht] at hf
    cases hf

theorem each_once (h : p.Reach s) (hm : s.main = .waited) (hall : ∀ t ∈ p.items, p.fails t = none) :
    s.log.Perm p.items :=
  (clean_log h hm ((sent_nil_iff h hm).mpr hall)).1

end Pool

/-- Updates of distinct cells: each cell is updated once, from what it held at first. -/
theorem foldl_update {ι β : Type} [DecidableEq ι] (f : ι → β → β) : ∀ {log : List ι} (m : ι → β), log.Nodup →
    ∀ i, log.foldl (fun m j => Function.update m j (f j (m j))) m i = if i ∈ log then f i (m i) else m i := by
  intro log
  induction log with
  | nil =>
    intro m _ i
    simp
  | cons j log ih =>
    intro m hnodup i
    obtain ⟨hj, hnodup⟩ := List.nodup_cons.mp hnodup
    rw [List.foldl_cons, ih _ hnodup]
    by_cases hij : i = j
    · subst hij
      simp [hj]
    · simp [hij]

end Frg.Lib
