/-
  Frg.Node.RateLimit — the submission limits over time (`submitLimiter` in
  `cmd/frg-node/grpc_server.go`).

  The limiter counts requests and transactions of each peer in windows of one second. A window
  begins with a call of a peer that has none, or whose last one is over, and it is forgotten when
  a new peer finds the table full and the window is over. The log of what was let through, with
  the start of the window it was counted in, is not in the code.
    - `allow_effect`: what one call does to the table.
    - `kept_run`: along every run with a clock that does not go back, a peer's window has counted
      exactly what was let through in it, and a forgotten peer's windows are all over.
    - `submission_limits`: the limits of a window, of an interval and of the table, and that a
      window is kept until it is over.
-/

import Frg.Lib.Windows
import Frg.Node.Submit

namespace Frg.Node

open Frg.Lib Frg.Core

/-! ## Calls and what they let through -/

/-- A call of `allow`, with the time it reads. -/
structure AllowCall where
  peer : Option (List UInt8)
  now : Int
  txCount : Int

def AllowCall.key (c : AllowCall) : List UInt8 := c.peer.getD unknownPeer

/-- A request that was let through. `started` is the start of its window. -/
structure Admission where
  key : List UInt8
  now : Int
  txCount : Int
  started : Int

def AllowCall.admission (c : AllowCall) (started : Int) : Admission := ⟨c.key, c.now, c.txCount, started⟩

/-- The limiter, and what it let through so far. -/
structure Traffic where
  limiter : SubmitLimiter
  admitted : List Admission

def Traffic.call (s : Traffic) (c : AllowCall) : Traffic :=
  match allow c.peer c.now c.txCount s.limiter with
  | (.ok _, l) => ⟨l, s.admitted ++ [c.admission (((l.peers.get c.key).map (·.started)).getD c.now)]⟩
  | (_, l) => ⟨l, s.admitted⟩

def Traffic.run (s : Traffic) (calls : List AllowCall) : Traffic := calls.foldl Traffic.call s

/-- The calls made on a new limiter. -/
def trafficOf (calls : List AllowCall) : Traffic := Traffic.run ⟨newSubmitLimiter, []⟩ calls

/-- Transactions of the requests. -/
def txsOf (l : List Admission) : Int := (l.map (·.txCount)).sum

/-- The requests of one peer. -/
def ofPeer (key : List UInt8) (l : List Admission) : List Admission := l.filter fun x => x.key = key

/-! ## One call -/

/-- The window a call at `now` is counted in. -/
def liveWindow (w : Option SubmitWindowState) (now : Int) : SubmitWindowState :=
  match w with
  | some state => if submitWindow ≤ now - state.started then .fresh now else state
  | none => .fresh now

def SubmitWindowState.count (state : SubmitWindowState) (txCount : Int) : SubmitWindowState :=
  { state with requests := state.requests + 1, txs := state.txs + txCount }

/-- Peers stay in the table, except some whose window is over. -/
def Trimmed (now : Int) (l l' : SubmitLimiter) : Prop :=
  ∀ k, l'.peers.get k = l.peers.get k ∨
    l'.peers.get k = none ∧ ∃ state, l.peers.get k = some state ∧ submitWindow ≤ now - state.started

/-- There is room for the peer: it is in the table, or the table is not full. -/
def Roomy (l : SubmitLimiter) (key : List UInt8) : Prop :=
  (l.peers.get key).isSome ∨ l.peers.entries.length < maxTrackedSubmitPeers

/-- A call is ignored, or refused in a window, or counted in it. -/
inductive Effect (l : SubmitLimiter) (c : AllowCall) : Res Unit × SubmitLimiter → Prop
  | ignored (e : Err) (l' : SubmitLimiter) (htrim : Trimmed c.now l l')
      (hlen : l'.peers.entries.length ≤ l.peers.entries.length) : Effect l c (.err e, l')
  | refused (e : Err) (l' : SubmitLimiter) (htrim : Trimmed c.now l l')
      (hlen : l'.peers.entries.length ≤ l.peers.entries.length) (hroom : Roomy l' c.key) :
      Effect l c (.err e, ⟨l'.peers.put c.key (liveWindow (l.peers.get c.key) c.now)⟩)
  | counted (l' : SubmitLimiter) (htrim : Trimmed c.now l l')
      (hlen : l'.peers.entries.length ≤ l.peers.entries.length) (hroom : Roomy l' c.key) (hpos : 1 ≤ c.txCount)
      (hreqs : (liveWindow (l.peers.get c.key) c.now).requests < maxSubmitReqsPerPeer)
      (htxs : (liveWindow (l.peers.get c.key) c.now).txs + c.txCount ≤ maxSubmitTxPerPeer) :
      Effect l c (.ok (), ⟨l'.peers.put c.key ((liveWindow (l.peers.get c.key) c.now).count c.txCount)⟩)

variable {l : SubmitLimiter} {c : AllowCall}

theorem Trimmed.refl (now : Int) (l : SubmitLimiter) : Trimmed now l l := fun _ => Or.inl rfl

theorem trimmed_evict (now : Int) (l : SubmitLimiter) : Trimmed now l ⟨evict now l.peers⟩ := by
  intro k
  rcases Bucket.get_foldl_delete (fun e => submitWindow ≤ now - e.2.started) k l.peers.entries l.peers with h | h
  · exact Or.inl h
  · obtain ⟨hnone, x, hx, hk, hover⟩ := h
    refine Or.inr ⟨hnone, x.2, ?_, hover⟩
    rw [← hk]
    exact Bucket.mem_entries.mp hx

theorem length_evict_le (now : Int) (l : SubmitLimiter) :
    (evict now l.peers).entries.length ≤ l.peers.entries.length :=
  Bucket.length_foldl_delete (fun e : List UInt8 × SubmitWindowState => submitWindow ≤ now - e.2.started)
    l.peers.entries l.peers

/-- The search for a peer's window: it finds one or begins one, or the table is full of open windows. -/
theorem windowOf_cases (l : SubmitLimiter) (key : List UInt8) (now : Int) :
    ∃ l', Trimmed now l l' ∧ l'.peers.entries.length ≤ l.peers.entries.length ∧
      (l.windowOf key now = (none, l') ∨
        Roomy l' key ∧ ∃ state, l.windowOf key now = (some state, l') ∧
          (if submitWindow ≤ now - state.started then .fresh now else state) = liveWindow (l.peers.get key) now) := by
  unfold SubmitLimiter.windowOf
  cases hget : l.peers.get key with
  | some state =>
    exact ⟨l, .refl now l, Nat.le_refl _, Or.inr ⟨Or.inl (by rw [hget]; rfl), state, rfl, rfl⟩⟩
  | none =>
    have hfresh : (if submitWindow ≤ now - (SubmitWindowState.fresh now).started then .fresh now
        else SubmitWindowState.fresh now) = liveWindow none now := ite_self _
    dsimp only
    split
    · split
      · exact ⟨_, trimmed_evict now l, length_evict_le now l, Or.inl rfl⟩
      · rename_i hroom
        exact ⟨_, trimmed_evict now l, length_evict_le now l, Or.inr ⟨Or.inr (Nat.not_le.mp hroom), _, rfl, hfresh⟩⟩
    · rename_i hroom
      exact ⟨l, .refl now l, Nat.le_refl _, Or.inr ⟨Or.inr (Nat.not_le.mp hroom), _, rfl, hfresh⟩⟩

theorem allow_effect (l : SubmitLimiter) (c : AllowCall) : Effect l c (allow c.peer c.now c.txCount l) := by
  unfold allow
  split
  · exact .ignored _ l (.refl c.now l) (Nat.le_refl _)
  · rename_i hcount
    obtain ⟨l', htrim, hlen, hnone | ⟨hroom, state, hsome, hlive⟩⟩ := windowOf_cases l c.key c.now
    · dsimp only
      rw [show c.peer.getD unknownPeer = c.key from rfl, hnone]
      exact .ignored _ l' htrim hlen
    · dsimp only
      rw [show c.peer.getD unknownPeer = c.key from rfl, hsome]
      dsimp only
      rw [hlive]
      split
      · exact .refused _ l' htrim hlen hroom
      · rename_i hlimits
        obtain ⟨hreqs, htxs⟩ := not_or.mp hlimits
        exact .counted l' htrim hlen hroom (by omega) (not_le.mp hreqs) (not_lt.mp htxs)

/-! ## What a peer's window has counted -/

/-- The limits of one window. -/
structure WithinLimits (l : List Admission) : Prop where
  txs : txsOf l ≤ maxSubmitTxPerPeer
  requests : (l.length : Int) ≤ maxSubmitReqsPerPeer

/-- A tracked window has counted what was let through in it, and no window began after it. -/
structure Counts (state : SubmitWindowState) (l : List Admission) : Prop where
  txs : state.txs = txsOf (inWindow (·.started) l state.started)
  requests : state.requests = (inWindow (·.started) l state.started).length
  latest : Latest (·.started) submitWindow l state.started

/-- What the table says at the time `t` of a peer and the requests let through for it. -/
def Tracked (t : Int) (w : Option SubmitWindowState) (l : List Admission) : Prop :=
  match w with
  | some state => state.started ≤ t ∧ Counts state l
  | none => Over (·.started) submitWindow l t

/-- The requests let through for one peer. -/
structure Limited (l : List Admission) : Prop where
  windowed : Windowed (·.now) (·.started) submitWindow l
  limits : ∀ s, WithinLimits (inWindow (·.started) l s)
  positive : ∀ x ∈ l, 1 ≤ x.txCount

variable {t now : Int} {w : Option SubmitWindowState} {admitted : List Admission} {state : SubmitWindowState}

theorem Tracked.mono (h : Tracked t w admitted) (ht : t ≤ now) : Tracked now w admitted := by
  cases w with
  | some state => exact ⟨h.1.trans ht, h.2⟩
  | none => exact Over.mono h ht

theorem Counts.over (h : Counts state admitted) (hover : submitWindow ≤ now - state.started) :
    Over (·.started) submitWindow admitted now :=
  h.latest.over (by decide) (by omega)

theorem Counts.fresh (h : Over (·.started) submitWindow admitted now) : Counts (.fresh now) admitted := by
  have hnil : inWindow (·.started) admitted now = [] := h.inWindow_nil (by decide)
  constructor
  · show (0 : Int) = txsOf (inWindow (·.started) admitted now)
    rw [hnil]
    rfl
  · show (0 : Int) = (inWindow (·.started) admitted now).length
    rw [hnil]
    rfl
  · exact h.latest

theorem Tracked.live (h : Tracked t w admitted) (ht : t ≤ now) :
    Counts (liveWindow w now) admitted ∧ (liveWindow w now).started ≤ now ∧
      now < (liveWindow w now).started + submitWindow := by
  have hfresh : now < (SubmitWindowState.fresh now).started + submitWindow := by
    show now < now + 1000000000
    omega
  unfold liveWindow
  cases w with
  | none => exact ⟨.fresh (Over.mono h ht), Int.le_refl _, hfresh⟩
  | some state =>
    dsimp only
    split
    · rename_i hover
      exact ⟨.fresh (h.2.over hover), Int.le_refl _, hfresh⟩
    · rename_i hopen
      exact ⟨h.2, h.1.trans ht, by omega⟩

theorem Counts.count (h : Counts state admitted) {x : Admission} (hx : x.started = state.started) :
    Counts (state.count x.txCount) (admitted ++ [x]) := by
  have hself : inWindow (·.started) (admitted ++ [x]) state.started =
      inWindow (·.started) admitted state.started ++ [x] := inWindow_append_self hx admitted
  constructor
  · show state.txs + x.txCount = txsOf (inWindow (·.started) (admitted ++ [x]) state.started)
    rw [hself, h.txs]
    simp [txsOf]
  · show state.requests + 1 = (inWindow (·.started) (admitted ++ [x]) state.started).length
    rw [hself, h.requests]
    simp
  · exact h.latest.append hx

theorem Limited.count (h : Limited admitted) (hcounts : Counts state admitted) {x : Admission}
    (hx : x.started = state.started) (hnow : state.started ≤ x.now ∧ x.now < state.started + submitWindow)
    (hpos : 1 ≤ x.txCount) (hreqs : state.requests < maxSubmitReqsPerPeer)
    (htxs : state.txs + x.txCount ≤ maxSubmitTxPerPeer) : Limited (admitted ++ [x]) := by
  refine ⟨h.windowed.append hcounts.latest hx hnow, fun s => ?_, ?_⟩
  · by_cases hs : x.started = s
    · have hnew := hcounts.count hx
      obtain rfl := hs
      rw [hx]
      constructor
      · exact hnew.txs ▸ htxs
      · exact hnew.requests ▸ Int.add_one_le_of_lt hreqs
    · rw [inWindow_append_other hs]
      exact h.limits s
  · intro y hy
    rcases List.mem_append.mp hy with hy | hy
    · exact h.positive y hy
    · rw [List.mem_singleton.mp hy]
      exact hpos

/-- Nothing was let through: the peer is kept, or its window is over and it was forgotten. -/
theorem Tracked.trimmed {l l' : SubmitLimiter} {key : List UInt8} (htrim : Trimmed now l l')
    (h : Tracked t (l.peers.get key) admitted) (ht : t ≤ now) : Tracked now (l'.peers.get key) admitted := by
  rcases htrim key with hsame | ⟨hnone, state, hstate, hover⟩
  · rw [hsame]
    exact h.mono ht
  · rw [hstate] at h
    rw [hnone]
    exact h.2.over hover

/-! ## Runs -/

/-- The table is within its limit, and what it says of each peer is right at the time `t`. -/
structure Kept (t : Int) (s : Traffic) : Prop where
  size : s.limiter.peers.entries.length ≤ maxTrackedSubmitPeers
  tracked : ∀ key, Tracked t (s.limiter.peers.get key) (ofPeer key s.admitted)
  limited : ∀ key, Limited (ofPeer key s.admitted)

theorem size_put {l' : SubmitLimiter} {key : List UInt8} (state : SubmitWindowState) (hroom : Roomy l' key)
    (hsize : l'.peers.entries.length ≤ maxTrackedSubmitPeers) :
    (l'.peers.put key state).entries.length ≤ maxTrackedSubmitPeers := by
  have hput := Bucket.length_put l'.peers key state
  cases hget : l'.peers.get key with
  | some old =>
    rw [hget] at hput
    have hone : valueOr0 (fun _ : SubmitWindowState => 1) (some old) = 1 := rfl
    omega
  | none =>
    rw [hget] at hput
    have hzero : valueOr0 (fun _ : SubmitWindowState => 1) none = 0 := rfl
    rcases hroom with hsome | hlt
    · rw [hget] at hsome
      cases hsome
    · omega

theorem ofPeer_admission (c : AllowCall) (started : Int) (l : List Admission) :
    ofPeer c.key (l ++ [c.admission started]) = ofPeer c.key l ++ [c.admission started] := by
  simp [ofPeer, List.filter_append, AllowCall.admission]

theorem ofPeer_admission_other {key : List UInt8} (hk : key ≠ c.key) (started : Int) (l : List Admission) :
    ofPeer key (l ++ [c.admission started]) = ofPeer key l := by
  simp [ofPeer, List.filter_append, AllowCall.admission, Ne.symm hk]

variable {s : Traffic}

theorem kept_refused {l' : SubmitLimiter} (h : Kept t s) (ht : t ≤ c.now) (htrim : Trimmed c.now s.limiter l')
    (hlen : l'.peers.entries.length ≤ s.limiter.peers.entries.length) (hroom : Roomy l' c.key) :
    Kept c.now ⟨⟨l'.peers.put c.key (liveWindow (s.limiter.peers.get c.key) c.now)⟩, s.admitted⟩ := by
  refine ⟨size_put _ hroom (hlen.trans h.size), fun key => ?_, h.limited⟩
  by_cases hk : key = c.key
  · rw [hk]
    dsimp only
    rw [Bucket.get_put_self]
    obtain ⟨hcounts, hstarted, -⟩ := (h.tracked c.key).live ht
    exact ⟨hstarted, hcounts⟩
  · dsimp only
    rw [Bucket.get_put_ne _ _ hk]
    exact (h.tracked key).trimmed htrim ht

theorem kept_counted {l' : SubmitLimiter} (h : Kept t s) (ht : t ≤ c.now) (htrim : Trimmed c.now s.limiter l')
    (hlen : l'.peers.entries.length ≤ s.limiter.peers.entries.length) (hroom : Roomy l' c.key) (hpos : 1 ≤ c.txCount)
    (hreqs : (liveWindow (s.limiter.peers.get c.key) c.now).requests < maxSubmitReqsPerPeer)
    (htxs : (liveWindow (s.limiter.peers.get c.key) c.now).txs + c.txCount ≤ maxSubmitTxPerPeer) :
    Kept c.now ⟨⟨l'.peers.put c.key ((liveWindow (s.limiter.peers.get c.key) c.now).count c.txCount)⟩,
      s.admitted ++ [c.admission (liveWindow (s.limiter.peers.get c.key) c.now).started]⟩ := by
  obtain ⟨hcounts, hstarted, hopen⟩ := (h.tracked c.key).live ht
  refine ⟨size_put _ hroom (hlen.trans h.size), fun key => ?_, fun key => ?_⟩
  · by_cases hk : key = c.key
    · rw [hk]
      dsimp only
      rw [Bucket.get_put_self, ofPeer_admission]
      exact ⟨hstarted, hcounts.count (x := c.admission _) rfl⟩
    · dsimp only
      rw [Bucket.get_put_ne _ _ hk, ofPeer_admission_other hk]
      exact (h.tracked key).trimmed htrim ht
  · by_cases hk : key = c.key
    · rw [hk, ofPeer_admission]
      exact (h.limited c.key).count hcounts rfl ⟨hstarted, hopen⟩ hpos hreqs htxs
    · rw [ofPeer_admission_other hk]
      exact h.limited key

theorem kept_call (h : Kept t s) (ht : t ≤ c.now) : Kept c.now (s.call c) := by
  have heffect := allow_effect s.limiter c
  unfold Traffic.call
  generalize allow c.peer c.now c.txCount s.limiter = r at heffect
  cases heffect with
  | ignored e l' htrim hlen =>
    exact ⟨hlen.trans h.size, fun key => (h.tracked key).trimmed htrim ht, h.limited⟩
  | refused e l' htrim hlen hroom => exact kept_refused h ht htrim hlen hroom
  | counted l' htrim hlen hroom hpos hreqs htxs =>
    dsimp only
    rw [Bucket.get_put_self]
    exact kept_counted h ht htrim hlen hroom hpos hreqs htxs

theorem kept_run {calls : List AllowCall} : ∀ {t : Int} {s : Traffic}, Kept t s → (∀ c ∈ calls, t ≤ c.now) →
    (calls.map (·.now)).Pairwise (· ≤ ·) → ∃ t', Kept t' (s.run calls) := by
  induction calls with
  | nil => exact fun h _ _ => ⟨_, h⟩
  | cons c calls ih =>
    intro t s h hle hclock
    rw [List.map_cons, List.pairwise_cons] at hclock
    refine ih (kept_call h (hle c List.mem_cons_self)) (fun c' hc' => ?_) hclock.2
    exact hclock.1 _ (List.mem_map_of_mem hc')

theorem kept_new (t : Int) : Kept t ⟨newSubmitLimiter, []⟩ := by
  refine ⟨Nat.zero_le _, fun key x hx => absurd hx List.not_mem_nil, fun key => ⟨.nil, fun s => ?_, ?_⟩⟩
  · show WithinLimits []
    exact ⟨by decide, by decide⟩
  · exact fun x hx => absurd hx List.not_mem_nil

theorem kept_traffic {calls : List AllowCall} (hclock : (calls.map (·.now)).Pairwise (· ≤ ·)) :
    ∃ t, Kept t (trafficOf calls) := by
  cases calls with
  | nil => exact ⟨0, kept_new 0⟩
  | cons c calls =>
    refine kept_run (kept_new c.now) (fun c' hc' => ?_) hclock
    rcases List.mem_cons.mp hc' with rfl | hc'
    · exact Int.le_refl _
    · exact (List.pairwise_cons.mp hclock).1 _ (List.mem_map_of_mem hc')

/-! ## Windows that are not over -/

/-- The same window, which may have counted more. -/
structure SameWindow (state state' : SubmitWindowState) : Prop where
  started : state'.started = state.started
  txs : state.txs ≤ state'.txs
  requests : state.requests ≤ state'.requests

theorem Trimmed.get_open {l' : SubmitLimiter} (htrim : Trimmed now l l') {key : List UInt8}
    (hget : l.peers.get key = some state) (hopen : now - state.started < submitWindow) :
    l'.peers.get key = some state := by
  rcases htrim key with hsame | ⟨-, old, hold, hover⟩
  · exact hsame.trans hget
  · rw [hget] at hold
    obtain rfl := Option.some.inj hold
    exact absurd hopen (not_lt.mpr hover)

theorem liveWindow_open (hopen : now - state.started < submitWindow) : liveWindow (some state) now = state :=
  if_neg (not_le.mpr hopen)

/-- Until it is over, a window goes on; calls of other peers do not change it. -/
theorem window_call {key : List UInt8} (hget : s.limiter.peers.get key = some state)
    (hopen : c.now - state.started < submitWindow) : ∃ state', (s.call c).limiter.peers.get key = some state' ∧
      SameWindow state state' ∧ (c.key ≠ key → state' = state) := by
  have heffect := allow_effect s.limiter c
  unfold Traffic.call
  generalize allow c.peer c.now c.txCount s.limiter = r at heffect
  have hsame : SameWindow state state := ⟨rfl, Int.le_refl _, Int.le_refl _⟩
  cases heffect with
  | ignored e l' htrim hlen => exact ⟨state, htrim.get_open hget hopen, hsame, fun _ => rfl⟩
  | refused e l' htrim hlen hroom =>
    dsimp only
    rw [Bucket.get_put]
    split
    · rename_i hk
      rw [← hk, hget, liveWindow_open hopen]
      exact ⟨state, rfl, hsame, fun _ => rfl⟩
    · exact ⟨state, htrim.get_open hget hopen, hsame, fun _ => rfl⟩
  | counted l' htrim hlen hroom hpos hreqs htxs =>
    dsimp only
    rw [Bucket.get_put]
    split
    · rename_i hk
      rw [← hk, hget, liveWindow_open hopen]
      refine ⟨_, rfl, ⟨rfl, ?_, ?_⟩, fun hne => absurd rfl hne⟩
      · show state.txs ≤ state.txs + c.txCount
        omega
      · show state.requests ≤ state.requests + 1
        omega
    · exact ⟨state, htrim.get_open hget hopen, hsame, fun _ => rfl⟩

theorem window_run {calls : List AllowCall} {key : List UInt8} : ∀ {s : Traffic} {state : SubmitWindowState},
    s.limiter.peers.get key = some state → (∀ c ∈ calls, c.now - state.started < submitWindow) →
    ∃ state', (s.run calls).limiter.peers.get key = some state' ∧ SameWindow state state' ∧
      ((∀ c ∈ calls, c.key ≠ key) → state' = state) := by
  induction calls with
  | nil => exact fun {s state} hget _ => ⟨state, hget, ⟨rfl, Int.le_refl _, Int.le_refl _⟩, fun _ => rfl⟩
  | cons c calls ih =>
    intro s state hget hopen
    obtain ⟨mid, hmid, hsame, hother⟩ := window_call hget (hopen c List.mem_cons_self)
    have hopen' : ∀ c' ∈ calls, c'.now - mid.started < submitWindow := by
      rw [hsame.started]
      exact fun c' hc' => hopen c' (List.mem_cons_of_mem _ hc')
    obtain ⟨last, hlast, hsame', hother'⟩ := ih hmid hopen'
    refine ⟨last, hlast, ⟨hsame'.started.trans hsame.started, hsame.txs.trans hsame'.txs,
      hsame.requests.trans hsame'.requests⟩, fun hne => ?_⟩
    rw [hother' fun c' hc' => hne c' (List.mem_cons_of_mem _ hc'), hother (hne c List.mem_cons_self)]

/-! ## The limits -/

/-- What was let through for a peer from `a` to `b`. -/
def between (key : List UInt8) (a b : Int) (l : List Admission) : List Admission :=
  (ofPeer key l).filter fun x => a ≤ x.now ∧ x.now ≤ b

theorem sum_ones (l : List Admission) : (l.map fun _ => (1 : Int)).sum = l.length := by
  simp

theorem Limited.interval {l : List Admission} (h : Limited l) {a b : Int} (hab : b - a < submitWindow) :
    txsOf (l.filter fun x => a ≤ x.now ∧ x.now ≤ b) ≤ 2 * maxSubmitTxPerPeer ∧
      ((l.filter fun x => a ≤ x.now ∧ x.now ≤ b).length : Int) ≤ 2 * maxSubmitReqsPerPeer := by
  constructor
  · exact h.windowed.interval_sum_le (fun x hx => Int.le_of_lt (h.positive x hx)) (fun s => (h.limits s).txs) hab
  · rw [← sum_ones]
    refine h.windowed.interval_sum_le (fun _ _ => by decide) (fun s => ?_) hab
    rw [sum_ones]
    exact (h.limits s).requests

theorem submission_limits (calls : List AllowCall) (hclock : (calls.map (·.now)).Pairwise (· ≤ ·)) :
    (∀ key a b, b - a < submitWindow →
      txsOf (between key a b (trafficOf calls).admitted) ≤ 2 * maxSubmitTxPerPeer ∧
      ((between key a b (trafficOf calls).admitted).length : Int) ≤ 2 * maxSubmitReqsPerPeer) ∧
    (∀ key, Windowed (·.now) (·.started) submitWindow (ofPeer key (trafficOf calls).admitted) ∧
      ∀ s, WithinLimits (inWindow (·.started) (ofPeer key (trafficOf calls).admitted) s)) ∧
    (∀ before after, calls = before ++ after → ∀ key state, (trafficOf before).limiter.peers.get key = some state →
      (∀ c ∈ after, c.now - state.started < submitWindow) →
      ∃ state', (trafficOf calls).limiter.peers.get key = some state' ∧ SameWindow state state' ∧
        ((∀ c ∈ after, c.key ≠ key) → state' = state)) ∧
    (trafficOf calls).limiter.peers.entries.length ≤ maxTrackedSubmitPeers := by
  obtain ⟨t, hkept⟩ := kept_traffic hclock
  refine ⟨fun key a b hab => (hkept.limited key).interval hab,
    fun key => ⟨(hkept.limited key).windowed, (hkept.limited key).limits⟩, ?_, hkept.size⟩
  intro before after hcalls key state hget hopen
  have hrun : trafficOf calls = (trafficOf before).run after := by
    rw [hcalls]
    exact List.foldl_append
  rw [hrun]
  exact window_run hget hopen

/-- A peer fills up its window at the end of it, and the next one at once. -/
def burst : List AllowCall :=
  [⟨some [1], 0, 1⟩, ⟨some [1], 999999999, 2047⟩, ⟨some [2], 999999999, 1⟩, ⟨some [1], 1000000000, 2048⟩]

theorem submission_limits_burst :
    txsOf (between [1] 999999999 1000000000 (trafficOf burst).admitted) = 4095 ∧
    txsOf (between [1] 999999999 1000000000 (trafficOf burst).admitted) ≤ 2 * maxSubmitTxPerPeer ∧
    (trafficOf burst).limiter.peers.entries.length ≤ maxTrackedSubmitPeers := by
  obtain ⟨hinterval, -, -, hsize⟩ := submission_limits burst (by decide)
  exact ⟨by decide +kernel, (hinterval [1] 999999999 1000000000 (by decide)).1, hsize⟩

end Frg.Node
