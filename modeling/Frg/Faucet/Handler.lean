/-
  Frg.Faucet.Handler — the faucet's handler and its rate limit (`cmd/frg-faucet`).

  Handlers run at the same time. One looks its key up in the database, compares the time it finds
  there with the clock, takes the lock, asks the node for the faucet's nonce, signs and submits a
  transfer, reads the clock again, records that time under the key and lets go of the lock. The
  look and the comparison stand before the lock. Every step below is one of these operations of
  one handler, or the clock going on.
    - `ordered_step`: only the owner of the lock is between taking and leaving it, and what a
      handler saw stays true of the payments recorded by then.
    - `payments_spaced`: payments of one key are recorded 60 seconds apart, if nobody records one
      between another handler's look and its recording.
    - `two_handlers_pay_twice`: two handlers that both looked before either recorded.
-/

import Frg.Lib.Bucket
import Frg.Lib.Run
import Frg.Lib.Text
import Frg.Node.Submit
import Mathlib.Logic.Function.Basic

namespace Frg.Faucet

open Frg.Lib Frg.Core Frg.Wire Frg.Node

/-! ## The code -/

def defaultFaucetAmount : Int := 100

/-- `faucet` -/
def nameFaucet : List UInt8 := [0x66, 0x61, 0x75, 0x63, 0x65, 0x74]
/-- `user` -/
def nameUser : List UInt8 := [0x75, 0x73, 0x65, 0x72]

structure Config where
  kp : Key
  chainID : List UInt8

structure FaucetResponse where
  ok : Bool
  txid : Option Hash
  error : String

/-- A request: whether it is a POST, and the `pubkey` of its body or the decoder's error. -/
structure FaucetRequest where
  post : Bool
  pubkey : Except String (List UInt8)

/-- A response with its HTTP status. -/
structure Reply where
  status : Nat
  response : FaucetResponse

def refuse (status : Nat) (error : String) : Reply := ⟨status, ⟨false, none, error⟩⟩

/-- The recipient, or the answer to a request that names none. -/
def recipientOf (req : FaucetRequest) : Except Reply Key :=
  if req.post = false then .error (refuse 405 "POST only")
  else
    match req.pubkey with
    | .error e => .error (refuse 400 ("invalid JSON: " ++ e))
    | .ok hex =>
      match hexDecode hex with
      | none => .error (refuse 400 "pubkey must be 32-byte hex")
      | some raw => if raw.length = 32 then .ok (wordOf 32 raw) else .error (refuse 400 "pubkey must be 32-byte hex")

def int64ToBytes (v : Int) : Word 8 := Fin.ofNat _ (v % 2 ^ 64).toNat

def int64FromBytes (b : Word 8) : Int := Int.bmod b.val (2 ^ 64)

/-- `now - last < 60`, in 64 bits. -/
def rateLimited (now last : Int) : Bool := decide (Int.bmod (now - last) (2 ^ 64) < 60)

/-- A handler between two of its operations. `since` is the number of payments recorded when it
    looked into the database; the code has no such number. -/
inductive Phase where
  | idle
  | parsed (recipient : Key)
  | viewed (recipient : Key) (last : Int) (since : Nat)
  | passed (recipient : Key) (since : Nat)
  | locked (recipient : Key) (since : Nat)
  | funded (recipient : Key) (since : Nat) (nonce : UInt64)
  | submitted (recipient : Key) (since : Nat) (tr : Tx)
  | timed (recipient : Key) (since : Nat) (tr : Tx) (now : Int)
  | recorded (tr : Tx)
  | leaving (reply : Reply)
  | done (reply : Reply)

variable (P : Prim) (c : Config)

def grantTx (recipient : Key) (nonce : UInt64) : Tx :=
  { Tx.plain .transfer c.kp recipient defaultFaucetAmount nonce with sender := nameFaucet, receiver := nameUser }

/-- The signed grant, or the error the answer has. -/
def signGrant (recipient : Key) (nonce : UInt64) : Except String Tx :=
  match signSenderForChain P (grantTx c recipient nonce) c.kp c.chainID with
  | .err e => .error ("sign sender: " ++ e.msg)
  | .panic why => .error why
  | .ok sig =>
    let tr := { grantTx c recipient nonce with senderSig := sig }
    match serialize P tr with
    | .err e => .error ("serialize: " ++ e.msg)
    | .panic why => .error why
    | .ok _ => .ok tr

/-- Sign and submit; `answer` is what the node says to the bytes. -/
def submitGrant (recipient : Key) (since : Nat) (nonce : UInt64) (answer : Answer) : Phase :=
  match signGrant P c recipient nonce with
  | .error e => .leaving (refuse 500 e)
  | .ok tr =>
    match answer with
    | .error e => .leaving (refuse 502 ("submit tx: " ++ e.msg))
    | .ok resp =>
      if resp.ok then .submitted recipient since tr
      else .leaving (refuse 502 ("submit tx: node rejected: " ++ resp.error))

/-- A payment as it was recorded. -/
structure Payment where
  recipient : Key
  time : Int
  tx : Tx

structure State where
  db : Bucket Key (Word 8)
  now : Int
  owner : Option Nat
  phases : Nat → Phase
  payments : List Payment

def State.set (s : State) (h : Nat) (p : Phase) : State := { s with phases := Function.update s.phases h p }

/-- Operations of the handler `h`, and the clock. -/
inductive Event where
  | tick (t : Int)
  | arrive (h : Nat) (req : FaucetRequest)
  | view (h : Nat)
  | compare (h : Nat)
  | lock (h : Nat)
  | getNonce (h : Nat) (account : Except Err UInt64)
  | submit (h : Nat) (answer : Answer)
  | readClock (h : Nat)
  | record (h : Nat)
  | respond (h : Nat)
  | unlock (h : Nat)

/-- The state after an event, if the handler is there. The clock is `time.Now().Unix()`, an
    `int64`. -/
def step (s : State) : Event → Option State
  | .tick t => if s.now ≤ t ∧ t < 2 ^ 63 then some { s with now := t } else none
  | .arrive h req =>
    match s.phases h with
    | .idle =>
      match recipientOf req with
      | .error reply => some (s.set h (.done reply))
      | .ok recipient => some (s.set h (.parsed recipient))
    | _ => none
  | .view h =>
    match s.phases h with
    | .parsed recipient =>
      let last := ((s.db.get recipient).map int64FromBytes).getD 0
      some (s.set h (.viewed recipient last s.payments.length))
    | _ => none
  | .compare h =>
    match s.phases h with
    | .viewed recipient last since =>
      if rateLimited s.now last then
        some (s.set h (.done (refuse 429 "rate limited (1 request per 60s per pubkey)")))
      else some (s.set h (.passed recipient since))
    | _ => none
  | .lock h =>
    match s.phases h with
    | .passed recipient since =>
      if s.owner = none then some { s.set h (.locked recipient since) with owner := some h } else none
    | _ => none
  | .getNonce h account =>
    match s.phases h with
    | .locked recipient since =>
      match account with
      | .error e => some (s.set h (.leaving (refuse 502 ("failed to get faucet nonce: " ++ e.msg))))
      | .ok nonce => some (s.set h (.funded recipient since (nonce + 1)))
    | _ => none
  | .submit h answer =>
    match s.phases h with
    | .funded recipient since nonce => some (s.set h (submitGrant P c recipient since nonce answer))
    | _ => none
  | .readClock h =>
    match s.phases h with
    | .submitted recipient since tr => some (s.set h (.timed recipient since tr s.now))
    | _ => none
  | .record h =>
    match s.phases h with
    | .timed recipient _ tr now =>
      some { s.set h (.recorded tr) with
        db := s.db.put recipient (int64ToBytes now), payments := s.payments ++ [⟨recipient, now, tr⟩] }
    | _ => none
  | .respond h =>
    match s.phases h with
    | .recorded tr => some (s.set h (.leaving ⟨200, ⟨true, some ((tr.id P).toOption.getD 0), ""⟩⟩))
    | _ => none
  | .unlock h =>
    match s.phases h with
    | .leaving reply => some { s.set h (.done reply) with owner := none }
    | _ => none

/-- No handler has started; the database may be that of an earlier process. -/
def start (db : Bucket Key (Word 8)) (now : Int) : State := ⟨db, now, none, fun _ => .idle, []⟩

def run (s : State) (events : List Event) : Option State := events.foldlM (step P c) s

/-! ## Times -/

theorem int64_roundtrip {v : Int} (h : -2 ^ 63 ≤ v ∧ v < 2 ^ 63) : int64FromBytes (int64ToBytes v) = v := by
  have hval : ((int64ToBytes v).val : Int) = v % 2 ^ 64 := by
    show (((v % 2 ^ 64).toNat % 256 ^ 8 : Nat) : Int) = v % 2 ^ 64
    omega
  unfold int64FromBytes
  rw [hval]
  unfold Int.bmod
  dsimp only
  split <;> omega

/-- Who passes the comparison waited a minute, though the difference is taken in 64 bits. -/
theorem rateLimited_waits {now last : Int} (h : rateLimited now last = false) (hle : last ≤ now) :
    last + 60 ≤ now := by
  have hpass : ¬ Int.bmod (now - last) (2 ^ 64) < 60 := of_decide_eq_false h
  unfold Int.bmod at hpass
  dsimp only at hpass
  split at hpass <;> omega

/-! ## What a handler knows -/

/-- The payments of the key that were there when the handler looked are a minute older than `t`. -/
def Waited (s : State) (recipient : Key) (since : Nat) (t : Int) : Prop :=
  since ≤ s.payments.length ∧ ∀ r ∈ s.payments.take since, r.recipient = recipient → r.time + 60 ≤ t

def PhaseOk (s : State) (h : Nat) : Phase → Prop
  | .viewed recipient last since => since ≤ s.payments.length ∧
      ∀ r ∈ s.payments.take since, r.recipient = recipient → r.time ≤ last ∧ last ≤ s.now
  | .passed recipient since => Waited s recipient since s.now
  | .locked recipient since => s.owner = some h ∧ Waited s recipient since s.now
  | .funded recipient since _ => s.owner = some h ∧ Waited s recipient since s.now
  | .submitted recipient since _ => s.owner = some h ∧ Waited s recipient since s.now
  | .timed recipient since _ t => s.owner = some h ∧ Waited s recipient since t ∧ t ≤ s.now ∧ -2 ^ 63 ≤ t ∧
      ∀ r ∈ s.payments, r.time ≤ t
  | .recorded _ => s.owner = some h
  | .leaving _ => s.owner = some h
  | _ => True

/-- Between taking the lock and leaving it. -/
def Phase.inside : Phase → Bool
  | .locked _ _ | .funded _ _ _ | .submitted _ _ _ | .timed _ _ _ _ | .recorded _ | .leaving _ => true
  | _ => false

theorem PhaseOk.owner {s : State} {h : Nat} {p : Phase} (hp : PhaseOk s h p) (hin : p.inside = true) :
    s.owner = some h := by
  cases p with
  | locked _ _ => exact hp.1
  | funded _ _ _ => exact hp.1
  | submitted _ _ _ => exact hp.1
  | timed _ _ _ _ => exact hp.1
  | recorded _ => exact hp
  | leaving _ => exact hp
  | _ => cases hin

theorem Waited.mono {s s' : State} {recipient : Key} {since : Nat} {t t' : Int} (h : Waited s recipient since t)
    (hpre : s.payments <+: s'.payments) (ht : t ≤ t') : Waited s' recipient since t' := by
  obtain ⟨new, hnew⟩ := hpre
  refine ⟨?_, fun r hr hk => ?_⟩
  · rw [← hnew, List.length_append]
    exact Nat.le_add_right_of_le h.1
  · rw [← hnew, List.take_append_of_le_length h.1] at hr
    exact (h.2 r hr hk).trans ht

/-- A handler's knowledge stands while others go on. -/
theorem PhaseOk.frame {s s' : State} {h : Nat} {p : Phase} (hp : PhaseOk s h p) (hnow : s.now ≤ s'.now)
    (hpre : s.payments <+: s'.payments)
    (hin : p.inside = true → s'.owner = s.owner ∧ s'.payments = s.payments) : PhaseOk s' h p := by
  cases p with
  | viewed recipient last since =>
    obtain ⟨new, hnew⟩ := hpre
    refine ⟨?_, fun r hr hk => ?_⟩
    · rw [← hnew, List.length_append]
      exact Nat.le_add_right_of_le hp.1
    · rw [← hnew, List.take_append_of_le_length hp.1] at hr
      exact ⟨(hp.2 r hr hk).1, (hp.2 r hr hk).2.trans hnow⟩
  | passed recipient since => exact Waited.mono hp hpre hnow
  | locked recipient since => exact ⟨(hin rfl).1.trans hp.1, hp.2.mono hpre hnow⟩
  | funded recipient since nonce => exact ⟨(hin rfl).1.trans hp.1, hp.2.mono hpre hnow⟩
  | submitted recipient since tr => exact ⟨(hin rfl).1.trans hp.1, hp.2.mono hpre hnow⟩
  | timed recipient since tr t =>
    obtain ⟨howner, hsame⟩ := hin rfl
    obtain ⟨ho, hw, hle, hge, hall⟩ := hp
    refine ⟨howner.trans ho, hw.mono hpre (Int.le_refl _), hle.trans hnow, hge, ?_⟩
    rw [hsame]
    exact hall
  | recorded tr => exact (hin rfl).1.trans hp
  | leaving reply => exact (hin rfl).1.trans hp
  | idle => trivial
  | parsed recipient => trivial
  | done reply => trivial

/-- The database has the last time of every key with a payment, and no later payment is there. -/
structure Ordered (s : State) : Prop where
  clock : -2 ^ 63 ≤ s.now ∧ s.now < 2 ^ 63
  latest : ∀ r ∈ s.payments, ∃ t, s.db.get r.recipient = some (int64ToBytes t) ∧ r.time ≤ t ∧ t ≤ s.now ∧ -2 ^ 63 ≤ t
  handlers : ∀ h, PhaseOk s h (s.phases h)

theorem ordered_start {db : Bucket Key (Word 8)} {now : Int} (h : -2 ^ 63 ≤ now ∧ now < 2 ^ 63) :
    Ordered (start db now) :=
  ⟨h, fun _ hr => absurd hr List.not_mem_nil, fun _ => trivial⟩

/-- A step of the handler `h`: the others keep what they know. -/
theorem Ordered.others {s s' : State} (hs : Ordered s) {h : Nat} {p : Phase}
    (hphases : s'.phases = Function.update s.phases h p) (hp : PhaseOk s' h p) (hnow : s.now ≤ s'.now)
    (hpre : s.payments <+: s'.payments)
    (hin : ∀ j, j ≠ h → (s.phases j).inside = true → s'.owner = s.owner ∧ s'.payments = s.payments) :
    ∀ j, PhaseOk s' j (s'.phases j) := by
  intro j
  rw [hphases]
  by_cases hj : j = h
  · rw [hj, Function.update_self]
    exact hp
  · rw [Function.update_of_ne hj]
    exact (hs.handlers j).frame hnow hpre (hin j hj)

theorem Ordered.alone {s : State} (hs : Ordered s) {h j : Nat} (howner : s.owner = some h) (hj : j ≠ h) :
    (s.phases j).inside = false := by
  rw [← Bool.not_eq_true]
  intro hin
  have hother := (hs.handlers j).owner hin
  rw [howner] at hother
  exact hj (Option.some.inj hother).symm

theorem Ordered.set {s : State} (hs : Ordered s) {h : Nat} {p : Phase} (hp : PhaseOk s h p) : Ordered (s.set h p) := by
  have hp' : PhaseOk (s.set h p) h p := hp.frame (Int.le_refl _) (List.prefix_refl _) fun _ => ⟨rfl, rfl⟩
  exact ⟨hs.clock, hs.latest, hs.others rfl hp' (Int.le_refl _) (List.prefix_refl _) fun _ _ _ => ⟨rfl, rfl⟩⟩

variable {P : Prim} {c : Config} {s s' : State}

theorem Ordered.tick (hs : Ordered s) {t : Int} (hle : s.now ≤ t) (hlt : t < 2 ^ 63) : Ordered { s with now := t } := by
  refine ⟨⟨hs.clock.1.trans hle, hlt⟩, fun r hr => ?_, fun h => ?_⟩
  · obtain ⟨u, hget, hru, hnow, hge⟩ := hs.latest r hr
    exact ⟨u, hget, hru, hnow.trans hle, hge⟩
  · exact (hs.handlers h).frame hle (List.prefix_refl _) fun _ => ⟨rfl, rfl⟩

theorem Ordered.view (hs : Ordered s) (h : Nat) (recipient : Key) :
    PhaseOk s h (.viewed recipient (((s.db.get recipient).map int64FromBytes).getD 0) s.payments.length) := by
  refine ⟨Nat.le_refl _, fun r hr hk => ?_⟩
  rw [List.take_length] at hr
  obtain ⟨t, hget, hrt, hnow, hge⟩ := hs.latest r hr
  have ht : -2 ^ 63 ≤ t ∧ t < 2 ^ 63 := ⟨hge, lt_of_le_of_lt hnow hs.clock.2⟩
  rw [← hk, hget, Option.map_some, Option.getD_some, int64_roundtrip ht]
  exact ⟨hrt, hnow⟩

theorem PhaseOk.pass {h : Nat} {recipient : Key} {last : Int} {since : Nat}
    (hp : PhaseOk s h (.viewed recipient last since)) (hpass : rateLimited s.now last = false) :
    PhaseOk s h (.passed recipient since) := by
  refine ⟨hp.1, fun r hr hk => ?_⟩
  obtain ⟨hrl, hln⟩ := hp.2 r hr hk
  have := rateLimited_waits hpass hln
  omega

theorem Ordered.readClock (hs : Ordered s) {h : Nat} {recipient : Key} {since : Nat} {tr : Tx}
    (hp : PhaseOk s h (.submitted recipient since tr)) : PhaseOk s h (.timed recipient since tr s.now) := by
  refine ⟨hp.1, hp.2, Int.le_refl _, hs.clock.1, fun r hr => ?_⟩
  obtain ⟨t, -, hrt, hnow, -⟩ := hs.latest r hr
  exact hrt.trans hnow

theorem Ordered.lock (hs : Ordered s) (hfree : s.owner = none) {h : Nat} {recipient : Key} {since : Nat}
    (hp : PhaseOk s h (.passed recipient since)) :
    Ordered { s.set h (.locked recipient since) with owner := some h } := by
  refine ⟨hs.clock, hs.latest, hs.others rfl ⟨rfl, hp⟩ (Int.le_refl _) (List.prefix_refl _) fun j _ hin => ?_⟩
  have howner := (hs.handlers j).owner hin
  rw [hfree] at howner
  cases howner

theorem Ordered.unlock (hs : Ordered s) {h : Nat} (howner : s.owner = some h) (reply : Reply) :
    Ordered { s.set h (.done reply) with owner := none } := by
  refine ⟨hs.clock, hs.latest, hs.others rfl trivial (Int.le_refl _) (List.prefix_refl _) fun j hj hin => ?_⟩
  rw [hs.alone howner hj] at hin
  cases hin

theorem Ordered.record (hs : Ordered s) {h : Nat} {recipient : Key} {since : Nat} {tr : Tx} {t : Int}
    (hp : PhaseOk s h (.timed recipient since tr t)) :
    Ordered { s.set h (.recorded tr) with
      db := s.db.put recipient (int64ToBytes t), payments := s.payments ++ [⟨recipient, t, tr⟩] } := by
  obtain ⟨howner, -, hnow, hge, hall⟩ := hp
  refine ⟨hs.clock, fun r hr => ?_, ?_⟩
  · show ∃ u, (s.db.put recipient (int64ToBytes t)).get r.recipient = _ ∧ _
    rw [Bucket.get_put]
    by_cases hk : r.recipient = recipient
    · rw [if_pos hk]
      refine ⟨t, rfl, ?_, hnow, hge⟩
      rcases List.mem_append.mp hr with hr | hr
      · exact hall r hr
      · rw [List.mem_singleton.mp hr]
    · rw [if_neg hk]
      rcases List.mem_append.mp hr with hr | hr
      · exact hs.latest r hr
      · rw [List.mem_singleton.mp hr] at hk
        exact absurd rfl hk
  · refine hs.others rfl howner (Int.le_refl _) (List.prefix_append _ _) fun j hj hin => ?_
    rw [hs.alone howner hj] at hin
    cases hin

theorem submitGrant_ok {h : Nat} {recipient : Key} {since : Nat} {nonce : UInt64} {answer : Answer}
    (hp : PhaseOk s h (.funded recipient since nonce)) :
    PhaseOk s h (submitGrant P c recipient since nonce answer) := by
  unfold submitGrant
  split
  · exact hp.1
  · split
    · exact hp.1
    · split
      · exact hp
      · exact hp.1

/-! ## Steps and runs -/

/-- What an event can do. `own` is a handler that goes on by itself, to a phase that fits the state. -/
inductive Move (s : State) : Event → State → Prop
  | tick (t : Int) (hle : s.now ≤ t) (hlt : t < 2 ^ 63) : Move s (.tick t) { s with now := t }
  | own (e : Event) (h : Nat) (p : Phase) (hp : Ordered s → PhaseOk s h p) : Move s e (s.set h p)
  | lock (h : Nat) (recipient : Key) (since : Nat) (hp : s.phases h = .passed recipient since)
      (hfree : s.owner = none) :
      Move s (.lock h) { s.set h (.locked recipient since) with owner := some h }
  | record (h : Nat) (recipient : Key) (since : Nat) (tr : Tx) (t : Int)
      (hp : s.phases h = .timed recipient since tr t) :
      Move s (.record h) { s.set h (.recorded tr) with
        db := s.db.put recipient (int64ToBytes t), payments := s.payments ++ [⟨recipient, t, tr⟩] }
  | unlock (h : Nat) (reply : Reply) (hp : s.phases h = .leaving reply) :
      Move s (.unlock h) { s.set h (.done reply) with owner := none }

theorem step_move {e : Event} (h : step P c s e = some s') : Move s e s' := by
  have phase : ∀ {j : Nat} {p : Phase}, s.phases j = p → Ordered s → PhaseOk s j p := fun hp hs => hp ▸ hs.handlers _
  unfold step at h
  cases e with
  | tick t =>
    obtain ⟨⟨hle, hlt⟩, h⟩ := Option.ite_none_right_eq_some.mp h
    obtain rfl := Option.some.inj h
    exact .tick t hle hlt
  | arrive j req =>
    dsimp only at h
    split at h
    · split at h <;> (obtain rfl := Option.some.inj h; exact .own _ j _ fun _ => trivial)
    · cases h
  | view j =>
    dsimp only at h
    split at h
    · obtain rfl := Option.some.inj h
      exact .own _ j _ fun hs => hs.view j _
    · cases h
  | compare j =>
    dsimp only at h
    split at h
    · rename_i hp
      split at h
      · obtain rfl := Option.some.inj h
        exact .own _ j _ fun _ => trivial
      · rename_i hpass
        obtain rfl := Option.some.inj h
        exact .own _ j _ fun hs => (phase hp hs).pass (Bool.not_eq_true _ ▸ hpass)
    · cases h
  | lock j =>
    dsimp only at h
    split at h
    · rename_i hp
      obtain ⟨hfree, h⟩ := Option.ite_none_right_eq_some.mp h
      obtain rfl := Option.some.inj h
      exact .lock j _ _ hp hfree
    · cases h
  | getNonce j account =>
    dsimp only at h
    split at h
    · rename_i hp
      split at h
      · obtain rfl := Option.some.inj h
        exact .own _ j _ fun hs => (phase hp hs).1
      · obtain rfl := Option.some.inj h
        exact .own _ j _ fun hs => ⟨(phase hp hs).1, (phase hp hs).2⟩
    · cases h
  | submit j answer =>
    dsimp only at h
    split at h
    · rename_i hp
      obtain rfl := Option.some.inj h
      exact .own _ j _ fun hs => submitGrant_ok (phase hp hs)
    · cases h
  | readClock j =>
    dsimp only at h
    split at h
    · rename_i hp
      obtain rfl := Option.some.inj h
      exact .own _ j _ fun hs => hs.readClock (phase hp hs)
    · cases h
  | record j =>
    dsimp only at h
    split at h
    · rename_i hp
      obtain rfl := Option.some.inj h
      exact .record j _ _ _ _ hp
    · cases h
  | respond j =>
    dsimp only at h
    split at h
    · rename_i hp
      obtain rfl := Option.some.inj h
      refine .own _ j _ fun hs => ?_
      have howner := phase hp hs
      exact howner
    · cases h
  | unlock j =>
    dsimp only at h
    split at h
    · rename_i hp
      obtain rfl := Option.some.inj h
      exact .unlock j _ hp
    · cases h

theorem ordered_step {e : Event} (hs : Ordered s) (h : step P c s e = some s') : Ordered s' := by
  cases step_move h with
  | tick t hle hlt => exact hs.tick hle hlt
  | own _ j p hp => exact hs.set (hp hs)
  | lock j recipient since hp hfree => exact hs.lock hfree (hp ▸ hs.handlers j)
  | record j recipient since tr t hp =>
    have hj := hs.handlers j
    rw [hp] at hj
    exact hs.record hj
  | unlock j reply hp =>
    have hj := hs.handlers j
    rw [hp] at hj
    exact hs.unlock hj reply

/-- Payments of one key are recorded at least a minute apart. -/
def Spaced (payments : List Payment) : Prop :=
  payments.Pairwise fun r r' => r.recipient = r'.recipient → r.time + 60 ≤ r'.time

/-- If the event is a recording, its key got no payment since its handler looked. -/
def undisturbed (s : State) : Event → Bool
  | .record h =>
    match s.phases h with
    | .timed recipient since _ _ => (s.payments.drop since).all fun r => r.recipient ≠ recipient
    | _ => true
  | _ => true

/-- Every recording of the run is undisturbed. -/
def undisturbedRun (P : Prim) (c : Config) : State → List Event → Bool
  | _, [] => true
  | s, e :: rest =>
    undisturbed s e &&
      match step P c s e with
      | some s' => undisturbedRun P c s' rest
      | none => true

theorem spaced_step {e : Event} (hs : Ordered s) (hspaced : Spaced s.payments) (hund : undisturbed s e = true)
    (h : step P c s e = some s') : Spaced s'.payments := by
  cases step_move h with
  | tick t hle hlt => exact hspaced
  | own _ j p hp => exact hspaced
  | lock j recipient since hp hfree => exact hspaced
  | unlock j reply hp => exact hspaced
  | record j recipient since tr t hp =>
    have hj := hs.handlers j
    rw [hp] at hj
    obtain ⟨-, hwaited, -⟩ := hj
    unfold undisturbed at hund
    dsimp only at hund
    rw [hp] at hund
    refine List.pairwise_append.mpr ⟨hspaced, List.pairwise_singleton _ _, fun r hr r' hr' hk => ?_⟩
    obtain rfl := List.mem_singleton.mp hr'
    -- a payment of the key was there when the handler looked
    rw [← List.take_append_drop since s.payments] at hr
    rcases List.mem_append.mp hr with hr | hr
    · exact hwaited.2 r hr hk
    · exact absurd hk (of_decide_eq_true (List.all_eq_true.mp hund r hr))

theorem spaced_run {events : List Event} : ∀ {s : State}, Ordered s → Spaced s.payments →
    undisturbedRun P c s events = true → run P c s events = some s' → Spaced s'.payments := by
  induction events with
  | nil =>
    intro s _ hspaced _ h
    obtain rfl := Option.some.inj h
    exact hspaced
  | cons e events ih =>
    intro s hs hspaced hund h
    unfold run at h
    rw [List.foldlM_cons] at h
    obtain ⟨x, hx, h⟩ := Option.bind_eq_some_iff.mp h
    unfold undisturbedRun at hund
    rw [hx, Bool.and_eq_true] at hund
    exact ih (ordered_step hs hx) (spaced_step hs hspaced hund.1 hx) hund.2 h

theorem payments_spaced (P : Prim) (c : Config) (db : Bucket Key (Word 8)) (now : Int)
    (hnow : -2 ^ 63 ≤ now ∧ now < 2 ^ 63) (events : List Event)
    (hund : undisturbedRun P c (start db now) events = true) (s : State)
    (hrun : run P c (start db now) events = some s) : Spaced s.payments :=
  spaced_run (ordered_start hnow) .nil hund hrun

/-! ## Two handlers of one key -/

def sampleConfig : Config := ⟨1, []⟩

/-- A request for the key of 32 bytes `0x22`. -/
def sampleRequest : FaucetRequest := ⟨true, .ok (List.replicate 64 0x32)⟩

/-- From the lock to the answer, the node saying yes. -/
def payEvents (h : Nat) (account : UInt64) : List Event :=
  [.lock h, .getNonce h (.ok account), .submit h (.ok ⟨true, ""⟩), .readClock h, .record h, .respond h, .unlock h]

/-- Both look before either records. -/
def racingEvents : List Event :=
  [.arrive 0 sampleRequest, .arrive 1 sampleRequest, .view 0, .view 1, .compare 0, .compare 1] ++
    payEvents 0 0 ++ payEvents 1 1

theorem racing_times : (run Prim.sample sampleConfig (start .empty 1000) racingEvents).map
    (fun s => s.payments.map fun r => (r.recipient, r.time)) =
      some [(wordOf 32 (List.replicate 32 0x22), 1000), (wordOf 32 (List.replicate 32 0x22), 1000)] := by
  decide +kernel

theorem two_handlers_pay_twice : ∃ s, run Prim.sample sampleConfig (start .empty 1000) racingEvents = some s ∧
    ¬ Spaced s.payments := by
  obtain ⟨s, hs, hpay⟩ := Option.map_eq_some_iff.mp racing_times
  refine ⟨s, hs, fun hspaced => ?_⟩
  have hpairs : (s.payments.map fun r => (r.recipient, r.time)).Pairwise fun a b => a.1 = b.1 → a.2 + 60 ≤ b.2 :=
    List.pairwise_map.mpr hspaced
  rw [hpay] at hpairs
  have hgap := (List.pairwise_cons.mp hpairs).1 _ List.mem_cons_self rfl
  exact absurd hgap (by decide)

/-- One after the other, the second a minute later. -/
def waitingEvents : List Event :=
  [.arrive 0 sampleRequest, .view 0, .compare 0] ++ payEvents 0 0 ++
    [.tick 1060, .arrive 1 sampleRequest, .view 1, .compare 1] ++ payEvents 1 1

theorem payments_spaced_waiting : ∃ s, run Prim.sample sampleConfig (start .empty 1000) waitingEvents = some s ∧
    s.payments.map (·.time) = [1000, 1060] ∧ Spaced s.payments := by
  have htimes : (run Prim.sample sampleConfig (start .empty 1000) waitingEvents).map
      (fun s => s.payments.map (·.time)) = some [1000, 1060] := by decide +kernel
  obtain ⟨s, hs, hpay⟩ := Option.map_eq_some_iff.mp htimes
  exact ⟨s, hs, hpay, payments_spaced Prim.sample sampleConfig .empty 1000 (by decide) waitingEvents
    (by decide +kernel) s hs⟩

end Frg.Faucet
