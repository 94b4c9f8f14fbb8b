/-
  Frg.Client.Flush — the client behind its offline queue (`client/client.go`, `client/transport.go`).

  `SubmitTx` signs a transaction and hands it to the node; without a connection, or when the call
  fails, it is put into the queue. `flush` drains the whole queue into one batch, and deletes what
  it drained if the node accepted the batch. The queue has no bound and the batch is never cut, but
  the node's `SubmitBatch` has bounds (`Fits`).
    - `flush_accepted_iff`: a batch of validly signed transactions is accepted exactly when it is
      within these bounds; then just what was drained leaves the queue, and otherwise nothing does.
    - `long_queue_refused`: 1025 transactions queued offline are a batch the node refuses
      in every state it can be in.
-/

import Frg.Client.Queue
import Frg.Node.Submit
import Frg.Wire.RoundTrip

namespace Frg.Client

open Frg.Lib Frg.Core Frg.Wire Frg.Node

/-! ## The code -/

/-- `submitTx` and `submitBatch` of the transport. `rejected` is an error that wraps
    `errNodeRejected`. -/
inductive Sent where
  | accepted
  | rejected (e : Err)
  | failed (e : Err)

def errNodeRejected : Err := .plain "node rejected tx"

def sent : Answer → Sent
  | .error e => .failed e
  | .ok resp => if resp.ok then .accepted else .rejected (.wrap resp.error errNodeRejected)

/-- A client's keys and chain. -/
structure Config where
  kp : Key
  chainID : List UInt8

variable (G : Gcm) (P : Prim) (c : Config)

/-- The transaction as `SubmitTx` signs it. -/
def signTx (t : Tx) : Res Tx := do
  let t := { t with senderPubKey := c.kp }
  let msg ← unsignedHashForChain P t c.chainID
  .ok { t with senderSig := P.sign c.kp msg.bytes }

/-- `Enqueue` on the queue in use: an error leaves it as it was. -/
def putAway (rand : Res (Word 12)) (txBytes : List UInt8) : Act Err Queue Unit := fun q =>
  match q.enqueue G P rand txBytes with
  | .ok q' => (.ok (), q')
  | .err e => (.err e, q)
  | .panic w => (.panic w, q)

/-- `link` is `none` when the connection is not ready, and else what the call gives. -/
def submitTx (rand : Res (Word 12)) (link : Option Answer) (t : Tx) : Act Err Queue Unit := do
  let t ← .lift (signTx P c t)
  let txBytes ← .lift (serialize P t)
  match link with
  | none => putAway G P rand txBytes
  | some answer =>
    match sent answer with
    | .accepted => pure ()
    | .failed _ => putAway G P rand txBytes
    | .rejected e => .fail e

/-- The batch a flush sends, if it sends one, with the keys to delete. -/
def flushBatch (q : Queue) : Option (List (Word 8) × List (List UInt8)) :=
  match q.drain G with
  | .ok (ks, txs) => if txs.length = 0 then none else some (ks, txs)
  | _ => none

/-- The end of a flush, on the queue as it is then. -/
def endFlush (ks : List (Word 8)) (answer : Answer) (q : Queue) : Queue :=
  match sent answer with
  | .accepted => q.deleteKeys ks
  | _ => q

/-! ## Sequences of calls -/

/-- What happens to the queue of a client. A flush that ends was drained earlier; which keys it
    has is left open. -/
inductive ClientEvent where
  | submit (rand : Res (Word 12)) (link : Option Answer) (t : Tx)
  | endFlush (ks : List (Word 8)) (answer : Answer)

def ClientEvent.apply (q : Queue) : ClientEvent → Queue
  | .submit rand link t => (submitTx G P c rand link t q).2
  | .endFlush ks answer => Client.endFlush ks answer q

def clientQueue (events : List ClientEvent) : Queue := events.foldl (ClientEvent.apply G P c) openQueue

/-- The bytes of a transaction the client was given, and the transaction it signed. -/
def Handed (events : List ClientEvent) (u : Tx) (txBytes : List UInt8) : Prop :=
  ∃ rand link t, .submit rand link t ∈ events ∧ signTx P c t = .ok u ∧ serialize P u = .ok txBytes

/-- Whatever was given to the client was signed by it validly. -/
def ValidlySigned (events : List ClientEvent) : Prop :=
  ∀ u txBytes, Handed P c events u txBytes → verifySigsForChain P u c.chainID = .ok ()

variable {G : Gcm} {P : Prim} {c : Config} {q : Queue} {events : List ClientEvent}

theorem signTx_valid (hsign : ∀ k m, P.verify k m (P.sign k m) = true) {t u : Tx} (h : signTx P c t = .ok u)
    (hknown : ∀ b hb, t.type ≠ .other b hb) : verifySigsForChain P u c.chainID = .ok () := by
  unfold signTx at h
  obtain ⟨msg, hmsg, h⟩ := Go.bind_eq_ok.mp h
  obtain rfl := Go.ok.inj h
  -- the signature is not part of what is signed
  have hsame : unsignedHashForChain P { t with senderPubKey := c.kp, senderSig := P.sign c.kp msg.bytes } c.chainID =
      .ok msg := hmsg
  unfold verifySigsForChain
  rw [hsame, Go.ok_bind]
  dsimp only
  split
  · rename_i b hb htype
    exact absurd htype (hknown b hb)
  · rw [Go.check_pos (hsign _ _)]

/-! ## The client's calls as calls of the queue -/

theorem putAway_calls (rand : Res (Word 12)) (txBytes : List UInt8) (q : Queue) :
    ∃ calls : List QueueCall, calls.foldlM (QueueCall.apply G P) q = .ok (putAway G P rand txBytes q).2 ∧
      ∀ r b, QueueCall.enqueue r b ∈ calls → b = txBytes := by
  unfold putAway
  cases h : q.enqueue G P rand txBytes with
  | ok q' =>
    refine ⟨[.enqueue rand txBytes], ?_, fun r b hmem => ?_⟩
    · rw [List.foldlM_cons]
      show (q.enqueue G P rand txBytes >>= _) = _
      rw [h]
      rfl
    · exact (QueueCall.enqueue.inj (List.mem_singleton.mp hmem)).2
  | err e => exact ⟨[], rfl, fun r b hmem => absurd hmem List.not_mem_nil⟩
  | panic w => exact ⟨[], rfl, fun r b hmem => absurd hmem List.not_mem_nil⟩

theorem submitTx_cases (rand : Res (Word 12)) (link : Option Answer) (t : Tx) (q : Queue) :
    (submitTx G P c rand link t q).2 = q ∨ ∃ u txBytes, signTx P c t = .ok u ∧ serialize P u = .ok txBytes ∧
      (submitTx G P c rand link t q).2 = (putAway G P rand txBytes q).2 := by
  unfold submitTx
  cases hu : signTx P c t with
  | err e => exact Or.inl rfl
  | panic w => exact Or.inl rfl
  | ok u =>
    rw [Act.lift_bind rfl]
    cases hb : serialize P u with
    | err e => exact Or.inl rfl
    | panic w => exact Or.inl rfl
    | ok txBytes =>
      rw [Act.lift_bind rfl]
      cases link with
      | none => exact Or.inr ⟨u, txBytes, rfl, hb, rfl⟩
      | some answer =>
        dsimp only
        cases sent answer with
        | accepted => exact Or.inl rfl
        | rejected e => exact Or.inl rfl
        | failed e => exact Or.inr ⟨u, txBytes, rfl, hb, rfl⟩

theorem event_calls (e : ClientEvent) (q : Queue) :
    ∃ calls : List QueueCall, calls.foldlM (QueueCall.apply G P) q = .ok (e.apply G P c q) ∧
      ∀ r b, QueueCall.enqueue r b ∈ calls → ∃ u, Handed P c [e] u b := by
  cases e with
  | submit rand link t =>
    rcases submitTx_cases rand link t q with h | ⟨u, txBytes, hu, hb, h⟩
    · refine ⟨[], ?_, fun r b hmem => absurd hmem List.not_mem_nil⟩
      rw [ClientEvent.apply, h]
      rfl
    · obtain ⟨calls, hcalls, hbytes⟩ := putAway_calls (G := G) (P := P) rand txBytes q
      refine ⟨calls, ?_, fun r b hmem => ?_⟩
      · rw [ClientEvent.apply, h]
        exact hcalls
      · rw [hbytes r b hmem]
        exact ⟨u, rand, link, t, List.mem_cons_self, hu, hb⟩
  | endFlush ks answer =>
    show ∃ calls : List QueueCall, _ = Go.ok (endFlush ks answer q) ∧ _
    unfold endFlush
    cases sent answer with
    | accepted =>
      refine ⟨[.deleteKeys ks], rfl, fun r b hmem => ?_⟩
      cases List.mem_singleton.mp hmem
    | rejected e => exact ⟨[], rfl, fun r b hmem => absurd hmem List.not_mem_nil⟩
    | failed e => exact ⟨[], rfl, fun r b hmem => absurd hmem List.not_mem_nil⟩

theorem Handed.mono {events' : List ClientEvent} {u : Tx} {b : List UInt8} (h : Handed P c events u b)
    (hsub : ∀ e ∈ events, e ∈ events') : Handed P c events' u b := by
  obtain ⟨rand, link, t, hmem, h⟩ := h
  exact ⟨rand, link, t, hsub _ hmem, h⟩

theorem events_calls (events : List ClientEvent) : ∀ q : Queue,
    ∃ calls : List QueueCall, calls.foldlM (QueueCall.apply G P) q = .ok (events.foldl (ClientEvent.apply G P c) q) ∧
      ∀ r b, QueueCall.enqueue r b ∈ calls → ∃ u, Handed P c events u b := by
  induction events with
  | nil => exact fun q => ⟨[], rfl, fun r b hmem => absurd hmem List.not_mem_nil⟩
  | cons e events ih =>
    intro q
    obtain ⟨calls, hcalls, hhanded⟩ := event_calls (G := G) (P := P) (c := c) e q
    obtain ⟨rest, hrest, hhanded'⟩ := ih (e.apply G P c q)
    refine ⟨calls ++ rest, ?_, fun r b hmem => ?_⟩
    · rw [List.foldlM_append, hcalls]
      exact hrest
    · rcases List.mem_append.mp hmem with hmem | hmem
      · obtain ⟨u, hu⟩ := hhanded r b hmem
        exact ⟨u, hu.mono fun x hx => List.mem_singleton.mp hx ▸ List.mem_cons_self⟩
      · obtain ⟨u, hu⟩ := hhanded' r b hmem
        exact ⟨u, hu.mono fun x hx => List.mem_cons_of_mem _ hx⟩

/-- No two transactions given to the client have bytes with the same hash. -/
def Apart (P : Prim) (c : Config) (events : List ClientEvent) : Prop :=
  ∀ t u a b, Handed P c events t a → Handed P c events u b → NoCollision P.hash a b

theorem client_calls (events later : List ClientEvent) : ∃ before after : List QueueCall,
    runQueue G P before = .ok (clientQueue G P c events) ∧
    runQueue G P (before ++ after) = .ok (clientQueue G P c (events ++ later)) ∧
    (∀ i b, Enqueued before i b → ∃ u, Handed P c events u b) ∧
    (Apart P c (events ++ later) → Distinguished P (before ++ after)) := by
  obtain ⟨before, hbefore, hhanded⟩ := events_calls (G := G) (P := P) (c := c) events openQueue
  obtain ⟨after, hafter, hhanded'⟩ := events_calls (G := G) (P := P) (c := c) later (clientQueue G P c events)
  have hall : ∀ i b, Enqueued (before ++ after) i b → ∃ u, Handed P c (events ++ later) u b := by
    rintro i b ⟨rand, h⟩
    rcases List.mem_append.mp (List.mem_of_getElem? h) with hmem | hmem
    · obtain ⟨u, hu⟩ := hhanded rand b hmem
      exact ⟨u, hu.mono fun x hx => List.mem_append_left _ hx⟩
    · obtain ⟨u, hu⟩ := hhanded' rand b hmem
      exact ⟨u, hu.mono fun x hx => List.mem_append_right _ hx⟩
  refine ⟨before, after, hbefore, runQueue_append.mpr ⟨_, hbefore, ?_⟩, ?_, fun hapart i j a b ha hb => ?_⟩
  · unfold clientQueue
    rw [List.foldl_append]
    exact hafter
  · rintro i b ⟨rand, h⟩
    exact hhanded rand b (List.mem_of_getElem? h)
  · obtain ⟨t, ht⟩ := hall i a ha
    obtain ⟨u, hu⟩ := hall j b hb
    exact hapart t u a b ht hu

/-! ## The batch -/

theorem handed_admissible (hnfc : NfcRules P) (hvalid : ValidlySigned P c events) {u : Tx} {b : List UInt8}
    (h : Handed P c events u b) : Admissible P c.chainID b (u.normal P) := by
  have hsigned := hvalid u b h
  obtain ⟨rand, link, t, -, -, hser⟩ := h
  obtain ⟨hread, -, hhash⟩ := tx_survives_wire hnfc hser
  refine ⟨(deserialize_canonical hread).2, hread, ?_⟩
  unfold verifySigsForChain at hsigned ⊢
  rw [hhash]
  exact hsigned

theorem drained_admissible (hnfc : NfcRules P) (hvalid : ValidlySigned P c events) (hapart : Apart P c events)
    (hseq : (clientQueue G P c events).sequence < 2 ^ 64) {ks : List (Word 8)} {txs : List (List UInt8)}
    (hdrain : (clientQueue G P c events).drain G = .ok (ks, txs)) :
    ∃ ts, List.Forall₂ (Admissible P c.chainID) txs ts := by
  obtain ⟨calls, after, hrun, -, hhanded, hdist⟩ := client_calls (G := G) (P := P) (c := c) events []
  rw [List.append_nil] at hdist
  have hrep := represents_run hrun (hdist hapart).of_append hseq
  obtain ⟨ks', hks', -, -⟩ := hrep.drain
  obtain ⟨rfl, rfl⟩ := Prod.mk.inj (Go.ok.inj (hks'.symm.trans hdrain))
  have hall : ∀ b ∈ (Tickets.run (calls.map QueueCall.spec)).values, ∃ t, Admissible P c.chainID b t := by
    intro b hb
    obtain ⟨i, hi⟩ := enqueued_of_mem hb
    obtain ⟨u, hu⟩ := hhanded i b hi
    exact ⟨_, handed_admissible hnfc hvalid hu⟩
  exact Go.forall₂_exists hall

/-- What the client sees of the node's answer; a call that ends in a panic has none. -/
def seen : Res SubmitResponse → Answer
  | .ok resp => .ok resp
  | .err e => .error e
  | .panic _ => .error (.plain "rpc error: code = Unavailable desc = error reading from server: EOF")

theorem flushBatch_some {ks : List (Word 8)} {txs : List (List UInt8)} (h : flushBatch G q = some (ks, txs)) :
    q.drain G = .ok (ks, txs) ∧ txs ≠ [] := by
  unfold flushBatch at h
  cases hd : q.drain G with
  | err e => rw [hd] at h; cases h
  | panic w => rw [hd] at h; cases h
  | ok d =>
    obtain ⟨ks', txs'⟩ := d
    rw [hd] at h
    dsimp only at h
    split at h
    · cases h
    · rename_i hne
      obtain ⟨rfl, rfl⟩ := Prod.mk.inj (Option.some.inj h)
      exact ⟨rfl, fun hnil => hne (congrArg List.length hnil)⟩

theorem endFlush_refused {ks : List (Word 8)} {resp : Res SubmitResponse} (h : ∀ x, resp = .ok x → x.ok = false)
    (q : Queue) : endFlush ks (seen resp) q = q := by
  cases resp with
  | err e => rfl
  | panic w => rfl
  | ok x =>
    have hrejected : sent (seen (.ok x)) = .rejected (.wrap x.error errNodeRejected) :=
      if_neg (by rw [h x rfl]; exact Bool.false_ne_true)
    unfold endFlush
    rw [hrejected]

/-- The flush of a client, with the node's answer to its batch. Events go on between the drain and
    the end of the flush. -/
theorem flush_accepted_iff (G : Gcm) (P : Prim) (hnfc : NfcRules P) (c : Config) (events later : List ClientEvent)
    (hvalid : ValidlySigned P c events) (hapart : Apart P c (events ++ later))
    (hseq : (clientQueue G P c (events ++ later)).sequence < 2 ^ 64)
    (ks : List (Word 8)) (txs : List (List UInt8)) (hbatch : flushBatch G (clientQueue G P c events) = some (ks, txs))
    (g : Grpc) (l : SubmitLimiter) (r : Request) (hlive : r.Live) (hquiet : Quiet l r) :
    ∃ ts, List.Forall₂ (Admissible P c.chainID) txs ts ∧
      ∀ broadcast : List Tx → Res Unit, broadcast ts = .ok () →
        ∀ resp, resp = (serveBatch P c.chainID g broadcast r txs l).1 →
        (resp = .ok ⟨true, ""⟩ ↔ Fits g l r txs) ∧
        (Fits g l r txs → ∀ k t, (endFlush ks (seen resp) (clientQueue G P c (events ++ later))).Drains G k t ↔
          (clientQueue G P c (events ++ later)).Drains G k t ∧ ¬ (clientQueue G P c events).Drains G k t) ∧
        (¬ Fits g l r txs → ∀ q, endFlush ks (seen resp) q = q) := by
  obtain ⟨hdrain, hne⟩ := flushBatch_some hbatch
  obtain ⟨before, after, hrun, hrun1, -, hdist⟩ := client_calls (G := G) (P := P) (c := c) events later
  have hapart0 : Apart P c events := fun t u a b ht hu =>
    hapart t u a b (ht.mono fun x hx => List.mem_append_left _ hx) (hu.mono fun x hx => List.mem_append_left _ hx)
  have hseq0 : (clientQueue G P c events).sequence < 2 ^ 64 := by
    obtain ⟨q, hq, hafter⟩ := runQueue_append.mp hrun1
    obtain rfl := Go.ok.inj (hrun.symm.trans hq)
    exact Nat.lt_of_le_of_lt (run_sequence_le hafter).1 hseq
  obtain ⟨ts, hts⟩ := drained_admissible hnfc hvalid hapart0 hseq0 hdrain
  refine ⟨ts, hts, fun broadcast hb resp hresp => ?_⟩
  have hiff : resp = .ok ⟨true, ""⟩ ↔ Fits g l r txs := by
    rw [hresp]
    exact serveBatch_accepts_iff hlive hquiet hne hts hb
  refine ⟨hiff, fun hfits k t => ?_, fun hfits q => ?_⟩
  · rw [hiff.mpr hfits]
    exact deleteKeys_drained hrun hrun1 (hdist hapart) hseq hdrain k t
  · exact endFlush_refused (fun x hx => serveBatch_refuses hfits broadcast (Prod.ext (hresp.symm.trans hx) rfl)) q

/-! ## A queue that grew offline -/

/-- A hash that shows the nonce of a transfer without names. -/
def numberingPrim : Prim := { Prim.sample with hash := fun bs => wordOf 32 ((bs.drop 43).take 8) }

def offlineConfig : Config := ⟨1, [0x66]⟩

def offlinePayment (n : Nat) : Tx := Tx.plain .transfer 1 2 1 (.ofNat n)

/-- A random source that gives zeros. -/
def zeroNonce : Res (Word 12) := .ok (wordOf 12 [])

/-- Payments submitted one after the other without a connection. -/
def offlinePayments (count : Nat) : List ClientEvent :=
  (List.range count).map fun n => .submit zeroNonce none (offlinePayment n)

/-- The bytes in front of a payment's nonce. -/
def paymentHead : List UInt8 := domainTx ++ [1] ++ u16 0 ++ [] ++ u16 0 ++ [] ++ toBE 32 1

def unsignedPayment (n : Nat) : List UInt8 :=
  paymentHead ++ u64 (UInt64.ofNat n).toNat ++ u64 0 ++ (0 : Key).bytes ++ u32 0 ++ []

def signedPayment (n : Nat) : Tx :=
  { offlinePayment n with
    senderSig := numberingPrim.sign 1 (numberingPrim.hash (chainDomainBytes [0x66] (unsignedPayment n))).bytes }

def paymentBytes (n : Nat) : List UInt8 :=
  unsignedPayment n ++ (1 : Key).bytes ++ (2 : Key).bytes ++ (signedPayment n).senderSig.bytes ++ (0 : Sig).bytes

theorem signTx_payment (n : Nat) : signTx numberingPrim offlineConfig (offlinePayment n) = .ok (signedPayment n) := rfl

theorem length_unsignedPayment (n : Nat) : (unsignedPayment n).length = 95 := by
  simp [unsignedPayment, paymentHead, u16, u64, u32, domainTx]

theorem serialize_payment (n : Nat) : serialize numberingPrim (signedPayment n) = .ok (paymentBytes n) := by
  have hunsigned : serializeUnsigned numberingPrim (signedPayment n) = .ok (unsignedPayment n) := rfl
  unfold serialize
  rw [hunsigned, Go.ok_bind, Go.check_pos (by rw [length_unsignedPayment]; decide)]
  rfl

theorem hash_payment {n : Nat} (h : n < 2 ^ 64) : (numberingPrim.hash (paymentBytes n)).val = n := by
  have hword : (256 : Nat) ^ 8 = 2 ^ 64 := by decide
  have hnonce : ((paymentBytes n).drop 43).take 8 = u64 n := by
    have hn : (UInt64.ofNat n).toNat = n := UInt64.toNat_ofNat_of_lt' (by rw [UInt64.size]; omega)
    have hhead : paymentHead.length = 43 := by simp [paymentHead, domainTx, u16]
    unfold paymentBytes unsignedPayment
    rw [hn]
    simp only [List.append_assoc]
    rw [List.drop_left' hhead, List.take_left' (show (u64 n).length = 8 from length_toBE 8 n)]
  show ofBE (((paymentBytes n).drop 43).take 8) % 256 ^ 32 = n
  rw [hnonce]
  unfold u64
  rw [ofBE_toBE 8 n (by rw [hword]; exact h)]
  exact Nat.mod_eq_of_lt (Nat.lt_of_lt_of_le h (by decide))

theorem paymentBytes_inj {i j : Nat} (hi : i < 2 ^ 64) (hj : j < 2 ^ 64)
    (h : numberingPrim.hash (paymentBytes i) = numberingPrim.hash (paymentBytes j)) : i = j := by
  rw [← hash_payment hi, h, hash_payment hj]

def paymentCalls (count : Nat) : List QueueCall := (List.range count).map fun n => .enqueue zeroNonce (paymentBytes n)

theorem submit_payment (n : Nat) (q : Queue) :
    q.enqueue Gcm.sample numberingPrim zeroNonce (paymentBytes n) =
      .ok (ClientEvent.apply Gcm.sample numberingPrim offlineConfig q (.submit zeroNonce none (offlinePayment n))) := by
  have hsubmit : submitTx Gcm.sample numberingPrim offlineConfig zeroNonce none (offlinePayment n) q =
      putAway Gcm.sample numberingPrim zeroNonce (paymentBytes n) q := by
    unfold submitTx
    rw [Act.lift_bind (signTx_payment n), Act.lift_bind (serialize_payment n)]
  unfold ClientEvent.apply
  dsimp only
  rw [hsubmit]
  unfold putAway Queue.enqueue encrypt
  dsimp only [Go.ok_bind]
  split <;> rfl

theorem offline_calls (count : Nat) : runQueue Gcm.sample numberingPrim (paymentCalls count) =
    .ok (clientQueue Gcm.sample numberingPrim offlineConfig (offlinePayments count)) := by
  have key : ∀ (ns : List Nat) (q : Queue),
      (ns.map fun n => QueueCall.enqueue zeroNonce (paymentBytes n)).foldlM
        (QueueCall.apply Gcm.sample numberingPrim) q =
        .ok ((ns.map fun n => ClientEvent.submit zeroNonce none (offlinePayment n)).foldl
          (ClientEvent.apply Gcm.sample numberingPrim offlineConfig) q) := by
    intro ns
    induction ns with
    | nil => exact fun q => rfl
    | cons n ns ih =>
      intro q
      rw [List.map_cons, List.map_cons, List.foldlM_cons, List.foldl_cons]
      show (q.enqueue Gcm.sample numberingPrim zeroNonce (paymentBytes n) >>= _) = _
      rw [submit_payment, Go.ok_bind]
      exact ih _
  exact key (List.range count) openQueue

theorem handed_payment {count : Nat} {u : Tx} {b : List UInt8}
    (h : Handed numberingPrim offlineConfig (offlinePayments count) u b) :
    ∃ n < count, u = signedPayment n ∧ b = paymentBytes n := by
  obtain ⟨rand, link, t, hmem, hsign, hser⟩ := h
  obtain ⟨n, hn, heq⟩ := List.mem_map.mp hmem
  obtain ⟨-, -, rfl⟩ := ClientEvent.submit.inj heq
  obtain rfl := Go.ok.inj ((signTx_payment n).symm.trans hsign)
  exact ⟨n, List.mem_range.mp hn, rfl, Go.ok.inj (hser.symm.trans (serialize_payment n))⟩

theorem offline_apart {count : Nat} (hcount : count < 2 ^ 64) :
    Apart numberingPrim offlineConfig (offlinePayments count) := by
  intro t u a b ha hb heq
  obtain ⟨i, hi, -, rfl⟩ := handed_payment ha
  obtain ⟨j, hj, -, rfl⟩ := handed_payment hb
  rw [paymentBytes_inj (by omega) (by omega) heq]

theorem numbering_verifies (k : Key) (m : List UInt8) : numberingPrim.verify k m (numberingPrim.sign k m) = true := by
  simp [numberingPrim, Prim.sample]

theorem offline_valid (count : Nat) : ValidlySigned numberingPrim offlineConfig (offlinePayments count) := by
  intro u b h
  obtain ⟨n, -, rfl, -⟩ := handed_payment h
  refine signTx_valid numbering_verifies (signTx_payment n) fun b hb htype => ?_
  have htype : TxType.transfer = .other b hb := htype
  cases htype

theorem offline_drain {count : Nat} (hcount : count < 2 ^ 64) :
    (clientQueue Gcm.sample numberingPrim offlineConfig (offlinePayments count)).sequence < 2 ^ 64 ∧
    ∃ ks, (clientQueue Gcm.sample numberingPrim offlineConfig (offlinePayments count)).drain Gcm.sample =
      .ok (ks, (List.range count).map paymentBytes) := by
  have hrun := offline_calls count
  have hbound := (run_sequence_le hrun).2
  have hlength : (paymentCalls count).length = count := by simp [paymentCalls]
  have hseq : (clientQueue Gcm.sample numberingPrim offlineConfig (offlinePayments count)).sequence < 2 ^ 64 := by
    rw [hlength] at hbound
    exact Nat.lt_of_le_of_lt hbound (by simpa [openQueue] using hcount)
  have henqueued : ∀ i t, Enqueued (paymentCalls count) i t → ∃ n < count, t = paymentBytes n := by
    rintro i t ⟨rand, h⟩
    obtain ⟨n, hn, heq⟩ := List.mem_map.mp (List.mem_of_getElem? h)
    exact ⟨n, List.mem_range.mp hn, (QueueCall.enqueue.inj heq).2.symm⟩
  have hdist : Distinguished numberingPrim (paymentCalls count) := by
    intro i j t u ht hu heq
    obtain ⟨m, hm, rfl⟩ := henqueued i t ht
    obtain ⟨n, hn, rfl⟩ := henqueued j u hu
    rw [paymentBytes_inj (by omega) (by omega) heq]
  have hnodup : ((List.range count).map paymentBytes).Nodup := by
    refine List.Nodup.map_on (fun m hm n hn heq => ?_) List.nodup_range
    have hm := List.mem_range.mp hm
    have hn := List.mem_range.mp hn
    exact paymentBytes_inj (by omega) (by omega) (congrArg _ heq)
  have hspec : (paymentCalls count).map QueueCall.spec = ((List.range count).map paymentBytes).map .add := by
    unfold paymentCalls
    rw [List.map_map, List.map_map]
    rfl
  obtain ⟨ks, hdrain, -⟩ := (represents_run hrun hdist hseq).drain
  rw [hspec, Tickets.run_adds _ hnodup] at hdrain
  exact ⟨hseq, ks, hdrain⟩

theorem offline_batch {count : Nat} (hpos : 0 < count) (hcount : count < 2 ^ 64) :
    ∃ ks, flushBatch Gcm.sample (clientQueue Gcm.sample numberingPrim offlineConfig (offlinePayments count)) =
      some (ks, (List.range count).map paymentBytes) := by
  obtain ⟨-, ks, hdrain⟩ := offline_drain hcount
  refine ⟨ks, ?_⟩
  unfold flushBatch
  rw [hdrain]
  dsimp only
  rw [if_neg (by rw [List.length_map, List.length_range]; omega)]

theorem offline_refused {count : Nat} (hlong : maxBatchSize < count) (hcount : count < 2 ^ 64) :
    ∃ ks txs, flushBatch Gcm.sample (clientQueue Gcm.sample numberingPrim offlineConfig (offlinePayments count)) =
        some (ks, txs) ∧ txs.length = count ∧
      ∀ g l r broadcast resp, resp = (serveBatch numberingPrim offlineConfig.chainID g broadcast r txs l).1 →
        (∀ x, resp = .ok x → x.ok = false) ∧ ∀ q, endFlush ks (seen resp) q = q := by
  obtain ⟨ks, hbatch⟩ := offline_batch (Nat.zero_lt_of_lt hlong) hcount
  have hlength : ((List.range count).map paymentBytes).length = count := by rw [List.length_map, List.length_range]
  refine ⟨ks, _, hbatch, hlength, fun g l r broadcast resp hresp => ?_⟩
  have hfits : ¬ Fits g l r ((List.range count).map paymentBytes) := by
    intro hfits
    have hle := hfits.count
    rw [hlength] at hle
    omega
  have hrefused : ∀ x, resp = .ok x → x.ok = false :=
    fun x hx => serveBatch_refuses hfits broadcast (Prod.ext (hresp.symm.trans hx) rfl)
  exact ⟨hrefused, endFlush_refused hrefused⟩

/-- 1025 transactions queued offline: the node refuses their batch in whatever state it is, and
    they stay in the queue. -/
theorem long_queue_refused :
    ValidlySigned numberingPrim offlineConfig (offlinePayments 1025) ∧
    ∃ ks txs, flushBatch Gcm.sample (clientQueue Gcm.sample numberingPrim offlineConfig (offlinePayments 1025)) =
        some (ks, txs) ∧ txs.length = 1025 ∧
      ∀ g l r broadcast resp, resp = (serveBatch numberingPrim offlineConfig.chainID g broadcast r txs l).1 →
        (∀ x, resp = .ok x → x.ok = false) ∧ ∀ q, endFlush ks (seen resp) q = q :=
  ⟨offline_valid 1025, offline_refused (show 1024 < 1025 by decide) (show 1025 < 2 ^ 64 by decide)⟩

def quietRequest : Request := ⟨fun _ => none, .ok (), some [0x61], 0⟩

/-- Three bytes in front of each item. -/
def framing : Grpc := ⟨fun data => (data.map fun raw => raw.length + 3).sum, fun _ => .plain "message larger than max"⟩

theorem framing_framed : framing.Framed := fun _ => List.sum_le_sum fun _ _ => Nat.add_le_add_left (by decide) _

theorem payments_fit {count : Nat} (h : count ≤ maxBatchSize) :
    Fits framing newSubmitLimiter quietRequest ((List.range count).map paymentBytes) := by
  have hlength : ∀ n, (paymentBytes n).length = 287 := fun n => by
    simp only [paymentBytes, List.length_append, length_unsignedPayment, length_bytes]
  refine ⟨by rwa [List.length_map, List.length_range], (framing_framed _).trans ?_, Or.inr (Or.inl (by decide))⟩
  simp only [List.map_map, Function.comp_def, hlength, List.map_const', List.length_range, List.sum_replicate_nat]
  unfold maxBatchSize at h
  unfold maxRecvMsgSize
  omega

/-- Three payments leave the queue; a fourth, put away while they were under way, stays. -/
theorem flush_accepted_iff_several :
    ∃ ks, flushBatch Gcm.sample (clientQueue Gcm.sample numberingPrim offlineConfig (offlinePayments 3)) =
        some (ks, (List.range 3).map paymentBytes) ∧
      (serveBatch numberingPrim offlineConfig.chainID framing (fun _ => .ok ()) quietRequest
        ((List.range 3).map paymentBytes) newSubmitLimiter).1 = .ok ⟨true, ""⟩ ∧
      ∀ k t,
        (endFlush ks (.ok ⟨true, ""⟩) (clientQueue Gcm.sample numberingPrim offlineConfig (offlinePayments 4))).Drains
          Gcm.sample k t ↔
        (clientQueue Gcm.sample numberingPrim offlineConfig (offlinePayments 4)).Drains Gcm.sample k t ∧
          ¬ (clientQueue Gcm.sample numberingPrim offlineConfig (offlinePayments 3)).Drains Gcm.sample k t := by
  obtain ⟨ks, hbatch⟩ := offline_batch (show 0 < 3 by decide) (show 3 < 2 ^ 64 by decide)
  have hquiet : Quiet newSubmitLimiter quietRequest := fun state h => by cases h
  obtain ⟨ts, -, hall⟩ := flush_accepted_iff Gcm.sample numberingPrim ⟨fun _ _ => rfl, fun _ h => h⟩ offlineConfig
    (offlinePayments 3) [.submit zeroNonce none (offlinePayment 3)] (offline_valid 3) (@offline_apart 4 (by decide))
    (@offline_drain 4 (by decide)).1 ks _ hbatch framing newSubmitLimiter quietRequest ⟨fun _ => rfl, rfl⟩ hquiet
  obtain ⟨hiff, hleft, -⟩ := hall (fun _ => .ok ()) rfl _ rfl
  have hfits := @payments_fit 3 (by decide)
  have hleft := hleft hfits
  rw [hiff.mpr hfits] at hleft
  exact ⟨ks, hbatch, hiff.mpr hfits, hleft⟩

end Frg.Client
