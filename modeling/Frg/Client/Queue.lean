/-
  Frg.Client.Queue — the client's offline queue (`client/queue.go`).

  Two buckets of one database: `pending` has, under a sequence number, the hash of a transaction
  and its bytes sealed with AES-GCM; `hashes` has the hashes, to see that a transaction is queued
  already. A caller drains the queue, hands the transactions over and deletes the keys it got.
    - `queue_ordered_set`: along every sequence of calls the two buckets are one ordered set.
      Each queued transaction is drained once, in the order of the latest insertions; the hashes
      are those of the queued transactions; a key deletes what it was drained with, or nothing.
    - `represents_run`: the calls are those of `Tickets` on the bytes.
-/

import Frg.Core.Prim
import Frg.Lib.Bucket
import Frg.Lib.Tickets

namespace Frg.Client

open Frg.Lib Frg.Core

/-! ## The code -/

def nonceSize : Nat := 12

/-- AES-GCM under the queue's key. -/
structure Gcm where
  sealBytes : List UInt8 → List UInt8 → List UInt8
  openBytes : List UInt8 → List UInt8 → Option (List UInt8)
  open_seal : ∀ {nonce : List UInt8}, nonce.length = nonceSize →
    ∀ plain, openBytes nonce (sealBytes nonce plain) = some plain

structure Queue where
  pending : Bucket (Word 8) (List UInt8)
  hashes : Bucket Hash (List UInt8)
  /-- The sequence of `pending`, not wrapped. -/
  sequence : Nat

def openQueue : Queue := ⟨.empty, .empty, 0⟩

variable (G : Gcm) (P : Prim)

/-- `rand` is what the random source gives for the nonce. -/
def encrypt (rand : Res (Word 12)) (plain : List UInt8) : Res (List UInt8) := do
  let nonce ← rand
  .ok (nonce.bytes ++ G.sealBytes nonce.bytes plain)

def decrypt (data : List UInt8) : Res (List UInt8) :=
  if data.length < nonceSize then .err (.plain "ciphertext too short")
  else
    match G.openBytes (data.take nonceSize) (data.drop nonceSize) with
    | none => .err (.plain "cipher: message authentication failed")
    | some plain => .ok plain

/-- `binary.BigEndian.PutUint64` of a sequence number. -/
def sequenceKey (seq : Nat) : Word 8 := Fin.ofNat _ seq

def Queue.enqueue (q : Queue) (rand : Res (Word 12)) (txBytes : List UInt8) : Res Queue := do
  let h := P.hash txBytes
  let ciphertext ← encrypt G rand txBytes
  if (q.hashes.get h).isSome then .ok q
  else
    let seq := q.sequence + 1
    .ok { pending := q.pending.put (sequenceKey seq) (h.bytes ++ ciphertext), hashes := q.hashes.put h [1]
          sequence := seq }

/-- The keys and transactions `Drain` collects, pair by pair. -/
def Queue.drainPairs (q : Queue) : Res (List (Word 8 × List UInt8)) :=
  (q.pending.entries.filter fun e => decide (32 ≤ e.2.length)).mapM fun e => do
    let plain ← decrypt G (e.2.drop 32)
    .ok (e.1, plain)

def Queue.drain (q : Queue) : Res (List (Word 8) × List (List UInt8)) := do
  let pairs ← q.drainPairs G
  .ok (pairs.map (·.1), pairs.map (·.2))

def Queue.deleteKey (q : Queue) (k : Word 8) : Queue :=
  let v := (q.pending.get k).getD []
  { q with
    hashes := if 32 ≤ v.length then q.hashes.delete (wordOf 32 (v.take 32)) else q.hashes
    pending := q.pending.delete k }

def Queue.deleteKeys (q : Queue) (ks : List (Word 8)) : Queue := ks.foldl Queue.deleteKey q

/-! ## Sequences of calls -/

inductive QueueCall where
  | enqueue (rand : Res (Word 12)) (txBytes : List UInt8)
  | deleteKeys (ks : List (Word 8))

def QueueCall.apply (q : Queue) : QueueCall → Res Queue
  | .enqueue rand txBytes => q.enqueue G P rand txBytes
  | .deleteKeys ks => .ok (q.deleteKeys ks)

/-- The queue after some calls, none of which failed. -/
def runQueue (calls : List QueueCall) : Res Queue := calls.foldlM (QueueCall.apply G P) openQueue

/-- `Drain` gives the transaction under the key. -/
def Queue.Drains (q : Queue) (k : Word 8) (t : List UInt8) : Prop :=
  ∃ ks ts, q.drain G = .ok (ks, ts) ∧ (k, t) ∈ ks.zip ts

def Enqueued (calls : List QueueCall) (i : Nat) (t : List UInt8) : Prop :=
  ∃ rand, calls[i]? = some (.enqueue rand t)

/-- The call at place `i` finds the transaction missing and inserts it. -/
def Inserted (calls : List QueueCall) (i : Nat) (t : List UInt8) : Prop :=
  Enqueued calls i t ∧ ∃ q, runQueue G P (calls.take i) = .ok q ∧ ∀ k, ¬ q.Drains G k t

/-- The call at place `i` deletes the key the transaction is under. -/
def Deleted (calls : List QueueCall) (i : Nat) (t : List UInt8) : Prop :=
  ∃ ks k q, calls[i]? = some (.deleteKeys ks) ∧ k ∈ ks ∧ runQueue G P (calls.take i) = .ok q ∧ q.Drains G k t

def LatestInsertion (calls : List QueueCall) (i : Nat) (t : List UInt8) : Prop :=
  Inserted G P calls i t ∧ ∀ j, i < j → ¬ Inserted G P calls j t

variable {G : Gcm} {P : Prim} {q q' : Queue} {T : Tickets (List UInt8)}

theorem decrypt_sealed (nonce : Word 12) (plain : List UInt8) :
    decrypt G (nonce.bytes ++ G.sealBytes nonce.bytes plain) = .ok plain := by
  have hlen : nonce.bytes.length = nonceSize := length_bytes nonce
  unfold decrypt
  rw [if_neg (by rw [List.length_append]; omega), List.take_left' hlen, List.drop_left' hlen, G.open_seal hlen]

/-! ## The queue as an ordered set with tickets -/

/-- The record of a transaction in `pending`. -/
def Record (G : Gcm) (P : Prim) (t v : List UInt8) : Prop :=
  ∃ nonce : Word 12, v = (P.hash t).bytes ++ (nonce.bytes ++ G.sealBytes nonce.bytes t)

structure Represents (G : Gcm) (P : Prim) (q : Queue) (T : Tickets (List UInt8)) : Prop where
  numbered : q.sequence = T.last
  records : List.Forall₂ (fun e x => e.1.val = x.1 ∧ Record G P x.2 e.2) q.pending.entries T.items
  hashed : ∀ h, (q.hashes.get h).isSome ↔ ∃ t ∈ T.values, P.hash t = h

theorem represents_open (G : Gcm) (P : Prim) : Represents G P openQueue .empty := by
  refine ⟨rfl, .nil, fun h => ⟨fun hs => ?_, ?_⟩⟩
  · cases hs
  · rintro ⟨t, ht, -⟩
    exact absurd ht List.not_mem_nil

theorem Record.length_le {t v : List UInt8} (h : Record G P t v) : 32 ≤ v.length := by
  obtain ⟨nonce, hv⟩ := h
  rw [hv, List.length_append, length_bytes]
  exact Nat.le_add_right _ _

theorem Record.hash {t v : List UInt8} (h : Record G P t v) : wordOf 32 (v.take 32) = P.hash t := by
  obtain ⟨nonce, hv⟩ := h
  rw [hv, List.take_left' (length_bytes _), wordOf_bytes]

theorem Record.decrypt {t v : List UInt8} (h : Record G P t v) : decrypt G (v.drop 32) = .ok t := by
  obtain ⟨nonce, hv⟩ := h
  rw [hv, List.drop_left' (length_bytes _), decrypt_sealed]

theorem Represents.drainPairs (h : Represents G P q T) :
    ∃ l, q.drainPairs G = .ok l ∧ l.map (fun y => (y.1.val, y.2)) = T.items := by
  have key : ∀ {es : List (Word 8 × List UInt8)} {xs : List (Nat × List UInt8)},
      List.Forall₂ (fun e x => e.1.val = x.1 ∧ Record G P x.2 e.2) es xs →
      ∃ l, ((es.filter fun e => decide (32 ≤ e.2.length)).mapM fun e => do
          let plain ← decrypt G (e.2.drop 32)
          (.ok (e.1, plain) : Res _)) = .ok l ∧ l.map (fun y => (y.1.val, y.2)) = xs := by
    intro es xs hrec
    induction hrec with
    | nil => exact ⟨[], rfl, rfl⟩
    | @cons e x es xs hex _ ih =>
      obtain ⟨l, hl, hxs⟩ := ih
      refine ⟨(e.1, x.2) :: l, ?_, ?_⟩
      · rw [List.filter_cons_of_pos (by simpa using hex.2.length_le), List.mapM_cons, hl, hex.2.decrypt]
        rfl
      · rw [List.map_cons, hxs]
        exact congrArg (· :: xs) (Prod.ext hex.1 rfl)
  exact key h.records

theorem Represents.drain (h : Represents G P q T) : ∃ ks, q.drain G = .ok (ks, T.values) ∧
    ks.length = T.values.length ∧ ∀ k t, (k, t) ∈ ks.zip T.values ↔ (k.val, t) ∈ T.items := by
  obtain ⟨l, hl, hitems⟩ := h.drainPairs
  have hvalues : T.values = l.map (·.2) := by
    unfold Tickets.values
    rw [← hitems, List.map_map]
    rfl
  have hzip : (l.map (·.1)).zip (l.map (·.2)) = l := by
    rw [List.zip_map', List.map_id'']
    intro x
    rfl
  refine ⟨l.map (·.1), ?_, by rw [hvalues, List.length_map, List.length_map], fun k t => ?_⟩
  · unfold Queue.drain
    rw [hl, hvalues]
    rfl
  · rw [hvalues, hzip, ← hitems, List.mem_map]
    constructor
    · exact fun hk => ⟨(k, t), hk, rfl⟩
    · rintro ⟨⟨j, u⟩, hj, heq⟩
      obtain ⟨hjk, rfl⟩ := Prod.mk.inj heq
      rwa [← Fin.ext hjk]

theorem Represents.drains_iff (h : Represents G P q T) {k : Word 8} {t : List UInt8} :
    q.Drains G k t ↔ (k.val, t) ∈ T.items := by
  obtain ⟨ks, hks, -, hzip⟩ := h.drain
  rw [← hzip]
  constructor
  · rintro ⟨ks', ts, hd, hmem⟩
    obtain ⟨rfl, rfl⟩ := Prod.mk.inj (Go.ok.inj (hks.symm.trans hd))
    exact hmem
  · exact fun hmem => ⟨ks, T.values, hks, hmem⟩

theorem Represents.bounded (h : Represents G P q T) : ∀ x ∈ T.items, x.1 < 256 ^ 8 := by
  intro x hx
  obtain ⟨e, -, he, -⟩ := Go.forall₂_left h.records hx
  rw [← he]
  exact e.1.isLt

theorem Represents.record (h : Represents G P q T) {k : Word 8} {t : List UInt8} (ht : (k.val, t) ∈ T.items) :
    ∃ v, q.pending.get k = some v ∧ Record G P t v := by
  obtain ⟨e, he, hval, hrec⟩ := Go.forall₂_left h.records ht
  refine ⟨e.2, ?_, hrec⟩
  rw [← Fin.ext hval]
  exact Bucket.mem_entries.mp he

theorem Represents.element (h : Represents G P q T) {k : Word 8} {v : List UInt8} (hv : q.pending.get k = some v) :
    ∃ t, (k.val, t) ∈ T.items ∧ Record G P t v := by
  obtain ⟨x, hx, hval, hrec⟩ := Go.forall₂_left h.records.flip (Bucket.mem_entries.mpr hv)
  refine ⟨x.2, ?_, hrec⟩
  rw [show k.val = x.1 from hval]
  exact hx

theorem Represents.drains_none (h : Represents G P q T) {t : List UInt8} :
    (∀ k, ¬ q.Drains G k t) ↔ t ∉ T.values := by
  rw [Tickets.mem_values, not_exists]
  constructor
  · intro hnone k hk
    have hlt : k < 256 ^ 8 := h.bounded _ hk
    exact hnone ⟨k, hlt⟩ (h.drains_iff.mpr hk)
  · exact fun hnone k hk => hnone k.val (h.drains_iff.mp hk)

/-! ## One call -/

theorem sequenceKey_val {seq : Nat} (h : seq < 2 ^ 64) : (sequenceKey seq).val = seq := by
  have hpow : (256 : Nat) ^ 8 = 2 ^ 64 := by decide
  show seq % 256 ^ 8 = seq
  rw [hpow]
  exact Nat.mod_eq_of_lt h

theorem enqueue_cases {rand : Res (Word 12)} {t : List UInt8} (h : q.enqueue G P rand t = .ok q') :
    ((q.hashes.get (P.hash t)).isSome ∧ q' = q) ∨
    (¬ (q.hashes.get (P.hash t)).isSome ∧ ∃ v, Record G P t v ∧
      q' = ⟨q.pending.put (sequenceKey (q.sequence + 1)) v, q.hashes.put (P.hash t) [1], q.sequence + 1⟩) := by
  unfold Queue.enqueue encrypt at h
  obtain ⟨c, hc, h⟩ := Go.bind_eq_ok.mp h
  obtain ⟨nonce, -, hc⟩ := Go.bind_eq_ok.mp hc
  obtain rfl := Go.ok.inj hc
  split at h
  · rename_i hs
    exact Or.inl ⟨hs, (Go.ok.inj h).symm⟩
  · rename_i hs
    exact Or.inr ⟨hs, _, ⟨nonce, rfl⟩, (Go.ok.inj h).symm⟩

theorem Represents.enqueue (h : Represents G P q T) {rand : Res (Word 12)} {t : List UInt8}
    (hq : q.enqueue G P rand t = .ok q') (hno : ∀ u ∈ T.values, NoCollision P.hash u t)
    (hseq : q'.sequence < 2 ^ 64) : Represents G P q' (T.add t) := by
  have hpresent : (q.hashes.get (P.hash t)).isSome ↔ t ∈ T.values := by
    rw [h.hashed]
    constructor
    · rintro ⟨u, hu, heq⟩
      rw [← hno u hu heq]
      exact hu
    · exact fun ht => ⟨t, ht, rfl⟩
  rcases enqueue_cases hq with ⟨hs, rfl⟩ | ⟨hs, v, hv, rfl⟩
  · rw [Tickets.add_of_mem (hpresent.mp hs)]
    exact h
  · have ht : t ∉ T.values := fun ht => hs (hpresent.mpr ht)
    have hkey : (sequenceKey (q.sequence + 1)).val = T.last + 1 := by
      rw [sequenceKey_val hseq, h.numbered]
    rw [Tickets.add_of_notMem ht]
    refine ⟨congrArg (· + 1) h.numbered, ?_, fun hash => ?_⟩
    · have hlast : ∀ e ∈ q.pending.entries, e.1 < sequenceKey (q.sequence + 1) := by
        intro e he
        obtain ⟨x, hx, hex, -⟩ := Go.forall₂_left h.records.flip he
        rw [Fin.lt_def, hex, hkey]
        exact Nat.lt_succ_of_le (T.issued x hx)
      show List.Forall₂ _ (q.pending.put _ v).entries (T.items ++ [(T.last + 1, t)])
      rw [Bucket.entries_put_last hlast]
      exact List.rel_append h.records (.cons ⟨hkey, hv⟩ .nil)
    · show ((q.hashes.put (P.hash t) [1]).get hash).isSome ↔ ∃ u ∈ (T.push t ht).values, P.hash u = hash
      have hvalues : (T.push t ht).values = T.values ++ [t] := List.map_append
      rw [Bucket.get_put, hvalues]
      by_cases hhash : hash = P.hash t
      · rw [if_pos hhash]
        exact ⟨fun _ => ⟨t, List.mem_append_right _ List.mem_cons_self, hhash.symm⟩, fun _ => rfl⟩
      · rw [if_neg hhash, h.hashed]
        constructor
        · rintro ⟨u, hu, heq⟩
          exact ⟨u, List.mem_append_left _ hu, heq⟩
        · rintro ⟨u, hu, heq⟩
          rcases List.mem_append.mp hu with hu | hu
          · exact ⟨u, hu, heq⟩
          · rw [List.mem_singleton.mp hu] at heq
            exact absurd heq.symm hhash

theorem Represents.deleteKey (h : Represents G P q T) (hno : ∀ u ∈ T.values, ∀ v ∈ T.values, NoCollision P.hash u v)
    (k : Word 8) : Represents G P (q.deleteKey k) (T.drop [k.val]) := by
  refine ⟨h.numbered, ?_, fun hash => ?_⟩
  · show List.Forall₂ _ (q.pending.delete k).entries (T.items.filter _)
    rw [Bucket.entries_delete]
    refine List.rel_filter (fun {e x} hex => ?_) h.records
    have hsame : e.1 = k ↔ x.1 = k.val := by rw [← hex.1, Fin.ext_iff]
    simp [hsame]
  · show (Bucket.get (if _ then _ else _) hash).isSome ↔ _
    cases hk : q.pending.get k with
    | none =>
      -- no element has the ticket, and both sides stay as they are
      have hfree : ∀ t, (k.val, t) ∉ T.items := fun t ht => by
        obtain ⟨v, hv, -⟩ := h.record ht
        rw [hk] at hv
        cases hv
      rw [if_neg (by decide), h.hashed]
      simp only [Tickets.mem_drop_one, hfree, not_false_eq_true, and_true]
    | some v =>
      obtain ⟨t, ht, hrec⟩ := h.element hk
      have hunder : ∀ u, (k.val, u) ∈ T.items ↔ u = t :=
        fun u => ⟨fun hu => Tickets.ticket_unique hu ht, fun hu => hu ▸ ht⟩
      have hin : t ∈ T.values := Tickets.mem_values.mpr ⟨_, ht⟩
      rw [Option.getD_some, if_pos hrec.length_le, hrec.hash, Bucket.get_delete]
      simp only [Tickets.mem_drop_one, hunder]
      split
      · rename_i hhash
        refine ⟨fun hs => absurd hs Bool.false_ne_true, ?_⟩
        rintro ⟨u, ⟨hu, hne⟩, heq⟩
        exact absurd (hno u hu t hin (heq.trans hhash)) hne
      · rename_i hhash
        rw [h.hashed]
        constructor
        · rintro ⟨u, hu, heq⟩
          exact ⟨u, ⟨hu, fun hut => hhash (by rw [← heq, hut])⟩, heq⟩
        · rintro ⟨u, ⟨hu, -⟩, heq⟩
          exact ⟨u, hu, heq⟩

theorem Represents.deleteKeys {ks : List (Word 8)} : ∀ {q : Queue} {T : Tickets (List UInt8)}, Represents G P q T →
    (∀ u ∈ T.values, ∀ v ∈ T.values, NoCollision P.hash u v) →
    Represents G P (q.deleteKeys ks) (T.drop (ks.map (·.val))) := by
  induction ks with
  | nil =>
    intro q T h _
    rw [List.map_nil, Tickets.drop_nil]
    exact h
  | cons k ks ih =>
    intro q T h hno
    rw [List.map_cons, Tickets.drop_cons]
    refine ih (h.deleteKey hno k) fun u hu v hv => ?_
    exact hno u (Tickets.mem_drop_one.mp hu).1 v (Tickets.mem_drop_one.mp hv).1

/-! ## Runs -/

/-- The call on the set of transactions. -/
def QueueCall.spec : QueueCall → Tickets.Call (List UInt8)
  | .enqueue _ txBytes => .add txBytes
  | .deleteKeys ks => .drop (ks.map (·.val))

theorem runQueue_append {before after : List QueueCall} :
    runQueue G P (before ++ after) = .ok q' ↔
      ∃ q, runQueue G P before = .ok q ∧ after.foldlM (QueueCall.apply G P) q = .ok q' := by
  unfold runQueue
  rw [List.foldlM_append, Go.bind_eq_ok]

theorem deleteKeys_sequence (ks : List (Word 8)) : ∀ q : Queue, (q.deleteKeys ks).sequence = q.sequence := by
  induction ks with
  | nil => exact fun _ => rfl
  | cons k ks ih => exact fun q => ih (q.deleteKey k)

theorem apply_sequence_le {c : QueueCall} (h : c.apply G P q = .ok q') :
    q.sequence ≤ q'.sequence ∧ q'.sequence ≤ q.sequence + 1 := by
  cases c with
  | enqueue rand t =>
    rcases enqueue_cases h with ⟨-, rfl⟩ | ⟨-, v, -, rfl⟩
    · exact ⟨Nat.le_refl _, Nat.le_succ _⟩
    · exact ⟨Nat.le_succ _, Nat.le_refl _⟩
  | deleteKeys ks =>
    obtain rfl := Go.ok.inj h
    rw [deleteKeys_sequence]
    exact ⟨Nat.le_refl _, Nat.le_succ _⟩

theorem run_sequence_le {calls : List QueueCall} : ∀ {q : Queue}, calls.foldlM (QueueCall.apply G P) q = .ok q' →
    q.sequence ≤ q'.sequence ∧ q'.sequence ≤ q.sequence + calls.length := by
  induction calls with
  | nil =>
    intro q h
    obtain rfl := Go.ok.inj h
    exact ⟨Nat.le_refl _, Nat.le_refl _⟩
  | cons c calls ih =>
    intro q h
    rw [List.foldlM_cons, Go.bind_eq_ok] at h
    obtain ⟨q1, h1, h⟩ := h
    have hfirst := apply_sequence_le h1
    have hrest := ih h
    rw [List.length_cons]
    omega

/-- No two enqueued transactions have the same hash. -/
def Distinguished (P : Prim) (calls : List QueueCall) : Prop :=
  ∀ i j t u, Enqueued calls i t → Enqueued calls j u → NoCollision P.hash t u

theorem enqueued_iff {calls : List QueueCall} {i : Nat} {t : List UInt8} :
    Enqueued calls i t ↔ Tickets.At (fun _ c => c = .add t) (calls.map QueueCall.spec) i := by
  unfold Enqueued Tickets.At
  rw [List.getElem?_map]
  constructor
  · rintro ⟨rand, h⟩
    rw [h]
    exact ⟨_, rfl, rfl⟩
  · rintro ⟨c, hc, rfl⟩
    obtain ⟨c, h, hspec⟩ := Option.map_eq_some_iff.mp hc
    cases c with
    | enqueue rand u =>
      obtain rfl : u = t := Tickets.Call.add.inj hspec
      exact ⟨rand, h⟩
    | deleteKeys ks => cases hspec

theorem Enqueued.append {calls : List QueueCall} {i : Nat} {t : List UInt8} (h : Enqueued calls i t)
    (after : List QueueCall) : Enqueued (calls ++ after) i t := by
  obtain ⟨rand, h⟩ := h
  refine ⟨rand, ?_⟩
  rw [List.getElem?_append_left (List.getElem?_eq_some_iff.mp h).1]
  exact h

theorem Distinguished.of_append {before after : List QueueCall} (h : Distinguished P (before ++ after)) :
    Distinguished P before := fun i j t u ht hu => h i j t u (ht.append after) (hu.append after)

theorem enqueued_of_mem {calls : List QueueCall} {t : List UInt8}
    (h : t ∈ (Tickets.run (calls.map QueueCall.spec)).values) : ∃ i, Enqueued calls i t := by
  obtain ⟨i, hi, -⟩ := (Tickets.mem_run_iff _ t).mp h
  exact ⟨i, enqueued_iff.mpr hi⟩

theorem represents_run {calls : List QueueCall} (hrun : runQueue G P calls = .ok q) (hno : Distinguished P calls)
    (hseq : q.sequence < 2 ^ 64) : Represents G P q (Tickets.run (calls.map QueueCall.spec)) := by
  induction calls using List.reverseRecOn generalizing q with
  | nil =>
    obtain rfl := Go.ok.inj hrun
    exact represents_open G P
  | append_singleton calls c ih =>
    obtain ⟨q0, hrun, hlast⟩ := runQueue_append.mp hrun
    have hle := run_sequence_le hlast
    have hrep := ih hrun hno.of_append (by omega)
    have happly : c.apply G P q0 = .ok q := by
      rw [List.foldlM_cons, Go.bind_eq_ok] at hlast
      obtain ⟨q1, hq1, hlast⟩ := hlast
      obtain rfl := Go.ok.inj hlast
      exact hq1
    rw [List.map_append, List.map_singleton, Tickets.run_snoc]
    cases c with
    | enqueue rand t =>
      refine hrep.enqueue happly (fun u hu => ?_) hseq
      obtain ⟨i, hi⟩ := enqueued_of_mem hu
      exact hno i calls.length u t (hi.append _) ⟨rand, List.getElem?_concat_length⟩
    | deleteKeys ks =>
      obtain rfl := Go.ok.inj happly
      refine hrep.deleteKeys fun u hu v hv => ?_
      obtain ⟨i, hi⟩ := enqueued_of_mem hu
      obtain ⟨j, hj⟩ := enqueued_of_mem hv
      exact hno i j u v (hi.append _) (hj.append _)

theorem represents_take {calls : List QueueCall} (hrun : runQueue G P calls = .ok q) (hno : Distinguished P calls)
    (hseq : q.sequence < 2 ^ 64) (i : Nat) :
    ∃ q0, runQueue G P (calls.take i) = .ok q0 ∧
      Represents G P q0 (Tickets.run ((calls.map QueueCall.spec).take i)) := by
  rw [← List.take_append_drop i calls] at hrun hno
  obtain ⟨q0, hrun, hrest⟩ := runQueue_append.mp hrun
  have hle := run_sequence_le hrest
  refine ⟨q0, hrun, ?_⟩
  rw [← List.map_take]
  exact represents_run hrun hno.of_append (by omega)

theorem inserted_iff {calls : List QueueCall} (hrun : runQueue G P calls = .ok q) (hno : Distinguished P calls)
    (hseq : q.sequence < 2 ^ 64) {i : Nat} {t : List UInt8} :
    Inserted G P calls i t ↔ Tickets.At (fun T c => c.Inserts T t) (calls.map QueueCall.spec) i := by
  obtain ⟨q0, hq0, hrep⟩ := represents_take hrun hno hseq i
  unfold Inserted
  rw [enqueued_iff]
  constructor
  · rintro ⟨⟨c, hc, rfl⟩, q1, hq1, hnone⟩
    obtain rfl := Go.ok.inj (hq0.symm.trans hq1)
    exact ⟨_, hc, rfl, hrep.drains_none.mp hnone⟩
  · rintro ⟨c, hc, hadd, hnot⟩
    exact ⟨⟨c, hc, hadd⟩, q0, hq0, hrep.drains_none.mpr hnot⟩

theorem deleted_iff {calls : List QueueCall} (hrun : runQueue G P calls = .ok q) (hno : Distinguished P calls)
    (hseq : q.sequence < 2 ^ 64) {i : Nat} {t : List UInt8} :
    Deleted G P calls i t ↔ Tickets.At (fun T c => c.Drops T t) (calls.map QueueCall.spec) i := by
  obtain ⟨q0, hq0, hrep⟩ := represents_take hrun hno hseq i
  constructor
  · rintro ⟨ks, k, q1, hc, hk, hq1, hd⟩
    obtain rfl := Go.ok.inj (hq0.symm.trans hq1)
    refine ⟨.drop (ks.map (·.val)), ?_, _, k.val, rfl, List.mem_map_of_mem hk, hrep.drains_iff.mp hd⟩
    rw [List.getElem?_map, hc]
    rfl
  · rintro ⟨c, hc, ks', k', rfl, hk, hitem⟩
    rw [List.getElem?_map] at hc
    obtain ⟨c, h, hspec⟩ := Option.map_eq_some_iff.mp hc
    cases c with
    | enqueue rand u => cases hspec
    | deleteKeys ks =>
      obtain rfl := Tickets.Call.drop.inj hspec
      obtain ⟨k, hmem, rfl⟩ := List.mem_map.mp hk
      exact ⟨ks, k, q0, h, hmem, hq0, hrep.drains_iff.mpr hitem⟩

/-- The keys of an earlier `Drain` delete what it gave, and nothing that came after it. -/
theorem deleteKeys_drained {before after : List QueueCall} {q0 q1 : Queue} {ks : List (Word 8)}
    {txs : List (List UInt8)} (hrun : runQueue G P before = .ok q0)
    (hrun1 : runQueue G P (before ++ after) = .ok q1) (hno : Distinguished P (before ++ after))
    (hseq : q1.sequence < 2 ^ 64) (hdrain : q0.drain G = .ok (ks, txs)) (k : Word 8) (t : List UInt8) :
    (q1.deleteKeys ks).Drains G k t ↔ q1.Drains G k t ∧ ¬ q0.Drains G k t := by
  have hrep1 := represents_run hrun1 hno hseq
  have hle : q0.sequence ≤ q1.sequence := by
    obtain ⟨q, hq, hafter⟩ := runQueue_append.mp hrun1
    obtain rfl := Go.ok.inj (hrun.symm.trans hq)
    exact (run_sequence_le hafter).1
  have hrep0 := represents_run hrun hno.of_append (by omega)
  have hkeys : k ∈ ks ↔ ∃ u, q0.Drains G k u := by
    obtain ⟨ks', hks', hlength, -⟩ := hrep0.drain
    obtain ⟨rfl, rfl⟩ := Prod.mk.inj (Go.ok.inj (hks'.symm.trans hdrain))
    constructor
    · intro hk
      obtain ⟨n, hn, rfl⟩ := List.mem_iff_getElem.mp hk
      have hn' : n < (Tickets.run (before.map QueueCall.spec)).values.length := hlength ▸ hn
      exact ⟨_, _, _, hdrain, List.mem_iff_getElem.mpr ⟨n, by rw [List.length_zip]; omega, List.getElem_zip⟩⟩
    · rintro ⟨u, ks2, ts2, hd, hmem⟩
      obtain ⟨rfl, rfl⟩ := Prod.mk.inj (Go.ok.inj (hdrain.symm.trans hd))
      exact (List.of_mem_zip hmem).1
  have hdeleted : Represents G P (q1.deleteKeys ks)
      ((Tickets.run ((before ++ after).map QueueCall.spec)).drop (ks.map (·.val))) := by
    refine hrep1.deleteKeys fun u hu v hv => ?_
    obtain ⟨i, hi⟩ := enqueued_of_mem hu
    obtain ⟨j, hj⟩ := enqueued_of_mem hv
    exact hno i j u v hi hj
  rw [hdeleted.drains_iff, Tickets.mem_drop, hrep1.drains_iff]
  refine and_congr_right fun ht => not_congr ?_
  have hmap : k.val ∈ ks.map (·.val) ↔ k ∈ ks := List.mem_map_of_injective Fin.val_injective
  rw [hmap, hkeys]
  constructor
  · rintro ⟨u, hu⟩
    have hsame : u = t := by
      rw [List.map_append] at ht
      exact Tickets.ticket_names (hrep0.drains_iff.mp hu) ht
    rw [← hsame]
    exact hu
  · exact fun hd => ⟨t, hd⟩

/-- The queue is an ordered set of transactions. -/
theorem queue_ordered_set (G : Gcm) (P : Prim) (calls : List QueueCall) (q : Queue)
    (hrun : runQueue G P calls = .ok q) (hno : Distinguished P calls) (hseq : q.sequence < 2 ^ 64) :
    ∃ ks txs, q.drain G = .ok (ks, txs) ∧ ks.length = txs.length ∧ txs.Nodup ∧
      (∃ place : List UInt8 → Nat, (∀ t ∈ txs, LatestInsertion G P calls (place t) t) ∧
        txs.Pairwise fun t u => place t < place u) ∧
      (∀ h, (q.hashes.get h).isSome ↔ ∃ t ∈ txs, P.hash t = h) ∧
      (∀ t, t ∈ txs ↔ ∃ i, Enqueued calls i t ∧ ∀ j, i < j → ¬ Deleted G P calls j t) ∧
      ∀ i q0 k t u, runQueue G P (calls.take i) = .ok q0 → q0.Drains G k t → q.Drains G k u → t = u := by
  have hrep := represents_run hrun hno hseq
  obtain ⟨ks, hdrain, hlength, -⟩ := hrep.drain
  refine ⟨ks, _, hdrain, hlength, Tickets.distinct _, ?_, hrep.hashed, fun t => ?_, ?_⟩
  · obtain ⟨place, hlatest, hsorted⟩ := Tickets.run_latest (calls.map QueueCall.spec)
    refine ⟨place, fun t ht => ?_, hsorted⟩
    unfold LatestInsertion
    simp only [inserted_iff hrun hno hseq]
    exact hlatest t ht
  · rw [Tickets.mem_run_iff]
    simp only [enqueued_iff, deleted_iff hrun hno hseq]
  · intro i q0 k t u hq0 ht hu
    obtain ⟨q1, hq1, hrep0⟩ := represents_take hrun hno hseq i
    obtain rfl := Go.ok.inj (hq1.symm.trans hq0)
    have ht := hrep0.drains_iff.mp ht
    have hu := hrep.drains_iff.mp hu
    rw [← List.take_append_drop i (calls.map QueueCall.spec)] at hu
    exact Tickets.ticket_names ht hu

/-! A transaction that is enqueued again, and the key it had before. -/

def Gcm.sample : Gcm where
  sealBytes _ plain := plain
  openBytes _ data := some data
  open_seal _ _ := rfl

def staleCalls : List QueueCall :=
  [.enqueue (.ok 7) [1], .enqueue (.ok 8) [2], .deleteKeys [1], .enqueue (.ok 9) [1], .deleteKeys [1, 1]]

theorem staleCalls_distinguished : Distinguished Prim.sample staleCalls := by
  have henq : ∀ i t, Enqueued staleCalls i t → t = [1] ∨ t = [2] := by
    rintro i t ⟨rand, h⟩
    have hmem := List.mem_of_getElem? h
    simp only [staleCalls, List.mem_cons, QueueCall.enqueue.injEq, reduceCtorEq, false_or, List.not_mem_nil] at hmem
    tauto
  have hne : Prim.sample.hash [1] ≠ Prim.sample.hash [2] := by decide
  intro i j t u ht hu heq
  rcases henq i t ht with rfl | rfl <;> rcases henq j u hu with rfl | rfl
  · rfl
  · exact absurd heq hne
  · exact absurd heq.symm hne
  · rfl

theorem staleCalls_run : ∃ q, runQueue Gcm.sample Prim.sample staleCalls = .ok q ∧ q.sequence = 3 ∧
    q.drain Gcm.sample = .ok ([2, 3], [[2], [1]]) := ⟨_, rfl, rfl, rfl⟩

theorem queue_ordered_set_stale :
    ∃ q, runQueue Gcm.sample Prim.sample staleCalls = .ok q ∧ q.drain Gcm.sample = .ok ([2, 3], [[2], [1]]) ∧
      ∃ ks txs, q.drain Gcm.sample = .ok (ks, txs) ∧ ks.length = txs.length ∧ txs.Nodup := by
  obtain ⟨q, hrun, hseq, hfinal⟩ := staleCalls_run
  obtain ⟨ks, txs, hdrain, hlen, hnodup, -⟩ :=
    queue_ordered_set Gcm.sample Prim.sample staleCalls q hrun staleCalls_distinguished (by rw [hseq]; decide)
  exact ⟨q, hrun, hfinal, ks, txs, hdrain, hlen, hnodup⟩

end Frg.Client
