/-
  Frg.Consensus.PoolIndex — the mempool as the block loop keeps it
  (`core/blockloop/blockloop.go`): a linked list of transactions and a map from their IDs to
  the elements of the list.

  `Enqueue` looks its transaction up in the map and pushes it behind the others. At capacity it
  removes the front first, and computes the ID of that transaction again to delete it from the
  map. `OnCommit` and `OnReject` compute the ID of each transaction of the block, and remove the
  element the map has for it. Nothing but these three keeps the list and the map together.

    - `logged_run`: along every sequence of calls the map has exactly the IDs of the queue, and
      the address of an element is the number of the insertion it came from.
    - `mempool_structure`: what follows for the queue, its order, its size and its proposals.
    - `represents_run`, `linked_pool_refines`: the calls are those on the one list of `Mempool`,
      which the engine is verified with.
-/

import Frg.Consensus.BlockLoop
import Frg.Lib.Elements

namespace Frg.Consensus

open Frg.Lib Frg.Core Frg.Wire Frg.Chain

/-! ## The code -/

structure LinkedMempool where
  queue : Elements Tx
  index : Bucket Hash Nat
  cap : Nat

namespace LinkedMempool

def new (cap : Nat) : LinkedMempool := ⟨.new, .empty, cap⟩

def len (m : LinkedMempool) : Nat := m.queue.len

def snapshot (m : LinkedMempool) : List Tx := m.queue.values

variable (P : Prim)

/-- The ID a transaction has, if it has one. -/
def idOf (t : Tx) : Option Hash := (t.id P).toOption

/-- At capacity the front is dropped. An error of its `ID` would leave the zero ID. -/
def dropOldest (m : LinkedMempool) : LinkedMempool :=
  if m.cap ≤ m.queue.len then
    match m.queue.front with
    | some (front, oldest) =>
      { m with index := m.index.delete ((idOf P oldest).getD 0), queue := m.queue.remove front }
    | none => m
  else m

def enqueue (m : LinkedMempool) (t : Tx) : LinkedMempool :=
  match idOf P t with
  | none => m
  | some id =>
    if (m.index.get id).isSome then m
    else
      let m := m.dropOldest P
      { m with queue := m.queue.pushBack t, index := m.index.put id m.queue.next }

/-- One round of the loop over the transactions of a block. -/
def removeTx (m : LinkedMempool) (t : Tx) : LinkedMempool :=
  match idOf P t with
  | none => m
  | some id =>
    match m.index.get id with
    | some elem => { m with queue := m.queue.remove elem, index := m.index.delete id }
    | none => m

def removeCommitted (m : LinkedMempool) (txs : List Tx) : LinkedMempool := txs.foldl (removeTx P) m

/-- The loop of `propose`, from an element on. -/
def collect (count : Nat) : List (Nat × Tx) → List Tx → List Tx
  | [], txs => txs
  | e :: rest, txs => if txs.length < count then collect count rest (txs ++ [e.2]) else txs

/-- The proposal, and the pool behind it. -/
def propose (kp : Key) (chainID : List UInt8) (m : LinkedMempool) (height : UInt64) (round : UInt32)
    (prevAttest : AttestationSet) (prevRoot : Hash) : BlockProposal × LinkedMempool :=
  let count := if tMax < m.queue.len then tMax else m.queue.len
  let p : BlockProposal :=
    { height, round, proposerPK := kp, prevStateRoot := prevRoot, txs := collect count m.queue.list []
      prevAttestations := prevAttest, proposerSig := 0 }
  ({ p with proposerSig := P.sign kp (proposalSignBytesForChain P p chainID) }, m)

/-- The calls that change the pool. -/
inductive Call where
  | enqueue (t : Tx)
  | onCommit (height : UInt64) (txs : List Tx)
  | onReject (height : UInt64) (txs : List Tx)

def Call.apply (m : LinkedMempool) : Call → LinkedMempool
  | .enqueue t => m.enqueue P t
  | .onCommit _ txs => m.removeCommitted P txs
  | .onReject _ txs => m.removeCommitted P txs

/-- `Enqueue` comes to its `PushBack`. -/
def inserts (m : LinkedMempool) (t : Tx) : Bool :=
  match idOf P t with
  | none => false
  | some id => (m.index.get id).isNone

/-- What a call inserts. -/
def Call.inserted (m : LinkedMempool) : Call → List Tx
  | .enqueue t => if m.inserts P t then [t] else []
  | .onCommit _ _ => []
  | .onReject _ _ => []

/-- The pool after some calls, and the transactions inserted by then, in their order. -/
def run (cap : Nat) (calls : List Call) : LinkedMempool × List Tx :=
  calls.foldl (fun s c => (c.apply P s.1, s.2 ++ c.inserted P s.1)) (new cap, [])

end LinkedMempool

open LinkedMempool

variable {P : Prim} {m : LinkedMempool} {t u : Tx} {id : Hash}

/-! ## One call -/

/-- The map and the queue fit together, the queue fits into the pool, and each element is the last insertion
of its ID in `log`. -/
structure Logged (P : Prim) (cap : Nat) (m : LinkedMempool) (log : List Tx) : Prop where
  capacity : m.cap = cap
  coupled : Coupled (idOf P) m.queue m.index
  fits : m.queue.len ≤ cap
  numbered : m.queue.next = log.length
  entry : ∀ x ∈ m.queue.list, log[x.1]? = some x.2
  latest : ∀ x ∈ m.queue.list, ∀ j u, x.1 < j → log[j]? = some u → idOf P u ≠ idOf P x.2

theorem idOf_some : idOf P t = some id ↔ t.id P = .ok id := Go.toOption_eq_some

variable {cap : Nat} {log : List Tx}

theorem logged_new (P : Prim) (cap : Nat) : Logged P cap (.new cap) [] :=
  ⟨rfl, .new _, Nat.zero_le _, rfl, fun _ hx => absurd hx List.not_mem_nil, fun _ hx => absurd hx List.not_mem_nil⟩

theorem Logged.remove (h : Logged P cap m log) {e : Nat} (he : (e, t) ∈ m.queue.list) (hid : idOf P t = some id) :
    Logged P cap { m with queue := m.queue.remove e, index := m.index.delete id } log where
  capacity := h.capacity
  coupled := h.coupled.remove he hid
  fits := le_trans (Elements.len_remove_le _ _) h.fits
  numbered := h.numbered
  entry := fun x hx => h.entry x (Elements.mem_remove.mp hx).1
  latest := fun x hx => h.latest x (Elements.mem_remove.mp hx).1

theorem Logged.dropOldest (h : Logged P cap m log) (hcap : 1 ≤ cap) :
    Logged P cap (m.dropOldest P) log ∧ (m.dropOldest P).queue.len < cap ∧
      (∀ id, m.index.get id = none → (m.dropOldest P).index.get id = none) ∧
      (m.dropOldest P).snapshot = if cap ≤ m.len then m.snapshot.tail else m.snapshot := by
  obtain rfl := h.capacity
  unfold LinkedMempool.dropOldest
  by_cases hfull : m.cap ≤ m.queue.len
  · rw [if_pos hfull, if_pos (show m.cap ≤ m.len from hfull)]
    cases hfront : m.queue.front with
    | none =>
      have hnil : m.queue.len = 0 := by rw [Elements.len, Elements.front_none hfront, List.length_nil]
      omega
    | some x =>
      obtain ⟨front, oldest⟩ := x
      obtain ⟨hvalues, hmem⟩ := Elements.remove_front hfront
      obtain ⟨oldestID, hid⟩ := Option.isSome_iff_exists.mp (h.coupled.keyed _ hmem)
      have hlen := Elements.len_remove_front hfront
      dsimp only at hid hlen ⊢
      rw [hid, Option.getD_some]
      have hfits := h.fits
      refine ⟨h.remove hmem hid, by omega, ?_, hvalues⟩
      intro id hnone
      rw [Bucket.get_delete, hnone, ite_self]
  · rw [if_neg hfull, if_neg (show ¬ m.cap ≤ m.len from hfull)]
    exact ⟨h, by omega, fun _ hnone => hnone, rfl⟩

theorem inserts_eq (hid : idOf P t = some id) : m.inserts P t = (m.index.get id).isNone := by
  unfold LinkedMempool.inserts
  rw [hid]

theorem enqueue_skips (h : m.inserts P t = false) : m.enqueue P t = m := by
  unfold LinkedMempool.inserts at h
  unfold LinkedMempool.enqueue
  cases hid : idOf P t with
  | none => rfl
  | some id =>
    rw [hid] at h
    dsimp only at h ⊢
    rw [if_pos (by rw [← Option.not_isNone, h, Bool.not_false])]

theorem enqueue_inserts (h : m.inserts P t = true) : ∃ id, idOf P t = some id ∧ m.index.get id = none ∧
    m.enqueue P t =
      { m.dropOldest P with
        queue := (m.dropOldest P).queue.pushBack t,
          index := (m.dropOldest P).index.put id (m.dropOldest P).queue.next } := by
  unfold LinkedMempool.inserts at h
  unfold LinkedMempool.enqueue
  cases hid : idOf P t with
  | none => rw [hid] at h; cases h
  | some id =>
    rw [hid] at h
    have hnone := Option.isNone_iff_eq_none.mp h
    refine ⟨id, rfl, hnone, ?_⟩
    dsimp only
    rw [hnone, if_neg (by decide)]

theorem Logged.enqueue (h : Logged P cap m log) (hcap : 1 ≤ cap) (hins : m.inserts P t = true) :
    Logged P cap (m.enqueue P t) (log ++ [t]) ∧
      (m.enqueue P t).snapshot = (if cap ≤ m.len then m.snapshot.tail else m.snapshot) ++ [t] := by
  obtain ⟨id, hid, hget, heq⟩ := enqueue_inserts hins
  obtain ⟨hlogged, hroom, hnone, hvalues⟩ := h.dropOldest hcap
  have hnew : (m.dropOldest P).index.get id = none := hnone id hget
  rw [heq]
  refine ⟨⟨hlogged.capacity, hlogged.coupled.pushBack hid hnew, ?_, ?_, ?_, ?_⟩, ?_⟩
  · rw [Elements.len_pushBack]
    omega
  · show (m.dropOldest P).queue.next + 1 = _
    rw [hlogged.numbered, List.length_append, List.length_singleton]
  · intro x hx
    rcases Elements.mem_pushBack.mp hx with hx | rfl
    · rw [List.getElem?_append_left (by rw [← hlogged.numbered]; exact (m.dropOldest P).queue.bound x hx)]
      exact hlogged.entry x hx
    · rw [hlogged.numbered, List.getElem?_concat_length]
  · intro x hx j u hlt hj
    rcases Elements.mem_pushBack.mp hx with hx | rfl
    · by_cases hjl : j < log.length
      · rw [List.getElem?_append_left hjl] at hj
        exact hlogged.latest x hx j u hlt hj
      · -- the new transaction is the only later one, and its ID is not in the map
        have hjn : j = log.length := by
          have hbound := (List.getElem?_eq_some_iff.mp hj).1
          rw [List.length_append, List.length_singleton] at hbound
          omega
        rw [hjn, List.getElem?_concat_length] at hj
        obtain rfl := Option.some.inj hj
        rw [hid]
        exact fun heq => hlogged.coupled.absent hnew (a := x.2) hx heq.symm
    · have hbound := (List.getElem?_eq_some_iff.mp hj).1
      rw [List.length_append, List.length_singleton, ← hlogged.numbered] at hbound
      dsimp only at hlt
      omega
  · show ((m.dropOldest P).queue.pushBack t).values = _
    rw [Elements.values_pushBack]
    exact congrArg (· ++ [t]) hvalues

theorem Logged.removeTx (h : Logged P cap m log) (t : Tx) : Logged P cap (m.removeTx P t) log := by
  unfold LinkedMempool.removeTx
  cases hid : idOf P t with
  | none => exact h
  | some id =>
    dsimp only
    cases hget : m.index.get id with
    | none => exact h
    | some e =>
      obtain ⟨u, hu, huid⟩ := (h.coupled.exact id e).mp hget
      exact h.remove hu huid

theorem Logged.removeCommitted (h : Logged P cap m log) (txs : List Tx) :
    Logged P cap (m.removeCommitted P txs) log := by
  unfold LinkedMempool.removeCommitted
  induction txs generalizing m with
  | nil => exact h
  | cons t txs ih => exact ih (h.removeTx t)

theorem Logged.call (h : Logged P cap m log) (hcap : 1 ≤ cap) (c : Call) :
    Logged P cap (c.apply P m) (log ++ c.inserted P m) := by
  cases c with
  | enqueue t =>
    simp only [Call.apply, Call.inserted]
    by_cases hins : m.inserts P t = true
    · rw [if_pos hins]
      exact (h.enqueue hcap hins).1
    · rw [if_neg hins, List.append_nil, enqueue_skips (Bool.eq_false_iff.mpr hins)]
      exact h
  | onCommit height txs =>
    rw [Call.inserted, List.append_nil]
    exact h.removeCommitted txs
  | onReject height txs =>
    rw [Call.inserted, List.append_nil]
    exact h.removeCommitted txs

/-! ## Sequences of calls -/

theorem logged_run (P : Prim) {cap : Nat} (hcap : 1 ≤ cap) (calls : List Call) :
    Logged P cap (run P cap calls).1 (run P cap calls).2 := by
  have hfold : ∀ {s : LinkedMempool × List Tx}, Logged P cap s.1 s.2 →
      Logged P cap (calls.foldl (fun s c => (c.apply P s.1, s.2 ++ c.inserted P s.1)) s).1
        (calls.foldl (fun s c => (c.apply P s.1, s.2 ++ c.inserted P s.1)) s).2 := by
    induction calls with
    | nil => exact fun h => h
    | cons c calls ih => exact fun h => ih (h.call hcap c)
  exact hfold (logged_new P cap)

theorem collect_eq (count : Nat) : ∀ (l : List (Nat × Tx)) (txs : List Tx), txs.length ≤ count →
    collect count l txs = txs ++ (l.map (·.2)).take (count - txs.length) := by
  intro l
  induction l with
  | nil => simp [collect]
  | cons e rest ih =>
    intro txs hle
    unfold collect
    by_cases hlt : txs.length < count
    · rw [if_pos hlt, ih _ (by simp; omega)]
      obtain ⟨k, hk⟩ : ∃ k, count - txs.length = k + 1 := ⟨count - txs.length - 1, by omega⟩
      have hk' : count - (txs ++ [e.2]).length = k := by
        rw [List.length_append, List.length_singleton]
        omega
      rw [hk, hk', List.map_cons, List.take_succ_cons, List.append_assoc, List.singleton_append]
    · rw [if_neg hlt, show count - txs.length = 0 by omega, List.take_zero, List.append_nil]

theorem propose_txs (m : LinkedMempool) (kp : Key) (chainID : List UInt8) (height : UInt64) (round : UInt32)
    (prevAttest : AttestationSet) (prevRoot : Hash) :
    (LinkedMempool.propose P kp chainID m height round prevAttest prevRoot).1.txs =
    m.snapshot.take (min 65536 m.len) := by
  have hcount : (if tMax < m.queue.len then tMax else m.queue.len) = min 65536 m.len := by
    unfold tMax LinkedMempool.len
    split <;> omega
  show collect _ m.queue.list [] = _
  rw [collect_eq _ _ _ (Nat.zero_le _), hcount]
  rfl

/-- The pool after any calls: the map and the queue, its size, its order, and the next call. -/
theorem mempool_structure (P : Prim) {cap : Nat} (hcap : 1 ≤ cap) (calls : List Call) {m : LinkedMempool}
    {log : List Tx}
    (hrun : run P cap calls = (m, log)) :
    -- the map has exactly the IDs of the queue, at their own elements
    (∀ id e, m.index.get id = some e ↔ ∃ t, (e, t) ∈ m.queue.list ∧ t.id P = .ok id) ∧
    (∀ t ∈ m.snapshot, ∃ id, t.id P = .ok id) ∧ (m.snapshot.map (·.id P)).Nodup ∧ m.len ≤ cap ∧
    -- the elements stand in the order of the insertions, each the latest one of its ID
    (m.queue.list.map (·.1)).Pairwise (· < ·) ∧
    (∀ e t, (e, t) ∈ m.queue.list → log[e]? = some t ∧ ∀ j u, e < j → log[j]? = some u → u.id P ≠ t.id P) ∧
    -- an insertion takes the oldest out exactly when the pool is full
    (∀ t, m.inserts P t = true →
      (m.enqueue P t).snapshot = (if m.len = cap then m.snapshot.tail else m.snapshot) ++ [t]) ∧
    ∀ kp chainID height round prevAttest prevRoot,
      (LinkedMempool.propose P kp chainID m height round prevAttest prevRoot).1.txs =
      m.snapshot.take (min 65536 m.len) ∧
      (LinkedMempool.propose P kp chainID m height round prevAttest prevRoot).2 = m := by
  have h := logged_run P hcap calls
  rw [hrun] at h
  have hkeyed : ∀ x ∈ m.queue.list, ∃ id, x.2.id P = .ok id := by
    intro x hx
    obtain ⟨id, hid⟩ := Option.isSome_iff_exists.mp (h.coupled.keyed x hx)
    exact ⟨id, idOf_some.mp hid⟩
  have hfits : m.len ≤ cap := h.fits
  refine ⟨?_, ?_, ?_, hfits, m.queue.sorted, ?_, ?_, ?_⟩
  · intro id e
    simp only [h.coupled.exact, idOf_some]
  · intro t ht
    obtain ⟨x, hx, rfl⟩ := List.mem_map.mp ht
    exact hkeyed x hx
  · -- distinct IDs as options, so as results
    refine List.Nodup.of_map Go.toOption ?_
    rw [List.map_map]
    exact h.coupled.keys_nodup
  · intro e t he
    refine ⟨h.entry _ he, ?_⟩
    intro j u hlt hj hid
    obtain ⟨id, ht⟩ := hkeyed _ he
    refine h.latest _ he j u hlt hj ?_
    rw [idOf_some.mpr ht, idOf_some.mpr (hid.trans ht)]
  · intro t hins
    have hiff : (cap ≤ m.len) = (m.len = cap) := propext ⟨fun hle => le_antisymm hfits hle, fun heq => heq.ge⟩
    rw [(h.enqueue hcap hins).2]
    simp only [hiff]
  · intro kp chainID height round prevAttest prevRoot
    exact ⟨propose_txs m kp chainID height round prevAttest prevRoot, rfl⟩

/-- Two payments into a pool of one, and a block with the first of them. -/
def squeezed : List Call :=
  [.enqueue (Tx.plain .transfer 1 2 10 1), .enqueue (Tx.plain .transfer 1 2 10 2),
    .onCommit 1 [Tx.plain .transfer 1 2 10 1]]

theorem mempool_structure_squeezed : (run Prim.sample 1 squeezed).1.snapshot = [Tx.plain .transfer 1 2 10 2] ∧
    (run Prim.sample 1 squeezed).1.len ≤ 1 ∧
    ((run Prim.sample 1 squeezed).1.snapshot.map (·.id Prim.sample)).Nodup := by
  obtain ⟨-, -, hnodup, hlen, -⟩ := mempool_structure Prim.sample (le_refl 1) squeezed Prod.mk.eta.symm
  exact ⟨by decide +kernel, hlen, hnodup⟩

/-! ## The pool of the engine's proofs -/

/-- `m` keeps what `a` has. -/
structure Represents (P : Prim) (m : LinkedMempool) (a : Mempool) : Prop where
  queue : a.queue = m.snapshot.map fun t => ((idOf P t).getD 0, t)
  cap : a.cap = m.cap

section

variable {a : Mempool}

theorem Represents.mem (h : Represents P m a) (hk : Logged P cap m log) :
    id ∈ a.queue.map (·.1) ↔ (m.index.get id).isSome := by
  rw [h.queue, List.map_map]
  constructor
  · intro hmem
    obtain ⟨t, ht, rfl⟩ := List.mem_map.mp hmem
    obtain ⟨x, hx, rfl⟩ := List.mem_map.mp ht
    obtain ⟨k, hid⟩ := Option.isSome_iff_exists.mp (hk.coupled.keyed x hx)
    rw [Function.comp_apply, hid, Option.getD_some, (hk.coupled.exact k x.1).mpr ⟨x.2, hx, hid⟩]
    rfl
  · intro hsome
    obtain ⟨e, he⟩ := Option.isSome_iff_exists.mp hsome
    obtain ⟨t, ht, hid⟩ := (hk.coupled.exact id e).mp he
    refine List.mem_map.mpr ⟨t, List.mem_map.mpr ⟨(e, t), ht, rfl⟩, ?_⟩
    rw [Function.comp_apply, hid, Option.getD_some]

theorem Represents.enqueue (h : Represents P m a) (hk : Logged P cap m log) (hcap : 1 ≤ cap) (t : Tx) :
    Represents P (m.enqueue P t) (a.enqueue P t) := by
  by_cases hins : m.inserts P t = true
  · obtain ⟨id, hid, hget, heq⟩ := enqueue_inserts hins
    obtain ⟨hlogged, hvalues⟩ := hk.enqueue hcap hins
    have hnew : id ∉ a.queue.map (·.1) := by
      rw [h.mem hk, hget]
      decide
    have hroom : a.makeRoom =
        (if cap ≤ m.len then m.snapshot.tail else m.snapshot).map fun t => ((idOf P t).getD 0, t) := by
      have hlen : a.queue.length = m.len := by rw [h.queue, List.length_map]; exact Elements.length_values _
      unfold Mempool.makeRoom
      rw [h.cap, hk.capacity, hlen, h.queue]
      by_cases hfull : cap ≤ m.len
      · rw [if_pos hfull, if_pos hfull, List.drop_one, List.map_tail]
      · rw [if_neg hfull, if_neg hfull]
    have hstep : a.enqueue P t = a.add id t hnew := by
      unfold Mempool.enqueue
      rw [idOf_some.mp hid]
      exact dif_neg hnew
    refine ⟨?_, ?_⟩
    · rw [hstep, hvalues, List.map_append, ← hroom, List.map_singleton, hid, Option.getD_some]
      rfl
    · rw [hstep, hlogged.capacity, ← hk.capacity]
      exact h.cap
  · have hskip : a.enqueue P t = a := by
      unfold Mempool.enqueue
      cases hid : t.id P with
      | err | panic => rfl
      | ok id =>
        have hsome : (m.index.get id).isSome = true := by
          rw [inserts_eq (idOf_some.mpr hid), Option.isNone_iff_eq_none] at hins
          exact Option.isSome_iff_ne_none.mpr hins
        exact dif_pos ((h.mem hk).mpr hsome)
    rw [hskip, enqueue_skips (Bool.eq_false_iff.mpr hins)]
    exact h

theorem Represents.removeTx (h : Represents P m a) (hk : Logged P cap m log) (hid : idOf P t = some id) :
    Represents P (m.removeTx P t) (a.remove id) := by
  have hfilter : (a.remove id).queue =
      (m.snapshot.filter fun u => idOf P u ≠ some id).map fun u => ((idOf P u).getD 0, u) := by
    show a.queue.filter (fun x => decide (x.1 ≠ id)) = _
    rw [h.queue, List.filter_map]
    congr 1
    apply List.filter_congr
    intro u hu
    obtain ⟨x, hx, rfl⟩ := List.mem_map.mp hu
    obtain ⟨k, hkey⟩ := Option.isSome_iff_exists.mp (hk.coupled.keyed x hx)
    simp [hkey]
  unfold LinkedMempool.removeTx
  rw [hid]
  dsimp only
  cases hget : m.index.get id with
  | some e =>
    refine ⟨?_, h.cap⟩
    rw [hfilter]
    exact congrArg _ (hk.coupled.values_remove hget).symm
  | none =>
    refine ⟨?_, h.cap⟩
    rw [hfilter, List.filter_eq_self.mpr]
    intro u hu
    obtain ⟨x, hx, rfl⟩ := List.mem_map.mp hu
    exact decide_eq_true (hk.coupled.absent hget (a := x.2) hx)

theorem Represents.removeCommitted (h : Represents P m a) (hk : Logged P cap m log) (txs : List Tx) :
    Represents P (m.removeCommitted P txs) (a.removeCommitted P txs) := by
  induction txs generalizing m a with
  | nil => exact h
  | cons t txs ih =>
    refine ih (m := m.removeTx P t) ?_ (hk.removeTx t)
    dsimp only
    cases hid : t.id P with
    | ok id => exact h.removeTx hk (idOf_some.mpr hid)
    | err | panic =>
      have hnone : idOf P t = none := by
        rw [idOf, hid]
        rfl
      unfold LinkedMempool.removeTx
      rw [hnone]
      exact h

theorem Represents.propose (h : Represents P m a) (kp : Key) (chainID : List UInt8) (height : UInt64) (round : UInt32)
    (prevAttest : AttestationSet) (prevRoot : Hash) :
    (LinkedMempool.propose P kp chainID m height round prevAttest prevRoot).1 =
      Consensus.propose P kp chainID a height round prevAttest prevRoot := by
  have htxs : collect (if tMax < m.queue.len then tMax else m.queue.len) m.queue.list [] =
      (a.queue.take tMax).map (·.2) := by
    have hself : m.snapshot.map ((fun x : Hash × Tx => x.2) ∘ fun t => ((idOf P t).getD 0, t)) = m.snapshot :=
      List.map_id _
    have hlen : m.snapshot.length = m.len := Elements.length_values _
    have hcollect := propose_txs (P := P) m kp chainID height round prevAttest prevRoot
    rw [h.queue, ← List.map_take, List.map_map, List.map_take, hself]
    refine hcollect.trans ?_
    rw [← hlen, ← List.take_take, List.take_length]
    rfl
  unfold LinkedMempool.propose Consensus.propose
  dsimp only
  rw [htxs]

end

/-- A call on the pool of the engine. -/
def Call.onMempool (P : Prim) (a : Mempool) : Call → Mempool
  | .enqueue t => a.enqueue P t
  | .onCommit _ txs => a.removeCommitted P txs
  | .onReject _ txs => a.removeCommitted P txs

theorem represents_run (P : Prim) {cap : Nat} (hcap : 1 ≤ cap) (calls : List Call) :
    Represents P (run P cap calls).1 (calls.foldl (Call.onMempool P) (.new cap)) := by
  have hfold : ∀ {s : LinkedMempool × List Tx} {a : Mempool}, Logged P cap s.1 s.2 → Represents P s.1 a →
      Represents P (calls.foldl (fun s c => (c.apply P s.1, s.2 ++ c.inserted P s.1)) s).1
        (calls.foldl (Call.onMempool P) a) := by
    induction calls with
    | nil => exact fun _ h => h
    | cons c calls ih =>
      intro s a hk h
      refine ih (hk.call hcap c) ?_
      cases c with
      | enqueue t => exact h.enqueue hk hcap t
      | onCommit height txs => exact h.removeCommitted hk txs
      | onReject height txs => exact h.removeCommitted hk txs
  exact hfold (logged_new P cap) ⟨rfl, rfl⟩

/-- After any calls the linked pool has the transactions of the engine's pool in their order, and
    makes the proposals the engine's proofs are about. -/
theorem linked_pool_refines (P : Prim) {cap : Nat} (hcap : 1 ≤ cap) (calls : List Call) :
    (run P cap calls).1.snapshot = (calls.foldl (Call.onMempool P) (.new cap)).queue.map (·.2) ∧
      ∀ kp chainID height round prevAttest prevRoot,
        (LinkedMempool.propose P kp chainID (run P cap calls).1 height round prevAttest prevRoot).1 =
          Consensus.propose P kp chainID (calls.foldl (Call.onMempool P) (.new cap)) height round prevAttest
            prevRoot := by
  have h := represents_run P hcap calls
  refine ⟨?_, h.propose⟩
  rw [h.queue, List.map_map]
  exact (List.map_id _).symm

theorem linked_pool_refines_squeezed :
    (squeezed.foldl (Call.onMempool Prim.sample) (.new 1)).queue.map (·.2) = [Tx.plain .transfer 1 2 10 2] := by
  rw [← (linked_pool_refines Prim.sample (le_refl 1) squeezed).1]
  decide +kernel

end Frg.Consensus
