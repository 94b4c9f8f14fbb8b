/-
  Frg.Faucet.Grants — the nonces of the faucet's grants (`cmd/frg-faucet`).

  The handler takes its nonce from the committed account, one above it, and does not count the
  grants that wait in the mempool. The ID of a transaction is the hash of its unsigned bytes, which
  have no public key in them: two grants differ there in nothing but the nonce.
    - `serveRequest_cases`: a request answered with Ok carries the grant with that nonce.
    - `grants_differ_iff`: two grants have different nonces, and IDs, exactly when the committed
      nonce was another at the second request.
    - `grants_collide`: two requests between two blocks. Both are answered with Ok, and the
      mempool keeps the first transaction only.
-/

import Frg.Consensus.PoolIndex
import Frg.Faucet.Handler
import Frg.Wire.Signing

namespace Frg.Faucet

open Frg.Lib Frg.Core Frg.Wire Frg.Node Frg.Consensus

/-! ## Requests one after the other -/

section

variable (P : Prim) (c : Config)

/-- What the handler does next when it is alone. -/
def nextEvent (h : Nat) (account : Except Err UInt64) (answer : Answer) : Phase → Option Event
  | .parsed _ => some (.view h)
  | .viewed _ _ _ => some (.compare h)
  | .passed _ _ => some (.lock h)
  | .locked _ _ => some (.getNonce h account)
  | .funded _ _ _ => some (.submit h answer)
  | .submitted _ _ _ => some (.readClock h)
  | .timed _ _ _ _ => some (.record h)
  | .recorded _ => some (.respond h)
  | .leaving _ => some (.unlock h)
  | .idle => none
  | .done _ => none

/-- The handler alone, for a number of steps. -/
def runAlone (h : Nat) (account : Except Err UInt64) (answer : Answer) : Nat → State → State
  | 0, s => s
  | n + 1, s =>
    match (nextEvent h account answer (s.phases h)).bind (step P c s) with
    | some s' => runAlone h account answer n s'
    | none => s

/-- A request while no other is served: nine steps after its arrival. -/
def serveRequest (db : Bucket Key (Word 8)) (now : Int) (req : FaucetRequest) (account : Except Err UInt64)
    (answer : Answer) : State :=
  match step P c (start db now) (.arrive 0 req) with
  | some s => runAlone P c 0 account answer 9 s
  | none => start db now

/-- A request that was answered with Ok. `asked` is the committed nonce it was given. -/
structure Grant where
  recipient : Key
  tx : Tx
  asked : Nat

/-- The faucet's database, the clock, the faucet's nonce in the committed state, and the mempool. -/
structure World where
  db : Bucket Key (Word 8)
  now : Int
  committed : Nat
  pool : LinkedMempool
  grants : List Grant

/-- A request with what the node says to it, the clock, and a block that executes some of the
    faucet's transactions. -/
inductive NetEvent where
  | tick (t : Int)
  | request (req : FaucetRequest) (accountErr : Option Err) (answer : Answer)
  | commit (executed : Nat) (txs : List Tx)

/-- Whether the request was answered with Ok. -/
def State.answeredOk (s : State) : Bool :=
  match s.phases 0 with
  | .done reply => reply.response.ok
  | _ => false

/-- After a request. What the node took, it puts into the mempool. -/
def World.serve (w : World) (s : State) : World :=
  { w with
    db := s.db
    pool := s.payments.foldl (fun pool p => pool.enqueue P p.tx) w.pool
    grants := if s.answeredOk then w.grants ++ s.payments.map fun p => ⟨p.recipient, p.tx, w.committed⟩ else w.grants }

def World.next (w : World) : NetEvent → World
  | .tick t => { w with now := t }
  | .request req accountErr answer =>
    let account : Except Err UInt64 :=
      match accountErr with
      | some e => .error e
      | none => .ok (.ofNat w.committed)
    w.serve P (serveRequest P c w.db w.now req account answer)
  | .commit executed txs => { w with committed := w.committed + executed, pool := w.pool.removeCommitted P txs }

def World.run (w : World) (events : List NetEvent) : World := events.foldl (World.next P c) w

end

/-- Before the first request. -/
def World.begin (db : Bucket Key (Word 8)) (now : Int) (committed : Nat) (pool : LinkedMempool) : World :=
  ⟨db, now, committed, pool, []⟩

variable {P : Prim} {c : Config} {s s' : State}

/-! ## One request -/

theorem State.set_phase (s : State) (h : Nat) (p : Phase) : (s.set h p).phases h = p := Function.update_self ..

section

variable {account : Except Err UInt64} {answer : Answer}

theorem runAlone_step {h n : Nat} {p : Phase} {e : Event} (hp : s.phases h = p)
    (he : nextEvent h account answer p = some e) (hs : step P c s e = some s') :
    runAlone P c h account answer (n + 1) s = runAlone P c h account answer n s' := by
  rw [runAlone, hp, he, Option.bind_some, hs]

theorem runAlone_done {h : Nat} {reply : Reply} (hp : s.phases h = .done reply) (n : Nat) :
    runAlone P c h account answer n s = s := by
  cases n with
  | zero => rfl
  | succ n =>
    rw [runAlone, hp]
    rfl

theorem runAlone_leaving {h : Nat} {reply : Reply} (hp : s.phases h = .leaving reply) (n : Nat) :
    runAlone P c h account answer (n + 1) s = { s.set h (.done reply) with owner := none } := by
  have hs : step P c s (.unlock h) = some { s.set h (.done reply) with owner := none } := by
    simp only [step, hp]
  rw [runAlone_step hp rfl hs]
  exact runAlone_done (Function.update_self ..) n

/-- The request was answered with an error, and no payment was recorded. -/
def Refused (s : State) : Prop := s.payments = [] ∧ ∃ reply, s.phases 0 = .done reply ∧ reply.response.ok = false

/-- The request was answered with Ok, for a grant one above the nonce of the account. -/
def Granted (P : Prim) (c : Config) (account : Except Err UInt64) (s : State) : Prop :=
  ∃ recipient time nonce tr, account = .ok nonce ∧ signGrant P c recipient (nonce + 1) = .ok tr ∧
    s.payments = [⟨recipient, time, tr⟩] ∧
    s.phases 0 = .done ⟨200, ⟨true, some ((tr.id P).toOption.getD 0), ""⟩⟩

theorem recipientOf_refuses {req : FaucetRequest} {reply : Reply} (h : recipientOf req = .error reply) :
    reply.response.ok = false := by
  unfold recipientOf at h
  split at h
  · obtain rfl := Except.error.inj h
    rfl
  · split at h
    · obtain rfl := Except.error.inj h
      rfl
    · split at h
      · obtain rfl := Except.error.inj h
        rfl
      · split at h
        · cases h
        · obtain rfl := Except.error.inj h
          rfl

theorem refused_done (hpay : s.payments = []) {reply : Reply} (hno : reply.response.ok = false) (n : Nat) :
    Refused (runAlone P c 0 account answer n (s.set 0 (.done reply))) := by
  rw [runAlone_done (s.set_phase 0 _) n]
  exact ⟨hpay, reply, s.set_phase 0 _, hno⟩

theorem refused_leaving (hpay : s.payments = []) (status : Nat) (error : String) (n : Nat) :
    Refused (runAlone P c 0 account answer (n + 1) (s.set 0 (.leaving (refuse status error)))) := by
  rw [runAlone_leaving (s.set_phase 0 _) n]
  exact ⟨hpay, _, rfl, rfl⟩

theorem submitted_granted {recipient : Key} {since : Nat} {nonce : UInt64} {tr : Tx} (hpay : s.payments = [])
    (hacc : account = .ok nonce) (htr : signGrant P c recipient (nonce + 1) = .ok tr) :
    Granted P c account (runAlone P c 0 account answer 4 (s.set 0 (.submitted recipient since tr))) := by
  rw [runAlone_step (p := .submitted recipient since tr) rfl rfl rfl,
    runAlone_step (p := .timed recipient since tr s.now) rfl rfl rfl,
    runAlone_step (p := .recorded tr) rfl rfl rfl, runAlone_leaving rfl]
  refine ⟨recipient, s.now, nonce, tr, hacc, htr, ?_, rfl⟩
  show s.payments ++ [⟨recipient, s.now, tr⟩] = _
  rw [hpay, List.nil_append]

theorem submit_cases {recipient : Key} {since : Nat} {nonce : UInt64} (hpay : s.payments = [])
    (hacc : account = .ok nonce) {r : State}
    (hr : r = runAlone P c 0 account answer 4 (s.set 0 (submitGrant P c recipient since (nonce + 1) answer))) :
    Refused r ∨ Granted P c account r := by
  unfold submitGrant at hr
  rw [hr]
  split
  · exact .inl (refused_leaving hpay _ _ _)
  · rename_i tr htr
    split
    · exact .inl (refused_leaving hpay _ _ _)
    · split
      · exact .inr (submitted_granted hpay hacc htr)
      · exact .inl (refused_leaving hpay _ _ _)

theorem locked_cases {recipient : Key} {since : Nat} (hpay : s.payments = [])
    (hp : s.phases 0 = .locked recipient since)
    {r : State} (hr : r = runAlone P c 0 account answer 6 s) : Refused r ∨ Granted P c account r := by
  cases hacc : account with
  | error e =>
    have hs : step P c s (.getNonce 0 account) =
        some (s.set 0 (.leaving (refuse 502 ("failed to get faucet nonce: " ++ e.msg)))) := by
      simp only [step, hp, hacc]
    rw [runAlone_step hp rfl hs] at hr
    rw [hr]
    exact .inl (refused_leaving hpay _ _ _)
  | ok nonce =>
    have hs : step P c s (.getNonce 0 account) = some (s.set 0 (.funded recipient since (nonce + 1))) := by
      simp only [step, hp, hacc]
    rw [runAlone_step hp rfl hs, runAlone_step (p := .funded recipient since (nonce + 1)) rfl rfl rfl] at hr
    rw [← hacc]
    exact submit_cases (s := s.set 0 (.funded recipient since (nonce + 1))) hpay hacc hr

theorem viewed_cases {recipient : Key} {last : Int} {since : Nat} (hpay : s.payments = []) (hfree : s.owner = none)
    (hp : s.phases 0 = .viewed recipient last since) {r : State} (hr : r = runAlone P c 0 account answer 8 s) :
    Refused r ∨ Granted P c account r := by
  cases hlim : rateLimited s.now last with
  | true =>
    have hs : step P c s (.compare 0) =
        some (s.set 0 (.done (refuse 429 "rate limited (1 request per 60s per pubkey)"))) := by
      simp only [step, hp, hlim, if_true]
    rw [runAlone_step hp rfl hs] at hr
    rw [hr]
    exact .inl (refused_done hpay rfl 7)
  | false =>
    have hs : step P c s (.compare 0) = some (s.set 0 (.passed recipient since)) := by
      simp only [step, hp, hlim, Bool.false_eq_true, if_false]
    have hlock : step P c (s.set 0 (.passed recipient since)) (.lock 0) =
        some { (s.set 0 (.passed recipient since)).set 0 (.locked recipient since) with owner := some 0 } := by
      simp only [step, State.set_phase]
      exact if_pos hfree
    rw [runAlone_step hp rfl hs, runAlone_step (State.set_phase ..) rfl hlock] at hr
    exact locked_cases (s := { (s.set 0 _).set 0 (.locked recipient since) with owner := some 0 }) hpay rfl hr

end

theorem serveRequest_cases (P : Prim) (c : Config) (db : Bucket Key (Word 8)) (now : Int) (req : FaucetRequest)
    (account : Except Err UInt64) (answer : Answer) :
    Refused (serveRequest P c db now req account answer) ∨
      Granted P c account (serveRequest P c db now req account answer) := by
  unfold serveRequest
  cases hreq : recipientOf req with
  | error reply =>
    have hs : step P c (start db now) (.arrive 0 req) = some ((start db now).set 0 (.done reply)) := by
      simp only [step, start, hreq]
    rw [hs]
    exact .inl (refused_done rfl (recipientOf_refuses hreq) 9)
  | ok recipient =>
    have hs : step P c (start db now) (.arrive 0 req) = some ((start db now).set 0 (.parsed recipient)) := by
      simp only [step, start, hreq]
    rw [hs]
    exact viewed_cases rfl rfl rfl (runAlone_step (p := .parsed recipient) rfl rfl rfl)

/-! ## Runs -/

/-- The grant has the nonce after the committed one. -/
structure Drawn (P : Prim) (c : Config) (g : Grant) : Prop where
  nonce : g.tx.nonce = UInt64.ofNat g.asked + 1
  signed : signGrant P c g.recipient g.tx.nonce = .ok g.tx

structure Good (P : Prim) (c : Config) (w : World) : Prop where
  drawn : ∀ g ∈ w.grants, Drawn P c g
  bound : ∀ g ∈ w.grants, g.asked ≤ w.committed
  ordered : w.grants.Pairwise fun g g' => g.asked ≤ g'.asked

theorem signGrant_ok {recipient : Key} {nonce : UInt64} {tr : Tx} (h : signGrant P c recipient nonce = .ok tr) :
    tr.nonce = nonce ∧ ∃ bytes, serializeUnsigned P tr = .ok bytes ∧
      ∀ other, serializeUnsigned P (grantTx c other nonce) = .ok bytes := by
  unfold signGrant at h
  split at h
  · cases h
  · cases h
  · rename_i sig _
    dsimp only at h
    split at h
    · cases h
    · cases h
    · rename_i full hfull
      obtain rfl := Except.ok.inj h
      obtain ⟨bytes, hbytes, -⟩ := Go.bind_eq_ok.mp hfull
      exact ⟨rfl, bytes, hbytes, fun _ => hbytes⟩

variable {w : World}

theorem good_serve (hw : Good P c w) {account : Except Err UInt64}
    (hacc : ∀ nonce, account = .ok nonce → nonce = .ofNat w.committed)
    (hs : Refused s ∨ Granted P c account s) : Good P c (w.serve P s) := by
  rcases hs with ⟨-, reply, hdone, hno⟩ | ⟨recipient, time, nonce, tr, haccount, htr, hpay, hdone⟩
  · have hsame : (w.serve P s).grants = w.grants := by
      simp only [World.serve, State.answeredOk, hdone, hno, Bool.false_eq_true, if_false]
    refine ⟨?_, ?_, ?_⟩
    · rw [hsame]
      exact hw.drawn
    · rw [hsame]
      exact hw.bound
    · rw [hsame]
      exact hw.ordered
  · have hnew : (w.serve P s).grants = w.grants ++ [⟨recipient, tr, w.committed⟩] := by
      simp only [World.serve, State.answeredOk, hdone, hpay, if_true, List.map_cons, List.map_nil]
    have hnonce := (signGrant_ok htr).1
    rw [hacc nonce haccount] at hnonce htr
    refine ⟨?_, ?_, ?_⟩
    · rw [hnew]
      refine List.forall_mem_append.mpr ⟨hw.drawn, List.forall_mem_singleton.mpr ⟨hnonce, ?_⟩⟩
      rw [hnonce]
      exact htr
    · rw [hnew]
      exact List.forall_mem_append.mpr ⟨hw.bound, List.forall_mem_singleton.mpr (Nat.le_refl _)⟩
    · rw [hnew]
      refine List.pairwise_append.mpr ⟨hw.ordered, List.pairwise_singleton _ _, fun g hg g' hg' => ?_⟩
      rw [List.mem_singleton.mp hg']
      exact hw.bound g hg

theorem good_next (hw : Good P c w) (e : NetEvent) : Good P c (w.next P c e) := by
  cases e with
  | tick t => exact ⟨hw.drawn, hw.bound, hw.ordered⟩
  | request req accountErr answer =>
    refine good_serve hw (fun nonce h => ?_) (serveRequest_cases ..)
    cases accountErr with
    | some e => cases h
    | none => exact (Except.ok.inj h).symm
  | commit executed txs =>
    exact ⟨hw.drawn, fun g hg => Nat.le_add_right_of_le (hw.bound g hg), hw.ordered⟩

theorem good_run (hw : Good P c w) (events : List NetEvent) : Good P c (w.run P c events) :=
  List.foldlRecOn events _ hw fun _ hx e _ => good_next hx e

theorem good_begin (db : Bucket Key (Word 8)) (now : Int) (committed : Nat) (pool : LinkedMempool) :
    Good P c (.begin db now committed pool) :=
  ⟨fun _ h => absurd h List.not_mem_nil, fun _ h => absurd h List.not_mem_nil, .nil⟩

/-! ## Nonces and IDs -/

theorem Drawn.nonce_eq_iff {g g' : Grant} (hg : Drawn P c g) (hg' : Drawn P c g') :
    g.tx.nonce = g'.tx.nonce ↔ g.asked % 2 ^ 64 = g'.asked % 2 ^ 64 := by
  rw [hg.nonce, hg'.nonce, UInt64.add_left_inj, ← UInt64.toNat_inj, UInt64.toNat_ofNat', UInt64.toNat_ofNat']

theorem id_of_unsigned {t : Tx} {bytes : List UInt8} (h : serializeUnsigned P t = .ok bytes) :
    t.id P = .ok (P.hash bytes) := by
  unfold Tx.id
  rw [h]
  rfl

/-- The unsigned bytes have neither the recipient's key nor a signature in them. -/
theorem Drawn.id_eq {g g' : Grant} (hg : Drawn P c g) (hg' : Drawn P c g') (h : g.tx.nonce = g'.tx.nonce) :
    g.tx.id P = g'.tx.id P := by
  obtain ⟨-, b, hb, hall⟩ := signGrant_ok hg.signed
  obtain ⟨-, b', hb', hall'⟩ := signGrant_ok hg'.signed
  have hsame := hall' 0
  rw [← h, hall 0] at hsame
  rw [id_of_unsigned hb, id_of_unsigned hb', Go.ok.inj hsame]

theorem Drawn.nonce_eq {g g' : Grant} (hg : Drawn P c g) (hg' : Drawn P c g')
    (hno : ∀ b b', serializeUnsigned P g.tx = .ok b → serializeUnsigned P g'.tx = .ok b' → NoCollision P.hash b b')
    (h : g.tx.id P = g'.tx.id P) : g.tx.nonce = g'.tx.nonce := by
  obtain ⟨-, b, hb, -⟩ := signGrant_ok hg.signed
  obtain ⟨-, b', hb', -⟩ := signGrant_ok hg'.signed
  rw [id_of_unsigned hb, id_of_unsigned hb'] at h
  have hbytes : b = b' := hno b b' hb hb' (Go.ok.inj h)
  rw [← hbytes] at hb'
  exact (serializeUnsigned_inj hb hb').nonce

theorem grants_differ_iff (P : Prim) (c : Config) (db : Bucket Key (Word 8)) (now : Int) (committed : Nat)
    (pool : LinkedMempool) (events : List NetEvent) (g g' : Grant)
    (hpair : [g, g'].Sublist ((World.begin db now committed pool).run P c events).grants)
    (hno : ∀ b b', serializeUnsigned P g.tx = .ok b → serializeUnsigned P g'.tx = .ok b' → NoCollision P.hash b b') :
    g.asked ≤ g'.asked ∧ (g.tx.nonce ≠ g'.tx.nonce ↔ g.asked % 2 ^ 64 ≠ g'.asked % 2 ^ 64) ∧
      (g.tx.id P ≠ g'.tx.id P ↔ g.tx.nonce ≠ g'.tx.nonce) := by
  have hw := good_run (good_begin (P := P) (c := c) db now committed pool) events
  have hg := hw.drawn g (hpair.subset List.mem_cons_self)
  have hg' := hw.drawn g' (hpair.subset (List.mem_cons_of_mem _ List.mem_cons_self))
  have hle := (List.pairwise_cons.mp (hw.ordered.sublist hpair)).1 g' List.mem_cons_self
  exact ⟨hle, (hg.nonce_eq_iff hg').not, not_congr ⟨hg.nonce_eq hg' hno, hg.id_eq hg'⟩⟩

/-! ## Two requests -/

/-- A request for the key of 32 bytes `0x33`. -/
def otherRequest : FaucetRequest := ⟨true, .ok (List.replicate 64 0x33)⟩

def grantedBy (req : FaucetRequest) : NetEvent := .request req none (.ok ⟨true, ""⟩)

def sampleWorld : World := .begin .empty 1000 0 (.new 8)

/-- The request of one key, what happens then, and the request of another. -/
def twoGrants (between : List NetEvent) : World :=
  sampleWorld.run Prim.sample sampleConfig ([grantedBy sampleRequest] ++ between ++ [grantedBy otherRequest])

theorem pair_of_map {α β : Type} {f : α → β} {l : List α} {x y : β} (h : l.map f = [x, y]) :
    ∃ a b, l = [a, b] ∧ f a = x ∧ f b = y := by
  obtain ⟨a, rest, rfl, hx, h⟩ := List.map_eq_cons_iff.mp h
  obtain ⟨b, rest, rfl, hy, h⟩ := List.map_eq_cons_iff.mp h
  rw [List.map_eq_nil_iff.mp h]
  exact ⟨a, b, rfl, hx, hy⟩

theorem grants_collide : ∃ g g', (twoGrants []).grants = [g, g'] ∧ g.recipient ≠ g'.recipient ∧
    g.tx.nonce = g'.tx.nonce ∧ g.tx.id Prim.sample = g'.tx.id Prim.sample ∧ (twoGrants []).pool.snapshot = [g.tx] := by
  have hmap : (twoGrants []).grants.map (fun g => (g.recipient, g.tx.nonce)) =
      [(wordOf 32 (List.replicate 32 0x22), 1), (wordOf 32 (List.replicate 32 0x33), 1)] := by decide +kernel
  have hpool : (twoGrants []).pool.snapshot = ((twoGrants []).grants.take 1).map (·.tx) := by decide +kernel
  obtain ⟨g, g', hlist, hg, hg'⟩ := pair_of_map hmap
  obtain ⟨hk, hn⟩ := Prod.mk.inj hg
  obtain ⟨hk', hn'⟩ := Prod.mk.inj hg'
  have hw : Good Prim.sample sampleConfig (twoGrants []) := good_run (good_begin ..) _
  have hnonce : g.tx.nonce = g'.tx.nonce := hn.trans hn'.symm
  have hid : g.tx.id Prim.sample = g'.tx.id Prim.sample :=
    (hw.drawn g (by simp [hlist])).id_eq (hw.drawn g' (by simp [hlist])) hnonce
  refine ⟨g, g', hlist, ?_, hnonce, hid, ?_⟩
  · rw [hk, hk']
    decide +kernel
  · rw [hpool, hlist]
    rfl

/-- A block with the first grant comes before the second request. -/
theorem grants_differ_iff_block : ∃ g g', (twoGrants [.commit 1 []]).grants = [g, g'] ∧ g.asked = 0 ∧ g'.asked = 1 ∧
    g.tx.nonce ≠ g'.tx.nonce ∧ g.tx.id Prim.sample ≠ g'.tx.id Prim.sample := by
  have hmap : (twoGrants [.commit 1 []]).grants.map (fun g => (g.asked, g.tx.nonce)) = [(0, 1), (1, 2)] := by
    decide +kernel
  have hids : ((twoGrants [.commit 1 []]).grants.map fun g => LinkedMempool.idOf Prim.sample g.tx).Nodup := by
    decide +kernel
  obtain ⟨g, g', hlist, hg, hg'⟩ := pair_of_map hmap
  obtain ⟨ha, hn⟩ := Prod.mk.inj hg
  obtain ⟨ha', hn'⟩ := Prod.mk.inj hg'
  rw [hlist] at hids
  have hapart : LinkedMempool.idOf Prim.sample g.tx ≠ LinkedMempool.idOf Prim.sample g'.tx := by simpa using hids
  have hno : ∀ b b', serializeUnsigned Prim.sample g.tx = .ok b → serializeUnsigned Prim.sample g'.tx = .ok b' →
      NoCollision Prim.sample.hash b b' := by
    intro b b' hb hb' heq
    have hsame : g.tx.id Prim.sample = g'.tx.id Prim.sample := by rw [id_of_unsigned hb, id_of_unsigned hb', heq]
    exact absurd (congrArg Go.toOption hsame) hapart
  have hpair : [g, g'].Sublist (twoGrants [.commit 1 []]).grants := by rw [hlist]
  obtain ⟨-, hnonce, hid⟩ :=
    grants_differ_iff Prim.sample sampleConfig .empty 1000 0 (.new 8) _ g g' hpair hno
  have hne := hnonce.mpr (by rw [ha, ha']; decide)
  exact ⟨g, g', hlist, ha, ha', hne, hid.mpr hne⟩

end Frg.Faucet
