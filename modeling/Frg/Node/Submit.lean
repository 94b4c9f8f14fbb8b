/-
  Frg.Node.Submit — transactions handed to a node over gRPC (`cmd/frg-node/grpc_server.go`).

  A request is bounded three times: by the message size the server was made with
  (`MaxRecvMsgSize`; how gRPC counts it is a parameter), by the number of transactions of a
  batch, and by a limiter that counts requests and transactions of each peer in windows of
  one second. Then every transaction is decoded and its signature verified; the first that
  fails ends the request.

    - `serveBatch_admits`: a batch of good transactions within the bounds comes to the broadcast.
    - `serveBatch_refuses`: one above a bound does not, whatever its transactions are.
    - `serveBatch_accepts_iff`: so the bounds decide about the batches of a quiet peer.
-/

import Frg.Lib.Bucket
import Frg.Wire.Tx
import Mathlib.Algebra.GroupWithZero.Nat

namespace Frg.Node

open Frg.Lib Frg.Core Frg.Wire

/-! ## The limiter -/

/-- In nanoseconds, as all times here. -/
def submitWindow : Int := 1000000000
def maxSubmitTxPerPeer : Int := 2048
def maxSubmitReqsPerPeer : Int := 128
def maxTrackedSubmitPeers : Nat := 4096

structure SubmitWindowState where
  started : Int
  txs : Int
  requests : Int
  deriving DecidableEq

def SubmitWindowState.fresh (now : Int) : SubmitWindowState := ⟨now, 0, 0⟩

structure SubmitLimiter where
  peers : Bucket (List UInt8) SubmitWindowState

def newSubmitLimiter : SubmitLimiter := ⟨.empty⟩

def rateLimitExceeded : Err := .plain "rpc error: code = ResourceExhausted desc = submission rate limit exceeded"
def tooManyClients : Err := .plain "rpc error: code = ResourceExhausted desc = too many submission clients"

/-- `unknown`, for a call without a peer address. -/
def unknownPeer : List UInt8 := [0x75, 0x6E, 0x6B, 0x6E, 0x6F, 0x77, 0x6E]

/-- The loop that forgets peers whose window is over. -/
def evict (now : Int) (peers : Bucket (List UInt8) SubmitWindowState) : Bucket (List UInt8) SubmitWindowState :=
  peers.entries.foldl (fun b e => if submitWindow ≤ now - e.2.started then b.delete e.1 else b) peers

/-- The window a peer has, or a new one if there is room for it; and the peers after the search. -/
def SubmitLimiter.windowOf (l : SubmitLimiter) (key : List UInt8) (now : Int) :
    Option SubmitWindowState × SubmitLimiter :=
  match l.peers.get key with
  | some state => (some state, l)
  | none =>
    if maxTrackedSubmitPeers ≤ l.peers.entries.length then
      let peers := evict now l.peers
      if maxTrackedSubmitPeers ≤ peers.entries.length then (none, ⟨peers⟩) else (some (.fresh now), ⟨peers⟩)
    else (some (.fresh now), l)

/-- Count one request of `txCount` transactions, or refuse it. What was evicted stays so. -/
def allow (peer : Option (List UInt8)) (now : Int) (txCount : Int) : Act Err SubmitLimiter Unit := fun l =>
  if txCount < 1 ∨ maxSubmitTxPerPeer < txCount then (.err rateLimitExceeded, l)
  else
    let key := peer.getD unknownPeer
    match l.windowOf key now with
    | (none, l) => (.err tooManyClients, l)
    | (some state, l) =>
      let state := if submitWindow ≤ now - state.started then .fresh now else state
      if maxSubmitReqsPerPeer ≤ state.requests ∨ maxSubmitTxPerPeer < state.txs + txCount then
        (.err rateLimitExceeded, ⟨l.peers.put key state⟩)
      else
        (.ok (), ⟨l.peers.put key { state with requests := state.requests + 1, txs := state.txs + txCount }⟩)

/-! ## The calls -/

structure SubmitResponse where
  ok : Bool
  error : String
  deriving DecidableEq

/-- What a caller sees of a call: an answer or an error of the connection. -/
abbrev Answer := Except Err SubmitResponse

/-- What the server has of a call beside its message: what `ctx.Err()` gives each time it is
    asked, the answer of the authorizer, the peer and the time. -/
structure Request where
  ctxErr : Nat → Option Err
  authorized : Res Unit
  peer : Option (List UInt8)
  now : Int

def Request.checkCtx (r : Request) (n : Nat) : Res Unit :=
  match r.ctxErr n with
  | none => .ok ()
  | some e => .err e

/-- An error is answered, not returned. -/
def reply {σ α : Type} (x : Res α) (k : α → Act Err σ SubmitResponse) : Act Err σ SubmitResponse :=
  match x with
  | .ok a => k a
  | .err e => pure ⟨false, e.msg⟩
  | .panic w => .stop w

variable (P : Prim) (chainID : List UInt8)

def submitTx (broadcast : Tx → Res Unit) (r : Request) (data : List UInt8) : Act Err SubmitLimiter SubmitResponse := do
  .lift (r.checkCtx 0)
  .lift r.authorized
  if maxTxBytes < data.length then return ⟨false, "transaction payload exceeds size limit"⟩
  allow r.peer r.now 1
  reply (deserialize P data) fun t => reply (verifySigsForChain P t chainID) fun _ => do
    .lift (r.checkCtx 1)
    reply (broadcast t) fun _ => return ⟨true, ""⟩

/-- The loop over the transactions of a batch: the batch, or the answer that ends the call. -/
def readBatch (r : Request) : Nat → List (List UInt8) → List Tx → Res (Except SubmitResponse (List Tx))
  | _, [], batch => .ok (.ok batch)
  | n, raw :: rest, batch => do
    r.checkCtx n
    if maxTxBytes < raw.length then .ok (.error ⟨false, "transaction payload exceeds size limit"⟩)
    else
      match deserialize P raw with
      | .err e => .ok (.error ⟨false, e.msg⟩)
      | .panic w => .panic w
      | .ok t =>
        match verifySigsForChain P t chainID with
        | .err e => .ok (.error ⟨false, e.msg⟩)
        | .panic w => .panic w
        | .ok _ => readBatch r (n + 1) rest (batch ++ [t])

def maxBatchSize : Nat := 1024

def submitBatch (broadcast : List Tx → Res Unit) (r : Request) (data : List (List UInt8)) :
    Act Err SubmitLimiter SubmitResponse := do
  .lift (r.checkCtx 0)
  .lift r.authorized
  if data.length = 0 ∨ maxBatchSize < data.length then return ⟨false, "batch size is invalid"⟩
  allow r.peer r.now data.length
  match ← .lift (readBatch P chainID r 1 data []) with
  | .error resp => return resp
  | .ok batch => reply (broadcast batch) fun _ => return ⟨true, ""⟩

/-! ## The message -/

/-- What is gRPC's own: the size of a message, and its answer to one above the bound. -/
structure Grpc where
  size : List (List UInt8) → Nat
  tooLarge : Nat → Err

/-- Protobuf adds a tag and a length of at most ten bytes to each item. -/
def Grpc.Framed (g : Grpc) : Prop := ∀ data, g.size data ≤ (data.map fun raw => raw.length + 11).sum

/-- `grpc.MaxRecvMsgSize(8 << 20)`. -/
def maxRecvMsgSize : Nat := 8388608

variable (g : Grpc)

/-- `SubmitBatch` behind the server that receives its message. -/
def serveBatch (broadcast : List Tx → Res Unit) (r : Request) (data : List (List UInt8)) :
    Act Err SubmitLimiter SubmitResponse := do
  .check (g.size data ≤ maxRecvMsgSize) (g.tooLarge (g.size data))
  submitBatch P chainID broadcast r data

/-! ## What is let through -/

/-- The peer's last window is over, or it never had one. -/
def Quiet (l : SubmitLimiter) (r : Request) : Prop :=
  ∀ state, l.peers.get (r.peer.getD unknownPeer) = some state → submitWindow ≤ r.now - state.started

/-- The limiter has the peer, or can take one more. -/
def HasRoom (l : SubmitLimiter) (r : Request) : Prop :=
  (l.peers.get (r.peer.getD unknownPeer)).isSome ∨ l.peers.entries.length < maxTrackedSubmitPeers ∨
    (evict r.now l.peers).entries.length < maxTrackedSubmitPeers

/-- The call is neither cancelled nor unauthorised. -/
structure Request.Live (r : Request) : Prop where
  ctx : ∀ n, r.ctxErr n = none
  authorized : r.authorized = .ok ()

/-- The bytes are those of a transaction that passes the checks of `SubmitBatch`. -/
structure Admissible (P : Prim) (chainID : List UInt8) (raw : List UInt8) (t : Tx) : Prop where
  size : raw.length ≤ maxTxBytes
  decoded : deserialize P raw = .ok t
  signed : verifySigsForChain P t chainID = .ok ()

variable {P : Prim} {chainID : List UInt8} {g : Grpc} {r : Request} {l : SubmitLimiter} {data : List (List UInt8)}
  {broadcast : List Tx → Res Unit}

theorem windowOf_room (hroom : HasRoom l r) :
    ∃ state l', l.windowOf (r.peer.getD unknownPeer) r.now = (some state, l') ∧
    (l.peers.get (r.peer.getD unknownPeer) = some state ∨ state = .fresh r.now) := by
  unfold SubmitLimiter.windowOf
  split
  · rename_i state hget
    exact ⟨state, l, rfl, Or.inl hget⟩
  · rename_i hget
    dsimp only
    split
    · rename_i hfull
      rcases hroom with hsome | hlt | hlt
      · rw [hget] at hsome
        cases hsome
      · exact absurd hlt (Nat.not_lt.mpr hfull)
      · rw [if_neg (Nat.not_le.mpr hlt)]
        exact ⟨_, _, rfl, Or.inr rfl⟩
    · exact ⟨_, _, rfl, Or.inr rfl⟩

theorem windowOf_full (hroom : ¬ HasRoom l r) : ∃ l', l.windowOf (r.peer.getD unknownPeer) r.now = (none, l') := by
  obtain ⟨hnone, hfull, hstill⟩ := not_or.mp hroom |>.imp id not_or.mp
  rw [Bool.not_eq_true, Option.isSome_eq_false_iff, Option.isNone_iff_eq_none] at hnone
  unfold SubmitLimiter.windowOf
  rw [hnone]
  dsimp only
  rw [if_pos (Nat.not_lt.mp hfull), if_pos (Nat.not_lt.mp hstill)]
  exact ⟨_, rfl⟩

theorem allow_quiet (hquiet : Quiet l r) (hroom : HasRoom l r) {n : Int} (hpos : 1 ≤ n) (hle : n ≤ maxSubmitTxPerPeer) :
    ∃ l', allow r.peer r.now n l = (.ok (), l') := by
  obtain ⟨state, l', hwindow, hstate⟩ := windowOf_room hroom
  have hfresh : (if submitWindow ≤ r.now - state.started then SubmitWindowState.fresh r.now else state) =
      .fresh r.now := by
    rcases hstate with hget | rfl
    · exact if_pos (hquiet state hget)
    · exact ite_self _
  unfold allow
  rw [if_neg (by omega)]
  dsimp only
  rw [hwindow]
  dsimp only
  rw [hfresh, if_neg]
  · exact ⟨_, rfl⟩
  · show ¬ (maxSubmitReqsPerPeer ≤ 0 ∨ maxSubmitTxPerPeer < 0 + n)
    unfold maxSubmitReqsPerPeer
    omega

theorem allow_full (hroom : ¬ HasRoom l r) (n : Int) : ∃ e l', allow r.peer r.now n l = (.err e, l') := by
  obtain ⟨l', hwindow⟩ := windowOf_full hroom
  unfold allow
  split
  · exact ⟨_, _, rfl⟩
  · dsimp only
    rw [hwindow]
    exact ⟨_, _, rfl⟩

theorem readBatch_admissible (hctx : ∀ n, r.ctxErr n = none) {ts : List Tx}
    (h : List.Forall₂ (Admissible P chainID) data ts) :
    ∀ n batch, readBatch P chainID r n data batch = .ok (.ok (batch ++ ts)) := by
  induction h with
  | nil =>
    intro n batch
    rw [List.append_nil]
    rfl
  | @cons raw t data ts hraw _ ih =>
    intro n batch
    have hn : r.checkCtx n = .ok () := by
      unfold Request.checkCtx
      rw [hctx n]
    unfold readBatch
    rw [hn, Go.ok_bind, if_neg (Nat.not_lt.mpr hraw.size), hraw.decoded]
    dsimp only
    rw [hraw.signed]
    dsimp only
    rw [ih, List.append_assoc]
    rfl

/-- The answer to a batch that came to its broadcast. -/
def answerOf (x : Res Unit) : Res SubmitResponse :=
  match x with
  | .ok _ => .ok ⟨true, ""⟩
  | .err e => .ok ⟨false, e.msg⟩
  | .panic w => .panic w

/-- The bounds of a batch. -/
structure Fits (g : Grpc) (l : SubmitLimiter) (r : Request) (data : List (List UInt8)) : Prop where
  count : data.length ≤ maxBatchSize
  size : g.size data ≤ maxRecvMsgSize
  room : HasRoom l r

theorem serveBatch_admits (hlive : r.Live) (hquiet : Quiet l r) (hfits : Fits g l r data) (hne : data ≠ [])
    {ts : List Tx} (h : List.Forall₂ (Admissible P chainID) data ts) (broadcast : List Tx → Res Unit) :
    (serveBatch P chainID g broadcast r data l).1 = answerOf (broadcast ts) := by
  have hpos : 0 < data.length := List.length_pos_iff.mpr hne
  have hcount : data.length ≤ 1024 := hfits.count
  have hctx : r.checkCtx 0 = .ok () := by
    unfold Request.checkCtx
    rw [hlive.ctx 0]
  obtain ⟨l', hallow⟩ := allow_quiet hquiet hfits.room (n := (data.length : Int)) (by omega)
    (by unfold maxSubmitTxPerPeer; omega)
  unfold serveBatch submitBatch
  rw [Act.check_bind hfits.size, Act.lift_bind hctx, Act.lift_bind hlive.authorized,
    if_neg (by unfold maxBatchSize; omega)]
  rw [Act.bind_of_ok hallow, Act.lift_bind (readBatch_admissible hlive.ctx h 1 [])]
  rw [List.nil_append]
  dsimp only
  unfold reply answerOf
  cases broadcast ts <;> rfl

theorem serveBatch_refuses (hfits : ¬ Fits g l r data) (broadcast : List Tx → Res Unit) {resp : SubmitResponse}
    {l' : SubmitLimiter} (h : serveBatch P chainID g broadcast r data l = (.ok resp, l')) : resp.ok = false := by
  unfold serveBatch submitBatch at h
  obtain ⟨_, _, hcheck, h⟩ := Act.bind_ok.mp h
  obtain ⟨hsize, rfl⟩ := Act.check_ok.mp hcheck
  obtain ⟨_, _, hctx, h⟩ := Act.bind_ok.mp h
  obtain ⟨-, rfl⟩ := Act.lift_ok.mp hctx
  obtain ⟨_, _, hauth, h⟩ := Act.bind_ok.mp h
  obtain ⟨-, rfl⟩ := Act.lift_ok.mp hauth
  by_cases hcount : data.length = 0 ∨ maxBatchSize < data.length
  · rw [if_pos hcount] at h
    obtain ⟨rfl, -⟩ := Act.pure_ok.mp h
    rfl
  · rw [if_neg hcount] at h
    obtain ⟨_, _, hallow, -⟩ := Act.bind_ok.mp h
    have hroom : ¬ HasRoom l r := fun hroom => hfits ⟨by omega, hsize, hroom⟩
    obtain ⟨e, l1, herr⟩ := allow_full hroom data.length
    rw [herr] at hallow
    cases hallow

/-- A batch of good transactions of a quiet peer is accepted exactly when it is within the bounds. -/
theorem serveBatch_accepts_iff (hlive : r.Live) (hquiet : Quiet l r) (hne : data ≠ []) {ts : List Tx}
    (h : List.Forall₂ (Admissible P chainID) data ts) {broadcast : List Tx → Res Unit} (hb : broadcast ts = .ok ()) :
    (serveBatch P chainID g broadcast r data l).1 = .ok ⟨true, ""⟩ ↔ Fits g l r data := by
  constructor
  · intro hok
    by_contra hfits
    have hfalse := serveBatch_refuses hfits broadcast (Prod.ext hok rfl)
    cases hfalse
  · intro hfits
    rw [serveBatch_admits hlive hquiet hfits hne h, hb]
    rfl

end Frg.Node
