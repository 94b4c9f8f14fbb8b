/-
  Frg.Node.BlockSync — the block sync protocol (`core/p2p/blocksync.go`): a request for a range
  of heights, and the answer with the blocks that are there.

  The answer has its number of blocks in four bytes, and each block behind its length in four
  bytes. `handleBlockSync` keeps the blocks themselves within 128 MiB and does not count the
  lengths. `readBlockSyncResponse` has the same limit on the blocks, but reads through a
  `LimitReader` that ends 8 bytes behind it: enough for the number and the length of one block.

    - `servedBlocks_longest`: which blocks are sent.
    - `readBlocks_framed`, `readBlocks_short`: what the reader makes of an answer that fits
      and of one that does not.
    - `response_readable_iff`: the answer is read exactly when it fits with its lengths.
    - `two_full_blocks_unreadable`: two blocks of 64 MiB do not.
-/

import Frg.Core.Prim
import Frg.Lib.Reader
import Mathlib.Algebra.BigOperators.Group.List.Basic
import Mathlib.Algebra.GroupWithZero.Nat

namespace Frg.Node

open Frg.Lib Frg.Core

/-! ## The code -/

def blockSyncVersion : UInt8 := 1
def blockSyncMaxRange : Nat := 1024
def blockSyncMaxBlockBytes : Nat := 67108864
def blockSyncMaxResponseBytes : Nat := 134217728
def blockSyncHeaderBytes : Nat := 25

/-- `FRGSYNC\1` -/
def blockSyncMagic : List UInt8 := [0x46, 0x52, 0x47, 0x53, 0x59, 0x4E, 0x43, 0x01]

/-- The block at a height, `none` where there is none. -/
abbrev BlockProvider := UInt64 → Except Err (Option (List UInt8))

def readErr (e : ReadErr) : Err := .plain e.text

def writeBlockSyncRequest (fromHeight toHeight : UInt64) : List UInt8 :=
  blockSyncMagic ++ [blockSyncVersion] ++ u64 fromHeight.toNat ++ u64 toHeight.toNat

def parseBlockSyncRequest (request : List UInt8) : Res (UInt64 × UInt64) := do
  Go.check (request.take 8 = blockSyncMagic ∧ request[8]? = some blockSyncVersion) (.plain "invalid block sync request")
  let fromHeight := UInt64.ofNat (ofBE ((request.drop 9).take 8))
  let toHeight := UInt64.ofNat (ofBE ((request.drop 17).take 8))
  Go.check (fromHeight ≤ toHeight ∧ (toHeight - fromHeight).toNat < blockSyncMaxRange)
    (.plain "invalid block sync range")
  return (fromHeight, toHeight)

def readBlockSyncRequest : Act Err (List UInt8) (UInt64 × UInt64) := do
  let request ← Reader.readFull readErr blockSyncHeaderBytes
  Act.lift (parseBlockSyncRequest request)

/-- The loop of `handleBlockSync` over the heights of the request. It ends with the last height
    also where the height after it overflows. -/
def servedBlocks (provider : BlockProvider) (total : Nat) : List UInt64 → List (List UInt8)
  | [] => []
  | height :: heights =>
    match provider height with
    | .ok (some data) =>
      if data.length = 0 ∨ blockSyncMaxBlockBytes < data.length ∨
        blockSyncMaxResponseBytes < total + data.length then []
      else data :: servedBlocks provider (total + data.length) heights
    | _ => []

def heightsOf (fromHeight toHeight : UInt64) : List UInt64 :=
  (List.range (toHeight.toNat - fromHeight.toNat + 1)).map fun i => fromHeight + .ofNat i

/-- The blocks `handleBlockSync` answers with. -/
def selected (provider : Option BlockProvider) (fromHeight toHeight : UInt64) : List (List UInt8) :=
  match provider with
  | none => []
  | some provider => servedBlocks provider 0 (heightsOf fromHeight toHeight)

/-- `w.Write` to the stream; the state is what has been written. -/
def writeBytes (b : List UInt8) : Act Err (List UInt8) Unit := Act.write (· ++ b)

def writeBlock (block : List UInt8) : Act Err (List UInt8) Unit := do
  Act.check (¬ (block.length = 0 ∨ blockSyncMaxBlockBytes < block.length)) (.plain "invalid block sync response block")
  writeBytes (u32 block.length)
  writeBytes block

def writeBlockSyncResponse (blocks : List (List UInt8)) : Act Err (List UInt8) Unit := do
  writeBytes (u32 blocks.length)
  blocks.forM writeBlock

/-- What the handler writes to the stream of a request. -/
def handleBlockSync (provider : Option BlockProvider) (stream : List UInt8) : List UInt8 :=
  match (readBlockSyncRequest stream).1 with
  | .ok (fromHeight, toHeight) => (writeBlockSyncResponse (selected provider fromHeight toHeight) []).2
  | _ => []

def readBlocks : Nat → Nat → Act Err (List UInt8) (List (List UInt8))
  | 0, _ => pure []
  | count + 1, total => do
    let size ← Reader.readFull readErr 4
    let length := ofBE size
    Act.check (¬ (length = 0 ∨ blockSyncMaxBlockBytes < length ∨ blockSyncMaxResponseBytes < total + length))
      (.plain "block sync response exceeds limit")
    let block ← Reader.readFull readErr length
    let blocks ← readBlocks count (total + length)
    return block :: blocks

def readResponse : Act Err (List UInt8) (List (List UInt8)) := do
  let countBuf ← Reader.readFull readErr 4
  let count := ofBE countBuf
  Act.check (count ≤ blockSyncMaxRange) (.plain "block sync response count exceeds limit")
  readBlocks count 0

/-- The limit is on all the bytes of the answer. -/
def readBlockSyncResponse (stream : List UInt8) : Res (List (List UInt8)) :=
  (readResponse (stream.take (blockSyncMaxResponseBytes + 4 + 4))).1

/-! ## The request -/

theorem readBlockSyncRequest_write {fromHeight toHeight : UInt64} (hle : fromHeight ≤ toHeight)
    (hrange : (toHeight - fromHeight).toNat < blockSyncMaxRange) :
    (readBlockSyncRequest (writeBlockSyncRequest fromHeight toHeight)).1 = .ok (fromHeight, toHeight) := by
  have hlen : (writeBlockSyncRequest fromHeight toHeight).length = blockSyncHeaderBytes := by
    simp [writeBlockSyncRequest, blockSyncMagic, u64, blockSyncHeaderBytes]
  have hfull : Reader.readFull readErr blockSyncHeaderBytes (writeBlockSyncRequest fromHeight toHeight ++ []) =
      (.ok (writeBlockSyncRequest fromHeight toHeight), []) := Reader.readFull_append hlen
  have hfrom : ((writeBlockSyncRequest fromHeight toHeight).drop 9).take 8 = u64 fromHeight.toNat :=
    List.take_left' (length_toBE 8 _)
  have hto : ((writeBlockSyncRequest fromHeight toHeight).drop 17).take 8 = u64 toHeight.toNat := by
    have hdrop : (writeBlockSyncRequest fromHeight toHeight).drop 17 = u64 toHeight.toNat :=
      List.drop_left' (by simp [blockSyncMagic, u64])
    rw [hdrop]
    exact List.take_of_length_le (le_of_eq (length_toBE 8 _))
  have hparse : parseBlockSyncRequest (writeBlockSyncRequest fromHeight toHeight) = .ok (fromHeight, toHeight) := by
    unfold parseBlockSyncRequest
    rw [Go.check_pos ⟨rfl, rfl⟩, Go.ok_bind, hfrom, hto]
    unfold u64
    rw [ofBE_toBE 8 _ fromHeight.toNat_lt, ofBE_toBE 8 _ toHeight.toNat_lt, UInt64.ofNat_toNat, UInt64.ofNat_toNat]
    dsimp only
    rw [Go.check_pos ⟨hle, hrange⟩, Go.ok_bind, Go.pure_eq]
  rw [List.append_nil] at hfull
  unfold readBlockSyncRequest
  rw [Act.bind_of_ok hfull]
  exact hparse

/-! ## The blocks -/

/-- A block that can be sent and received. -/
def Sendable (block : List UInt8) : Prop := block.length ≠ 0 ∧ block.length ≤ blockSyncMaxBlockBytes

def payload (blocks : List (List UInt8)) : Nat := (blocks.map List.length).sum

@[simp] theorem payload_nil : payload [] = 0 := rfl

@[simp] theorem payload_cons (b : List UInt8) (blocks : List (List UInt8)) :
    payload (b :: blocks) = b.length + payload blocks := by
  simp [payload]

/-- The blocks of the first heights, up to a height that has none or one that does not fit. -/
structure LongestPrefix (provider : BlockProvider) (total : Nat) (heights : List UInt64) (blocks : List (List UInt8)) :
    Prop where
  available : List.Forall₂ (fun h b => provider h = .ok (some b)) (heights.take blocks.length) blocks
  sendable : ∀ b ∈ blocks, Sendable b
  fits : blocks = [] ∨ total + payload blocks ≤ blockSyncMaxResponseBytes
  longest : ∀ h, heights[blocks.length]? = some h → ∀ b, provider h = .ok (some b) →
    ¬ Sendable b ∨ blockSyncMaxResponseBytes < total + payload blocks + b.length

theorem servedBlocks_longest (provider : BlockProvider) (total : Nat) (heights : List UInt64) :
    LongestPrefix provider total heights (servedBlocks provider total heights) := by
  induction heights generalizing total with
  | nil => exact ⟨.nil, fun _ h => absurd h List.not_mem_nil, .inl rfl, fun h hh => by cases hh⟩
  | cons height heights ih =>
    -- nothing is sent from here on
    have hstop : (∀ b, provider height = .ok (some b) → ¬ Sendable b ∨ blockSyncMaxResponseBytes < total + b.length) →
        LongestPrefix provider total (height :: heights) [] := by
      intro hnone
      refine ⟨.nil, fun _ h => absurd h List.not_mem_nil, .inl rfl, ?_⟩
      intro h hh b hb
      obtain rfl := Option.some.inj hh
      exact hnone b hb
    unfold servedBlocks
    split
    · rename_i data hdata
      by_cases hbad : data.length = 0 ∨ blockSyncMaxBlockBytes < data.length ∨
          blockSyncMaxResponseBytes < total + data.length
      · rw [if_pos hbad]
        apply hstop
        intro b hb
        obtain rfl := Option.some.inj (Except.ok.inj (hdata.symm.trans hb))
        unfold Sendable
        omega
      · rw [if_neg hbad]
        have hrest := ih (total + data.length)
        refine ⟨.cons hdata hrest.available, ?_, .inr ?_, ?_⟩
        · intro b hb
          rcases List.mem_cons.mp hb with rfl | hb
          · unfold Sendable
            omega
          · exact hrest.sendable b hb
        · rcases hrest.fits with hnil | hfits
          · rw [hnil, payload_cons, payload_nil]
            omega
          · rw [payload_cons]
            omega
        · intro h hh b hb
          refine (hrest.longest h hh b hb).imp_right fun hover => ?_
          rw [payload_cons]
          omega
    · rename_i hno
      exact hstop fun b hb => absurd hb (hno b)

/-! ## The answer -/

/-- The blocks, each behind its length. -/
def framed (blocks : List (List UInt8)) : List UInt8 := blocks.flatMap fun b => u32 b.length ++ b

theorem framed_cons (b : List UInt8) (blocks : List (List UInt8)) :
    framed (b :: blocks) = u32 b.length ++ (b ++ framed blocks) := by
  simp [framed]

theorem writeBlocks_framed {blocks : List (List UInt8)} (h : ∀ b ∈ blocks, Sendable b) (out : List UInt8) :
    blocks.forM writeBlock out = (.ok (), out ++ framed blocks) := by
  induction blocks generalizing out with
  | nil => rw [framed, List.flatMap_nil, List.append_nil]; rfl
  | cons b blocks ih =>
    obtain ⟨⟨hpos, hmax⟩, hrest⟩ := List.forall_mem_cons.mp h
    have hwrite : writeBlock b out = (.ok (), out ++ u32 b.length ++ b) := by
      unfold writeBlock
      rw [Act.check_bind (by omega)]
      rfl
    show (writeBlock b >>= fun _ => blocks.forM writeBlock) out = _
    rw [Act.bind_of_ok hwrite, ih hrest, framed_cons]
    simp only [List.append_assoc]

theorem writeBlockSyncResponse_framed {blocks : List (List UInt8)} (h : ∀ b ∈ blocks, Sendable b) :
    (writeBlockSyncResponse blocks []).2 = u32 blocks.length ++ framed blocks := by
  have hcount : writeBytes (u32 blocks.length) [] = (.ok (), u32 blocks.length) := rfl
  unfold writeBlockSyncResponse
  rw [Act.bind_of_ok hcount, writeBlocks_framed h]

theorem readBlocks_step {b rest : List UInt8} (hb : Sendable b) {total m count : Nat}
    (hfits : total + b.length ≤ blockSyncMaxResponseBytes) (hm : 4 + b.length ≤ m) :
    readBlocks (count + 1) total ((u32 b.length ++ (b ++ rest)).take m) =
      (readBlocks count (total + b.length) >>= fun blocks => pure (b :: blocks)) (rest.take (m - 4 - b.length)) := by
  obtain ⟨hpos, hmax⟩ := hb
  have hwide : blockSyncMaxBlockBytes < 256 ^ 4 := by decide
  have hsize : Reader.readFull readErr 4 ((u32 b.length ++ (b ++ rest)).take m) =
      (.ok (u32 b.length), (b ++ rest).take (m - 4)) := Reader.readFull_take (length_toBE 4 _) (by omega)
  have hblock : Reader.readFull readErr b.length ((b ++ rest).take (m - 4)) =
      (.ok b, rest.take (m - 4 - b.length)) := Reader.readFull_take rfl (by omega)
  rw [readBlocks, Act.bind_of_ok hsize, u32, ofBE_toBE 4 _ (by omega), Act.check_bind (by omega), Act.bind_of_ok hblock]

theorem readBlocks_cut {b rest : List UInt8} (hb : Sendable b) {total m count : Nat}
    (hfits : total + b.length ≤ blockSyncMaxResponseBytes) (hm : m < 4 + b.length) :
    ∃ e s, readBlocks (count + 1) total ((u32 b.length ++ (b ++ rest)).take m) = (.err e, s) := by
  obtain ⟨hpos, hmax⟩ := hb
  have hwide : blockSyncMaxBlockBytes < 256 ^ 4 := by decide
  rw [readBlocks]
  by_cases hfour : 4 ≤ m
  · have hsize : Reader.readFull readErr 4 ((u32 b.length ++ (b ++ rest)).take m) =
        (.ok (u32 b.length), (b ++ rest).take (m - 4)) := Reader.readFull_take (length_toBE 4 _) hfour
    obtain ⟨e, hblock⟩ : ∃ e, Reader.readFull readErr b.length ((b ++ rest).take (m - 4)) = (.err e, []) :=
      Reader.readFull_short (by omega)
    rw [Act.bind_of_ok hsize, u32, ofBE_toBE 4 _ (by omega), Act.check_bind (by omega), Act.bind_run, hblock]
    exact ⟨e, [], rfl⟩
  · obtain ⟨e, hsize⟩ : ∃ e, Reader.readFull readErr 4 ((u32 b.length ++ (b ++ rest)).take m) = (.err e, []) :=
      Reader.readFull_short (by omega)
    rw [Act.bind_run, hsize]
    exact ⟨e, [], rfl⟩

theorem readBlocks_framed {blocks : List (List UInt8)} (h : ∀ b ∈ blocks, Sendable b) {total m : Nat}
    (hfits : total + payload blocks ≤ blockSyncMaxResponseBytes) (hm : 4 * blocks.length + payload blocks ≤ m) :
    ∃ rest, readBlocks blocks.length total ((framed blocks).take m) = (.ok blocks, rest) := by
  induction blocks generalizing total m with
  | nil => exact ⟨_, rfl⟩
  | cons b blocks ih =>
    obtain ⟨hb, hrest⟩ := List.forall_mem_cons.mp h
    rw [payload_cons] at hfits hm
    rw [List.length_cons] at hm
    obtain ⟨rest, hread⟩ := ih hrest (show total + b.length + payload blocks ≤ _ by omega)
      (show 4 * blocks.length + payload blocks ≤ m - 4 - b.length by omega)
    refine ⟨rest, ?_⟩
    rw [framed_cons, List.length_cons, readBlocks_step hb (by omega) (by omega), Act.bind_of_ok hread]
    rfl

theorem readBlocks_short {blocks : List (List UInt8)} (h : ∀ b ∈ blocks, Sendable b) {total m : Nat}
    (hfits : total + payload blocks ≤ blockSyncMaxResponseBytes) (hm : m < 4 * blocks.length + payload blocks) :
    ∃ e rest, readBlocks blocks.length total ((framed blocks).take m) = (.err e, rest) := by
  induction blocks generalizing total m with
  | nil => exact absurd hm (Nat.not_lt_zero m)
  | cons b blocks ih =>
    obtain ⟨hb, hrest⟩ := List.forall_mem_cons.mp h
    rw [payload_cons] at hfits hm
    rw [List.length_cons] at hm
    rw [framed_cons, List.length_cons]
    by_cases hfirst : 4 + b.length ≤ m
    · obtain ⟨e, rest, hread⟩ := ih hrest (show total + b.length + payload blocks ≤ _ by omega)
        (show m - 4 - b.length < 4 * blocks.length + payload blocks by omega)
      rw [readBlocks_step hb (by omega) hfirst, Act.bind_run, hread]
      exact ⟨e, rest, rfl⟩
    · exact readBlocks_cut hb (by omega) (by omega)

theorem readBlockSyncResponse_framed {blocks : List (List UInt8)} (h : ∀ b ∈ blocks, Sendable b)
    (hfits : payload blocks ≤ blockSyncMaxResponseBytes) (hcount : blocks.length ≤ blockSyncMaxRange) :
    if 4 * blocks.length + payload blocks ≤ blockSyncMaxResponseBytes + 4 then
      readBlockSyncResponse (u32 blocks.length ++ framed blocks) = .ok blocks
    else ∃ e, readBlockSyncResponse (u32 blocks.length ++ framed blocks) = .err e := by
  have hwide : blockSyncMaxRange < 256 ^ 4 := by decide
  have hread :
      Reader.readFull readErr 4 ((u32 blocks.length ++ framed blocks).take (blockSyncMaxResponseBytes + 4 + 4)) =
      (.ok (u32 blocks.length), (framed blocks).take (blockSyncMaxResponseBytes + 4)) :=
    Reader.readFull_take (length_toBE 4 _) (by omega)
  have hsum : 0 + payload blocks ≤ blockSyncMaxResponseBytes := by omega
  unfold readBlockSyncResponse readResponse
  rw [Act.bind_of_ok hread, u32, ofBE_toBE 4 _ (by omega), Act.check_bind hcount]
  split
  · rename_i hle
    obtain ⟨rest, hok⟩ := readBlocks_framed h hsum hle
    rw [hok]
  · rename_i hlt
    obtain ⟨e, rest, herr⟩ := readBlocks_short h hsum (Nat.lt_of_not_le hlt)
    exact ⟨e, by rw [herr]⟩

/-! ## Requests and their answers -/

theorem length_heightsOf {fromHeight toHeight : UInt64} (hle : fromHeight ≤ toHeight)
    (hrange : (toHeight - fromHeight).toNat < blockSyncMaxRange) :
    (heightsOf fromHeight toHeight).length ≤ blockSyncMaxRange := by
  rw [UInt64.toNat_sub_of_le _ _ hle] at hrange
  rw [heightsOf, List.length_map, List.length_range]
  omega

theorem LongestPrefix.length_le {provider : BlockProvider} {total : Nat} {heights : List UInt64}
    {blocks : List (List UInt8)} (h : LongestPrefix provider total heights blocks) :
    blocks.length ≤ heights.length := by
  have hlen := h.available.length_eq
  rw [List.length_take] at hlen
  omega

theorem selected_bounds (provider : Option BlockProvider) {fromHeight toHeight : UInt64} (hle : fromHeight ≤ toHeight)
    (hrange : (toHeight - fromHeight).toNat < blockSyncMaxRange) :
    (∀ b ∈ selected provider fromHeight toHeight, Sendable b) ∧
    payload (selected provider fromHeight toHeight) ≤ blockSyncMaxResponseBytes ∧
    (selected provider fromHeight toHeight).length ≤ blockSyncMaxRange := by
  cases provider with
  | none => exact ⟨fun _ h => absurd h List.not_mem_nil, Nat.zero_le _, Nat.zero_le _⟩
  | some provider =>
    have h := servedBlocks_longest provider 0 (heightsOf fromHeight toHeight)
    refine ⟨h.sendable, ?_, le_trans h.length_le (length_heightsOf hle hrange)⟩
    unfold selected
    rcases h.fits with hnil | hfits
    · simp only [hnil, payload_nil]
      omega
    · simpa using hfits

theorem handleBlockSync_request (provider : Option BlockProvider) {fromHeight toHeight : UInt64}
    (hle : fromHeight ≤ toHeight) (hrange : (toHeight - fromHeight).toNat < blockSyncMaxRange) :
    handleBlockSync provider (writeBlockSyncRequest fromHeight toHeight) =
      u32 (selected provider fromHeight toHeight).length ++ framed (selected provider fromHeight toHeight) := by
  unfold handleBlockSync
  rw [readBlockSyncRequest_write hle hrange]
  exact writeBlockSyncResponse_framed (selected_bounds provider hle hrange).1

/-- The answer to a request is read back as the blocks it was made of exactly when the blocks and
    their lengths fit in 128 MiB and four bytes; if they do not, it is not read at all. -/
theorem response_readable_iff (provider : Option BlockProvider) {fromHeight toHeight : UInt64}
    (hle : fromHeight ≤ toHeight) (hrange : (toHeight - fromHeight).toNat < blockSyncMaxRange) :
    (∀ p, provider = some p →
      LongestPrefix p 0 (heightsOf fromHeight toHeight) (selected provider fromHeight toHeight)) ∧
    (readBlockSyncResponse (handleBlockSync provider (writeBlockSyncRequest fromHeight toHeight)) =
        .ok (selected provider fromHeight toHeight) ↔
      4 * (selected provider fromHeight toHeight).length + payload (selected provider fromHeight toHeight) ≤
        blockSyncMaxResponseBytes + 4) ∧
    ((∃ blocks, readBlockSyncResponse (handleBlockSync provider (writeBlockSyncRequest fromHeight toHeight)) =
        .ok blocks) →
      4 * (selected provider fromHeight toHeight).length + payload (selected provider fromHeight toHeight) ≤
        blockSyncMaxResponseBytes + 4) := by
  obtain ⟨hsend, hfits, hcount⟩ := selected_bounds provider hle hrange
  have hread := readBlockSyncResponse_framed hsend hfits hcount
  rw [handleBlockSync_request provider hle hrange]
  refine ⟨?_, ?_, ?_⟩
  · intro p hp
    subst hp
    exact servedBlocks_longest p 0 _
  · split at hread
    · rename_i hroom
      exact iff_of_true hread hroom
    · rename_i hroom
      obtain ⟨e, herr⟩ := hread
      rw [herr]
      exact iff_of_false (fun h => by cases h) hroom
  · rintro ⟨blocks, hok⟩
    split at hread
    · assumption
    · obtain ⟨e, herr⟩ := hread
      cases herr.symm.trans hok

theorem response_readable_short : readBlockSyncResponse (handleBlockSync (some fun _ => .ok (some [1, 2, 3]))
    (writeBlockSyncRequest 5 6)) = .ok [[1, 2, 3], [1, 2, 3]] :=
  (response_readable_iff _ (by decide) (by decide)).2.1.mpr (by decide)

/-- Two blocks of the largest size there can be fill the answer, and the reader stops four bytes
    before its end. -/
theorem full_blocks_unreadable {block : List UInt8} (hlen : block.length = blockSyncMaxBlockBytes) :
    selected (some fun _ => .ok (some block)) 1 2 = [block, block] ∧
    ∃ e, readBlockSyncResponse (handleBlockSync (some fun _ => .ok (some block)) (writeBlockSyncRequest 1 2)) =
      .err e := by
  have hselected : selected (some fun _ => .ok (some block)) 1 2 = [block, block] := by
    have hheights : heightsOf 1 2 = [1, 2] := rfl
    unfold selected
    rw [hheights]
    simp [servedBlocks, hlen, blockSyncMaxBlockBytes, blockSyncMaxResponseBytes]
  have hle : (1 : UInt64) ≤ 2 := by decide
  have hrange : ((2 : UInt64) - 1).toNat < blockSyncMaxRange := by decide
  obtain ⟨hsend, hfits, hcount⟩ := selected_bounds (some fun _ => .ok (some block)) hle hrange
  have hread := readBlockSyncResponse_framed hsend hfits hcount
  have hover : ¬ 4 * 2 + (blockSyncMaxBlockBytes + (blockSyncMaxBlockBytes + 0)) ≤ blockSyncMaxResponseBytes + 4 := by
    decide
  rw [hselected, payload_cons, payload_cons, payload_nil, hlen, List.length_cons, List.length_singleton,
    if_neg hover] at hread
  refine ⟨hselected, ?_⟩
  rw [handleBlockSync_request _ hle hrange, hselected]
  exact hread

def fullBlock : List UInt8 := List.replicate blockSyncMaxBlockBytes 0

theorem two_full_blocks_unreadable :
    selected (some fun _ => .ok (some fullBlock)) 1 2 = [fullBlock, fullBlock] ∧
    ∃ e, readBlockSyncResponse (handleBlockSync (some fun _ => .ok (some fullBlock)) (writeBlockSyncRequest 1 2)) =
      .err e :=
  full_blocks_unreadable List.length_replicate

end Frg.Node
