/-
  Frg.Chain.BlockStore — the stored blocks (`core/statemachine/blockstore.go`): reading both
  versions of the format, `BlockAt`, and `Blocks` over a range of heights.

  A stored block nests the batch of its transactions. Its own count has 32 bits, the one of
  the batch 16, so a block of 65536 transactions, which the tree and the batch accept, is
  stored and cannot be read.

    - `deserializeBlock_serializeBlock`: a block of fewer decoded transactions is read back.
    - `block_store_faithful`: in every run of such blocks, every height up to the current one
      has the block that was applied there, with its computed state root, and the next block
      changes no entry.
    - `full_block_unreadable`: a block of 65536 transactions is accepted; `BlockAt` fails on it.
-/

import Frg.Chain.Skipped
import Frg.RG.Coarsen
import Frg.Wire.RoundTrip

namespace Frg.Chain

open Frg.Lib Frg.Core Frg.Wire Frg.RG Act

/-- `FRG_BLOCK_V1\0` -/
def blockMagicV1 : List UInt8 := [0x46, 0x52, 0x47, 0x5F, 0x42, 0x4C, 0x4F, 0x43, 0x4B, 0x5F, 0x56, 0x31, 0x00]

def maxBlockRange : Nat := 1024

variable (W : World)

/-! ## Reading blocks -/

/-- The transactions of a stored block, from its batch and its own count. -/
def storedTxs (count : Nat) (batch : List UInt8) : Res (List Tx) :=
  if count = 0 then do
    Go.check (batch = []) (.plain "stored empty block has trailing bytes")
    return []
  else do
    let txs ← deserializeBatch W.toPrim batch
    Go.check (txs.length = count) (.plain "stored block transaction count mismatch")
    return txs

/-- The first version has neither roots nor a proposal. -/
def deserializeV1Block (data : List UInt8) : Res Block := do
  let height ← uintAt 8 data 13
  let proposerPubKey ← slice data 21 53
  let count ← uintAt 4 data 53
  let txs ← storedTxs W count (data.drop 57)
  return { height := .ofNat height, txs, proposerPubKey := wordOf 32 proposerPubKey, prevStateRoot := 0, stateRoot := 0
           proposalBytes := [] }

/-- The second version: the proposal stands at the end, the batch before it. -/
def deserializeV2Block (data : List UInt8) : Res Block := do
  let height ← uintAt 8 data 13
  let proposerPubKey ← slice data 21 53
  let prevStateRoot ← slice data 53 85
  let stateRoot ← slice data 85 117
  let count ← uintAt 4 data 117
  let proposalLen ← uintAt 4 data 121
  Go.check (proposalLen ≤ data.length - 125) (.plain "invalid stored proposal length")
  let batchEnd := data.length - proposalLen
  Go.check (125 ≤ batchEnd) (.plain "invalid stored block payload")
  let batch ← slice data 125 batchEnd
  let txs ← storedTxs W count batch
  return { height := .ofNat height, txs, proposerPubKey := wordOf 32 proposerPubKey
           prevStateRoot := wordOf 32 prevStateRoot, stateRoot := wordOf 32 stateRoot
           proposalBytes := data.drop batchEnd }

def deserializeBlock (data : List UInt8) : Res Block := do
  Go.check (57 ≤ data.length ∧ data.length ≤ maxStoredBlockBytes) (.plain "invalid stored block")
  let magic ← slice data 0 13
  if magic = blockMagicV1 then deserializeV1Block W data
  else do
    Go.check (magic = blockMagicV2 ∧ 125 ≤ data.length) (.plain "invalid stored block")
    deserializeV2Block W data

/-- The block at a height, absent when none is stored. -/
def blockAt (db : DB) (height : UInt64) : Res (Option Block) :=
  match db.blocks.get (blockKey height) with
  | none => .ok none
  | some data => do
    let b ← deserializeBlock W data
    return some b

/-- `n` heights from one on, up to the first without a block. -/
def blocksFrom (db : DB) (height : UInt64) : Nat → Res (List Block)
  | 0 => return []
  | n + 1 => do
    match ← blockAt W db height with
    | none => return []
    | some b =>
      let bs ← blocksFrom db (height + 1) n
      return b :: bs

def blocks (db : DB) (first last : UInt64) : Res (List Block) := do
  Go.check (first ≤ last) (.plain "invalid block range")
  Go.check ((last - first).toNat < maxBlockRange) (.plain s!"block range exceeds {maxBlockRange} blocks")
  blocksFrom W db first ((last - first).toNat + 1)

/-! ## Round trip -/

section

variable {W} {b : Block} {data batch : List UInt8}

theorem serializeBlock_ok : serializeBlock W b = .ok data ↔ ∃ batch, blockBatch W b.txs = .ok batch ∧
    b.proposalBytes.length ≤ maxStoredBlockBytes ∧ data.length ≤ maxStoredBlockBytes ∧
      data = blockMagicV2 ++ (toBE 8 b.height.toNat ++ (b.proposerPubKey.bytes ++ (b.prevStateRoot.bytes ++
        (b.stateRoot.bytes ++ (toBE 4 b.txs.length ++ (toBE 4 b.proposalBytes.length ++
        (batch ++ b.proposalBytes))))))) := by
  unfold serializeBlock
  simp only [u64, u32, List.append_assoc]
  constructor
  · intro h
    obtain ⟨batch, hb, h⟩ := Go.bind_eq_ok.mp h
    obtain ⟨_, hp, h⟩ := Go.bind_eq_ok.mp h
    obtain ⟨_, hmax, h⟩ := Go.bind_eq_ok.mp h
    have hdata := (Go.ok.inj h).symm
    exact ⟨batch, hb, Go.check_eq_ok.mp hp, hdata ▸ Go.check_eq_ok.mp hmax, hdata⟩
  · rintro ⟨batch, hb, hp, hmax, hdata⟩
    rw [hb, Go.ok_bind, Go.check_pos hp, Go.ok_bind, ← hdata, Go.check_pos hmax, Go.ok_bind, Go.pure_eq]

theorem blockBatch_length {txs : List Tx} (h : blockBatch W txs = .ok batch) : txs.length ≤ 65536 := by
  unfold blockBatch at h
  split at h
  · rename_i hnil
    rw [hnil]
    exact Nat.zero_le _
  · exact (serializeBatch_ok.mp h).2.1

/-- The header of a stored block is read back, whatever its transactions are. -/
theorem deserializeBlock_head (h : serializeBlock W b = .ok data) : ∃ batch, blockBatch W b.txs = .ok batch ∧
    deserializeBlock W data = storedTxs W b.txs.length batch >>= fun txs => .ok { b with txs } := by
  obtain ⟨batch, hb, hp, hmax, hdata⟩ := serializeBlock_ok.mp h
  refine ⟨batch, hb, ?_⟩
  have hcount := blockBatch_length hb
  have h0 := Cursor.start hdata
  have h13 := h0.skip (w := 13) rfl
  have h21 := h13.skip (length_toBE 8 _)
  have h53 := h21.skip (length_bytes _)
  have h85 := h53.skip (length_bytes _)
  have h117 := h85.skip (length_bytes _)
  have h121 := h117.skip (length_toBE 4 _)
  have h125 := h121.skip (length_toBE 4 _)
  have hend := h125.next
  have hlen := h125.length
  rw [List.length_append] at hlen
  have hmaxLen : maxStoredBlockBytes < 256 ^ 4 := by decide
  have hbatchEnd : data.length - b.proposalBytes.length = 125 + batch.length := by omega
  unfold deserializeBlock
  rw [Go.check_pos ⟨by omega, hmax⟩, Go.ok_bind, h0.slice (b := 13) rfl, Go.ok_bind, if_neg (by decide),
    Go.check_pos ⟨rfl, by omega⟩, Go.ok_bind]
  unfold deserializeV2Block
  rw [h13.uintAt b.height.toNat_lt, Go.ok_bind, h21.slice (b := 53) (by simp), Go.ok_bind,
    h53.slice (b := 85) (by simp),
    Go.ok_bind, h85.slice (b := 117) (by simp), Go.ok_bind, h117.uintAt (by omega), Go.ok_bind,
    h121.uintAt (by omega), Go.ok_bind, Go.check_pos (by omega), Go.ok_bind]
  dsimp only
  rw [hbatchEnd, Go.check_pos (by omega), Go.ok_bind, h125.slice (b := 125 + batch.length) (by simp), Go.ok_bind,
    show data.drop (125 + batch.length) = b.proposalBytes from hend.drop]
  simp only [UInt64.ofNat_toNat, wordOf_bytes]
  rfl

theorem deserializeBlock_serializeBlock (h : serializeBlock W b = .ok data) (hd : ∀ t ∈ b.txs, Decoded W.toPrim t)
    (hcount : b.txs.length < 65536) : deserializeBlock W data = .ok b := by
  obtain ⟨batch, hb, heq⟩ := deserializeBlock_head h
  suffices hread : storedTxs W b.txs.length batch = .ok b.txs by rw [heq, hread, Go.ok_bind]
  unfold blockBatch at hb
  unfold storedTxs
  split at hb
  · rename_i hnil
    rw [if_pos (by rw [hnil]; rfl), Go.check_pos (Go.ok.inj hb).symm, Go.ok_bind, hnil, Go.pure_eq]
  · rename_i hne
    rw [if_neg fun h0 => hne (List.length_eq_zero_iff.mp h0), deserializeBatch_serializeBatch hb hd hcount, Go.ok_bind,
      Go.check_pos rfl, Go.ok_bind, Go.pure_eq]

theorem deserializeBlock_full (h : serializeBlock W b = .ok data) (hcount : b.txs.length = 65536) :
    deserializeBlock W data = .err (.rg .canonicalEncodingDistortion "non-canonical batch trailing bytes") := by
  obtain ⟨batch, hb, heq⟩ := deserializeBlock_head h
  have hne : b.txs ≠ [] := by
    intro hnil
    rw [hnil] at hcount
    cases hcount
  rw [blockBatch, if_neg hne] at hb
  rw [heq]
  unfold storedTxs
  rw [if_neg (by omega), deserializeBatch_full hb hcount]
  rfl

end

/-! ## Runs -/

def KeepsBlocks (db db' : DB) : Prop := db'.blocks = db.blocks

instance : Std.Refl KeepsBlocks := ⟨fun _ => rfl⟩
instance : IsTrans DB KeepsBlocks := ⟨fun _ _ _ h1 h2 => h2.trans h1⟩

theorem keepsBlocks_ops : BlockOps KeepsBlocks where
  move _ _ _ _ _ := moveBalance_steps (fun _ _ => rfl) fun _ _ => rfl
  nonce := advanceNonceTx_steps fun _ _ _ _ => rfl
  bond _ _ _ _ := rfl
  unbond := unbondTx_steps fun _ _ _ _ _ _ => rfl
  deleteRecord _ _ := rfl
  storeBytecode _ _ _ := rfl
  saveState _ _ _ := rfl
  burn _ _ _ := burnTx_steps (changeBalance_steps fun _ _ => rfl)
  miss := recordMissTx_steps fun _ _ _ _ _ => rfl
  credit _ _ := changeBalance_steps fun _ _ => rfl

theorem blockKey_inj {h k : UInt64} (e : blockKey h = blockKey k) : h = k := by
  have hh : h.toNat < 256 ^ 8 := h.toNat_lt
  have hk : k.toNat < 256 ^ 8 := k.toNat_lt
  have e : h.toNat % 256 ^ 8 = k.toNat % 256 ^ 8 := congrArg Fin.val e
  rw [Nat.mod_eq_of_lt hh, Nat.mod_eq_of_lt hk] at e
  exact UInt64.toNat_inj.mp e

section

variable {W} {order : MapOrder} {pre post db : DB} {b : Block} {chainID : List UInt8} {r : Result}

/-- No height from one to the current one is the next, also when the next one wraps. -/
theorem ne_next {k h : UInt64} (h0 : 0 < k) (hk : k ≤ h) : k ≠ h + 1 := by
  intro e
  have h0 := UInt64.lt_iff_toNat_lt.mp h0
  have hk := UInt64.le_iff_toNat_le.mp hk
  have e := congrArg UInt64.toNat e
  rw [UInt64.toNat_add] at e
  have hh := h.toNat_lt
  simp only [UInt64.toNat_zero, UInt64.toNat_one] at h0 e
  omega

theorem le_of_le_next {k h : UInt64} (hk : k ≤ h + 1) (hne : k ≠ h + 1) : k ≤ h := by
  rw [UInt64.le_iff_toNat_le] at hk ⊢
  have hne := mt UInt64.toNat_inj.mp hne
  rw [UInt64.toNat_add] at hk hne
  simp only [UInt64.toNat_one] at hk hne
  omega

/-- What a block leaves in the store: itself with the computed root, at its height. -/
theorem applyBlockForChain_blocks (h : applyBlockForChain W order pre b chainID = (.ok r, post)) :
    b.height = pre.height + 1 ∧ post.height = b.height ∧
      ∃ data, serializeBlock W { b with stateRoot := r.stateRoot } = .ok data ∧
        post.blocks = pre.blocks.put (blockKey b.height) data := by
  obtain ⟨run, hr⟩ := applyBlockForChain_ok h
  obtain ⟨_, hheight, -⟩ := Go.bind_eq_ok.mp run.checked
  refine ⟨Go.check_eq_ok.mp hheight, run.height, run.stored, hr ▸ run.encoded, ?_⟩
  rw [run.blocks, show run.afterMint.blocks = pre.blocks from run.steps keepsBlocks_ops]

/-- The blocks applied so far, each with its computed state root, by height: `C` holds of
    every one of them. -/
def History (W : World) (C : Block → Prop) (db₀ : DB) : (UInt64 → Option Block) → DB → Prop :=
  Recorded (· = db₀) (Accepts W fun _ b _ _ => (∀ t ∈ b.txs, Decoded W.toPrim t) ∧ C b) (fun _ => none)
    fun hist _ a => Function.update hist a.block.height (some { a.block with stateRoot := a.result.stateRoot })

theorem History.block {C : Block → Prop} {db₀ : DB} {hist : UInt64 → Option Block} (hrun : History W C db₀ hist pre)
    (happ : applyBlockForChain W order pre b chainID = (.ok r, post)) (hd : ∀ t ∈ b.txs, Decoded W.toPrim t)
    (hb : C b) :
    History W C db₀ (Function.update hist b.height (some { b with stateRoot := r.stateRoot })) post := by
  have hs : Accepts W (fun _ b _ _ => (∀ t ∈ b.txs, Decoded W.toPrim t) ∧ C b) pre ⟨b, chainID, r⟩ post :=
    ⟨⟨order, happ⟩, hd, hb⟩
  exact Recorded.step hrun hs

theorem blockAt_kept (h : applyBlockForChain W order pre b chainID = (.ok r, post)) {k : UInt64} (h0 : 0 < k)
    (hk : k ≤ pre.height) : blockAt W post k = blockAt W pre k := by
  obtain ⟨hnext, -, data, -, hblocks⟩ := applyBlockForChain_blocks h
  have hne : k ≠ b.height := hnext ▸ ne_next h0 hk
  unfold blockAt
  rw [hblocks, Bucket.get_put_ne _ _ fun e => hne (blockKey_inj e)]

theorem blockAt_applied (h : applyBlockForChain W order pre b chainID = (.ok r, post))
    (hd : ∀ t ∈ b.txs, Decoded W.toPrim t) (hcount : b.txs.length < 65536) :
    blockAt W post b.height = .ok (some { b with stateRoot := r.stateRoot }) := by
  obtain ⟨-, -, data, hdata, hblocks⟩ := applyBlockForChain_blocks h
  unfold blockAt
  rw [hblocks, Bucket.get_put_self]
  dsimp only
  rw [deserializeBlock_serializeBlock hdata hd hcount, Go.ok_bind, Go.pure_eq]

/-- The store is a faithful history of the blocks applied, as long as each has fewer than
    65536 transactions. -/
theorem block_store_faithful {db₀ : DB} {hist : UInt64 → Option Block} (h0 : db₀.height = 0)
    (hrun : History W (fun b => b.txs.length < 65536) db₀ hist db) :
    (∀ k, 0 < k → k ≤ db.height → ∃ b, hist k = some b ∧ b.height = k ∧ blockAt W db k = .ok (some b)) ∧
      ∀ {order : MapOrder} {b : Block} {chainID : List UInt8} {r : Result} {post : DB},
        applyBlockForChain W order db b chainID = (.ok r, post) →
        ∀ k, 0 < k → k ≤ db.height → blockAt W post k = blockAt W db k := by
  refine ⟨?_, fun h k hpos hk => blockAt_kept h hpos hk⟩
  induction hrun with
  | start heq =>
    intro k hpos hk
    rw [heq, h0] at hk
    exact absurd (UInt64.lt_of_lt_of_le hpos hk) (UInt64.lt_irrefl 0)
  | @step hist pre post a _ hs ih =>
    obtain ⟨⟨order, happ⟩, hd, hcount⟩ := hs
    obtain ⟨hnext, hheight, -⟩ := applyBlockForChain_blocks happ
    intro k hpos hk
    by_cases hkb : k = a.block.height
    · subst hkb
      exact ⟨_, Function.update_self .., rfl, blockAt_applied happ hd hcount⟩
    · rw [hheight, hnext] at hk
      have hk' : k ≤ pre.height := le_of_le_next hk (hnext ▸ hkb)
      rw [Function.update_of_ne hkb, blockAt_kept happ hpos hk']
      exact ih k hpos hk'

end

/-! ## A full block

One transaction that the loop skips, repeated: it changes nothing and pays one unit of gas
each time. -/

section

variable {W} {ctx : BlockCtx} {t : Tx} {db : DB}

theorem txLoop_replicate (h : applyTx W ctx t db = (.ok {}, db)) (n : Nat) :
    txLoop W ctx (List.replicate n t) db = (.ok (List.replicate n {}), db) := by
  induction n with
  | zero => rfl
  | succ n ih => exact mapM_cons_ok.mpr ⟨{}, db, List.replicate n {}, h, ih, rfl⟩

/-- The account after a burn. -/
def burnt (db : DB) (a : Key) (n : Int) : DB := (db.setBalance a (readBalance db a - n)).logged (.burned a n)

theorem burnTx_run {a : Key} {n : Int} {db : DB} (h0 : 0 ≤ n) (hle : n ≤ readBalance db a) :
    burnTx a n db = (.ok (), burnt db a n) ∧ readBalance (burnt db a n) a = readBalance db a - n := by
  have hbound := readBalance_fits db a
  have hf : Fits (readBalance db a - n) := ⟨by omega, by have := hbound.2; omega⟩
  constructor
  · refine bind_ok.mpr ⟨_, db, read_ok.mpr ⟨rfl, rfl⟩, bind_ok.mpr ⟨(), db, check_ok.mpr ⟨hle, rfl⟩, ?_⟩⟩
    unfold changeBalance
    simp only [bind_run, balanceOfTx, Act.read, log, Act.write]
    rcases writeBalance_cases a (readBalance db a - n) db with ⟨-, h⟩ | ⟨hn, -⟩
    · rw [h]
      rfl
    · exact absurd hf hn
  · show readBalance (db.setBalance a _) a = _
    rw [readBalance_setBalance _ _ _ hf, if_pos rfl]

theorem chargeGas_replicate {fee : Fee} (n : Nat) : ∀ {g : UInt64} {db : DB},
    (fee.val * n : Int) ≤ readBalance db t.senderPubKey →
    ∃ g' db', (List.replicate n (t, ({} : TxOut))).foldlM (chargeGas fee) g db = (.ok g', db') ∧
      g'.toNat ≤ g.toNat + n := by
  induction n with
  | zero => exact fun _ => ⟨_, _, rfl, le_rfl⟩
  | succ n ih =>
    intro g db hbal
    have hpos := fee.pos
    have hunit : (fee.val * (gasUnits ({} : TxOut)).toNat : Int) = fee.val := by simp [gasUnits]
    have hn : (fee.val * (n + 1 : Nat) : Int) = fee.val * n + fee.val := by push_cast; ring
    have hnn : (0 : Int) ≤ fee.val * n := by positivity
    have hfunds : fee.val ≤ readBalance db t.senderPubKey := by omega
    obtain ⟨hburn, hleft⟩ := burnTx_run (by omega) hfunds
    have hcharge : chargeGas fee g (t, {}) db = (.ok (g + 1), burnt db t.senderPubKey fee.val) := by
      unfold chargeGas
      rw [if_neg (by omega), hunit]
      exact bind_ok.mpr ⟨(), _, hburn, rfl⟩
    have hkept : (fee.val * n : Int) ≤ readBalance (burnt db t.senderPubKey fee.val) t.senderPubKey := by omega
    obtain ⟨g', db', hrest, hle⟩ := ih (g := g + 1) hkept
    refine ⟨g', db', foldlM_cons_ok.mpr ⟨g + 1, _, hcharge, hrest⟩, ?_⟩
    have hg : (g + 1).toNat ≤ g.toNat + 1 := by
      rw [UInt64.toNat_add]
      exact Nat.mod_le _ _
    omega

theorem applyMiss_replicate (h : t.type ≠ .missEvidence) (n m : Nat) (db : DB) :
    (List.replicate n t).foldlM (applyMiss W) m db = (.ok m, db) := by
  induction n with
  | zero => rfl
  | succ n ih => exact foldlM_cons_ok.mpr ⟨m, db, by unfold applyMiss; rw [if_neg h]; rfl, ih⟩

theorem buildTree_replicate {P : Prim} {node : RGNode} (h : makeAtomicNode P t = .ok node) {n : Nat} (hpos : 0 < n)
    (hmax : n ≤ 65536) (hv : n * node.volume.val < 256 ^ 32) (hq : n * node.sumSquares.val < 256 ^ 32) :
    ∃ tree, buildTree P (List.replicate n t) [] = .ok tree := by
  have hleaves : atomicLayer P (List.replicate n t) = .ok (List.replicate n node) := by
    refine Go.mapM_eq_ok.mpr ?_
    clear hpos hmax hv hq
    induction n with
    | zero => exact .nil
    | succ n ih => exact .cons h ih
  have hlayer : Layer 0 (List.replicate n node) := fun m hm => List.eq_of_mem_replicate hm ▸ makeAtomicNode_level h
  have hne : List.replicate n node ≠ [] := by simp; omega
  have hfit : SumsFit (List.replicate n node) := by
    simp only [SumsFit, volumeOf, squaresOf, List.map_replicate, List.sum_replicate_nat]
    exact ⟨hv, hq⟩
  obtain ⟨layers, hc⟩ := (coarsen_isOk (P := P) (n := 10) (by decide) (Nat.zero_le 8) hne hlayer).mpr
    (Or.inr ⟨by simpa using hmax, hfit⟩)
  obtain ⟨top, m, hlast, -⟩ := coarsen_last (Nat.zero_le 8) hne hlayer hc
  refine ⟨⟨layers, P.hash top.bytes⟩, (buildTree_ok (Or.inl ?_) fun _ h => absurd h List.not_mem_nil).mpr
    ⟨by rw [List.length_replicate]; exact hmax, _, top, hleaves, by rw [List.append_nil]; exact hc, hlast, rfl⟩⟩
  simp
  omega

end

/-- An account with enough for 65536 units of gas. -/
def oneAccount : Genesis := ⟨[], [⟨"", some 1, "", some 100000⟩]⟩

def richDB : DB := (applyGenesis Prim.sample DB.new oneAccount).2

def repeatedBlock (n : Nat) : Block := Block.plain 1 (List.replicate n aheadTx)

theorem aheadTx_serialize : ∃ b, serialize Prim.sample aheadTx = .ok b ∧ b.length = 287 := by
  have h : (serialize Prim.sample aheadTx >>= fun b => .ok b.length) = .ok 287 := by decide +kernel
  obtain ⟨b, hb, hlen⟩ := Go.bind_eq_ok.mp h
  exact ⟨b, hb, Go.ok.inj hlen⟩

theorem aheadTx_decoded : Decoded Prim.sample aheadTx := by
  obtain ⟨b, hb, -⟩ := aheadTx_serialize
  refine ⟨b, deserialize_serialize ⟨?_, ?_, ?_, fun _ => ?_, fun _ => ?_, fun _ => ?_⟩ hb⟩ <;> decide

theorem repeatedBlock_serialize {n : Nat} (hpos : 0 < n) (hmax : n ≤ 65536) (root : Hash) :
    ∃ data, serializeBlock World.sample { repeatedBlock n with stateRoot := root } = .ok data := by
  obtain ⟨b, hb, hlen⟩ := aheadTx_serialize
  have hwire : aheadTx.wire Prim.sample = b := wire_eq hb
  have hbody : (batchBody Prim.sample (List.replicate n aheadTx)).length = n * 289 := by
    rw [length_batchBody, List.map_replicate, List.sum_replicate_nat, hwire, hlen]
  have hbatch : blockBatch World.sample (List.replicate n aheadTx) =
      .ok (domainTxBatch ++ u16 (List.replicate n aheadTx).length ++
        batchBody Prim.sample (List.replicate n aheadTx)) := by
    have hne : List.replicate n aheadTx ≠ [] := by simp; omega
    unfold blockBatch
    rw [if_neg hne]
    refine serializeBatch_ok.mpr ⟨hne, by simpa [maxBatchTxs] using hmax, fun t ht => ?_, ?_, rfl⟩
    · rw [List.eq_of_mem_replicate ht]
      exact ⟨hwire ▸ hb, show (aheadTx.wire Prim.sample).length ≤ _ by rw [hwire, hlen]; decide⟩
    · show 14 + (batchBody Prim.sample _).length ≤ _
      rw [hbody]
      unfold maxBatchBytes
      omega
  refine ⟨_, serializeBlock_ok.mpr ⟨_, hbatch, Nat.zero_le _, ?_, rfl⟩⟩
  simp [hbody, maxStoredBlockBytes, blockMagicV2, domainTxBatch, u16, repeatedBlock, Block.plain]
  omega

theorem repeatedBlock_checked (n : Nat) : checkBlock World.sample richDB (repeatedBlock n) [] = .ok () := by
  have hsigs : (repeatedBlock n).txs.forM (fun t => verifySigsForChain World.sample.toPrim t []) = .ok () :=
    Go.forM_eq_ok.mpr fun t ht => by rw [List.eq_of_mem_replicate ht]; decide +kernel
  have hmiss : ∀ ctx, (repeatedBlock n).txs.foldlM (checkMissEvidence World.sample ctx) [] = .ok [] := by
    intro ctx
    show (List.replicate n aheadTx).foldlM _ _ = _
    clear hsigs
    induction n with
    | zero => rfl
    | succ n ih => exact Go.bind_eq_ok.mpr ⟨[], rfl, ih⟩
  unfold checkBlock
  have hheight : (repeatedBlock n).height = richDB.height + 1 := rfl
  have hroot : (repeatedBlock n).prevStateRoot = 0 := rfl
  rw [Go.check_pos hheight, Go.ok_bind, Go.check_pos (Or.inl hroot), Go.ok_bind, hsigs, Go.ok_bind, hmiss,
    Go.ok_bind, Go.pure_eq]

theorem repeatedBlock_tree {n : Nat} (hpos : 0 < n) (hmax : n ≤ 65536) :
    ∃ tree, buildTree Prim.sample (repeatedBlock n).txs [] = .ok tree := by
  have hatomic : (makeAtomicNode Prim.sample aheadTx >>= fun node => .ok (node.volume.val, node.sumSquares.val)) =
      .ok (10, 100) := by decide +kernel
  obtain ⟨node, hnode, hsums⟩ := Go.bind_eq_ok.mp hatomic
  obtain ⟨hv, hq⟩ := Prod.mk.inj (Go.ok.inj hsums)
  exact buildTree_replicate hnode hpos hmax (by rw [hv]; omega) (by rw [hq]; omega)

theorem richDB_fee : (currentBaseFee richDB).val = 1 := rfl

/-- No copy of the transaction has the next nonce, so each of them is skipped. -/
theorem repeatedBlock_loop (n : Nat) :
    txLoop World.sample (ctxOf richDB (repeatedBlock n) []) (repeatedBlock n).txs richDB =
    (.ok (List.replicate n {}), richDB) := by
  have hstale : aheadTx.nonce ≠ nextNonce richDB aheadTx.senderPubKey := by decide
  have hpre : precheck World.sample (ctxOf richDB (repeatedBlock n) []) aheadTx = .ok 0 := rfl
  exact txLoop_replicate (applyTx_stale hstale hpre) n

theorem repeatedBlock_meta {n : Nat} (hmax : n ≤ 65536) {gas : UInt64} (hgas : gas.toNat ≤ n) (root : Hash) (db : DB) :
    ∃ db', writeMeta (repeatedBlock n) richDB root gas 0 db = (.ok (), db') := by
  have hsupply : richDB.totalSupply = some 100000 := rfl
  have hmint : mintAmountOf richDB = 0 := by
    unfold mintAmountOf
    rw [if_pos (by decide)]
  obtain ⟨db₂, h2⟩ : ∃ db₂, updateSupply richDB gas 0 { db with
      height := (repeatedBlock n).height, stateRoot := root
      baseFee := some (nextBaseFee (currentBaseFee richDB) gas) } = (.ok (), db₂) := by
    unfold updateSupply
    rw [hsupply, richDB_fee, hmint]
    exact ⟨_, bind_ok.mpr ⟨(), _, check_ok.mpr ⟨by push_cast; omega, rfl⟩, write_ok.mpr rfl⟩⟩
  refine ⟨db₂, bind_ok.mpr ⟨(), _, write_ok.mpr rfl, bind_ok.mpr ⟨(), db₂, h2, ?_⟩⟩⟩
  exact check_ok.mpr ⟨Or.inl rfl, rfl⟩

theorem repeatedBlock_accepted {n : Nat} (hpos : 0 < n) (hmax : n ≤ 65536) :
    ∃ r post, applyBlockForChain World.sample .id richDB (repeatedBlock n) [] = (.ok r, post) := by
  have hnodes : contractNodes World.sample .id (List.replicate n ({} : TxOut)) richDB = .ok [] := by
    have htouched : touchedOf (List.replicate n ({} : TxOut)) = [] := by simp [touchedOf]
    unfold contractNodes
    rw [htouched]
    rfl
  obtain ⟨tree, htree⟩ := repeatedBlock_tree hpos hmax
  have hbal : readBalance richDB aheadTx.senderPubKey = 100000 := rfl
  have hfunds : ((currentBaseFee richDB).val * n : Int) ≤ readBalance richDB aheadTx.senderPubKey := by
    rw [richDB_fee, hbal]
    push_cast
    omega
  obtain ⟨gas, afterGas, hgas, hle⟩ := chargeGas_replicate (t := aheadTx) n (g := 0) hfunds
  have hzip : (repeatedBlock n).txs.zip (List.replicate n ({} : TxOut)) = List.replicate n (aheadTx, {}) := by
    show (List.replicate n aheadTx).zip _ = _
    rw [List.zip_replicate, Nat.min_self]
  have hmint : (((bondedAmounts richDB).map (·.1)).zip (splitReward (mintAmountOf richDB)
      ((bondedAmounts richDB).map (·.1)).length)).forM (creditShare World.sample) afterGas = (.ok (), afterGas) := by
    have hnone : bondedAmounts richDB = [] := rfl
    rw [hnone]
    rfl
  have hslashed : ((List.replicate n ({} : TxOut)).map TxOut.slashed).sum + 0 = 0 := by simp
  obtain ⟨afterMeta, hmeta⟩ := repeatedBlock_meta hmax (by simpa using hle) tree.root afterGas
  obtain ⟨data, hdata⟩ := repeatedBlock_serialize hpos hmax tree.root
  let s : BlockStages World.sample .id richDB (repeatedBlock n) [] :=
    { outs := List.replicate n {}, nodes := [], tree, totalGas := gas, missSlashed := 0, afterTxs := richDB, afterGas
      afterMiss := afterGas, afterMint := afterGas, afterMeta, stored := data, checked := repeatedBlock_checked n
      ranTxs := repeatedBlock_loop n, gotNodes := hnodes, gotTree := htree, ranGas := hzip ▸ hgas
      ranMiss := applyMiss_replicate (by decide) n 0 afterGas, ranMint := hmint,
        ranMeta := by rw [hslashed]; exact hmeta
      telemetry := Nat.zero_le _, encoded := hdata }
  exact ⟨s.result, s.last, s.accepted⟩

theorem repeatedBlock_decoded (n : Nat) : ∀ t ∈ (repeatedBlock n).txs, Decoded World.sample.toPrim t :=
  fun _ ht => List.eq_of_mem_replicate ht ▸ aheadTx_decoded

theorem richDB_height : richDB.height = 0 := rfl

theorem block_store_faithful_repeated : ∃ hist db,
    History World.sample (fun b => b.txs.length < 65536) richDB hist db ∧ db.height = 1 ∧
      (∀ k, 0 < k → k ≤ db.height → ∃ b, hist k = some b ∧ b.height = k ∧ blockAt World.sample db k = .ok (some b)) ∧
        ∀ {order : MapOrder} {b : Block} {chainID : List UInt8} {r : Result} {post : DB},
          applyBlockForChain World.sample order db b chainID = (.ok r, post) →
          ∀ k, 0 < k → k ≤ db.height → blockAt World.sample post k = blockAt World.sample db k := by
  obtain ⟨r, post, h⟩ := repeatedBlock_accepted (n := 3) (by decide) (by decide)
  have hrun : History World.sample (fun b => b.txs.length < 65536) richDB _ post :=
    .block (.start rfl) h (repeatedBlock_decoded 3) (by decide)
  exact ⟨_, post, hrun, (applyBlockForChain_blocks h).2.1, block_store_faithful richDB_height hrun⟩

/-- A block of 65536 transactions is applied at height 1, and cannot be read from the store. -/
theorem full_block_unreadable : ∃ hist db, History World.sample (fun _ => True) richDB hist db ∧
    richDB.height = 0 ∧ db.height = 1 ∧ (hist 1).isSome = true ∧
      blockAt World.sample db 1 =
        .err (.rg .canonicalEncodingDistortion "non-canonical batch trailing bytes") := by
  -- the number stays a variable: nothing here computes the block
  obtain ⟨n, hn⟩ : ∃ n, n = 65536 := ⟨_, rfl⟩
  obtain ⟨r, post, h⟩ := repeatedBlock_accepted (n := n) (by omega) (by omega)
  obtain ⟨-, hheight, data, hdata, hblocks⟩ := applyBlockForChain_blocks h
  have hrun : History World.sample (fun _ => True) richDB _ post :=
    .block (.start rfl) h (repeatedBlock_decoded n) trivial
  refine ⟨_, post, hrun, richDB_height, hheight, ?_, ?_⟩
  · rw [show (1 : UInt64) = (repeatedBlock n).height from rfl, Function.update_self]
    rfl
  · unfold blockAt
    rw [hblocks, show (1 : UInt64) = (repeatedBlock n).height from rfl, Bucket.get_put_self]
    dsimp only
    rw [deserializeBlock_full hdata (by rw [← hn]; exact List.length_replicate)]
    rfl

end Frg.Chain
