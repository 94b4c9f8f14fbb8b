/-
  Frg.Node.Converge — a node that joins late reaches the state of the nodes it asks.

  A peer reads each block from its store, writes it again and sends it behind its length; the
  joining node reads the answer, checks the blocks and applies them to its own state. A stored
  block claims the root of the node that stored it, and the joining node walks the contracts a
  block touches in an order of its own.

    - `blockProvider`, `syncBlocks`: what a peer answers, as bytes on the stream.
    - `replayed`, `same_blocks_same_states`: a block is accepted again, and leaves the same state,
      if all contracts it touches have the same leaf.
    - `served_chain`: the answer of a node to a request is the next blocks of its own run.
    - `poll_honest`: an answer that more peers give than any others together is chosen.
    - `catch_up_converges`: passes in which the honest answer has that majority move the joining
      node along the states of the peer's run, up to the last one.
-/

import Frg.Node.CatchUp
import Frg.Node.BlockSync
import Frg.Chain.Authority
import Frg.Chain.Replicas
import Frg.Lib.Orders

namespace Frg.Node

open Frg.Lib Frg.Core Frg.Wire Frg.Contract Frg.Chain Frg.Consensus

/-! ## What a peer answers -/

section

variable (W : World) (db : DB)

/-- The stored block, read and written again. -/
def blockAgain (height : UInt64) : Res (Option (List UInt8)) := do
  match ← blockAt W db height with
  | none => return none
  | some b =>
    let data ← serializeBlock W b
    return some data

/-- What `frg-node` sets as the provider. A panic in it is no answer either. -/
def blockProvider : BlockProvider := fun height =>
  match blockAgain W db height with
  | .ok data => .ok data
  | .err e => .error e
  | .panic w => .error (.plain w)

end

/-- `SyncBlocks`, with the peer's side of the stream. -/
def syncBlocks (provider : Option BlockProvider) (fromHeight toHeight : UInt64) : Res (List (List UInt8)) := do
  Go.check (fromHeight ≤ toHeight ∧ (toHeight - fromHeight).toNat < blockSyncMaxRange)
    (.plain "invalid block sync range")
  readBlockSyncResponse (handleBlockSync provider (writeBlockSyncRequest fromHeight toHeight))

/-- The last height the catch-up asks for. -/
def syncTo (fromHeight : UInt64) : UInt64 := if fromHeight + 1023 < fromHeight then maxUint64 else fromHeight + 1023

/-- The answer of a node in the state `db` to the request from a height on. -/
def served (W : World) (db : DB) (fromHeight : UInt64) : Option (List (List UInt8)) :=
  (syncBlocks (some (blockProvider W db)) fromHeight (syncTo fromHeight)).toOption

theorem syncTo_range (h : UInt64) : h ≤ syncTo h ∧ (syncTo h - h).toNat < blockSyncMaxRange := by
  have hlt := h.toNat_lt
  have hmax : maxUint64.toNat = 2 ^ 64 - 1 := by decide
  have hadd : (h + 1023).toNat = (h.toNat + 1023) % 2 ^ 64 := UInt64.toNat_add h 1023
  have hto : (syncTo h).toNat = min (h.toNat + 1023) (2 ^ 64 - 1) := by
    unfold syncTo
    split
    · rename_i hw
      rw [UInt64.lt_iff_toNat_lt] at hw
      omega
    · rename_i hw
      rw [UInt64.lt_iff_toNat_lt] at hw
      omega
  have hle : h ≤ syncTo h := UInt64.le_iff_toNat_le.mpr (by omega)
  refine ⟨hle, ?_⟩
  rw [UInt64.toNat_sub_of_le _ _ hle, hto]
  unfold blockSyncMaxRange
  omega

/-! ## A block applied again -/

section

variable {W : World} {order : MapOrder} {pre post : DB} {b : Block} {chainID : List UInt8} {r : Result}

/-- A block may claim the computed root instead of its own. -/
theorem writeMeta_claimed {root claim : Hash} {g : UInt64} {n : Nat} {d d' : DB} {u : Unit}
    (hclaim : claim = b.stateRoot ∨ claim = root) (h : writeMeta b pre root g n d = (.ok u, d')) :
    writeMeta { b with stateRoot := claim } pre root g n d = (.ok u, d') := by
  unfold writeMeta at h ⊢
  obtain ⟨_, d1, h1, h⟩ := Act.bind_ok.mp h
  obtain ⟨_, d2, h2, h⟩ := Act.bind_ok.mp h
  obtain ⟨hroot, rfl⟩ := Act.check_ok.mp h
  refine Act.bind_ok.mpr ⟨_, d1, h1, Act.bind_ok.mpr ⟨_, d2, h2, Act.check_ok.mpr ⟨?_, rfl⟩⟩⟩
  rcases hclaim with rfl | rfl
  · exact hroot
  · exact .inr rfl

/-- A block is accepted again, as it was or with the root it was stored with, in any order of its
    contracts. -/
theorem replayed (h : applyBlockForChain W order pre b chainID = (.ok r, post)) (hone : OneLeaf W pre b chainID)
    (order' : MapOrder) {claim : Hash} (hclaim : claim = b.stateRoot ∨ claim = post.stateRoot) :
    applyBlockForChain W order' pre { b with stateRoot := claim } chainID = (.ok r, post) := by
  obtain ⟨s, hlast, hres⟩ := applyBlockForChain_stages h
  have hroot : post.stateRoot = s.tree.root := by
    obtain ⟨-, supply, hmeta, -⟩ := writeMeta_ok s.ranMeta
    rw [← hlast, BlockStages.last, hmeta]
  obtain ⟨nodes, hnodes, -⟩ := contractNodes_perm order' s.gotNodes
  rw [OneLeaf, leavesOf_eq s.ranTxs] at hone
  have hsame : s.nodes = nodes := contractNodes_oneLeaf
    (fun a ha a' ha' => hone _ (List.mem_map_of_mem ha) _ (List.mem_map_of_mem ha')) s.gotNodes hnodes
  let s' : BlockStages W order' pre { b with stateRoot := claim } chainID :=
    { s with gotNodes := hsame ▸ hnodes, ranMeta := writeMeta_claimed (hroot ▸ hclaim) s.ranMeta }
  rw [← hlast, ← hres]
  exact s'.accepted

end

/-! ## The blocks of a run -/

/-- The block as the store has it, with the computed root. -/
def storedBlock (s : Applied) : Block := { s.block with stateRoot := s.post.stateRoot }

def storedBytes (W : World) (s : Applied) : List UInt8 := written (serializeBlock W (storedBlock s))

theorem endOf_append (db : DB) (l m : List Applied) : endOf db (l ++ m) = endOf (endOf db l) m := by
  induction l generalizing db with
  | nil => rfl
  | cons s l ih => exact ih s.post

section

variable {W : World} {db : DB} {l m : List Applied} {chainID : List UInt8}

theorem acceptedRun_append : AcceptedRun W db (l ++ m) ↔ AcceptedRun W db l ∧ AcceptedRun W (endOf db l) m := by
  induction l generalizing db with
  | nil => exact ⟨fun h => ⟨.start db, h⟩, fun h => h.2⟩
  | cons s l ih =>
    constructor
    · intro h
      cases h with
      | block happ hrest =>
        obtain ⟨hl, hm⟩ := ih.mp hrest
        exact ⟨.block happ hl, hm⟩
    · rintro ⟨hl, hm⟩
      cases hl with
      | block happ hrest => exact .block happ (ih.mpr ⟨hrest, hm⟩)

/-- Replicas that accept the same blocks pass through the same states, whatever the orders of
    their maps, if the contracts a block touches have one leaf. -/
theorem same_blocks_same_states {l' : List Applied} (h : AcceptedRun W db l) (h' : AcceptedRun W db l')
    (hone : ∀ s ∈ l, OneLeaf W s.pre s.block s.chainID)
    (hsame : l.map (fun s => (s.block, s.chainID)) <+: l'.map fun s => (s.block, s.chainID)) : l <+: l' := by
  induction h generalizing l' with
  | start => exact List.nil_prefix
  | block happ _ ih =>
    cases h' with
    | start => simp at hsame
    | block happ' hrest' =>
      obtain ⟨hfirst, hothers⟩ := List.forall_mem_cons.mp hone
      obtain ⟨hblock, hrests⟩ := List.cons_prefix_cons.mp hsame
      obtain ⟨rfl, rfl⟩ := Prod.mk.inj hblock
      obtain ⟨-, rfl⟩ := Prod.mk.inj ((replayed happ hfirst _ (.inl rfl)).symm.trans happ')
      exact List.cons_prefix_cons.mpr ⟨rfl, ih hrest' hothers hrests⟩

/-- Two accounts deploy a contract each, with the same value. -/
def deployingAlike : Block :=
  Block.plain 1 (deploying.txs.map fun t => { t with value := some 10 }.signed Prim.sample [])

/-- The contracts have one leaf, and a replica that walks them backwards is in the state of the other one. -/
theorem same_blocks_same_states_deploys : (leavesOf World.sample deployersDB deployingAlike []).length = 2 ∧
    (applyBlockForChain World.sample .id deployersDB deployingAlike []).1.isOk = true ∧
    (applyBlockForChain World.sample .rev deployersDB deployingAlike []).1.isOk = true ∧
    (applyBlockForChain World.sample .id deployersDB deployingAlike []).2 =
      (applyBlockForChain World.sample .rev deployersDB deployingAlike []).2 := by
  have hleaves : (leavesOf World.sample deployersDB deployingAlike []).length = 2 ∧
      OneLeaf World.sample deployersDB deployingAlike [] := by
    decide +kernel
  have hok : (applyBlockForChain World.sample .id deployersDB deployingAlike []).1.isOk = true ∧
      (applyBlockForChain World.sample .rev deployersDB deployingAlike []).1.isOk = true := by
    decide +kernel
  generalize hp : applyBlockForChain World.sample .id deployersDB deployingAlike [] = p at hok ⊢
  generalize hq : applyBlockForChain World.sample .rev deployersDB deployingAlike [] = q at hok ⊢
  obtain ⟨r, h⟩ := Go.run_eq hok.1
  obtain ⟨r', h'⟩ := Go.run_eq hok.2
  have hpre := same_blocks_same_states (.block (hp.trans h) (.start _)) (.block (hq.trans h') (.start _))
    (List.forall_mem_singleton.mpr hleaves.2) (List.prefix_refl [(deployingAlike, [])])
  exact ⟨hleaves.1, hok.1, hok.2, congrArg Applied.post (List.cons_prefix_cons.mp hpre).1⟩

theorem acceptedRun_cons {s : Applied} (h : AcceptedRun W db (s :: l)) :
    s.pre = db ∧ s.block.height = db.height + 1 ∧ s.post.height = db.height + 1 ∧
      serializeBlock W (storedBlock s) = .ok (storedBytes W s) ∧
      s.post.blocks = db.blocks.put (blockKey (db.height + 1)) (storedBytes W s) ∧ AcceptedRun W s.post l := by
  cases h with
  | block happ hrest =>
    rename_i order post b cid r
    obtain ⟨hnext, hheight, data, hdata, hblocks⟩ := applyBlockForChain_blocks happ
    obtain ⟨run, hr⟩ := applyBlockForChain_ok happ
    have hser : serializeBlock W (storedBlock ⟨db, b, cid, post⟩) = .ok data := by
      unfold storedBlock
      rw [run.root, ← hr]
      exact hdata
    have hbytes : storedBytes W ⟨db, b, cid, post⟩ = data := by
      unfold storedBytes
      rw [hser]
      rfl
    refine ⟨rfl, hnext, hheight.trans hnext, hbytes ▸ hser, ?_, hrest⟩
    rw [hbytes, hblocks, hnext]

theorem acceptedRun_encoded (h : AcceptedRun W db l) :
    ∀ s ∈ l, serializeBlock W (storedBlock s) = .ok (storedBytes W s) := by
  intro s hs
  obtain ⟨l₁, l₂, rfl⟩ := List.append_of_mem hs
  obtain ⟨-, -, -, hser, -, -⟩ := acceptedRun_cons (acceptedRun_append.mp h).2
  exact hser

theorem toNat_next {h : UInt64} (hroom : h.toNat + 1 < 2 ^ 64) : (h + 1).toNat = h.toNat + 1 := by
  rw [UInt64.toNat_add, UInt64.toNat_one, Nat.mod_eq_of_lt hroom]

theorem height_endOf (h : AcceptedRun W db l) (hroom : db.height.toNat + l.length < 2 ^ 64) :
    (endOf db l).height.toNat = db.height.toNat + l.length := by
  induction l generalizing db with
  | nil => rfl
  | cons s l ih =>
    obtain ⟨-, -, hheight, -, -, hrest⟩ := acceptedRun_cons h
    rw [List.length_cons] at hroom ⊢
    have hnext : s.post.height.toNat = db.height.toNat + 1 := by rw [hheight, toNat_next (by omega)]
    rw [endOf, ih hrest (by omega), hnext]
    omega

theorem height_mem (h : AcceptedRun W db l) (hroom : db.height.toNat + l.length < 2 ^ 64) :
    ∀ s ∈ l, db.height.toNat < s.block.height.toNat ∧ s.block.height.toNat ≤ db.height.toNat + l.length := by
  intro s hs
  obtain ⟨l₁, l₂, rfl⟩ := List.append_of_mem hs
  obtain ⟨h₁, h₂⟩ := acceptedRun_append.mp h
  obtain ⟨-, hblock, -⟩ := acceptedRun_cons h₂
  rw [List.length_append, List.length_cons] at hroom ⊢
  have hmid := height_endOf h₁ (by omega)
  rw [hblock, toNat_next (by omega), hmid]
  omega

theorem blocks_endOf_old (h : AcceptedRun W db l) (hroom : db.height.toNat + l.length < 2 ^ 64) {k : UInt64}
    (hk : k ≤ db.height) : (endOf db l).blocks.get (blockKey k) = db.blocks.get (blockKey k) := by
  induction l generalizing db with
  | nil => rfl
  | cons s l ih =>
    obtain ⟨-, -, hheight, -, hblocks, hrest⟩ := acceptedRun_cons h
    rw [List.length_cons] at hroom
    have hnext : (db.height + 1).toNat = db.height.toNat + 1 := toNat_next (by omega)
    have hle := UInt64.le_iff_toNat_le.mp hk
    have hkn : k ≠ db.height + 1 := fun e => by
      rw [e] at hle
      omega
    rw [endOf, ih hrest (by rw [hheight]; omega) (by rw [hheight, UInt64.le_iff_toNat_le]; omega), hblocks,
      Bucket.get_put_ne _ _ fun e => hkn (blockKey_inj e)]

/-- The store has no block above its height. -/
def TopClean (db : DB) : Prop := ∀ k, db.height < k → db.blocks.get (blockKey k) = none

theorem blocks_endOf_new (h : AcceptedRun W db l) (hroom : db.height.toNat + l.length < 2 ^ 64) (htop : TopClean db)
    {k : UInt64} (hk : db.height < k) :
    (endOf db l).blocks.get (blockKey k) = (l.map (storedBytes W))[k.toNat - db.height.toNat - 1]? := by
  induction l generalizing db with
  | nil => exact htop k hk
  | cons s l ih =>
    obtain ⟨-, -, hheight, -, hblocks, hrest⟩ := acceptedRun_cons h
    rw [List.length_cons] at hroom
    have hnext : (db.height + 1).toNat = db.height.toNat + 1 := toNat_next (by omega)
    have hlt := UInt64.lt_iff_toNat_lt.mp hk
    have hroom' : s.post.height.toNat + l.length < 2 ^ 64 := by
      rw [hheight]
      omega
    by_cases hfirst : k = db.height + 1
    · subst hfirst
      rw [endOf, blocks_endOf_old hrest hroom' (UInt64.le_of_eq hheight.symm), hblocks, Bucket.get_put_self, hnext]
      simp
    · have hne : k.toNat ≠ db.height.toNat + 1 := fun e => hfirst (UInt64.toNat_inj.mp (e.trans hnext.symm))
      have htop' : TopClean s.post := fun j hj => by
        rw [hheight] at hj
        have hjl := UInt64.lt_iff_toNat_lt.mp hj
        have hjn : j ≠ db.height + 1 := fun e => by
          rw [e] at hjl
          omega
        rw [hblocks, Bucket.get_put_ne _ _ fun e => hjn (blockKey_inj e)]
        exact htop j (UInt64.lt_iff_toNat_lt.mpr (by omega))
      rw [endOf, ih hrest hroom' htop' (by rw [hheight, UInt64.lt_iff_toNat_lt]; omega), hheight, hnext, List.map_cons,
        show k.toNat - db.height.toNat - 1 = (k.toNat - (db.height.toNat + 1) - 1) + 1 by omega,
            List.getElem?_cons_succ]

/-- The transactions of a block are read back from the store. -/
def Legible (W : World) (s : Applied) : Prop := (∀ t ∈ s.block.txs, Decoded W.toPrim t) ∧ s.block.txs.length < 65536

theorem blockProvider_run (h : AcceptedRun W db l) (hroom : db.height.toNat + l.length < 2 ^ 64) (htop : TopClean db)
    (hlegible : ∀ s ∈ l, Legible W s) {k : UInt64} (hk : db.height < k) :
    blockProvider W (endOf db l) k = .ok (l.map (storedBytes W))[k.toNat - db.height.toNat - 1]? := by
  have hget := blocks_endOf_new h hroom htop hk
  generalize k.toNat - db.height.toNat - 1 = i at hget ⊢
  cases hi : l[i]? with
  | none =>
    have hnone : (l.map (storedBytes W))[i]? = none := by rw [List.getElem?_map, hi]; rfl
    rw [hnone] at hget ⊢
    simp only [blockProvider, blockAgain, blockAt, hget, Go.ok_bind, Go.pure_eq]
  | some s =>
    have hsome : (l.map (storedBytes W))[i]? = some (storedBytes W s) := by rw [List.getElem?_map, hi]; rfl
    have hs : s ∈ l := List.mem_of_getElem? hi
    have hser : serializeBlock W (storedBlock s) = .ok (storedBytes W s) := acceptedRun_encoded h s hs
    have hread : deserializeBlock W (storedBytes W s) = .ok (storedBlock s) :=
      deserializeBlock_serializeBlock hser (hlegible s hs).1 (hlegible s hs).2
    rw [hsome] at hget ⊢
    simp only [blockProvider, blockAgain, blockAt, hget, hread, hser, Go.ok_bind, Go.pure_eq]

end

/-! ## The answer of a peer -/

/-- So small that a full answer is read. -/
def smallBlock : Nat := 131068

section

variable {provider : BlockProvider}

theorem servedBlocks_take {n : Nat} : ∀ {bytes : List (List UInt8)} {start : UInt64} {total : Nat},
    (∀ b ∈ bytes, b.length ≠ 0 ∧ b.length ≤ smallBlock) →
    (∀ i ≤ bytes.length, provider (start + .ofNat i) = .ok bytes[i]?) →
    total + smallBlock * n ≤ blockSyncMaxResponseBytes →
    servedBlocks provider total ((List.range n).map fun i => start + .ofNat i) = bytes.take n := by
  have hsmall : smallBlock ≤ blockSyncMaxBlockBytes := by decide
  induction n with
  | zero => exact fun _ _ _ => rfl
  | succ n ih =>
    intro bytes start total hsize hat hfits
    have hhead : provider start = .ok bytes[0]? := by
      have h0 := hat 0 (Nat.zero_le _)
      rwa [show UInt64.ofNat 0 = 0 from rfl, UInt64.add_zero] at h0
    rw [range_from_succ, servedBlocks, hhead]
    cases bytes with
    | nil => rfl
    | cons b bytes =>
      obtain ⟨⟨hpos, hmax⟩, hrest⟩ := List.forall_mem_cons.mp hsize
      dsimp only [List.getElem?_cons_zero]
      rw [if_neg (by rw [Nat.mul_succ] at hfits; omega), List.take_succ_cons]
      refine congrArg _ (ih hrest (fun i hi => ?_) (by rw [Nat.mul_succ] at hfits; omega))
      have hnext := hat (i + 1) (Nat.succ_le_succ hi)
      rw [UInt64.ofNat_add, UInt64.add_comm (UInt64.ofNat i), ← UInt64.add_assoc] at hnext
      exact hnext

theorem payload_le {blocks : List (List UInt8)} {size : Nat} (h : ∀ b ∈ blocks, b.length ≤ size) :
    payload blocks ≤ size * blocks.length := by
  induction blocks with
  | nil => exact Nat.zero_le _
  | cons b blocks ih =>
    obtain ⟨hb, hrest⟩ := List.forall_mem_cons.mp h
    have := ih hrest
    rw [payload_cons, List.length_cons, Nat.mul_succ]
    omega

/-- A request for blocks that are small is answered with them. -/
theorem syncBlocks_take {bytes : List (List UInt8)} {start : UInt64}
    (hsize : ∀ b ∈ bytes, b.length ≠ 0 ∧ b.length ≤ smallBlock)
    (hat : ∀ i ≤ bytes.length, provider (start + .ofNat i) = .ok bytes[i]?) :
    ∃ n, 0 < n ∧ syncBlocks (some provider) start (syncTo start) = .ok (bytes.take n) := by
  obtain ⟨hle, hrange⟩ := syncTo_range start
  have hcount : (syncTo start).toNat - start.toNat + 1 ≤ 1024 := by
    rw [UInt64.toNat_sub_of_le _ _ hle] at hrange
    exact hrange
  have hroom : 0 + smallBlock * ((syncTo start).toNat - start.toNat + 1) ≤ blockSyncMaxResponseBytes := by
    unfold smallBlock blockSyncMaxResponseBytes
    omega
  have hselected : selected (some provider) start (syncTo start) =
      bytes.take ((syncTo start).toNat - start.toNat + 1) := servedBlocks_take hsize hat hroom
  refine ⟨(syncTo start).toNat - start.toNat + 1, Nat.succ_pos _, ?_⟩
  obtain ⟨hsend, hfits, hblocks⟩ := selected_bounds (some provider) hle hrange
  have hread := readBlockSyncResponse_framed hsend hfits hblocks
  have hpayload : payload (selected (some provider) start (syncTo start)) ≤
      smallBlock * (selected (some provider) start (syncTo start)).length := by
    refine payload_le fun b hb => ?_
    rw [hselected] at hb
    exact (hsize b (List.mem_of_mem_take hb)).2
  unfold syncBlocks
  rw [Go.check_pos ⟨hle, hrange⟩, Go.ok_bind, handleBlockSync_request _ hle hrange, ← hselected]
  rwa [if_pos] at hread
  unfold smallBlock blockSyncMaxRange blockSyncMaxResponseBytes at *
  omega

end

theorem served_chain {W : World} {db : DB} {l m : List Applied} (h : AcceptedRun W db (l ++ m))
    (hroom : db.height.toNat + (l ++ m).length + 1 < 2 ^ 64) (htop : TopClean db)
    (hlegible : ∀ s ∈ l ++ m, Legible W s) (hsmall : ∀ s ∈ m, (storedBytes W s).length ≤ smallBlock) :
    ∃ n, 0 < n ∧ served W (endOf db (l ++ m)) ((endOf db l).height + 1) = some ((m.take n).map (storedBytes W)) := by
  obtain ⟨hl, hm⟩ := acceptedRun_append.mp h
  rw [List.length_append] at hroom
  have hmid : (endOf db l).height.toNat = db.height.toNat + l.length := height_endOf hl (by omega)
  have hstart : ((endOf db l).height + 1).toNat = db.height.toNat + l.length + 1 := by rw [toNat_next (by omega), hmid]
  have hsize : ∀ b ∈ m.map (storedBytes W), b.length ≠ 0 ∧ b.length ≤ smallBlock := by
    intro b hb
    obtain ⟨s, hs, rfl⟩ := List.mem_map.mp hb
    refine ⟨fun h0 => ?_, hsmall s hs⟩
    obtain ⟨batch, -, -, -, hdata⟩ := serializeBlock_ok.mp (acceptedRun_encoded hm s hs)
    rw [hdata] at h0
    simp [blockMagicV2] at h0
  have hat : ∀ i ≤ (m.map (storedBytes W)).length, blockProvider W (endOf db (l ++ m))
      ((endOf db l).height + 1 + .ofNat i) = .ok (m.map (storedBytes W))[i]? := by
    intro i hi
    rw [List.length_map] at hi
    have hk : ((endOf db l).height + 1 + .ofNat i).toNat = db.height.toNat + l.length + 1 + i := by
      have hi64 : i < UInt64.size := show i < 2 ^ 64 by omega
      rw [UInt64.toNat_add, hstart, UInt64.toNat_ofNat_of_lt' hi64, Nat.mod_eq_of_lt (by omega)]
    have hindex : db.height.toNat + l.length + 1 + i - db.height.toNat - 1 = (l.map (storedBytes W)).length + i := by
      rw [List.length_map]
      omega
    rw [blockProvider_run h (by rw [List.length_append]; omega) htop hlegible (UInt64.lt_iff_toNat_lt.mpr (by omega)),
      hk, hindex, List.map_append, List.getElem?_append_right (Nat.le_add_right _ _), Nat.add_sub_cancel_left]
  obtain ⟨n, hn, hsync⟩ := syncBlocks_take hsize hat
  refine ⟨n, hn, ?_⟩
  rw [served, hsync, List.map_take]
  rfl

/-! ## The choice of the majority -/

/-- What the peers answer at the first attempt of a pass. -/
def Round.first (r : Round) : List (Option (List (List UInt8))) := r.peers.map (r.answer 0)

/-- The answers with blocks other than `raws`. -/
def othersThan (raws : List (List UInt8)) (answers : List (Option (List (List UInt8)))) : Nat :=
  answers.countP fun a => a ≠ none ∧ a ≠ some [] ∧ a ≠ some raws

section

variable (W : World) (chainID : List UInt8) (vals : Stakes) (height : UInt64)

/-- More peers answer with `raws` than with any other blocks. No other answer has its key, and
    none makes the node panic while it is checked. -/
structure Majority (r : Round) (raws : List (List UInt8)) : Prop where
  more : othersThan raws r.first < r.first.count (some raws)
  apart : ∀ x, some x ∈ r.first → syncedBlockRangeKey W x = syncedBlockRangeKey W raws → x = raws
  calm : ∀ x, some x ∈ r.first → (validateSyncedBlocks W chainID vals height x).panics = false

/-- An answer with its blocks, if it is valid. -/
def validAnswer (answer : Option (List (List UInt8))) : Option (List (List UInt8) × List Block) :=
  answer.bind fun x =>
    if x = [] then none else (validateSyncedBlocks W chainID vals height x).toOption.map fun bs => (x, bs)

end

section

variable {W : World} {chainID : List UInt8} {vals : Stakes} {height : UInt64} {r : Round} {raws : List (List UInt8)}
  {bs : List Block}

theorem validAnswer_some {answer : Option (List (List UInt8))} {x : List (List UInt8) × List Block}
    (h : validAnswer W chainID vals height answer = some x) :
    answer = some x.1 ∧ x.1 ≠ [] ∧ validateSyncedBlocks W chainID vals height x.1 = .ok x.2 := by
  obtain ⟨y, rfl, hy⟩ := Option.bind_eq_some_iff.mp h
  split at hy
  · cases hy
  · rename_i hne
    obtain ⟨bs, hbs, rfl⟩ := Option.map_eq_some_iff.mp hy
    exact ⟨rfl, hne, Go.toOption_eq_some.mp hbs⟩

theorem validAnswers_filterMap {answers : List (Option (List (List UInt8)))}
    (hcalm : ∀ x, some x ∈ answers → (validateSyncedBlocks W chainID vals height x).panics = false) :
    validAnswers W chainID vals height answers = .ok (answers.filterMap (validAnswer W chainID vals height)) := by
  induction answers with
  | nil => rfl
  | cons answer answers ih =>
    have ih := ih fun x hx => hcalm x (List.mem_cons_of_mem _ hx)
    cases answer with
    | none => exact ih
    | some x =>
      have hx := hcalm x List.mem_cons_self
      rw [validAnswers, List.filterMap_cons]
      by_cases hnil : x = []
      · simp only [if_pos hnil, validAnswer, Option.bind_some]
        exact ih
      · rw [if_neg hnil, ih]
        cases hv : validateSyncedBlocks W chainID vals height x with
        | ok bs => simp [validAnswer, hnil, hv, Go.toOption]
        | err e => simp [validAnswer, hnil, hv, Go.toOption]
        | panic w =>
          rw [hv] at hx
          cases hx

theorem candidates_some {valid : List (List (List UInt8) × List Block)} {x : List (List UInt8) × List Block}
    (hx : x ∈ valid) : ∃ y, (candidates W valid).get (syncedBlockRangeKey W x.1) = some y := by
  induction valid using List.reverseRecOn with
  | nil => cases hx
  | append_singleton valid z ih =>
    unfold candidates at ih ⊢
    rw [List.foldl_append, List.foldl_cons, List.foldl_nil]
    by_cases hk : syncedBlockRangeKey W x.1 = syncedBlockRangeKey W z.1
    · rw [hk, Bucket.get_put_self]
      exact ⟨_, rfl⟩
    · rw [Bucket.get_put_ne _ _ hk]
      rcases List.mem_append.mp hx with hx | hx
      · exact ih hx
      · rw [List.mem_singleton.mp hx] at hk
        exact absurd rfl hk

theorem mostFrequent_eq (order : MapOrder) (m : Bucket Hash (List Block × Nat)) :
    mostFrequent order m = bestOf m.get (order.list m.keys) none := by
  unfold mostFrequent bestOf
  congr 1
  funext best key
  cases m.get key <;> rfl

/-- How often the key of the majority occurs among the valid answers, and every other key. -/
theorem Majority.counts (h : Majority W chainID vals height r raws) (hne : raws ≠ [])
    (hv : validateSyncedBlocks W chainID vals height raws = .ok bs) :
    answersWith W (r.first.filterMap (validAnswer W chainID vals height)) (syncedBlockRangeKey W raws) =
      r.first.count (some raws) ∧
    (r.first.filterMap (validAnswer W chainID vals height)).countP
      (fun x => ¬ syncedBlockRangeKey W x.1 = syncedBlockRangeKey W raws) ≤ othersThan raws r.first := by
  have hown : validAnswer W chainID vals height (some raws) = some (raws, bs) := by
    simp [validAnswer, hne, hv, Go.toOption]
  constructor
  · unfold answersWith
    rw [List.countP_filterMap, List.count_eq_countP]
    refine List.countP_congr fun a ha => ?_
    rw [beq_iff_eq]
    constructor
    · intro hp
      cases hx : validAnswer W chainID vals height a with
      | none => simp [hx] at hp
      | some x =>
        obtain ⟨rfl, -, -⟩ := validAnswer_some hx
        have hkey : syncedBlockRangeKey W x.1 = syncedBlockRangeKey W raws := by simpa [hx] using hp
        rw [h.apart x.1 ha hkey]
    · rintro rfl
      simp [hown]
  · unfold othersThan
    rw [List.countP_filterMap]
    refine List.countP_mono_left fun a _ hp => ?_
    cases hx : validAnswer W chainID vals height a with
    | none => simp [hx] at hp
    | some x =>
      obtain ⟨rfl, hnil, -⟩ := validAnswer_some hx
      have hkey : ¬ syncedBlockRangeKey W x.1 = syncedBlockRangeKey W raws := by simpa [hx] using hp
      have hother : x.1 ≠ raws := fun e => hkey (by rw [e])
      simp [hnil, hother]

/-- A key with more answers than all the others together wins, in any order of the map. -/
theorem mostFrequent_majority (order : MapOrder) {valid : List (List (List UInt8) × List Block)} {key : Hash} {n : Nat}
    (hget : (candidates W valid).get key = some (bs, n))
    (hmore : valid.countP (fun x => ¬ syncedBlockRangeKey W x.1 = key) < n) :
    mostFrequent order (candidates W valid) = some (bs, n) := by
  have hfewer : ∀ key' ∈ order.list (candidates W valid).keys, key' ≠ key →
      ∀ y, (candidates W valid).get key' = some y → y.2 < n := by
    intro key' _ hkey y hy
    obtain ⟨hn, -⟩ := candidates_get hy
    have hle : answersWith W valid key' ≤ valid.countP fun x => ¬ syncedBlockRangeKey W x.1 = key := by
      refine List.countP_mono_left fun x _ hx => ?_
      have hx : syncedBlockRangeKey W x.1 = key' := of_decide_eq_true hx
      exact decide_eq_true fun e => hkey (hx.symm.trans e)
    omega
  have hmem := (order.perm _).mem_iff.mpr (Bucket.mem_keys.mpr ⟨_, hget⟩)
  rw [mostFrequent_eq]
  exact bestOf_eq hget hfewer (Nat.lt_of_le_of_lt (Nat.zero_le _) hmore) hmem

theorem poll_honest (h : Majority W chainID vals height r raws) (hne : raws ≠ [])
    (hv : validateSyncedBlocks W chainID vals height raws = .ok bs) :
    ∃ n, poll W chainID r vals height 0 = .ok (some bs, n) := by
  obtain ⟨hown, hothers⟩ := h.counts hne hv
  have hvalid := validAnswers_filterMap h.calm
  have hmore := h.more
  generalize r.first.filterMap (validAnswer W chainID vals height) = valid at hown hothers hvalid
  -- the entry of the majority
  have hentry : (candidates W valid).get (syncedBlockRangeKey W raws) = some (bs, r.first.count (some raws)) := by
    have hpos : 0 < answersWith W valid (syncedBlockRangeKey W raws) := by omega
    obtain ⟨x, hx, hkey⟩ := List.countP_pos_iff.mp hpos
    have hkey : syncedBlockRangeKey W x.1 = syncedBlockRangeKey W raws := of_decide_eq_true hkey
    obtain ⟨⟨blocks, n⟩, hget⟩ := candidates_some (W := W) hx
    rw [hkey] at hget
    obtain ⟨rfl, raws', hmem, hkey'⟩ := candidates_get hget
    obtain ⟨hanswer, hblocks⟩ := validAnswers_mem hvalid _ hmem
    obtain rfl := h.apart raws' hanswer hkey'
    obtain rfl : blocks = bs := Go.ok.inj (hblocks.symm.trans hv)
    rw [hget, hown]
  have hagreed : valid.length = 1 ∨ 2 ≤ r.first.count (some raws) := by
    by_cases htwo : 2 ≤ r.first.count (some raws)
    · exact .inr htwo
    · have hlen : valid.length = answersWith W valid (syncedBlockRangeKey W raws) +
          valid.countP fun x => ¬ syncedBlockRangeKey W x.1 = syncedBlockRangeKey W raws := by
        unfold answersWith
        rw [List.length_eq_countP_add_countP fun x => decide (syncedBlockRangeKey W x.1 = syncedBlockRangeKey W raws)]
        simp only [decide_not, decide_eq_true_eq]
      exact .inl (by omega)
  refine ⟨valid.length, ?_⟩
  have hfirst : validAnswers W chainID vals height (r.peers.map (r.answer 0)) = .ok valid := hvalid
  unfold poll
  rw [hfirst, Go.ok_bind, mostFrequent_majority r.order hentry (by omega), Option.filter_some,
    if_pos (decide_eq_true hagreed)]
  rfl

theorem selectBlocks_honest (h : Majority W chainID vals height r raws) (hne : raws ≠ [])
    (hv : validateSyncedBlocks W chainID vals height raws = .ok bs) :
    selectBlocks W chainID r vals height 2 = .ok (.selected bs) := by
  obtain ⟨n, hpoll⟩ := poll_honest h hne hv
  rw [selectBlocks, hpoll]
  rfl

end

/-! ## The blocks of an honest node -/

section

variable (W : World) (chainID : List UInt8)

/-- Blocks accepted one after the other, each made of the proposal of its height, that left the
    bonded validators as they were. -/
structure Committed (chain : UInt64 → Option BlockProposal) (db : DB) (l : List Applied) : Prop where
  run : AcceptedRun W db l
  proposed : ∀ s ∈ l, s.chainID = chainID ∧ ∃ p bytes, chain s.block.height = some p ∧
    serializeProposal W.toPrim p = .ok bytes ∧ s.block = blockOf s.block.height p bytes
  bonds : ∀ s ∈ l, bondedAmounts s.post = bondedAmounts db

/-- A block that is sent, accepted and applied again wherever it is asked for. -/
structure Replayable (s : Applied) : Prop where
  txs : s.block.txs ≠ [] ∧ s.block.txs.length < 65536
  small : (storedBytes W s).length ≤ smallBlock
  oneLeaf : OneLeaf W s.pre s.block s.chainID

/-- A replayable block of a sound proposal. -/
structure Syncable (vals : Stakes) (s : Applied) : Prop extends Replayable W s where
  chain : s.chainID = chainID
  bonded : vals ≠ []
  sound : ∃ p bytes, Sound W chainID vals s.block.height p ∧ serializeProposal W.toPrim p = .ok bytes ∧
    s.block = blockOf s.block.height p bytes

end

section

variable {W : World} {chainID : List UInt8} {vals : Stakes} {db : DB} {l m : List Applied}

theorem Syncable.legible {s : Applied} (h : Syncable W chainID vals s) : Legible W s := by
  obtain ⟨p, bytes, hsound, -, hblock⟩ := h.sound
  refine ⟨?_, h.txs.2⟩
  rw [hblock]
  exact hsound.decoded

theorem validateSyncedBlocks_run (hm : AcceptedRun W db m) (hsync : ∀ s ∈ m, Syncable W chainID vals s) :
    validateSyncedBlocks W chainID vals (db.height + 1) (m.map (storedBytes W)) = .ok (m.map storedBlock) := by
  induction m generalizing db with
  | nil => rfl
  | cons s m ih =>
    obtain ⟨-, hheight, hpost, hser, -, hrest⟩ := acceptedRun_cons hm
    obtain ⟨hs, hsync⟩ := List.forall_mem_cons.mp hsync
    have hread : deserializeBlock W (storedBytes W s) = .ok (storedBlock s) :=
      deserializeBlock_serializeBlock hser hs.legible.1 hs.legible.2
    obtain ⟨p, bytes, hsound, hprop, hblock⟩ := hs.sound
    rw [hheight] at hsound hblock
    have htxs : p.txs ≠ [] ∧ p.txs.length < 65536 := by
      have h := hs.txs
      rw [hblock] at h
      exact h
    have hstored : storedBlock s = { blockOf (db.height + 1) p bytes with stateRoot := s.post.stateRoot } := by
      unfold storedBlock
      rw [hblock]
    obtain ⟨b, hb⟩ := (validateSyncedBlock_iff hs.bonded hsound hprop (hstored ▸ hser)).mpr htxs
    obtain rfl : storedBlock s = b := Go.ok.inj (hread.symm.trans (validateSyncedBlock_ok.mp hb).1)
    exact validateSyncedBlocks_cons.mpr ⟨_, _, hb, hpost ▸ ih hrest hsync, rfl⟩

theorem applySynced_run (order : MapOrder) (hm : AcceptedRun W db m) (hsync : ∀ s ∈ m, Syncable W chainID vals s)
    (applied : List (DB × Block)) : ∃ applied', applySynced W chainID order (m.map storedBlock) ⟨db, applied⟩ =
      (.ok (), ⟨endOf db m, applied'⟩) := by
  induction m generalizing db applied with
  | nil => exact ⟨applied, rfl⟩
  | cons s m ih =>
    obtain ⟨hs, hothers⟩ := List.forall_mem_cons.mp hsync
    cases hm with
    | block happ hrest =>
      have hchain := hs.chain
      have hone := hs.oneLeaf
      dsimp only at hchain hone
      subst hchain
      have hagain := replayed happ hone order (.inr rfl)
      obtain ⟨applied', hrun⟩ := ih hrest hothers ((_, _) :: applied)
      refine ⟨applied', ?_⟩
      rw [List.map_cons, applySynced]
      simp only [storedBlock, hagain]
      exact hrun

end

/-! ## The passes -/

/-- Passes of the loop in which the answer of a node in the state `tip` has the majority, from
    one height of the joining node to another. -/
inductive Passes (W : World) (chainID : List UInt8) (vals : Stakes) (tip : DB) : UInt64 → List Round → UInt64 → Prop
  | done (height : UInt64) : Passes W chainID vals tip height [] height
  | pass {height last : UInt64} {r : Round} {rounds : List Round} {raws : List (List UInt8)} :
      served W tip (height + 1) = some raws → raws ≠ [] → Majority W chainID vals (height + 1) r raws →
      r.endsAfter = false → Passes W chainID vals tip (height + .ofNat raws.length) rounds last →
      Passes W chainID vals tip height (r :: rounds) last

section

variable {W : World} {chainID : List UInt8} {vals : Stakes} {db : DB} {blocks : List Applied}

theorem height_endOf_append {l m : List Applied} (h : AcceptedRun W db (l ++ m))
    (hroom : db.height.toNat + (l ++ m).length < 2 ^ 64) :
    (endOf db (l ++ m)).height = (endOf db l).height + .ofNat m.length := by
  have hm64 : m.length < UInt64.size := by
    rw [List.length_append] at hroom
    exact show m.length < 2 ^ 64 by omega
  have hboth := height_endOf h hroom
  rw [List.length_append] at hroom hboth
  have hfirst := height_endOf (acceptedRun_append.mp h).1 (by omega)
  apply UInt64.toNat_inj.mp
  rw [hboth, UInt64.toNat_add, hfirst, UInt64.toNat_ofNat_of_lt' hm64, Nat.mod_eq_of_lt (by omega)]
  omega

theorem catchUpLoop_run (hrun : AcceptedRun W db blocks) (hroom : db.height.toNat + blocks.length + 1 < 2 ^ 64)
    (htop : TopClean db) (hsync : ∀ s ∈ blocks, Syncable W chainID vals s) {height last : UInt64} {rounds : List Round}
    (hp : Passes W chainID vals (endOf db blocks) height rounds last) : ∀ {l m : List Applied}, blocks = l ++ m →
      (endOf db l).height = height → ∀ applied, ∃ m₁ m₂ applied', m = m₁ ++ m₂ ∧ (endOf db (l ++ m₁)).height = last ∧
        catchUpLoop W chainID vals rounds ⟨endOf db l, applied⟩ = (.ok (), ⟨endOf db (l ++ m₁), applied'⟩) := by
  induction hp with
  | done height =>
    intro l m _ hheight applied
    refine ⟨[], m, applied, rfl, ?_, ?_⟩ <;> rw [List.append_nil]
    · exact hheight
    · rfl
  | @pass height last r rounds raws hserved hne hmajor hends _ ih =>
    intro l m hsplit hheight applied
    subst hsplit hheight
    obtain ⟨hl, hm⟩ := acceptedRun_append.mp hrun
    have hsyncm : ∀ s ∈ m, Syncable W chainID vals s := fun s hs => hsync s (List.mem_append_right _ hs)
    obtain ⟨n, -, hchain⟩ := served_chain hrun hroom htop (fun s hs => (hsync s hs).legible)
      fun s hs => (hsyncm s hs).small
    obtain rfl := Option.some.inj (hserved.symm.trans hchain)
    rw [List.length_append] at hroom
    -- the blocks of this pass, and those behind them
    obtain ⟨m₁, m₂, hcut⟩ : ∃ m₁ m₂, m.take n = m₁ ∧ m = m₁ ++ m₂ :=
      ⟨_, m.drop n, rfl, (List.take_append_drop n m).symm⟩
    obtain ⟨htake, rfl⟩ := hcut
    rw [htake] at hne hmajor ih
    have hm₁ : AcceptedRun W (endOf db l) m₁ := (acceptedRun_append.mp hm).1
    have hsync₁ : ∀ s ∈ m₁, Syncable W chainID vals s := fun s hs => hsyncm s (List.mem_append_left _ hs)
    have hselect := selectBlocks_honest hmajor hne (validateSyncedBlocks_run hm₁ hsync₁)
    obtain ⟨applied₁, happly⟩ := applySynced_run r.order hm₁ hsync₁ applied
    have hpre : AcceptedRun W db (l ++ m₁) := acceptedRun_append.mpr ⟨hl, hm₁⟩
    rw [List.length_append] at hroom
    have hnext : (endOf db (l ++ m₁)).height = (endOf db l).height + .ofNat (m₁.map (storedBytes W)).length := by
      rw [List.length_map]
      exact height_endOf_append hpre (by rw [List.length_append]; omega)
    obtain ⟨m₃, m₄, applied', hrest, hlast, hloop⟩ := ih (by rw [List.append_assoc]) hnext applied₁
    refine ⟨m₁ ++ m₃, m₄, applied', by rw [hrest, List.append_assoc], by rw [← List.append_assoc]; exact hlast, ?_⟩
    have hpeers : r.peers ≠ [] := by
      intro hnil
      have hmore := hmajor.more
      simp [Round.first, hnil] at hmore
    have hmax : (endOf db l).height ≠ maxUint64 := by
      intro e
      have hfirst := height_endOf hl (by omega)
      rw [e, show maxUint64.toNat = 2 ^ 64 - 1 from rfl] at hfirst
      omega
    rw [catchUpLoop, if_neg (not_or.mpr ⟨hmax, hpeers⟩), hselect]
    dsimp only
    rw [happly]
    dsimp only
    rw [hends, if_neg Bool.false_ne_true, ← endOf_append, hloop, List.append_assoc]

end

/-! ## Joining late -/

section

variable {W : World} {chainID : List UInt8} {self : Key} {disk₀ : Disk} {chain : UInt64 → Option BlockProposal}
  {e : Engine Mempool}

theorem Committed.snoc {db post : DB} {l : List Applied} {order : MapOrder} {p : BlockProposal} {bytes : List UInt8}
    {r : Result} {height : UInt64} (h : Committed W chainID chain db l)
    (hroom : db.height.toNat + (l.length + 1) < 2 ^ 64) (hheight : height = (endOf db l).height + 1)
    (hser : serializeProposal W.toPrim p = .ok bytes)
    (happ : applyBlockForChain W order (endOf db l) (blockOf height p bytes) chainID = (.ok r, post))
    (hbonds : bondedAmounts post = bondedAmounts db) :
    Committed W chainID (Function.update chain height (some p)) db
      (l ++ [⟨endOf db l, blockOf height p bytes, chainID, post⟩]) := by
  refine ⟨acceptedRun_append.mpr ⟨h.run, .block happ (.start post)⟩, fun s hs => ?_, fun s hs => ?_⟩
  · rcases List.mem_append.mp hs with hs | hs
    · obtain ⟨hchain, q, bytes', hq, hrest⟩ := h.proposed s hs
      refine ⟨hchain, q, bytes', ?_, hrest⟩
      have hold := (height_mem h.run (by omega) s hs).2
      have hne : s.block.height ≠ height := by
        intro heq
        rw [heq, hheight, toNat_next (by rw [height_endOf h.run (by omega)]; omega),
          height_endOf h.run (by omega)] at hold
        omega
      rw [Function.update_of_ne hne, hq]
    · obtain rfl := List.mem_singleton.mp hs
      exact ⟨rfl, p, bytes, Function.update_self .., hser, rfl⟩
  · rcases List.mem_append.mp hs with hs | hs
    · exact h.bonds s hs
    · obtain rfl := List.mem_singleton.mp hs
      exact hbonds

theorem NodeRun.committed (hsign : ∀ k m, W.verify k m (W.sign k m) = true)
    (hsaved : ∀ rs, disk₀.snapshot = some rs → SoundRound W chainID (bondedAmounts disk₀.db) rs)
    (hrun : NodeRun W chainID self disk₀ chain e) : ∃ l, endOf disk₀.db l = e.disk.db ∧
      (disk₀.db.height.toNat + l.length < 2 ^ 64 → Committed W chainID chain disk₀.db l) := by
  induction hrun with
  | start hstart =>
    obtain ⟨pool, history, -, rfl⟩ := hstart
    obtain ⟨-, -, hdisk, -, -⟩ := start_started (Config.node W chainID self) disk₀ pool history
    refine ⟨[], by rw [hdisk]; rfl, fun _ => ⟨.start _, fun s hs => absurd hs List.not_mem_nil,
      fun s hs => absurd hs List.not_mem_nil⟩⟩
  | @step chain e _ _ hpre hturn ih =>
    obtain ⟨l, hend, hcommitted⟩ := ih
    cases hturn with
    | @crash _ pool history hf =>
      obtain ⟨rfl, -⟩ := hf
      obtain ⟨-, -, hdisk, -, -⟩ := start_started (Config.node W chainID self) e.disk pool history
      rw [hdisk]
      exact ⟨l, hend, hcommitted⟩
    | @input fault order i _ hg hs =>
      obtain ⟨ht, hk⟩ := hg
      have hk : KeepsSet (nodeConfig W chainID self fault) order e i := hk
      have hs : step (nodeConfig W chainID self fault) order e i = some _ := hs
      have hintact := NodeRun.intact hsign hsaved hpre
      have hperm :
          Permits (nodeConfig W chainID self fault) (soundRules W chainID (bondedAmounts disk₀.db)) order e i :=
        sound_permits hsign hintact.fresh hintact.bonds hintact.pool ht
      obtain ⟨-, rfl⟩ := step_eq_some hs
      cases hp : pending (nodeConfig W chainID self fault) order e i with
      | committed x e₁ =>
        obtain ⟨hcom, -⟩ := handle_commits hperm hp
        obtain ⟨p, bytes, r, hprop, -, hser, happ⟩ := pending_committed hp
        simp only [KeepsSet, hp] at hk
        refine ⟨l ++ [⟨e.disk.db, blockOf e.rs.height p bytes, chainID, e₁.disk.db⟩], ?_, fun hroom => ?_⟩
        · rw [endOf_append, hcom.db]
          rfl
        · rw [List.length_append] at hroom
          simp only [grown, hp, hprop]
          rw [← hend] at happ ⊢
          refine (hcommitted (by omega)).snoc hroom ?_ hser happ (hk.trans hintact.bonds)
          rw [hend]
          exact hintact.fresh.height
      | stay | restart | crash =>
        have hruns := handle_runs hperm fun x e₁ h => by rw [hp] at h; cases h
        refine ⟨l, by rw [hend, hruns.db, popped_disk], ?_⟩
        simp only [grown, hp]
        exact hcommitted

theorem Committed.syncable {blocks : List Applied} (hsign : ∀ k m, W.verify k m (W.sign k m) = true)
    (hsaved : ∀ rs, disk₀.snapshot = some rs → SoundRound W chainID (bondedAmounts disk₀.db) rs)
    (hrun : NodeRun W chainID self disk₀ chain e) (hc : Committed W chainID chain disk₀.db blocks)
    (hend : endOf disk₀.db blocks = e.disk.db) (hroom : disk₀.db.height.toNat + blocks.length < 2 ^ 64)
    (hreplay : ∀ s ∈ blocks, Replayable W s) : ∀ s ∈ blocks, Syncable W chainID (bondedAmounts disk₀.db) s := by
  intro s hs
  obtain ⟨hchain, p, bytes, hp, hser, hblock⟩ := hc.proposed s hs
  obtain ⟨hlow, hhigh⟩ := height_mem hc.run hroom s hs
  have htip : s.block.height ≤ e.disk.db.height := by
    rw [← hend, UInt64.le_iff_toNat_le, height_endOf hc.run hroom]
    exact hhigh
  obtain ⟨q, hq, hne, hsound, -⟩ :=
    (hrun.intact hsign hsaved).stored s.block.height (UInt64.lt_iff_toNat_lt.mpr hlow) htip
  obtain rfl := Option.some.inj (hp.symm.trans hq)
  exact { hreplay s hs with chain := hchain, bonded := hne, sound := ⟨p, bytes, hsound, hser, hblock⟩ }

/-- A node that joins at an earlier state of an honest node's run, and asks in passes in which
    that node's answer has the majority, moves along the run, up to its end. -/
theorem catch_up_converges {l m : List Applied} (hsign : ∀ k m, W.verify k m (W.sign k m) = true)
    (hsaved : ∀ rs, disk₀.snapshot = some rs → SoundRound W chainID (bondedAmounts disk₀.db) rs)
    (hrun : NodeRun W chainID self disk₀ chain e) (hc : Committed W chainID chain disk₀.db (l ++ m))
    (hend : endOf disk₀.db (l ++ m) = e.disk.db) (hroom : disk₀.db.height.toNat + (l ++ m).length + 1 < 2 ^ 64)
    (htop : TopClean disk₀.db) (hreplay : ∀ s ∈ l ++ m, Replayable W s) {rounds : List Round} {last : UInt64}
    (hp : Passes W chainID (bondedAmounts disk₀.db) e.disk.db (endOf disk₀.db l).height rounds last) :
    (catchUpCommittedBlocks W chainID rounds (endOf disk₀.db l)).1 = .ok () ∧
    (∃ m₁ m₂, m = m₁ ++ m₂ ∧
      (catchUpCommittedBlocks W chainID rounds (endOf disk₀.db l)).2.db = endOf disk₀.db (l ++ m₁)) ∧
    (last = e.disk.db.height → (catchUpCommittedBlocks W chainID rounds (endOf disk₀.db l)).2.db = e.disk.db) := by
  have hsync := hc.syncable hsign hsaved hrun hend (by omega) hreplay
  have hbonds : bondedAmounts (endOf disk₀.db l) = bondedAmounts disk₀.db := by
    cases hlast : l.getLast? with
    | none => rw [List.getLast?_eq_none_iff.mp hlast]; rfl
    | some s =>
      obtain ⟨front, rfl⟩ := List.getLast?_eq_some_iff.mp hlast
      rw [endOf_append]
      exact hc.bonds s (by simp)
  rw [← hend] at hp
  obtain ⟨m₁, m₂, applied, hm, hlast, hloop⟩ := catchUpLoop_run hc.run hroom htop hsync hp rfl rfl []
  unfold catchUpCommittedBlocks
  rw [hbonds, hloop]
  refine ⟨rfl, ⟨m₁, m₂, hm, rfl⟩, fun htip => ?_⟩
  -- at the height of the node no block is left
  have hnone : m₂ = [] := by
    rw [htip, ← hend, hm, ← List.append_assoc] at hlast
    rw [hm, ← List.append_assoc] at hroom
    have hrun' := hc.run
    rw [hm, ← List.append_assoc] at hrun'
    have hlong := height_endOf hrun' (by omega)
    have hshort := height_endOf (acceptedRun_append.mp hrun').1 (by rw [List.length_append] at hroom; omega)
    have hlen : (l ++ m₁ ++ m₂).length = (l ++ m₁).length + m₂.length := List.length_append
    rw [← hlast, hshort, hlen] at hlong
    exact List.length_eq_zero_iff.mp (by omega)
  rw [← hend, hm, hnone, List.append_nil]

end

/-! ## One block behind -/

/-- The payment of `paid` is the block of a proposal, and leads to the state on the disk. -/
def PaidBlock (db : DB) (p : BlockProposal) (bytes : List UInt8) : Prop :=
  let b := blockOf 1 p bytes
  let out := applyBlockForChain World.sample .id soloDB b defaultChainID
  out.1.isOk = true ∧ out.2 = db ∧ p.txs.length = 1 ∧ leavesOf World.sample soloDB b defaultChainID = [] ∧
    (storedBytes World.sample ⟨soloDB, b, defaultChainID, db⟩).length ≤ smallBlock ∧
    bondedAmounts db = bondedAmounts soloDB ∧ db.height = 1

instance (db : DB) (p : BlockProposal) (bytes : List UInt8) : Decidable (PaidBlock db p bytes) := by
  unfold PaidBlock
  infer_instance

theorem solo_paid : ((.enqueue paid :: soloBlock).foldlM soloStep (fun _ => none, solo)).any (fun s =>
    (s.1 1).any fun p => (serializeProposal Prim.sample p).toOption.any fun bytes =>
      decide (PaidBlock s.2.disk.db p bytes)) = true := by
  decide +kernel

/-- The only peer answers a pass with the blocks it has. -/
def asking (W : World) (tip : DB) (height : UInt64) : Round where
  peers := [1]
  answer _ _ := served W tip (height + 1)
  order := .rev
  endsWaiting _ := false
  endsAfter := false

theorem asking_majority {W : World} {chainID : List UInt8} {vals : Stakes} {tip : DB} {height : UInt64}
    {raws : List (List UInt8)} {bs : List Block} (h : served W tip (height + 1) = some raws)
    (hv : validateSyncedBlocks W chainID vals (height + 1) raws = .ok bs) :
    Majority W chainID vals (height + 1) (asking W tip height) raws := by
  have hfirst : (asking W tip height).first = [some raws] := congrArg (fun a => [a]) h
  refine ⟨?_, fun x hx _ => ?_, fun x hx => ?_⟩
  · rw [hfirst]
    simp [othersThan]
  · rw [hfirst] at hx
    exact Option.some.inj (List.mem_singleton.mp hx)
  · rw [hfirst] at hx
    rw [Option.some.inj (List.mem_singleton.mp hx), hv]
    rfl

section

variable {W : World} {chainID : List UInt8} {chain : UInt64 → Option BlockProposal} {vals : Stakes} {db post : DB}
  {order : MapOrder} {p : BlockProposal} {bytes : List UInt8} {r : Result}

theorem Committed.first (hp : chain 1 = some p) (hser : serializeProposal W.toPrim p = .ok bytes)
    (happ : applyBlockForChain W order db (blockOf 1 p bytes) chainID = (.ok r, post))
    (hbonds : bondedAmounts post = bondedAmounts db) :
    Committed W chainID chain db [⟨db, blockOf 1 p bytes, chainID, post⟩] := by
  refine ⟨.block happ (.start _), List.forall_mem_singleton.mpr ?_, List.forall_mem_singleton.mpr hbonds⟩
  exact ⟨rfl, p, bytes, hp, hser, rfl⟩

theorem Replayable.first (htxs : p.txs.length = 1) (hleaves : leavesOf W db (blockOf 1 p bytes) chainID = [])
    (hsmall : (storedBytes W ⟨db, blockOf 1 p bytes, chainID, post⟩).length ≤ smallBlock) :
    Replayable W ⟨db, blockOf 1 p bytes, chainID, post⟩ := by
  refine ⟨⟨fun hnil => ?_, show p.txs.length < 65536 by omega⟩, hsmall, fun x hx => ?_⟩
  · have hnil : p.txs = [] := hnil
    rw [hnil] at htxs
    cases htxs
  · have hx : x ∈ leavesOf W db (blockOf 1 p bytes) chainID := hx
    rw [hleaves] at hx
    cases hx

theorem Passes.first {s : Applied} (hrun : AcceptedRun W db [s]) (hroom : db.height.toNat + 1 + 1 < 2 ^ 64)
    (htop : TopClean db) (hsync : ∀ x ∈ [s], Syncable W chainID vals x) :
    Passes W chainID vals s.post db.height [asking W s.post db.height] (db.height + 1) := by
  obtain ⟨n, hn, hserved⟩ := served_chain (l := []) hrun hroom htop (fun x hx => (hsync x hx).legible)
    fun x hx => (hsync x hx).small
  rw [List.take_of_length_le (show [s].length ≤ n from hn)] at hserved
  have hne : [s].map (storedBytes W) ≠ [] := List.cons_ne_nil _ _
  exact .pass hserved hne (asking_majority hserved (validateSyncedBlocks_run hrun hsync)) rfl (.done _)

end

theorem paid_run : ∃ chain e p bytes, NodeRun World.sample defaultChainID 1 soloDisk chain e ∧ chain 1 = some p ∧
    serializeProposal Prim.sample p = .ok bytes ∧ PaidBlock e.disk.db p bytes := by
  obtain ⟨s, hs, hall⟩ := (Option.any_eq_true _ _).mp solo_paid
  obtain ⟨p, hp, hall⟩ := (Option.any_eq_true _ _).mp hall
  obtain ⟨bytes, hser, hall⟩ := (Option.any_eq_true _ _).mp hall
  have htx : ∀ t, Input.enqueue t ∈ .enqueue paid :: soloBlock → Decoded Prim.sample t := by
    intro t ht
    obtain rfl : t = paid := by simpa [soloBlock] using ht
    exact paid_decoded
  exact ⟨s.1, s.2, p, bytes, NodeRun.ofSolo htx hs, hp, Go.toOption_eq_some.mp hser, of_decide_eq_true hall⟩

/-- A node without blocks catches up with the first block of validator 1. -/
theorem catch_up_converges_paid : ∃ chain e, NodeRun World.sample defaultChainID 1 soloDisk chain e ∧
    e.disk.db.height = 1 ∧
    (catchUpCommittedBlocks World.sample defaultChainID [asking World.sample e.disk.db soloDB.height] soloDB).2.db =
      e.disk.db := by
  obtain ⟨chain, e, p, bytes, hrun, hp, hser, hok, hpost, htxs, hleaves, hsmall, hbonds, hheight⟩ := paid_run
  obtain ⟨r, happ⟩ := Go.run_eq hok
  rw [hpost] at happ
  have hc : Committed World.sample defaultChainID chain soloDisk.db
      [⟨soloDB, blockOf 1 p bytes, defaultChainID, e.disk.db⟩] := .first hp hser happ hbonds
  have hreplay : ∀ x ∈ [⟨soloDB, blockOf 1 p bytes, defaultChainID, e.disk.db⟩], Replayable World.sample x :=
    List.forall_mem_singleton.mpr (.first htxs hleaves hsmall)
  have htop : TopClean soloDisk.db := fun k _ => rfl
  have hsaved : ∀ rs, soloDisk.snapshot = some rs →
      SoundRound World.sample defaultChainID (bondedAmounts soloDisk.db) rs := fun rs h => by cases h
  have hroom : soloDisk.db.height.toNat + 1 + 1 < 2 ^ 64 := by decide
  have hsync :=
    Committed.syncable (W := World.sample) sample_verifies hsaved hrun hc rfl (Nat.lt_of_succ_lt hroom) hreplay
  have hpasses : Passes World.sample defaultChainID (bondedAmounts soloDisk.db) e.disk.db soloDB.height
      [asking World.sample e.disk.db soloDB.height] (soloDB.height + 1) := .first hc.run hroom htop hsync
  have hlast : soloDB.height + 1 = e.disk.db.height := by
    rw [hheight]
    rfl
  have hend := (catch_up_converges (W := World.sample) (l := []) sample_verifies hsaved hrun hc rfl hroom htop hreplay
    hpasses).2.2 hlast
  have hstart : endOf soloDisk.db [] = soloDB := rfl
  rw [hstart] at hend
  exact ⟨chain, e, hrun, hheight, hend⟩

end Frg.Node
