/-
  Frg.RG.Capacity — when `BuildTree` fails.

  The checks of scales, arities, padding and signatures are passed by every node the code
  makes, so that one round fails only when a sum leaves 256 bits (`coarsenLayer_fits`). The
  number of rounds is bounded: a layer of level 8 has no parents, and 65536 leaves are the
  most one node can stand above.

    - `buildTree_isOk`: the tree can be built exactly when the IDs can, the leaves of
      transactions and contracts together are at most 65536, and the squares add up.
    - `fails_only_on_overflow`: without contract leaves only the sum of squares decides.
    - `capacity_counts_contracts`: the limit on transactions is one on leaves.
-/

import Frg.RG.Aggregates

namespace Frg.RG

open Frg.Lib Frg.Core Frg.Wire

variable {P : Prim} {α β : Type}

/-! ## Success or overflow -/

/-- A result, or the error of a sum that is too large. -/
def FitsOrOverflows (x : Res α) : Prop := (∃ a, x = .ok a) ∨ ∃ msg, x = .err (.rg .arithmeticOverflow msg)

theorem FitsOrOverflows.ok (a : α) : FitsOrOverflows (.ok a : Res α) := .inl ⟨a, rfl⟩

theorem FitsOrOverflows.check (c : Prop) [Decidable c] (msg : String) :
    FitsOrOverflows (Go.check c (.rg .arithmeticOverflow msg)) := by
  by_cases h : c
  · exact .inl ⟨(), Go.check_pos h _⟩
  · exact .inr ⟨msg, Go.check_neg h _⟩

theorem FitsOrOverflows.bind {x : Res α} {f : α → Res β} (hx : FitsOrOverflows x)
    (hf : ∀ a, x = .ok a → FitsOrOverflows (f a)) : FitsOrOverflows (x >>= f) := by
  rcases hx with ⟨a, rfl⟩ | ⟨msg, rfl⟩
  · exact hf a rfl
  · exact .inr ⟨msg, rfl⟩

theorem FitsOrOverflows.mapM {f : α → Res β} : ∀ {l : List α}, (∀ a ∈ l, FitsOrOverflows (f a)) →
    FitsOrOverflows (l.mapM f) := by
  intro l
  induction l with
  | nil => exact fun _ => .ok []
  | cons a l ih =>
    intro h
    rw [List.mapM_cons]
    refine .bind (h a List.mem_cons_self) fun b _ => ?_
    exact .bind (ih fun c hc => h c (List.mem_cons_of_mem _ hc)) fun bs _ => .ok _

/-! ## One round -/

theorem addChildren_fits {l : Nat} (hl : l ≤ 8) : ∀ {chunk : List RGNode}, Layer l chunk → ∀ s,
    FitsOrOverflows (chunk.foldlM (addChild P) s) := by
  intro chunk
  induction chunk with
  | nil => exact fun _ s => .ok s
  | cons n chunk ih =>
    intro hlay s
    rw [List.foldlM_cons]
    refine .bind ?_ fun s' _ => ih (fun m hm => hlay m (List.mem_cons_of_mem _ hm)) s'
    unfold addChild
    rw [(hlay n List.mem_cons_self).root_eq hl]
    exact .bind (.ok _) fun _ _ => .bind (.check _ _) fun _ _ => .bind (.check _ _) fun _ _ => .ok _

theorem coarseGrain_fits {l : Nat} (hl : l ≤ 8) {chunk : List RGNode} (hlay : Layer l chunk) (scale : Nat) :
    FitsOrOverflows (coarseGrain P chunk scale) := by
  rcases addChildren_fits (P := P) hl hlay ⟨0, 0, 0, 0, []⟩ with ⟨s, hs⟩ | ⟨msg, hs⟩
  · obtain ⟨hv, hq, -⟩ := (addChildren_ok hl hlay (by positivity) (by positivity)).mp hs
    rw [Nat.zero_add] at hv hq
    exact .inl (coarseGrain_of_fit hl hlay ⟨hv, hq⟩ scale)
  · refine .inr ⟨msg, ?_⟩
    unfold coarseGrain
    rw [hs]
    rfl

theorem coarsenLayer_fits {l : Nat} (hl : l + 1 ≤ 8) {layer : List RGNode} (hne : layer ≠ []) (hlay : Layer l layer) :
    FitsOrOverflows (coarsenLayer P layer) := by
  cases layer with
  | nil => exact absurd rfl hne
  | cons first rest =>
    have hs := (hlay first List.mem_cons_self).scale
    have hsK : first.scale * K = 4 ^ (l + 1) := by rw [hs]; rfl
    unfold coarsenLayer
    dsimp only
    rw [Go.check_pos (by rw [hsK, validScale_pow]; exact hl)]
    refine .mapM fun c hc => ?_
    rw [hs, coarsenChunk_eq (by omega) (mem_chunks hc).2.1]
    exact coarseGrain_fits (by omega) (padded_layer fun n hn => hlay n ((mem_chunks hc).2.2 n hn)) _

/-! ## All rounds -/

theorem coarsen_fits : ∀ {n l : Nat} {layer : List RGNode}, 9 ≤ n + l → l ≤ 8 → layer ≠ [] → Layer l layer →
    layer.length ≤ 4 ^ (8 - l) → FitsOrOverflows (coarsen P n layer) := by
  intro n
  induction n with
  | zero => intro l layer h hl; omega
  | succ n ih =>
    intro l layer h hl hne hlay hlen
    by_cases hone : layer.length ≤ 1
    · rw [coarsen_one hone]
      exact .ok _
    have hl' : l + 1 ≤ 8 := by
      by_contra hcon
      rw [show 8 - l = 0 by omega] at hlen
      omega
    rw [coarsen, if_neg hone]
    refine .bind (coarsenLayer_fits hl' hne hlay) fun parents hc => ?_
    obtain ⟨-, hp⟩ := (coarsenLayer_ok hl hne hlay).mp hc
    obtain ⟨hlay', -, -, hplen⟩ := hp.facts hl hlay
    have hpow : 4 ^ (8 - l) = 4 * 4 ^ (8 - (l + 1)) := by rw [← pow_succ']; congr 1; omega
    exact .bind (ih (by omega) hl' (List.length_pos_iff.mp (by omega)) hlay' (by omega)) fun rest _ => .ok _

theorem coarsen_too_long : ∀ {n l : Nat} {layer : List RGNode}, 9 ≤ n + l → l ≤ 8 → Layer l layer → SumsFit layer →
    4 ^ (8 - l) < layer.length →
    coarsen P n layer = .err (.rg .scaleDomainFault "invalid parent scale 262144") := by
  intro n
  induction n with
  | zero => intro l layer h hl; omega
  | succ n ih =>
    intro l layer h hl hlay hfit hlen
    have hpos : 0 < 4 ^ (8 - l) := by positivity
    have hne : layer ≠ [] := List.length_pos_iff.mp (by omega)
    rw [coarsen, if_neg (by omega)]
    by_cases hl' : l + 1 ≤ 8
    · obtain ⟨parents, hp⟩ := Parents.of_fit (P := P) hl hlay hfit
      rw [(coarsenLayer_ok hl hne hlay).mpr ⟨hl', hp⟩]
      obtain ⟨hlay', hv, hq, hplen⟩ := hp.facts hl hlay
      have hpow : 4 ^ (8 - l) = 4 * 4 ^ (8 - (l + 1)) := by rw [← pow_succ']; congr 1; omega
      rw [Go.ok_bind, ih (by omega) hl' hlay' (by rw [SumsFit, hv, hq]; exact hfit) (by omega)]
      rfl
    · obtain rfl : l = 8 := by omega
      cases layer with
      | nil => exact absurd rfl hne
      | cons first rest =>
        have hscale : first.scale * K = 262144 := by rw [(hlay first List.mem_cons_self).scale]; rfl
        unfold coarsenLayer
        dsimp only
        rw [hscale, Go.check_neg (by decide)]
        rfl

/-! ## Leaves -/

theorem maxUint256_eq : maxUint256 = ((256 ^ 32 : Nat) : Int) - 1 := by decide

theorem makeAtomicNode_isOk {t : Tx} {x : Hash} (hid : t.id P = .ok x) :
    (∃ n, makeAtomicNode P t = .ok n) ↔ amountOf t ^ 2 ≤ maxUint256 := by
  obtain ⟨v, hv, hlt⟩ := id_value hid
  have hamount : amountOf t = (v : Int) := by rw [amountOf, hv]; rfl
  unfold makeAtomicNode
  rw [hid, Go.ok_bind, hv, hamount, sq]
  constructor
  · rintro ⟨n, h⟩
    obtain ⟨_, hcheck, -⟩ := Go.bind_eq_ok.mp h
    exact Go.check_eq_ok.mp hcheck
  · intro h
    have hsq : ((v : Int) * v).natAbs < 256 ^ 32 := by
      rw [maxUint256_eq, ← Nat.cast_mul] at h
      rw [Int.natAbs_mul, Int.natAbs_natCast]
      omega
    dsimp only
    rw [Go.check_pos h, Go.ok_bind, uint256ToBytes_of_lt (by rwa [Int.natAbs_natCast]), Go.ok_bind,
      uint256ToBytes_of_lt hsq, Go.ok_bind]
    exact ⟨_, rfl⟩

theorem makeAtomicNode_fits {t : Tx} {x : Hash} (hid : t.id P = .ok x) : FitsOrOverflows (makeAtomicNode P t) := by
  by_cases hsq : amountOf t ^ 2 ≤ maxUint256
  · exact .inl ((makeAtomicNode_isOk hid).mpr hsq)
  · obtain ⟨v, hv, -⟩ := id_value hid
    have hamount : amountOf t = (v : Int) := by rw [amountOf, hv]; rfl
    rw [hamount, sq] at hsq
    refine .inr ⟨"tx square exceeds uint256", ?_⟩
    unfold makeAtomicNode
    rw [hid, Go.ok_bind, hv]
    dsimp only
    rw [Go.check_neg hsq]
    rfl

/-- Every transaction has an ID. -/
def HaveIDs (P : Prim) (txs : List Tx) : Prop := ∀ t ∈ txs, ∃ x, t.id P = .ok x

theorem amount_sq_le {txs : List Tx} {t : Tx} (ht : t ∈ txs) : amountOf t ^ 2 ≤ squareSum txs :=
  List.single_le_sum (fun _ hx => by
    obtain ⟨u, -, rfl⟩ := List.mem_map.mp hx
    exact sq_nonneg _) _ (List.mem_map_of_mem ht)

theorem atomicLayer_haveIDs {txs : List Tx} {leaves : List RGNode} (h : atomicLayer P txs = .ok leaves) :
    HaveIDs P txs := by
  intro t ht
  obtain ⟨n, -, hn⟩ := Go.forall₂_left (Go.mapM_eq_ok.mp h).flip ht
  obtain ⟨-, -, -, x, hid, -⟩ := makeAtomicNode_ok hn
  exact ⟨x, hid⟩

theorem atomicLayer_isOk {txs : List Tx} (hids : HaveIDs P txs) (hsq : squareSum txs ≤ maxUint256) :
    ∃ leaves, atomicLayer P txs = .ok leaves := by
  obtain ⟨leaves, h⟩ := Go.forall₂_exists (R := fun t n => makeAtomicNode P t = .ok n) (l := txs) fun t ht => by
    obtain ⟨x, hid⟩ := hids t ht
    exact (makeAtomicNode_isOk hid).mpr ((amount_sq_le ht).trans hsq)
  exact ⟨leaves, Go.mapM_eq_ok.mpr h⟩

/-- A leaf whose sum of squares is that of its volume, as contract leaves have it. -/
structure SquareLeaf (n : RGNode) : Prop where
  level : AtLevel 0 n
  squares : n.sumSquares.val = n.volume.val ^ 2

theorem volumeOf_le_squaresOf {l : List RGNode} (h : ∀ n ∈ l, n.sumSquares.val = n.volume.val ^ 2) :
    volumeOf l ≤ squaresOf l := by
  refine List.sum_le_sum fun n hn => ?_
  rw [h n hn]
  exact Nat.le_self_pow (by decide) _

/-! ## Whole trees -/

section

variable {txs : List Tx} {nodes leaves : List RGNode}

/-- The sums over all leaves fit when the squares do. -/
theorem leaves_fit (hleaves : atomicLayer P txs = .ok leaves) (hnodes : ∀ n ∈ nodes, SquareLeaf n) :
    SumsFit (leaves ++ nodes) ↔ squareSum txs + squaresOf nodes ≤ maxUint256 := by
  have hleafOf := atomicLayer_leafOf hleaves
  obtain ⟨-, hq, -⟩ := leafOf_sums hleafOf
  have hle : volumeOf (leaves ++ nodes) ≤ squaresOf (leaves ++ nodes) := by
    refine volumeOf_le_squaresOf fun n hn => ?_
    rcases List.mem_append.mp hn with hn | hn
    · obtain ⟨t, -, hleaf⟩ := Go.forall₂_left hleafOf hn
      exact hleaf.squares
    · exact (hnodes n hn).squares
  rw [squaresOf_append] at hle
  rw [SumsFit, squaresOf_append, ← hq, maxUint256_eq]
  omega

theorem buildTree_isOk (hlen : txs.length ≤ tMax) (hnodes : ∀ n ∈ nodes, SquareLeaf n) :
    (∃ tree, buildTree P txs nodes = .ok tree) ↔
      HaveIDs P txs ∧ txs.length + nodes.length ≤ tMax ∧ squareSum txs + squaresOf nodes ≤ maxUint256 := by
  by_cases hne : txs ≠ [] ∨ nodes ≠ []
  · have hlayer : Layer 0 nodes := fun n hn => (hnodes n hn).level
    have hcoarsen : ∀ {leaves}, atomicLayer P txs = .ok leaves → ((∃ ls, coarsen P 10 (leaves ++ nodes) = .ok ls) ↔
        txs.length + nodes.length ≤ tMax ∧ squareSum txs + squaresOf nodes ≤ maxUint256) := by
      intro leaves h
      obtain ⟨hlay, hnil⟩ := leaves_layer hlayer h
      rw [coarsen_isOk (by decide) (Nat.zero_le 8) (fun e => hne.elim (· (hnil e).1) (· (hnil e).2)) hlay,
        ← leaves_fit h hnodes, List.length_append, (atomicLayer_layer h).2]
      constructor
      · rintro (hone | h)
        · -- a single leaf holds the sums in its own fields
          have hlt : ∀ {l : List RGNode}, l.length ≤ 1 → SumsFit l := by
            intro l hl
            cases l with
            | nil => exact ⟨by decide, by decide⟩
            | cons n l =>
              obtain rfl : l = [] := List.length_eq_zero_iff.mp (by simpa using hl)
              exact ⟨by simp [volumeOf], by simp [squaresOf]⟩
          exact ⟨by simp only [tMax]; omega, hlt (by rw [List.length_append, (atomicLayer_layer h).2]; exact hone)⟩
        · exact h
      · exact .inr
    constructor
    · rintro ⟨tree, h⟩
      obtain ⟨-, leaves, top, h1, h2, -⟩ := (buildTree_ok hne hlayer).mp h
      exact ⟨atomicLayer_haveIDs h1, (hcoarsen h1).mp ⟨_, h2⟩⟩
    · rintro ⟨hids, htotal, hsq⟩
      obtain ⟨leaves, h1⟩ := atomicLayer_isOk hids (le_trans (by omega) hsq)
      obtain ⟨ls, h2⟩ := (hcoarsen h1).mpr ⟨htotal, hsq⟩
      obtain ⟨hlay, hnil⟩ := leaves_layer hlayer h1
      obtain ⟨top, -, h3, -⟩ := coarsen_last (Nat.zero_le 8) (fun e => hne.elim (· (hnil e).1) (· (hnil e).2)) hlay h2
      exact ⟨⟨ls, P.hash top.bytes⟩, (buildTree_ok hne hlayer).mpr ⟨hlen, leaves, top, h1, h2, h3, rfl⟩⟩
  · obtain ⟨rfl, rfl⟩ := not_or.mp hne |>.imp not_not.mp not_not.mp
    exact iff_of_true ⟨_, buildTree_nil P⟩ ⟨fun t ht => absurd ht List.not_mem_nil, by decide, by decide⟩

theorem buildTree_fits (hlen : txs.length ≤ tMax) (hids : HaveIDs P txs) (hnodes : Layer 0 nodes)
    (htotal : txs.length + nodes.length ≤ tMax) : FitsOrOverflows (buildTree P txs nodes) := by
  unfold buildTree
  by_cases hnil : txs = [] ∧ nodes = []
  · rw [if_pos hnil]
    exact .ok _
  rw [if_neg hnil, Go.check_pos hlen, Go.ok_bind]
  refine .bind (.mapM fun t ht => ?_) fun leaves h1 => ?_
  · obtain ⟨x, hid⟩ := hids t ht
    exact makeAtomicNode_fits hid
  obtain ⟨hlay, hempty⟩ := leaves_layer hnodes h1
  have hne : leaves ++ nodes ≠ [] := fun e => hnil (hempty e)
  refine .bind (coarsen_fits (by decide) (Nat.zero_le 8) hne hlay ?_) fun ls h2 => ?_
  · rw [List.length_append, (atomicLayer_layer h1).2]
    exact htotal
  · obtain ⟨top, m, h3, -, hm, hlev⟩ := coarsen_last (Nat.zero_le 8) hne hlay h2
    rw [h3]
    dsimp only
    rw [hlev.root_eq hm]
    exact .ok _

/-- Behind more leaves than 65536 the build stops at the scale of a level that does not exist. -/
theorem buildTree_too_long (hlen : txs.length ≤ tMax) (hids : HaveIDs P txs) (hnodes : ∀ n ∈ nodes, SquareLeaf n)
    (htotal : tMax < txs.length + nodes.length) (hsq : squareSum txs + squaresOf nodes ≤ maxUint256) :
    buildTree P txs nodes = .err (.rg .scaleDomainFault "invalid parent scale 262144") := by
  have hlayer : Layer 0 nodes := fun n hn => (hnodes n hn).level
  have hnil : ¬ (txs = [] ∧ nodes = []) := by
    rintro ⟨rfl, rfl⟩
    exact absurd htotal (by decide)
  obtain ⟨leaves, h1⟩ := atomicLayer_isOk hids (le_trans (by omega) hsq)
  unfold buildTree
  rw [if_neg hnil, Go.check_pos hlen, Go.ok_bind, h1, Go.ok_bind,
    coarsen_too_long (by decide) (Nat.zero_le 8) (leaves_layer hlayer h1).1 ((leaves_fit h1 hnodes).mpr hsq)]
  · rfl
  · rw [List.length_append, (atomicLayer_layer h1).2]
    exact htotal

/-- Without contract leaves a build within the limit fails exactly when the squares do not add up,
    and then with an overflow. -/
theorem fails_only_on_overflow (hlen : txs.length ≤ tMax) (hids : HaveIDs P txs) :
    ((∃ tree, buildTree P txs [] = .ok tree) ↔ squareSum txs ≤ 2 ^ 256 - 1) ∧
      (¬ squareSum txs ≤ 2 ^ 256 - 1 → ∃ msg, buildTree P txs [] = .err (.rg .arithmeticOverflow msg)) := by
  have hnone : ∀ n ∈ ([] : List RGNode), SquareLeaf n := fun n hn => absurd hn List.not_mem_nil
  have hiff : (∃ tree, buildTree P txs [] = .ok tree) ↔ squareSum txs ≤ 2 ^ 256 - 1 := by
    rw [buildTree_isOk hlen hnone]
    constructor
    · rintro ⟨-, -, hsq⟩
      exact le_trans (by omega) hsq
    · intro hsq
      exact ⟨hids, hlen,
        le_trans (show squareSum txs + ((squaresOf [] : Nat) : Int) ≤ squareSum txs by simp [squaresOf]) hsq⟩
  refine ⟨hiff, fun hsq => ?_⟩
  rcases buildTree_fits hlen hids (fun n hn => absurd hn List.not_mem_nil) hlen with hok | herr
  · exact absurd (hiff.mp hok) hsq
  · exact herr

/-- Two transfers whose squares do not fit together. -/
theorem fails_only_on_overflow_transfers : ∃ msg,
    buildTree Prim.sample (List.replicate 2 (Tx.plain .transfer 1 9 (2 ^ 128 - 1) 1)) [] =
      .err (.rg .arithmeticOverflow msg) := by
  refine (fails_only_on_overflow (by decide) (fun t ht => ?_)).2 (by decide)
  rw [List.eq_of_mem_replicate ht]
  exact Go.isOk_iff.mp (by decide +kernel)

/-- A tree within the limit on transactions can be built exactly when its contract leaves fit
    under the limit too. -/
theorem capacity_counts_contracts (hlen : txs.length ≤ tMax) (hnodes : ∀ n ∈ nodes, SquareLeaf n)
    (hsq : squareSum txs + squaresOf nodes ≤ maxUint256) :
    (∃ tree, buildTree P txs nodes = .ok tree) ↔ HaveIDs P txs ∧ txs.length + nodes.length ≤ tMax := by
  rw [buildTree_isOk hlen hnodes]
  exact ⟨fun h => ⟨h.1, h.2.1⟩, fun h => ⟨h.1, h.2, hsq⟩⟩

end

/-- The leaf of a contract without a balance. -/
def bareContract : RGNode :=
  { scale := 1, volume := 0, variance := 0, sig := .atomic, children := [0], sumSquares := 0, count := 1
    contractCount := 1 }

theorem bareContract_square : ∀ n ∈ [bareContract], SquareLeaf n := by
  intro n hn
  obtain rfl := List.mem_singleton.mp hn
  exact ⟨⟨rfl, rfl⟩, rfl⟩

theorem capacity_counts_contracts_transfers :
    ∃ tree, buildTree Prim.sample (transfersOf 1) [bareContract] = .ok tree := by
  have hids : HaveIDs Prim.sample (transfersOf 1) := fun t ht =>
    Go.isOk_iff.mp (List.all_eq_true.mp
      (show (transfersOf 1).all (fun t => (t.id Prim.sample).isOk) = true by decide +kernel) t ht)
  exact (capacity_counts_contracts (by decide) bareContract_square (by decide)).mpr ⟨hids, by decide⟩

def transferOne : Tx := Tx.plain .transfer 1 9 1 1
def deployOne : Tx := Tx.plain .contractDeploy 1 9 1 1

/-- A deployment and `n` transfers. -/
def deployAnd (n : Nat) : List Tx := deployOne :: List.replicate n transferOne

theorem deployAnd_ids (n : Nat) : HaveIDs Prim.sample (deployAnd n) := by
  intro t ht
  rcases List.mem_cons.mp ht with rfl | ht
  · exact Go.isOk_iff.mp (by decide +kernel)
  · rw [List.eq_of_mem_replicate ht]
    exact Go.isOk_iff.mp (by decide +kernel)

theorem length_deployAnd (n : Nat) : (deployAnd n).length = n + 1 := by simp [deployAnd]

theorem deployAnd_squares (n : Nat) : squareSum (deployAnd n) = n + 1 := by
  have hone : amountOf deployOne = 1 ∧ amountOf transferOne = 1 := ⟨rfl, rfl⟩
  simp [squareSum, deployAnd, hone]
  ring

theorem deployAnd_contracts (n : Nat) :
    1 ≤ ((deployAnd n).filter fun t => t.type = .contractDeploy ∨ t.type = .contractCall).length := by
  rw [deployAnd, List.filter_cons_of_pos (by decide)]
  exact Nat.succ_le_succ (Nat.zero_le _)

/-- A full block whose deployment adds its leaf is rejected. -/
theorem capacity_full_block : (deployAnd 65535).length = tMax ∧ HaveIDs Prim.sample (deployAnd 65535) ∧
    [bareContract].length ≤
      ((deployAnd 65535).filter fun t => t.type = .contractDeploy ∨ t.type = .contractCall).length ∧
    squareSum (deployAnd 65535) + squaresOf [bareContract] ≤ maxUint256 ∧
    buildTree Prim.sample (deployAnd 65535) [bareContract] =
      .err (.rg .scaleDomainFault "invalid parent scale 262144") := by
  have hlen := length_deployAnd 65535
  have hsq : squareSum (deployAnd 65535) + squaresOf [bareContract] ≤ maxUint256 := by
    rw [deployAnd_squares]
    decide
  refine ⟨hlen, deployAnd_ids _, deployAnd_contracts _, hsq, ?_⟩
  exact buildTree_too_long hlen.le (deployAnd_ids _) bareContract_square (by rw [hlen]; decide) hsq

end Frg.RG
