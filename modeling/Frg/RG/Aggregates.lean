/-
  Frg.RG.Aggregates — what the numbers in a tree's nodes stand for.

  Node `i` of level `l` stands above the leaves from position `i * 4 ^ l` on, at most `4 ^ l`
  of them (`span`). The padding adds nothing, so the sums over the first nodes of a layer are
  the sums over the first leaves (`Totals`), in every round.

    - `mean_sq_le`: the square of a rounded mean is at most the rounded mean of the squares,
      so no variance is cut off at zero.
    - `tower_exact`: the sums of every layer of a tower are those of its leaves.
    - `PlainTree.aggregates`, `PlainTree.top`: volume, sum of squares, count and variance of
      every node of a tree over transactions, in their values.
-/

import Frg.RG.Tower
import Frg.Wire.Signing
import Mathlib.Algebra.BigOperators.Fin
import Mathlib.Algebra.Order.Chebyshev

namespace Frg.RG

open Frg.Lib Frg.Core Frg.Wire

variable {P : Prim}

/-! ## Means of squares -/

theorem sum_sq_le (l : List Nat) : l.sum ^ 2 ≤ l.length * (l.map (· ^ 2)).sum := by
  have h := sq_sum_le_card_mul_sum_sq (s := Finset.univ) (f := fun i : Fin l.length => l[i.val])
  rw [Finset.card_fin, Fin.sum_univ_getElem, Fin.sum_univ_fun_getElem l (· ^ 2)] at h
  exact h

theorem mean_sq_le (l : List Nat) (h : 0 < l.length) : (l.sum / l.length) ^ 2 ≤ (l.map (· ^ 2)).sum / l.length := by
  rw [Nat.le_div_iff_mul_le h]
  refine Nat.le_of_mul_le_mul_right ?_ h
  calc (l.sum / l.length) ^ 2 * l.length * l.length
      = (l.sum / l.length * l.length) ^ 2 := by ring
    _ ≤ l.sum ^ 2 := Nat.pow_le_pow_left (Nat.div_mul_le_self _ _) 2
    _ ≤ l.length * (l.map (· ^ 2)).sum := sum_sq_le l
    _ = (l.map (· ^ 2)).sum * l.length := Nat.mul_comm _ _

/-! ## Sums over the first nodes -/

/-- The part of a list below node `i` of level `l`. -/
def span {α : Type} (leaves : List α) (l i : Nat) : List α := (leaves.drop (i * 4 ^ l)).take (4 ^ l)

/-- `f` adds up to the same over the first nodes of a layer as over the leaves below them. -/
def Totals (f : RGNode → Nat) (l : Nat) (leaves layer : List RGNode) : Prop :=
  ∀ k, ((layer.take k).map f).sum = ((leaves.take (k * 4 ^ l)).map f).sum

section

variable {f : RGNode → Nat} {l : Nat} {leaves layer parents : List RGNode}

theorem Totals.refl (f : RGNode → Nat) (leaves : List RGNode) : Totals f 0 leaves leaves := by
  intro k
  rw [pow_zero, Nat.mul_one]

theorem sum_pieces {cs : List (List RGNode)} {ps : List RGNode}
    (h : List.Forall₂ (fun c p => f p = (c.map f).sum) cs ps) :
    (ps.map f).sum = (cs.flatten.map f).sum := by
  induction h with
  | nil => rfl
  | cons hp _ ih =>
    rw [List.map_cons, List.sum_cons, List.flatten_cons, List.map_append, List.sum_append, hp, ih]

theorem Totals.round (h : Totals f l leaves layer)
    (hp : List.Forall₂ (fun c p => f p = (c.map f).sum) (chunks layer.length layer) parents) :
    Totals f (l + 1) leaves parents := by
  intro k
  rw [sum_pieces (List.forall₂_take k hp), chunks_take k le_rfl, h (K * k), pow_succ]
  congr 3
  simp only [K]
  ring

theorem Totals.node (h : Totals f l leaves layer) {i : Nat} {n : RGNode} (hi : layer[i]? = some n) :
    f n = ((span leaves l i).map f).sum := by
  obtain ⟨hlt, rfl⟩ := List.getElem?_eq_some_iff.mp hi
  have h1 := h (i + 1)
  rw [List.take_add_one, List.getElem?_eq_getElem hlt, Nat.succ_mul, List.take_add, List.map_append, List.map_append,
    List.sum_append, List.sum_append, h i] at h1
  simpa [span] using h1

theorem Totals.all (h : Totals f l leaves layer) : (layer.map f).sum = (leaves.map f).sum := by
  have hpos : 0 < 4 ^ l := by positivity
  have hle : leaves.length ≤ (layer.length + leaves.length) * 4 ^ l :=
    (Nat.le_add_left _ _).trans (Nat.le_mul_of_pos_right _ hpos)
  have := h (layer.length + leaves.length)
  rwa [List.take_of_length_le (Nat.le_add_right _ _), List.take_of_length_le hle] at this

end

/-! ## Parents -/

def countOf (l : List RGNode) : Nat := (l.map RGNode.count).sum

/-- The sums a node was made from. -/
def RGNode.sums (n : RGNode) : Sums := ⟨n.volume.val, n.sumSquares.val, n.count, n.contractCount, n.children⟩

theorem coarseGrain_sums {l : Nat} (hl : l ≤ 8) {chunk : List RGNode} (hlay : Layer l chunk) {p : RGNode}
    (h : coarseGrain P chunk (4 ^ (l + 1)) = .ok p) :
    p.sums = Sums.after P ⟨0, 0, 0, 0, []⟩ chunk ∧ p.variance.val = varianceOf p.sums := by
  obtain ⟨s, h1, h⟩ := Go.bind_eq_ok.mp h
  obtain ⟨-, -, rfl⟩ := (addChildren_ok hl hlay (by positivity) (by positivity)).mp h1
  obtain ⟨volume, h2, h⟩ := Go.bind_eq_ok.mp h
  obtain ⟨variance, h3, h⟩ := Go.bind_eq_ok.mp h
  obtain ⟨squares, h4, h⟩ := Go.bind_eq_ok.mp h
  obtain ⟨_, -, h⟩ := Go.bind_eq_ok.mp h
  obtain rfl := Go.ok.inj h
  rw [uint256ToBytes_ok] at h2 h3 h4
  rw [RGNode.sums, h2, h4]
  exact ⟨rfl, h3⟩

theorem nullNodeAt_count (P : Prim) (l : Nat) : (nullNodeAt P l).count = 0 := by cases l <;> rfl

theorem countOf_padded (l : Nat) (chunk : List RGNode) : countOf (padded P l chunk) = countOf chunk := by
  simp [countOf, padded, nullNodeAt_count]

/-- The sums of a layer's nodes are those of the leaves below, the variances are computed from them. -/
structure Exact (l : Nat) (leaves layer : List RGNode) : Prop where
  volume : Totals (fun n => n.volume.val) l leaves layer
  squares : Totals (fun n => n.sumSquares.val) l leaves layer
  count : Totals RGNode.count l leaves layer
  variance : ∀ n ∈ layer, n.variance.val = varianceOf n.sums

theorem Exact.round {l : Nat} (hl : l ≤ 8) {leaves layer parents : List RGNode} (hlay : Layer l layer)
    (hp : Parents P l layer parents) (h : Exact l leaves layer) : Exact (l + 1) leaves parents := by
  have hsums : List.Forall₂ (fun c p => p.sums = Sums.after P ⟨0, 0, 0, 0, []⟩ (padded P l c) ∧
      p.variance.val = varianceOf p.sums) (chunks layer.length layer) parents :=
    (Go.forall₂_mem hp).imp fun c p hcp =>
      coarseGrain_sums hl (padded_layer fun n hn => hlay n ((mem_chunks hcp.1).2.2 n hn)) hcp.2.2
  refine ⟨h.volume.round (hsums.imp fun c p hp => ?_), h.squares.round (hsums.imp fun c p hp => ?_),
    h.count.round (hsums.imp fun c p hp => ?_), fun p hp => ?_⟩
  · have hv := congrArg Sums.values hp.1
    rw [Sums.after, volumeOf_padded] at hv
    exact hv.trans (Nat.zero_add _)
  · have hq := congrArg Sums.squares hp.1
    rw [Sums.after, squaresOf_padded] at hq
    exact hq.trans (Nat.zero_add _)
  · have hc := congrArg Sums.count hp.1
    rw [Sums.after, ← countOf, countOf_padded] at hc
    exact hc.trans (Nat.zero_add _)
  · obtain ⟨c, -, hcp⟩ := Go.forall₂_left hsums hp
    exact hcp.2

/-- Every layer of a tower over leaves whose variances are computed from their sums is exact. -/
theorem tower_exact {leaves : List RGNode} {ls : List (List RGNode)} (h : Tower P 0 ls) (hhead : ls.head? = some leaves)
    (hleaves : ∀ n ∈ leaves, n.variance.val = varianceOf n.sums) {l : Nat} {layer : List RGNode}
    (hl : ls[l]? = some layer) : Exact l leaves layer := by
  have hfirst : Exact 0 leaves leaves := ⟨.refl _ _, .refl _ _, .refl _ _, hleaves⟩
  have :=
    h.keeps (M := fun l layer => Exact l leaves layer) (fun hl hlay hp h => h.round (by omega) hlay hp) hhead hfirst hl
  rwa [Nat.zero_add] at this

/-! ## The values of transactions -/

/-- A transaction's value; the code has none for a nil pointer. -/
def amountOf (t : Tx) : Int := t.value.getD 0

def valueSum (txs : List Tx) : Int := (txs.map amountOf).sum
def squareSum (txs : List Tx) : Int := (txs.map fun t => amountOf t ^ 2).sum

/-- The leaf of a transaction. -/
structure LeafOf (P : Prim) (t : Tx) (n : RGNode) : Prop where
  volume : (n.volume.val : Int) = amountOf t
  squares : n.sumSquares.val = n.volume.val ^ 2
  count : n.count = 1
  variance : n.variance = 0

theorem id_value {t : Tx} {x : Hash} (h : t.id P = .ok x) : ∃ v : Nat, t.value = some (v : Int) ∧ v < 256 ^ 32 := by
  obtain ⟨s, hs, -⟩ := Go.bind_eq_ok.mp h
  obtain ⟨v, _, hv, hlt, -⟩ := serializeUnsigned_ok hs
  exact ⟨v, hv, hlt⟩

theorem makeAtomicNode_leafOf {t : Tx} {n : RGNode} (h : makeAtomicNode P t = .ok n) : LeafOf P t n := by
  obtain ⟨txID, hid, h⟩ := Go.bind_eq_ok.mp h
  obtain ⟨v, hv, -⟩ := id_value hid
  rw [hv] at h
  obtain ⟨_, -, h⟩ := Go.bind_eq_ok.mp h
  obtain ⟨volume, h1, h⟩ := Go.bind_eq_ok.mp h
  obtain ⟨squares, h2, h⟩ := Go.bind_eq_ok.mp h
  obtain rfl := Go.ok.inj h
  rw [uint256ToBytes_ok] at h1 h2
  refine ⟨?_, ?_, rfl, rfl⟩
  · show ((volume.val : Nat) : Int) = _
    rw [h1, amountOf, hv]
    rfl
  · show squares.val = volume.val ^ 2
    rw [h1, h2, Int.natAbs_mul, sq]

theorem atomicLayer_leafOf {txs : List Tx} {leaves : List RGNode} (h : atomicLayer P txs = .ok leaves) :
    List.Forall₂ (LeafOf P) txs leaves :=
  (Go.mapM_eq_ok.mp h).imp fun _ _ => makeAtomicNode_leafOf

theorem LeafOf.varianceOf {t : Tx} {n : RGNode} (h : LeafOf P t n) : n.variance.val = varianceOf n.sums := by
  rw [h.variance, RG.varianceOf, RGNode.sums, h.count, h.squares]
  simp

theorem leafOf_sums {txs : List Tx} {leaves : List RGNode} (h : List.Forall₂ (LeafOf P) txs leaves) :
    ((volumeOf leaves : Nat) : Int) = valueSum txs ∧ ((squaresOf leaves : Nat) : Int) = squareSum txs ∧
      countOf leaves = txs.length := by
  induction h with
  | nil => exact ⟨rfl, rfl, rfl⟩
  | @cons t n txs leaves hn _ ih =>
    obtain ⟨hv, hq, hc⟩ := ih
    have hsq : ((n.sumSquares.val : Nat) : Int) = amountOf t ^ 2 := by rw [hn.squares, Nat.cast_pow, hn.volume]
    refine ⟨?_, ?_, ?_⟩
    · show (((n.volume.val + volumeOf leaves : Nat)) : Int) = amountOf t + valueSum txs
      rw [Nat.cast_add, hn.volume, hv]
    · show (((n.sumSquares.val + squaresOf leaves : Nat)) : Int) = amountOf t ^ 2 + squareSum txs
      rw [Nat.cast_add, hsq, hq]
    · show n.count + countOf leaves = txs.length + 1
      rw [hn.count, hc, Nat.add_comm]

/-- The mean of the leaves' squares is not below the square of their mean. -/
theorem leafOf_mean {txs : List Tx} {leaves : List RGNode} (h : List.Forall₂ (LeafOf P) txs leaves) (hne : txs ≠ []) :
    (volumeOf leaves / txs.length) ^ 2 ≤ squaresOf leaves / txs.length := by
  have hlen := h.length_eq
  have hsq : squaresOf leaves = ((leaves.map fun n => n.volume.val).map (· ^ 2)).sum := by
    rw [squaresOf, List.map_map]
    refine congrArg List.sum (List.map_congr_left fun n hn => ?_)
    obtain ⟨t, -, hleaf⟩ := Go.forall₂_left h hn
    exact hleaf.squares
  have :=
    mean_sq_le (leaves.map fun n => n.volume.val) (by rw [List.length_map, ← hlen]; exact List.length_pos_iff.mpr hne)
  rwa [List.length_map, ← hlen, ← hsq] at this

/-- The numbers of a node above `txs`. -/
structure Aggregates (txs : List Tx) (n : RGNode) : Prop where
  volume : (n.volume.val : Int) = valueSum txs
  squares : (n.sumSquares.val : Int) = squareSum txs
  count : n.count = txs.length
  counted : 0 < n.count
  unclamped : (n.volume.val / n.count) ^ 2 ≤ n.sumSquares.val / n.count
  variance : n.variance.val = n.sumSquares.val / n.count - (n.volume.val / n.count) ^ 2

section

variable {txs : List Tx} {n : RGNode}

theorem Aggregates.variance_eq (h : Aggregates txs n) :
    (n.variance.val : Int) = n.sumSquares.val / n.count - (n.volume.val / n.count) ^ 2 := by
  rw [h.variance, Nat.cast_sub h.unclamped, Nat.cast_pow, Int.natCast_ediv, Int.natCast_ediv]

theorem Aggregates.spread_nonneg (h : Aggregates txs n) :
    0 ≤ (n.sumSquares.val / n.count : Int) - (n.volume.val / n.count) ^ 2 := by
  rw [← h.variance_eq]
  exact Int.natCast_nonneg _

end

theorem forall₂_span {α β : Type} {R : α → β → Prop} {as : List α} {bs : List β} (h : List.Forall₂ R as bs)
    (l i : Nat) :
    List.Forall₂ R (span as l i) (span bs l i) :=
  List.forall₂_take _ (List.forall₂_drop _ h)

/-- A tree over transactions only. -/
structure PlainTree (P : Prim) (txs : List Tx) (tree : Tree) (leaves : List RGNode) : Prop where
  leafOf : List.Forall₂ (LeafOf P) txs leaves
  tower : Tower P 0 tree.layers
  head : tree.layers.head? = some leaves
  counted : ∀ n ∈ leaves, Counted n

theorem buildTree_plain {txs : List Tx} {tree : Tree} (h : buildTree P txs [] = .ok tree) (hne : txs ≠ []) :
    ∃ leaves, PlainTree P txs tree leaves := by
  have hnone : Layer 0 [] := fun n hn => absurd hn List.not_mem_nil
  obtain ⟨-, leaves, top, hleaves, htower, hhead, -⟩ := (buildTree_tower (.inl hne) hnone).mp h
  rw [List.append_nil] at hhead
  exact ⟨leaves, atomicLayer_leafOf hleaves, htower, hhead, fun m hm => (atomicLayer_leaf hleaves m hm).counted⟩

section

variable {txs : List Tx} {tree : Tree} {leaves layer : List RGNode} {l i : Nat} {n : RGNode}

theorem PlainTree.exact (h : PlainTree P txs tree leaves) (hl : tree.layers[l]? = some layer) :
    Exact l leaves layer := by
  refine tower_exact h.tower h.head (fun m hm => ?_) hl
  obtain ⟨t, -, hleaf⟩ := Go.forall₂_left h.leafOf hm
  exact hleaf.varianceOf

theorem PlainTree.aggregates (h : PlainTree P txs tree leaves) (hl : tree.layers[l]? = some layer)
    (hi : layer[i]? = some n) : Aggregates (span txs l i) n := by
  have hexact := h.exact hl
  have hspan := forall₂_span h.leafOf l i
  obtain ⟨hv, hq, hc⟩ := leafOf_sums hspan
  have hvolume : n.volume.val = volumeOf (span leaves l i) := hexact.volume.node hi
  have hsquares : n.sumSquares.val = squaresOf (span leaves l i) := hexact.squares.node hi
  have hcount : n.count = (span txs l i).length := (hexact.count.node hi).trans hc
  have hmem := List.mem_of_getElem? hi
  have hpos : 0 < n.count := (h.tower.counted h.head h.counted hl n hmem).count
  have hne : span txs l i ≠ [] := List.length_pos_iff.mp (hcount ▸ hpos)
  refine ⟨by rw [hvolume, hv], by rw [hsquares, hq], hcount, hpos, ?_, ?_⟩
  · rw [hvolume, hsquares, hcount]
    exact leafOf_mean hspan hne
  · rw [hexact.variance n hmem, varianceOf]
    exact if_pos hpos

theorem PlainTree.top (h : PlainTree P txs tree leaves) (htop : tree.layers.getLast? = some [n]) :
    Aggregates txs n := by
  rw [List.getLast?_eq_getElem?] at htop
  have hagg := h.aggregates htop (i := 0) rfl
  have hcount : n.count = txs.length := by
    have hall := (h.exact htop).count.all
    rw [List.map_singleton, List.sum_singleton] at hall
    exact hall.trans (leafOf_sums h.leafOf).2.2
  have hspan : span txs (tree.layers.length - 1) 0 = txs := by
    have hlen := hagg.count.symm.trans hcount
    rw [span, Nat.zero_mul, List.drop_zero] at hlen ⊢
    rw [List.length_take] at hlen
    exact List.take_of_length_le (by omega)
  rwa [hspan] at hagg

theorem PlainTree.volume (h : PlainTree P txs tree leaves) (hl : tree.layers[l]? = some layer) :
    ((volumeOf layer : Nat) : Int) = valueSum txs := by
  rw [← (leafOf_sums h.leafOf).1]
  exact congrArg Nat.cast (h.exact hl).volume.all

end

theorem buildTree_nil (P : Prim) : buildTree P [] [] = .ok ⟨[[]], emptyBlockRoot P⟩ := if_pos ⟨rfl, rfl⟩

theorem nil_of_mem {tree : Tree} (h : buildTree P [] [] = .ok tree) {l : Nat} {layer : List RGNode}
    (hl : tree.layers[l]? = some layer) : layer = [] := by
  rw [buildTree_nil] at h
  obtain rfl := Go.ok.inj h
  exact List.mem_singleton.mp (List.mem_of_getElem? hl)

end Frg.RG
