/-
  Frg.RG.Tower — the layers of a tree as one object.

  `coarsen` returns its layers from the leaves to the top. `Tower` says what they are without
  the rounds: each layer holds the parents of the one below it, and the last is one node.

    - `coarsen_ok`: coarsening returns exactly the towers over its layer.
    - `parents_iff`: node `i` of a layer is the coarse-graining of nodes `4 i` to `4 i + 3`
      below it, padded.
    - `Tower.keeps`: what a round keeps holds of every layer.
    - `buildTree_tower`: a built tree is a tower over its leaves.
-/

import Frg.RG.Commitment

namespace Frg.RG

open Frg.Lib Frg.Core Frg.Wire

variable {P : Prim}

/-! ## Parents by position -/

/-- The nodes below parent `i`: `layer[4 * i : 4 * i + 4]`, cut at the end of the layer. -/
def chunkAt (layer : List RGNode) (i : Nat) : List RGNode := (layer.drop (K * i)).take K

theorem length_chunkAt (layer : List RGNode) (i : Nat) : (chunkAt layer i).length ≤ K := by simp [chunkAt]

theorem mem_chunkAt {layer : List RGNode} {i : Nat} {n : RGNode} (h : n ∈ chunkAt layer i) : n ∈ layer :=
  List.mem_of_mem_drop (List.mem_of_mem_take h)

theorem getElem?_chunks : ∀ {n i : Nat} {l : List RGNode}, l.length ≤ n →
    (chunks n l)[i]? = if K * i < l.length then some (chunkAt l i) else none := by
  intro n
  induction n with
  | zero =>
    intro i l h
    rw [if_neg (by omega)]
    rfl
  | succ n ih =>
    intro i l h
    unfold chunks
    by_cases hnil : l = []
    · rw [if_pos hnil, if_neg (by simp [hnil])]
      rfl
    · have hpos := List.length_pos_iff.mpr hnil
      rw [if_neg hnil]
      cases i with
      | zero =>
        rw [if_pos (by omega)]
        rfl
      | succ i =>
        have hdrop : (l.drop K).length = l.length - K := List.length_drop
        rw [List.getElem?_cons_succ, ih (by rw [hdrop]; simp only [K]; omega), hdrop, chunkAt, chunkAt, List.drop_drop,
          Nat.mul_succ, Nat.add_comm K]
        by_cases hlt : K * i < l.length - K
        · rw [if_pos hlt, if_pos (by omega)]
        · rw [if_neg hlt, if_neg (by omega)]

theorem parents_iff {l : Nat} {layer parents : List RGNode} : Parents P l layer parents ↔
    parents.length = (layer.length + 3) / 4 ∧ ∀ i p, parents[i]? = some p →
      coarseGrain P (padded P l (chunkAt layer i)) (4 ^ (l + 1)) = .ok p := by
  have hlen := length_chunks layer.length layer le_rfl
  have hget : ∀ {i : Nat}, i < (layer.length + 3) / 4 →
      (chunks layer.length layer)[i]? = some (chunkAt layer i) := fun {i} hi => by
    rw [getElem?_chunks le_rfl, if_pos (by simp only [K]; omega)]
  rw [Parents, List.forall₂_iff_get]
  constructor
  · rintro ⟨h, hp⟩
    refine ⟨by rw [← h, hlen], fun i p hi => ?_⟩
    obtain ⟨hlt, rfl⟩ := List.getElem?_eq_some_iff.mp hi
    obtain ⟨hlt', heq⟩ := List.getElem?_eq_some_iff.mp (hget (show i < (layer.length + 3) / 4 by omega))
    have := hp i hlt' hlt
    rwa [List.get_eq_getElem, heq] at this
  · rintro ⟨h, hp⟩
    refine ⟨by rw [h, hlen], fun i h1 h2 => ?_⟩
    obtain ⟨hlt', heq⟩ := List.getElem?_eq_some_iff.mp (hget (show i < (layer.length + 3) / 4 by omega))
    rw [List.get_eq_getElem, heq]
    exact hp i _ (List.getElem?_eq_getElem h2)

theorem chunks_take : ∀ {n : Nat} {l : List RGNode} (k : Nat), l.length ≤ n →
    ((chunks n l).take k).flatten = l.take (K * k) := by
  intro n
  induction n with
  | zero =>
    intro l k h
    rw [List.length_eq_zero_iff.mp (Nat.le_zero.mp h)]
    simp [chunks]
  | succ n ih =>
    intro l k h
    cases k with
    | zero => simp
    | succ k =>
      unfold chunks
      by_cases hnil : l = []
      · simp [hnil]
      · have hpos := List.length_pos_iff.mpr hnil
        rw [if_neg hnil, List.take_succ_cons, List.flatten_cons, ih k (by rw [List.length_drop]; simp only [K]; omega),
          Nat.mul_succ, Nat.add_comm, List.take_add]

/-! ## Towers -/

/-- Layers of level `l` and up: the parents stand above their children, one node is the top. -/
inductive Tower (P : Prim) : Nat → List (List RGNode) → Prop
  | top {l : Nat} {n : RGNode} : l ≤ 8 → AtLevel l n → Tower P l [[n]]
  | cons {l : Nat} {layer parents : List RGNode} {rest : List (List RGNode)} : l + 1 ≤ 8 → Layer l layer →
    1 < layer.length → Parents P l layer parents → Tower P (l + 1) (parents :: rest) →
    Tower P l (layer :: parents :: rest)

theorem coarsen_tower : ∀ {n l : Nat} {layer : List RGNode} {ls : List (List RGNode)}, l ≤ 8 → layer ≠ [] →
    Layer l layer → coarsen P n layer = .ok ls → ∃ rest, ls = layer :: rest ∧ Tower P l ls := by
  intro n
  induction n with
  | zero => intro l layer ls _ _ _ h; cases h
  | succ n ih =>
    intro l layer ls hl hne hlay h
    by_cases hlen : layer.length ≤ 1
    · rw [coarsen_one hlen] at h
      obtain rfl := Go.ok.inj h
      have := List.length_pos_iff.mpr hne
      obtain ⟨top, rfl⟩ := List.length_eq_one_iff.mp (show layer.length = 1 by omega)
      exact ⟨[], rfl, .top hl (hlay top List.mem_cons_self)⟩
    · obtain ⟨parents, rest, hc, hrest, rfl⟩ := (coarsen_cons (by omega)).mp h
      obtain ⟨hl', hp⟩ := (coarsenLayer_ok hl hne hlay).mp hc
      obtain ⟨hlay', -, -, hplen⟩ := hp.facts hl hlay
      obtain ⟨rest', rfl, htower⟩ := ih hl' (List.length_pos_iff.mp (by omega)) hlay' hrest
      exact ⟨_, rfl, .cons hl' hlay (by omega) hp htower⟩

theorem Tower.coarsen {l : Nat} {ls : List (List RGNode)} (h : Tower P l ls) : ∀ {n : Nat}, 9 ≤ n + l →
    ∃ layer rest, ls = layer :: rest ∧ layer ≠ [] ∧ Layer l layer ∧ coarsen P n layer = .ok ls := by
  induction h with
  | @top l t hl hlev =>
    intro n hn
    cases n with
    | zero => omega
    | succ n =>
      have hlay : Layer l [t] := fun m hm => List.mem_singleton.mp hm ▸ hlev
      exact ⟨[t], [], rfl, List.cons_ne_nil _ _, hlay, coarsen_one le_rfl⟩
  | @cons l layer parents rest hl hlay hlen hp _ ih =>
    intro n hn
    cases n with
    | zero => omega
    | succ n =>
      obtain ⟨_, _, he, -, -, hrest⟩ := ih (n := n) (by omega)
      obtain ⟨rfl, rfl⟩ := List.cons.inj he
      have hne : layer ≠ [] := List.length_pos_iff.mp (by omega)
      exact ⟨layer, _, rfl, hne, hlay, (coarsen_cons hlen).mpr
        ⟨parents, _, (coarsenLayer_ok (by omega) hne hlay).mpr ⟨hl, hp⟩, hrest, rfl⟩⟩

theorem coarsen_ok {l : Nat} {layer : List RGNode} {ls : List (List RGNode)} {n : Nat} (hn : 9 ≤ n + l) (hl : l ≤ 8)
    (hne : layer ≠ []) (hlay : Layer l layer) :
    coarsen P n layer = .ok ls ↔ Tower P l ls ∧ ls.head? = some layer := by
  constructor
  · intro h
    obtain ⟨rest, rfl, htower⟩ := coarsen_tower hl hne hlay h
    exact ⟨htower, rfl⟩
  · rintro ⟨htower, hhead⟩
    obtain ⟨layer', rest, rfl, -, -, h⟩ := htower.coarsen hn
    obtain rfl := Option.some.inj hhead
    exact h

theorem Tower.last {l : Nat} {ls : List (List RGNode)} (h : Tower P l ls) :
    ∃ top m, ls.getLast? = some [top] ∧ m ≤ 8 ∧ AtLevel m top := by
  induction h with
  | @top l n hl hlev => exact ⟨n, l, rfl, hl, hlev⟩
  | cons _ _ _ _ _ ih =>
    obtain ⟨top, m, htop, hm⟩ := ih
    exact ⟨top, m, by rw [List.getLast?_cons_cons, htop], hm⟩

/-- What holds of the first layer and is kept by each round holds of every layer. -/
theorem Tower.keeps {M : Nat → List RGNode → Prop} (hround : ∀ {l layer parents}, l + 1 ≤ 8 → Layer l layer →
      Parents P l layer parents → M l layer → M (l + 1) parents) {l : Nat} {ls : List (List RGNode)} (h :
        Tower P l ls) :
    ∀ {first : List RGNode}, ls.head? = some first → M l first →
    ∀ {j : Nat} {layer : List RGNode}, ls[j]? = some layer → M (l + j) layer := by
  induction h with
  | top _ _ =>
    intro first hhead hM j layer hj
    obtain rfl := Option.some.inj hhead
    cases j with
    | zero => exact Option.some.inj hj ▸ hM
    | succ j => cases hj
  | @cons l layer parents rest hl hlay hlen hp _ ih =>
    intro first hhead hM j layer' hj
    obtain rfl := Option.some.inj hhead
    cases j with
    | zero => exact Option.some.inj hj ▸ hM
    | succ j =>
      have := ih rfl (hround hl hlay hp hM) hj
      rwa [show l + (j + 1) = l + 1 + j by omega]

theorem Tower.counted {ls : List (List RGNode)} (h : Tower P 0 ls) {leaves : List RGNode}
    (hhead : ls.head? = some leaves)
    (hleaves : ∀ n ∈ leaves, Counted n) {l : Nat} {layer : List RGNode} (hl : ls[l]? = some layer) :
    ∀ n ∈ layer, Counted n :=
  h.keeps (M := fun _ layer => ∀ n ∈ layer, Counted n) (fun hl hlay hp hM => hp.counted (by omega) hlay hM)
    hhead hleaves hl

theorem leaves_layer {txs : List Tx} {nodes leaves : List RGNode} (hnodes : Layer 0 nodes)
    (h : atomicLayer P txs = .ok leaves) : Layer 0 (leaves ++ nodes) ∧
    (leaves ++ nodes = [] → txs = [] ∧ nodes = []) := by
  obtain ⟨hlay, hlen⟩ := atomicLayer_layer h
  refine ⟨fun n hn => (List.mem_append.mp hn).elim (hlay n) (hnodes n), fun hnil => ?_⟩
  obtain ⟨rfl, rfl⟩ := List.append_eq_nil_iff.mp hnil
  exact ⟨List.length_eq_zero_iff.mp hlen.symm, rfl⟩

/-- A built tree is the tower over its leaves, and its root is the hash of the top. -/
theorem buildTree_tower {txs : List Tx} {nodes : List RGNode} (hne : txs ≠ [] ∨ nodes ≠ []) (hnodes : Layer 0 nodes)
    {tree : Tree} : buildTree P txs nodes = .ok tree ↔
      txs.length ≤ tMax ∧ ∃ leaves top, atomicLayer P txs = .ok leaves ∧ Tower P 0 tree.layers ∧
        tree.layers.head? = some (leaves ++ nodes) ∧ tree.layers.getLast? = some [top] ∧
        tree.root = P.hash top.bytes := by
  have hcoarsen : ∀ {leaves}, atomicLayer P txs = .ok leaves → (coarsen P 10 (leaves ++ nodes) = .ok tree.layers ↔
      Tower P 0 tree.layers ∧ tree.layers.head? = some (leaves ++ nodes)) := fun h => by
    obtain ⟨hlay, hnil⟩ := leaves_layer hnodes h
    exact coarsen_ok (by decide) (Nat.zero_le 8) (fun e => hne.elim (· (hnil e).1) (· (hnil e).2)) hlay
  rw [buildTree_ok hne hnodes]
  constructor
  · rintro ⟨h0, leaves, top, h1, h2, h3⟩
    obtain ⟨htower, hhead⟩ := (hcoarsen h1).mp h2
    exact ⟨h0, leaves, top, h1, htower, hhead, h3⟩
  · rintro ⟨h0, leaves, top, h1, htower, hhead, h3⟩
    exact ⟨h0, leaves, top, h1, (hcoarsen h1).mpr ⟨htower, hhead⟩, h3⟩

theorem buildTree_length {txs : List Tx} {nodes : List RGNode} {tree : Tree} (h : buildTree P txs nodes = .ok tree) :
    txs.length ≤ tMax := by
  unfold buildTree at h
  split at h
  · rename_i hnil
    rw [hnil.1]
    exact Nat.zero_le _
  · obtain ⟨_, hcheck, -⟩ := Go.bind_eq_ok.mp h
    exact Go.check_eq_ok.mp hcheck

end Frg.RG
