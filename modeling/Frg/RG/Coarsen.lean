/-
  Frg.RG.Coarsen — what coarse-graining does to a layer of the RG tree.

  A layer of level `l` holds nodes of scale `4 ^ l` (`Layer`). What is proved:

    - `coarsenChunk_eq`, `coarsenLayer_ok`: the padding checks always pass, and one round
      replaces each four nodes by a parent that carries their sums and roots.
    - `coarsen_fuel`: ten rounds are enough.
    - `coarsen_isOk`: coarsening succeeds exactly when the layer is not too long and its sums
      fit in 256 bits, so its order does not matter for success (`buildTree_perm`).
    - `coarsen_undo`: the bytes of the top node fix those of the first layer where each round
      can be undone; without collisions it can for two layers of one length (`coarsen_bytes`,
      `buildTree_root_inj`).
-/

import Frg.RG.Tree
import Mathlib.Tactic.IntervalCases

namespace Frg.RG

open Frg.Lib Frg.Core Frg.Wire

/-! ## Nodes of one level -/

/-- A node of level `l`. -/
structure AtLevel (l : Nat) (n : RGNode) : Prop where
  scale : n.scale = 4 ^ l
  arity : n.children.length = if l = 0 then 1 else 4

/-- A layer of nodes of level `l`. -/
def Layer (l : Nat) (layer : List RGNode) : Prop := ∀ n ∈ layer, AtLevel l n

theorem levelOf_pow {l : Nat} (h : l ≤ 8) : levelOf (4 ^ l) = some l := by
  interval_cases l <;> decide

theorem validScale_pow (l : Nat) : validScale (4 ^ l) = true ↔ l ≤ 8 := by
  constructor
  · intro h
    obtain ⟨k, hk⟩ := Option.isSome_iff_exists.mp h
    have hmem := List.mem_of_find?_eq_some hk
    have heq := List.find?_some hk
    have : k = l := Nat.pow_right_injective (le_refl 2 |>.trans (by decide)) (of_decide_eq_true heq)
    have := List.mem_range.mp hmem
    omega
  · intro h
    rw [validScale, levelOf_pow h]
    rfl

variable {P : Prim}

theorem AtLevel.root_eq {l : Nat} {n : RGNode} (h : AtLevel l n) (hl : l ≤ 8) : n.root P = .ok (P.hash n.bytes) := by
  have harity : n.children.length = if n.scale = 1 then 1 else 4 := by
    rw [h.arity, h.scale]
    by_cases hz : l = 0
    · simp [hz]
    · rw [if_neg hz, if_neg (Nat.one_lt_pow hz (by decide)).ne']
  unfold RGNode.root RGNode.serialize
  rw [Go.check_pos (by rw [h.scale]; exact (validScale_pow l).mpr hl)]
  simp only [Go.ok_bind]
  rw [Go.check_pos harity]
  rfl

theorem nullNodeAt_level (P : Prim) (l : Nat) : AtLevel l (nullNodeAt P l) := by
  cases l with
  | zero => exact ⟨rfl, rfl⟩
  | succ l => exact ⟨rfl, by simp [nullNodeAt]⟩

theorem nullNode_eq {l : Nat} (h : l ≤ 8) : nullNode P (4 ^ l) = .ok (nullNodeAt P l) := by
  rw [nullNode, levelOf_pow h]

theorem nullNodeAt_volume (P : Prim) (l : Nat) : (nullNodeAt P l).volume = 0 ∧ (nullNodeAt P l).sumSquares = 0 := by
  cases l <;> exact ⟨rfl, rfl⟩

theorem flatMap_bytes_inj : ∀ {l m : List Hash}, l.flatMap Word.bytes = m.flatMap Word.bytes → l = m := by
  intro l
  induction l with
  | nil =>
    intro m h
    cases m with
    | nil => rfl
    | cons b m => exact absurd (congrArg List.length h) (by simp; omega)
  | cons a l ih =>
    intro m h
    cases m with
    | nil => exact absurd (congrArg List.length h) (by simp)
    | cons b m =>
      rw [List.flatMap_cons, List.flatMap_cons] at h
      obtain ⟨h1, h2⟩ := List.append_inj h (by simp)
      rw [bytes_inj h1, ih h2]

theorem Signature.byte_inj {s t : Signature} (h : s.byte = t.byte) : s = t := by
  cases s <;> cases t <;> first | rfl | exact absurd h (by decide)

/-- The bytes of a node fix every field they cover, the scale as it is written. -/
theorem RGNode.bytes_fields {n m : RGNode} (h : n.bytes = m.bytes) : u32 n.scale = u32 m.scale ∧
    n.volume = m.volume ∧ n.variance = m.variance ∧ n.sig = m.sig ∧ n.children = m.children := by
  unfold RGNode.bytes at h
  have hlen : ∀ n : RGNode, (domainRGNode ++ u32 n.scale ++ n.volume.bytes ++ n.variance.bytes ++ [n.sig.byte] ++
      u16 n.children.length).length = domainRGNode.length + 71 := fun n => by simp [u32, u16]
  obtain ⟨h, hch⟩ := List.append_inj h ((hlen n).trans (hlen m).symm)
  obtain ⟨h, -⟩ := List.append_inj h (by simp [u32])
  obtain ⟨h, hsig⟩ := List.append_inj h (by simp [u32])
  obtain ⟨h, hvar⟩ := List.append_inj h (by simp [u32])
  obtain ⟨h, hvol⟩ := List.append_inj h (by simp [u32])
  exact ⟨List.append_cancel_left h, Frg.Lib.bytes_inj hvol, Frg.Lib.bytes_inj hvar,
    Signature.byte_inj (List.singleton_inj.mp hsig), flatMap_bytes_inj hch⟩

/-- The bytes of a node fix its volume and its children. -/
theorem RGNode.bytes_inj {n m : RGNode} (h : n.bytes = m.bytes) : n.volume = m.volume ∧ n.children = m.children := by
  obtain ⟨-, hvol, -, -, hch⟩ := bytes_fields h
  exact ⟨hvol, hch⟩

theorem AtLevel.level_eq {l m : Nat} {n n' : RGNode} (h : AtLevel l n) (h' : AtLevel m n') (hl : l ≤ 8) (hm : m ≤ 8)
    (hb : n.bytes = n'.bytes) : l = m := by
  have hlt : ∀ {k}, k ≤ 8 → 4 ^ k < 256 ^ 4 :=
    fun hk => lt_of_le_of_lt (Nat.pow_le_pow_right (by decide) hk) (by decide)
  have hscale := (RGNode.bytes_fields hb).1
  rw [h.scale, h'.scale] at hscale
  exact Nat.pow_right_injective (show 2 ≤ 4 by decide) (toBE_inj (hlt hl) (hlt hm) hscale)

/-! ## Sums -/

def volumeOf (l : List RGNode) : Nat := (l.map fun n => n.volume.val).sum
def squaresOf (l : List RGNode) : Nat := (l.map fun n => n.sumSquares.val).sum

/-- The sums a parent takes of its children stay below 2^256. -/
def SumsFit (l : List RGNode) : Prop := volumeOf l < 256 ^ 32 ∧ squaresOf l < 256 ^ 32

theorem volumeOf_append (l m : List RGNode) : volumeOf (l ++ m) = volumeOf l + volumeOf m := by simp [volumeOf]
theorem squaresOf_append (l m : List RGNode) : squaresOf (l ++ m) = squaresOf l + squaresOf m := by simp [squaresOf]

theorem SumsFit.perm {l m : List RGNode} (h : l.Perm m) : SumsFit l ↔ SumsFit m := by
  unfold SumsFit volumeOf squaresOf
  rw [(h.map _).sum_eq, (h.map _).sum_eq]

def hashOf (P : Prim) (n : RGNode) : Hash := P.hash n.bytes

/-- The sums of a chunk's first nodes followed by those of `l`. -/
def Sums.after (P : Prim) (s : Sums) (l : List RGNode) : Sums :=
  { values := s.values + volumeOf l, squares := s.squares + squaresOf l
    count := s.count + (l.map RGNode.count).sum, contractCount := s.contractCount + (l.map RGNode.contractCount).sum
    children := s.children ++ l.map (hashOf P) }

theorem addChild_ok {l : Nat} {n : RGNode} (h : AtLevel l n) (hl : l ≤ 8) {s s' : Sums} :
    addChild P s n = .ok s' ↔
      s.values + n.volume.val < 256 ^ 32 ∧ s.squares + n.sumSquares.val < 256 ^ 32 ∧ s' = s.after P [n] := by
  unfold addChild
  rw [h.root_eq hl]
  simp only [Go.ok_bind, Go.bind_eq_ok, Go.check_eq_ok, exists_const, Go.pure_eq, Go.ok.injEq]
  simp [Sums.after, volumeOf, squaresOf, hashOf, eq_comm]

theorem addChildren_ok {l : Nat} (hl : l ≤ 8) : ∀ {chunk : List RGNode} {s s' : Sums}, Layer l chunk →
    s.values < 256 ^ 32 → s.squares < 256 ^ 32 →
    (chunk.foldlM (addChild P) s = .ok s' ↔
      s.values + volumeOf chunk < 256 ^ 32 ∧ s.squares + squaresOf chunk < 256 ^ 32 ∧ s' = s.after P chunk) := by
  intro chunk
  induction chunk with
  | nil =>
    intro s s' _ hv hq
    have hafter : s.after P [] = s := by simp [Sums.after, volumeOf, squaresOf]
    rw [hafter]
    exact ⟨fun h => ⟨hv, hq, (Go.ok.inj h).symm⟩, fun h => h.2.2 ▸ rfl⟩
  | cons n chunk ih =>
    intro s s' hlay hv hq
    have hn := hlay n List.mem_cons_self
    rw [List.foldlM_cons, Go.bind_eq_ok]
    have hcons : volumeOf (n :: chunk) = n.volume.val + volumeOf chunk ∧
        squaresOf (n :: chunk) = n.sumSquares.val + squaresOf chunk := by simp [volumeOf, squaresOf]
    constructor
    · rintro ⟨s1, h1, h2⟩
      obtain ⟨hv1, hq1, rfl⟩ := (addChild_ok hn hl).mp h1
      have hs1 : (s.after P [n]).values = s.values + n.volume.val ∧
          (s.after P [n]).squares = s.squares + n.sumSquares.val :=
        by simp [Sums.after, volumeOf, squaresOf]
      obtain ⟨hv2, hq2, rfl⟩ := (ih (fun m hm => hlay m (List.mem_cons_of_mem _ hm)) (by omega) (by omega)).mp h2
      refine ⟨by omega, by omega, ?_⟩
      simp [Sums.after, volumeOf, squaresOf, Nat.add_assoc]
    · rintro ⟨hv1, hq1, rfl⟩
      have hs1 : (s.after P [n]).values = s.values + n.volume.val ∧
          (s.after P [n]).squares = s.squares + n.sumSquares.val :=
        by simp [Sums.after, volumeOf, squaresOf]
      refine ⟨s.after P [n], (addChild_ok hn hl).mpr ⟨by omega, by omega, rfl⟩, ?_⟩
      refine (ih (fun m hm => hlay m (List.mem_cons_of_mem _ hm)) (by omega) (by omega)).mpr ⟨by omega, by omega, ?_⟩
      simp [Sums.after, volumeOf, squaresOf, Nat.add_assoc]

/-! ## One parent -/

/-- `p` is the parent of the nodes of `chunk`. -/
structure IsParent (P : Prim) (l : Nat) (chunk : List RGNode) (p : RGNode) : Prop where
  scale : p.scale = 4 ^ (l + 1)
  volume : p.volume.val = volumeOf chunk
  squares : p.sumSquares.val = squaresOf chunk
  children : p.children = chunk.map (hashOf P)

theorem uint256ToBytes_ok {v : Nat} {w : Word 32} : uint256ToBytes v = .ok w ↔ w.val = v := by
  unfold uint256ToBytes
  constructor
  · intro h
    split at h
    · cases h; rfl
    · cases h
  · rintro rfl
    rw [dif_pos w.isLt]

theorem uint256ToBytes_of_lt {v : Nat} (h : v < 256 ^ 32) : uint256ToBytes v = .ok ⟨v, h⟩ := dif_pos h

theorem varianceOf_le (s : Sums) : varianceOf s ≤ s.squares := by
  unfold varianceOf
  split
  · exact (Nat.sub_le _ _).trans (Nat.div_le_self _ _)
  · exact Nat.zero_le _

theorem coarseGrain_parent {l : Nat} (hl : l ≤ 8) {chunk : List RGNode} (hlay : Layer l chunk) {p : RGNode}
    (h : coarseGrain P chunk (4 ^ (l + 1)) = .ok p) : SumsFit chunk ∧ IsParent P l chunk p := by
  obtain ⟨s, h1, h⟩ := Go.bind_eq_ok.mp h
  obtain ⟨hv, hq, rfl⟩ := (addChildren_ok hl hlay (by positivity) (by positivity)).mp h1
  obtain ⟨volume, h2, h⟩ := Go.bind_eq_ok.mp h
  obtain ⟨variance, -, h⟩ := Go.bind_eq_ok.mp h
  obtain ⟨squares, h4, h⟩ := Go.bind_eq_ok.mp h
  obtain ⟨_, -, h⟩ := Go.bind_eq_ok.mp h
  obtain rfl := Go.ok.inj h
  rw [uint256ToBytes_ok] at h2 h4
  simp only [Sums.after, Nat.zero_add, List.nil_append] at hv hq h2 h4
  exact ⟨⟨hv, hq⟩, rfl, h2, h4, rfl⟩

theorem coarseGrain_of_fit {l : Nat} (hl : l ≤ 8) {chunk : List RGNode} (hlay : Layer l chunk) (hf : SumsFit chunk)
    (scale : Nat) : ∃ p, coarseGrain P chunk scale = .ok p := by
  have h0 : (0 : Nat) < 256 ^ 32 := by positivity
  obtain ⟨hv, hq⟩ := hf
  have h1 : chunk.foldlM (addChild P) ⟨0, 0, 0, 0, []⟩ = .ok (Sums.after P ⟨0, 0, 0, 0, []⟩ chunk) :=
    (addChildren_ok hl hlay h0 h0).mpr ⟨by simpa using hv, by simpa using hq, rfl⟩
  have hvar : varianceOf (Sums.after P ⟨0, 0, 0, 0, []⟩ chunk) < 256 ^ 32 :=
    lt_of_le_of_lt (varianceOf_le _) (by simpa [Sums.after] using hq)
  unfold coarseGrain
  rw [h1]
  simp only [Go.ok_bind]
  rw [uint256ToBytes_of_lt (by simpa [Sums.after] using hv), uint256ToBytes_of_lt hvar,
    uint256ToBytes_of_lt (by simpa [Sums.after] using hq)]
  simp only [Go.ok_bind]
  rw [Go.check_pos (by rfl)]
  exact ⟨_, rfl⟩

/-! ## One layer -/

/-- The nodes of a chunk behind which the padding stands. -/
def padded (P : Prim) (l : Nat) (chunk : List RGNode) : List RGNode :=
  chunk ++ List.replicate (K - chunk.length) (nullNodeAt P l)

theorem padded_layer {l : Nat} {chunk : List RGNode} (h : Layer l chunk) : Layer l (padded P l chunk) := by
  intro n hn
  rcases List.mem_append.mp hn with hn | hn
  · exact h n hn
  · rw [List.eq_of_mem_replicate hn]
    exact nullNodeAt_level P l

theorem volumeOf_padded (l : Nat) (chunk : List RGNode) : volumeOf (padded P l chunk) = volumeOf chunk := by
  rw [padded, volumeOf_append]
  simp [volumeOf, (nullNodeAt_volume P l).1]

theorem squaresOf_padded (l : Nat) (chunk : List RGNode) : squaresOf (padded P l chunk) = squaresOf chunk := by
  rw [padded, squaresOf_append]
  simp [squaresOf, (nullNodeAt_volume P l).2]

theorem mapM_nullNode {l : Nat} (hl : l ≤ 8) (k : Nat) :
    (List.range k).mapM (fun _ => nullNode P (4 ^ l)) = .ok (List.replicate k (nullNodeAt P l)) := by
  rw [Go.mapM_eq_ok, List.forall₂_iff_get]
  refine ⟨by simp, fun i h1 h2 => ?_⟩
  simp [nullNode_eq hl]

theorem paddingMask_testBit {len slot : Nat} (h1 : len ≤ K) (h2 : slot < K) :
    (paddingMask len).testBit slot = decide (len ≤ slot) := by
  have h1 : len ≤ 4 := h1
  have h2 : slot < 4 := h2
  interval_cases len <;> interval_cases slot <;> rfl

theorem paddingMask_lt {len : Nat} (h : len ≤ K) : paddingMask len < 2 ^ K := by
  have h : len ≤ 4 := h
  interval_cases len <;> decide

theorem checkPadding_ok {l : Nat} (hl : l ≤ 8) {chunk : List RGNode} (h : chunk.length ≤ K) {slot : Nat}
    (hs : slot < K) :
    checkPadding P (4 ^ l) (paddingMask chunk.length) (padded P l chunk) slot = .ok () := by
  unfold checkPadding
  rw [paddingMask_testBit h hs]
  split
  · rename_i hle
    have hle : chunk.length ≤ slot := of_decide_eq_true hle
    have hget : (padded P l chunk)[slot]? = some (nullNodeAt P l) := by
      rw [padded, List.getElem?_append_right hle, List.getElem?_replicate, if_pos (by omega)]
    rw [nullNode_eq hl, hget]
    simp only [Go.ok_bind]
    rw [(nullNodeAt_level P l).root_eq hl]
    simp only [Go.ok_bind]
    exact Go.check_pos trivial _
  · rfl

/-- The padding checks pass: a parent is the coarse-graining of its padded chunk. -/
theorem coarsenChunk_eq {l : Nat} (hl : l ≤ 8) {chunk : List RGNode} (h : chunk.length ≤ K) :
    coarsenChunk P (4 ^ l) chunk = coarseGrain P (padded P l chunk) (4 ^ (l + 1)) := by
  unfold coarsenChunk
  dsimp only
  rw [Go.check_pos (paddingMask_lt h)]
  simp only [Go.ok_bind]
  rw [mapM_nullNode hl]
  simp only [Go.ok_bind]
  rw [← padded, Go.forM_eq_ok (u := ()) |>.mpr fun slot hs => checkPadding_ok hl h (List.mem_range.mp hs)]
  rfl

theorem chunks_flatten : ∀ (n : Nat) (l : List RGNode), l.length ≤ n → (chunks n l).flatten = l := by
  intro n
  induction n with
  | zero =>
    intro l h
    rw [List.length_eq_zero_iff.mp (Nat.le_zero.mp h)]
    rfl
  | succ n ih =>
    intro l h
    unfold chunks
    split
    · rename_i e
      rw [e]; rfl
    · rename_i hne
      have hpos := List.length_pos_iff.mpr hne
      rw [List.flatten_cons, ih _ (by rw [List.length_drop]; simp only [K]; omega), List.take_append_drop]

theorem mem_chunks : ∀ {n : Nat} {l c : List RGNode}, c ∈ chunks n l → c ≠ [] ∧ c.length ≤ K ∧ ∀ x ∈ c, x ∈ l := by
  intro n
  induction n with
  | zero => exact fun h => nomatch h
  | succ n ih =>
    intro l c h
    unfold chunks at h
    split at h
    · exact nomatch h
    · rename_i hne
      rcases List.mem_cons.mp h with rfl | h
      · refine ⟨?_, by simp, fun x hx => List.mem_of_mem_take hx⟩
        cases l with
        | nil => exact absurd rfl hne
        | cons a l => simp [K]
      · obtain ⟨h1, h2, h3⟩ := ih h
        exact ⟨h1, h2, fun x hx => List.mem_of_mem_drop (h3 x hx)⟩

theorem length_chunks : ∀ (n : Nat) (l : List RGNode), l.length ≤ n → (chunks n l).length = (l.length + 3) / 4 := by
  intro n
  induction n with
  | zero =>
    intro l h
    rw [List.length_eq_zero_iff.mp (Nat.le_zero.mp h)]
    rfl
  | succ n ih =>
    intro l h
    unfold chunks
    split
    · rename_i e
      rw [e]; rfl
    · rename_i hne
      have hpos := List.length_pos_iff.mpr hne
      rw [List.length_cons, ih _ (by rw [List.length_drop]; simp only [K]; omega), List.length_drop]
      simp only [K]
      omega

/-- `parents` are the parents of `layer`, four nodes each. -/
def Parents (P : Prim) (l : Nat) (layer parents : List RGNode) : Prop :=
  List.Forall₂ (fun c p => coarseGrain P (padded P l c) (4 ^ (l + 1)) = .ok p) (chunks layer.length layer) parents

theorem coarsenLayer_ok {l : Nat} (hl : l ≤ 8) {layer parents : List RGNode} (hne : layer ≠ []) (hlay : Layer l layer) :
    coarsenLayer P layer = .ok parents ↔ l + 1 ≤ 8 ∧ Parents P l layer parents := by
  cases layer with
  | nil => exact absurd rfl hne
  | cons first rest =>
    have hs := (hlay first List.mem_cons_self).scale
    have hsK : first.scale * K = 4 ^ (l + 1) := by rw [hs]; rfl
    unfold coarsenLayer
    simp only [Go.bind_eq_ok, Go.check_eq_ok, exists_const, hsK, validScale_pow, Go.mapM_eq_ok, Parents]
    have heq : ∀ c ∈ chunks (first :: rest).length (first :: rest),
        coarsenChunk P first.scale c = coarseGrain P (padded P l c) (4 ^ (l + 1)) := fun c hc => by
      rw [hs, coarsenChunk_eq hl (mem_chunks hc).2.1]
    exact and_congr_right fun _ => Go.forall₂_congr_mem fun c hc p => by rw [heq c hc]

/-- A piece of a layer with its parent. -/
abbrev PieceOf (P : Prim) (l : Nat) (c : List RGNode) (p : RGNode) : Prop :=
  c.length ≤ K ∧ IsParent P l (padded P l c) p

theorem Parents.pieces {l : Nat} (hl : l ≤ 8) {layer parents : List RGNode} (hlay : Layer l layer)
    (h : Parents P l layer parents) : List.Forall₂ (PieceOf P l) (chunks layer.length layer) parents := by
  have hcs : ∀ c ∈ chunks layer.length layer, c.length ≤ K ∧ Layer l c :=
    fun c hc => ⟨(mem_chunks hc).2.1, fun n hn => hlay n ((mem_chunks hc).2.2 n hn)⟩
  exact ((List.forall₂_and_left _ _).mpr ⟨hcs, h⟩).imp fun c p hp =>
    ⟨hp.1.1, (coarseGrain_parent hl (padded_layer hp.1.2) hp.2).2⟩

theorem length_padded {l : Nat} {c : List RGNode} (h : c.length ≤ K) : (padded P l c).length = K := by
  simp [padded]
  omega

theorem pieces_facts {l : Nat} {cs : List (List RGNode)} {ps : List RGNode}
    (h : List.Forall₂ (PieceOf P l) cs ps) :
    Layer (l + 1) ps ∧ volumeOf ps = volumeOf cs.flatten ∧ squaresOf ps = squaresOf cs.flatten := by
  induction h with
  | nil => exact ⟨fun n hn => (nomatch hn), rfl, rfl⟩
  | @cons c p cs ps hp hrest ih =>
    obtain ⟨hlen, par⟩ := hp
    obtain ⟨hlay, hv, hq⟩ := ih
    have h1 := par.volume
    have h2 := par.squares
    rw [volumeOf_padded] at h1
    rw [squaresOf_padded] at h2
    refine ⟨fun n hn => ?_, ?_, ?_⟩
    · rcases List.mem_cons.mp hn with rfl | hn
      · refine ⟨par.scale, ?_⟩
        rw [par.children, List.length_map, length_padded hlen]
        rfl
      · exact hlay n hn
    · rw [List.flatten_cons, volumeOf_append, ← hv, ← h1]
      simp [volumeOf]
    · rw [List.flatten_cons, squaresOf_append, ← hq, ← h2]
      simp [squaresOf]

/-- One round keeps the sums and divides the length by four. -/
theorem Parents.facts {l : Nat} (hl : l ≤ 8) {layer parents : List RGNode} (hlay : Layer l layer)
    (h : Parents P l layer parents) : Layer (l + 1) parents ∧ volumeOf parents = volumeOf layer ∧
      squaresOf parents = squaresOf layer ∧ parents.length = (layer.length + 3) / 4 := by
  obtain ⟨h1, hv, hq⟩ := pieces_facts (h.pieces hl hlay)
  rw [chunks_flatten _ _ le_rfl] at hv hq
  exact ⟨h1, hv, hq, by rw [← h.length_eq, length_chunks _ _ le_rfl]⟩

theorem SumsFit.mem {cs : List (List RGNode)} (h : SumsFit cs.flatten) : ∀ c ∈ cs, SumsFit c := by
  induction cs with
  | nil => exact fun c hc => nomatch hc
  | cons x cs ih =>
    obtain ⟨hv, hq⟩ := h
    rw [List.flatten_cons, volumeOf_append] at hv
    rw [List.flatten_cons, squaresOf_append] at hq
    intro c hc
    rcases List.mem_cons.mp hc with rfl | hc
    · exact ⟨by omega, by omega⟩
    · exact ih ⟨by omega, by omega⟩ c hc

theorem Parents.of_fit {l : Nat} (hl : l ≤ 8) {layer : List RGNode} (hlay : Layer l layer) (hf : SumsFit layer) :
    ∃ parents, Parents P l layer parents := by
  rw [← chunks_flatten _ layer le_rfl] at hf
  refine Go.forall₂_exists fun c hc => ?_
  have hfit : SumsFit (padded P l c) := by
    rw [SumsFit, volumeOf_padded, squaresOf_padded]
    exact SumsFit.mem hf c hc
  exact coarseGrain_of_fit hl (padded_layer fun n hn => hlay n ((mem_chunks hc).2.2 n hn)) hfit _

/-! ## All layers -/

theorem coarsen_cons {n : Nat} {layer : List RGNode} {ls : List (List RGNode)} (h : 1 < layer.length) :
    coarsen P (n + 1) layer = .ok ls ↔
      ∃ parents rest, coarsenLayer P layer = .ok parents ∧ coarsen P n parents = .ok rest ∧ ls = layer :: rest := by
  rw [coarsen, if_neg (by omega)]
  constructor
  · intro h
    obtain ⟨parents, h1, h⟩ := Go.bind_eq_ok.mp h
    obtain ⟨rest, h2, h⟩ := Go.bind_eq_ok.mp h
    exact ⟨parents, rest, h1, h2, (Go.ok.inj h).symm⟩
  · rintro ⟨parents, rest, h1, h2, rfl⟩
    exact Go.bind_eq_ok.mpr ⟨parents, h1, Go.bind_eq_ok.mpr ⟨rest, h2, rfl⟩⟩

theorem coarsen_one {n : Nat} {layer : List RGNode} (h : layer.length ≤ 1) : coarsen P (n + 1) layer = .ok [layer] := by
  unfold coarsen
  rw [if_pos h]

/-- Ten rounds are enough: with as many as levels remain, one more changes nothing. -/
theorem coarsen_fuel : ∀ {n l : Nat} {layer : List RGNode}, 9 ≤ n + l → l ≤ 8 → Layer l layer →
    coarsen P (n + 1) layer = coarsen P n layer := by
  intro n
  induction n with
  | zero => intro l layer h hl; omega
  | succ n ih =>
    intro l layer h hl hlay
    by_cases hlen : layer.length ≤ 1
    · rw [coarsen_one hlen, coarsen_one hlen]
    · have hne : layer ≠ [] := fun e => hlen (by simp [e])
      unfold coarsen
      rw [if_neg hlen, if_neg hlen]
      cases hc : coarsenLayer P layer with
      | err e => rfl
      | panic w => rfl
      | ok parents =>
        obtain ⟨hl', hp⟩ := (coarsenLayer_ok hl hne hlay).mp hc
        simp only [Go.ok_bind]
        rw [ih (by omega) hl' (hp.facts hl hlay).1]

/-- Coarsening succeeds exactly when the layer is short enough and its sums fit. -/
theorem coarsen_isOk : ∀ {n l : Nat} {layer : List RGNode}, 9 ≤ n + l → l ≤ 8 → layer ≠ [] → Layer l layer →
    ((∃ ls, coarsen P n layer = .ok ls) ↔ layer.length ≤ 1 ∨ layer.length ≤ 4 ^ (8 - l) ∧ SumsFit layer) := by
  intro n
  induction n with
  | zero => intro l layer h hl; omega
  | succ n ih =>
    intro l layer h hl hne hlay
    by_cases hlen : layer.length ≤ 1
    · exact iff_of_true ⟨_, coarsen_one hlen⟩ (.inl hlen)
    have hparents : ∀ {parents}, l + 1 ≤ 8 → Parents P l layer parents →
        ((∃ ls, coarsen P n parents = .ok ls) ↔ layer.length ≤ 4 ^ (8 - l) ∧ SumsFit layer) := by
      intro parents hl' hp
      obtain ⟨hlay', hv, hq, hplen⟩ := hp.facts hl hlay
      have hpne : parents ≠ [] := List.length_pos_iff.mp (by omega)
      have hpow : 4 ^ (8 - l) = 4 * 4 ^ (8 - (l + 1)) := by rw [← pow_succ']; congr 1; omega
      have hpos : 0 < 4 ^ (8 - (l + 1)) := by positivity
      rw [ih (by omega) hl' hpne hlay']
      unfold SumsFit
      rw [hv, hq]
      constructor
      · rintro (h1 | ⟨h1, h2⟩)
        · -- a single parent holds the sums in its own fields
          obtain ⟨p, rfl⟩ := List.length_eq_one_iff.mp (show parents.length = 1 by omega)
          rw [← hv, ← hq]
          exact ⟨by omega, by simp [volumeOf], by simp [squaresOf]⟩
        · exact ⟨by omega, h2⟩
      · rintro ⟨h1, h2⟩
        exact .inr ⟨by omega, h2⟩
    constructor
    · rintro ⟨ls, hls⟩
      obtain ⟨parents, rest, hc, hrest, -⟩ := (coarsen_cons (by omega)).mp hls
      obtain ⟨hl', hp⟩ := (coarsenLayer_ok hl hne hlay).mp hc
      exact .inr ((hparents hl' hp).mp ⟨rest, hrest⟩)
    · rintro (h1 | ⟨h1, h2⟩)
      · exact absurd h1 hlen
      · have hl' : l + 1 ≤ 8 := by
          by_contra hcon
          have : 8 - l = 0 := by omega
          rw [this] at h1
          omega
        obtain ⟨parents, hp⟩ := Parents.of_fit hl hlay h2
        obtain ⟨rest, hrest⟩ := (hparents hl' hp).mpr ⟨h1, h2⟩
        exact ⟨layer :: rest, (coarsen_cons (by omega)).mpr
          ⟨parents, rest, (coarsenLayer_ok hl hne hlay).mpr ⟨hl', hp⟩, hrest, rfl⟩⟩

theorem coarsen_last : ∀ {n l : Nat} {layer : List RGNode} {ls : List (List RGNode)}, l ≤ 8 → layer ≠ [] →
    Layer l layer → coarsen P n layer = .ok ls →
    ∃ top m, ls.getLast? = some [top] ∧ l ≤ m ∧ m ≤ 8 ∧ AtLevel m top := by
  intro n
  induction n with
  | zero => intro l layer ls _ _ _ h; cases h
  | succ n ih =>
    intro l layer ls hl hne hlay h
    by_cases hlen : layer.length ≤ 1
    · rw [coarsen_one hlen] at h
      obtain rfl := Go.ok.inj h
      have := List.length_pos_iff.mpr hne
      obtain ⟨top, rfl⟩ := List.length_eq_one_iff.mp (show layer.length = 1 by omega)
      exact ⟨top, l, rfl, le_rfl, hl, hlay top List.mem_cons_self⟩
    · obtain ⟨parents, rest, hc, hrest, rfl⟩ := (coarsen_cons (by omega)).mp h
      obtain ⟨hl', hp⟩ := (coarsenLayer_ok hl hne hlay).mp hc
      obtain ⟨hlay', -, -, hplen⟩ := hp.facts hl hlay
      obtain ⟨top, m, h1, h2, h3⟩ := ih hl' (List.length_pos_iff.mp (by omega)) hlay' hrest
      exact ⟨top, m, by rw [List.getLast?_cons, h1]; rfl, by omega, h3⟩

theorem coarsen_top {n l : Nat} {layer : List RGNode} {ls : List (List RGNode)} {top : RGNode} (hl : l ≤ 8)
    (hne : layer ≠ []) (hlay : Layer l layer) (h : coarsen P n layer = .ok ls) (ht : ls.getLast? = some [top]) :
    layer = [top] ∨ 1 < layer.length ∧ ∃ m, l < m ∧ m ≤ 8 ∧ AtLevel m top := by
  cases n with
  | zero => cases h
  | succ n =>
    by_cases h1 : layer.length ≤ 1
    · rw [coarsen_one h1] at h
      obtain rfl := Go.ok.inj h
      exact .inl (Option.some.inj ht)
    · obtain ⟨ps, rest, hc, hrest, rfl⟩ := (coarsen_cons (by omega)).mp h
      obtain ⟨hl', hp⟩ := (coarsenLayer_ok hl hne hlay).mp hc
      obtain ⟨hpl, -, -, hplen⟩ := hp.facts hl hlay
      obtain ⟨t, m, hrt, hlm, hm, hlev⟩ := coarsen_last hl' (List.length_pos_iff.mp (by omega)) hpl hrest
      rw [List.getLast?_cons, hrt] at ht
      obtain rfl : t = top := by simpa using ht
      exact .inr ⟨by omega, m, hlm, hm, hlev⟩

theorem coarsen_head {n : Nat} {layer : List RGNode} {ls : List (List RGNode)} (h : coarsen P n layer = .ok ls) :
    ls.headD [] = layer := by
  cases n with
  | zero => cases h
  | succ n =>
    by_cases h1 : layer.length ≤ 1
    · rw [coarsen_one h1] at h
      obtain rfl := Go.ok.inj h
      rfl
    · obtain ⟨ps, rest, -, -, rfl⟩ := (coarsen_cons (by omega)).mp h
      rfl

/-! ## The top fixes the leaves -/

theorem length_chunks_eq : ∀ {n : Nat} {l m : List RGNode}, l.length = m.length →
    List.Forall₂ (fun c d => c.length = d.length) (chunks n l) (chunks n m) := by
  intro n
  induction n with
  | zero => exact fun _ => .nil
  | succ n ih =>
    intro l m h
    unfold chunks
    by_cases hl : l = []
    · have hm : m = [] := List.length_eq_zero_iff.mp (by rw [← h, hl]; rfl)
      rw [if_pos hl, if_pos hm]
      exact .nil
    · have hm : m ≠ [] := fun hm => hl (List.length_eq_zero_iff.mp (by rw [h, hm]; rfl))
      rw [if_neg hl, if_neg hm]
      exact .cons (by simp [h]) (ih (by simp [h]))

/-- No two different nodes of the two lists have the same root. -/
def Apart (P : Prim) (l m : List RGNode) : Prop := ∀ a ∈ l, ∀ b ∈ m, NoCollision P.hash a.bytes b.bytes

theorem map_bytes_of_hash : ∀ {c d : List RGNode}, Apart P c d → c.map (hashOf P) = d.map (hashOf P) →
    c.map RGNode.bytes = d.map RGNode.bytes := by
  intro c
  induction c with
  | nil =>
    intro d _ h
    rw [List.map_nil, eq_comm, List.map_eq_nil_iff] at h
    rw [h]
  | cons a c ih =>
    intro d hap h
    cases d with
    | nil => exact absurd h (by simp)
    | cons b d =>
      rw [List.map_cons, List.map_cons, List.cons.injEq] at h
      rw [List.map_cons, List.map_cons, hap a List.mem_cons_self b List.mem_cons_self h.1,
        ih (fun x hx y hy => hap x (List.mem_cons_of_mem _ hx) y (List.mem_cons_of_mem _ hy)) h.2]

/-- Two pieces whose padded nodes have the same roots have the same bytes. -/
abbrev Undone (P : Prim) (l : Nat) (c d : List RGNode) : Prop :=
  (padded P l c).map (hashOf P) = (padded P l d).map (hashOf P) → c.map RGNode.bytes = d.map RGNode.bytes

theorem pieces_bytes {l : Nat} {cs ds : List (List RGNode)} {ps qs : List RGNode}
    (hundo : List.Forall₂ (Undone P l) cs ds) (hp : List.Forall₂ (PieceOf P l) cs ps)
    (hq : List.Forall₂ (PieceOf P l) ds qs) (hb : ps.map RGNode.bytes = qs.map RGNode.bytes) :
    cs.flatten.map RGNode.bytes = ds.flatten.map RGNode.bytes := by
  induction hundo generalizing ps qs with
  | nil => rfl
  | @cons c d cs ds hcd hrest ih =>
    obtain ⟨p, ps, hcp, hps, rfl⟩ := List.forall₂_cons_left_iff.mp hp
    obtain ⟨q, qs, hdq, hqs, rfl⟩ := List.forall₂_cons_left_iff.mp hq
    rw [List.map_cons, List.map_cons, List.cons.injEq] at hb
    have hch := (RGNode.bytes_inj hb.1).2
    rw [hcp.2.children, hdq.2.children] at hch
    rw [List.flatten_cons, List.flatten_cons, List.map_append, List.map_append, hcd hch, ih hps hqs hb.2]

theorem Parents.bytes {l : Nat} (hl : l ≤ 8) {layer layer' ps qs : List RGNode} (hlay : Layer l layer)
    (hlay' : Layer l layer') (hp : Parents P l layer ps) (hq : Parents P l layer' qs)
    (hundo : List.Forall₂ (Undone P l) (chunks layer.length layer) (chunks layer'.length layer'))
    (hb : ps.map RGNode.bytes = qs.map RGNode.bytes) : layer.map RGNode.bytes = layer'.map RGNode.bytes := by
  have h := pieces_bytes hundo (hp.pieces hl hlay) (hq.pieces hl hlay') hb
  rwa [chunks_flatten _ _ le_rfl, chunks_flatten _ _ le_rfl] at h

section

variable {N N' : List RGNode} {M : Nat → List RGNode → List RGNode → Prop}

/-- If the bytes of the parents fix those of the layer below in each round, the bytes of the
    top fix those of the first layer. `M` is what the two layers share in every round, `N` and
    `N'` have all their nodes. -/
theorem coarsen_undo (hround : ∀ {l layer layer' ps qs}, l ≤ 8 → Layer l layer → Layer l layer' →
      (∀ n ∈ layer, n ∈ N) → (∀ n ∈ layer', n ∈ N') → M l layer layer' → Parents P l layer ps → Parents P l layer' qs →
      M (l + 1) ps qs ∧
        (ps.map RGNode.bytes = qs.map RGNode.bytes → layer.map RGNode.bytes = layer'.map RGNode.bytes)) :
    ∀ {n l : Nat} {layer layer' : List RGNode} {ls ls' : List (List RGNode)} {top top' : RGNode},
    l ≤ 8 → layer ≠ [] → layer' ≠ [] → Layer l layer → Layer l layer' → M l layer layer' →
    coarsen P n layer = .ok ls → coarsen P n layer' = .ok ls' → (∀ x ∈ ls.flatten, x ∈ N) →
      (∀ x ∈ ls'.flatten, x ∈ N') →
    ls.getLast? = some [top] → ls'.getLast? = some [top'] → top.bytes = top'.bytes →
    layer.map RGNode.bytes = layer'.map RGNode.bytes := by
  intro n
  induction n with
  | zero => intro l layer layer' ls ls' top top' _ _ _ _ _ _ h; cases h
  | succ n ih =>
    intro l layer layer' ls ls' top top' hl hne hne' hlay hlay' hM h h' hN hN' ht ht' hb
    have hlow : ∀ {layer : List RGNode} {t : RGNode}, Layer l layer → layer = [t] → AtLevel l t :=
      fun hlay e => hlay _ (e ▸ List.mem_singleton_self _)
    rcases coarsen_top hl hne hlay h ht with hone | ⟨hlen, m, hlm, hm, hlev⟩ <;>
      rcases coarsen_top hl hne' hlay' h' ht' with hone' | ⟨hlen', m', hlm', hm', hlev'⟩
    · rw [hone, hone', List.map_singleton, List.map_singleton, hb]
    · exact absurd ((hlow hlay hone).level_eq hlev' hl hm' hb) (by omega)
    · exact absurd (hlev.level_eq (hlow hlay' hone') hm hl hb) (by omega)
    · obtain ⟨ps, rest, hc, hrest, rfl⟩ := (coarsen_cons hlen).mp h
      obtain ⟨qs, rest', hc', hrest', rfl⟩ := (coarsen_cons hlen').mp h'
      obtain ⟨hl', hp⟩ := (coarsenLayer_ok hl hne hlay).mp hc
      obtain ⟨-, hq⟩ := (coarsenLayer_ok hl hne' hlay').mp hc'
      obtain ⟨hpl, -, -, hplen⟩ := hp.facts hl hlay
      obtain ⟨hql, -, -, hqlen⟩ := hq.facts hl hlay'
      have hpne : ps ≠ [] := List.length_pos_iff.mp (by omega)
      have hqne : qs ≠ [] := List.length_pos_iff.mp (by omega)
      obtain ⟨t, -, hrt, -⟩ := coarsen_last hl' hpne hpl hrest
      obtain ⟨t', -, hrt', -⟩ := coarsen_last hl' hqne hql hrest'
      rw [List.getLast?_cons, hrt] at ht
      rw [List.getLast?_cons, hrt'] at ht'
      rw [List.flatten_cons] at hN hN'
      obtain ⟨hM', hback⟩ := hround hl hlay hlay' (fun x hx => hN x (List.mem_append_left _ hx))
        (fun x hx => hN' x (List.mem_append_left _ hx)) hM hp hq
      exact hback (ih hl' hpne hqne hpl hql hM' hrest hrest' (fun x hx => hN x (List.mem_append_right _ hx))
        (fun x hx => hN' x (List.mem_append_right _ hx)) (hrt.trans ht) (hrt'.trans ht') hb)

end

/-- Two layers of one length whose top nodes have the same bytes have the same bytes. -/
theorem coarsen_bytes {n l : Nat} {layer layer' : List RGNode} {ls ls' : List (List RGNode)} {top top' : RGNode}
    (hl : l ≤ 8) (hne : layer ≠ []) (hlay : Layer l layer) (hlay' : Layer l layer')
    (hlen : layer.length = layer'.length)
    (h : coarsen P n layer = .ok ls) (h' : coarsen P n layer' = .ok ls') (hap : Apart P ls.flatten ls'.flatten)
    (ht : ls.getLast? = some [top]) (ht' : ls'.getLast? = some [top']) (hb : top.bytes = top'.bytes) :
    layer.map RGNode.bytes = layer'.map RGNode.bytes := by
  have hne' : layer' ≠ [] := List.length_pos_iff.mp (hlen ▸ List.length_pos_iff.mpr hne)
  refine coarsen_undo (M := fun _ layer layer' => layer.length = layer'.length)
    (fun {l layer layer' ps qs} hl hlay hlay' hN hN' hlen hp hq => ⟨?_, hp.bytes hl hlay hlay' hq ?_⟩)
    hl hne hne' hlay hlay' hlen h h' (fun _ => id) (fun _ => id) ht ht' hb
  · have hplen := (hp.facts hl hlay).2.2.2
    have hqlen := (hq.facts hl hlay').2.2.2
    omega
  · -- pieces of one length have the same padding
    have hpieces := length_chunks_eq (n := layer.length) hlen
    rw [← hlen]
    refine (Go.forall₂_mem hpieces).imp fun c d hcd hhash => ?_
    obtain ⟨hc, hd, hcd⟩ := hcd
    rw [padded, padded, List.map_append, List.map_append] at hhash
    have hap' : Apart P c d :=
      fun x hx y hy => hap x (hN x ((mem_chunks hc).2.2 x hx)) y (hN' y ((mem_chunks hd).2.2 y hy))
    exact map_bytes_of_hash hap' (List.append_inj hhash (by simpa using hcd)).1

/-! ## The tree of a block -/

/-- A leaf has its transaction's ID as its only child. -/
theorem makeAtomicNode_ok {t : Tx} {n : RGNode} (h : makeAtomicNode P t = .ok n) :
    AtLevel 0 n ∧ n.sig = .atomic ∧ n.count = 1 ∧ ∃ x, t.id P = .ok x ∧ n.children = [x] := by
  obtain ⟨txID, hid, h⟩ := Go.bind_eq_ok.mp h
  split at h
  · cases h
  · obtain ⟨_, -, h⟩ := Go.bind_eq_ok.mp h
    obtain ⟨volume, -, h⟩ := Go.bind_eq_ok.mp h
    obtain ⟨squares, -, h⟩ := Go.bind_eq_ok.mp h
    obtain rfl := Go.ok.inj h
    exact ⟨⟨rfl, rfl⟩, rfl, rfl, txID, hid, rfl⟩

theorem makeAtomicNode_level {t : Tx} {n : RGNode} (h : makeAtomicNode P t = .ok n) : AtLevel 0 n :=
  (makeAtomicNode_ok h).1

theorem atomicLayer_layer {txs : List Tx} {layer : List RGNode} (h : atomicLayer P txs = .ok layer) :
    Layer 0 layer ∧ layer.length = txs.length := by
  refine ⟨fun n hn => ?_, (Go.mapM_eq_ok.mp h).length_eq.symm⟩
  obtain ⟨t, -, ht⟩ := Go.mem_of_mapM h hn
  exact makeAtomicNode_level ht

theorem buildTree_ok {txs : List Tx} {nodes : List RGNode} (hne : txs ≠ [] ∨ nodes ≠ []) (hnodes : Layer 0 nodes)
    {tree : Tree} : buildTree P txs nodes = .ok tree ↔
      txs.length ≤ tMax ∧ ∃ leaves top, atomicLayer P txs = .ok leaves ∧
        coarsen P 10 (leaves ++ nodes) = .ok tree.layers ∧ tree.layers.getLast? = some [top] ∧
        tree.root = P.hash top.bytes := by
  have hcond : ¬ (txs = [] ∧ nodes = []) := fun h => hne.elim (· h.1) (· h.2)
  have hlayer : ∀ {leaves}, atomicLayer P txs = .ok leaves → leaves ++ nodes ≠ [] ∧ Layer 0 (leaves ++ nodes) := by
    intro leaves h
    obtain ⟨h1, h2⟩ := atomicLayer_layer h
    refine ⟨fun e => ?_, fun n hn => (List.mem_append.mp hn).elim (h1 n) (hnodes n)⟩
    obtain ⟨rfl, rfl⟩ := List.append_eq_nil_iff.mp e
    exact hcond ⟨List.length_eq_zero_iff.mp h2.symm, rfl⟩
  unfold buildTree
  rw [if_neg hcond]
  constructor
  · intro h
    obtain ⟨_, h0, h⟩ := Go.bind_eq_ok.mp h
    obtain ⟨leaves, h1, h⟩ := Go.bind_eq_ok.mp h
    obtain ⟨layers, h2, h⟩ := Go.bind_eq_ok.mp h
    obtain ⟨hl1, hl2⟩ := hlayer h1
    obtain ⟨top, m, ht, -, hm, hlev⟩ := coarsen_last (Nat.zero_le 8) hl1 hl2 h2
    rw [ht] at h
    simp only [hlev.root_eq hm, Go.ok_bind, Go.pure_eq, Go.ok.injEq] at h
    subst h
    exact ⟨Go.check_eq_ok.mp h0, leaves, top, h1, h2, ht, rfl⟩
  · rintro ⟨h0, leaves, top, h1, h2, ht, hroot⟩
    obtain ⟨hl1, hl2⟩ := hlayer h1
    obtain ⟨top', m, ht', -, hm, hlev⟩ := coarsen_last (Nat.zero_le 8) hl1 hl2 h2
    obtain rfl : top = top' := by simpa using ht.symm.trans ht'
    rw [Go.check_pos h0, h1]
    simp only [Go.ok_bind]
    rw [h2]
    simp only [Go.ok_bind]
    rw [ht]
    simp only [hlev.root_eq hm, Go.ok_bind, Go.pure_eq, ← hroot]

/-- Whether the tree can be built does not depend on the order of the contract nodes. -/
theorem buildTree_perm {txs : List Tx} {nodes nodes' : List RGNode} (hp : nodes.Perm nodes') (hnodes : Layer 0 nodes)
    {tree : Tree} (h : buildTree P txs nodes = .ok tree) : ∃ tree', buildTree P txs nodes' = .ok tree' := by
  by_cases hne : txs ≠ [] ∨ nodes ≠ []
  · have hnodes' : Layer 0 nodes' := fun n hn => hnodes n (hp.mem_iff.mpr hn)
    have hne' : txs ≠ [] ∨ nodes' ≠ [] := hne.imp id fun h e => h (List.perm_nil.mp (e ▸ hp))
    obtain ⟨h0, leaves, top, h1, h2, -⟩ := (buildTree_ok hne hnodes).mp h
    have hleaves := (atomicLayer_layer h1).1
    have hperm : (leaves ++ nodes).Perm (leaves ++ nodes') := hp.append_left leaves
    have hlay : Layer 0 (leaves ++ nodes) := fun n hn => (List.mem_append.mp hn).elim (hleaves n) (hnodes n)
    have hlay' : Layer 0 (leaves ++ nodes') := fun n hn => hlay n (hperm.mem_iff.mpr hn)
    have hnil : leaves ++ nodes ≠ [] := fun e => by
      obtain ⟨rfl, rfl⟩ := List.append_eq_nil_iff.mp e
      have := (atomicLayer_layer h1).2
      exact hne.elim (· (List.length_eq_zero_iff.mp this.symm)) (· rfl)
    have hnil' : leaves ++ nodes' ≠ [] := fun e => hnil (List.perm_nil.mp (e ▸ hperm))
    have hok := (coarsen_isOk (by decide) (Nat.zero_le 8) hnil hlay).mp ⟨_, h2⟩
    rw [hperm.length_eq, SumsFit.perm hperm] at hok
    obtain ⟨ls, hls⟩ := (coarsen_isOk (n := 10) (by decide) (Nat.zero_le 8) hnil' hlay').mpr hok
    obtain ⟨top', m, ht', -⟩ := coarsen_last (Nat.zero_le 8) hnil' hlay' hls
    exact ⟨⟨ls, P.hash top'.bytes⟩, (buildTree_ok hne' hnodes').mpr ⟨h0, leaves, top', h1, hls, ht', rfl⟩⟩
  · obtain ⟨rfl, rfl⟩ := not_or.mp hne |>.imp not_not.mp not_not.mp
    rw [List.nil_perm.mp hp]
    exact ⟨tree, h⟩

/-- Two trees over the same transactions with the same root have the same contract leaves
    in the same order, unless two of their nodes collide. -/
theorem buildTree_root_inj {txs : List Tx} {nodes nodes' : List RGNode} (hlen : nodes.length = nodes'.length)
    (hnodes : Layer 0 nodes) (hnodes' : Layer 0 nodes') {tree tree' : Tree} (h : buildTree P txs nodes = .ok tree)
    (h' : buildTree P txs nodes' = .ok tree') (hap : Apart P tree.layers.flatten tree'.layers.flatten)
    (hroot : tree.root = tree'.root) : nodes.map RGNode.bytes = nodes'.map RGNode.bytes := by
  by_cases hnil : nodes = []
  · rw [hnil, List.length_eq_zero_iff.mp (show nodes'.length = 0 by rw [← hlen, hnil]; rfl)]
  have hnil' : nodes' ≠ [] := List.length_pos_iff.mp (hlen ▸ List.length_pos_iff.mpr hnil)
  obtain ⟨-, leaves, top, h1, h2, ht, hr⟩ := (buildTree_ok (.inr hnil) hnodes).mp h
  obtain ⟨-, leaves', top', h1', h2', ht', hr'⟩ := (buildTree_ok (.inr hnil') hnodes').mp h'
  obtain rfl := Go.ok.inj (h1.symm.trans h1')
  have hleaves := (atomicLayer_layer h1).1
  have hmem : ∀ {ls : List (List RGNode)} {t : RGNode}, ls.getLast? = some [t] → t ∈ ls.flatten := fun h =>
    List.mem_flatten.mpr ⟨_, List.mem_of_getLast? h, List.mem_singleton_self _⟩
  have hbytes := hap top (hmem ht) top' (hmem ht') (hr.symm.trans (hroot.trans hr'))
  have := coarsen_bytes (Nat.zero_le 8) (by simp [hnil])
    (fun n hn => (List.mem_append.mp hn).elim (hleaves n) (hnodes n))
    (fun n hn => (List.mem_append.mp hn).elim (hleaves n) (hnodes' n)) (by simp [hlen]) h2 h2' hap ht ht' hbytes
  rw [List.map_append, List.map_append] at this
  exact List.append_cancel_left this

end Frg.RG
