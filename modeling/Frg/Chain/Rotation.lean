/-
  Frg.Chain.Rotation — whose turn it is (`core/leader/leader.go`).

  `SkipProposer` sorts the validators by their keys, takes the first eight bytes of a hash of
  the previous root and the height as a starting point, and goes on from there by one validator
  for every skip. `sort.Slice` is not stable, but keys that compare equal are equal.

    - `skipProposer_of_sorted`: any sorted arrangement of the validators gives the same answer.
    - `proposerIndex_toNat`: the index in 64-bit arithmetic is the one of the model.
    - `skipProposer_window`: consecutive skips walk the sorted validators in a circle.
    - `leader_rotation`: what that means for the order of the list, a round and the next round.
-/

import Frg.Chain.Staking
import Mathlib.Data.List.Rotate

namespace Frg.Chain

open Frg.Lib Frg.Core

variable {P : Prim} {root : Hash} {height : UInt64} {validators : List Key}

/-- The starting point of a round: the first eight bytes of the seed. -/
def seedBase (P : Prim) (root : Hash) (height : UInt64) : Nat := ofBE ((computeSeed P root height).bytes.take 8)

theorem seedBase_lt (P : Prim) (root : Hash) (height : UInt64) : seedBase P root height < 2 ^ 64 := by
  have hlt := ofBE_lt ((computeSeed P root height).bytes.take 8)
  rw [List.length_take, length_bytes] at hlt
  exact hlt

/-! ## The index -/

/-- `(base%n + uint64(skipCount)) % n`. -/
def proposerIndex (base n : UInt64) (skipCount : UInt32) : UInt64 := (base % n + skipCount.toUInt64) % n

/-- A slice has fewer than 2^63 elements, so the sum does not overflow. -/
theorem proposerIndex_toNat (P : Prim) (root : Hash) (height : UInt64) {n : Nat} (hpos : 0 < n) (hlen : n < 2 ^ 63)
    (skipCount : UInt32) : (proposerIndex (.ofNat (seedBase P root height)) (.ofNat n) skipCount).toNat =
      (seedBase P root height % n + skipCount.toNat) % n := by
  have hbase := seedBase_lt P root height
  have hskip := skipCount.toNat_lt
  have hmod : seedBase P root height % n < n := Nat.mod_lt _ hpos
  have hfits : seedBase P root height % n + skipCount.toNat < 2 ^ 64 := by omega
  unfold proposerIndex
  rw [UInt64.toNat_mod, UInt64.toNat_add, UInt64.toNat_mod, UInt32.toNat_toUInt64, UInt64.toNat_ofNat',
    UInt64.toNat_ofNat', Nat.mod_eq_of_lt hbase, Nat.mod_eq_of_lt (show n < 2 ^ 64 by omega), Nat.mod_eq_of_lt hfits]

/-! ## The answer -/

theorem insertionSort_sorted (l : List Key) : (l.insertionSort (· ≤ ·)).Pairwise (· ≤ ·) :=
  List.pairwise_insertionSort _ l

/-- Whatever sort the code uses, it arranges the validators in this order. -/
theorem skipProposer_of_sorted {sorted : List Key} (hperm : sorted.Perm validators) (hsorted : sorted.Pairwise (· ≤ ·))
    (hne : validators ≠ []) (skipCount : UInt32) {k : Key} :
    skipProposer P root height validators skipCount = .ok k ↔
      sorted[(seedBase P root height % sorted.length + skipCount.toNat) % sorted.length]? = some k := by
  have heq : validators.insertionSort (· ≤ ·) = sorted :=
    List.Perm.eq_of_pairwise' (insertionSort_sorted _) hsorted ((List.perm_insertionSort _ _).trans hperm.symm)
  have hpos : 0 < sorted.length := by
    rw [hperm.length_eq]
    exact List.length_pos_iff.mpr hne
  unfold skipProposer
  rw [if_neg hne]
  dsimp only
  rw [heq, ← seedBase, List.getElem?_eq_getElem (Nat.mod_lt _ hpos)]
  exact ⟨fun h => congrArg some (Go.ok.inj h), fun h => congrArg Go.ok (Option.some.inj h)⟩

theorem skipProposer_perm {vs : List Key} (hperm : vs.Perm validators) (skipCount : UInt32) :
    skipProposer P root height vs skipCount = skipProposer P root height validators skipCount := by
  by_cases hne : validators = []
  · subst hne
    rw [hperm.eq_nil]
  · have hne' : vs ≠ [] := fun h => hne (List.perm_nil.mp (h ▸ hperm.symm))
    obtain ⟨k, -, hk⟩ := skipProposer_mem (P := P) root height hne skipCount
    have hsorted := insertionSort_sorted validators
    have hsame := List.perm_insertionSort (· ≤ ·) validators
    rw [hk, skipProposer_of_sorted (hsame.trans hperm.symm) hsorted hne', ← skipProposer_of_sorted hsame hsorted hne]
    exact hk

/-- The answers from skip `s` on are the sorted validators, read in a circle. -/
theorem skipProposer_window (hne : validators ≠ []) {s : Nat} (hmax : s + validators.length ≤ 2 ^ 32) :
    (List.range validators.length).map (fun i => skipProposer P root height validators (.ofNat (s + i))) =
      ((validators.insertionSort (· ≤ ·)).rotate (seedBase P root height + s)).map .ok := by
  have hsame := List.perm_insertionSort (· ≤ ·) validators
  have hlen := hsame.length_eq
  apply List.ext_getElem
  · rw [List.length_map, List.length_map, List.length_range, List.length_rotate, hlen]
  · intro i hi hi'
    rw [List.length_map, List.length_range] at hi
    have hskip : (UInt32.ofNat (s + i)).toNat = s + i := by
      rw [UInt32.toNat_ofNat']
      omega
    have hstep : i + (seedBase P root height + s) = seedBase P root height + (s + i) := by omega
    rw [List.getElem_map, List.getElem_map, List.getElem_range,
      skipProposer_of_sorted hsame (insertionSort_sorted _) hne, hskip, Nat.mod_add_mod, List.getElem_rotate]
    rw [List.getElem?_eq_getElem (Nat.mod_lt _ (by omega))]
    simp only [hstep]

theorem skipProposer_period (hne : validators ≠ []) {s : Nat} (hmax : s + validators.length < 2 ^ 32) :
    skipProposer P root height validators (.ofNat (s + validators.length)) =
      skipProposer P root height validators (.ofNat s) := by
  have hsame := List.perm_insertionSort (· ≤ ·) validators
  have hsorted := insertionSort_sorted validators
  obtain ⟨k, -, hk⟩ := skipProposer_mem (P := P) root height hne (.ofNat s)
  have hnow := (skipProposer_of_sorted hsame hsorted hne _).mp hk
  have hs : (UInt32.ofNat s).toNat = s := by
    rw [UInt32.toNat_ofNat']
    omega
  have hs' : (UInt32.ofNat (s + validators.length)).toNat = s + validators.length := by
    rw [UInt32.toNat_ofNat']
    omega
  rw [hk, skipProposer_of_sorted hsame hsorted hne, hs', ← Nat.add_assoc, hsame.length_eq, Nat.add_mod_right]
  rw [hs, hsame.length_eq] at hnow
  exact hnow

/-- The order of the list does not matter, `n` consecutive skips name every validator once, and
    a round later it is the same validator's turn. -/
theorem leader_rotation (P : Prim) (root : Hash) (height : UInt64) {validators : List Key} (hne : validators ≠ [])
    (hdistinct : validators.Nodup) :
    (∀ vs, vs.Perm validators → ∀ s,
      skipProposer P root height vs s = skipProposer P root height validators s) ∧
    ∀ s, s + validators.length ≤ 2 ^ 32 →
      let round := (List.range validators.length).map fun i => skipProposer P root height validators (.ofNat (s + i))
      round.Perm (validators.map .ok) ∧ round.Nodup ∧
      (s + validators.length < 2 ^ 32 → skipProposer P root height validators (.ofNat (s + validators.length)) =
        skipProposer P root height validators (.ofNat s)) := by
  refine ⟨fun vs hperm s => skipProposer_perm hperm s, ?_⟩
  intro s hmax
  dsimp only
  have hround : ((List.range validators.length).map fun i =>
      skipProposer P root height validators (.ofNat (s + i))).Perm (validators.map .ok) := by
    rw [skipProposer_window hne hmax]
    exact ((List.rotate_perm _ _).trans (List.perm_insertionSort _ _)).map _
  refine ⟨hround, ?_, skipProposer_period hne⟩
  rw [hround.nodup_iff]
  exact hdistinct.map fun _ _ h => Go.ok.inj h

/-- Two validators, listed in either order, from skip 5 on. -/
theorem leader_rotation_two :
    skipProposer Prim.sample 7 3 [2, 1] 5 = skipProposer Prim.sample 7 3 [1, 2] 5 ∧
    [skipProposer Prim.sample 7 3 [1, 2] 5, skipProposer Prim.sample 7 3 [1, 2] 6].Perm [.ok 1, .ok 2] ∧
    skipProposer Prim.sample 7 3 [1, 2] 7 = skipProposer Prim.sample 7 3 [1, 2] 5 := by
  obtain ⟨horder, hround⟩ := leader_rotation Prim.sample 7 3 (show ([1, 2] : List Key) ≠ [] by decide) (by decide)
  obtain ⟨honce, -, hagain⟩ := hround 5 (by decide)
  exact ⟨horder [2, 1] (.swap 1 2 []) 5, honce, hagain (by decide)⟩

end Frg.Chain
