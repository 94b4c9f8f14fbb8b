/-
  Frg.Lib.Words — fixed-width words and their big-endian bytes.

  A `Word n` is an array of `n` bytes read as a big-endian number, so comparing two
  words is comparing their bytes from the left. `toBE w k` is the `w` bytes of `k`,
  `ofBE` the number some bytes spell; each undoes the other (`ofBE_toBE`, `toBE_ofBE`)
  and equal encodings of one width come from equal numbers (`toBE_inj`).
-/

import Mathlib.Data.List.Lex
import Mathlib.Order.Fin.Basic
import Mathlib.Tactic.Positivity
import Mathlib.Tactic.Ring

namespace Frg.Lib

/-- `n` bytes, read as a big-endian number. -/
abbrev Word (n : Nat) := Fin (256 ^ n)

instance neZero_pow (n : Nat) : NeZero (256 ^ n) := ⟨by positivity⟩

-- constants for the widths in use, so that literals and membership tests carry no proof of their own
instance neZero_pow_8 : NeZero (256 ^ 8) := neZero_pow 8
instance neZero_pow_32 : NeZero (256 ^ 32) := neZero_pow 32
instance neZero_pow_64 : NeZero (256 ^ 64) := neZero_pow 64
instance lawfulBEq_32 : LawfulBEq (Word 32) := inferInstance

/-- Bytes in order, so that byte strings are ordered as `bytes.Compare` orders them. -/
instance uint8LinearOrder : LinearOrder UInt8 where
  le_refl := UInt8.le_refl
  le_trans _ _ _ := UInt8.le_trans
  le_antisymm _ _ := UInt8.le_antisymm
  le_total := UInt8.le_total
  lt_iff_le_not_ge a b := by
    rw [UInt8.not_le]
    exact ⟨fun h => ⟨UInt8.le_of_lt h, h⟩, fun h => h.2⟩
  toDecidableLE := inferInstance
  toDecidableLT := inferInstance
  toDecidableEq := inferInstance

def toBE : Nat → Nat → List UInt8
  | 0, _ => []
  | w + 1, k => toBE w (k / 256) ++ [UInt8.ofNat k]

def ofBE (bs : List UInt8) : Nat := bs.foldl (fun a b => a * 256 + b.toNat) 0

/-- The `n` bytes of a word. -/
def Word.bytes {n : Nat} (k : Word n) : List UInt8 := toBE n k.val

/-- The bytes in hexadecimal, as `%x` prints them. -/
def Word.hex {n : Nat} (k : Word n) : String :=
  String.join (k.bytes.map fun b => String.ofList [Nat.digitChar (b.toNat / 16), Nat.digitChar (b.toNat % 16)])

/-- The word some bytes spell, cut to `n` bytes. -/
def wordOf (n : Nat) (bs : List UInt8) : Word n := Fin.ofNat (256 ^ n) (ofBE bs)

@[simp] theorem length_toBE (w k : Nat) : (toBE w k).length = w := by
  induction w generalizing k with
  | zero => rfl
  | succ w ih => simp [toBE, ih]

@[simp] theorem length_bytes {n : Nat} (k : Word n) : k.bytes.length = n := length_toBE n k.val

@[simp] theorem ofBE_nil : ofBE [] = 0 := rfl

theorem ofBE_snoc (bs : List UInt8) (b : UInt8) : ofBE (bs ++ [b]) = ofBE bs * 256 + b.toNat := by
  simp [ofBE]

theorem ofBE_lt (bs : List UInt8) : ofBE bs < 256 ^ bs.length := by
  induction bs using List.reverseRecOn with
  | nil => simp
  | append_singleton bs b ih =>
    have hb := b.toNat_lt
    rw [ofBE_snoc, List.length_append, List.length_singleton, pow_succ]
    omega

theorem ofBE_toBE (w k : Nat) (h : k < 256 ^ w) : ofBE (toBE w k) = k := by
  induction w generalizing k with
  | zero => simp at h; simp [toBE, h]
  | succ w ih =>
    have hk : k / 256 < 256 ^ w := by
      rw [pow_succ] at h; omega
    rw [toBE, ofBE_snoc, ih _ hk, UInt8.toNat_ofNat']
    omega

theorem ofBE_toBE_mod (w k : Nat) : ofBE (toBE w k) = k % 256 ^ w := by
  induction w generalizing k with
  | zero => rw [pow_zero, Nat.mod_one]; rfl
  | succ w ih =>
    rw [toBE, ofBE_snoc, ih, UInt8.toNat_ofNat', pow_succ' 256 w, Nat.mod_mul]
    omega

theorem toBE_add (v w k : Nat) : toBE (v + w) k = toBE v (k / 256 ^ w) ++ toBE w k := by
  induction w generalizing k with
  | zero => simp [toBE]
  | succ w ih =>
    rw [← Nat.add_assoc, toBE, ih, toBE, List.append_assoc, Nat.div_div_eq_div_mul, pow_succ']

theorem toBE_ofBE (bs : List UInt8) : toBE bs.length (ofBE bs) = bs := by
  induction bs using List.reverseRecOn with
  | nil => rfl
  | append_singleton bs b ih =>
    have hb := b.toNat_lt
    have hq : (ofBE bs * 256 + b.toNat) / 256 = ofBE bs := by omega
    rw [ofBE_snoc, List.length_append, List.length_singleton, toBE, hq, ih]
    congr 2
    apply UInt8.toNat_inj.mp
    rw [UInt8.toNat_ofNat']
    omega

theorem toBE_inj {w a b : Nat} (ha : a < 256 ^ w) (hb : b < 256 ^ w) (h : toBE w a = toBE w b) : a = b := by
  rw [← ofBE_toBE w a ha, ← ofBE_toBE w b hb, h]

theorem bytes_inj {n : Nat} {a b : Word n} (h : a.bytes = b.bytes) : a = b :=
  Fin.ext (toBE_inj a.isLt b.isLt h)

@[simp] theorem wordOf_bytes {n : Nat} (k : Word n) : wordOf n k.bytes = k := by
  apply Fin.ext
  show ofBE (toBE n k.val) % 256 ^ n = k.val
  rw [ofBE_toBE n k.val k.isLt, Nat.mod_eq_of_lt k.isLt]

theorem bytes_wordOf {n : Nat} {bs : List UInt8} (h : bs.length = n) : (wordOf n bs).bytes = bs := by
  subst h
  show toBE bs.length (ofBE bs % 256 ^ bs.length) = bs
  rw [Nat.mod_eq_of_lt (ofBE_lt bs), toBE_ofBE]

end Frg.Lib
