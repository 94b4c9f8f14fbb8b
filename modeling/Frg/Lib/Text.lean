/-
  Frg.Lib.Text — decimal numerals as bytes, and tokens stripped from the ends of a text.

  `decimal n` is the numeral of `n` without leading zeros, `decimalValue` the number some digits
  stand for (`decimalValue_decimal`, `decimalValue_append`). `trimLeft` and `trimRight` take
  tokens off an end of a text as long as there is one there (`strip_spec`).
-/

import Mathlib.Data.Nat.Digits.Lemmas
import Mathlib.Tactic.IntervalCases
import Mathlib.Tactic.Ring

namespace Frg.Lib

/-! ## Decimal numerals -/

def isDigit (b : UInt8) : Bool := 0x30 ≤ b && b ≤ 0x39

def digitByte (d : Nat) : UInt8 := .ofNat (0x30 + d)

def digitValue (b : UInt8) : Nat := b.toNat - 0x30

def decimal (n : Nat) : List UInt8 := if n = 0 then [0x30] else ((Nat.digits 10 n).map digitByte).reverse

def decimalValue (s : List UInt8) : Nat := Nat.ofDigits 10 (s.map digitValue).reverse

theorem isDigit_digitByte {d : Nat} (h : d < 10) : isDigit (digitByte d) = true := by
  interval_cases d <;> rfl

theorem digitValue_digitByte {d : Nat} (h : d < 10) : digitValue (digitByte d) = d := by
  interval_cases d <;> rfl

theorem decimal_isDigit (n : Nat) : ∀ b ∈ decimal n, isDigit b = true := by
  intro b hb
  unfold decimal at hb
  split at hb
  · rw [List.mem_singleton.mp hb]
    rfl
  · obtain ⟨d, hd, rfl⟩ := List.mem_map.mp (List.mem_reverse.mp hb)
    exact isDigit_digitByte (Nat.digits_lt_base (by omega) hd)

theorem decimal_ne_nil (n : Nat) : decimal n ≠ [] := by
  unfold decimal
  split
  · exact List.cons_ne_nil _ _
  · rename_i hn
    rw [ne_eq, List.reverse_eq_nil_iff, List.map_eq_nil_iff]
    exact Nat.digits_ne_nil_iff_ne_zero.mpr hn

theorem decimalValue_decimal (n : Nat) : decimalValue (decimal n) = n := by
  unfold decimal decimalValue
  split
  · rename_i hn
    rw [hn]
    rfl
  · have hmap : ((Nat.digits 10 n).map digitByte).map digitValue = Nat.digits 10 n := by
      rw [List.map_map]
      refine (List.map_congr_left fun d hd => ?_).trans (List.map_id _)
      exact digitValue_digitByte (Nat.digits_lt_base (by omega) hd)
    rw [List.map_reverse, List.reverse_reverse, hmap, Nat.ofDigits_digits]

theorem length_decimal_le {n k : Nat} (hk : 0 < k) (h : n < 10 ^ k) : (decimal n).length ≤ k := by
  unfold decimal
  split
  · exact hk
  · rw [List.length_reverse, List.length_map]
    exact (Nat.digits_length_le_iff (by omega) n).mpr h

theorem decimalValue_append (s t : List UInt8) :
    decimalValue (s ++ t) = decimalValue s * 10 ^ t.length + decimalValue t := by
  unfold decimalValue
  rw [List.map_append, List.reverse_append, Nat.ofDigits_append, List.length_reverse, List.length_map]
  ring

@[simp] theorem decimalValue_nil : decimalValue [] = 0 := rfl

theorem decimalValue_zeros (k : Nat) : decimalValue (List.replicate k 0x30) = 0 := by
  unfold decimalValue
  rw [List.map_replicate, List.reverse_replicate]
  exact Nat.ofDigits_replicate_zero

/-! ## Hexadecimal texts -/

def hexDigit (b : UInt8) : Option UInt8 :=
  if 0x30 ≤ b ∧ b ≤ 0x39 then some (b - 0x30)
  else if 0x61 ≤ b ∧ b ≤ 0x66 then some (b - 0x61 + 10)
  else if 0x41 ≤ b ∧ b ≤ 0x46 then some (b - 0x41 + 10)
  else none

/-- The bytes two digits each stand for. -/
def hexDecode : List UInt8 → Option (List UInt8)
  | [] => some []
  | [_] => none
  | a :: b :: rest => do
    let high ← hexDigit a
    let low ← hexDigit b
    let bytes ← hexDecode rest
    some ((high * 16 + low) :: bytes)

/-! ## Tokens taken off the ends of a text -/

/-- Take tokens off the front of `s`, at most `fuel` of them. -/
def strip (tokens : List (List UInt8)) : Nat → List UInt8 → List UInt8
  | 0, s => s
  | fuel + 1, s =>
    match tokens.find? (·.isPrefixOf s) with
    | none => s
    | some t => strip tokens fuel (s.drop t.length)

def trimLeft (tokens : List (List UInt8)) (s : List UInt8) : List UInt8 := strip tokens s.length s

def trimRight (tokens : List (List UInt8)) (s : List UInt8) : List UInt8 :=
  (trimLeft (tokens.map List.reverse) s.reverse).reverse

theorem strip_of_none {tokens : List (List UInt8)} {s : List UInt8} (h : ∀ t ∈ tokens, ¬ t <+: s) (fuel : Nat) :
    strip tokens fuel s = s := by
  cases fuel with
  | zero => rfl
  | succ fuel =>
    have hnone : tokens.find? (·.isPrefixOf s) = none := by
      rw [List.find?_eq_none]
      intro t ht hp
      exact h t ht (by simpa using hp)
    unfold strip
    rw [hnone]

/-- Only tokens are taken off, and none is left in front. -/
theorem strip_spec {tokens : List (List UInt8)} (hne : ∀ t ∈ tokens, t ≠ []) :
    ∀ {fuel : Nat} {s : List UInt8}, s.length ≤ fuel →
      (∃ ts : List (List UInt8), (∀ t ∈ ts, t ∈ tokens) ∧ s = ts.flatten ++ strip tokens fuel s) ∧
      ∀ t ∈ tokens, ¬ t <+: strip tokens fuel s := by
  intro fuel
  induction fuel with
  | zero =>
    intro s hs
    have hnil : s = [] := List.eq_nil_of_length_eq_zero (by omega)
    rw [hnil]
    refine ⟨⟨[], fun t ht => absurd ht List.not_mem_nil, rfl⟩, fun t ht hp => ?_⟩
    exact hne t ht (List.prefix_nil.mp hp)
  | succ fuel ih =>
    intro s hs
    unfold strip
    cases hf : tokens.find? (·.isPrefixOf s) with
    | none =>
      refine ⟨⟨[], fun t ht => absurd ht List.not_mem_nil, rfl⟩, fun t ht hp => ?_⟩
      exact List.find?_eq_none.mp hf t ht (by simpa using hp)
    | some t =>
      have ht : t ∈ tokens := List.mem_of_find?_eq_some hf
      have hp : t <+: s := by simpa using List.find?_some hf
      have hpos : 0 < t.length := List.length_pos_iff.mpr (hne t ht)
      obtain ⟨⟨ts, hts, heq⟩, hleft⟩ := ih (s := s.drop t.length) (by rw [List.length_drop]; omega)
      refine ⟨⟨t :: ts, ?_, ?_⟩, hleft⟩
      · intro u hu
        rcases List.mem_cons.mp hu with rfl | hu
        · exact ht
        · exact hts u hu
      · obtain ⟨rest, rfl⟩ := hp
        show t ++ rest = (t :: ts).flatten ++ strip tokens fuel ((t ++ rest).drop t.length)
        rw [List.drop_left] at heq ⊢
        rw [List.flatten_cons, List.append_assoc, ← heq]

/-- A text whose ends no token shares a byte with is left as it is. -/
theorem trim_of_foreign {tokens : List (List UInt8)} (hne : ∀ t ∈ tokens, t ≠ []) {s : List UInt8}
    (hhead : ∀ b, s.head? = some b → ∀ t ∈ tokens, b ∉ t) (hlast : ∀ b, s.getLast? = some b → ∀ t ∈ tokens, b ∉ t) :
    trimLeft tokens s = s ∧ trimRight tokens s = s := by
  have key : ∀ {ts : List (List UInt8)} {u : List UInt8}, (∀ t ∈ ts, t ≠ []) →
      (∀ b, u.head? = some b → ∀ t ∈ ts, b ∉ t) → trimLeft ts u = u := by
    intro ts u hts hu
    refine strip_of_none (fun t ht hp => ?_) _
    obtain ⟨rest, rfl⟩ := hp
    cases t with
    | nil => exact hts [] ht rfl
    | cons b t => exact hu b rfl _ ht List.mem_cons_self
  refine ⟨key hne hhead, ?_⟩
  unfold trimRight
  rw [key, List.reverse_reverse]
  · intro t ht
    obtain ⟨u, hu, rfl⟩ := List.mem_map.mp ht
    exact fun h => hne u hu (List.reverse_eq_nil_iff.mp h)
  · intro b hb t ht
    obtain ⟨u, hu, rfl⟩ := List.mem_map.mp ht
    rw [List.head?_reverse] at hb
    exact fun h => hlast b hb u hu (List.mem_reverse.mp h)

end Frg.Lib
