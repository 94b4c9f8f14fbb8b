/-
  Frg.Core.Denom — FRG amounts as text (`core/denom`).

  A user writes an amount in FRG, the ledger counts quanta: 10^18 of them to one FRG.
  `parseFRG` reads a decimal text, `formatFRG` writes one without trailing zeros. Texts are
  bytes: `digitsOnly` ranges over runes, and a byte that is no ASCII digit is part of a rune
  that is none, so the bytes decide.
  - `parse_exact`: which texts `parseFRG` takes, and that it gives exactly the decimal number
    times 10^18; what `formatFRG` writes is read back as the same amount.
  - `trimSpace_spec`: what `strings.TrimSpace` takes off and what it leaves.
-/

import Frg.Core.Prim
import Frg.Lib.Text
import Mathlib.Algebra.Order.Ring.Rat
import Mathlib.Data.List.TakeWhile
import Mathlib.Tactic.FieldSimp

namespace Frg.Core

open Frg.Lib

/-! ## The source -/

/-- The runes of `unicode.IsSpace`, in UTF-8. -/
def whiteSpace : List (List UInt8) :=
  [[0x09], [0x0A], [0x0B], [0x0C], [0x0D], [0x20], [0xC2, 0x85], [0xC2, 0xA0], [0xE1, 0x9A, 0x80],
    [0xE2, 0x80, 0x80], [0xE2, 0x80, 0x81], [0xE2, 0x80, 0x82], [0xE2, 0x80, 0x83], [0xE2, 0x80, 0x84],
    [0xE2, 0x80, 0x85], [0xE2, 0x80, 0x86], [0xE2, 0x80, 0x87], [0xE2, 0x80, 0x88], [0xE2, 0x80, 0x89],
    [0xE2, 0x80, 0x8A], [0xE2, 0x80, 0xA8], [0xE2, 0x80, 0xA9], [0xE2, 0x80, 0xAF], [0xE2, 0x81, 0x9F],
    [0xE3, 0x80, 0x80]]

/-- `strings.TrimSpace`. -/
def trimSpace (s : List UInt8) : List UInt8 := trimRight whiteSpace (trimLeft whiteSpace s)

def decimals : Nat := 18

def quantaPerFRG : Nat := 10 ^ decimals

def digitsOnly (s : List UInt8) : Bool := s.all isDigit

/-- `new(big.Int).SetString(s, 10)`: a sign and at least one digit. -/
def setString (s : List UInt8) : Option Int :=
  let sign : Bool := s.head? = some 0x2D || s.head? = some 0x2B
  let digits := if sign then s.tail else s
  if digits = [] ∨ digitsOnly digits = false then none
  else if s.head? = some 0x2D then some (-(decimalValue digits : Int))
  else some (decimalValue digits)

/-- `ParseFRG` once the text is cut at its point. -/
def parseParts (whole frac : List UInt8) : Res Int :=
  if whole = [] ∧ frac = [] then .err (.plain "amount must be a decimal FRG value")
  else
    let whole := if whole = [] then [0x30] else whole
    if digitsOnly whole = false ∨ (frac ≠ [] ∧ digitsOnly frac = false) then
      .err (.plain "amount must be a decimal FRG value")
    else if decimals < frac.length then .err (.plain "amount has more than 18 decimal places")
    else
      match setString whole with
      | none => .err (.plain "amount must be a decimal FRG value")
      | some wholeInt =>
        let amount := wholeInt * quantaPerFRG
        if frac = [] then .ok amount
        else
          match setString (frac ++ List.replicate (decimals - frac.length) 0x30) with
          | none => .err (.plain "amount must be a decimal FRG value")
          | some fracInt => .ok (amount + fracInt)

/-- The text without one leading `+`. -/
def unsigned (s : List UInt8) : List UInt8 := if s.head? = some 0x2B then s.tail else s

def parseFRG (raw : List UInt8) : Res Int :=
  let raw := trimSpace raw
  if raw = [] then .err (.plain "amount is required")
  else if raw.head? = some 0x2D then .err (.plain "amount must be non-negative")
  else
    let parts := (unsigned raw).splitOn 0x2E
    if 2 < parts.length then .err (.plain "amount must be a decimal FRG value")
    else parseParts (parts.getD 0 []) (parts.getD 1 [])

def parseQuanta (raw : List UInt8) : Res Int :=
  let raw := trimSpace raw
  if raw = [] then .err (.plain "amount is required")
  else
    match setString raw with
    | none => .err (.plain "amount must be a non-negative base-10 quanta integer")
    | some amount =>
      if amount < 0 then .err (.plain "amount must be a non-negative base-10 quanta integer") else .ok amount

/-- `strings.TrimRight(s, "0")`. -/
def trimZeros (s : List UInt8) : List UInt8 := (s.reverse.dropWhile (· = 0x30)).reverse

def formatFRG (quanta : Option Int) : List UInt8 :=
  match quanta with
  | none => [0x30]
  | some quanta =>
    let sign : List UInt8 := if quanta < 0 then [0x2D] else []
    let value := quanta.natAbs
    let whole := value / quantaPerFRG
    let frac := value % quantaPerFRG
    if frac = 0 then sign ++ decimal whole
    else
      let fracStr := decimal frac
      let fracStr := List.replicate (decimals - fracStr.length) 0x30 ++ fracStr
      sign ++ decimal whole ++ 0x2E :: trimZeros fracStr

/-! ## White space -/

theorem whiteSpace_ne_nil : ∀ t ∈ whiteSpace, t ≠ [] := by decide

theorem whiteSpace_not_digit : ∀ t ∈ whiteSpace, ∀ b ∈ t, isDigit b = false := by
  have hall : (whiteSpace.all fun t => t.all fun b => !isDigit b) = true := by rfl
  intro t ht b hb
  have hb := List.all_eq_true.mp (List.all_eq_true.mp hall t ht) b hb
  simpa using hb

/-- White space is taken off both ends, and none is left there. -/
theorem trimSpace_spec (s : List UInt8) :
    (∃ before after : List (List UInt8), (∀ t ∈ before ++ after, t ∈ whiteSpace) ∧
      s = before.flatten ++ trimSpace s ++ after.flatten) ∧
    ∀ t ∈ whiteSpace, ¬ t <+: trimSpace s ∧ ¬ t <:+ trimSpace s := by
  have hrev : ∀ t ∈ whiteSpace.map List.reverse, t ≠ [] := by decide
  obtain ⟨⟨before, hb, hs⟩, hfront⟩ := strip_spec whiteSpace_ne_nil (Nat.le_refl s.length)
  obtain ⟨⟨after, ha, hr⟩, hnone⟩ := strip_spec hrev (Nat.le_refl (trimLeft whiteSpace s).reverse.length)
  have hr' : trimLeft whiteSpace s = trimSpace s ++ (after.map List.reverse).reverse.flatten := by
    have := congrArg List.reverse hr
    rw [List.reverse_reverse, List.reverse_append, List.reverse_flatten] at this
    exact this
  refine ⟨⟨before, (after.map List.reverse).reverse, ?_, ?_⟩, ?_⟩
  · intro t ht
    rcases List.mem_append.mp ht with ht | ht
    · exact hb t ht
    · obtain ⟨u, hu, rfl⟩ := List.mem_map.mp (List.mem_reverse.mp ht)
      obtain ⟨v, hv, rfl⟩ := List.mem_map.mp (ha u hu)
      rwa [List.reverse_reverse]
  · rw [List.append_assoc, ← hr']
    exact hs
  · intro t ht
    refine ⟨fun hpre => hfront t ht (hpre.trans ⟨_, hr'.symm⟩), fun hsuf => ?_⟩
    refine hnone t.reverse (List.mem_map_of_mem ht) ?_
    have hp : t.reverse <+: (trimSpace s).reverse := by simpa using hsuf
    unfold trimSpace trimRight at hp
    rw [List.reverse_reverse] at hp
    exact hp

theorem trimSpace_of_digits {s : List UInt8} (hhead : ∀ b, s.head? = some b → isDigit b = true)
    (hlast : ∀ b, s.getLast? = some b → isDigit b = true) : trimSpace s = s := by
  have hforeign : ∀ b, isDigit b = true → ∀ t ∈ whiteSpace, b ∉ t := by
    intro b hb t ht hbt
    rw [whiteSpace_not_digit t ht b hbt] at hb
    exact Bool.false_ne_true hb
  obtain ⟨hl, hr⟩ := trim_of_foreign whiteSpace_ne_nil (fun b hb => hforeign b (hhead b hb))
    (fun b hb => hforeign b (hlast b hb))
  unfold trimSpace
  rw [hl, hr]

/-! ## Digits -/

theorem digitsOnly_iff {s : List UInt8} : digitsOnly s = true ↔ ∀ b ∈ s, isDigit b = true := List.all_eq_true

theorem digitsOnly_append {s t : List UInt8} :
    digitsOnly (s ++ t) = true ↔ digitsOnly s = true ∧ digitsOnly t = true := by
  unfold digitsOnly
  rw [List.all_append, Bool.and_eq_true]

theorem digitsOnly_zeros (k : Nat) : digitsOnly (List.replicate k 0x30) = true := by
  rw [digitsOnly_iff]
  intro b hb
  rw [List.eq_of_mem_replicate hb]
  rfl

theorem head_of_digits {s : List UInt8} (h : digitsOnly s = true) {b : UInt8} (hb : isDigit b = false) :
    s.head? ≠ some b := by
  intro hs
  have := digitsOnly_iff.mp h b (List.mem_of_head? hs)
  rw [hb] at this
  exact Bool.false_ne_true this

theorem setString_digits {s : List UInt8} (hne : s ≠ []) (h : digitsOnly s = true) :
    setString s = some (decimalValue s : Int) := by
  have hminus : s.head? ≠ some 0x2D := head_of_digits h rfl
  have hplus : s.head? ≠ some 0x2B := head_of_digits h rfl
  unfold setString
  simp [hminus, hplus, hne, h]

/-- The decimal number that digits before and after a point stand for. -/
def decimalNumber (w f : List UInt8) : ℚ := decimalValue w + decimalValue f / 10 ^ f.length

/-- What the digits are worth in quanta, the fraction padded to 18 digits. -/
def quantaOf (w f : List UInt8) : Nat :=
  decimalValue w * quantaPerFRG + decimalValue (f ++ List.replicate (decimals - f.length) 0x30)

theorem quantaOf_eq {w f : List UInt8} (h : f.length ≤ decimals) :
    (quantaOf w f : ℚ) = decimalNumber w f * 10 ^ 18 := by
  have hpow : (10 : ℚ) ^ 18 = 10 ^ f.length * 10 ^ (decimals - f.length) := by
    rw [← pow_add, Nat.add_sub_cancel' h]
    rfl
  unfold quantaOf decimalNumber
  rw [decimalValue_append, decimalValue_zeros, List.length_replicate]
  push_cast
  have hq : ((quantaPerFRG : ℕ) : ℚ) = 10 ^ 18 := by
    unfold quantaPerFRG decimals
    norm_num
  rw [hq, hpow]
  field_simp
  ring

/-! ## Parsing -/

/-- The texts of an amount: digits `w`, a point and digits `f`; one side may be missing. -/
inductive AmountText : List UInt8 → List UInt8 → List UInt8 → Prop
  | whole {w : List UInt8} (hne : w ≠ []) (hw : digitsOnly w = true) : AmountText w w []
  | point {w f : List UInt8} (hne : w ≠ []) (hw : digitsOnly w = true) (hf : digitsOnly f = true)
      (hlen : f.length ≤ 18) : AmountText (w ++ 0x2E :: f) w f
  | bare {f : List UInt8} (hne : f ≠ []) (hf : digitsOnly f = true) (hlen : f.length ≤ 18) :
      AmountText (0x2E :: f) [] f

theorem whole_or_zero (whole : List UInt8) : let w : List UInt8 := if whole = [] then [0x30] else whole
    w ≠ [] ∧ digitsOnly w = digitsOnly whole ∧ decimalValue w = decimalValue whole := by
  by_cases h : whole = []
  · rw [h]
    exact ⟨List.cons_ne_nil _ _, rfl, rfl⟩
  · rw [if_neg h]
    exact ⟨h, rfl, rfl⟩

theorem parseParts_digits {whole frac : List UInt8} (hne : ¬ (whole = [] ∧ frac = [])) (hw : digitsOnly whole = true)
    (hf : digitsOnly frac = true) (hlen : frac.length ≤ decimals) :
    parseParts whole frac = .ok (quantaOf whole frac : Int) := by
  obtain ⟨hone, hdigits, hvalue⟩ := whole_or_zero whole
  have hgood : ¬ (digitsOnly whole = false ∨ (frac ≠ [] ∧ digitsOnly frac = false)) := by simp [hw, hf]
  have hpadded : digitsOnly (frac ++ List.replicate (decimals - frac.length) 0x30) = true :=
    digitsOnly_append.mpr ⟨hf, digitsOnly_zeros _⟩
  unfold parseParts quantaOf
  rw [if_neg hne]
  dsimp only
  rw [hdigits, if_neg hgood, if_neg (by omega), setString_digits hone (hdigits.trans hw), hvalue]
  dsimp only
  by_cases hnil : frac = []
  · rw [if_pos hnil, hnil, List.nil_append, decimalValue_zeros, Nat.add_zero, Int.natCast_mul]
  · rw [if_neg hnil, setString_digits (by simp [hnil]) hpadded, Int.natCast_add, Int.natCast_mul]

theorem parseParts_ok_iff {whole frac : List UInt8} {v : Int} :
    parseParts whole frac = .ok v ↔ ¬ (whole = [] ∧ frac = []) ∧ digitsOnly whole = true ∧
      digitsOnly frac = true ∧ frac.length ≤ decimals ∧ v = quantaOf whole frac := by
  constructor
  · intro h
    have hne : ¬ (whole = [] ∧ frac = []) := by
      intro hnil
      unfold parseParts at h
      rw [if_pos hnil] at h
      cases h
    have hgood : ¬ (digitsOnly whole = false ∨ (frac ≠ [] ∧ digitsOnly frac = false)) := by
      intro hbad
      unfold parseParts at h
      dsimp only at h
      rw [if_neg hne, (whole_or_zero whole).2.1, if_pos hbad] at h
      cases h
    have hlen : ¬ decimals < frac.length := by
      intro hlong
      unfold parseParts at h
      dsimp only at h
      rw [if_neg hne, (whole_or_zero whole).2.1, if_neg hgood, if_pos hlong] at h
      cases h
    have hw : digitsOnly whole = true := by
      rw [← Bool.not_eq_false]
      exact fun hw => hgood (Or.inl hw)
    have hf : digitsOnly frac = true := by
      by_cases hnil : frac = []
      · rw [hnil]
        rfl
      · rw [← Bool.not_eq_false]
        exact fun hf => hgood (Or.inr ⟨hnil, hf⟩)
    rw [parseParts_digits hne hw hf (by omega)] at h
    exact ⟨hne, hw, hf, by omega, (Go.ok.inj h).symm⟩
  · rintro ⟨hne, hw, hf, hlen, rfl⟩
    exact parseParts_digits hne hw hf hlen

theorem no_point {s : List UInt8} (h : digitsOnly s = true) : (0x2E : UInt8) ∉ s := by
  intro hs
  have hpoint := digitsOnly_iff.mp h _ hs
  cases hpoint

theorem splitOn_cases {s : List UInt8} (h : (s.splitOn 0x2E).length ≤ 2) :
    (s.splitOn 0x2E = [s]) ∨ ∃ w f, s.splitOn 0x2E = [w, f] ∧ s = w ++ 0x2E :: f := by
  have hjoin : [(0x2E : UInt8)].intercalate (s.splitOn 0x2E) = s := List.intercalate_splitOn _
  cases hparts : s.splitOn 0x2E with
  | nil => exact absurd hparts (List.splitOn_ne_nil _ _)
  | cons w rest =>
    rw [hparts] at h hjoin
    cases rest with
    | nil =>
      left
      rw [← hjoin]
      simp
    | cons f rest =>
      have hrest : rest = [] := List.eq_nil_of_length_eq_zero (by simp only [List.length_cons] at h; omega)
      right
      refine ⟨w, f, by rw [hrest], ?_⟩
      rw [← hjoin, hrest]
      simp [List.intercalate]

theorem AmountText.digits {s w f : List UInt8} (h : AmountText s w f) :
    ¬ (w = [] ∧ f = []) ∧ digitsOnly w = true ∧ digitsOnly f = true ∧ f.length ≤ decimals := by
  cases h with
  | whole hne hw => exact ⟨fun hnil => hne hnil.1, hw, rfl, Nat.zero_le _⟩
  | point hne hw hf hlen => exact ⟨fun hnil => hne hnil.1, hw, hf, hlen⟩
  | bare hne hf hlen => exact ⟨fun hnil => hne hnil.2, rfl, hf, hlen⟩

theorem AmountText.head {s w f : List UInt8} (h : AmountText s w f) :
    ∃ b, s.head? = some b ∧ (isDigit b = true ∨ b = 0x2E) := by
  have key : ∀ {u t : List UInt8}, u ≠ [] → digitsOnly u = true → ∃ b, (u ++ t).head? = some b ∧ isDigit b = true := by
    intro u t hne hu
    obtain ⟨b, u', rfl⟩ := List.exists_cons_of_ne_nil hne
    exact ⟨b, rfl, digitsOnly_iff.mp hu b List.mem_cons_self⟩
  cases h with
  | whole hne hw =>
    obtain ⟨b, hb, hdigit⟩ := key (t := []) hne hw
    rw [List.append_nil] at hb
    exact ⟨b, hb, Or.inl hdigit⟩
  | point hne hw hf hlen =>
    obtain ⟨b, hb, hdigit⟩ := key hne hw
    exact ⟨b, hb, Or.inl hdigit⟩
  | bare hne hf hlen => exact ⟨0x2E, rfl, Or.inr rfl⟩

theorem AmountText.parts {s w f : List UInt8} (h : AmountText s w f) :
    (s.splitOn 0x2E = [w] ∧ f = []) ∨ s.splitOn 0x2E = [w, f] := by
  have two : ∀ {w f : List UInt8}, digitsOnly w = true → digitsOnly f = true →
      (w ++ 0x2E :: f).splitOn 0x2E = [w, f] := by
    intro w f hw hf
    have hfree : ∀ l ∈ [w, f], (0x2E : UInt8) ∉ l := by
      intro l hl
      rcases List.mem_cons.mp hl with rfl | hl
      · exact no_point hw
      · rw [List.mem_singleton.mp hl]
        exact no_point hf
    have hsplit := List.splitOn_intercalate 0x2E hfree (List.cons_ne_nil _ _)
    simpa [List.intercalate] using hsplit
  cases h with
  | whole hne hw =>
    have hfree : ∀ l ∈ [s], (0x2E : UInt8) ∉ l := by
      intro l hl
      rw [List.mem_singleton.mp hl]
      exact no_point hw
    have hsplit := List.splitOn_intercalate 0x2E hfree (List.cons_ne_nil _ _)
    exact Or.inl ⟨by simpa using hsplit, rfl⟩
  | point hne hw hf hlen => exact Or.inr (two hw hf)
  | bare hne hf hlen => exact Or.inr (two (w := []) rfl hf)

theorem parse_amount {raw w f : List UInt8} (h : AmountText (unsigned (trimSpace raw)) w f) :
    parseFRG raw = .ok (quantaOf w f : Int) := by
  obtain ⟨b, hb, hplain⟩ := h.head
  obtain ⟨hnil, hw, hf, hlen⟩ := h.digits
  have hne : trimSpace raw ≠ [] := by
    intro h0
    rw [h0] at hb
    cases hb
  have hminus : (trimSpace raw).head? ≠ some 0x2D := by
    intro h0
    have hsame : unsigned (trimSpace raw) = trimSpace raw := if_neg (by rw [h0]; decide)
    rw [hsame, h0] at hb
    obtain rfl : 0x2D = b := Option.some.inj hb
    revert hplain
    decide
  have hparse := parseParts_digits hnil hw hf hlen
  unfold parseFRG
  dsimp only
  rw [if_neg hne, if_neg hminus]
  rcases h.parts with ⟨hone, rfl⟩ | htwo
  · rw [hone]
    exact hparse
  · rw [htwo]
    exact hparse

theorem amount_of_parse {raw : List UInt8} {v : Int} (h : parseFRG raw = .ok v) :
    ∃ w f, AmountText (unsigned (trimSpace raw)) w f ∧ f.length ≤ decimals ∧ v = quantaOf w f := by
  unfold parseFRG at h
  dsimp only at h
  split at h
  · cases h
  split at h
  · cases h
  split at h
  · cases h
  rename_i hparts
  obtain ⟨hne, hw, hf, hlen, hv⟩ := parseParts_ok_iff.mp h
  rcases splitOn_cases (Nat.not_lt.mp hparts) with hone | ⟨w, f, htwo, hs⟩
  · rw [hone] at hne hw hf hlen hv
    refine ⟨_, [], .whole (fun hnil => hne ⟨hnil, rfl⟩) hw, Nat.zero_le _, hv⟩
  · rw [htwo] at hne hw hf hlen hv
    refine ⟨w, f, ?_, hlen, hv⟩
    rw [hs]
    by_cases hnil : w = []
    · rw [hnil]
      exact .bare (fun hfnil => hne ⟨hnil, hfnil⟩) hf hlen
    · exact .point hnil hw hf hlen

theorem parseFRG_nonneg {raw : List UInt8} {v : Int} (h : parseFRG raw = .ok v) : 0 ≤ v := by
  obtain ⟨w, f, -, -, rfl⟩ := amount_of_parse h
  exact Int.natCast_nonneg _

theorem parseQuanta_nonneg {raw : List UInt8} {v : Int} (h : parseQuanta raw = .ok v) : 0 ≤ v := by
  unfold parseQuanta at h
  dsimp only at h
  split at h
  · cases h
  · split at h
    · cases h
    · split at h
      · cases h
      · rename_i hneg
        obtain rfl := Go.ok.inj h
        exact Int.not_lt.mp hneg

/-! ## Formatting -/

theorem trimZeros_append (s : List UInt8) : ∃ k, s = trimZeros s ++ List.replicate k 0x30 := by
  refine ⟨(s.reverse.takeWhile (· = 0x30)).length, ?_⟩
  have hzeros : s.reverse.takeWhile (· = 0x30) = List.replicate (s.reverse.takeWhile (· = 0x30)).length 0x30 := by
    rw [List.eq_replicate_iff]
    refine ⟨rfl, fun b hb => ?_⟩
    simpa using List.mem_takeWhile_imp hb
  have hcut := congrArg List.reverse (List.takeWhile_append_dropWhile (p := (· = (0x30 : UInt8))) (l := s.reverse))
  rw [List.reverse_append, List.reverse_reverse] at hcut
  rw [hzeros, List.reverse_replicate] at hcut
  exact hcut.symm

theorem fraction_digits {frac : Nat} (hpos : frac ≠ 0) (hlt : frac < quantaPerFRG) :
    let f := trimZeros (List.replicate (decimals - (decimal frac).length) 0x30 ++ decimal frac)
    f ≠ [] ∧ digitsOnly f = true ∧ f.length ≤ decimals ∧
      decimalValue (f ++ List.replicate (decimals - f.length) 0x30) = frac := by
  intro f
  have hlen : (decimal frac).length ≤ decimals := length_decimal_le (by decide) hlt
  have hpadded : (List.replicate (decimals - (decimal frac).length) 0x30 ++ decimal frac).length = decimals := by
    rw [List.length_append, List.length_replicate]
    omega
  have hdigits : digitsOnly (List.replicate (decimals - (decimal frac).length) 0x30 ++ decimal frac) = true :=
    digitsOnly_append.mpr ⟨digitsOnly_zeros _, digitsOnly_iff.mpr (decimal_isDigit frac)⟩
  have hvalue : decimalValue (List.replicate (decimals - (decimal frac).length) 0x30 ++ decimal frac) = frac := by
    rw [decimalValue_append, decimalValue_zeros, decimalValue_decimal]
    omega
  obtain ⟨k, hk⟩ := trimZeros_append (List.replicate (decimals - (decimal frac).length) 0x30 ++ decimal frac)
  rw [hk, List.length_append, List.length_replicate] at hpadded
  have hf : f.length + k = decimals := hpadded
  rw [hk] at hdigits hvalue
  have hsame : decimals - f.length = k := by omega
  rw [hsame]
  refine ⟨fun hnil => hpos ?_, (digitsOnly_append.mp hdigits).1, by omega, hvalue⟩
  have hnil : trimZeros (List.replicate (decimals - (decimal frac).length) 0x30 ++ decimal frac) = [] := hnil
  rw [hnil, List.nil_append, decimalValue_zeros] at hvalue
  exact hvalue.symm

/-- The text of an amount that is not negative: its shape, what its digits are worth, and that
    it starts and ends with a digit. -/
theorem format_amount (q : Nat) :
    ∃ w f, AmountText (formatFRG (some (q : Int))) w f ∧ quantaOf w f = q ∧
      (∀ b, (formatFRG (some (q : Int))).head? = some b → isDigit b = true) ∧
      ∀ b, (formatFRG (some (q : Int))).getLast? = some b → isDigit b = true := by
  have hsign : ¬ (q : Int) < 0 := by omega
  have hne := decimal_ne_nil (q / quantaPerFRG)
  have hw : digitsOnly (decimal (q / quantaPerFRG)) = true := digitsOnly_iff.mpr (decimal_isDigit _)
  have hhead : ∀ b, (decimal (q / quantaPerFRG)).head? = some b → isDigit b = true :=
    fun b hb => decimal_isDigit _ b (List.mem_of_head? hb)
  have hlast : ∀ {s : List UInt8}, digitsOnly s = true → ∀ b, s.getLast? = some b → isDigit b = true :=
    fun hs b hb => digitsOnly_iff.mp hs b (List.mem_of_getLast? hb)
  unfold formatFRG
  dsimp only
  rw [if_neg hsign, Int.natAbs_natCast, List.nil_append]
  by_cases hfrac : q % quantaPerFRG = 0
  · rw [if_pos hfrac]
    refine ⟨_, [], .whole hne hw, ?_, hhead, hlast hw⟩
    unfold quantaOf
    rw [List.nil_append, decimalValue_zeros, decimalValue_decimal, Nat.add_zero]
    exact Nat.div_mul_cancel (Nat.dvd_of_mod_eq_zero hfrac)
  · rw [if_neg hfrac]
    obtain ⟨hfne, hf, hlen, hvalue⟩ := fraction_digits hfrac (Nat.mod_lt _ (by decide))
    refine ⟨_, _, .point hne hw hf hlen, ?_, ?_, ?_⟩
    · unfold quantaOf
      rw [hvalue, decimalValue_decimal]
      exact Nat.div_add_mod' q quantaPerFRG
    · intro b hb
      rw [List.head?_append_of_ne_nil _ hne] at hb
      exact hhead b hb
    · intro b hb
      rw [List.getLast?_append_of_ne_nil _ (List.cons_ne_nil _ _), List.getLast?_cons_of_ne_nil hfne] at hb
      exact hlast hf b hb

theorem parse_format (q : Nat) : parseFRG (formatFRG (some (q : Int))) = .ok (q : Int) := by
  obtain ⟨w, f, h, hq, hhead, hlast⟩ := format_amount q
  have hplain : unsigned (formatFRG (some (q : Int))) = formatFRG (some (q : Int)) := by
    unfold unsigned
    rw [if_neg]
    intro hplus
    cases hhead _ hplus
  have htext : AmountText (unsigned (trimSpace (formatFRG (some (q : Int))))) w f := by
    rw [trimSpace_of_digits hhead hlast, hplain]
    exact h
  rw [parse_amount htext, hq]

/-- Amounts are read exactly: the texts that are taken are the decimal numbers with at most 18
    places, each gives its number times 10^18, and every amount is read back from its own text. -/
theorem parse_exact :
    (∀ raw, (∃ v, parseFRG raw = .ok v) ↔ ∃ w f, AmountText (unsigned (trimSpace raw)) w f) ∧
    (∀ raw v, parseFRG raw = .ok v ↔
      ∃ w f, AmountText (unsigned (trimSpace raw)) w f ∧ (v : ℚ) = decimalNumber w f * 10 ^ 18) ∧
    ∀ q : Nat, parseFRG (formatFRG (some (q : Int))) = .ok (q : Int) := by
  refine ⟨fun raw => ⟨?_, ?_⟩, fun raw v => ⟨?_, ?_⟩, fun q => ?_⟩
  · rintro ⟨v, hv⟩
    obtain ⟨w, f, h, -, -⟩ := amount_of_parse hv
    exact ⟨w, f, h⟩
  · rintro ⟨w, f, h⟩
    exact ⟨_, parse_amount h⟩
  · intro hv
    obtain ⟨w, f, h, hlen, rfl⟩ := amount_of_parse hv
    exact ⟨w, f, h, by rw [Int.cast_natCast, quantaOf_eq hlen]⟩
  · rintro ⟨w, f, h, hv⟩
    rw [← quantaOf_eq h.digits.2.2.2, ← Int.cast_natCast, Int.cast_inj] at hv
    rw [hv]
    exact parse_amount h
  · exact parse_format q

end Frg.Core
