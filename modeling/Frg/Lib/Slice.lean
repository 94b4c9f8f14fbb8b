/-
  Frg.Lib.Slice — bounds-checked reads of a byte string: a slice `data[a:b]`, one byte
  `data[i]`, and a big-endian number of `w` bytes read at the front of `data[pos:]`.

  A read past the end panics. Each read has one lemma for what it gives inside the
  bounds and one for when it panics.

  `Cursor data pos rest` says that `rest` is what `data` holds from `pos` on. A writer gives
  the first cursor, and a reader moves it on: each kind of read has a lemma for a cursor
  that stands before the bytes it reads, and one for what stood there when it succeeded.
-/

import Frg.Lib.Act
import Frg.Lib.Words

namespace Frg.Lib

variable {ε : Type}

def slice (data : List UInt8) (a b : Nat) : Go ε (List UInt8) :=
  if a ≤ b ∧ b ≤ data.length then .ok ((data.drop a).take (b - a)) else .panic "slice bounds out of range"

def byteAt (data : List UInt8) (i : Nat) : Go ε UInt8 :=
  match data[i]? with
  | some b => .ok b
  | none => .panic "index out of range"

def uintAt (w : Nat) (data : List UInt8) (pos : Nat) : Go ε Nat := do
  let rest ← slice data pos data.length
  if w ≤ rest.length then .ok (ofBE (rest.take w)) else .panic "index out of range"

/-- The number at the front of `data[a:b]`. -/
def uintIn (w : Nat) (data : List UInt8) (a b : Nat) : Go ε Nat := do
  let field ← slice data a b
  uintAt w field 0

/-- The number a `uintAt` inside the bounds reads. -/
def peek (w : Nat) (data : List UInt8) (pos : Nat) : Nat := ofBE ((data.drop pos).take w)

variable {data : List UInt8} {a b w pos : Nat}

theorem slice_ok (ha : a ≤ b) (hb : b ≤ data.length) : slice (ε := ε) data a b = .ok ((data.drop a).take (b - a)) :=
  if_pos ⟨ha, hb⟩

theorem slice_panics : (slice (ε := ε) data a b).panics = false ↔ a ≤ b ∧ b ≤ data.length := by
  unfold slice; split <;> simp_all

theorem byteAt_ok (h : a < data.length) : ∃ x, byteAt (ε := ε) data a = .ok x :=
  ⟨data[a], by simp [byteAt, h]⟩

theorem uintAt_ok (h : pos + w ≤ data.length) : uintAt (ε := ε) w data pos = .ok (peek w data pos) := by
  have hlen : w ≤ ((data.drop pos).take (data.length - pos)).length := by simp; omega
  rw [uintAt, slice_ok (by omega) le_rfl]
  simp only [Go.ok_bind, if_pos hlen, peek, List.take_take]
  rw [Nat.min_eq_left (by omega)]

theorem uintAt_panics (hp : pos ≤ data.length) :
    (uintAt (ε := ε) w data pos).panics = true ↔ data.length < pos + w := by
  rw [uintAt, slice_ok hp le_rfl]
  simp only [Go.ok_bind, List.length_take, List.length_drop]
  split <;> simp <;> omega

theorem uintIn_panics (ha : a + w ≤ b) (hb : b ≤ data.length) : (uintIn (ε := ε) w data a b).panics = false := by
  rw [uintIn, slice_ok (by omega) hb, Go.ok_bind, uintAt_ok (by simp; omega)]
  rfl

/-! ## Cursors -/

structure Cursor (data : List UInt8) (pos : Nat) (rest : List UInt8) : Prop where
  bound : pos ≤ data.length
  drop : data.drop pos = rest

namespace Cursor

variable {rest f : List UInt8} {k : Nat}

theorem start (h : data = rest) : Cursor data 0 rest := ⟨Nat.zero_le _, h⟩

theorem length (h : Cursor data pos rest) : data.length = pos + rest.length := by
  have hb := h.bound
  rw [← h.drop, List.length_drop]
  omega

theorem next (h : Cursor data pos (f ++ rest)) : Cursor data (pos + f.length) rest := by
  have hlen := h.length
  rw [List.length_append] at hlen
  refine ⟨by omega, ?_⟩
  rw [← List.drop_drop, h.drop, List.drop_left]

theorem take (h : Cursor data pos (f ++ rest)) (hf : f.length = w) : (data.drop pos).take w = f := by
  rw [h.drop, ← hf, List.take_left]

theorem skip (h : Cursor data pos (f ++ rest)) (hf : f.length = w) : Cursor data (pos + w) rest := hf ▸ h.next

theorem slice (h : Cursor data pos (f ++ rest)) (hf : pos + f.length = b) : slice (ε := ε) data pos b = .ok f := by
  have hlen := h.length
  rw [List.length_append] at hlen
  rw [slice_ok (by omega) (by omega), h.take (by omega)]

theorem peek (h : Cursor data pos (toBE w k ++ rest)) (hk : k < 256 ^ w) : peek w data pos = k := by
  unfold Lib.peek
  rw [h.take (length_toBE w k), ofBE_toBE w k hk]

theorem uintAt (h : Cursor data pos (toBE w k ++ rest)) (hk : k < 256 ^ w) : uintAt (ε := ε) w data pos = .ok k := by
  have hlen := h.length
  rw [List.length_append, length_toBE] at hlen
  rw [uintAt_ok (by omega), h.peek hk]

theorem uintIn (h : Cursor data pos (toBE w k ++ rest)) (hk : k < 256 ^ w) (hb : pos + w = b) :
    uintIn (ε := ε) w data pos b = .ok k := by
  rw [Lib.uintIn, h.slice (by rw [length_toBE]; exact hb), Go.ok_bind]
  exact (start (List.append_nil _).symm).uintAt hk

theorem byteAt {x : UInt8} (h : Cursor data pos (x :: rest)) : byteAt (ε := ε) data pos = .ok x := by
  have hx : data[pos]? = some x := by rw [← List.head?_drop, h.drop, List.head?_cons]
  rw [Lib.byteAt, hx]

/-! ### Reads that succeeded -/

theorem slice_read (h : Cursor data pos rest) (hs : Lib.slice (ε := ε) data pos b = .ok f) :
    ∃ rest', rest = f ++ rest' ∧ pos + f.length = b ∧ Cursor data b rest' := by
  unfold Lib.slice at hs
  split at hs
  · rename_i hab
    obtain rfl := Go.ok.inj hs
    rw [h.drop]
    have hlen := h.length
    have hpos : pos + (rest.take (b - pos)).length = b := by
      rw [List.length_take]
      omega
    have hsplit := (List.take_append_drop (b - pos) rest).symm
    refine ⟨rest.drop (b - pos), hsplit, hpos, ?_⟩
    have hnext := (hsplit ▸ h).next
    rwa [hpos] at hnext
  · cases hs

theorem uintAt_read (h : Cursor data pos rest) (hs : Lib.uintAt (ε := ε) w data pos = .ok k) :
    ∃ rest', rest = toBE w k ++ rest' ∧ k < 256 ^ w ∧ Cursor data (pos + w) rest' := by
  unfold Lib.uintAt at hs
  obtain ⟨tail, htail, hs⟩ := Go.bind_eq_ok.mp hs
  obtain ⟨rest', hrest, hend, -⟩ := h.slice_read htail
  have hlen := h.length
  have hnil : rest' = [] := by
    rw [hrest, List.length_append] at hlen
    exact List.length_eq_zero_iff.mp (by omega)
  rw [hnil, List.append_nil] at hrest
  subst hrest
  split at hs
  · rename_i hw
    obtain rfl := Go.ok.inj hs
    have hfield : (rest.take w).length = w := by
      rw [List.length_take]
      omega
    have hback : toBE w (ofBE (rest.take w)) = rest.take w := by
      have hround := toBE_ofBE (rest.take w)
      rwa [hfield] at hround
    have hlt := ofBE_lt (rest.take w)
    rw [hfield] at hlt
    have hsplit := (List.take_append_drop w rest).symm
    refine ⟨rest.drop w, by rw [hback]; exact hsplit, hlt, ?_⟩
    have hskip : Cursor data pos (rest.take w ++ rest.drop w) := hsplit ▸ h
    exact hskip.skip hfield
  · cases hs

theorem uintIn_read (h : Cursor data pos rest) (hs : Lib.uintIn (ε := ε) w data pos b = .ok k) (hb : pos + w = b) :
    ∃ rest', rest = toBE w k ++ rest' ∧ k < 256 ^ w ∧ Cursor data b rest' := by
  obtain ⟨field, hfield, hs⟩ := Go.bind_eq_ok.mp hs
  obtain ⟨rest', hrest, hlen, hnext⟩ := h.slice_read hfield
  obtain ⟨tail, hk, hlt, -⟩ := (start rfl).uintAt_read hs
  have hnil : tail = [] := by
    rw [hk, List.length_append, length_toBE] at hlen
    exact List.length_eq_zero_iff.mp (by omega)
  rw [hnil, List.append_nil] at hk
  exact ⟨rest', hk ▸ hrest, hlt, hnext⟩

theorem byteAt_read {x : UInt8} (h : Cursor data pos rest) (hs : Lib.byteAt (ε := ε) data pos = .ok x) :
    ∃ rest', rest = x :: rest' ∧ Cursor data (pos + 1) rest' := by
  unfold Lib.byteAt at hs
  have hhead : data[pos]? = rest.head? := by rw [← List.head?_drop, h.drop]
  rw [hhead] at hs
  cases rest with
  | nil => cases hs
  | cons y rest =>
    obtain rfl := Go.ok.inj hs
    have hcons : Cursor data pos ([y] ++ rest) := h
    exact ⟨rest, rfl, hcons.skip rfl⟩

end Cursor

end Frg.Lib
