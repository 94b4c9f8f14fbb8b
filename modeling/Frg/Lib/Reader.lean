/-
  Frg.Lib.Reader — a reader over bytes that is moved by what it reads (`bytes.Reader`, with
  `binary.Read` for the numbers). The state is what is left to read.

  `Read` into a slice is not a read of all of it: at the end of the data it fails, even for a
  slice without room, and before the end it takes what there is and leaves the rest of the
  slice as it was. `io.ReadFull` reads all of it or fails. Each reader has one lemma for what it
  gives on bytes that were written.
-/

import Frg.Lib.Act
import Frg.Lib.Words

namespace Frg.Lib

inductive ReadErr where
  | eof
  | unexpectedEof
  deriving DecidableEq, Repr

def ReadErr.text : ReadErr → String
  | .eof => "EOF"
  | .unexpectedEof => "unexpected EOF"

namespace Reader

variable {ε α β : Type} (fault : ReadErr → ε)

/-- `Read` into `n` zero bytes. -/
def read (n : Nat) : Act ε (List UInt8) (List UInt8) := fun rest =>
  if rest = [] then (.err (fault .eof), rest)
  else (.ok (rest.take n ++ List.replicate (n - rest.length) 0), rest.drop n)

def readByte : Act ε (List UInt8) UInt8 := fun rest =>
  match rest with
  | [] => (.err (fault .eof), [])
  | b :: rest => (.ok b, rest)

/-- `binary.Read` of an unsigned number of `w` bytes. -/
def readUint (w : Nat) : Act ε (List UInt8) Nat := fun rest =>
  if w ≤ rest.length then (.ok (ofBE (rest.take w)), rest.drop w)
  else (.err (fault (if rest = [] then .eof else .unexpectedEof)), [])

/-- `io.ReadFull` into `n` bytes. -/
def readFull (n : Nat) : Act ε (List UInt8) (List UInt8) := fun rest =>
  if n ≤ rest.length then (.ok (rest.take n), rest.drop n)
  else (.err (fault (if rest = [] then .eof else .unexpectedEof)), [])

/-- The number of bytes left. -/
def len : Act ε (List UInt8) Nat := Act.read List.length

variable {fault} {rest f : List UInt8} {n : Nat}

theorem read_append (hf : f.length = n) (hne : 0 < n ∨ rest ≠ []) : read fault n (f ++ rest) = (.ok f, rest) := by
  have hsome : f ++ rest ≠ [] := by
    intro hnil
    obtain ⟨rfl, rfl⟩ := List.append_eq_nil_iff.mp hnil
    rcases hne with hpos | hrest
    · rw [← hf] at hpos
      exact Nat.lt_irrefl 0 hpos
    · exact hrest rfl
  have hpad : n - (f ++ rest).length = 0 := by
    rw [List.length_append]
    omega
  unfold read
  rw [if_neg hsome, hpad, ← hf, List.take_left, List.drop_left, List.replicate_zero, List.append_nil]

theorem readByte_cons (b : UInt8) : readByte fault (b :: rest) = (.ok b, rest) := rfl

theorem readUint_toBE {w k : Nat} (hk : k < 256 ^ w) : readUint fault w (toBE w k ++ rest) = (.ok k, rest) := by
  have hlen : w ≤ (toBE w k ++ rest).length := by
    rw [List.length_append, length_toBE]
    omega
  have htake : (toBE w k ++ rest).take w = toBE w k := List.take_left' (length_toBE w k)
  have hdrop : (toBE w k ++ rest).drop w = rest := List.drop_left' (length_toBE w k)
  unfold readUint
  rw [if_pos hlen, htake, hdrop, ofBE_toBE w k hk]

theorem readFull_append (hf : f.length = n) : readFull fault n (f ++ rest) = (.ok f, rest) := by
  have hlen : n ≤ (f ++ rest).length := by
    rw [List.length_append]
    omega
  unfold readFull
  rw [if_pos hlen, List.take_left' hf, List.drop_left' hf]

theorem readFull_take {m : Nat} (hf : f.length = n) (hm : n ≤ m) :
    readFull fault n ((f ++ rest).take m) = (.ok f, rest.take (m - n)) := by
  have hsplit : (f ++ rest).take m = f ++ rest.take (m - n) := by
    rw [List.take_append, hf, List.take_of_length_le (by omega)]
  rw [hsplit, readFull_append hf]

theorem readFull_short {m : Nat} (hm : m < n) : ∃ e, readFull fault n (rest.take m) = (.err e, []) := by
  have hlen : ¬ n ≤ (rest.take m).length := by
    rw [List.length_take]
    omega
  unfold readFull
  rw [if_neg hlen]
  exact ⟨_, rfl⟩

end Reader

end Frg.Lib
