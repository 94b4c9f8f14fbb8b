/-
  Frg.Contract.State — a contract's key-value state (`core/contract/state.go`): `Get`,
  `Set`, the state root, and the stored encoding with its decoder.

  The map is kept in key order, the order `StateRoot` and `Serialize` sort it into.
-/

import Frg.Core.Prim
import Frg.Lib.Bucket

namespace Frg.Contract

open Frg.Lib Frg.Core

def maxStateKeyLen : Nat := 32
def maxStateValLen : Nat := 65536

abbrev StateStore := Bucket (List UInt8) (List UInt8)

/-- An empty value deletes the key. -/
def StateStore.set (s : StateStore) (key value : List UInt8) : Res StateStore := do
  Go.check (key.length ≠ 0 ∧ key.length ≤ maxStateKeyLen)
    (.plain s!"contract state key length {key.length} exceeds bounds [1,{maxStateKeyLen}]")
  Go.check (value.length ≤ maxStateValLen)
    (.plain s!"contract state value length {value.length} exceeds max {maxStateValLen}")
  return if value = [] then s.delete key else s.put key value

def StateStore.stateRoot (P : Prim) (s : StateStore) : Hash :=
  P.hash (domainContractState ++ s.entries.flatMap fun (k, v) => k ++ v)

/-- Key count, then for each key its length, bytes, value length and value. `none` when a
    key or a value is out of bounds. -/
def StateStore.serialize (s : StateStore) : Option (List UInt8) :=
  if s.entries.all fun (k, v) => k.length ≠ 0 && k.length ≤ maxStateKeyLen && v.length ≤ maxStateValLen then
    some (u16 s.entries.length ++ s.entries.flatMap fun (k, v) => toBE 1 k.length ++ k ++ u16 v.length ++ v)
  else none

/-- At most `n` entries; the first malformed one ends the loop. -/
def readEntries : Nat → List UInt8 → StateStore → StateStore
  | 0, _, s => s
  | _ + 1, [], s => s
  | n + 1, b :: raw, s =>
    if b = 0 ∨ maxStateKeyLen < b.toNat ∨ raw.length < b.toNat then s
    else
      let key := raw.take b.toNat
      let raw := raw.drop b.toNat
      if raw.length < 2 then s
      else
        let valLen := ofBE (raw.take 2)
        let raw := raw.drop 2
        if raw.length < valLen then s else readEntries n (raw.drop valLen) (s.put key (raw.take valLen))

def deserializeState (raw : List UInt8) : StateStore :=
  if raw.length < 2 then .empty else readEntries (ofBE (raw.take 2)) (raw.drop 2) .empty

end Frg.Contract
