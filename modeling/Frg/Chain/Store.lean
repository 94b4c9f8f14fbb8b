/-
  Frg.Chain.Store — the bbolt database the chain state lives in: one field for each
  bucket the modelled code writes, and one for each key of the `meta` bucket it reads.

  `journal` is ghost state, newest event first: every write to a balance, a nonce or a
  miss counter leaves one event, and nothing reads it back. `net` adds up what the
  events did to the balances.
-/

import Frg.Core.Prim
import Frg.Lib.Bucket

namespace Frg.Chain

open Frg.Lib Frg.Core

inductive BondState where
  | bonded
  | unbonding
  deriving DecidableEq, Repr

/-- `staking.record`. -/
structure Record where
  state : BondState
  bondedAmount : Nat
  bondedAtBlock : UInt64
  unbondingAtBlock : UInt64
  missCount : UInt64
  deriving DecidableEq, Repr

/-- A base fee. Every write of it comes from `gas.BaseFee`, which never goes below one. -/
structure Fee where
  val : Nat
  pos : 1 ≤ val
  deriving DecidableEq, Repr

inductive Event where
  | seeded (a : Key) (old new : Int)
  | debited (source target : Key) (amount : Int)
  | credited (source target : Key) (amount : Int)
  | burned (a : Key) (amount : Int)
  | minted (a : Key) (amount : Int)
  | nonce (a : Key) (n : UInt64)
  | miss (v : Key)
  deriving DecidableEq, Repr

structure DB where
  balances : Bucket Key (Word 32)
  nonces : Bucket Key UInt64
  validators : Bucket Key Record
  contractBytecode : Bucket Key (List UInt8)
  contractState : Bucket Key (List UInt8)
  blocks : Bucket (Word 8) (List UInt8)
  height : UInt64
  stateRoot : Hash
  baseFee : Option Fee
  totalSupply : Option Nat
  genesisApplied : Bool
  journal : List Event
  deriving DecidableEq

/-- The ledger, staking and contract stores. -/
structure Stores where
  balances : Bucket Key (Word 32)
  nonces : Bucket Key UInt64
  validators : Bucket Key Record
  contractBytecode : Bucket Key (List UInt8)
  contractState : Bucket Key (List UInt8)
  deriving DecidableEq

def DB.stores (db : DB) : Stores :=
  ⟨db.balances, db.nonces, db.validators, db.contractBytecode, db.contractState⟩

/-- A fresh database after `ledger.New`, `staking.New` and `statemachine.New`, which
    stores an empty total supply. -/
def DB.new : DB :=
  { balances := .empty, nonces := .empty, validators := .empty, contractBytecode := .empty, contractState := .empty
    blocks := .empty, height := 0, stateRoot := 0, baseFee := none, totalSupply := some 0, genesisApplied := false
    journal := [] }

/-- Code that runs inside a bolt transaction. -/
abbrev M := Act Err DB

def DB.logged (db : DB) (e : Event) : DB := { db with journal := e :: db.journal }

def log (e : Event) : M Unit := Act.write fun db => db.logged e

/-- The sum of all balances. -/
def DB.supply (db : DB) : Int := db.balances.sumBy fun w => (w.val : Int)

/-- What one event did to the sum of balances. The credit of a move from an account to
    itself writes over its debit, with a balance read before it. -/
def Event.net : Event → Int
  | .seeded _ old new => new - old
  | .debited _ _ n => -n
  | .credited source target n => if source = target then 2 * n else n
  | .burned _ n => -n
  | .minted _ n => n
  | .nonce _ _ => 0
  | .miss _ => 0

def net (l : List Event) : Int := (l.map Event.net).sum

@[simp] theorem net_nil : net [] = 0 := rfl

@[simp] theorem net_cons (e : Event) (l : List Event) : net (e :: l) = e.net + net l := by simp [net]

/-- The journal accounts for the balances. -/
def Accounted (db : DB) : Prop := db.supply = net db.journal

theorem accounted_new : Accounted DB.new := rfl

end Frg.Chain
