/-
  Frg.Chain.Genesis — `genesis.Apply` (`core/genesis/genesis.go`): seed the balances,
  record their sum as the total supply, bond the validators, all in one transaction.

  An entry keeps its text and what the text decodes to (a 32-byte hexadecimal key, a
  decimal number), which is absent when it does not. An account listed twice keeps its
  last amount, in the ledger and in the sum.

  A run begins with a genesis. `Reached` are its states; `Traced` also keeps what its blocks
  did, oldest first, and `TracedFrom` does from any state.
-/

import Frg.Chain.Apply
import Frg.Lib.Run

namespace Frg.Chain

open Frg.Lib Frg.Core Relation

structure GenesisEntry where
  keyText : String
  key : Option Key
  amountText : String
  amount : Option Int
  deriving DecidableEq, Repr

structure Genesis where
  validators : List GenesisEntry
  balances : List GenesisEntry
  deriving DecidableEq, Repr

def decodeKey (e : GenesisEntry) (label : String) : Res Key :=
  match e.key with
  | some k => .ok k
  | none => .err (.plain s!"invalid {label}: expected 32-byte hex")

def decodeAmount (e : GenesisEntry) (label : String) : Res Int :=
  match e.amount with
  | some v => .ok v
  | none => .err (.plain s!"invalid {label} string {e.amountText}")

/-- Seed one account; `seen` is the map of the amounts so far. -/
def seedEntry (seen : Bucket Key Int) (e : GenesisEntry) : M (Bucket Key Int) := do
  let addr ← Act.lift (decodeKey e "account")
  let amt ← Act.lift (decodeAmount e "amount")
  Act.mapErr (.context s!"seed balance for {e.keyText}") (seedTx addr amt)
  return seen.put addr amt

variable (P : Prim)

def bondEntry (e : GenesisEntry) : M Unit := do
  let pub ← Act.lift (decodeKey e "validator pubkey")
  let amt ← Act.lift (decodeAmount e "bond")
  Act.mapErr (.context s!"bond validator {e.keyText}") (bondTx P pub (some amt) 0)

def genesisTx (g : Genesis) : M Unit := do
  let seeded ← g.balances.foldlM seedEntry .empty
  Act.mapErr (.context "set genesis total supply") (setTotalSupplyTx (seeded.sumBy id))
  g.validators.forM (bondEntry P)
  Act.write fun db => { db with genesisApplied := true }

/-- `genesis.Apply`: a no-op on a database that has a genesis or a block. -/
def applyGenesis (db : DB) (g : Genesis) : Res Unit × DB :=
  if db.genesisApplied ∨ 0 < db.height then (.ok (), db)
  else
    match genesisTx P g db with
    | (.ok _, db') => (.ok (), db')
    | (.err e, _) => (.err e, db)
    | (.panic w, _) => (.panic w, db)

/-! ## Runs -/

/-- The states of a genesis on an empty database that `G` holds of. -/
def Founded (W : World) (G : DB → Prop) (db : DB) : Prop := ∃ g, applyGenesis W.toPrim DB.new g = (.ok (), db) ∧ G db

/-- A block that was accepted, and its result. -/
structure AcceptedBlock where
  block : Block
  chainID : List UInt8
  result : Result

/-- The block is accepted in some order of its contracts, and `C` holds of it. -/
def Accepts (W : World) (C : DB → Block → List UInt8 → DB → Prop) (pre : DB) (a : AcceptedBlock) (post : DB) : Prop :=
  (∃ order, applyBlockForChain W order pre a.block a.chainID = (.ok a.result, post)) ∧ C pre a.block a.chainID post

/-- The states reached from a genesis by accepted blocks: `G` holds of the genesis state and `C`
    of each block with the states before and after it. -/
def Reached (W : World) (G : DB → Prop) (C : DB → Block → List UInt8 → DB → Prop) (db : DB) : Prop :=
  ∃ db₀, Founded W G db₀ ∧ ReflTransGen (fun pre post => ∃ a, Accepts W C pre a post) db₀ db

/-- Runs of accepted blocks from the states of `I`, with what `f` reads off each block, oldest first. -/
def TracedFrom {α : Type} (W : World) (I : DB → Prop) (C : DB → Block → List UInt8 → DB → Prop)
    (f : DB → Block → List UInt8 → List α) : List α → DB → Prop :=
  Recorded I (Accepts W C) [] fun trace pre a => trace ++ f pre a.block a.chainID

def Traced {α : Type} (W : World) (G : DB → Prop) (C : DB → Block → List UInt8 → DB → Prop)
    (f : DB → Block → List UInt8 → List α) : List α → DB → Prop := TracedFrom W (Founded W G) C f

theorem TracedFrom.block {α : Type} {W : World} {I : DB → Prop} {C : DB → Block → List UInt8 → DB → Prop}
    {f : DB → Block → List UInt8 → List α} {trace : List α} {order : MapOrder} {pre post : DB} {b : Block}
    {chainID : List UInt8} {r : Result} (h : TracedFrom W I C f trace pre)
    (happ : applyBlockForChain W order pre b chainID = (.ok r, post)) (hC : C pre b chainID post) :
    TracedFrom W I C f (trace ++ f pre b chainID) post := by
  have hs : Accepts W C pre ⟨b, chainID, r⟩ post := ⟨⟨order, happ⟩, hC⟩
  exact Recorded.step h hs

/-- The events of a block. -/
def newEvents (pre post : DB) : List Event := post.journal.take (post.journal.length - pre.journal.length)

theorem newEvents_eq {pre post : DB} {new : List Event} (h : post.journal = new ++ pre.journal) :
    newEvents pre post = new := by
  unfold newEvents
  rw [h, List.length_append, Nat.add_sub_cancel, List.take_left]

theorem applyGenesis_new {P : Prim} {g : Genesis} {db : DB} (h : applyGenesis P DB.new g = (.ok (), db)) :
    genesisTx P g DB.new = (.ok (), db) := by
  unfold applyGenesis at h
  rw [if_neg (by decide)] at h
  split at h
  · rename_i hg
    cases h
    exact hg
  · cases h
  · cases h

/-- One more block on the default chain, if it is accepted. -/
def traceStep {α : Type} (f : DB → Block → List UInt8 → List α) (s : List α × DB) (b : Block) :
    Option (List α × DB) :=
  let r := applyBlockForChain World.sample .id s.2 b []
  if r.1.isOk then some (s.1 ++ f s.2 b [], r.2) else none

section

variable {α : Type} {I : DB → Prop} {C : DB → Block → List UInt8 → DB → Prop} {f : DB → Block → List UInt8 → List α}
  {blocks : List Block} {s : List α × DB}

theorem TracedFrom.further {x : List α × DB} (h₀ : TracedFrom World.sample I C f x.1 x.2)
    (hC : ∀ b ∈ blocks, ∀ pre post, C pre b [] post)
    (h : blocks.foldlM (traceStep f) x = some s) : TracedFrom World.sample I C f s.1 s.2 := by
  refine foldlM_keeps (I := fun s => TracedFrom World.sample I C f s.1 s.2) (fun x b hb y hx hstep => ?_) h h₀
  unfold traceStep at hstep
  dsimp only at hstep
  split at hstep
  · rename_i hok
    obtain ⟨r, hr⟩ := Go.run_eq hok
    obtain rfl := Option.some.inj hstep
    exact hx.block hr (hC b hb _ _)
  · cases hstep

theorem TracedFrom.computed {db₀ : DB} (h₀ : I db₀) (hC : ∀ b ∈ blocks, ∀ pre post, C pre b [] post)
    (h : blocks.foldlM (traceStep f) ([], db₀) = some s) : TracedFrom World.sample I C f s.1 s.2 :=
  .further (x := ([], db₀)) (.start h₀) hC h

end

end Frg.Chain
