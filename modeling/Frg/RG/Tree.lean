/-
  Frg.RG.Tree — the RG state tree (`core/node/node.go`, `core/tree/tree.go`): node
  serialisation and signatures, the null padding, one coarse-graining step with its
  checks, and `BuildTree`.

  Scales are the powers of four up to 65536, so `coarsen` needs at most nine rounds
  (`coarsen_fuel`). A node's root covers its scale, volume, variance, signature and
  children, not its counts.
-/

import Frg.Wire.Tx

namespace Frg.RG

open Frg.Lib Frg.Core Frg.Wire

def K : Nat := 4
def tMax : Nat := 65536

inductive Signature where
  | atomic
  | nullPad
  | stagnantState
  | laminarFlow
  | volatileShock
  | contract
  deriving DecidableEq, Repr

def Signature.byte : Signature → UInt8
  | .atomic => 1
  | .nullPad => 2
  | .stagnantState => 3
  | .laminarFlow => 4
  | .volatileShock => 5
  | .contract => 6

structure RGNode where
  scale : Nat
  volume : Word 32
  variance : Word 32
  sig : Signature
  children : List Hash
  sumSquares : Word 32
  count : Nat
  contractCount : Nat
  deriving DecidableEq, Repr

/-- The level of a valid scale: `4 ^ level`, up to level 8. -/
def levelOf (scale : Nat) : Option Nat := (List.range 9).find? fun l => 4 ^ l = scale

def validScale (scale : Nat) : Bool := (levelOf scale).isSome

/-- `Uint256ToBytes`: copies into a 32-byte array from a negative index when the number is
    longer. -/
def uint256ToBytes (v : Nat) : Res (Word 32) :=
  if h : v < 256 ^ 32 then .ok ⟨v, h⟩ else .panic "slice bounds out of range"

variable (P : Prim)

def nullPadChildRoot : Hash := P.hash domainNullPad
def emptyBlockChildRoot : Hash := P.hash domainEmptyBlock

/-- The bytes a node's root is the hash of. -/
def RGNode.bytes (n : RGNode) : List UInt8 :=
  domainRGNode ++ u32 n.scale ++ n.volume.bytes ++ n.variance.bytes ++ [n.sig.byte] ++ u16 n.children.length ++
    n.children.flatMap Word.bytes

/-- `Serialize`. The two range tests of 32-byte numbers cannot fail. -/
def RGNode.serialize (n : RGNode) : Res (List UInt8) := do
  Go.check (validScale n.scale) (.rg .scaleDomainFault s!"invalid scale {n.scale}")
  let expectedChildren := if n.scale = 1 then 1 else 4
  Go.check (n.children.length = expectedChildren)
    (.rg .invalidChildArity s!"expected {expectedChildren} children, got {n.children.length}")
  return n.bytes

def RGNode.root (n : RGNode) : Res Hash := do
  let serialized ← n.serialize
  return P.hash serialized

/-- The canonical padding node of a level. Its child's root cannot fail. -/
def nullNodeAt : Nat → RGNode
  | 0 =>
    { scale := 1, volume := 0, variance := 0, sig := .nullPad, children := [nullPadChildRoot P], sumSquares := 0
      count := 0, contractCount := 0 }
  | l + 1 =>
    { scale := 4 ^ (l + 1), volume := 0, variance := 0, sig := .nullPad
      children := List.replicate 4 (P.hash (nullNodeAt l).bytes), sumSquares := 0, count := 0, contractCount := 0 }

def nullNode (scale : Nat) : Res RGNode :=
  match levelOf scale with
  | some l => .ok (nullNodeAt P l)
  | none => .err (.rg .scaleDomainFault s!"invalid scale {scale}")

def emptyBlockRoot : Hash :=
  P.hash (RGNode.bytes
    { scale := 1, volume := 0, variance := 0, sig := .stagnantState, children := [emptyBlockChildRoot P]
      sumSquares := 0, count := 0, contractCount := 0 })

def isNullPadNode (n : RGNode) : Bool :=
  n.children ≠ [] && n.volume = 0 && n.variance = 0 && n.count = 0 &&
    if n.scale = 1 then n.children = [nullPadChildRoot P]
    else match nullNode P (n.scale / 4) with
      | .ok childNull => n.children.all fun ch => ch = P.hash childNull.bytes
      | _ => false

def isEmptyBlockNode (n : RGNode) : Bool :=
  n.children = [emptyBlockChildRoot P] && n.volume = 0 && n.variance = 0

def deriveSignature (n : RGNode) : Signature :=
  if isNullPadNode P n then .nullPad
  else if n.scale = 1 then
    if isEmptyBlockNode P n then .stagnantState else .atomic
  else if n.volume = 0 ∧ n.variance = 0 then .stagnantState
  else if n.contractCount = n.count ∧ 0 < n.count ∧ n.volume ≠ 0 then .contract
  else if n.variance = 0 then .laminarFlow
  else if 0 < n.count ∧ (n.volume.val / n.count) ^ 2 * 4 < n.variance.val then .volatileShock
  else .laminarFlow

/-! ## Coarse-graining -/

structure Sums where
  values : Nat
  squares : Nat
  count : Nat
  contractCount : Nat
  children : List Hash

def addChild (s : Sums) (child : RGNode) : Res Sums := do
  let childRoot ← child.root P
  let values := s.values + child.volume.val
  Go.check (values < 256 ^ 32) (.rg .arithmeticOverflow "sumValues overflow")
  let squares := s.squares + child.sumSquares.val
  Go.check (squares < 256 ^ 32) (.rg .arithmeticOverflow "sumSquares overflow")
  return { values, squares, count := s.count + child.count, contractCount := s.contractCount + child.contractCount
           children := s.children ++ [childRoot] }

/-- The mean of the squares less the square of the mean, not below zero. -/
def varianceOf (s : Sums) : Nat := if 0 < s.count then s.squares / s.count - (s.values / s.count) ^ 2 else 0

def coarseGrain (chunk : List RGNode) (parentScale : Nat) : Res RGNode := do
  let s ← chunk.foldlM (addChild P) ⟨0, 0, 0, 0, []⟩
  let volume ← uint256ToBytes s.values
  let variance ← uint256ToBytes (varianceOf s)
  let sumSquares ← uint256ToBytes s.squares
  let parent : RGNode :=
    { scale := parentScale, volume, variance, sig := .atomic, children := s.children, sumSquares, count := s.count
      contractCount := s.contractCount }
  let parent := { parent with sig := deriveSignature P parent }
  Go.check (deriveSignature P parent = parent.sig)
    (.rg .signatureMisrepresentation
      s!"declared sig {parent.sig.byte.toNat}, recomputed {(deriveSignature P parent).byte.toNat}")
  return parent

/-- One bit for each slot behind the chunk's nodes. -/
def paddingMask (len : Nat) : Nat := (List.range (K - len)).foldl (fun m p => m ||| 1 <<< (len + p)) 0

def checkPadding (scale mask : Nat) (chunk : List RGNode) (slot : Nat) : Res Unit :=
  if mask.testBit slot then do
    let expectedNull ← nullNode P scale
    let expectedRoot ← expectedNull.root P
    match chunk[slot]? with
    | none => .panic "index out of range"
    | some n =>
      let actualRoot ← n.root P
      Go.check (actualRoot = expectedRoot)
        (.rg .paddingSubstitutionFraud "masked child is not canonical NULL_Λ")
  else return ()

/-- One parent of `coarsenLayer`, from at most four nodes of a layer of scale `scale`. -/
def coarsenChunk (scale : Nat) (chunk : List RGNode) : Res RGNode := do
  let needPad := K - chunk.length
  let mask := paddingMask chunk.length
  Go.check (mask < 2 ^ K) (.rg .maskOutOfBounds s!"padding_mask {mask} >= {2 ^ K}")
  let pads ← (List.range needPad).mapM fun _ => nullNode P scale
  let chunk := chunk ++ pads
  (List.range K).forM (checkPadding P scale mask chunk)
  coarseGrain P chunk (scale * K)

/-- A list cut into pieces of four, the last one shorter; `n` pieces at most. -/
def chunks : Nat → List RGNode → List (List RGNode)
  | 0, _ => []
  | n + 1, l => if l = [] then [] else l.take K :: chunks n (l.drop K)

def coarsenLayer (layer : List RGNode) : Res (List RGNode) :=
  match layer with
  | [] => .panic "index out of range"
  | first :: _ => do
    let parentScale := first.scale * K
    Go.check (validScale parentScale) (.rg .scaleDomainFault s!"invalid parent scale {parentScale}")
    (chunks layer.length layer).mapM (coarsenChunk P first.scale)

/-- The layers above `layer`, while it has more than one node. -/
def coarsen : Nat → List RGNode → Res (List (List RGNode))
  | 0, _ => .panic "out of rounds"
  | n + 1, layer =>
    if layer.length ≤ 1 then .ok [layer]
    else do
      let parents ← coarsenLayer P layer
      let rest ← coarsen n parents
      return layer :: rest

structure Tree where
  layers : List (List RGNode)
  root : Hash

def makeAtomicNode (t : Tx) : Res RGNode := do
  let txID ← t.id P
  match t.value with
  | none => .panic "nil pointer dereference"
  | some v => do
    Go.check (v * v ≤ maxUint256) (.rg .arithmeticOverflow "tx square exceeds uint256")
    let volume ← uint256ToBytes v.natAbs
    let sumSquares ← uint256ToBytes (v * v).natAbs
    return { scale := 1, volume, variance := 0, sig := .atomic, children := [txID], sumSquares, count := 1
             contractCount := if t.type = .contractDeploy ∨ t.type = .contractCall then 1 else 0 }

def atomicLayer (txs : List Tx) : Res (List RGNode) := txs.mapM (makeAtomicNode P)

def buildTree (txs : List Tx) (contractNodes : List RGNode) : Res Tree :=
  if txs = [] ∧ contractNodes = [] then .ok ⟨[[]], emptyBlockRoot P⟩
  else do
    Go.check (txs.length ≤ tMax) (.rg .dosSizeExceeded s!"block has {txs.length} txs, max {tMax}")
    let txLayer ← atomicLayer P txs
    let layers ← coarsen P 10 (txLayer ++ contractNodes)
    match layers.getLast? with
    | some (top :: _) => do
      let root ← top.root P
      return ⟨layers, root⟩
    | _ => .panic "index out of range"

end Frg.RG
