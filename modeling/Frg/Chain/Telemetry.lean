/-
  Frg.Chain.Telemetry — the report a node keeps of each block (`core/statemachine/telemetry.go`,
  with the queries of `core/tree/query.go` it makes).

  The totals of a report are computed from the block's transactions, not read from the tree.
  Its numbers are written in decimal; `ContractDensity` is a quotient of two counts, here
  without the rounding of a float.

    - `levels_volume`: every level of a report has the total value as its volume.
    - `aggregates_exact`: every node of a tree without contract leaves has the sums of the
      transactions below it, and the top has those of the block's report.
-/

import Frg.Chain.Apply
import Frg.RG.Aggregates

namespace Frg.Chain

open Frg.Lib Frg.Core Frg.Wire Frg.RG

/-! ## The report -/

structure TxTypeTelemetry where
  type : Nat
  name : String
  count : Nat
  deriving DecidableEq, Repr

structure SignatureTelemetry where
  signature : Nat
  name : String
  count : Nat
  deriving DecidableEq, Repr

structure RGLevelTelemetry where
  level : Nat
  scale : Nat
  nodeCount : Nat
  signatureCounts : List SignatureTelemetry
  contractDensity : Rat
  volatileRegions : List Nat
  stagnantRegions : List Nat
  totalVolume : String
  variance : String
  contractTxCount : Nat
  contractNodeCount : Nat

structure BlockTelemetry where
  height : UInt64
  stateRoot : Hash
  proposerPubKey : Key
  txCount : UInt64
  totalValue : String
  meanValue : String
  variance : String
  txTypes : List TxTypeTelemetry
  levels : List RGLevelTelemetry
  contractStateIncluded : Bool
  warning : String

def txTypeName : TxType → String
  | .transfer => "transfer"
  | .missEvidence => "miss_evidence"
  | .contractDeploy => "contract_deploy"
  | .contractCall => "contract_call"
  | .bond => "bond"
  | .unbond => "unbond"
  | .finalizeUnbond => "finalize_unbond"
  | .claimRewards => "claim_rewards"
  | .equivEvidence => "equivocation_evidence"
  | .other b _ => s!"unknown_{b}"

def signatureName : Signature → String
  | .atomic => "atomic"
  | .nullPad => "null_pad"
  | .stagnantState => "stagnant_state"
  | .laminarFlow => "laminar_flow"
  | .volatileShock => "volatile_shock"
  | .contract => "contract"

/-- The types that occur, in the order of their numbers, with how often they do. -/
def formatTxTypeTelemetry (txs : List Tx) : List TxTypeTelemetry :=
  (List.range 256).filterMap fun typ =>
    match txs.filter fun t => t.type.byte.toNat = typ with
    | [] => none
    | t :: ts => some ⟨typ, txTypeName t.type, ts.length + 1⟩

/-- The signatures that occur in a layer, in the order of their numbers, with how often they do. -/
def formatSignatureTelemetry (layer : List RGNode) : List SignatureTelemetry :=
  [.atomic, .nullPad, .stagnantState, .laminarFlow, .volatileShock, .contract].filterMap fun sig =>
    match (layer.filter fun n => n.sig = sig).length with
    | 0 => none
    | k + 1 => some ⟨sig.byte.toNat, signatureName sig, k + 1⟩

/-- `FindNodes` for one signature. -/
def regionsOf (sig : Signature) (layer : List RGNode) : List Nat :=
  (List.range layer.length).filter fun i => (layer[i]?.map RGNode.sig) = some sig

def contractNodeCount (layer : List RGNode) : Nat :=
  ((layer.filter fun n => 0 < n.count).map RGNode.contractCount).sum

def contractDensity (layer : List RGNode) : Rat :=
  let nodes := (layer.filter fun n => 0 < n.count).length
  if 0 < nodes then contractNodeCount layer / nodes else 0

def levelVolume (layer : List RGNode) : Nat := layer.foldl (fun total n => total + n.volume.val) 0
def levelVariance (layer : List RGNode) : Nat := layer.foldl (fun total n => total + n.variance.val) 0

def formatRGTelemetryLevel (contractTxCount level : Nat) (layer : List RGNode) : RGLevelTelemetry :=
  { level, scale := (layer.head?.map RGNode.scale).getD 0, nodeCount := layer.length
    signatureCounts := formatSignatureTelemetry layer, contractDensity := contractDensity layer
    volatileRegions := regionsOf .volatileShock layer, stagnantRegions := regionsOf .stagnantState layer
    totalVolume := toString (levelVolume layer), variance := toString (levelVariance layer)
    contractTxCount := if level = 0 then contractTxCount else 0, contractNodeCount := contractNodeCount layer }

def formatRGTelemetryLevels (tree : Tree) (contractTxCount : Nat) : List RGLevelTelemetry :=
  tree.layers.mapIdx (formatRGTelemetryLevel contractTxCount)

def isContractTx (t : Tx) : Bool := t.type = .contractDeploy ∨ t.type = .contractCall

/-- The sums of the values that are there and of their squares. -/
def addValue (sums : Int × Int) (t : Tx) : Int × Int :=
  match t.value with
  | none => sums
  | some v => (sums.1 + v, sums.2 + v * v)

def warningText : String :=
  "historical contract-state RG nodes are not persisted for this block; " ++
    "telemetry reconstructs transaction structure only"

def buildBlockTelemetryFromTree (block : Block) (tree : Tree) (exactContractState : Bool) : BlockTelemetry :=
  let (total, sumSquares) := block.txs.foldl addValue (0, 0)
  let count : Int := block.txs.length
  let mean := if 0 < count then total / count else 0
  let spread := if 0 < count then sumSquares / count - mean * mean else 0
  let variance := if spread < 0 then 0 else spread
  { height := block.height, stateRoot := block.stateRoot, proposerPubKey := block.proposerPubKey
    txCount := block.txs.length.toUInt64, totalValue := toString total, meanValue := toString mean
    variance := toString variance, txTypes := formatTxTypeTelemetry block.txs
    levels := formatRGTelemetryLevels tree (block.txs.filter isContractTx).length
    contractStateIncluded := exactContractState
    warning := if !exactContractState && block.txs.any isContractTx then warningText else "" }

/-! ## Its totals -/

theorem foldl_addValue (txs : List Tx) : ∀ sums : Int × Int,
    txs.foldl addValue sums = (sums.1 + valueSum txs, sums.2 + squareSum txs) := by
  induction txs with
  | nil => intro sums; simp [valueSum, squareSum]
  | cons t txs ih =>
    intro sums
    have hadd : addValue sums t = (sums.1 + amountOf t, sums.2 + amountOf t ^ 2) := by
      unfold addValue amountOf
      cases t.value with
      | none => simp
      | some v => simp [sq]
    rw [List.foldl_cons, ih, hadd]
    simp [valueSum, squareSum, add_assoc]

theorem levelVolume_eq (layer : List RGNode) : levelVolume layer = volumeOf layer := by
  rw [levelVolume, volumeOf, List.sum_eq_foldl, List.foldl_map]

/-- Coarse-graining moves no value, so each level of the report has all of it. -/
theorem levels_volume {P : Prim} {block : Block} {tree : Tree} (h : buildTree P block.txs [] = .ok tree)
    (hne : block.txs ≠ []) (exactContractState : Bool) :
    let telemetry := buildBlockTelemetryFromTree block tree exactContractState
    ∀ level ∈ telemetry.levels, level.totalVolume = telemetry.totalValue := by
  intro telemetry level hlevel
  obtain ⟨leaves, hplain⟩ := buildTree_plain h hne
  obtain ⟨l, hl, rfl⟩ := List.mem_mapIdx.mp hlevel
  have hvolume := hplain.volume (List.getElem?_eq_getElem hl)
  show toString (levelVolume _) = toString (block.txs.foldl addValue (0, 0)).1
  rw [foldl_addValue, levelVolume_eq, Int.zero_add, ← hvolume]
  rfl

/-! ## Nodes and report -/

/-- The report computes what the node above all transactions holds. -/
theorem report_top {block : Block} {top : RGNode} (h : Aggregates block.txs top) (hlen : block.txs.length ≤ tMax)
    (tree : Tree) (exactContractState : Bool) :
    let telemetry := buildBlockTelemetryFromTree block tree exactContractState
    telemetry.totalValue = toString top.volume.val ∧ telemetry.txCount.toNat = top.count ∧
      telemetry.variance = toString top.variance.val := by
  have hsums : block.txs.foldl addValue (0, 0) = ((top.volume.val : Int), (top.sumSquares.val : Int)) := by
    rw [foldl_addValue, Int.zero_add, Int.zero_add, h.volume, h.squares]
  have hpos : (0 : Int) < block.txs.length := by
    have := h.counted
    have := h.count
    omega
  unfold buildBlockTelemetryFromTree
  simp only [hsums, if_pos hpos]
  refine ⟨rfl, ?_, ?_⟩
  · rw [h.count, Nat.toUInt64_eq, UInt64.toNat_ofNat_of_lt']
    exact lt_of_le_of_lt hlen (by decide)
  · have hspread := h.spread_nonneg
    rw [h.count, sq] at hspread
    rw [if_neg (not_lt.mpr hspread), ← sq, ← h.count, ← h.variance_eq]
    rfl

/-- Every node has the sums of the transactions below it, and the report those of the top. -/
theorem aggregates_exact {P : Prim} {txs : List Tx} {tree : Tree} (h : buildTree P txs [] = .ok tree) :
    (∀ (l i : Nat) (layer : List RGNode) (n : RGNode), tree.layers[l]? = some layer → layer[i]? = some n →
      (n.volume.val : Int) = valueSum (span txs l i) ∧ (n.sumSquares.val : Int) = squareSum (span txs l i) ∧
      n.count = (span txs l i).length ∧
      0 ≤ (n.sumSquares.val / n.count : Int) - (n.volume.val / n.count) ^ 2 ∧
      (n.variance.val : Int) = n.sumSquares.val / n.count - (n.volume.val / n.count) ^ 2) ∧
    ∀ (block : Block) (exactContractState : Bool) (top : RGNode), block.txs = txs → tree.layers.getLast? = some [top] →
      let telemetry := buildBlockTelemetryFromTree block tree exactContractState
      telemetry.totalValue = toString top.volume.val ∧ telemetry.txCount.toNat = top.count ∧
        telemetry.variance = toString top.variance.val := by
  by_cases hne : txs = []
  · subst hne
    constructor
    · intro l i layer n hl hi
      rw [nil_of_mem h hl] at hi
      cases hi
    · intro block exactContractState top _ htop
      rw [List.getLast?_eq_getElem?] at htop
      cases nil_of_mem h htop
  obtain ⟨leaves, hplain⟩ := buildTree_plain h hne
  constructor
  · intro l i layer n hl hi
    have hagg := hplain.aggregates hl hi
    exact ⟨hagg.volume, hagg.squares, hagg.count, hagg.spread_nonneg, hagg.variance_eq⟩
  · rintro block exactContractState top rfl htop
    exact report_top (hplain.top htop) (buildTree_length h) tree exactContractState

/-- A block of two transfers. -/
def twoTransfers : Block :=
  { height := 1, txs := transfersOf 1, proposerPubKey := 1, prevStateRoot := 0, stateRoot := 0, proposalBytes := [] }

theorem aggregates_exact_transfers : ∃ tree top, buildTree Prim.sample twoTransfers.txs [] = .ok tree ∧
    tree.layers.getLast? = some [top] ∧
    (buildBlockTelemetryFromTree twoTransfers tree true).totalValue = toString top.volume.val := by
  obtain ⟨tree, h⟩ := Go.isOk_iff.mp (show (buildTree Prim.sample (transfersOf 1) []).isOk = true by decide +kernel)
  have hne : transfersOf 1 ≠ [] := List.cons_ne_nil _ _
  obtain ⟨-, -, top, -, -, -, htop, -⟩ := (buildTree_tower (.inl hne) fun n hn => absurd hn List.not_mem_nil).mp h
  exact ⟨tree, top, h, htop, ((aggregates_exact h).2 twoTransfers true top rfl htop).1⟩

end Frg.Chain
