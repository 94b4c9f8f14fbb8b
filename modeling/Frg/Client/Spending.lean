/-
  Frg.Client.Spending — the spending policy of the agent's server (`cmd/frg-mcp`).

  The tools that write check the policy, let the wallet sign a transaction and hand it to the
  node, and record its value as spent when the node answered Ok. An answer that fails, times out
  or is lost records nothing, whatever the node did with the transaction.
    - `spent_accounts`: along every sequence of tool calls and replies, what is recorded is the
      value of the transactions that were answered with Ok, and it stays within the daily limit.
    - `spending_limit`: so everything handed over does, when every transaction that carries value
      was answered with Ok.
    - `lost_replies_overspend`: two transfers of the whole limit, their replies lost.
-/

import Frg.Client.Wallet
import Mathlib.Algebra.Order.Group.Int
import Mathlib.Data.List.Induction

namespace Frg.Client

open Frg.Lib Frg.Core Frg.Wire Frg.Node

/-! ## The policy -/

/-- The fields of a policy file. -/
structure PolicyFile where
  allowSubmit : Bool
  allowDeploy : Bool
  allowBond : Bool
  maxTransfer : List UInt8
  maxTransferQuanta : List UInt8
  dailyLimit : List UInt8
  dailyLimitQuanta : List UInt8
  allowedRecipients : List (List UInt8)
  allowedContracts : List (List UInt8)

structure Policy where
  allowSubmit : Bool
  allowDeploy : Bool
  allowBond : Bool
  maxTransfer : Int
  dailyLimit : Int
  allowedRecipients : List (List UInt8)
  allowedContracts : List (List UInt8)
  spentToday : Int

/-- The parser of the field that is given. -/
def parseField (frgRaw quantaRaw : List UInt8) : Res Int :=
  if quantaRaw ≠ [] then parseQuanta quantaRaw else parseFRG frgRaw

def notBoth (label : String) : Err := .plain s!"use {label} or {label}_quanta, not both"

/-- `fmt.Errorf("label: %w", err)`. -/
def labelled {α : Type} (label : String) : Res α → Res α
  | .err e => .err (.context label e)
  | r => r

def parsePolicyAmount (frgRaw quantaRaw : List UInt8) (label : String) : Res Int :=
  if frgRaw ≠ [] ∧ quantaRaw ≠ [] then .err (notBoth label)
  else if frgRaw = [] ∧ quantaRaw = [] then .ok 0
  else parseField frgRaw quantaRaw

/-- `toLower` is `strings.ToLower`. The file, if there is one, is decoded over the default. -/
def loadPolicy (toLower : List UInt8 → List UInt8) (file : Option PolicyFile) (autonomous : Bool) : Res Policy := do
  let file := file.getD ⟨autonomous, false, false, [], [], [], [], [], []⟩
  let maxTransfer ← labelled "max_transfer" (parsePolicyAmount file.maxTransfer file.maxTransferQuanta "max_transfer")
  let dailyLimit ← labelled "daily_limit" (parsePolicyAmount file.dailyLimit file.dailyLimitQuanta "daily_limit")
  return { allowSubmit := file.allowSubmit, allowDeploy := file.allowDeploy, allowBond := file.allowBond
           maxTransfer, dailyLimit, allowedRecipients := file.allowedRecipients.map toLower
           allowedContracts := file.allowedContracts.map toLower, spentToday := 0 }

/-- What a tool asks the policy for. -/
inductive Action where
  | transfer
  | bond
  | unbond
  | finalizeUnbond
  | claimRewards
  | contractDeploy
  | contractCall
  deriving DecidableEq

def Action.name : Action → String
  | .transfer => "transfer"
  | .bond => "bond"
  | .unbond => "unbond"
  | .finalizeUnbond => "finalize_unbond"
  | .claimRewards => "claim_rewards"
  | .contractDeploy => "contract_deploy"
  | .contractCall => "contract_call"

def denied (action : Action) (why : String) : Err := .plain (action.name ++ " denied: " ++ why)

def Policy.allowSpend (p : Policy) (toLower : List UInt8 → List UInt8) (action : Action) (target : List UInt8)
    (amount : Int) (bond deploy : Bool) : Res Unit := do
  Go.check (p.allowSubmit = true) (denied action "allow_submit is false")
  Go.check (bond = true → p.allowBond = true) (denied action "allow_bond is false")
  Go.check (deploy = true → p.allowDeploy = true) (denied action "allow_deploy is false")
  Go.check (¬ (0 < amount ∧ p.maxTransfer = 0)) (denied action "max_transfer is zero")
  Go.check (¬ (0 < p.maxTransfer ∧ p.maxTransfer < amount)) (denied action "amount exceeds max_transfer")
  Go.check (¬ (0 < amount ∧ p.dailyLimit = 0)) (denied action "daily_limit is zero")
  Go.check (¬ (0 < p.dailyLimit ∧ p.dailyLimit < p.spentToday + amount)) (denied action "amount exceeds daily_limit")
  Go.check (action = .transfer → p.allowedRecipients ≠ [] → p.allowedRecipients.any (· = toLower target) = true)
    (.plain "transfer denied: recipient is not allowed")
  Go.check (action = .contractCall → p.allowedContracts ≠ [] → p.allowedContracts.any (· = toLower target) = true)
    (.plain "contract_call denied: contract is not allowed")

def Policy.recordSpend (p : Policy) (amount : Int) : Policy :=
  if amount ≤ 0 then p else { p with spentToday := p.spentToday + amount }

/-! ## The tools -/

def parseAmountFields (frgRaw quantaRaw : List UInt8) (label : String) (positive : Bool) : Res Int := do
  Go.check (¬ (frgRaw ≠ [] ∧ quantaRaw ≠ [])) (notBoth label)
  if frgRaw = [] ∧ quantaRaw = [] then
    if positive then .err (.plain (label ++ " is required")) else .ok 0
  else
    let amount ← labelled label (parseField frgRaw quantaRaw)
    Go.check (¬ (positive = true ∧ amount ≤ 0)) (.plain (label ++ " must be positive"))
    .ok amount

def parsePositiveAmountFields (frgRaw quantaRaw : List UInt8) (label : String) : Res Int :=
  parseAmountFields frgRaw quantaRaw label true

def parseOptionalAmountFields (frgRaw quantaRaw : List UInt8) (label : String) : Res Int :=
  parseAmountFields frgRaw quantaRaw label false

/-- The address of a contract, of which the tools report the error in their own words. -/
def contractAddress (hex : List UInt8) : Res Key :=
  match decodePubKey hex with
  | .ok addr => .ok addr
  | _ => .err (.plain "contract_address must be 32-byte hex")

def contractCallData (function callDataHex : List UInt8) : Res (List UInt8) :=
  if function ≠ [] ∧ callDataHex ≠ [] then .err (.plain "use function or call_data_hex, not both")
  else if callDataHex ≠ [] then
    match hexDecode callDataHex with
    | none => .err (.plain "call_data_hex must be hex")
    | some data => .ok data
  else if function = [] then .ok [0x63, 0x61, 0x6C, 0x6C]
  else if function.length ≠ 4 then .err (.plain "function must be exactly 4 bytes")
  else .ok function

/-- The actions of the work escrow: their words and selectors. -/
def workSelectors : List (List UInt8 × List UInt8) :=
  [([0x70, 0x6F, 0x73, 0x74], [0x70, 0x6F, 0x73, 0x74]),
    ([0x61, 0x63, 0x63, 0x65, 0x70, 0x74], [0x61, 0x63, 0x70, 0x74]),
    ([0x73, 0x75, 0x62, 0x6D, 0x69, 0x74], [0x73, 0x75, 0x62, 0x6D]),
    ([0x61, 0x70, 0x70, 0x72, 0x6F, 0x76, 0x65], [0x61, 0x70, 0x72, 0x76]),
    ([0x72, 0x65, 0x6A, 0x65, 0x63, 0x74], [0x72, 0x65, 0x6A, 0x63]),
    ([0x63, 0x6C, 0x61, 0x69, 0x6D], [0x63, 0x6C, 0x61, 0x69]),
    ([0x63, 0x61, 0x6E, 0x63, 0x65, 0x6C], [0x63, 0x6E, 0x63, 0x6C])]

/-- The error names the action too, in quotes. -/
def workActionSelector (toLower : List UInt8 → List UInt8) (action : List UInt8) : Res (List UInt8) :=
  match workSelectors.find? (·.1 = toLower (trimSpace action)) with
  | none => .err (.plain "unknown work action")
  | some s => .ok s.2

def workActionCalldata (selector payloadHex : List UInt8) : Res (List UInt8) :=
  let payloadHex := trimSpace payloadHex
  if payloadHex = [] then .ok selector
  else
    match hexDecode payloadHex with
    | none => .err (.plain "payload_hex must be hex")
    | some payload => .ok (selector ++ payload)

/-- A call of a tool with its decoded arguments. `reading` are the tools that hand nothing to the
    node, unknown ones, and calls whose arguments do not decode. -/
inductive ToolCall where
  | transfer (recipient amount amountQuanta : List UInt8)
  | bond (amount amountQuanta : List UInt8)
  | unbond
  | finalizeUnbond
  | claimRewards
  | contractDeploy (wasmHex value valueQuanta : List UInt8)
  | contractCall (contractAddress function callDataHex value valueQuanta : List UInt8)
  | workAction (contractAddress action payloadHex value valueQuanta : List UInt8)
  | reading

/-- The policy in use, and what was handed to the node so far. -/
structure Server where
  policy : Policy
  handed : List HandedTx

abbrev Serving := Act Err Server

/-- A call of the wallet. -/
def submitting (x : Handing Hash) : Serving Hash := fun s => ((x s.handed).1, { s with handed := (x s.handed).2 })

variable (toLower : List UInt8 → List UInt8) (P : Prim) (w : Wallet)

/-- The part the tools that carry value have in common. -/
def spend (action : Action) (target : List UInt8) (amount : Int) (bond deploy : Bool) (x : Handing Hash) :
    Serving Hash := do
  let policy ← .read Server.policy
  .lift (policy.allowSpend toLower action target amount bond deploy)
  let resp ← submitting x
  .write fun s => { s with policy := s.policy.recordSpend amount }
  return resp

/-- The same of those without value: nothing is recorded. -/
def submitValueless (action : Action) (bond : Bool) (x : Handing Hash) : Serving Hash := do
  let policy ← .read Server.policy
  .lift (policy.allowSpend toLower action [] 0 bond false)
  submitting x

/-- `callTool`, as far as it goes to the node. The replies are those of this call. -/
def callTool (replies : Replies) : ToolCall → Serving (Option Hash)
  | .transfer recipient amount amountQuanta => do
    let recipientKey ← .lift (decodePubKey recipient)
    let amount ← .lift (parsePositiveAmountFields amount amountQuanta "amount")
    some <$> spend toLower .transfer recipient amount false false (transfer P w replies recipientKey amount)
  | .bond amount amountQuanta => do
    let amount ← .lift (parsePositiveAmountFields amount amountQuanta "amount")
    some <$> spend toLower .bond [] amount true false (Client.bond P w replies amount)
  | .unbond => some <$> submitValueless toLower .unbond true (Client.unbond P w replies)
  | .finalizeUnbond => some <$> submitValueless toLower .finalizeUnbond true (Client.finalizeUnbond P w replies)
  | .claimRewards => some <$> submitValueless toLower .claimRewards false (Client.claimRewards P w replies)
  | .contractDeploy wasmHex value valueQuanta => do
    let wasm := (hexDecode wasmHex).getD []
    .check (wasm ≠ []) (.plain "wasm_hex must be non-empty hex")
    let value ← .lift (parseOptionalAmountFields value valueQuanta "value")
    some <$> spend toLower .contractDeploy [] value false true (deployContract P w replies wasm value)
  | .contractCall address function callDataHex value valueQuanta => do
    let addr ← .lift (contractAddress address)
    let callData ← .lift (contractCallData function callDataHex)
    let value ← .lift (parseOptionalAmountFields value valueQuanta "value")
    some <$> spend toLower .contractCall address value false false (callContract P w replies addr callData value)
  | .workAction address action payloadHex value valueQuanta => do
    let addr ← .lift (contractAddress address)
    let selector ← .lift (workActionSelector toLower action)
    let callData ← .lift (workActionCalldata selector payloadHex)
    let value ← .lift (parseOptionalAmountFields value valueQuanta "value")
    some <$> spend toLower .contractCall address value false false (callContract P w replies addr callData value)
  | .reading => return none

/-- The server after some calls, each with the replies it met. -/
def serve (p : Policy) (calls : List (ToolCall × Replies)) : Server :=
  calls.foldl (fun s c => (callTool toLower P w c.2 c.1 s).2) ⟨p, []⟩

/-! ## What is recorded -/

/-- The value of some transactions together. -/
def total (l : List HandedTx) : Int := (l.map HandedTx.value).sum

def acceptedTotal (l : List HandedTx) : Int := total (l.filter HandedTx.accepted)

theorem total_append (l m : List HandedTx) : total (l ++ m) = total l + total m := by
  unfold total
  rw [List.map_append, List.sum_append]

theorem acceptedTotal_snoc (l : List HandedTx) (h : HandedTx) :
    acceptedTotal (l ++ [h]) = acceptedTotal l + if h.accepted then h.value else 0 := by
  unfold acceptedTotal
  rw [List.filter_append, total_append]
  cases hh : h.accepted <;> simp [hh, total]

theorem total_le_accepted {l : List HandedTx} (h : ∀ x ∈ l, 0 < x.value → x.accepted = true) :
    total l ≤ acceptedTotal l := by
  induction l using List.reverseRecOn with
  | nil => exact Int.le_refl _
  | append_singleton l x ih =>
    have hl := ih fun y hy => h y (List.mem_append_left _ hy)
    have hx := h x (List.mem_append_right _ List.mem_cons_self)
    have hone : total [x] = x.value := List.sum_singleton
    rw [total_append, acceptedTotal_snoc, hone]
    split
    · omega
    · rename_i hrefused
      have : ¬ 0 < x.value := fun hpos => hrefused (hx hpos)
      omega

/-- What is recorded is the value of what was answered with Ok, within the limit. -/
structure Accounted (limit : Int) (s : Server) : Prop where
  recorded : s.policy.spentToday = acceptedTotal s.handed
  within : s.policy.spentToday ≤ limit
  daily : s.policy.dailyLimit = limit

theorem Accounted.of_same {limit : Int} {s s' : Server} (h : Accounted limit s) (hp : s'.policy = s.policy)
    (ha : acceptedTotal s'.handed = acceptedTotal s.handed) : Accounted limit s' := by
  refine ⟨?_, ?_, ?_⟩
  · rw [hp, ha]
    exact h.recorded
  · rw [hp]
    exact h.within
  · rw [hp]
    exact h.daily

def KeepsAccounts (limit : Int) (s s' : Server) : Prop := Accounted limit s → Accounted limit s'

instance keepsAccounts_refl (limit : Int) : Std.Refl (KeepsAccounts limit) := ⟨fun _ h => h⟩

instance keepsAccounts_trans (limit : Int) : IsTrans Server (KeepsAccounts limit) := ⟨fun _ _ _ h h' hs => h' (h hs)⟩

variable {toLower : List UInt8 → List UInt8} {P : Prim} {w : Wallet} {limit : Int}

theorem allowSpend_within {p : Policy} {action : Action} {target : List UInt8} {amount : Int} {bond deploy : Bool}
    {u : Unit} (h : p.allowSpend toLower action target amount bond deploy = .ok u) (hlimit : 0 < p.dailyLimit) :
    p.spentToday + amount ≤ p.dailyLimit := by
  unfold Policy.allowSpend at h
  simp only [Go.bind_eq_ok, Go.check_eq_ok] at h
  obtain ⟨-, -, -, -, -, -, -, -, -, -, -, -, -, hdaily, -⟩ := h
  by_contra hover
  exact hdaily ⟨hlimit, by omega⟩

theorem submitting_accepts {x : Handing Hash} {value : Int} (hx : Submits x value) (s : Server) :
    (submitting x s).2.policy = s.policy ∧ acceptedTotal (submitting x s).2.handed =
      acceptedTotal s.handed + if (submitting x s).1.isOk then value else 0 := by
  refine ⟨rfl, ?_⟩
  unfold submitting
  cases hr : x s.handed with
  | mk r log =>
    rcases hx s.handed r log hr with ⟨rfl, hnone⟩ | ⟨h, rfl, rfl, hacc⟩
    · cases r with
      | ok id => cases hnone
      | err e => simp [Go.isOk]
      | panic why => simp [Go.isOk]
    · rw [acceptedTotal_snoc]
      have hsame : h.accepted = r.isOk := by
        cases r <;> simpa [Go.toOption, Go.isOk] using hacc
      rw [hsame]

theorem recordSpend_spent {amount : Int} (h : 0 ≤ amount) (p : Policy) :
    (p.recordSpend amount).spentToday = p.spentToday + amount ∧ (p.recordSpend amount).dailyLimit = p.dailyLimit := by
  unfold Policy.recordSpend
  split
  · exact ⟨by omega, rfl⟩
  · exact ⟨rfl, rfl⟩

theorem spend_keeps (hlimit : 0 < limit) {action : Action} {target : List UInt8} {amount : Int} {bond deploy : Bool}
    {x : Handing Hash} (hx : Submits x amount) (hamount : 0 ≤ amount) :
    Act.Steps (KeepsAccounts limit) (spend toLower action target amount bond deploy x) := by
  intro s h
  unfold spend
  rw [Act.read_bind]
  cases hallow : s.policy.allowSpend toLower action target amount bond deploy with
  | err e => exact h
  | panic why => exact h
  | ok u =>
    have hwithin := allowSpend_within hallow (by rw [h.daily]; exact hlimit)
    rw [Act.lift_bind rfl, Act.bind_run]
    obtain ⟨hpolicy, haccepted⟩ := submitting_accepts hx s
    generalize submitting x s = out at hpolicy haccepted
    obtain ⟨r, s1⟩ := out
    cases r with
    | ok id =>
      -- answered with Ok: recorded as spent
      obtain ⟨hspent, hdaily⟩ := recordSpend_spent hamount s1.policy
      rw [hpolicy] at hspent hdaily
      refine ⟨?_, ?_, ?_⟩
      · show (s1.policy.recordSpend amount).spentToday = acceptedTotal s1.handed
        rw [hpolicy, hspent, haccepted, h.recorded]
        rfl
      · show (s1.policy.recordSpend amount).spentToday ≤ limit
        rw [hpolicy, hspent, ← h.daily]
        exact hwithin
      · show (s1.policy.recordSpend amount).dailyLimit = limit
        rw [hpolicy, hdaily]
        exact h.daily
    | err e => exact h.of_same hpolicy (haccepted.trans (Int.add_zero _))
    | panic why => exact h.of_same hpolicy (haccepted.trans (Int.add_zero _))

theorem submitValueless_keeps {action : Action} {bond : Bool} {x : Handing Hash} (hx : Submits x 0) :
    Act.Steps (KeepsAccounts limit) (submitValueless toLower action bond x) := by
  intro s h
  unfold submitValueless
  rw [Act.read_bind]
  cases hallow : s.policy.allowSpend toLower action [] 0 bond false with
  | err e => exact h
  | panic why => exact h
  | ok u =>
    rw [Act.lift_bind rfl]
    obtain ⟨hpolicy, haccepted⟩ := submitting_accepts hx s
    rw [ite_self, Int.add_zero] at haccepted
    exact h.of_same hpolicy haccepted

/-! ## Amounts -/

theorem parseField_nonneg {frgRaw quantaRaw : List UInt8} {v : Int} (h : parseField frgRaw quantaRaw = .ok v) :
    0 ≤ v := by
  unfold parseField at h
  split at h
  · exact parseQuanta_nonneg h
  · exact parseFRG_nonneg h

theorem labelled_ok {α : Type} {label : String} {r : Res α} {a : α} (h : labelled label r = .ok a) : r = .ok a := by
  cases r with
  | ok b => exact h
  | err e => cases h
  | panic why => cases h

theorem parseAmountFields_nonneg {frgRaw quantaRaw : List UInt8} {label : String} {positive : Bool} {v : Int}
    (h : parseAmountFields frgRaw quantaRaw label positive = .ok v) : 0 ≤ v := by
  unfold parseAmountFields at h
  obtain ⟨_, -, h⟩ := Go.bind_eq_ok.mp h
  split at h
  · split at h
    · cases h
    · obtain rfl := Go.ok.inj h
      exact Int.le_refl _
  · obtain ⟨amount, hamount, h⟩ := Go.bind_eq_ok.mp h
    obtain ⟨_, -, h⟩ := Go.bind_eq_ok.mp h
    obtain rfl := Go.ok.inj h
    exact parseField_nonneg (labelled_ok hamount)

/-! ## Runs -/

theorem callTool_keeps (hlimit : 0 < limit) (replies : Replies) (call : ToolCall) :
    Act.Steps (KeepsAccounts limit) (callTool toLower P w replies call) := by
  cases call with
  | transfer recipient amount amountQuanta =>
    refine Act.steps_lift_bind fun recipientKey _ => Act.steps_lift_bind fun amount hamount => ?_
    exact Act.steps_bind (spend_keeps hlimit (transfer_submits _ _) (parseAmountFields_nonneg hamount))
      fun _ => Act.steps_pure _
  | bond amount amountQuanta =>
    refine Act.steps_lift_bind fun amount hamount => ?_
    exact Act.steps_bind (spend_keeps hlimit (bond_submits _) (parseAmountFields_nonneg hamount))
      fun _ => Act.steps_pure _
  | unbond => exact Act.steps_bind (submitValueless_keeps (valueless_submits _ _)) fun _ => Act.steps_pure _
  | finalizeUnbond => exact Act.steps_bind (submitValueless_keeps (valueless_submits _ _)) fun _ => Act.steps_pure _
  | claimRewards => exact Act.steps_bind (submitValueless_keeps (valueless_submits _ _)) fun _ => Act.steps_pure _
  | contractDeploy wasmHex value valueQuanta =>
    refine Act.steps_lift_bind fun _ _ => Act.steps_lift_bind fun value hvalue => ?_
    exact Act.steps_bind (spend_keeps hlimit (deployContract_submits _ _) (parseAmountFields_nonneg hvalue))
      fun _ => Act.steps_pure _
  | contractCall address function callDataHex value valueQuanta =>
    refine Act.steps_lift_bind fun addr _ => Act.steps_lift_bind fun callData _ =>
      Act.steps_lift_bind fun value hvalue => ?_
    exact Act.steps_bind (spend_keeps hlimit (callContract_submits _ _ _) (parseAmountFields_nonneg hvalue))
      fun _ => Act.steps_pure _
  | workAction address action payloadHex value valueQuanta =>
    refine Act.steps_lift_bind fun addr _ => Act.steps_lift_bind fun selector _ =>
      Act.steps_lift_bind fun callData _ => Act.steps_lift_bind fun value hvalue => ?_
    exact Act.steps_bind (spend_keeps hlimit (callContract_submits _ _ _) (parseAmountFields_nonneg hvalue))
      fun _ => Act.steps_pure _
  | reading => exact Act.steps_pure _

theorem spent_accounts (hlimit : 0 < limit) (calls : List (ToolCall × Replies)) : ∀ s, Accounted limit s →
    Accounted limit (calls.foldl (fun s c => (callTool toLower P w c.2 c.1 s).2) s) := by
  induction calls with
  | nil => exact fun s h => h
  | cons c calls ih => exact fun s h => ih _ (callTool_keeps hlimit c.2 c.1 s h)

theorem loadPolicy_unspent {file : Option PolicyFile} {autonomous : Bool} {p : Policy}
    (h : loadPolicy toLower file autonomous = .ok p) : p.spentToday = 0 := by
  unfold loadPolicy at h
  obtain ⟨_, -, h⟩ := Go.bind_eq_ok.mp h
  obtain ⟨_, -, h⟩ := Go.bind_eq_ok.mp h
  obtain rfl := Go.ok.inj h
  rfl

/-- What was accepted stays within the daily limit, and so does everything that was handed to the
    node if all of it that carries value was answered with Ok. -/
theorem spending_limit (toLower : List UInt8 → List UInt8) (P : Prim) (w : Wallet) (file : Option PolicyFile)
    (autonomous : Bool) (p : Policy) (hp : loadPolicy toLower file autonomous = .ok p) (hlimit : 0 < p.dailyLimit)
    (calls : List (ToolCall × Replies)) :
    acceptedTotal (serve toLower P w p calls).handed ≤ p.dailyLimit ∧
    ((∀ h ∈ (serve toLower P w p calls).handed, 0 < h.value → h.accepted = true) →
      total (serve toLower P w p calls).handed ≤ p.dailyLimit) := by
  have hstart : Accounted p.dailyLimit ⟨p, []⟩ := by
    have hspent := loadPolicy_unspent hp
    exact ⟨hspent, by rw [hspent]; exact Int.le_of_lt hlimit, rfl⟩
  have h : Accounted p.dailyLimit (serve toLower P w p calls) := spent_accounts hlimit calls _ hstart
  have haccepted : acceptedTotal (serve toLower P w p calls).handed ≤ p.dailyLimit := by
    rw [← h.recorded]
    exact h.within
  exact ⟨haccepted, fun hall => (total_le_accepted hall).trans haccepted⟩

/-! Two transfers of 10 quanta under a limit of 10. The node takes the first, the account shows
it, and neither reply arrives. -/

def tightFile : PolicyFile :=
  { allowSubmit := true, allowDeploy := false, allowBond := false, maxTransfer := [], maxTransferQuanta := [0x31, 0x30]
    dailyLimit := [], dailyLimitQuanta := [0x31, 0x30], allowedRecipients := [], allowedContracts := [] }

def tightPolicy : Policy :=
  { allowSubmit := true, allowDeploy := false, allowBond := false, maxTransfer := 10, dailyLimit := 10
    allowedRecipients := [], allowedContracts := [], spentToday := 0 }

theorem tightFile_loads : loadPolicy id (some tightFile) false = .ok tightPolicy := rfl

def lostReply (nonce : UInt64) : Replies := ⟨.ok nonce, .error (.plain "context deadline exceeded")⟩

def wholeLimit : ToolCall := .transfer (List.replicate 64 0x32) [] [0x31, 0x30]

theorem lost_replies_overspend :
    loadPolicy id (some tightFile) false = .ok tightPolicy ∧ 0 < tightPolicy.dailyLimit ∧
    total (serve id Prim.sample ⟨1, []⟩ tightPolicy
      [(wholeLimit, lostReply 0), (wholeLimit, lostReply 1)]).handed = 20 :=
  ⟨tightFile_loads, by decide, by decide +kernel⟩

def okReply (nonce : UInt64) : Replies := ⟨.ok nonce, .ok ⟨true, ""⟩⟩

/-- The same calls with their replies: the second is refused. -/
theorem spending_limit_answered :
    let s := serve id Prim.sample ⟨1, []⟩ tightPolicy [(wholeLimit, okReply 0), (wholeLimit, okReply 1)]
    total s.handed = 10 ∧ total s.handed ≤ tightPolicy.dailyLimit := by
  intro s
  have hall : ∀ h ∈ s.handed, 0 < h.value → h.accepted = true := by decide +kernel
  exact ⟨by decide +kernel, (spending_limit id Prim.sample ⟨1, []⟩ (some tightFile) false tightPolicy tightFile_loads
    (by decide) [(wholeLimit, okReply 0), (wholeLimit, okReply 1)]).2 hall⟩

end Frg.Client
