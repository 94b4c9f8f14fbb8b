/-
  Frg.Contract.Host — what host functions are built from, said once.

  A host function charges fuel, reads memory and balances, answers the guest, and (for
  `frg.transfer`) tries a move out of the contract's own account. A property of what is left
  to do from a host state (`HostRules`) that these steps keep holds of every host function
  (`HostRules.hostCall`). A property of actions that sequences keep (`HostClosed`) holds of
  every host function and of every guest, whatever the guest's code is.

    - `HostClosed.hostCall`, `HostClosed.guest`.
    - `hostCall_fuel`: no host function gives fuel back.
    - `hostCall_quiet`: only `frg.transfer` writes to the database.
-/

import Frg.Contract.Runtime

namespace Frg.Contract

open Frg.Lib Frg.Core Frg.Chain

def HostCall.isTransfer : HostCall → Bool
  | .transfer _ _ _ _ => true
  | _ => false

/-- `D h x` is kept by every step of a host function; moves are made only where `moves` holds. -/
structure HostRules (cfg : RuntimeConfig) (moves : Prop) (D : HostState → M (Int × HostState) → Prop) : Prop where
  answer : ∀ {h h' : HostState} (r : Int), h'.fuel = h.fuel → D h (pure (r, h'))
  stop : ∀ (h : HostState) (w : String), D h (Act.stop w)
  charge : ∀ {reason : String} {fuel : UInt64} {h : HostState} {onErr : Int} {k : HostState → M (Int × HostState)},
    (∀ h, D h (k h)) → D h (charged reason fuel h onErr k)
  read : ∀ {α : Type} {h : HostState} {f : DB → α} {k : α → M (Int × HostState)}, (∀ a, D h (k a)) →
    D h (Act.read f >>= k)
  readMem : ∀ {h : HostState} {mem : Memory} {ptr length : Int32} {k : Option (List UInt8) → M (Int × HostState)},
    (∀ r, D h (k r)) → D h (Act.lift (Contract.readMem mem ptr length) >>= k)
  move : moves → ∀ {h : HostState} {target : Key} {amount : Int} {k : Bool → M (Int × HostState)}, (∀ m, D h (k m)) →
    D h (Act.succeeded (moveTx cfg.selfAddr target amount) >>= k)

namespace HostRules

variable {E : Env} {cfg : RuntimeConfig} {moves : Prop} {D : HostState → M (Int × HostState) → Prop}
  (hD : HostRules cfg moves D)

include hD

theorem writeOut (h : HostState) (outPtr : Int32) (maxLen : Nat) (bytes : List UInt8) :
    D h (Contract.writeOut h outPtr maxLen bytes) := hD.answer _ rfl

theorem hostCall (c : HostCall) (h : HostState) (hm : c.isTransfer = true → moves) :
    D h (Contract.hostCall E cfg c h) := by
  cases c with
  | stateGet keyPtr keyLen outPtr outLen =>
    show D h (hostStateGet keyPtr keyLen outPtr outLen h)
    unfold hostStateGet
    split
    · exact hD.answer _ rfl
    refine hD.charge fun h => hD.readMem fun key? => ?_
    split
    · exact hD.answer _ rfl
    · split
      · exact hD.answer _ rfl
      · exact hD.charge fun h => hD.answer _ rfl
  | stateSet keyPtr keyLen valPtr valLen =>
    show D h (hostStateSet keyPtr keyLen valPtr valLen h)
    unfold hostStateSet
    split
    · exact hD.answer _ rfl
    refine hD.charge fun h => hD.readMem fun key? => ?_
    split
    · exact hD.answer _ rfl
    refine hD.readMem fun val? => ?_
    split
    · exact hD.answer _ rfl
    · split
      · exact hD.answer _ rfl
      · exact hD.answer _ rfl
      · exact hD.stop _ _
  | selfBalance outPtr =>
    show D h (hostSelfBalance cfg outPtr h)
    exact hD.charge fun _ => hD.read fun _ => hD.writeOut _ _ _ _
  | balanceOf addrPtr addrLen outPtr =>
    show D h (hostBalanceOf addrPtr addrLen outPtr h)
    unfold hostBalanceOf
    split
    · exact hD.answer _ rfl
    refine hD.charge fun h => hD.readMem fun addr? => ?_
    split
    · exact hD.answer _ rfl
    · split
      · exact hD.answer _ rfl
      · exact hD.read fun _ => hD.writeOut _ _ _ _
  | blockHeight =>
    show D h (hostBlockHeight cfg h)
    exact hD.charge fun _ => hD.answer _ rfl
  | caller outPtr =>
    show D h (hostCaller cfg outPtr h)
    exact hD.charge fun _ => hD.writeOut _ _ _ _
  | selfAddress outPtr =>
    show D h (hostSelfAddress cfg outPtr h)
    exact hD.charge fun _ => hD.writeOut _ _ _ _
  | calldataLen =>
    show D h (hostCalldataLen cfg h)
    exact hD.charge fun _ => hD.answer _ rfl
  | calldataCopy dstPtr offset maxLen =>
    show D h (hostCalldataCopy cfg dstPtr offset maxLen h)
    unfold hostCalldataCopy
    split
    · exact hD.answer _ rfl
    refine hD.charge fun h => ?_
    split
    · exact hD.answer _ rfl
    · split
      · exact hD.answer _ rfl
      · split <;> exact hD.answer _ rfl
  | log ptr length =>
    show D h (hostLog ptr length h)
    unfold hostLog
    split
    · exact hD.answer _ rfl
    · exact hD.charge fun h => hD.readMem fun _ => hD.answer _ rfl
  | transfer recvPtr recvLen amtLo amtHi =>
    show D h (hostTransfer cfg recvPtr recvLen amtLo amtHi h)
    unfold hostTransfer
    split
    · exact hD.answer _ rfl
    refine hD.charge fun h => hD.readMem fun addr? => ?_
    split
    · exact hD.answer _ rfl
    · split
      · exact hD.answer _ rfl
      · -- a move that fails is an answer to the guest
        exact hD.move (hm rfl) fun _ => hD.answer _ rfl
  | bn254PairingCheck inputPtr inputLen =>
    show D h (hostPairingCheck E inputPtr inputLen h)
    unfold hostPairingCheck
    refine hD.readMem fun input? => ?_
    split
    · exact hD.answer _ rfl
    · split
      · exact hD.answer _ rfl
      · refine hD.charge fun h => ?_
        split <;> exact hD.answer _ rfl

end HostRules

/-! ## Properties of actions -/

/-- `C` holds of everything a host function of this contract is built from. -/
structure HostClosed (cfg : RuntimeConfig) (C : ∀ {α : Type}, M α → Prop) : Prop where
  pure : ∀ {α : Type} (a : α), C (pure a : M α)
  bind : ∀ {α β : Type} {x : M α} {f : α → M β}, C x → (∀ a, C (f a)) → C (x >>= f)
  stop : ∀ {α : Type} (w : String), C (Act.stop w : M α)
  read : ∀ {α : Type} (f : DB → α), C (Act.read f : M α)
  readMem : ∀ mem ptr length, C (Act.lift (Contract.readMem mem ptr length))
  move : ∀ target amount, C (Act.succeeded (moveTx cfg.selfAddr target amount))

namespace HostClosed

variable {E : Env} {cfg : RuntimeConfig} {C : ∀ {α : Type}, M α → Prop} (hC : HostClosed cfg C)

include hC

theorem rules : HostRules cfg True fun _ x => C x where
  answer _ _ := hC.pure _
  stop _ w := hC.stop w
  charge hk := by
    unfold charged
    split
    · exact hC.pure _
    · exact hk _
  read hk := hC.bind (hC.read _) hk
  readMem hk := hC.bind (hC.readMem _ _ _) hk
  move _ _ _ _ _ hk := hC.bind (hC.move _ _) hk

theorem hostCall (c : HostCall) (h : HostState) : C (Contract.hostCall E cfg c h) :=
  hC.rules.hostCall c h fun _ => trivial

theorem guest {ι : Type} (g : Guest ι) : ∀ state hostErr, C (g.run E cfg state hostErr) := by
  induction g with
  | done val fuel => exact fun _ _ => hC.pure _
  | trap outOfFuel msg => exact fun _ _ => hC.pure _
  | host c mem fuel k ih =>
    intro state hostErr
    exact hC.bind (hC.hostCall c _) fun (r, h) => ih r h.mem h.fuel h.state h.hostErr

end HostClosed

/-! ## Fuel and the database -/

section

variable {E : Env} {cfg : RuntimeConfig}

theorem fuel_rules : HostRules cfg True fun h x => ∀ db r h' db', x db = (.ok (r, h'), db') → h'.fuel ≤ h.fuel where
  answer r hfuel db r' h' db' hx := by
    obtain ⟨hr, -⟩ := Act.pure_ok.mp hx
    obtain ⟨-, rfl⟩ := Prod.mk.inj hr
    exact hfuel ▸ UInt64.le_refl _
  stop h w db r h' db' hx := by cases hx
  charge hk db r h' db' hx := by
    unfold charged at hx
    split at hx
    · obtain ⟨hr, -⟩ := Act.pure_ok.mp hx
      obtain ⟨-, rfl⟩ := Prod.mk.inj hr
      exact UInt64.zero_le
    · rename_i hle
      exact UInt64.le_trans (hk _ db r h' db' hx) (UInt64.sub_le (UInt64.not_lt.mp hle))
  read hk db r h' db' hx := by
    obtain ⟨a, d, -, hx⟩ := Act.bind_ok.mp hx
    exact hk a d r h' db' hx
  readMem hk db r h' db' hx := by
    obtain ⟨a, d, -, hx⟩ := Act.bind_ok.mp hx
    exact hk a d r h' db' hx
  move _ _ _ _ _ hk db r h' db' hx := by
    obtain ⟨a, d, -, hx⟩ := Act.bind_ok.mp hx
    exact hk a d r h' db' hx

theorem hostCall_fuel {c : HostCall} {h h' : HostState} {r : Int} {db db' : DB}
    (hx : hostCall E cfg c h db = (.ok (r, h'), db')) : h'.fuel ≤ h.fuel :=
  fuel_rules.hostCall c h (fun _ => trivial) db r h' db' hx

theorem quiet_rules : HostRules cfg False fun _ x => ∀ db, (x db).2 = db where
  answer _ _ _ := rfl
  stop _ _ _ := rfl
  charge hk db := by
    unfold charged
    split
    · rfl
    · exact hk _ db
  read hk db := hk _ db
  readMem {h mem ptr length k} hk db := by
    rw [Act.bind_run]
    unfold Act.lift
    cases Contract.readMem mem ptr length with
    | ok r => exact hk r db
    | err e => rfl
    | panic w => rfl
  move hno := hno.elim

theorem hostCall_quiet {c : HostCall} (hc : c.isTransfer = false) (h : HostState) (db : DB) :
    (hostCall E cfg c h db).2 = db :=
  quiet_rules.hostCall c h (fun ht => by rw [hc] at ht; cases ht) db

end

end Frg.Contract
