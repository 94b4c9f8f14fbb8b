/-
  Frg.Wire.TxBounds — which inputs make `tx.Deserialize` panic.

  Every read of `Deserialize` but one follows a length test: the two bytes of the
  receiver length are read at the end of the sender unchecked. What is proved:

    - `deserialize_no_panic_iff`: the call panics exactly on inputs whose sender ends
      at the last byte or at the end of the data (`ReceiverLenCut`); on every other
      byte string it returns a transaction or an error.
-/

import Frg.Wire.Tx

namespace Frg.Wire

open Frg.Lib Frg.Core

variable {P : Prim}

theorem uint256Of_panics (v : Option Int) : (uint256Of v).panics = false := by
  cases v with
  | none => rfl
  | some v => exact Go.panics_bind Go.panics_check fun _ _ => rfl

theorem serializeExt_panics (t : Tx) : (serializeExt t).panics = false := by
  unfold serializeExt
  split <;> first | rfl | exact Go.panics_bind Go.panics_check fun _ _ => rfl

theorem serializeUnsigned_panics (t : Tx) : (serializeUnsigned P t).panics = false := by
  refine Go.panics_bind Go.panics_check fun _ _ => ?_
  refine Go.panics_bind (uint256Of_panics _) fun _ _ => ?_
  refine Go.panics_bind Go.panics_check fun _ _ => ?_
  exact Go.panics_bind (serializeExt_panics t) fun _ _ => rfl

theorem serialize_panics (t : Tx) : (serialize P t).panics = false :=
  Go.panics_bind (serializeUnsigned_panics t) fun _ _ => Go.panics_bind Go.panics_check fun _ _ => rfl

theorem verifySigsForChain_panics (t : Tx) (chainID : List UInt8) :
    (verifySigsForChain P t chainID).panics = false := by
  refine Go.panics_bind (Go.panics_bind (serializeUnsigned_panics t) fun _ _ => rfl) fun _ _ => ?_
  split
  · rfl
  · exact Go.panics_check

variable {data : List UInt8} {pos : Nat}

theorem readFixed_panics (w : Nat) (msg : String) : (readFixed w data pos msg).panics = false :=
  Go.panics_bind Go.panics_check fun _ h => slice_panics.mpr ⟨by omega, Go.check_eq_ok.mp h⟩

theorem readField_panics (w : Nat) (m₁ m₂ : String) (h : 192 ≤ data.length) :
    (readField w data pos m₁ m₂).panics = false := by
  refine Go.panics_bind Go.panics_check fun _ h₁ => ?_
  have h₁ := Go.check_eq_ok.mp h₁
  rw [uintAt_ok (by omega), Go.ok_bind]
  refine Go.panics_bind Go.panics_check fun _ h₂ => ?_
  have h₂ := Go.check_eq_ok.mp h₂
  exact Go.panics_bind (slice_panics.mpr ⟨by omega, by omega⟩) fun _ _ => rfl

theorem readWasm_panics (h : 192 ≤ data.length) : (readWasm data pos).panics = false := by
  refine Go.panics_bind Go.panics_check fun _ h₁ => ?_
  have h₁ := Go.check_eq_ok.mp h₁
  rw [uintAt_ok (by omega), Go.ok_bind]
  refine Go.panics_bind Go.panics_check fun _ _ => Go.panics_bind Go.panics_check fun _ h₂ => ?_
  have h₂ := Go.check_eq_ok.mp h₂
  exact Go.panics_bind (slice_panics.mpr ⟨by omega, by omega⟩) fun _ _ => rfl

theorem deserializeExt_panics (type : TxType) (h : 192 ≤ data.length) :
    (deserializeExt type data pos).panics = false := by
  unfold deserializeExt
  split
  · exact Go.panics_bind (readWasm_panics h) fun _ _ => rfl
  · exact Go.panics_bind (readField_panics _ _ _ h) fun _ _ => rfl
  · exact Go.panics_bind (readField_panics _ _ _ h) fun _ _ =>
      Go.panics_bind (readField_panics _ _ _ h) fun _ _ => rfl
  · rfl

theorem deserializeRest_panics (type : TxType) (sender receiver : List UInt8) (h : 192 ≤ data.length) :
    (deserializeRest type sender receiver data pos).panics = false := by
  refine Go.panics_bind (readFixed_panics _ _) fun _ _ => Go.panics_bind (readFixed_panics _ _) fun _ _ => ?_
  refine Go.panics_bind (readFixed_panics _ _) fun _ _ => Go.panics_bind (readFixed_panics _ _) fun _ _ => ?_
  refine Go.panics_bind (readFixed_panics _ _) fun _ _ => Go.panics_bind (deserializeExt_panics _ h) fun _ _ => ?_
  refine Go.panics_bind Go.panics_check fun _ hp => ?_
  have hp := Go.check_eq_ok.mp hp
  -- the four trailing slices end at `pos + 192 = len(data)`
  refine Go.panics_bind (slice_panics.mpr ⟨by omega, by omega⟩) fun _ _ => ?_
  refine Go.panics_bind (slice_panics.mpr ⟨by omega, by omega⟩) fun _ _ => ?_
  refine Go.panics_bind (slice_panics.mpr ⟨by omega, by omega⟩) fun _ _ => ?_
  exact Go.panics_bind (slice_panics.mpr ⟨by omega, by omega⟩) fun _ _ => rfl

/-- The data passes the length and prefix tests, its sender fits, and fewer than two bytes
    follow the sender. `peek 2 data 7` is the sender length. -/
def ReceiverLenCut (data : List UInt8) : Prop :=
  287 ≤ data.length ∧ data.length ≤ maxTxBytes ∧ data.take 6 = domainTx ∧
    9 + peek 2 data 7 ≤ data.length ∧ data.length < 9 + peek 2 data 7 + 2

instance (data : List UInt8) : Decidable (ReceiverLenCut data) := by unfold ReceiverLenCut; infer_instance

theorem deserialize_panics_of_cut (h : ReceiverLenCut data) : (deserialize P data).panics = true := by
  obtain ⟨hmin, hmax, hd, hs, hr⟩ := h
  have hdom : slice (ε := Err) data 0 6 = .ok (data.take 6) := slice_ok (by omega) (by omega)
  obtain ⟨ty, hty⟩ : ∃ ty, (byteAt data 6 : Res UInt8) = .ok ty := byteAt_ok (by omega)
  have hp := (uintAt_panics (ε := Err) (w := 2) hs).mpr hr
  unfold deserialize
  rw [Go.check_pos hmax, Go.ok_bind, Go.check_pos hmin, Go.ok_bind, hdom, Go.ok_bind, Go.check_pos hd, Go.ok_bind,
    hty, Go.ok_bind, uintAt_ok (by omega), Go.ok_bind, Go.check_pos hs, Go.ok_bind, slice_ok (by omega) hs, Go.ok_bind]
  revert hp
  cases uintAt (ε := Err) 2 data (9 + peek 2 data 7) with
  | ok n => simp
  | err e => simp
  | panic w => intro _; rfl

theorem deserialize_panics_of_not_cut (h : ¬ ReceiverLenCut data) : (deserialize P data).panics = false := by
  refine Go.panics_bind Go.panics_check fun _ hmax => Go.panics_bind Go.panics_check fun _ hmin => ?_
  have hmax := Go.check_eq_ok.mp hmax
  have hmin := Go.check_eq_ok.mp hmin
  have hdom : slice (ε := Err) data 0 6 = .ok (data.take 6) := slice_ok (by omega) (by omega)
  rw [hdom, Go.ok_bind]
  refine Go.panics_bind Go.panics_check fun _ hd => ?_
  have hd := Go.check_eq_ok.mp hd
  obtain ⟨ty, hty⟩ : ∃ ty, (byteAt data 6 : Res UInt8) = .ok ty := byteAt_ok (by omega)
  rw [hty, Go.ok_bind, uintAt_ok (by omega), Go.ok_bind]
  refine Go.panics_bind Go.panics_check fun _ hs => ?_
  have hs := Go.check_eq_ok.mp hs
  have hr : 9 + peek 2 data 7 + 2 ≤ data.length := not_lt.mp fun hr => h ⟨hmin, hmax, hd, hs, hr⟩
  rw [slice_ok (by omega) hs, Go.ok_bind, uintAt_ok hr, Go.ok_bind]
  refine Go.panics_bind Go.panics_check fun _ h₂ => ?_
  refine Go.panics_bind (slice_panics.mpr ⟨by omega, Go.check_eq_ok.mp h₂⟩) fun _ _ => ?_
  refine Go.panics_bind (deserializeRest_panics _ _ _ (by omega)) fun _ _ => ?_
  exact Go.panics_bind (serialize_panics _) fun _ _ => Go.panics_bind Go.panics_check fun _ _ => rfl

/-- `Deserialize` returns a transaction or an error on exactly the inputs that are not cut
    inside the receiver length. -/
theorem deserialize_no_panic_iff (P : Prim) (data : List UInt8) :
    (deserialize P data).panics = false ↔ ¬ ReceiverLenCut data := by
  refine ⟨fun h hcut => ?_, deserialize_panics_of_not_cut⟩
  rw [deserialize_panics_of_cut hcut] at h
  exact Bool.noConfusion h

/-- 287 bytes that claim a sender of 278, the whole of the rest. -/
def cutInput : List UInt8 := domainTx ++ [1] ++ u16 278 ++ List.replicate 278 0x61

theorem deserialize_panics_on_cutInput : (deserialize Prim.sample cutInput).panics = true := by
  decide +kernel

end Frg.Wire
