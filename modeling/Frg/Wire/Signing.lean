/-
  Frg.Wire.Signing — which fields of a transaction its sender signs.

  The signed bytes fix the type, the value, the nonce, the evidence fields and the payload
  of the type (`serializeUnsigned_inj`), so two transactions with one sender and one
  signature agree on these (`signed_alike`). The receiver's key, the init arguments and
  the payloads of other types are not among them.
-/

import Frg.Wire.Tx

namespace Frg.Wire

open Frg.Lib Frg.Core

/-- The two transactions agree on every signed field the state machine reads. -/
structure Alike (t u : Tx) : Prop where
  type : t.type = u.type
  value : t.value = u.value
  nonce : t.nonce = u.nonce
  missedHeight : t.missedHeight = u.missedHeight
  missedProposer : t.missedProposer = u.missedProposer
  skipIndex : t.skipIndex = u.skipIndex
  wasmBytes : t.type = .contractDeploy → t.wasmBytes = u.wasmBytes
  callData : t.type = .contractCall → t.callData = u.callData
  evidence : t.type = .equivEvidence → t.evidenceA = u.evidenceA ∧ t.evidenceB = u.evidenceB

theorem Alike.symm {t u : Tx} (h : Alike t u) : Alike u t where
  type := h.type.symm
  value := h.value.symm
  nonce := h.nonce.symm
  missedHeight := h.missedHeight.symm
  missedProposer := h.missedProposer.symm
  skipIndex := h.skipIndex.symm
  wasmBytes e := (h.wasmBytes (h.type.trans e)).symm
  callData e := (h.callData (h.type.trans e)).symm
  evidence e := (h.evidence (h.type.trans e)).imp Eq.symm Eq.symm

/-! ## Length-prefixed fields -/

theorem toBE_append_inj {w a b : Nat} {x y : List UInt8} (ha : a < 256 ^ w) (hb : b < 256 ^ w)
    (h : toBE w a ++ x = toBE w b ++ y) : a = b ∧ x = y := by
  obtain ⟨h1, h2⟩ := List.append_inj h (by simp)
  exact ⟨toBE_inj ha hb h1, h2⟩

theorem field_inj {w : Nat} {f g x y : List UInt8} (hf : f.length < 256 ^ w) (hg : g.length < 256 ^ w)
    (h : toBE w f.length ++ (f ++ x) = toBE w g.length ++ (g ++ y)) : f = g ∧ x = y := by
  obtain ⟨h1, h2⟩ := toBE_append_inj hf hg h
  exact List.append_inj h2 h1

/-! ## The signed bytes -/

variable {P : Prim}

theorem uint256Of_ok {v : Option Int} {n : Nat} (h : uint256Of v = .ok n) : v = some (n : Int) ∧ n < 256 ^ 32 := by
  cases v with
  | none => cases h
  | some v =>
    obtain ⟨_, h1, h2⟩ := Go.bind_eq_ok.mp h
    obtain ⟨h0, hmax⟩ := Go.check_eq_ok.mp h1
    obtain rfl := Go.ok.inj h2
    have hpow : (256 : Nat) ^ 32 = 2 ^ 256 := by norm_num
    have : maxUint256 = 2 ^ 256 - 1 := rfl
    refine ⟨by rw [Int.toNat_of_nonneg h0], ?_⟩
    omega

theorem serializeUnsigned_ok {t : Tx} {s : List UInt8} (h : serializeUnsigned P t = .ok s) :
    ∃ (value : Nat) (ext : List UInt8), t.value = some (value : Int) ∧ value < 256 ^ 32 ∧ serializeExt t = .ok ext ∧
      (P.nfc t.sender).length < 256 ^ 2 ∧ (P.nfc t.receiver).length < 256 ^ 2 ∧
      s = domainTx ++ (t.type.byte :: (toBE 2 (P.nfc t.sender).length ++ (P.nfc t.sender ++
        (toBE 2 (P.nfc t.receiver).length ++ (P.nfc t.receiver ++ (toBE 32 value ++ (toBE 8 t.nonce.toNat ++
        (toBE 8 t.missedHeight.toNat ++ (t.missedProposer.bytes ++ (toBE 4 t.skipIndex.toNat ++ ext)))))))))) := by
  obtain ⟨_, -, h⟩ := Go.bind_eq_ok.mp h
  obtain ⟨value, h1, h⟩ := Go.bind_eq_ok.mp h
  obtain ⟨_, h2, h⟩ := Go.bind_eq_ok.mp h
  obtain ⟨ext, h3, h⟩ := Go.bind_eq_ok.mp h
  obtain ⟨hv, hlt⟩ := uint256Of_ok h1
  obtain ⟨hs, hr⟩ := Go.check_eq_ok.mp h2
  obtain rfl := Go.ok.inj h
  refine ⟨value, ext, hv, hlt, h3, by omega, by omega, ?_⟩
  simp [u16, u32, u64]

theorem serializeExt_inj {t u : Tx} {x : List UInt8} (hty : t.type = u.type) (h : serializeExt t = .ok x)
    (h' : serializeExt u = .ok x) :
    (t.type = .contractDeploy → t.wasmBytes = u.wasmBytes) ∧ (t.type = .contractCall → t.callData = u.callData) ∧
      (t.type = .equivEvidence → t.evidenceA = u.evidenceA ∧ t.evidenceB = u.evidenceB) := by
  unfold serializeExt at h h'
  rw [← hty] at h'
  refine ⟨fun e => ?_, fun e => ?_, fun e => ?_⟩ <;> rw [e] at h h' <;>
    obtain ⟨_, h1, h⟩ := Go.bind_eq_ok.mp h <;> obtain ⟨_, h1', h'⟩ := Go.bind_eq_ok.mp h' <;>
    rw [Go.check_eq_ok] at h1 h1' <;> have h := (Go.ok.inj h).trans (Go.ok.inj h').symm
  · have hmax : maxWasmBytes < 256 ^ 4 := by decide
    exact (toBE_append_inj (w := 4) (by omega) (by omega) h).2
  · exact (toBE_append_inj (w := 2) (by omega) (by omega) h).2
  · simp only [u16, List.append_assoc] at h
    obtain ⟨ha, h⟩ := field_inj (w := 2) (by omega) (by omega) h
    exact ⟨ha, (toBE_append_inj (w := 2) (by omega) (by omega) h).2⟩

theorem serializeUnsigned_inj {t u : Tx} {s : List UInt8} (h : serializeUnsigned P t = .ok s)
    (h' : serializeUnsigned P u = .ok s) : Alike t u := by
  obtain ⟨v, x, hv, hlt, hx, hs, hr, e⟩ := serializeUnsigned_ok h
  obtain ⟨v', x', hv', hlt', hx', hs', hr', e'⟩ := serializeUnsigned_ok h'
  have e := List.append_cancel_left (e.symm.trans e')
  obtain ⟨hty, e⟩ := List.cons.inj e
  have hty := TxType.byte_inj hty
  obtain ⟨-, e⟩ := field_inj hs hs' e
  obtain ⟨-, e⟩ := field_inj hr hr' e
  obtain ⟨hvv, e⟩ := toBE_append_inj hlt hlt' e
  obtain ⟨hn, e⟩ := toBE_append_inj t.nonce.toNat_lt u.nonce.toNat_lt e
  obtain ⟨hm, e⟩ := toBE_append_inj t.missedHeight.toNat_lt u.missedHeight.toNat_lt e
  obtain ⟨hp, e⟩ := List.append_inj e (by simp)
  obtain ⟨hk, hext⟩ := toBE_append_inj t.skipIndex.toNat_lt u.skipIndex.toNat_lt e
  obtain ⟨hw, hc, he⟩ := serializeExt_inj hty hx (hext ▸ hx')
  exact ⟨hty, by rw [hv, hv', hvv], UInt64.toNat_inj.mp hn, UInt64.toNat_inj.mp hm, bytes_inj hp,
    UInt32.toNat_inj.mp hk, hw, hc, he⟩

/-! ## Signatures -/

/-- The two transactions' signed bytes do not collide. -/
def SignedApart (P : Prim) (t u : Tx) (chainID : List UInt8) : Prop :=
  ∀ s s', serializeUnsigned P t = .ok s → serializeUnsigned P u = .ok s' →
    NoCollision P.hash (chainDomainBytes chainID s) (chainDomainBytes chainID s')

theorem verifySigsForChain_ok {t : Tx} {chainID : List UInt8} {u : Unit} (h : verifySigsForChain P t chainID = .ok u) :
    ∃ s, serializeUnsigned P t = .ok s ∧
      P.verify t.senderPubKey (P.hash (chainDomainBytes chainID s)).bytes t.senderSig = true ∧
      ∀ b hb, t.type ≠ .other b hb := by
  obtain ⟨msg, h1, h⟩ := Go.bind_eq_ok.mp h
  obtain ⟨s, hs, h1⟩ := Go.bind_eq_ok.mp h1
  obtain rfl := Go.ok.inj h1
  refine ⟨s, hs, ?_⟩
  cases hty : t.type with
  | other b hb => rw [hty] at h; cases h
  | _ => rw [hty] at h; exact ⟨Go.check_eq_ok.mp h, fun _ _ e => nomatch e⟩

/-- One sender's one signature covers alike transactions only. -/
theorem signed_alike {t u : Tx} {chainID : List UInt8} (hone : OneMessage P.verify) (hap : SignedApart P t u chainID)
    (hpk : t.senderPubKey = u.senderPubKey) (hsig : t.senderSig = u.senderSig)
    (h : verifySigsForChain P t chainID = .ok ()) (h' : verifySigsForChain P u chainID = .ok ()) : Alike t u := by
  obtain ⟨s, hs, hv, -⟩ := verifySigsForChain_ok h
  obtain ⟨s', hs', hv', -⟩ := verifySigsForChain_ok h'
  rw [← hpk, ← hsig] at hv'
  have hbytes := hap s s' hs hs' (hone _ _ _ _ hv hv')
  obtain rfl : s = s' := List.append_cancel_left hbytes
  exact serializeUnsigned_inj hs hs'

end Frg.Wire
