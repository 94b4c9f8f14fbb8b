/-
  Frg.Wire.RoundTrip — what `Deserialize` and `DeserializeBatch` make of written bytes.

  `Deserialize` writes what it has read again and compares, so a transaction it returns
  always has the bytes it came from (`deserialize_canonical`). The other direction needs a
  transaction with nothing the bytes do not carry (`Canonical`, `deserialize_serialize`); any
  other one comes back normalised (`tx_survives_wire`).

  In a batch every transaction has a 16-bit length in front (`Framable`), and `serializeBatch_ok`
  says when a list of them can be written. The count has 16 bits too, one less than 65536
  transactions need: these are written as none. What was written is read back exactly when
  there are fewer (`deserializeBatch_serializeBatch`, `deserializeBatch_full`). What was read is
  written as the bytes it came from (`deserializeBatch_canonical`).
-/

import Frg.Wire.Signing

namespace Frg.Wire

open Frg.Lib Frg.Core

variable {P : Prim}

/-- The transaction came out of `Deserialize`. -/
def Decoded (P : Prim) (t : Tx) : Prop := ∃ data, deserialize P data = .ok t

theorem deserialize_canonical {data : List UInt8} {t : Tx} (h : deserialize P data = .ok t) :
    serialize P t = .ok data ∧ data.length ≤ maxTxBytes := by
  unfold deserialize at h
  obtain ⟨_, hmax, h⟩ := Go.bind_eq_ok.mp h
  obtain ⟨_, -, h⟩ := Go.bind_eq_ok.mp h
  obtain ⟨_, -, h⟩ := Go.bind_eq_ok.mp h
  obtain ⟨_, -, h⟩ := Go.bind_eq_ok.mp h
  obtain ⟨_, -, h⟩ := Go.bind_eq_ok.mp h
  obtain ⟨_, -, h⟩ := Go.bind_eq_ok.mp h
  obtain ⟨_, -, h⟩ := Go.bind_eq_ok.mp h
  obtain ⟨_, -, h⟩ := Go.bind_eq_ok.mp h
  obtain ⟨_, -, h⟩ := Go.bind_eq_ok.mp h
  obtain ⟨_, -, h⟩ := Go.bind_eq_ok.mp h
  obtain ⟨_, -, h⟩ := Go.bind_eq_ok.mp h
  obtain ⟨parsed, -, h⟩ := Go.bind_eq_ok.mp h
  obtain ⟨canonical, hser, h⟩ := Go.bind_eq_ok.mp h
  obtain ⟨_, heq, h⟩ := Go.bind_eq_ok.mp h
  obtain rfl := Go.ok.inj h
  exact ⟨Go.check_eq_ok.mp heq ▸ hser, Go.check_eq_ok.mp hmax⟩

theorem Decoded.reads {t : Tx} (h : Decoded P t) {data : List UInt8} (hs : serialize P t = .ok data) :
    deserialize P data = .ok t := by
  obtain ⟨data', h⟩ := h
  obtain rfl := Go.ok.inj (hs.symm.trans (deserialize_canonical h).1)
  exact h

/-! ## One transaction -/

/-- Nothing of the transaction is lost in its bytes. -/
structure Canonical (P : Prim) (t : Tx) : Prop where
  sender : P.nfc t.sender = t.sender
  receiver : P.nfc t.receiver = t.receiver
  initArgs : t.initArgs = []
  wasmBytes : t.type ≠ .contractDeploy → t.wasmBytes = []
  callData : t.type ≠ .contractCall → t.callData = []
  evidence : t.type ≠ .equivEvidence → t.evidenceA = [] ∧ t.evidenceB = []

section

variable {data rest f : List UInt8} {pos w : Nat}

theorem readFixed_cursor (h : Cursor data pos (f ++ rest)) (hf : f.length = w) (msg : String) :
    readFixed w data pos msg = .ok f := by
  have hlen := h.length
  rw [List.length_append] at hlen
  unfold readFixed
  rw [Go.check_pos (by omega), Go.ok_bind, h.slice (by omega)]

theorem readField_cursor (h : Cursor data pos (toBE w f.length ++ (f ++ rest))) (hf : f.length < 256 ^ w)
    (hrest : 192 ≤ rest.length) (m₁ m₂ : String) : readField w data pos m₁ m₂ = .ok (f, pos + w + f.length) := by
  have hlen := h.length
  simp only [List.length_append, length_toBE] at hlen
  have hbody := h.skip (length_toBE w f.length)
  unfold readField
  rw [Go.check_pos (by omega), Go.ok_bind, h.uintAt hf, Go.ok_bind]
  dsimp only
  rw [Go.check_pos (by omega), Go.ok_bind, hbody.slice rfl, Go.ok_bind, Go.pure_eq]

theorem readWasm_cursor (h : Cursor data pos (toBE 4 f.length ++ (f ++ rest))) (hf : f.length ≤ maxWasmBytes)
    (hrest : 192 ≤ rest.length) : readWasm data pos = .ok (f, pos + 4 + f.length) := by
  have hlen := h.length
  simp only [List.length_append, length_toBE] at hlen
  have hbody := h.skip (length_toBE 4 f.length)
  have hmax : maxWasmBytes < 256 ^ 4 := by decide
  unfold readWasm
  rw [Go.check_pos (by omega), Go.ok_bind, h.uintAt (by omega), Go.ok_bind, Go.check_pos hf, Go.ok_bind,
    Go.check_pos (by omega), Go.ok_bind, hbody.slice rfl, Go.ok_bind, Go.pure_eq]

def Tx.payload (t : Tx) : Payload := ⟨t.wasmBytes, t.callData, t.evidenceA, t.evidenceB⟩

theorem deserializeExt_cursor {t : Tx} {ext : List UInt8} (hc : Canonical P t) (hx : serializeExt t = .ok ext)
    (h : Cursor data pos (ext ++ rest)) (hrest : 192 ≤ rest.length) :
    deserializeExt t.type data pos = .ok (t.payload, pos + ext.length) := by
  unfold serializeExt at hx
  unfold deserializeExt Tx.payload
  split at hx
  · rename_i hty
    obtain ⟨_, hb, hx⟩ := Go.bind_eq_ok.mp hx
    obtain rfl := Go.ok.inj hx
    rw [u32, List.append_assoc] at h
    obtain ⟨ha, hb'⟩ := hc.evidence (by rw [hty]; decide)
    simp only [readWasm_cursor h (Go.check_eq_ok.mp hb) hrest, Go.ok_bind, hc.callData (by rw [hty]; decide), ha,
      hb', u32, List.length_append, length_toBE, Nat.add_assoc]
    rfl
  · rename_i hty
    obtain ⟨_, hb, hx⟩ := Go.bind_eq_ok.mp hx
    obtain rfl := Go.ok.inj hx
    have hb := Go.check_eq_ok.mp hb
    rw [u16, List.append_assoc] at h
    obtain ⟨ha, hb'⟩ := hc.evidence (by rw [hty]; decide)
    simp only [readField_cursor h (by omega) hrest, Go.ok_bind, hc.wasmBytes (by rw [hty]; decide), ha, hb', u16,
      List.length_append, length_toBE, Nat.add_assoc]
    rfl
  · rename_i hty
    obtain ⟨_, hb, hx⟩ := Go.bind_eq_ok.mp hx
    obtain rfl := Go.ok.inj hx
    have hb := Go.check_eq_ok.mp hb
    simp only [u16, List.append_assoc] at h
    have h' := (h.skip (length_toBE 2 _)).skip rfl
    rw [readField_cursor h (by omega) (by simp; omega), Go.ok_bind]
    dsimp only
    rw [readField_cursor h' (by omega) hrest, Go.ok_bind]
    simp only [hc.wasmBytes (by rw [hty]; decide), hc.callData (by rw [hty]; decide), Go.pure_eq, u16,
      List.length_append, length_toBE, Nat.add_assoc]
  · rename_i h1 h2 h3
    obtain rfl := Go.ok.inj hx
    obtain ⟨ha, hb⟩ := hc.evidence h3
    rw [hc.wasmBytes h1, hc.callData h2, ha, hb]
    rfl

theorem deserializeRest_cursor {t : Tx} {value : Nat} {ext : List UInt8} (hc : Canonical P t)
    (hv : t.value = some (value : Int)) (hlt : value < 256 ^ 32) (hx : serializeExt t = .ok ext)
    (h : Cursor data pos (toBE 32 value ++ (toBE 8 t.nonce.toNat ++ (toBE 8 t.missedHeight.toNat ++
      (t.missedProposer.bytes ++ (toBE 4 t.skipIndex.toNat ++ (ext ++ (t.senderPubKey.bytes ++
      (t.receiverPubKey.bytes ++ (t.senderSig.bytes ++ t.receiverSig.bytes)))))))))) :
    deserializeRest t.type t.sender t.receiver data pos = .ok t := by
  have h1 := h.skip (length_toBE 32 _)
  have h2 := h1.skip (length_toBE 8 _)
  have h3 := h2.skip (length_toBE 8 _)
  have h4 := h3.skip (length_bytes _)
  have h5 := h4.skip (length_toBE 4 _)
  have h6 := h5.next
  have h7 := h6.skip (length_bytes _)
  have h8 := h7.skip (length_bytes _)
  have h9 := h8.skip (length_bytes _)
  rw [← List.append_nil t.receiverSig.bytes] at h9
  have hlen := h9.length
  simp only [List.append_nil, length_bytes] at hlen
  unfold deserializeRest
  rw [readFixed_cursor h (by simp), Go.ok_bind, readFixed_cursor h1 (by simp), Go.ok_bind,
    readFixed_cursor h2 (by simp), Go.ok_bind, readFixed_cursor h3 (by simp), Go.ok_bind,
    readFixed_cursor h4 (by simp), Go.ok_bind, deserializeExt_cursor hc hx h5 (by simp), Go.ok_bind]
  dsimp only
  rw [Go.check_pos (by omega), Go.ok_bind, h6.slice (by simp), Go.ok_bind, h7.slice (by simp), Go.ok_bind,
    h8.slice (by simp), Go.ok_bind, h9.slice (by simp), Go.ok_bind, Go.pure_eq]
  simp only [ofBE_toBE _ _ hlt, ofBE_toBE 8 _ t.nonce.toNat_lt, ofBE_toBE 8 _ t.missedHeight.toNat_lt,
    ofBE_toBE 4 _ t.skipIndex.toNat_lt, wordOf_bytes, UInt64.ofNat_toNat, UInt32.ofNat_toNat, Tx.payload, ← hv,
    ← hc.initArgs]

/-- What `Serialize` wrote for a canonical transaction is read back as it was. -/
theorem deserialize_serialize {t : Tx} (hc : Canonical P t) (h : serialize P t = .ok data) :
    deserialize P data = .ok t := by
  have hser := h
  obtain ⟨unsigned, hun, h⟩ := Go.bind_eq_ok.mp h
  obtain ⟨_, hmax, h⟩ := Go.bind_eq_ok.mp h
  have hmax := Go.check_eq_ok.mp hmax
  have hdata := (Go.ok.inj h).symm
  obtain ⟨value, ext, hv, hlt, hx, hs, hr, hun⟩ := serializeUnsigned_ok hun
  have hlen : data.length = unsigned.length + 192 := by rw [hdata]; simp
  rw [hc.sender] at hs hun
  rw [hc.receiver] at hr hun
  rw [hun] at hdata
  simp only [List.append_assoc, List.cons_append] at hdata
  have h0 := Cursor.start hdata
  have h6 := h0.skip (w := 6) rfl
  have h7 : Cursor data 7 _ := h6.skip (f := [_]) rfl
  have h9 := h7.skip (length_toBE 2 _)
  have hr0 := h9.next
  have hr2 := hr0.skip (length_toBE 2 _)
  have hend := hr2.next
  have hlens := hend.length
  simp only [List.length_append, length_toBE, length_bytes] at hlens
  unfold deserialize
  rw [Go.check_pos (by omega), Go.ok_bind, Go.check_pos (by omega), Go.ok_bind, h0.slice (b := 6) rfl, Go.ok_bind,
    Go.check_pos rfl, Go.ok_bind, h6.byteAt, Go.ok_bind, h7.uintAt hs, Go.ok_bind, Go.check_pos (by omega), Go.ok_bind,
    h9.slice rfl, Go.ok_bind, hr0.uintAt hr, Go.ok_bind]
  have hpos : 11 + t.sender.length = 7 + 2 + t.sender.length + 2 := by omega
  rw [hpos, Go.check_pos (by omega), Go.ok_bind, hr2.slice rfl, Go.ok_bind, TxType.ofByte_byte,
    deserializeRest_cursor hc hv hlt hx hend, Go.ok_bind, hser, Go.ok_bind, Go.check_pos rfl, Go.ok_bind, Go.pure_eq]

/-! ### Transactions that are not canonical -/

/-- What the standard says of NFC, on the strings `Serialize` accepts. -/
structure NfcRules (P : Prim) : Prop where
  idem : ∀ s, validString s = true → P.nfc (P.nfc s) = P.nfc s
  valid : ∀ s, validString s = true → validString (P.nfc s) = true

/-- The transaction with normalised names, and without what its type does not carry. -/
def Tx.normal (P : Prim) (t : Tx) : Tx :=
  { t with
    sender := P.nfc t.sender
    receiver := P.nfc t.receiver
    initArgs := []
    wasmBytes := if t.type = .contractDeploy then t.wasmBytes else []
    callData := if t.type = .contractCall then t.callData else []
    evidenceA := if t.type = .equivEvidence then t.evidenceA else []
    evidenceB := if t.type = .equivEvidence then t.evidenceB else [] }

theorem serializeExt_normal (t : Tx) : serializeExt (t.normal P) = serializeExt t := by
  unfold serializeExt Tx.normal
  dsimp only
  split <;> rename_i hty
  · rw [if_pos hty]
  · rw [if_pos hty]
  · rw [if_pos hty, if_pos hty]
  · rfl

/-- The unsigned bytes do not change, so neither do the hashes made of them. -/
theorem serializeUnsigned_normal (hnfc : NfcRules P) {t : Tx} {s : List UInt8} (h : serializeUnsigned P t = .ok s) :
    serializeUnsigned P (t.normal P) = .ok s := by
  obtain ⟨_, hvalid, h⟩ := Go.bind_eq_ok.mp h
  obtain ⟨hsender, hreceiver⟩ := Go.check_eq_ok.mp hvalid
  have hvalid' : validString (t.normal P).sender ∧ validString (t.normal P).receiver :=
    ⟨hnfc.valid _ hsender, hnfc.valid _ hreceiver⟩
  have hs : P.nfc (t.normal P).sender = P.nfc t.sender := hnfc.idem _ hsender
  have hr : P.nfc (t.normal P).receiver = P.nfc t.receiver := hnfc.idem _ hreceiver
  unfold serializeUnsigned
  rw [Go.check_pos hvalid', Go.ok_bind, hs, hr, serializeExt_normal]
  exact h

theorem serialize_normal (hnfc : NfcRules P) {t : Tx} (h : serialize P t = .ok data) :
    serialize P (t.normal P) = .ok data := by
  obtain ⟨unsigned, hun, h⟩ := Go.bind_eq_ok.mp h
  unfold serialize
  rw [serializeUnsigned_normal hnfc hun, Go.ok_bind]
  exact h

theorem canonical_normal (hnfc : NfcRules P) {t : Tx} {s : List UInt8} (h : serializeUnsigned P t = .ok s) :
    Canonical P (t.normal P) := by
  obtain ⟨_, hvalid, -⟩ := Go.bind_eq_ok.mp h
  obtain ⟨hsender, hreceiver⟩ := Go.check_eq_ok.mp hvalid
  exact ⟨hnfc.idem _ hsender, hnfc.idem _ hreceiver, rfl, fun hty => if_neg hty, fun hty => if_neg hty,
    fun hty => ⟨if_neg hty, if_neg hty⟩⟩

/-- A transaction that can be written is read back normalised, with the hashes it had. -/
theorem tx_survives_wire (hnfc : NfcRules P) {t : Tx} (h : serialize P t = .ok data) :
    deserialize P data = .ok (t.normal P) ∧ (t.normal P).id P = t.id P ∧
      ∀ chainID, unsignedHashForChain P (t.normal P) chainID = unsignedHashForChain P t chainID := by
  obtain ⟨unsigned, hun, -⟩ := Go.bind_eq_ok.mp h
  have hnormal := serializeUnsigned_normal hnfc hun
  refine ⟨deserialize_serialize (canonical_normal hnfc hun) (serialize_normal hnfc h), ?_, fun chainID => ?_⟩
  · unfold Tx.id
    rw [hnormal, hun]
  · unfold unsignedHashForChain
    rw [hnormal, hun]

end

theorem nfcRules_sample : NfcRules Prim.sample := ⟨fun _ _ => rfl, fun _ h => h⟩

/-- A transfer with init arguments and call data that no transfer carries. -/
def stuffedTx : Tx := { Tx.plain .transfer 1 2 10 1 with initArgs := [1], callData := [2, 3] }

theorem tx_survives_wire_stuffed : ∃ data, serialize Prim.sample stuffedTx = .ok data ∧
    deserialize Prim.sample data = .ok { stuffedTx with initArgs := [], callData := [] } ∧
    (stuffedTx.normal Prim.sample).id Prim.sample = stuffedTx.id Prim.sample := by
  obtain ⟨data, hdata⟩ := Go.isOk_iff.mp (show (serialize Prim.sample stuffedTx).isOk = true by decide +kernel)
  obtain ⟨hread, hid, -⟩ := tx_survives_wire nfcRules_sample hdata
  exact ⟨data, hdata, hread, hid⟩

/-! ## Batches -/

/-- The bytes of a transaction that has some. -/
def Tx.wire (P : Prim) (t : Tx) : List UInt8 :=
  match serialize P t with
  | .ok b => b
  | _ => []

theorem wire_eq {t : Tx} {b : List UInt8} (h : serialize P t = .ok b) : t.wire P = b := by
  unfold Tx.wire
  rw [h]

theorem Decoded.serialize {t : Tx} (h : Decoded P t) : serialize P t = .ok (t.wire P) := by
  obtain ⟨data, h⟩ := h
  have hs := (deserialize_canonical h).1
  rw [wire_eq hs, hs]

/-- The transaction can be written, and its length in 16 bits. -/
def Framable (P : Prim) (t : Tx) : Prop := serialize P t = .ok (t.wire P) ∧ (t.wire P).length ≤ 0xFFFF

/-- The transactions of a batch, each behind its length. -/
def batchBody (P : Prim) (txs : List Tx) : List UInt8 := txs.flatMap fun t => u16 (t.wire P).length ++ t.wire P

theorem batchBody_cons (t : Tx) (ts : List Tx) :
    batchBody P (t :: ts) = u16 (t.wire P).length ++ (t.wire P ++ batchBody P ts) := by
  simp [batchBody]

theorem length_batchBody (txs : List Tx) :
    (batchBody P txs).length = (txs.map fun t => 2 + (t.wire P).length).sum := by
  induction txs with
  | nil => rfl
  | cons t ts ih => simp [batchBody_cons, ih, u16, Nat.add_assoc]

section

variable {buf out data rest : List UInt8} {ts : List Tx} {pos : Nat}

/-- The size is checked behind every transaction; the last check is the strongest. -/
theorem batchLoop_ok : batchLoop P buf ts = .ok out ↔
    (∀ t ∈ ts, Framable P t) ∧ (ts ≠ [] → (buf ++ batchBody P ts).length ≤ maxBatchBytes) ∧
      out = buf ++ batchBody P ts := by
  induction ts generalizing buf with
  | nil => simp [batchLoop, batchBody, eq_comm]
  | cons t ts ih =>
    constructor
    · intro h
      obtain ⟨b, hb, h⟩ := Go.bind_eq_ok.mp h
      obtain ⟨_, hlen, h⟩ := Go.bind_eq_ok.mp h
      obtain ⟨_, hsize, h⟩ := Go.bind_eq_ok.mp h
      obtain ⟨hts, hmax, hout⟩ := ih.mp h
      obtain rfl := wire_eq hb
      refine ⟨fun t' ht' => ?_, fun _ => ?_, ?_⟩
      · rcases List.mem_cons.mp ht' with rfl | ht'
        · exact ⟨hb, Go.check_eq_ok.mp hlen⟩
        · exact hts t' ht'
      · by_cases hnil : ts = []
        · subst hnil
          simpa [batchBody] using Go.check_eq_ok.mp hsize
        · simpa [batchBody_cons] using hmax hnil
      · rw [hout, batchBody_cons]
        simp
    · rintro ⟨hts, hmax, rfl⟩
      have hmax := hmax (List.cons_ne_nil t ts)
      obtain ⟨hb, hlen⟩ := hts t List.mem_cons_self
      rw [batchBody_cons] at hmax
      simp only [List.length_append] at hmax
      unfold batchLoop
      rw [hb, Go.ok_bind, Go.check_pos hlen, Go.ok_bind]
      dsimp only
      rw [Go.check_pos (by simp only [List.length_append]; omega), Go.ok_bind, ih]
      refine ⟨fun t' ht' => hts t' (List.mem_cons_of_mem t ht'), fun _ => ?_, ?_⟩
      · simp only [List.length_append]
        omega
      · simp [batchBody_cons]

theorem serializeBatch_ok : serializeBatch P ts = .ok out ↔
    ts ≠ [] ∧ ts.length ≤ maxBatchTxs ∧ (∀ t ∈ ts, Framable P t) ∧ 14 + (batchBody P ts).length ≤ maxBatchBytes ∧
      out = domainTxBatch ++ u16 ts.length ++ batchBody P ts := by
  have hlen : (domainTxBatch ++ u16 ts.length ++ batchBody P ts).length = 14 + (batchBody P ts).length := by
    simp [u16, domainTxBatch]
    omega
  unfold serializeBatch
  constructor
  · intro h
    obtain ⟨_, hne, h⟩ := Go.bind_eq_ok.mp h
    obtain ⟨_, hcount, h⟩ := Go.bind_eq_ok.mp h
    obtain ⟨hts, hmax, hout⟩ := batchLoop_ok.mp h
    have hne := Go.check_eq_ok.mp hne
    exact ⟨hne, Go.check_eq_ok.mp hcount, hts, hlen ▸ hmax hne, hout⟩
  · rintro ⟨hne, hcount, hts, hmax, hout⟩
    rw [Go.check_pos hne, Go.ok_bind, Go.check_pos hcount, Go.ok_bind]
    exact batchLoop_ok.mpr ⟨hts, fun _ => hlen ▸ hmax, hout⟩

theorem serializeBatch_length (h : serializeBatch P ts = .ok out) : 14 ≤ out.length := by
  obtain ⟨-, -, -, -, hout⟩ := serializeBatch_ok.mp h
  rw [hout]
  simp [domainTxBatch, u16]

theorem readTxs_cursor (h : Cursor data pos (batchBody P ts ++ rest)) (hf : ∀ t ∈ ts, Framable P t)
    (hd : ∀ t ∈ ts, Decoded P t) : readTxs P data pos ts.length = .ok (ts, pos + (batchBody P ts).length) := by
  induction ts generalizing pos with
  | nil => rfl
  | cons t ts ih =>
    obtain ⟨hb, hlen⟩ := hf t List.mem_cons_self
    rw [batchBody_cons, u16, List.append_assoc, List.append_assoc] at h
    have hbody := h.skip (length_toBE 2 _)
    have hrest := hbody.next
    have hend := hrest.length
    rw [List.length_cons, readTxs, Go.check_pos (by omega), Go.ok_bind, h.uintAt (by omega), Go.ok_bind]
    dsimp only
    rw [Go.check_pos (by omega), Go.ok_bind, hbody.slice rfl, Go.ok_bind,
      (hd t List.mem_cons_self).reads hb, Go.ok_bind,
      ih hrest (fun t' ht' => hf t' (List.mem_cons_of_mem t ht')) fun t' ht' => hd t' (List.mem_cons_of_mem t ht')]
    simp [batchBody_cons, u16, Nat.add_assoc]

/-- A batch of fewer than 65536 transactions is read back. -/
theorem deserializeBatch_serializeBatch (h : serializeBatch P ts = .ok out) (hd : ∀ t ∈ ts, Decoded P t)
    (hcount : ts.length < 65536) : deserializeBatch P out = .ok ts := by
  obtain ⟨-, -, hts, hmax, hout⟩ := serializeBatch_ok.mp h
  rw [List.append_assoc] at hout
  have h0 := Cursor.start hout
  have h1 := h0.skip (w := 12) rfl
  have h2 := h1.skip (length_toBE 2 _)
  rw [← List.append_nil (batchBody P ts)] at h2
  have hlen := h2.length
  rw [List.append_nil] at hlen
  have hmaxTxs : ts.length ≤ maxBatchTxs := by unfold maxBatchTxs; omega
  unfold deserializeBatch
  rw [Go.check_pos (by omega), Go.ok_bind, Go.check_pos (by omega), Go.ok_bind, h0.slice (b := 12) rfl, Go.ok_bind,
    Go.check_pos rfl, Go.ok_bind, h1.uintAt (by omega), Go.ok_bind, Go.check_pos hmaxTxs, Go.ok_bind,
    readTxs_cursor h2 hts hd, Go.ok_bind]
  dsimp only
  rw [Go.check_pos (by omega), Go.ok_bind, Go.pure_eq]

/-- A batch of 65536 transactions says it has none. -/
theorem deserializeBatch_full (h : serializeBatch P ts = .ok out) (hcount : ts.length = 65536) :
    deserializeBatch P out = .err (.rg .canonicalEncodingDistortion "non-canonical batch trailing bytes") := by
  obtain ⟨hne, -, -, hmax, hout⟩ := serializeBatch_ok.mp h
  have hwrap : u16 ts.length = toBE 2 0 := by rw [hcount]; rfl
  rw [List.append_assoc, hwrap] at hout
  have h0 := Cursor.start hout
  have h1 := h0.skip (w := 12) rfl
  have hlen := (h1.skip (length_toBE 2 0)).length
  have hpos : 0 < (batchBody P ts).length := by
    cases ts with
    | nil => exact absurd rfl hne
    | cons t ts =>
      rw [batchBody_cons, u16, List.length_append, length_toBE]
      omega
  unfold deserializeBatch
  rw [Go.check_pos (by omega), Go.ok_bind, Go.check_pos (by omega), Go.ok_bind, h0.slice (b := 12) rfl, Go.ok_bind,
    Go.check_pos rfl, Go.ok_bind, h1.uintAt (by decide), Go.ok_bind, Go.check_pos (by decide), Go.ok_bind]
  show (Go.check (14 = out.length) _ >>= fun _ => pure []) = _
  rw [Go.check_neg (by omega), Go.err_bind]

theorem readTxs_decoded : ∀ {n : Nat} {data : List UInt8} {pos pos' : Nat} {txs : List Tx},
    readTxs P data pos n = .ok (txs, pos') → ∀ t ∈ txs, Decoded P t := by
  intro n
  induction n with
  | zero =>
    intro data pos pos' txs h t ht
    obtain ⟨rfl, -⟩ := Prod.mk.inj (Go.ok.inj h)
    cases ht
  | succ n ih =>
    intro data pos pos' txs h t ht
    obtain ⟨_, -, h⟩ := Go.bind_eq_ok.mp h
    obtain ⟨_, -, h⟩ := Go.bind_eq_ok.mp h
    obtain ⟨_, -, h⟩ := Go.bind_eq_ok.mp h
    obtain ⟨bytes, -, h⟩ := Go.bind_eq_ok.mp h
    obtain ⟨t', ht', h⟩ := Go.bind_eq_ok.mp h
    obtain ⟨⟨ts, p⟩, hts, h⟩ := Go.bind_eq_ok.mp h
    obtain ⟨rfl, -⟩ := Prod.mk.inj (Go.ok.inj h)
    rcases List.mem_cons.mp ht with rfl | ht
    · exact ⟨bytes, ht'⟩
    · exact ih hts t ht

theorem deserializeBatch_decoded {data : List UInt8} {txs : List Tx} (h : deserializeBatch P data = .ok txs) :
    ∀ t ∈ txs, Decoded P t := by
  unfold deserializeBatch at h
  obtain ⟨_, -, h⟩ := Go.bind_eq_ok.mp h
  obtain ⟨_, -, h⟩ := Go.bind_eq_ok.mp h
  obtain ⟨_, -, h⟩ := Go.bind_eq_ok.mp h
  obtain ⟨_, -, h⟩ := Go.bind_eq_ok.mp h
  obtain ⟨_, -, h⟩ := Go.bind_eq_ok.mp h
  obtain ⟨_, -, h⟩ := Go.bind_eq_ok.mp h
  obtain ⟨⟨ts, pos⟩, hts, h⟩ := Go.bind_eq_ok.mp h
  obtain ⟨_, -, h⟩ := Go.bind_eq_ok.mp h
  obtain rfl := Go.ok.inj h
  exact readTxs_decoded hts

/-! ### Bytes that were read -/

theorem deserialize_framable {t : Tx} (h : deserialize P data = .ok t) (hlen : data.length ≤ 0xFFFF) :
    Framable P t ∧ t.wire P = data := by
  have hwire := wire_eq (deserialize_canonical h).1
  refine ⟨⟨?_, by rw [hwire]; exact hlen⟩, hwire⟩
  rw [hwire]
  exact (deserialize_canonical h).1

theorem readTxs_canonical : ∀ {n pos pos' : Nat} {rest : List UInt8} {txs : List Tx}, Cursor data pos rest →
    readTxs P data pos n = .ok (txs, pos') → txs.length = n ∧ (∀ t ∈ txs, Framable P t) ∧
      ∃ rest', rest = batchBody P txs ++ rest' ∧ Cursor data pos' rest' := by
  intro n
  induction n with
  | zero =>
    intro pos pos' rest txs hcur h
    obtain ⟨rfl, rfl⟩ := Prod.mk.inj (Go.ok.inj h)
    exact ⟨rfl, fun t ht => absurd ht List.not_mem_nil, rest, rfl, hcur⟩
  | succ n ih =>
    intro pos pos' rest txs hcur h
    obtain ⟨_, -, h⟩ := Go.bind_eq_ok.mp h
    obtain ⟨txLen, hn, h⟩ := Go.bind_eq_ok.mp h
    obtain ⟨_, -, h⟩ := Go.bind_eq_ok.mp h
    obtain ⟨bytes, hb, h⟩ := Go.bind_eq_ok.mp h
    obtain ⟨t, ht, h⟩ := Go.bind_eq_ok.mp h
    obtain ⟨⟨ts, p⟩, hts, h⟩ := Go.bind_eq_ok.mp h
    obtain ⟨rfl, rfl⟩ := Prod.mk.inj (Go.ok.inj h)
    obtain ⟨rest₁, rfl, hlt, hcur₁⟩ := hcur.uintAt_read hn
    obtain ⟨rest₂, rfl, hlen, hcur₂⟩ := hcur₁.slice_read hb
    have hbytes : bytes.length = txLen := by omega
    obtain ⟨hframe, hwire⟩ := deserialize_framable ht (by omega)
    obtain ⟨hcount, hframes, rest₃, rfl, hend⟩ := ih hcur₂ hts
    refine ⟨by rw [List.length_cons, hcount], ?_, rest₃, ?_, hend⟩
    · intro t' ht'
      rcases List.mem_cons.mp ht' with rfl | ht'
      · exact hframe
      · exact hframes t' ht'
    · rw [batchBody_cons, hwire, hbytes, u16, List.append_assoc, List.append_assoc]

/-- A batch that was read is written as the bytes it came from, unless it is empty. -/
theorem deserializeBatch_canonical {txs : List Tx} (h : deserializeBatch P data = .ok txs) (hne : txs ≠ []) :
    serializeBatch P txs = .ok data := by
  unfold deserializeBatch at h
  obtain ⟨_, hmax, h⟩ := Go.bind_eq_ok.mp h
  obtain ⟨_, -, h⟩ := Go.bind_eq_ok.mp h
  obtain ⟨domain, hdomain, h⟩ := Go.bind_eq_ok.mp h
  obtain ⟨_, hmagic, h⟩ := Go.bind_eq_ok.mp h
  obtain ⟨count, hcount, h⟩ := Go.bind_eq_ok.mp h
  obtain ⟨_, hmaxTxs, h⟩ := Go.bind_eq_ok.mp h
  obtain ⟨⟨ts, pos⟩, hts, h⟩ := Go.bind_eq_ok.mp h
  obtain ⟨_, hend, h⟩ := Go.bind_eq_ok.mp h
  obtain rfl := Go.ok.inj h
  obtain ⟨rest₁, hdata, hlen, h12⟩ := (Cursor.start rfl).slice_read hdomain
  obtain ⟨rest₂, rfl, hlt, h14⟩ := h12.uintAt_read hcount
  obtain ⟨rfl, hframes, rest₃, rfl, hlast⟩ := readTxs_canonical h14 hts
  have hnil : rest₃ = [] := by
    have hlength := hlast.length
    rw [← Go.check_eq_ok.mp hend] at hlength
    exact List.length_eq_zero_iff.mp (by omega)
  have hsize := h14.length
  have hmax := Go.check_eq_ok.mp hmax
  rw [Go.check_eq_ok.mp hmagic, hnil, List.append_nil] at hdata
  rw [hnil, List.append_nil] at hsize
  refine serializeBatch_ok.mpr ⟨hne, Go.check_eq_ok.mp hmaxTxs, hframes, by omega, ?_⟩
  rw [hdata, u16, List.append_assoc]

end

end Frg.Wire
