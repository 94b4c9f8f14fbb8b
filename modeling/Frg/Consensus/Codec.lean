/-
  Frg.Consensus.Codec — votes and proposals read back from their bytes.

    - `deserializeVote_serializeVote`: every vote is read back as it was.
    - `validateEquivocationEvidenceTx_ok`: the check of equivocation evidence reads and verifies
      votes with its own copies of the engine's functions, and accepts the same ones.
    - `deserializeProposal_serializeProposal`: so is a proposal of fewer than 65536 decoded
      transactions. With 65536 of them `DeserializeProposal` fails (`deserializeProposal_full`):
      the count of the proposal has 32 bits, the one of its batch 16.
    - `serializeProposalBody_ok`: the bytes a proposal is written as, and when it can be.
    - `deserializeProposal_canonical`: a proposal that was read is written as the bytes it came
      from, because votes, batches and transactions are, and both of its counts are checked.
-/

import Frg.Consensus.Vote
import Frg.Wire.RoundTrip

namespace Frg.Consensus

open Frg.Lib Frg.Core Frg.Wire Frg.Chain

/-! ## Votes -/

@[simp] theorem length_serializeVote (v : Vote) : (serializeVote v).length = 141 := by
  simp [serializeVote, u64, u32]

theorem deserializeVote_serializeVote (v : Vote) : deserializeVote (serializeVote v) = .ok v := by
  have hdata : serializeVote v = v.type :: (toBE 8 v.height.toNat ++ (toBE 4 v.round.toNat ++ (v.blockHash.bytes ++
      (v.validatorPK.bytes ++ (v.sig.bytes ++ []))))) := by
    simp [serializeVote, u64, u32]
  have h0 := Cursor.start hdata
  have h1 : Cursor (serializeVote v) 1 _ := h0.skip (f := [v.type]) rfl
  have h9 := h1.skip (length_toBE 8 _)
  have h13 := h9.skip (length_toBE 4 _)
  have h45 := h13.skip (length_bytes _)
  have h77 := h45.skip (length_bytes _)
  unfold deserializeVote
  rw [Go.check_pos (length_serializeVote v), Go.ok_bind, h0.byteAt, Go.ok_bind,
    h1.uintIn v.height.toNat_lt rfl, Go.ok_bind,
    h9.uintIn v.round.toNat_lt rfl, Go.ok_bind, h13.slice (by rw [length_bytes]), Go.ok_bind,
    h45.slice (by rw [length_bytes]), Go.ok_bind, h77.slice (by rw [length_bytes]), Go.ok_bind]
  simp only [UInt64.ofNat_toNat, UInt32.ofNat_toNat, wordOf_bytes, Go.pure_eq]

theorem deserializeEvidenceVote_ok {data : List UInt8} {v : Vote} :
    deserializeEvidenceVote data = .ok v ↔ deserializeVote data = .ok v := by
  unfold deserializeEvidenceVote deserializeVote
  by_cases hlen : data.length = 141
  · rw [Go.check_pos hlen, Go.check_pos hlen]
  · rw [Go.check_neg hlen, Go.check_neg hlen, Go.err_bind, Go.err_bind]
    simp

/-- Verified votes of `k` for two blocks in one slot. -/
structure Equivocation (P : Prim) (chainID : List UInt8) (k : Key) (a b : Vote) : Prop where
  verifiedA : verifyVoteForChain P a chainID = true
  verifiedB : verifyVoteForChain P b chainID = true
  validatorA : a.validatorPK = k
  validatorB : b.validatorPK = k
  type : a.type = b.type
  height : a.height = b.height
  round : a.round = b.round
  conflict : a.blockHash ≠ b.blockHash
  nonNil : a.blockHash ≠ 0 ∧ b.blockHash ≠ 0

theorem validateEquivocationEvidenceTx_ok {W : World} {t : Tx} {chainID : List UInt8} {k : Key} :
    validateEquivocationEvidenceTx W t chainID = .ok k ↔
      noEvidenceFields t ∧ (t.wasmBytes = [] ∧ t.initArgs = [] ∧ t.callData = []) ∧
        ∃ a b, deserializeVote t.evidenceA = .ok a ∧ deserializeVote t.evidenceB = .ok b ∧
          Equivocation W.toPrim chainID k a b := by
  rw [validateEquivocationEvidenceTx_iff]
  constructor
  · rintro ⟨hmiss, hempty, a, ha, b, hb, ⟨hva, hvb⟩, hsame, ⟨htype, hheight, hround⟩, hconflict, hnil, rfl⟩
    exact ⟨hmiss, hempty, a, b, deserializeEvidenceVote_ok.mp ha, deserializeEvidenceVote_ok.mp hb, hva, hvb, rfl,
      hsame.symm, htype, hheight, hround, hconflict, hnil⟩
  · rintro ⟨hmiss, hempty, a, b, ha, hb, he⟩
    exact ⟨hmiss, hempty, a, deserializeEvidenceVote_ok.mpr ha, b, deserializeEvidenceVote_ok.mpr hb,
      ⟨he.verifiedA, he.verifiedB⟩, he.validatorA.trans he.validatorB.symm, ⟨he.type, he.height, he.round⟩, he.conflict,
      he.nonNil, he.validatorA⟩

/-- Every string of 141 bytes is the encoding of the vote it is read as. -/
theorem deserializeVote_canonical {data : List UInt8} {v : Vote} (h : deserializeVote data = .ok v) :
    serializeVote v = data := by
  obtain ⟨_, hlen, h⟩ := Go.bind_eq_ok.mp h
  obtain ⟨type, htype, h⟩ := Go.bind_eq_ok.mp h
  obtain ⟨height, hheight, h⟩ := Go.bind_eq_ok.mp h
  obtain ⟨round, hround, h⟩ := Go.bind_eq_ok.mp h
  obtain ⟨blockHash, hhash, h⟩ := Go.bind_eq_ok.mp h
  obtain ⟨validatorPK, hkey, h⟩ := Go.bind_eq_ok.mp h
  obtain ⟨sig, hsig, h⟩ := Go.bind_eq_ok.mp h
  obtain rfl := Go.ok.inj h
  have hlen := Go.check_eq_ok.mp hlen
  -- the fields, one behind the other
  obtain ⟨r1, e0, h1⟩ := (Cursor.start (rfl : data = data)).byteAt_read htype
  obtain ⟨r9, e1, hheight, h9⟩ := h1.uintIn_read hheight rfl
  obtain ⟨r13, e9, hround, h13⟩ := h9.uintIn_read hround rfl
  obtain ⟨r45, e13, l13, h45⟩ := h13.slice_read hhash
  obtain ⟨r77, e45, l45, h77⟩ := h45.slice_read hkey
  obtain ⟨r141, e77, l77, h141⟩ := h77.slice_read hsig
  have hend : r141 = [] := List.length_eq_zero_iff.mp (by have := h141.length; omega)
  rw [e0, e1, e9, e13, e45, e77, hend]
  simp only [serializeVote, u64, u32, UInt64.toNat_ofNat_of_lt' hheight, UInt32.toNat_ofNat_of_lt' hround,
    bytes_wordOf (show blockHash.length = 32 by omega), bytes_wordOf (show validatorPK.length = 32 by omega),
    bytes_wordOf (show sig.length = 64 by omega)]
  simp

/-! ## Proposals -/

section

variable {P : Prim} {p : BlockProposal} {body out rest : List UInt8} {off : Nat}

theorem length_flatMap_serializeVote (vs : List Vote) : (vs.flatMap serializeVote).length = 141 * vs.length := by
  induction vs with
  | nil => rfl
  | cons v vs ih =>
    rw [List.flatMap_cons, List.length_append, length_serializeVote, ih, List.length_cons]
    omega

theorem readVotes_cursor {vs : List Vote} {i : Nat} (h : Cursor body off (vs.flatMap serializeVote ++ rest)) :
    readVotes body off i vs.length = .ok vs := by
  induction vs generalizing off i with
  | nil => rfl
  | cons v vs ih =>
    rw [List.flatMap_cons, List.append_assoc] at h
    have hrest := h.skip (length_serializeVote v)
    have hlen := hrest.length
    rw [List.length_cons, readVotes, Go.check_pos (by omega), Go.ok_bind, h.slice (by simp), Go.ok_bind,
      deserializeVote_serializeVote, Go.ok_bind, ih hrest, Go.ok_bind, Go.pure_eq]

/-- The transactions of a proposal: none, or a batch. -/
def proposalTxs (P : Prim) (txs : List Tx) : Res (List UInt8) := if txs = [] then .ok [] else serializeBatch P txs

theorem serializeProposalBody_eq : serializeProposalBody P p = (do
    Go.check (p.prevAttestations.votes.length ≤ maxProposalVotes)
      (.plain s!"proposal vote count exceeds {maxProposalVotes}")
    Go.check (p.txs.length ≤ maxProposalTxs) (.plain s!"proposal transaction count exceeds {maxProposalTxs}")
    proposalTxs P p.txs >>= fun txBytes => .ok (toBE 8 p.height.toNat ++ (toBE 4 p.round.toNat ++ (p.proposerPK.bytes ++
      (p.prevStateRoot.bytes ++ (toBE 8 p.prevAttestations.height.toNat ++ (toBE 4 p.prevAttestations.round.toNat ++
      (p.prevAttestations.blockHash.bytes ++ (toBE 4 p.prevAttestations.votes.length ++
      (p.prevAttestations.votes.flatMap serializeVote ++ (toBE 4 p.txs.length ++ txBytes))))))))))) := by
  unfold serializeProposalBody proposalTxs
  simp only [u64, u32, List.append_assoc, Go.pure_eq]
  split <;> rfl

theorem serializeProposalBody_ok : serializeProposalBody P p = .ok body ↔
    p.prevAttestations.votes.length ≤ maxProposalVotes ∧ p.txs.length ≤ maxProposalTxs ∧
      ∃ txBytes, proposalTxs P p.txs = .ok txBytes ∧
        body = toBE 8 p.height.toNat ++ (toBE 4 p.round.toNat ++ (p.proposerPK.bytes ++
          (p.prevStateRoot.bytes ++ (toBE 8 p.prevAttestations.height.toNat ++
          (toBE 4 p.prevAttestations.round.toNat ++ (p.prevAttestations.blockHash.bytes ++
          (toBE 4 p.prevAttestations.votes.length ++ (p.prevAttestations.votes.flatMap serializeVote ++
          (toBE 4 p.txs.length ++ txBytes))))))))) := by
  rw [serializeProposalBody_eq]
  constructor
  · intro h
    obtain ⟨_, hv, h⟩ := Go.bind_eq_ok.mp h
    obtain ⟨_, ht, h⟩ := Go.bind_eq_ok.mp h
    obtain ⟨txBytes, hb, h⟩ := Go.bind_eq_ok.mp h
    exact ⟨Go.check_eq_ok.mp hv, Go.check_eq_ok.mp ht, txBytes, hb, (Go.ok.inj h).symm⟩
  · rintro ⟨hv, ht, txBytes, hb, hbody⟩
    rw [Go.check_pos hv, Go.ok_bind, Go.check_pos ht, Go.ok_bind, hb, Go.ok_bind, hbody]

theorem serializeProposal_ok : serializeProposal P p = .ok out ↔
    p.prevAttestations.votes.length ≤ maxProposalVotes ∧ p.txs.length ≤ maxProposalTxs ∧
      ∃ txBytes, proposalTxs P p.txs = .ok txBytes ∧
        out = p.proposerSig.bytes ++ (toBE 8 p.height.toNat ++ (toBE 4 p.round.toNat ++ (p.proposerPK.bytes ++
          (p.prevStateRoot.bytes ++ (toBE 8 p.prevAttestations.height.toNat ++
          (toBE 4 p.prevAttestations.round.toNat ++ (p.prevAttestations.blockHash.bytes ++
          (toBE 4 p.prevAttestations.votes.length ++ (p.prevAttestations.votes.flatMap serializeVote ++
          (toBE 4 p.txs.length ++ txBytes)))))))))) := by
  unfold serializeProposal
  rw [Go.bind_eq_ok]
  simp only [serializeProposalBody_ok, Go.pure_eq, Go.ok.injEq]
  constructor
  · rintro ⟨body, ⟨hv, ht, txBytes, hb, hbody⟩, hout⟩
    exact ⟨hv, ht, txBytes, hb, by rw [← hout, hbody]⟩
  · rintro ⟨hv, ht, txBytes, hb, hout⟩
    exact ⟨_, ⟨hv, ht, txBytes, hb, rfl⟩, hout.symm⟩

theorem deserializeProposal_head (h : serializeProposal P p = .ok out) : ∃ body txBytes,
    Cursor body (124 + 141 * p.prevAttestations.votes.length) (toBE 4 p.txs.length ++ txBytes) ∧
      proposalTxs P p.txs = .ok txBytes ∧ p.txs.length ≤ maxProposalTxs ∧
      deserializeProposal P out = readProposalTxs P body (124 + 141 * p.prevAttestations.votes.length) >>= fun txs =>
        .ok { p with txs } := by
  obtain ⟨hvotes, htxs, txBytes, hb, hout⟩ := serializeProposal_ok.mp h
  have hdata := Cursor.start hout
  have hbody : out.drop 64 = _ := (hdata.skip (length_bytes _)).drop
  have h0 := Cursor.start hbody
  have h8 := h0.skip (length_toBE 8 _)
  have h12 := h8.skip (length_toBE 4 _)
  have h44 := h12.skip (length_bytes _)
  have h76 := h44.skip (length_bytes _)
  have h84 := h76.skip (length_toBE 8 _)
  have h88 := h84.skip (length_toBE 4 _)
  have h120 := h88.skip (length_bytes _)
  have h124 := h120.skip (length_toBE 4 _)
  have hend := h124.skip (length_flatMap_serializeVote _)
  refine ⟨_, txBytes, hend, hb, htxs, ?_⟩
  have hlen := hend.length
  have hlen' := hdata.length
  have hlenBody := h0.length
  simp only [List.length_append, length_toBE, length_bytes] at hlen hlen' hlenBody
  have hmaxVotes : maxProposalVotes < 256 ^ 4 := by decide
  have hbound : p.prevAttestations.votes.length ≤ ((out.drop 64).length - 124) / 141 := by
    rw [Nat.le_div_iff_mul_le (by decide)]
    omega
  unfold deserializeProposal
  rw [Go.check_pos (by omega), Go.ok_bind]
  dsimp only
  rw [h0.uintAt p.height.toNat_lt, Go.ok_bind, h8.uintAt p.round.toNat_lt, Go.ok_bind, h12.slice (b := 44) (by simp),
    Go.ok_bind, h44.slice (b := 76) (by simp), Go.ok_bind, h76.uintAt p.prevAttestations.height.toNat_lt, Go.ok_bind,
    h84.uintAt p.prevAttestations.round.toNat_lt, Go.ok_bind, h88.slice (b := 120) (by simp), Go.ok_bind,
    h120.uintAt (by omega), Go.ok_bind, Go.check_pos ⟨hvotes, hbound⟩, Go.ok_bind, readVotes_cursor h124, Go.ok_bind]
  have hsig : out.take 64 = p.proposerSig.bytes := hdata.take (length_bytes _)
  simp only [hsig, UInt64.ofNat_toNat, UInt32.ofNat_toNat, wordOf_bytes]
  rfl

theorem deserializeProposal_serializeProposal (h : serializeProposal P p = .ok out) (hd : ∀ t ∈ p.txs, Decoded P t)
    (hcount : p.txs.length < 65536) : deserializeProposal P out = .ok p := by
  obtain ⟨body, txBytes, hcur, hb, hmax, heq⟩ := deserializeProposal_head h
  have hlen := hcur.length
  have hbehind := (hcur.skip (length_toBE 4 _))
  simp only [List.length_append, length_toBE] at hlen
  suffices hread : readProposalTxs P body (124 + 141 * p.prevAttestations.votes.length) = .ok p.txs by
    rw [heq, hread, Go.ok_bind]
  unfold readProposalTxs
  rw [Go.check_pos (by omega), Go.ok_bind, hcur.uintAt (by omega), Go.ok_bind]
  dsimp only
  rw [Go.check_pos hmax, Go.ok_bind]
  unfold proposalTxs at hb
  split at hb
  · rename_i hnil
    obtain rfl := Go.ok.inj hb
    rw [if_pos (by rw [hnil]; rfl), Go.check_pos (by simpa using hlen.symm), Go.ok_bind, hnil, Go.pure_eq]
  · rename_i hne
    have hpos : p.txs.length ≠ 0 := fun h0 => hne (List.length_eq_zero_iff.mp h0)
    have hbatch := serializeBatch_length hb
    rw [if_neg hpos, Go.check_pos (by omega), Go.ok_bind, hbehind.drop, deserializeBatch_serializeBatch hb hd hcount,
      Go.ok_bind, Go.check_pos rfl, Go.ok_bind, Go.pure_eq]

/-- A proposal of 65536 transactions is written, and refused when it is read. -/
theorem deserializeProposal_full (h : serializeProposal P p = .ok out) (hcount : p.txs.length = 65536) :
    deserializeProposal P out = .err (.rg .canonicalEncodingDistortion "non-canonical batch trailing bytes") := by
  obtain ⟨body, txBytes, hcur, hb, hmax, heq⟩ := deserializeProposal_head h
  have hlen := hcur.length
  simp only [List.length_append, length_toBE] at hlen
  have hne : p.txs ≠ [] := by
    intro hnil
    rw [hnil] at hcount
    cases hcount
  rw [proposalTxs, if_neg hne] at hb
  have hbatch := serializeBatch_length hb
  rw [heq]
  unfold readProposalTxs
  rw [Go.check_pos (by omega), Go.ok_bind, hcur.uintAt (by omega), Go.ok_bind]
  dsimp only
  rw [Go.check_pos hmax, Go.ok_bind, if_neg (by omega), Go.check_pos (by omega), Go.ok_bind,
    (hcur.skip (length_toBE 4 _)).drop, deserializeBatch_full hb hcount]
  rfl

/-! ### Bytes that were read -/

theorem readVotes_canonical : ∀ {n i : Nat} {off : Nat} {rest : List UInt8} {vs : List Vote}, Cursor body off rest →
    readVotes body off i n = .ok vs → vs.length = n ∧
      ∃ rest', rest = vs.flatMap serializeVote ++ rest' ∧ Cursor body (off + 141 * n) rest' := by
  intro n
  induction n with
  | zero =>
    intro i off rest vs hcur h
    obtain rfl := Go.ok.inj h
    exact ⟨rfl, rest, rfl, hcur⟩
  | succ n ih =>
    intro i off rest vs hcur h
    obtain ⟨_, -, h⟩ := Go.bind_eq_ok.mp h
    obtain ⟨bytes, hb, h⟩ := Go.bind_eq_ok.mp h
    obtain ⟨v, hv, h⟩ := Go.bind_eq_ok.mp h
    obtain ⟨ws, hvs, h⟩ := Go.bind_eq_ok.mp h
    obtain rfl := Go.ok.inj h
    obtain ⟨rest₁, rfl, -, hcur₁⟩ := hcur.slice_read hb
    obtain ⟨hcount, rest₂, rfl, hend⟩ := ih hcur₁ hvs
    refine ⟨by rw [List.length_cons, hcount], rest₂, ?_, ?_⟩
    · rw [List.flatMap_cons, deserializeVote_canonical hv, List.append_assoc]
    · rwa [show off + 141 * (n + 1) = off + 141 + 141 * n by omega]

/-- The count in front of the batch is that of the batch. -/
theorem readProposalTxs_canonical {txs : List Tx} (hcur : Cursor body off rest)
    (h : readProposalTxs P body off = .ok txs) : (∀ t ∈ txs, Decoded P t) ∧ txs.length ≤ maxProposalTxs ∧
      ∃ txBytes, proposalTxs P txs = .ok txBytes ∧ rest = toBE 4 txs.length ++ txBytes := by
  unfold readProposalTxs at h
  obtain ⟨_, -, h⟩ := Go.bind_eq_ok.mp h
  obtain ⟨txCount, hcount, h⟩ := Go.bind_eq_ok.mp h
  obtain ⟨_, hmax, h⟩ := Go.bind_eq_ok.mp h
  have hmax := Go.check_eq_ok.mp hmax
  obtain ⟨rest₁, rfl, -, hcur₁⟩ := hcur.uintAt_read hcount
  by_cases hzero : txCount = 0
  · rw [if_pos hzero] at h
    obtain ⟨_, hend, h⟩ := Go.bind_eq_ok.mp h
    obtain rfl := Go.ok.inj h
    have hlen := hcur₁.length
    rw [Go.check_eq_ok.mp hend] at hlen
    have hnil : rest₁ = [] := List.length_eq_zero_iff.mp (by omega)
    exact ⟨fun t ht => absurd ht List.not_mem_nil, Nat.zero_le _, [], rfl, by rw [hzero, hnil, List.length_nil]⟩
  · rw [if_neg hzero] at h
    obtain ⟨_, -, h⟩ := Go.bind_eq_ok.mp h
    obtain ⟨txs', hbatch, h⟩ := Go.bind_eq_ok.mp h
    obtain ⟨_, hsame, h⟩ := Go.bind_eq_ok.mp h
    obtain rfl := Go.ok.inj h
    have hsame := Go.check_eq_ok.mp hsame
    have hne : txs' ≠ [] := by
      intro hnil
      rw [hnil, List.length_nil] at hsame
      exact hzero hsame.symm
    rw [hcur₁.drop] at hbatch
    refine ⟨deserializeBatch_decoded hbatch, by rw [hsame]; exact hmax, rest₁, ?_, by rw [hsame]⟩
    rw [proposalTxs, if_neg hne]
    exact deserializeBatch_canonical hbatch hne

/-- A proposal that was read is written as the bytes it came from, and its transactions were decoded. -/
theorem deserializeProposal_read {data : List UInt8} (h : deserializeProposal P data = .ok p) :
    serializeProposal P p = .ok data ∧ ∀ t ∈ p.txs, Decoded P t := by
  unfold deserializeProposal at h
  obtain ⟨_, hshort, h⟩ := Go.bind_eq_ok.mp h
  have hshort := Go.check_eq_ok.mp hshort
  dsimp only at h
  obtain ⟨height, hheight, h⟩ := Go.bind_eq_ok.mp h
  obtain ⟨round, hround, h⟩ := Go.bind_eq_ok.mp h
  obtain ⟨proposerPK, hproposer, h⟩ := Go.bind_eq_ok.mp h
  obtain ⟨prevStateRoot, hroot, h⟩ := Go.bind_eq_ok.mp h
  obtain ⟨attHeight, hattHeight, h⟩ := Go.bind_eq_ok.mp h
  obtain ⟨attRound, hattRound, h⟩ := Go.bind_eq_ok.mp h
  obtain ⟨attHash, hattHash, h⟩ := Go.bind_eq_ok.mp h
  obtain ⟨voteCount, hvoteCount, h⟩ := Go.bind_eq_ok.mp h
  obtain ⟨_, hvoteMax, h⟩ := Go.bind_eq_ok.mp h
  obtain ⟨votes, hvotes, h⟩ := Go.bind_eq_ok.mp h
  obtain ⟨txs, htxs, h⟩ := Go.bind_eq_ok.mp h
  obtain rfl := Go.ok.inj h
  -- the fields one behind the other
  obtain ⟨r1, hbody, hlt1, h8⟩ := (Cursor.start (rfl : data.drop 64 = _)).uintAt_read hheight
  obtain ⟨r2, rfl, hlt2, h12⟩ := h8.uintAt_read hround
  obtain ⟨r3, rfl, hlen3, h44⟩ := h12.slice_read hproposer
  obtain ⟨r4, rfl, hlen4, h76⟩ := h44.slice_read hroot
  obtain ⟨r5, rfl, hlt5, h84⟩ := h76.uintAt_read hattHeight
  obtain ⟨r6, rfl, hlt6, h88⟩ := h84.uintAt_read hattRound
  obtain ⟨r7, rfl, hlen7, h120⟩ := h88.slice_read hattHash
  obtain ⟨r8, rfl, hlt8, h124⟩ := h120.uintAt_read hvoteCount
  obtain ⟨rfl, r9, rfl, hend⟩ := readVotes_canonical h124 hvotes
  obtain ⟨hdecoded, htxMax, txBytes, hbatch, rfl⟩ := readProposalTxs_canonical hend htxs
  refine ⟨serializeProposal_ok.mpr ⟨(Go.check_eq_ok.mp hvoteMax).1, htxMax, txBytes, hbatch, ?_⟩, hdecoded⟩
  have hsig : (wordOf 64 (data.take 64)).bytes = data.take 64 := by
    apply bytes_wordOf
    rw [List.length_take]
    omega
  dsimp only
  rw [hsig, UInt64.toNat_ofNat_of_lt' hlt1, UInt32.toNat_ofNat_of_lt' hlt2, bytes_wordOf (by omega),
    bytes_wordOf (by omega), UInt64.toNat_ofNat_of_lt' hlt5, UInt32.toNat_ofNat_of_lt' hlt6, bytes_wordOf (by omega),
    ← hbody, List.take_append_drop]

theorem deserializeProposal_canonical {data : List UInt8} (h : deserializeProposal P data = .ok p) :
    serializeProposal P p = .ok data := (deserializeProposal_read h).1

theorem deserializeProposal_decoded {data : List UInt8} (h : deserializeProposal P data = .ok p) :
    ∀ t ∈ p.txs, Decoded P t := (deserializeProposal_read h).2

theorem deserializeProposal_count {data : List UInt8} (h : deserializeProposal P data = .ok p) :
    p.txs.length < 65536 := by
  have hser := deserializeProposal_canonical h
  have hmax : p.txs.length ≤ 65536 := (serializeProposal_ok.mp hser).2.1
  refine lt_of_le_of_ne hmax fun hfull => ?_
  rw [deserializeProposal_full hser hfull] at h
  cases h

end

end Frg.Consensus
