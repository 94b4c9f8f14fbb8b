/-
  Frg.Consensus.SignBytes — what a signature is over.

  Votes, proposals and transactions are signed with the same keys. A vote and a proposal are
  signed as they are written, behind a domain and the chain ID; a transaction is signed by
  its hash behind the same. The kind can be read off the bytes (`kindOf_signBytes`), and
  they fix the chain and every field the message covers (`signBytes_inj`).
-/

import Frg.Consensus.Codec
import Frg.Wire.Signing

namespace Frg.Consensus

open Frg.Lib Frg.Core Frg.Wire Frg.Chain

/-! ## Fields -/

theorem chain_inj {d c c' x y : List UInt8} (hc : c.length < 65536) (hc' : c'.length < 65536)
    (h : d ++ u16 c.length ++ c ++ x = d ++ u16 c'.length ++ c' ++ y) : c = c' ∧ x = y := by
  simp only [List.append_assoc] at h
  exact field_inj (by omega) (by omega) (List.append_cancel_left h)

theorem serializeVote_inj {v w : Vote} (h : serializeVote v = serializeVote w) : v = w := by
  have h := congrArg deserializeVote h
  rw [deserializeVote_serializeVote, deserializeVote_serializeVote] at h
  exact Go.ok.inj h

theorem votes_inj : ∀ {vs ws : List Vote}, vs.length = ws.length →
    vs.flatMap serializeVote = ws.flatMap serializeVote → vs = ws := by
  intro vs
  induction vs with
  | nil => exact fun hlen _ => (List.length_eq_zero_iff.mp hlen.symm).symm
  | cons v vs ih =>
    intro ws hlen h
    cases ws with
    | nil => cases hlen
    | cons w ws =>
      rw [List.flatMap_cons, List.flatMap_cons] at h
      obtain ⟨hv, h⟩ := List.append_inj h (by simp)
      rw [serializeVote_inj hv, ih (Nat.succ.inj hlen) h]

variable {P : Prim}

theorem batchBody_inj : ∀ {ts us : List Tx}, (∀ t ∈ ts, Framable P t) → (∀ u ∈ us, Framable P u) →
    ts.length = us.length → batchBody P ts = batchBody P us → ts.map (Tx.wire P) = us.map (Tx.wire P) := by
  intro ts
  induction ts with
  | nil =>
    intro us _ _ hlen _
    rw [List.length_eq_zero_iff.mp hlen.symm]
  | cons t ts ih =>
    intro us hts hus hlen h
    cases us with
    | nil => cases hlen
    | cons u us =>
      have ht := (hts t List.mem_cons_self).2
      have hu := (hus u List.mem_cons_self).2
      rw [batchBody_cons, batchBody_cons] at h
      obtain ⟨hw, h⟩ := field_inj (w := 2) (by omega) (by omega) h
      rw [List.map_cons, List.map_cons, hw, ih (fun x hx => hts x (List.mem_cons_of_mem _ hx))
        (fun x hx => hus x (List.mem_cons_of_mem _ hx)) (Nat.succ.inj hlen) h]

theorem proposalTxs_inj {ts us : List Tx} {b : List UInt8} (h : proposalTxs P ts = .ok b)
    (h' : proposalTxs P us = .ok b)
    (hlen : ts.length = us.length) : ∃ l, ts.mapM (serialize P) = .ok l ∧ us.mapM (serialize P) = .ok l := by
  have hmapM : ∀ {ts : List Tx}, (∀ t ∈ ts, Framable P t) → ts.mapM (serialize P) = .ok (ts.map (Tx.wire P)) := by
    intro ts hts
    rw [Go.mapM_eq_ok, List.forall₂_map_right_iff, List.forall₂_same]
    exact fun t ht => (hts t ht).1
  unfold proposalTxs at h h'
  by_cases hne : ts = []
  · have hne' : us = [] := List.length_eq_zero_iff.mp (by rw [← hlen, hne]; rfl)
    rw [hne, hne']
    exact ⟨[], rfl, rfl⟩
  · have hne' : us ≠ [] := fun e => hne (List.length_eq_zero_iff.mp (by rw [hlen, e]; rfl))
    rw [if_neg hne] at h
    rw [if_neg hne'] at h'
    obtain ⟨-, -, hf, -, hb⟩ := serializeBatch_ok.mp h
    obtain ⟨-, -, hf', -, hb'⟩ := serializeBatch_ok.mp h'
    have hbody := List.append_inj (hb.symm.trans hb') (by simp [u16])
    exact ⟨_, hmapM hf, batchBody_inj hf hf' hlen hbody.2 ▸ hmapM hf'⟩

/-! ## Messages -/

/-- What a key signs. -/
inductive Signable where
  | vote (v : Vote)
  | proposal (p : BlockProposal)
  | tx (t : Tx)

/-- What the message of each kind is made from. -/
inductive Covered where
  | vote (type : UInt8) (height : UInt64) (round : UInt32) (blockHash : Hash)
  | proposal (height : UInt64) (round : UInt32) (proposerPK : Key) (prevStateRoot : Hash)
      (prevAttestations : AttestationSet) (txs : List (List UInt8))
  | tx (unsigned : List UInt8)
  deriving DecidableEq

def Signable.covered (P : Prim) : Signable → Res Covered
  | .vote v => .ok (.vote v.type v.height v.round v.blockHash)
  | .proposal p => do
    let txs ← p.txs.mapM (serialize P)
    return .proposal p.height p.round p.proposerPK p.prevStateRoot p.prevAttestations txs
  | .tx t => do
    let unsigned ← serializeUnsigned P t
    return .tx unsigned

/-- The bytes given to Ed25519, of what serialises. -/
def Signable.signBytes (P : Prim) (chainID : List UInt8) : Signable → Res (List UInt8)
  | .vote v => .ok (voteSignBytesForChain v chainID)
  | .proposal p => do
    let _ ← serializeProposalBody P p
    return proposalSignBytesForChain P p chainID
  | .tx t => do
    let msg ← unsignedHashForChain P t chainID
    return msg.bytes

/-- What is hashed for the message. -/
def Signable.hashed (P : Prim) (chainID : List UInt8) : Signable → List (List UInt8)
  | .tx t =>
    match serializeUnsigned P t with
    | .ok unsigned => [chainDomainBytes chainID unsigned]
    | _ => []
  | _ => []

theorem proposal_covered {p q : BlockProposal} {body : List UInt8} (h : serializeProposalBody P p = .ok body)
    (h' : serializeProposalBody P q = .ok body) :
    ∃ k, (Signable.proposal p).covered P = .ok k ∧ (Signable.proposal q).covered P = .ok k := by
  obtain ⟨hv, ht, txs, hb, e⟩ := serializeProposalBody_ok.mp h
  obtain ⟨hv', ht', txs', hb', e'⟩ := serializeProposalBody_ok.mp h'
  have hvmax : maxProposalVotes < 256 ^ 4 := by decide
  have htmax : maxProposalTxs < 256 ^ 4 := by decide
  obtain ⟨hheight, e⟩ := toBE_append_inj p.height.toNat_lt q.height.toNat_lt (e.symm.trans e')
  obtain ⟨hround, e⟩ := toBE_append_inj p.round.toNat_lt q.round.toNat_lt e
  obtain ⟨hpk, e⟩ := List.append_inj e (by simp)
  obtain ⟨hroot, e⟩ := List.append_inj e (by simp)
  obtain ⟨haheight, e⟩ := toBE_append_inj p.prevAttestations.height.toNat_lt q.prevAttestations.height.toNat_lt e
  obtain ⟨haround, e⟩ := toBE_append_inj p.prevAttestations.round.toNat_lt q.prevAttestations.round.toNat_lt e
  obtain ⟨hahash, e⟩ := List.append_inj e (by simp)
  obtain ⟨hcount, e⟩ := toBE_append_inj (w := 4) (by omega) (by omega) e
  obtain ⟨hvotes, e⟩ := List.append_inj e (by rw [length_flatMap_serializeVote, length_flatMap_serializeVote, hcount])
  obtain ⟨hlen, e⟩ := toBE_append_inj (w := 4) (by omega) (by omega) e
  obtain ⟨l, hl, hl'⟩ := proposalTxs_inj hb (e ▸ hb') hlen
  have hatt : p.prevAttestations = q.prevAttestations := by
    have hvotes := votes_inj hcount hvotes
    cases hp : p.prevAttestations
    cases hq : q.prevAttestations
    simp only [hp, hq] at haheight haround hahash hvotes
    rw [UInt64.toNat_inj.mp haheight, UInt32.toNat_inj.mp haround, bytes_inj hahash, hvotes]
  refine ⟨.proposal p.height p.round p.proposerPK p.prevStateRoot p.prevAttestations l,
    Go.bind_eq_ok.mpr ⟨l, hl, rfl⟩, Go.bind_eq_ok.mpr ⟨l, hl', ?_⟩⟩
  rw [hatt, UInt64.toNat_inj.mp hheight, UInt32.toNat_inj.mp hround, bytes_inj hpk, bytes_inj hroot]
  rfl

variable {c c' x : List UInt8}

theorem vote_signBytes (v : Vote) (hc : c ≠ []) : voteSignBytesForChain v c = domainVote ++ u16 c.length ++ c ++
    (v.type :: (toBE 8 v.height.toNat ++ (toBE 4 v.round.toNat ++ v.blockHash.bytes))) := by
  unfold voteSignBytesForChain
  simp only [if_neg hc, u64, u32, List.append_assoc, List.cons_append, List.nil_append]

theorem vote_covered {v w : Vote}
    (h : v.type :: (toBE 8 v.height.toNat ++ (toBE 4 v.round.toNat ++ v.blockHash.bytes)) =
    w.type :: (toBE 8 w.height.toNat ++ (toBE 4 w.round.toNat ++ w.blockHash.bytes))) :
    ∃ k, (Signable.vote v).covered P = .ok k ∧ (Signable.vote w).covered P = .ok k := by
  obtain ⟨htype, h⟩ := List.cons.inj h
  obtain ⟨hheight, h⟩ := toBE_append_inj v.height.toNat_lt w.height.toNat_lt h
  obtain ⟨hround, hhash⟩ := toBE_append_inj v.round.toNat_lt w.round.toNat_lt h
  refine ⟨_, rfl, ?_⟩
  rw [Signable.covered, htype, UInt64.toNat_inj.mp hheight, UInt32.toNat_inj.mp hround, bytes_inj hhash]

theorem proposal_signBytes {p : BlockProposal} (hc : c ≠ []) (h : (Signable.proposal p).signBytes P c = .ok x) :
    ∃ body, serializeProposalBody P p = .ok body ∧ x = domainProposal ++ u16 c.length ++ c ++ body := by
  obtain ⟨body, hb, h⟩ := Go.bind_eq_ok.mp h
  refine ⟨body, hb, ?_⟩
  rw [← Go.ok.inj h, proposalSignBytesForChain, hb]
  simp only [if_neg hc]

theorem tx_signBytes {t : Tx} (h : (Signable.tx t).signBytes P c = .ok x) :
    ∃ s, serializeUnsigned P t = .ok s ∧ x = (P.hash (chainDomainBytes c s)).bytes := by
  obtain ⟨msg, hm, h⟩ := Go.bind_eq_ok.mp h
  obtain ⟨s, hs, hm⟩ := Go.bind_eq_ok.mp hm
  obtain rfl := Go.ok.inj hm
  exact ⟨s, hs, (Go.ok.inj h).symm⟩

/-! ## Kinds -/

inductive Kind where
  | vote
  | proposal
  | tx
  deriving DecidableEq

def Signable.kind : Signable → Kind
  | .vote _ => .vote
  | .proposal _ => .proposal
  | .tx _ => .tx

/-- The kind of a message, read off its bytes: a hash is shorter than the other two, and
    these have different domains. -/
def kindOf (x : List UInt8) : Kind :=
  if x.length = 32 then .tx else if x.take 12 = domainVote then .vote else .proposal

theorem take_domain {d y : List UInt8} (hd : d.length = 12) : (d ++ u16 c.length ++ c ++ y).take 12 = d := by
  simp only [List.append_assoc]
  rw [List.take_append_of_le_length (by omega), List.take_of_length_le (by omega)]

theorem kindOf_signBytes {m : Signable} (hc : c ≠ []) (h : m.signBytes P c = .ok x) : kindOf x = m.kind := by
  unfold kindOf
  cases m with
  | vote v =>
    obtain rfl := Go.ok.inj h
    have hlen : (voteSignBytesForChain v c).length ≠ 32 := by
      rw [vote_signBytes v hc]
      simp [domainVote, u16]
      omega
    rw [if_neg hlen, vote_signBytes v hc, take_domain rfl, if_pos rfl]
    rfl
  | proposal p =>
    obtain ⟨body, hb, rfl⟩ := proposal_signBytes hc h
    obtain ⟨-, -, txBytes, -, hbody⟩ := serializeProposalBody_ok.mp hb
    have hlen : (domainProposal ++ u16 c.length ++ c ++ body).length ≠ 32 := by
      rw [hbody]
      simp [domainProposal, u16]
      omega
    rw [if_neg hlen, take_domain rfl, if_neg (by decide)]
    rfl
  | tx t =>
    obtain ⟨s, -, hx⟩ := tx_signBytes h
    rw [if_pos (by rw [hx, length_bytes])]
    rfl

/-- Equal messages are of one kind and for one chain, and what they cover is the same. -/
theorem signBytes_inj {m m' : Signable} (hc : c ≠ []) (hc' : c' ≠ []) (hlen : c.length < 65536)
    (hlen' : c'.length < 65536)
    (hap : ∀ a ∈ m.hashed P c, ∀ b ∈ m'.hashed P c', NoCollision P.hash a b) (h : m.signBytes P c = .ok x)
    (h' : m'.signBytes P c' = .ok x) :
    m.kind = m'.kind ∧ c = c' ∧ ∃ k, m.covered P = .ok k ∧ m'.covered P = .ok k := by
  have hkind : m.kind = m'.kind := (kindOf_signBytes hc h).symm.trans (kindOf_signBytes hc' h')
  refine ⟨hkind, ?_⟩
  cases m with
  | vote v =>
    cases m' with
    | vote w =>
      have he := (Go.ok.inj h).trans (Go.ok.inj h').symm
      rw [vote_signBytes v hc, vote_signBytes w hc'] at he
      obtain ⟨hchain, he⟩ := chain_inj hlen hlen' he
      exact ⟨hchain, vote_covered he⟩
    | proposal | tx => cases hkind
  | proposal p =>
    cases m' with
    | proposal q =>
      obtain ⟨body, hb, hx⟩ := proposal_signBytes hc h
      obtain ⟨body', hb', hx'⟩ := proposal_signBytes hc' h'
      obtain ⟨hchain, rfl⟩ := chain_inj hlen hlen' (hx.symm.trans hx')
      exact ⟨hchain, proposal_covered hb hb'⟩
    | vote | tx => cases hkind
  | tx t =>
    cases m' with
    | tx u =>
      obtain ⟨s, hs, hx⟩ := tx_signBytes h
      obtain ⟨s', hs', hx'⟩ := tx_signBytes h'
      have hhash := bytes_inj (hx.symm.trans hx')
      have he := hap (chainDomainBytes c s) (by simp [Signable.hashed, hs]) (chainDomainBytes c' s')
        (by simp [Signable.hashed, hs']) hhash
      unfold chainDomainBytes at he
      simp only [if_neg hc, if_neg hc'] at he
      obtain ⟨hchain, rfl⟩ := chain_inj hlen hlen' he
      exact ⟨hchain, .tx s, Go.bind_eq_ok.mpr ⟨s, hs, rfl⟩, Go.bind_eq_ok.mpr ⟨s, hs', rfl⟩⟩
    | vote | proposal => cases hkind

/-- The same payment of two senders: the sender's key is not part of the message. -/
theorem signBytes_inj_senders : ∃ x k,
    (Signable.tx (Tx.plain .transfer 1 9 10 1)).signBytes Prim.sample defaultChainID = .ok x ∧
    (Signable.tx (Tx.plain .transfer 2 9 10 1)).signBytes Prim.sample defaultChainID = .ok x ∧
    (Signable.tx (Tx.plain .transfer 1 9 10 1)).covered Prim.sample = .ok k ∧
    (Signable.tx (Tx.plain .transfer 2 9 10 1)).covered Prim.sample = .ok k := by
  have hunsigned : serializeUnsigned Prim.sample (Tx.plain .transfer 2 9 10 1) =
      serializeUnsigned Prim.sample (Tx.plain .transfer 1 9 10 1) := rfl
  obtain ⟨x, h⟩ := Go.isOk_iff.mp (show
    ((Signable.tx (Tx.plain .transfer 1 9 10 1)).signBytes Prim.sample defaultChainID).isOk = true by decide +kernel)
  have h' : (Signable.tx (Tx.plain .transfer 2 9 10 1)).signBytes Prim.sample defaultChainID = .ok x := by
    rw [← h, Signable.signBytes, Signable.signBytes, unsignedHashForChain, unsignedHashForChain, hunsigned]
  have hap : ∀ a ∈ (Signable.tx (Tx.plain .transfer 1 9 10 1)).hashed Prim.sample defaultChainID,
      ∀ b ∈ (Signable.tx (Tx.plain .transfer 2 9 10 1)).hashed Prim.sample defaultChainID,
      NoCollision Prim.sample.hash a b := by
    unfold NoCollision
    decide +kernel
  obtain ⟨-, -, k, hk, hk'⟩ := signBytes_inj (by decide) (by decide) (by decide) (by decide) hap h h'
  exact ⟨x, k, h, h', hk, hk'⟩

end Frg.Consensus
