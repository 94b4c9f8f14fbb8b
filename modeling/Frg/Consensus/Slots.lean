/-
  Frg.Consensus.Slots — one vote per slot, across crashes and restarts.

  A vote slot is reserved in the database before the vote is signed. Here an engine may crash
  at any point and start again from what the disk holds: of the disk only the slots matter,
  and a crash in the middle of a step can leave more of them than there are votes, never
  fewer.

    - `votes_once`: as long as no reservation fails to be written, an engine casts at most
      one vote for a slot in all its lives, and no evidence made of its votes is accepted.
    - `signs_twice`: a reservation that fails is reported as accepted. The vote goes out, the
      node restarts and votes again.
    - `evidence_iff_votes`: the state machine's check of equivocation evidence, with its own
      decoder and signed bytes, accepts what the engine would count as two such votes.
-/

import Frg.Consensus.Codec
import Frg.Consensus.Lock

namespace Frg.Consensus

open Frg.Lib Frg.Core Frg.Wire Frg.Chain Relation

variable {σ : Type}

/-- The slot of a vote. -/
def Entry.slot : Entry → Option (UInt64 × UInt32 × VoteType)
  | .cast type height round _ _ => some (height, round, type)
  | _ => none

/-- The slots of all votes cast. -/
def castSlots (history : List Entry) : List (UInt64 × UInt32 × VoteType) := history.filterMap Entry.slot

/-- The vote of an entry, as it was signed. -/
def Entry.signed (c : Config σ) : Entry → Option Vote
  | .cast type height round blockHash _ => some (signVote c type height round blockHash)
  | _ => none

/-- The votes signed and broadcast. -/
def castVotes (c : Config σ) (history : List Entry) : List Vote := history.filterMap (Entry.signed c)

theorem castSlots_inj {l : List Entry} (h : (castSlots l).Nodup) {x y : Entry} (hx : x ∈ l) (hy : y ∈ l)
    {s : UInt64 × UInt32 × VoteType} (hxs : x.slot = some s) (hys : y.slot = some s) : x = y := by
  induction l with
  | nil => cases hx
  | cons z l ih =>
    have hin : ∀ {w}, w ∈ l → w.slot = some s → s ∈ castSlots l := fun hw hws => List.mem_filterMap.mpr ⟨_, hw, hws⟩
    have hhead : z.slot = some s → s ∉ castSlots l := by
      intro hz
      unfold castSlots at h
      rw [List.filterMap_cons_some hz] at h
      exact (List.nodup_cons.mp h).1
    rcases List.mem_cons.mp hx with hxz | hxl
    · rcases List.mem_cons.mp hy with hyz | hyl
      · rw [hxz, hyz]
      · exact absurd (hin hyl hys) (hhead (hxz ▸ hxs))
    · rcases List.mem_cons.mp hy with hyz | hyl
      · exact absurd (hin hxl hxs) (hhead (hyz ▸ hys))
      · exact ih (h.sublist (List.Sublist.filterMap _ (List.sublist_cons_self z l))) hxl hyl

/-! ## Reserved slots -/

/-- Every vote has its slot, and no two have the same. -/
structure Reserved (s : Core) : Prop where
  unique : (castSlots s.history).Nodup
  reserved : castSlots s.history ⊆ s.slots

/-- Slots are written. -/
def slotRules : Rules := { Rules.free with reserve := fun _ _ _ written => written = true }

variable {c : Config σ} {e e' : Engine σ}

theorem Reserved.same {s u : Core} (h : Reserved s) (hh : castSlots u.history = castSlots s.history)
    (hs : u.slots = s.slots) : Reserved u :=
  ⟨hh ▸ h.unique, by rw [hh, hs]; exact h.reserved⟩

theorem Reserved.cast {s : Core} (h : Reserved s) (t : VoteType) (x : Hash) {w : Bool} (hw : w = true) :
    Reserved (s.cast t x w) := by
  unfold Core.cast
  split
  · exact h
  · rename_i hfree
    subst hw
    refine ⟨List.nodup_cons.mpr ⟨fun hm => hfree (h.reserved hm), h.unique⟩, ?_⟩
    exact List.cons_subset_cons _ h.reserved

theorem Reserved.move {s s' : Core} (h : Reserved s) (hm : Move c slotRules s s') : Reserved s' := by
  cases hm with
  | prevote | precommit | polka | next | restart | decide | refuse | persist => exact h.same rfl rfl
  | lock y vals w hs hp hd hpol hw => exact (h.same (u := (s.on _).note _) rfl rfl).cast .precommit y hw
  | abstain w hp hw => exact (h.same (u := s.on _) rfl rfl).cast .precommit 0 hw
  | enter y p w hp hy hw => exact (h.same (u := s.on _) rfl rfl).cast .prevote y hw

theorem Reserved.moves {s s' : Core} (h : Reserved s) (hm : Moves c slotRules s s') : Reserved s' :=
  run_keeps (fun h hm => h.move hm) hm h

theorem Reserved.next {s s' : Core} {x : Hash} (h : Reserved s) (hn : Next s s' x) : Reserved s' :=
  h.same (by rw [hn.history]; rfl) hn.slots

/-! ## Runs -/

/-- A step of the engine with writes that fail as `ok` allows, or a crash and the restart
    behind it, with the slots reserved so far. -/
def VoterStep (c : Config σ) (ok : (Write → Option Err) → Prop) : Engine σ → Engine σ → Prop :=
  Regime.Step ⟨fun c _ _ _ => ok c.fault, fun _ e disk _ history => e.disk.slots ⊆ disk.slots ∧ history = e.history⟩ c

/-- The reservations of slots are written; every other write may fail. -/
def SlotsWritten (fault : Write → Option Err) : Prop := ∀ height round type, fault (.slot height round type) = none

theorem slotPermits {fault : Write → Option Err} (h : SlotsWritten fault) (order : MapOrder) (e : Engine σ)
    (i : Input) :
    Permits (c.failing fault) slotRules order e i :=
  ⟨trivial, fun _ _ _ => trivial, fun _ _ => Or.inr trivial, fun _ _ => ⟨trivial, trivial⟩, fun _ => trivial,
    fun rs t => decide_eq_true (h rs.height rs.round t), .free (fun _ _ => trivial) (fun _ => trivial) _ _ _⟩

theorem start_reserved {disk : Disk} {pool : σ} {history : List Entry} (hu : (castSlots history).Nodup)
    (hr : castSlots history ⊆ disk.slots) : Reserved (start c disk pool history).core := by
  obtain ⟨-, -, hdisk, hhist, -⟩ := start_started c disk pool history
  refine ⟨?_, ?_⟩
  · show (castSlots (start c disk pool history).history).Nodup
    rw [hhist]
    exact hu
  · show castSlots (start c disk pool history).history ⊆ (start c disk pool history).disk.slots
    rw [hhist, hdisk]
    exact hr

theorem VoterStep.reserved (hs : VoterStep c SlotsWritten e e') (h : Reserved e.core) : Reserved e'.core := by
  obtain ⟨_, hs⟩ := hs
  cases hs with
  | crash hf =>
    obtain ⟨hd, rfl⟩ := hf
    exact start_reserved h.unique (List.Subset.trans h.reserved hd)
  | @input fault order i _ hok hs =>
    obtain ⟨-, rfl⟩ := step_eq_some hs
    rcases handle_core (slotPermits hok order e i) with hm | ⟨s, x, -, hm, -, hn⟩
    · exact h.moves hm
    · exact (h.moves hm).next hn

theorem Reserved.vote {s : Core} (h : Reserved s) {a b : Vote} (ha : a ∈ castVotes c s.history)
    (hb : b ∈ castVotes c s.history) (ht : a.type = b.type) (hh : a.height = b.height)
    (hr : a.round = b.round) : a = b := by
  obtain ⟨x, hx, hxa⟩ := List.mem_filterMap.mp ha
  obtain ⟨y, hy, hyb⟩ := List.mem_filterMap.mp hb
  cases x with
  | cast t n r k l =>
    cases y with
    | cast t₂ n₂ r₂ k₂ l₂ =>
      obtain rfl := Option.some.inj hxa
      obtain rfl := Option.some.inj hyb
      obtain rfl : t = t₂ := VoteType.code_inj ht
      obtain rfl : n = n₂ := hh
      obtain rfl : r = r₂ := hr
      cases castSlots_inj h.unique hx hy rfl rfl
      rfl
    | _ => cases hyb
  | _ => cases hxa

/-- Evidence that passes its check is made of two votes for one slot and different blocks. -/
theorem evidence_conflicts {W : World} {t : Tx} {chainID : List UInt8} {k : Key} {a b : Vote}
    (h : validateEquivocationEvidenceTx W t chainID = .ok k) (ha : t.evidenceA = serializeVote a)
    (hb : t.evidenceB = serializeVote b) :
    a.type = b.type ∧ a.height = b.height ∧ a.round = b.round ∧ a.blockHash ≠ b.blockHash := by
  obtain ⟨-, -, x, y, hx, hy, he⟩ := validateEquivocationEvidenceTx_ok.mp h
  rw [ha, deserializeVote_serializeVote] at hx
  rw [hb, deserializeVote_serializeVote] at hy
  obtain rfl := Go.ok.inj hx
  obtain rfl := Go.ok.inj hy
  exact ⟨he.type, he.height, he.round, he.conflict⟩

/-- With reservations that are written, an engine votes once for a slot in all its lives,
    and its votes are evidence of nothing. -/
theorem votes_once {disk : Disk} {pool : σ}
    (hrun : ReflTransGen (VoterStep c SlotsWritten) (start c disk pool []) e) :
    (castSlots e.history).Nodup ∧
      ∀ t a b, a ∈ castVotes c e.history → b ∈ castVotes c e.history → t.evidenceA = serializeVote a →
        t.evidenceB = serializeVote b → ∀ chainID k, validateEquivocationEvidenceTx c.W t chainID ≠ .ok k := by
  have hstart : Reserved (start c disk pool []).core := start_reserved List.nodup_nil (List.nil_subset _)
  have h : Reserved e.core := run_keeps (I := fun e => Reserved e.core) (fun h hs => hs.reserved h) hrun hstart
  refine ⟨h.unique, fun t a b hma hmb ha hb chainID k hok => ?_⟩
  obtain ⟨h1, h2, h3, hne⟩ := evidence_conflicts hok ha hb
  exact hne (congrArg EvidenceVote.blockHash (h.vote hma hmb h1 h2 h3))

/-! ## A validator that restarts -/

/-- Writes that succeed, except the reservations if they are lost. -/
def slotFault (lost : Bool) : Write → Option Err
  | .slot .. => if lost then some (.plain "database not open") else none
  | _ => none

/-- Validator 3 after some inputs, then a crash that loses the round state, then more inputs. -/
def twoLives (lost : Bool) (before after : List Input) : Option (Engine Mempool) :=
  let c := Config.node World.sample defaultChainID 3
  (before.foldlM (step (c.failing (slotFault lost)) .id) (member 3)).bind fun e =>
    after.foldlM (step c .id) (start c ⟨e.disk.db, e.disk.slots, none⟩ e.pool e.history)

theorem twoLives_reaches {ok : (Write → Option Err) → Prop} {lost : Bool} {before after : List Input}
    {e : Engine Mempool}
    (hlost : ok (slotFault lost)) (hnone : ok fun _ => none) (h : twoLives lost before after = some e) :
    ReflTransGen (VoterStep (.node World.sample defaultChainID 3) ok) (member 3) e := by
  obtain ⟨e₁, h1, h2⟩ := Option.bind_eq_some_iff.mp h
  have hfirst : ReflTransGen (VoterStep _ ok) (member 3) e₁ :=
    foldlM_reaches (fun a i b hs => .input _ hlost hs) h1
  have hsecond : ReflTransGen (VoterStep (.node World.sample defaultChainID 3) ok) _ e :=
    foldlM_reaches (fun a i b hs => .input (fun _ => none) hnone hs) h2
  exact (hfirst.tail (.crash ⟨e₁.disk.db, e₁.disk.slots, none⟩ e₁.pool _ ⟨fun _ hx => hx, rfl⟩)).trans hsecond

/-- Another proposal of validator 2 for the first round. -/
def secondThought : BlockProposal := propose Prim.sample 2 defaultChainID (.new defaultCap) 1 0 { height := 7 } 0

/-- The slot of the first life keeps the second one from voting. -/
theorem votes_once_restarted : ∃ e, twoLives false [sent firstProposal] [sent secondThought] = some e ∧
    castSlots e.history = [(1, 0, .prevote)] ∧ (castSlots e.history).Nodup ∧
      ∀ t a b, a ∈ castVotes (.node World.sample defaultChainID 3) e.history →
        b ∈ castVotes (.node World.sample defaultChainID 3) e.history → t.evidenceA = serializeVote a →
        t.evidenceB = serializeVote b → ∀ chainID k, validateEquivocationEvidenceTx World.sample t chainID ≠ .ok k := by
  have hrun : (twoLives false [sent firstProposal] [sent secondThought]).map (fun e => castSlots e.history) =
      some [(1, 0, .prevote)] := by
    decide +kernel
  obtain ⟨e, he, hslots⟩ := Option.map_eq_some_iff.mp hrun
  exact ⟨e, he, hslots, votes_once (twoLives_reaches (fun _ _ _ => rfl) (fun _ _ _ => rfl) he)⟩

/-- Evidence made of two votes. -/
def evidenceOf (a b : Vote) : Tx :=
  { Tx.plain .equivEvidence 1 0 0 1 with evidenceA := serializeVote a, evidenceB := serializeVote b }

/-- A zero-value evidence transaction in which no other field is used. -/
structure EvidenceOnly (t : Tx) : Prop where
  type : t.type = .equivEvidence
  value : t.value = some 0
  miss : noEvidenceFields t
  payload : t.wasmBytes = [] ∧ t.initArgs = [] ∧ t.callData = []

/-- The state machine slashes for two votes exactly when the engine reads them as verified votes
    of one validator for two blocks in one slot. -/
theorem evidence_iff_votes {W : World} {t : Tx} {a b chainID : List UInt8} {v : Key} (ht : EvidenceOnly t)
    (ha : t.evidenceA = a) (hb : t.evidenceB = b) :
    (validateEquivocationEvidenceTx W t chainID = .ok v ↔
      ∃ x y, deserializeVote a = .ok x ∧ deserializeVote b = .ok y ∧ Equivocation W.toPrim chainID v x y) ∧
    ∀ ctx : BlockCtx, ctx.chainID = chainID →
      (precheck W ctx t = .ok v ↔ validateEquivocationEvidenceTx W t chainID = .ok v) := by
  subst ha
  subst hb
  constructor
  · rw [validateEquivocationEvidenceTx_ok]
    constructor
    · intro h
      exact h.2.2
    · intro h
      exact ⟨ht.miss, ht.payload, h⟩
  · intro ctx hctx
    unfold precheck validateZeroValueTx
    simp only [ht.type, hctx]
    rw [Go.check_pos ht.value, Go.ok_bind]

/-- Two prevotes of validator 3, signed for the default chain. -/
def doublePrevote (blockHash : Hash) : Vote := signVote (.node World.sample defaultChainID 3) .prevote 1 0 blockHash

theorem evidence_iff_votes_double :
    validateEquivocationEvidenceTx World.sample (evidenceOf (doublePrevote 1) (doublePrevote 2)) defaultChainID =
      .ok 3 := by
  refine (evidence_iff_votes ⟨rfl, rfl, by decide, by decide⟩ rfl rfl).1.mpr
    ⟨doublePrevote 1, doublePrevote 2, deserializeVote_serializeVote _, deserializeVote_serializeVote _, ?_⟩
  exact ⟨by decide +kernel, by decide +kernel, rfl, rfl, rfl, rfl, rfl, by decide, by decide⟩

/-- Validator 3 prevotes the first proposal, but the slot is not written. It restarts,
    prevotes the other proposal, and can be slashed for it. -/
theorem signs_twice : ∃ e, ReflTransGen (VoterStep (.node World.sample defaultChainID 3) fun _ => True) (member 3) e ∧
    castSlots e.history = [(1, 0, .prevote), (1, 0, .prevote)] ∧
      ∃ a b, castVotes (.node World.sample defaultChainID 3) e.history = [b, a] ∧
        (validateEquivocationEvidenceTx World.sample (evidenceOf a b) defaultChainID).isOk = true := by
  have hrun : (twoLives true [sent firstProposal] [sent secondThought]).any (fun e =>
      decide (castSlots e.history = [(1, 0, .prevote), (1, 0, .prevote)] ∧
        ∃ a ∈ castVotes (.node World.sample defaultChainID 3) e.history,
          ∃ b ∈ castVotes (.node World.sample defaultChainID 3) e.history,
            castVotes (.node World.sample defaultChainID 3) e.history = [b, a] ∧
            (validateEquivocationEvidenceTx World.sample (evidenceOf a b) defaultChainID).isOk = true)) = true := by
    decide +kernel
  obtain ⟨e, he, hend⟩ := (Option.any_eq_true _ _).mp hrun
  obtain ⟨hslots, a, -, b, -, hvotes, hevidence⟩ := of_decide_eq_true hend
  exact ⟨e, twoLives_reaches trivial trivial he, hslots, a, b, hvotes, hevidence⟩

end Frg.Consensus
