/-
  Frg.Contract.Memory — what the host reads of a contract's memory.

  `readMem` compares the end of the range with the length of the memory in 64 bits and then
  slices with a 32-bit end, which is negative for a range that ends at 2 ^ 31 or beyond. A
  contract with two GiB of memory can pass such a range, and the host stops.

    - `readMem_cases`: refused, read, or stopped.
    - `hostCall_returns`: a host function stops exactly at a read (`reads`) that stops.
    - `memory_reads_iff`: reads are right, and host functions return, exactly when no range
      within the memory ends beyond 2 ^ 31.
    - `read_stops`: the last byte of two GiB.
-/

import Frg.Contract.Runtime

namespace Frg.Contract

open Frg.Lib Frg.Core Frg.Chain

/-- The range lies in the memory. -/
def InMemory (mem : Memory) (ptr length : Int32) : Prop :=
  ∃ data, mem = some data ∧ ¬ ptr < 0 ∧ ¬ length < 0 ∧ ptr.toInt + length.toInt ≤ data.length

/-- A range the slice expression can express, if it lies in the memory. -/
def Sliceable (mem : Memory) (ptr length : Int32) : Prop :=
  InMemory mem ptr length → ptr.toInt + length.toInt < 2 ^ 31

/-- The read returns; what it returns are the bytes of the range, and it fails only for a
    range that is not there. -/
structure ReadsRight (mem : Memory) (ptr length : Int32) : Prop where
  returns : ∀ w, readMem mem ptr length ≠ .panic w
  success : ∀ bytes, readMem mem ptr length = .ok (some bytes) → ∃ data, mem = some data ∧
    (bytes.length : Int) = length.toInt ∧ ∀ i < bytes.length, i + ptr.toInt.toNat < data.length ∧
      bytes[i]? = data[i + ptr.toInt.toNat]?
  failure : readMem mem ptr length = .ok none → ¬ InMemory mem ptr length

section

variable {mem : Memory} {ptr length : Int32}

theorem toInt_nonneg (h : ¬ ptr < 0) : 0 ≤ ptr.toInt := by
  rw [Int32.lt_iff_toInt_lt, Int32.toInt_zero] at h
  omega

/-- The 32-bit end is below the start exactly when it has wrapped around. -/
theorem end_wraps (hp : ¬ ptr < 0) (hl : ¬ length < 0) :
    (ptr + length).toInt < ptr.toInt ↔ 2 ^ 31 ≤ ptr.toInt + length.toInt := by
  have hp0 := toInt_nonneg hp
  have hl0 := toInt_nonneg hl
  have hp1 := ptr.toInt_lt
  have hl1 := length.toInt_lt
  rw [Int32.toInt_add, Int.bmod_def]
  split <;> omega

theorem readMem_cases (mem : Memory) (ptr length : Int32) :
    (¬ InMemory mem ptr length ∧ readMem mem ptr length = .ok none) ∨
    (InMemory mem ptr length ∧ ptr.toInt + length.toInt < 2 ^ 31 ∧ ∃ data, mem = some data ∧
      readMem mem ptr length = .ok (some ((data.drop ptr.toInt.toNat).take length.toInt.toNat))) ∨
    (InMemory mem ptr length ∧ 2 ^ 31 ≤ ptr.toInt + length.toInt ∧
      readMem mem ptr length = .panic "slice bounds out of range") := by
  cases mem with
  | none =>
    refine Or.inl ⟨?_, rfl⟩
    rintro ⟨_, h, -⟩
    cases h
  | some data =>
    unfold readMem
    dsimp only
    split
    · rename_i hout
      refine Or.inl ⟨?_, rfl⟩
      rintro ⟨d, hd, hp, hl, hle⟩
      obtain rfl := Option.some.inj hd
      rcases hout with h | h | h
      · exact hp h
      · exact hl h
      · omega
    · rename_i hin
      obtain ⟨hp, hin⟩ := not_or.mp hin
      obtain ⟨hl, hle⟩ := not_or.mp hin
      have hwithin : InMemory (some data) ptr length := ⟨data, rfl, hp, hl, not_lt.mp hle⟩
      by_cases hend : (ptr + length).toInt < ptr.toInt
      · rw [if_pos hend]
        exact Or.inr (Or.inr ⟨hwithin, (end_wraps hp hl).mp hend, rfl⟩)
      · rw [if_neg hend]
        exact Or.inr (Or.inl ⟨hwithin, not_le.mp fun h => hend ((end_wraps hp hl).mpr h), data, rfl, rfl⟩)

theorem readMem_panics : (readMem mem ptr length).panics = true ↔ ¬ Sliceable mem ptr length := by
  unfold Sliceable
  rcases readMem_cases mem ptr length with ⟨hno, h⟩ | ⟨hin, hend, data, -, h⟩ | ⟨hin, hend, h⟩ <;> rw [h]
  · exact iff_of_false Bool.false_ne_true fun hs => hs fun hin => absurd hin hno
  · exact iff_of_false Bool.false_ne_true fun hs => hs fun _ => hend
  · exact iff_of_true rfl fun hs => absurd (hs hin) (not_lt.mpr hend)

theorem readsRight_iff : ReadsRight mem ptr length ↔ Sliceable mem ptr length := by
  constructor
  · intro hr
    by_contra hs
    have hp := readMem_panics.mpr hs
    rcases readMem_cases mem ptr length with ⟨-, h⟩ | ⟨-, -, _, -, h⟩ | ⟨-, -, h⟩
    · rw [h] at hp
      cases hp
    · rw [h] at hp
      cases hp
    · exact hr.returns _ h
  · intro hs
    rcases readMem_cases mem ptr length with ⟨hno, h⟩ | ⟨hin, -, data, hdata, h⟩ | ⟨hin, hend, h⟩
    · refine ⟨fun w => ?_, fun bytes => ?_, fun _ => hno⟩ <;> rw [h] <;> intro e <;> cases e
    · refine ⟨fun w => ?_, fun bytes => ?_, ?_⟩ <;> rw [h] <;> intro e
      · cases e
      · obtain rfl := Option.some.inj (Go.ok.inj e)
        obtain ⟨d, hd, hp, hl, hle⟩ := hin
        obtain rfl := Option.some.inj (hdata.symm.trans hd)
        have hp0 := toInt_nonneg hp
        have hl0 := toInt_nonneg hl
        refine ⟨data, hdata, ?_, fun i hi => ?_⟩
        · rw [List.length_take, List.length_drop]
          omega
        · rw [List.length_take, List.length_drop] at hi
          refine ⟨by omega, ?_⟩
          rw [List.getElem?_take_of_lt (by omega), List.getElem?_drop, Nat.add_comm]
      · cases e
    · exact absurd (hs hin) (not_lt.mpr hend)

end

/-! ## Host functions -/

/-- The ranges a host function reads, with the fuel and the memory it is called with. -/
def reads (c : HostCall) (h : HostState) : List (Int32 × Int32) :=
  match c with
  | .stateGet keyPtr keyLen _ outLen =>
    if (keyLen < 0 ∨ outLen < 0) ∨ h.fuel < hostFuel hostStorageReadFuel [keyLen] then [] else [(keyPtr, keyLen)]
  | .stateSet keyPtr keyLen valPtr valLen =>
    if (keyLen < 0 ∨ valLen < 0) ∨ h.fuel < hostFuel hostStorageWriteFuel [keyLen, valLen] then []
    else (keyPtr, keyLen) :: if readMem h.mem keyPtr keyLen = .ok none then [] else [(valPtr, valLen)]
  | .balanceOf addrPtr addrLen _ =>
    if addrLen < 0 ∨ h.fuel < hostFuel hostBalanceReadFuel [addrLen] then [] else [(addrPtr, addrLen)]
  | .log ptr length => if length < 0 ∨ h.fuel < hostFuel hostLogFuel [length] then [] else [(ptr, length)]
  | .transfer recvPtr recvLen _ _ =>
    if recvLen < 0 ∨ h.fuel < hostFuel hostTransferFuel [recvLen] then [] else [(recvPtr, recvLen)]
  | .bn254PairingCheck inputPtr inputLen => [(inputPtr, inputLen)]
  | .selfBalance _ | .blockHeight | .caller _ | .selfAddress _ | .calldataLen | .calldataCopy _ _ _ => []

/-- The action panics. -/
def Stops {α : Type} (x : M α) (db : DB) : Prop := (x db).1.panics = true

section

variable {α β : Type} {db : DB}

theorem stops_pure (a : α) : ¬ Stops (pure a : M α) db := Bool.false_ne_true

theorem stops_balance {account : Key} {h : HostState} {outPtr : Int32} {maxLen : Nat} {f : Int → List UInt8} :
    ¬ Stops (balanceOfTx account >>= fun bal => writeOut h outPtr maxLen (f bal)) db := by
  unfold Stops
  rw [Act.bind_run]
  exact Bool.false_ne_true

theorem stops_charged {reason : String} {fuel : UInt64} {h : HostState} {onErr : Int}
    {k : HostState → M (Int × HostState)} : Stops (charged reason fuel h onErr k) db ↔
      ¬ h.fuel < fuel ∧ Stops (k { h with fuel := h.fuel - fuel }) db := by
  unfold charged
  split
  · rename_i hf
    exact iff_of_false (stops_pure _) fun h => h.1 hf
  · rename_i hf
    exact ⟨fun h => ⟨hf, h⟩, fun h => h.2⟩

theorem stops_answer {reason : String} {fuel : UInt64} {h : HostState} {onErr : Int} {f : HostState → Int × HostState} :
    ¬ Stops (charged reason fuel h onErr fun h => pure (f h)) db := by
  rw [stops_charged]
  exact fun h => stops_pure _ h.2

theorem stops_readMem_bind {mem : Memory} {ptr length : Int32} {k : Option (List UInt8) → M β} :
    Stops (Act.lift (readMem mem ptr length) >>= k) db ↔
      ¬ Sliceable mem ptr length ∨ ∃ r, readMem mem ptr length = .ok r ∧ Stops (k r) db := by
  rw [← readMem_panics]
  unfold Stops
  rw [Act.bind_run]
  unfold Act.lift
  cases readMem mem ptr length with
  | ok r =>
    refine ⟨fun h => Or.inr ⟨r, rfl, h⟩, ?_⟩
    rintro (h | ⟨r', hr, h⟩)
    · cases h
    · obtain rfl := Go.ok.inj hr
      exact h
  | err e =>
    refine iff_of_false Bool.false_ne_true ?_
    rintro (h | ⟨r', hr, -⟩)
    · cases h
    · cases hr
  | panic w => exact iff_of_true rfl (Or.inl rfl)

theorem stops_readMem {mem : Memory} {ptr length : Int32} {k : Option (List UInt8) → M β}
    (hk : ∀ r, ¬ Stops (k r) db) : Stops (Act.lift (readMem mem ptr length) >>= k) db ↔ ¬ Sliceable mem ptr length := by
  rw [stops_readMem_bind]
  exact or_iff_left fun ⟨r, _, hs⟩ => hk r hs

theorem stops_move {source target : Key} {amount : Int} {k : Bool → M β} (hk : ∀ r db, ¬ Stops (k r) db) :
    ¬ Stops (Act.succeeded (moveTx source target amount) >>= k) db := by
  unfold Stops
  rw [Act.bind_run]
  unfold Act.succeeded
  rcases moveTx_cases source target amount db with ⟨-, e, hm⟩ | ⟨-, -, -, e, hm⟩ | ⟨-, -, -, hm⟩ <;> rw [hm]
  · exact hk false _
  · exact hk false _
  · exact hk true _

end

section

variable {E : Env} {cfg : RuntimeConfig} {h : HostState} {db : DB}

theorem returns_guarded {neg : Prop} [Decidable neg] {a onErr : Int} {reason : String} {fuel : UInt64}
    {ptr length : Int32}
    {k : HostState → Option (List UInt8) → M (Int × HostState)} (hk : ∀ h r, ¬ Stops (k h r) db) :
    ¬ Stops (if neg then pure (a, h) else
      charged reason fuel h onErr fun h => Act.lift (readMem h.mem ptr length) >>= k h) db ↔
      ∀ x ∈ if neg ∨ h.fuel < fuel then [] else [(ptr, length)], Sliceable h.mem x.1 x.2 := by
  by_cases hneg : neg
  · rw [if_pos hneg, if_pos (Or.inl hneg)]
    exact iff_of_true (stops_pure _) fun x hx => absurd hx List.not_mem_nil
  by_cases hfuel : h.fuel < fuel
  · rw [if_neg hneg, if_pos (Or.inr hfuel), stops_charged]
    exact iff_of_true (fun h => h.1 hfuel) fun x hx => absurd hx List.not_mem_nil
  · rw [if_neg hneg, if_neg (not_or.mpr ⟨hneg, hfuel⟩), stops_charged, stops_readMem (hk _), List.forall_mem_singleton]
    exact ⟨fun h => not_not.mp fun hs => h ⟨hfuel, hs⟩, fun hs h => h.2 hs⟩

theorem set_returns (s : StateStore) (key value : List UInt8) (w : String) : s.set key value ≠ .panic w := by
  unfold StateStore.set Go.check
  split
  · rw [Go.ok_bind]
    split <;> exact fun h => by cases h
  · exact fun h => by cases h

theorem returns_stateSet (keyPtr keyLen valPtr valLen : Int32) :
    ¬ Stops (hostStateSet keyPtr keyLen valPtr valLen h) db ↔
      ∀ x ∈ reads (.stateSet keyPtr keyLen valPtr valLen) h, Sliceable h.mem x.1 x.2 := by
  unfold hostStateSet reads
  dsimp only
  by_cases hneg : keyLen < 0 ∨ valLen < 0
  · rw [if_pos hneg, if_pos (Or.inl hneg)]
    exact iff_of_true (stops_pure _) fun x hx => absurd hx List.not_mem_nil
  by_cases hfuel : h.fuel < hostFuel hostStorageWriteFuel [keyLen, valLen]
  · rw [if_neg hneg, if_pos (Or.inr hfuel), stops_charged]
    exact iff_of_true (fun h => h.1 hfuel) fun x hx => absurd hx List.not_mem_nil
  rw [if_neg hneg, if_neg (not_or.mpr ⟨hneg, hfuel⟩), stops_charged, stops_readMem_bind, List.forall_mem_cons,
    and_iff_right hfuel, not_or, not_not]
  refine and_congr_right fun hkey => ?_
  rcases readMem_cases h.mem keyPtr keyLen with ⟨-, hread⟩ | ⟨-, -, data, -, hread⟩ | ⟨hin, hend, -⟩
  · rw [hread, if_pos rfl]
    refine iff_of_true ?_ fun x hx => absurd hx List.not_mem_nil
    rintro ⟨r, hr, hs⟩
    obtain rfl := Go.ok.inj hr
    exact stops_pure _ hs
  · rw [hread, if_neg (fun e => by cases e), List.forall_mem_singleton]
    refine ⟨fun hno => not_not.mp fun hval => hno ⟨_, rfl, stops_readMem_bind.mpr (Or.inl hval)⟩, ?_⟩
    rintro hval ⟨r, hr, hs⟩
    obtain rfl := Go.ok.inj hr
    refine (stops_readMem ?_).mp hs hval
    intro val?
    split
    · exact stops_pure _
    · split
      · exact stops_pure _
      · exact stops_pure _
      · rename_i hset
        exact absurd hset (set_returns _ _ _ _)
  · exact absurd (hkey hin) (not_lt.mpr hend)

theorem returns_calldataCopy (dstPtr offset maxLen : Int32) :
    ¬ Stops (hostCalldataCopy cfg dstPtr offset maxLen h) db := by
  unfold hostCalldataCopy
  split
  · exact stops_pure _
  · rw [stops_charged]
    rintro ⟨-, hs⟩
    revert hs
    split
    · exact stops_pure _
    · split
      · exact stops_pure _
      · split
        · exact stops_pure _
        · exact stops_pure _

theorem returns_pairingCheck (inputPtr inputLen : Int32) :
    ¬ Stops (hostPairingCheck E inputPtr inputLen h) db ↔ Sliceable h.mem inputPtr inputLen := by
  unfold hostPairingCheck
  rw [stops_readMem, not_not]
  intro r
  split
  · exact stops_pure _
  · split
    · exact stops_pure _
    · rw [stops_charged]
      rintro ⟨-, hs⟩
      revert hs
      split
      · exact stops_pure _
      · exact stops_pure _

theorem hostCall_returns (c : HostCall) :
    ¬ Stops (hostCall E cfg c h) db ↔ ∀ x ∈ reads c h, Sliceable h.mem x.1 x.2 := by
  have hnone : ∀ {x : M (Int × HostState)}, ¬ Stops x db →
      (¬ Stops x db ↔ ∀ x ∈ ([] : List (Int32 × Int32)), Sliceable h.mem x.1 x.2) :=
    fun hx => iff_of_true hx fun x hx => absurd hx List.not_mem_nil
  cases c with
  | stateGet keyPtr keyLen outPtr outLen =>
    refine returns_guarded fun h r => ?_
    split
    · exact stops_pure _
    · split
      · exact stops_pure _
      · rw [stops_charged]
        exact fun h => stops_pure _ h.2
  | stateSet keyPtr keyLen valPtr valLen => exact returns_stateSet keyPtr keyLen valPtr valLen
  | selfBalance outPtr =>
    refine hnone ?_
    show ¬ Stops (hostSelfBalance cfg outPtr h) db
    unfold hostSelfBalance
    rw [stops_charged]
    exact fun h => stops_balance h.2
  | blockHeight =>
    refine hnone ?_
    show ¬ Stops (hostBlockHeight cfg h) db
    unfold hostBlockHeight
    exact stops_answer
  | caller outPtr =>
    refine hnone ?_
    show ¬ Stops (hostCaller cfg outPtr h) db
    unfold hostCaller writeOut
    exact stops_answer
  | selfAddress outPtr =>
    refine hnone ?_
    show ¬ Stops (hostSelfAddress cfg outPtr h) db
    unfold hostSelfAddress writeOut
    exact stops_answer
  | calldataLen =>
    refine hnone ?_
    show ¬ Stops (hostCalldataLen cfg h) db
    unfold hostCalldataLen
    exact stops_answer
  | balanceOf addrPtr addrLen outPtr =>
    refine returns_guarded fun h r => ?_
    split
    · exact stops_pure _
    · split
      · exact stops_pure _
      · exact stops_balance
  | calldataCopy dstPtr offset maxLen =>
    exact hnone (returns_calldataCopy dstPtr offset maxLen)
  | log ptr length => exact returns_guarded fun h r => stops_pure _
  | transfer recvPtr recvLen amtLo amtHi =>
    refine returns_guarded fun h r => ?_
    split
    · exact stops_pure _
    · split
      · exact stops_pure _
      · exact stops_move fun _ _ => stops_pure _
  | bn254PairingCheck inputPtr inputLen =>
    show ¬ Stops (hostPairingCheck E inputPtr inputLen h) db ↔ ∀ x ∈ [(inputPtr, inputLen)], Sliceable h.mem x.1 x.2
    rw [List.forall_mem_singleton]
    exact returns_pairingCheck inputPtr inputLen

end

/-- Every read of the memory a guest has, and every host function. -/
theorem memory_reads_iff (h : HostState) :
    (∀ ptr length, ReadsRight h.mem ptr length ↔ Sliceable h.mem ptr length) ∧
    ∀ E cfg c db, ¬ Stops (hostCall E cfg c h) db ↔ ∀ x ∈ reads c h, Sliceable h.mem x.1 x.2 :=
  ⟨fun _ _ => readsRight_iff, fun _ _ c _ => hostCall_returns c⟩

/-- A contract logs the last byte of a memory of two GiB. -/
theorem read_stops : ∃ data : List UInt8, data.length = 2 ^ 31 ∧ InMemory (some data) 2147483647 1 ∧
    readMem (some data) 2147483647 1 = .panic "slice bounds out of range" ∧
    Stops (hostLog 2147483647 1 { mem := some data, fuel := maxFuel, state := .empty, hostErr := none }) .new := by
  obtain ⟨data, hlen⟩ : ∃ data : List UInt8, data.length = 2 ^ 31 := ⟨List.replicate (2 ^ 31) 0, List.length_replicate⟩
  have hin : InMemory (some data) 2147483647 1 := ⟨data, rfl, by decide, by decide, by rw [hlen]; decide⟩
  have hend : ¬ Sliceable (some data) 2147483647 1 := fun hs => absurd (hs hin) (by decide)
  refine ⟨data, hlen, hin, ?_, ?_⟩
  · rcases readMem_cases (some data) 2147483647 1 with ⟨hno, -⟩ | ⟨-, hlt, -⟩ | ⟨-, -, h⟩
    · exact absurd hin hno
    · exact absurd hlt (by decide)
    · exact h
  · unfold hostLog
    rw [if_neg (by decide), stops_charged, stops_readMem fun _ => stops_pure _]
    have hfuel : ¬ maxFuel < hostFuel hostLogFuel [1] := by decide +kernel
    exact ⟨hfuel, hend⟩

end Frg.Contract
