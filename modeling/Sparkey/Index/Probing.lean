import Sparkey.Hashreader
import Sparkey.Index.Slots

/-!
# Probing any table

`sparkey_hash_open` checks little of the header of an index: that the file has `data_len` bytes, a
sum and a product of fields in 64 bits, and nothing of the capacity and the address size.  Where
the numbers fit their words, no table can lead a search astray (`Spans.probes`), and where they
do not, some table does (`spans_of_probes`).
-/

namespace Sparkey

open Program

variable [Compressors] {reader : Hashreader} {header : Hashheader} {hash slot displacement : Nat}
  {compare : Nat → Run Logiter Bool} {iter : Logiter} {bytes : List UInt8} {logFile : Option (List UInt8)}

/-! ### The search -/

omit [Compressors] in
/-- The loop of `sparkey_hash_get` around any comparison with the entry at an address. -/
def probeLoop (reader : Hashreader) (hash : Nat) (compare : Nat → Run Logiter Bool) :
    Nat → Nat → Nat → Run Logiter Unit
  | 0, _, _ => stuck
  | fuel + 1, slot, displacement => do
    match reader.readSlot slot with
    | none => stuck
    | some (hash2, address2) =>
      if address2 = 0 then
        modify fun iter => { iter with state := .invalid }
        return ()
      let equals ← if hash = hash2 then compare address2 else pure false
      if equals then
        return ()
      let capacity := reader.header.hashCapacity
      if getDisplacement capacity slot hash2 < displacement then
        modify fun iter => { iter with state := .invalid }
        return ()
      probeLoop reader hash compare fuel (nextSlot capacity slot) (displacement + 1)

/-- **The loop of `sparkey_hash_get`** compares keys. -/
theorem hashGetLoop_eq_probeLoop (reader : Hashreader) (key : List UInt8) (hash : Nat) :
    ∀ fuel slot displacement : Nat, hashGetLoop reader key hash fuel slot displacement
      = probeLoop reader hash (fun address => isEntryOf reader.log key (reader.header.positionOf address)
          (reader.header.entryIndexOf address)) fuel slot displacement := by
  intro fuel
  induction fuel with
  | zero => exact fun _ _ => rfl
  | succ fuel ih =>
    intro slot displacement
    rw [hashGetLoop, probeLoop]
    rcases reader.readSlot slot with _ | ⟨hash2, address2⟩
    · rfl
    · simp only [ih]

omit [Compressors] in
/-- **Any search in the table ends** behind at most one slot more than there are, without a division
by zero and without a look at what is not mapped, however the comparisons go. -/
structure Hashreader.Probes (reader : Hashreader) : Prop where
  capacity_ne_zero : reader.header.hashCapacity ≠ 0
  hashGet_returns : ∀ hash < 256 ^ reader.header.hashSize, ∀ compare : Nat → Run Logiter Bool,
    (∀ address iter, Returns ((compare address).run iter)) → ∀ iter,
    Returns ((probeLoop reader hash compare (reader.header.hashCapacity + 1)
      (hash % reader.header.hashCapacity) 0).run iter)
  hashnext_isSome : ∀ keyHash < 256 ^ reader.header.hashSize, ∀ position,
    (findAddressLoop reader position (reader.header.hashCapacity + 1)
      (keyHash % reader.header.hashCapacity) 0).isSome

/-- Then `sparkey_hash_get` returns whenever the comparisons of the key do. -/
theorem Hashreader.Probes.returns_hashGet [HashFunctions] (h : reader.Probes) (key : List UInt8)
    (hcompares : ∀ address iter, Returns ((isEntryOf reader.log key (reader.header.positionOf address)
      (reader.header.entryIndexOf address)).run iter)) (iter : Logiter) :
    Returns ((hashGet reader key).run iter) := by
  rw [hashGet, assertReaderOpen]
  by_cases hopen : reader.openStatus ≠ magicValueHashreader
  · rw [if_pos hopen]
    trivial
  rw [if_neg hopen]
  simp only [if_neg h.capacity_ne_zero, hashGetLoop_eq_probeLoop]
  exact h.hashGet_returns _ (HashFunctions.hash_lt _ _ _) _ hcompares iter

/-! ### Tables that fit their words -/

def Hashheader.width (header : Hashheader) : Nat := u32 (header.addressSize + header.hashSize)

omit [Compressors] in
/-- The numbers in a header fit the words they are computed in, and the slots go one behind the
other. -/
structure Hashheader.Spans (header : Hashheader) : Prop where
  capacity_pos : 0 < header.hashCapacity
  hashSize_le : header.hashSize ≤ header.width
  length_lt : hashHeaderSize + header.hashCapacity * header.width < 2 ^ 64
  step : header.width < 2 ^ 31 ∨ header.hashCapacity = 1

omit [Compressors] in
structure Hashreader.Mapped (reader : Hashreader) : Prop where
  loaded : reader.header.Loaded
  length : reader.data.length = reader.header.dataLen

omit [Compressors] in
theorem Hashreader.Mapped.length_hashtable (hm : reader.Mapped) :
    reader.hashtable.length = reader.header.dataLen - hashHeaderSize := by
  rw [Hashreader.hashtable, List.length_drop, hm.length, hm.loaded.headerSize]

omit [Compressors] in
theorem readPos_isSome {hashtable : List UInt8} {pos : Nat}
    (hhash : header.hashSize = 4 ∨ header.hashSize = 8)
    (hle : header.hashSize ≤ header.width)
    (hpos : pos + header.width ≤ hashtable.length) :
    ∃ hash address, header.readPos hashtable pos = some (hash, address) := by
  obtain ⟨hash, hread, -⟩ := readLittleEndian_of_le header.hashSize pos hashtable (by omega)
  by_cases hsize : header.addressSize = 4 ∨ header.addressSize = 8
  · -- the address is in the table too
    have hwidth : header.width = header.addressSize + header.hashSize := u32_of_lt (by omega)
    obtain ⟨address, haddr, -⟩ := readLittleEndian_of_le header.addressSize (pos + header.hashSize)
      hashtable (by omega)
    exact ⟨hash, address, by rw [Hashheader.readPos, hread, readAddr_of_size hsize, haddr]; rfl⟩
  · -- the code reads no address
    exact ⟨hash, _, by rw [Hashheader.readPos, hread, readAddr, if_neg hsize]; rfl⟩

omit [Compressors] in
theorem slotStep_of_lt (h : header.width < 2 ^ 31) : header.slotStep = header.width := if_pos h

omit [Compressors] in
theorem slotStep_of_ge (h : 2 ^ 31 ≤ header.width) :
    header.slotStep = header.width + (2 ^ 64 - 2 ^ 32) := if_neg (Nat.not_lt.mpr h)

omit [Compressors] in
theorem Hashheader.Loaded.dataLen_eq (h : header.Loaded) :
    header.dataLen = u64 (hashHeaderSize + header.hashCapacity * header.width) := by
  rw [Hashheader.dataLen, h.headerSize, Nat.add_comm header.hashSize]
  rfl

omit [Compressors] in
/-- **Every slot is mapped.** -/
theorem Hashheader.Spans.readSlot (h : reader.header.Spans) (hm : reader.Mapped)
    (hslot : slot < reader.header.hashCapacity) :
    ∃ hash address, reader.readSlot slot = some (hash, address) := by
  have hsize : hashHeaderSize = 112 := rfl
  have hlen := hm.length_hashtable
  have hspan := h.length_lt
  have hdata : reader.header.dataLen = hashHeaderSize + reader.header.hashCapacity * reader.header.width :=
    hm.loaded.dataLen_eq.trans (u64_of_lt hspan)
  have hin : slot * reader.header.width + reader.header.width
      ≤ reader.header.hashCapacity * reader.header.width := by
    rw [← Nat.succ_mul]
    exact Nat.mul_le_mul_right _ hslot
  have hpos : u64 (slot * reader.header.slotStep) = slot * reader.header.width := by
    rcases h.step with hstep | hone
    · rw [slotStep_of_lt hstep]
      exact u64_of_lt (by omega)
    · obtain rfl : slot = 0 := by omega
      rw [Nat.zero_mul, Nat.zero_mul]
      rfl
  rw [Hashreader.readSlot, hpos]
  exact readPos_isSome hm.loaded.hashSize h.hashSize_le (by omega)

omit [Compressors] in
theorem nextSlot_lt {capacity : Nat} (hslot : slot < capacity) : nextSlot capacity slot < capacity := by
  unfold nextSlot
  split_ifs <;> omega

omit [Compressors] in
theorem getDisplacement_lt {capacity : Nat} (h : 0 < capacity) :
    getDisplacement capacity slot hash < capacity := Nat.mod_lt _ h

omit [Compressors] in
/-- The search of `sparkey_hash_get` ends: no displacement is the capacity. -/
theorem Hashheader.Spans.returns_probeLoop (h : reader.header.Spans) (hm : reader.Mapped)
    (hcompare : ∀ address iter, Returns ((compare address).run iter)) :
    ∀ (fuel slot displacement : Nat) (iter : Logiter), slot < reader.header.hashCapacity →
      reader.header.hashCapacity < fuel + displacement →
      displacement ≤ reader.header.hashCapacity →
      Returns ((probeLoop reader hash compare fuel slot displacement).run iter) := by
  intro fuel
  induction fuel with
  | zero =>
    intro slot displacement iter _ hlt hle
    omega
  | succ fuel ih =>
    intro slot displacement iter hslot hlt hle
    obtain ⟨hash2, address2, hread⟩ := h.readSlot hm hslot
    rw [probeLoop, hread]
    simp only
    by_cases h0 : address2 = 0
    · rw [if_pos h0]
      trivial
    rw [if_neg h0]
    have hrest : ∀ (found : Bool) iter, Returns ((if found = true then pure () else
        if getDisplacement reader.header.hashCapacity slot hash2 < displacement then do
          modify fun iter => { iter with state := .invalid }
          return ()
        else probeLoop reader hash compare fuel (nextSlot reader.header.hashCapacity slot)
          (displacement + 1) : Run Logiter Unit).run iter) := by
      intro found iter
      have hdisp : getDisplacement reader.header.hashCapacity slot hash2 < reader.header.hashCapacity :=
        getDisplacement_lt h.capacity_pos
      split_ifs with hfound hfar
      · trivial
      · trivial
      · exact ih _ _ iter (nextSlot_lt hslot) (by omega) (by omega)
    by_cases hhash : hash = hash2
    · rw [if_pos hhash]
      exact (hcompare address2 iter).bind fun found iter₁ _ => hrest found iter₁
    · rw [if_neg hhash]
      exact hrest false iter

omit [Compressors] in
theorem Hashheader.Spans.findAddressLoop_isSome (h : reader.header.Spans) (hm : reader.Mapped)
    (position : Nat) : ∀ fuel slot displacement : Nat, slot < reader.header.hashCapacity →
      reader.header.hashCapacity < fuel + displacement →
      displacement ≤ reader.header.hashCapacity →
      (findAddressLoop reader position fuel slot displacement).isSome := by
  intro fuel
  induction fuel with
  | zero =>
    intro slot displacement _ hlt hle
    omega
  | succ fuel ih =>
    intro slot displacement hslot hlt hle
    obtain ⟨hash2, position2, hread⟩ := h.readSlot hm hslot
    have hdisp : getDisplacement reader.header.hashCapacity slot hash2 < reader.header.hashCapacity :=
      getDisplacement_lt h.capacity_pos
    rw [findAddressLoop, hread]
    simp only
    split_ifs with h0 hfound hfar
    · rfl
    · rfl
    · rfl
    · exact ih _ _ (nextSlot_lt hslot) (by omega) (by omega)

omit [Compressors] in
/-- **Where the numbers fit, no table leads a search astray.** -/
theorem Hashheader.Spans.probes (h : reader.header.Spans) (hm : reader.Mapped) : reader.Probes where
  capacity_ne_zero := Nat.ne_of_gt h.capacity_pos
  hashGet_returns _ _ _ hcompare iter :=
    h.returns_probeLoop hm hcompare _ _ 0 iter (Nat.mod_lt _ h.capacity_pos)
    (Nat.lt_succ_self _) (Nat.zero_le _)
  hashnext_isSome _ _ position := h.findAddressLoop_isSome hm position _ _ 0 (Nat.mod_lt _ h.capacity_pos)
    (Nat.lt_succ_self _) (Nat.zero_le _)

/-! ### Tables that lead astray -/

omit [Compressors] in
theorem readLittleEndian_of_replicate {n pos : Nat} {array : List UInt8} (byte : UInt8)
    (h : ∀ i < n, array[pos + i]? = some byte) :
    readLittleEndian n array pos = some (LittleEndian.decode (List.replicate n byte)) := by
  have hbytes : (array.drop pos).take n = List.replicate n byte := by
    apply List.ext_getElem?
    intro i
    by_cases hi : i < n
    · rw [List.getElem?_take_of_lt hi, List.getElem?_drop, h i hi, List.getElem?_replicate_of_lt hi]
    · rw [List.getElem?_take_eq_none (by omega), List.getElem?_eq_none]
      rw [List.length_replicate]
      omega
  rw [readLittleEndian, hbytes, if_pos List.length_replicate]

omit [Compressors] in
theorem readLittleEndian_eq_none {n pos : Nat} {array : List UInt8} (hn : 0 < n)
    (h : array.length < pos + n) : readLittleEndian n array pos = none := by
  have hshort : ¬ ((array.drop pos).take n).length = n := by
    rw [List.length_take, List.length_drop]
    omega
  rw [readLittleEndian, if_neg hshort]

/-- The bytes of a table in which each slot has the hash value 0 and an address: an entry that would
like to be in slot 0. -/
def zeroHashes (header : Hashheader) (n : Nat) : List UInt8 :=
  (List.range n).map fun i => if i % header.width < header.hashSize then 0 else 1

omit [Compressors] in
theorem length_zeroHashes (header : Hashheader) (n : Nat) : (zeroHashes header n).length = n := by
  rw [zeroHashes, List.length_map, List.length_range]

omit [Compressors] in
theorem getElem?_zeroHashes {n i : Nat} (h : i < n) :
    (zeroHashes header n)[i]? = some (if i % header.width < header.hashSize then 0 else 1) := by
  rw [zeroHashes, List.getElem?_map, List.getElem?_range h]
  rfl

omit [Compressors] in
/-- A slot of such a table is as it should be, if its hash value is in the table. -/
theorem readPos_zeroHashes {n : Nat} (hhash : header.hashSize = 4 ∨ header.hashSize = 8) (slot : Nat) :
    header.readPos (zeroHashes header n) (slot * header.width) = none ∨
      slot * header.width + header.hashSize ≤ n ∧ ∃ address, address ≠ 0 ∧
        header.readPos (zeroHashes header n) (slot * header.width) = some (0, address) := by
  by_cases hle : slot * header.width + header.hashSize ≤ n
  swap
  · left
    rw [Hashheader.readPos, readLittleEndian_eq_none (by omega)]
    · rfl
    · rw [length_zeroHashes]
      omega
  have hread : readLittleEndian header.hashSize (zeroHashes header n) (slot * header.width) = some 0 := by
    rw [readLittleEndian_of_replicate 0, LittleEndian.decode_replicate_zero]
    intro i hi
    rw [getElem?_zeroHashes (by omega), Nat.mul_add_mod', if_pos]
    exact Nat.lt_of_le_of_lt (Nat.mod_le _ _) hi
  by_cases hsize : header.addressSize = 4 ∨ header.addressSize = 8
  · have hwidth : header.width = header.addressSize + header.hashSize := u32_of_lt (by omega)
    by_cases hin : slot * header.width + header.hashSize + header.addressSize ≤ n
    · right
      refine ⟨hle, LittleEndian.decode (List.replicate header.addressSize 1), ?_, ?_⟩
      · rcases hsize with hsize | hsize <;> rw [hsize] <;> decide
      rw [Hashheader.readPos, hread, readAddr_of_size hsize, readLittleEndian_of_replicate 1]
      · rfl
      intro i hi
      rw [getElem?_zeroHashes (by omega), Nat.add_assoc, Nat.mul_add_mod', Nat.mod_eq_of_lt (by omega),
        if_neg (by omega)]
    · left
      rw [Hashheader.readPos, hread, readAddr_of_size hsize, readLittleEndian_eq_none (by omega)]
      · rfl
      · rw [length_zeroHashes]
        omega
  · right
    refine ⟨hle, 2 ^ 64 - 1, by decide, ?_⟩
    rw [Hashheader.readPos, hread, readAddr, if_neg hsize]
    rfl

omit [Compressors] in
theorem getDisplacement_zero {capacity : Nat} (hslot : slot < capacity) (h : capacity + slot < 2 ^ 64) :
    getDisplacement capacity slot 0 = slot := by
  unfold getDisplacement
  simp only [Nat.zero_mod, Nat.sub_zero]
  have hword : u64 (slot + 2 ^ 64) = slot := by
    rw [u64, Nat.add_mod_right]
    exact Nat.mod_eq_of_lt (by omega)
  rw [hword, u64_of_lt h, Nat.add_mod_left, Nat.mod_eq_of_lt hslot]

omit [Compressors] in
theorem exists_of_returns {fuel : Nat}
    (h : Returns ((probeLoop reader hash compare (fuel + 1) slot displacement).run iter)) :
    ∃ content, reader.readSlot slot = some content := by
  rw [probeLoop] at h
  cases hread : reader.readSlot slot with
  | none =>
    rw [hread] at h
    exact h.elim
  | some content => exact ⟨content, rfl⟩

omit [Compressors] in
/-- A search for the hash value 0 among entries with that hash value goes on to the next slot. -/
theorem returns_next {fuel address : Nat} (hread : reader.readSlot slot = some (0, address))
    (hne : address ≠ 0) (hslot : slot + 1 < reader.header.hashCapacity)
    (hlt : reader.header.hashCapacity + slot < 2 ^ 64)
    (h : Returns ((probeLoop reader 0 (fun _ => pure false) (fuel + 1) slot slot).run iter)) :
    Returns ((probeLoop reader 0 (fun _ => pure false) fuel (slot + 1) (slot + 1)).run iter) := by
  have hnext : nextSlot reader.header.hashCapacity slot = slot + 1 := if_neg (Nat.not_le.mpr hslot)
  have hdisp : ¬ getDisplacement reader.header.hashCapacity slot 0 < slot := by
    rw [getDisplacement_zero (by omega) hlt]
    exact Nat.lt_irrefl slot
  rw [probeLoop, hread] at h
  simp only [if_neg hne, if_true, pure_bind, Bool.false_eq_true, if_false, if_neg hdisp, hnext] at h
  exact h

omit [Compressors] in
/-- Where a slot is mapped, the number of the slot and the capacity have a sum. -/
theorem Hashreader.Mapped.capacity_add_lt (hm : reader.Mapped) (hlen : reader.data.length < 2 ^ 63)
    (hin : slot * reader.header.width + reader.header.hashSize ≤ reader.hashtable.length) :
    reader.header.hashCapacity + slot < 2 ^ 64 := by
  refine Nat.lt_of_not_le fun hge => ?_
  have hsize : hashHeaderSize = 112 := rfl
  have hhash := hm.loaded.hashSize
  have hcapacity := hm.loaded.capacity_lt
  have htable := hm.length_hashtable
  have hdata := hm.loaded.dataLen_eq
  rw [hm.length] at hlen
  -- the capacity is a little below 2 ^ 64, so the product is a little below a multiple of it
  obtain ⟨missing, hmissing⟩ : ∃ missing, missing = 2 ^ 64 - reader.header.hashCapacity := ⟨_, rfl⟩
  have hle : missing * reader.header.width ≤ slot * reader.header.width :=
    Nat.mul_le_mul_right _ (by omega)
  have hsum : reader.header.hashCapacity * reader.header.width + missing * reader.header.width
      = 2 ^ 64 * reader.header.width := by
    rw [← Nat.add_mul]
    congr 1
    omega
  have hzero : reader.header.width = 0 → missing * reader.header.width = 0 := fun h => by rw [h, Nat.mul_zero]
  unfold u64 at hdata
  omega

omit [Compressors] in
/-- A search in such a table that returns has found its first slot in the table. -/
theorem mapped_of_returns {n fuel : Nat} (hm : reader.Mapped)
    (htable : reader.hashtable = zeroHashes reader.header n)
    (hpos : u64 (slot * reader.header.slotStep) = slot * reader.header.width)
    (h : Returns ((probeLoop reader hash compare (fuel + 1) slot displacement).run iter)) :
    slot * reader.header.width + reader.header.hashSize ≤ n ∧
      ∃ address, address ≠ 0 ∧ reader.readSlot slot = some (0, address) := by
  obtain ⟨content, hcontent⟩ := exists_of_returns h
  rw [Hashreader.readSlot, hpos, htable] at hcontent ⊢
  rcases readPos_zeroHashes hm.loaded.hashSize slot with hnone | hsome
  · rw [hnone] at hcontent
    cases hcontent
  · exact hsome

omit [Compressors] in
/-- **A search through all of such a table** finds every slot in it. -/
theorem mapped_of_zeroHashes {n : Nat} (hm : reader.Mapped) (hlen : reader.data.length < 2 ^ 63)
    (htable : reader.hashtable = zeroHashes reader.header n) (hwidth : reader.header.width < 2 ^ 31)
    (h : Returns ((probeLoop reader 0 (fun _ => pure false) (reader.header.hashCapacity + 1) 0 0).run iter)) :
    ∀ slot < reader.header.hashCapacity, slot * reader.header.width + reader.header.hashSize ≤ n ∧
      Returns ((probeLoop reader 0 (fun _ => pure false) (reader.header.hashCapacity - slot + 1) slot
        slot).run iter) := by
  have hn : reader.hashtable.length = n := by rw [htable, length_zeroHashes]
  have hlt : n < 2 ^ 63 := by
    rw [← hn, Hashreader.hashtable, List.length_drop]
    omega
  have hpos : ∀ slot, slot * reader.header.width < 2 ^ 64 →
      u64 (slot * reader.header.slotStep) = slot * reader.header.width := by
    intro slot hword
    rw [slotStep_of_lt hwidth, u64_of_lt hword]
  intro slot
  induction slot with
  | zero =>
    intro _
    refine ⟨(mapped_of_returns hm htable (hpos 0 ?_) h).1, h⟩
    rw [Nat.zero_mul]
    decide
  | succ slot ih =>
    intro hslot
    obtain ⟨hin, hret⟩ := ih (by omega)
    obtain ⟨-, address, hne, hread⟩ := mapped_of_returns hm htable (hpos slot (by omega)) hret
    have hadd : reader.header.hashCapacity + slot < 2 ^ 64 := hm.capacity_add_lt hlen (by omega)
    have hret' := returns_next hread hne hslot hadd hret
    have hleft : reader.header.hashCapacity - slot = reader.header.hashCapacity - (slot + 1) + 1 := by omega
    rw [hleft] at hret'
    have hword : (slot + 1) * reader.header.width < 2 ^ 64 := by
      rw [Nat.succ_mul]
      omega
    exact ⟨(mapped_of_returns hm htable (hpos _ hword) hret').1, hret'⟩

omit [Compressors] in
/-- **Where the numbers do not fit, a table leads a search astray.** -/
theorem spans_of_probes {n : Nat} (hm : reader.Mapped) (hlen : reader.data.length < 2 ^ 63)
    (htable : reader.hashtable = zeroHashes reader.header n) (h : reader.Probes) :
    reader.header.Spans := by
  obtain ⟨iter⟩ : Nonempty Logiter := ⟨⟨0, 0, 0, 0, 0, 0, 0, [], 0, 0, .put, .new, 0, 0, 0, 0⟩⟩
  have hsize : hashHeaderSize = 112 := rfl
  have hhash := hm.loaded.hashSize
  have hdata := hm.loaded.dataLen_eq
  have htab := hm.length_hashtable
  have hn : reader.hashtable.length = n := by rw [htable, length_zeroHashes]
  rw [hm.length] at hlen
  have hpos : 0 < reader.header.hashCapacity := Nat.pos_of_ne_zero h.capacity_ne_zero
  have hret := h.hashGet_returns 0 (Nat.pow_pos (by decide)) (fun _ => pure false) (fun _ _ => trivial) iter
  rw [Nat.zero_mod] at hret
  by_cases hwidth : reader.header.width < 2 ^ 31
  · -- the last slot is in the table, so nothing was cut down
    obtain ⟨hlast, -⟩ := mapped_of_zeroHashes hm (hm.length ▸ hlen) htable hwidth hret
      (reader.header.hashCapacity - 1) (by omega)
    have hmul : reader.header.hashCapacity * reader.header.width
        = (reader.header.hashCapacity - 1) * reader.header.width + reader.header.width := by
      rw [← Nat.succ_mul]
      congr 1
      omega
    have hword : hashHeaderSize + reader.header.hashCapacity * reader.header.width < 2 ^ 64 := by omega
    rw [u64_of_lt hword] at hdata
    exact ⟨hpos, by omega, hword, Or.inl hwidth⟩
  · -- the second slot would be in front of the first
    have hlt : reader.header.width < 2 ^ 32 := u32_lt _
    have hone : reader.header.hashCapacity = 1 := by
      refine Nat.le_antisymm (Nat.le_of_not_lt fun htwo => ?_) hpos
      obtain ⟨-, address, hne, hread⟩ := mapped_of_returns hm htable
        (by rw [Nat.zero_mul, Nat.zero_mul]; rfl) hret
      have hret' := returns_next hread hne htwo hm.loaded.capacity_lt hret
      rw [show reader.header.hashCapacity = reader.header.hashCapacity - 1 + 1 by omega] at hret'
      obtain ⟨content, hcontent⟩ := exists_of_returns hret'
      rw [Hashreader.readSlot, Nat.zero_add, Nat.one_mul, slotStep_of_ge (by omega), u64_of_lt (by omega),
        Hashheader.readPos, readLittleEndian_eq_none (by omega) (by omega)] at hcontent
      cases hcontent
    refine ⟨hpos, by omega, ?_, Or.inr hone⟩
    rw [hone, Nat.one_mul]
    omega

/-! ### Opened files -/

omit [Compressors] in
/-- Two files with the same header and the same length are opened just so. -/
theorem hashOpen_congr {bytes' : List UInt8}
    (hload : loadHashheader (some bytes') = loadHashheader (some bytes))
    (hlen : bytes'.length = bytes.length) :
    hashOpen (some bytes') logFile = (hashOpen (some bytes) logFile).map fun reader =>
      { reader with data := bytes'.take reader.header.dataLen } := by
  rw [hashOpen, hashOpen, hload]
  cases loadHashheader (some bytes) with
  | error code => rfl
  | ok header =>
    cases logreaderOpen logFile with
    | error code => rfl
    | ok log =>
      simp only [Option.getD_some, hlen]
      split_ifs <;> rfl

omit [Compressors] in
theorem mapped_of_hashOpen (h : hashOpen (some bytes) logFile = .ok reader) :
    reader.Mapped ∧ reader.data = bytes.take reader.header.dataLen ∧
      loadHashheader (some bytes) = .ok reader.header := by
  rw [hashOpen] at h
  cases hload : loadHashheader (some bytes) with
  | error code =>
    rw [hload] at h
    cases h
  | ok header =>
    rw [hload] at h
    cases hlog : logreaderOpen logFile with
    | error code =>
      simp only [hlog] at h
      cases h
    | ok log =>
      simp only [hlog, Option.getD_some] at h
      split_ifs at h with _ _ _ _ hshort _
      cases h
      have hloaded := (loadHashheader_eq_of_take hload rfl).1
      exact ⟨⟨hloaded, List.length_take_of_le (Nat.le_of_not_lt hshort)⟩, rfl, rfl⟩

omit [Compressors] in
/-- **Searching any table that opens**: with the header and the length of a file, every table is
searched without harm if and only if the numbers in the header fit their words. -/
theorem probes_iff_spans (hopen : hashOpen (some bytes) logFile = .ok reader)
    (hbytes : bytes.length < 2 ^ 63) :
    (∀ bytes' reader', bytes'.length = bytes.length →
      bytes'.take hashHeaderSize = bytes.take hashHeaderSize →
      hashOpen (some bytes') logFile = .ok reader' → reader'.Probes) ↔ reader.header.Spans := by
  obtain ⟨hm, hdata, hload⟩ := mapped_of_hashOpen hopen
  constructor
  · intro hall
    -- the table of the file made one of hash values 0
    obtain ⟨bytes', hbytes'⟩ : ∃ bytes', bytes' = bytes.take hashHeaderSize
      ++ zeroHashes reader.header (bytes.length - hashHeaderSize) := ⟨_, rfl⟩
    have hle : hashHeaderSize ≤ bytes.length :=
      Nat.le_of_not_lt fun hshort => loadHashheader_of_short hshort _ hload
    have hhead : (bytes.take hashHeaderSize).length = hashHeaderSize := List.length_take_of_le hle
    have hlen : bytes'.length = bytes.length := by
      rw [hbytes', List.length_append, hhead, length_zeroHashes]
      omega
    have htake : bytes'.take hashHeaderSize = bytes.take hashHeaderSize := by
      rw [hbytes', List.take_append_of_le_length (Nat.le_of_eq hhead.symm),
        List.take_of_length_le (Nat.le_of_eq hhead)]
    have hsame := (loadHashheader_eq_of_take hload htake).2.trans hload.symm
    have hopen' : hashOpen (some bytes') logFile = _ := hashOpen_congr hsame hlen
    rw [hopen] at hopen'
    obtain ⟨reader', hreader'⟩ :
        ∃ reader', reader' = { reader with data := bytes'.take reader.header.dataLen } := ⟨_, rfl⟩
    change _ = Except.ok { reader with data := bytes'.take reader.header.dataLen } at hopen'
    rw [← hreader'] at hopen'
    have hprobes := hall bytes' reader' hlen htake hopen'
    have hm' := (mapped_of_hashOpen hopen').1
    have hheader : reader'.header = reader.header := by rw [hreader']
    have hdata' : reader'.data = bytes'.take reader.header.dataLen := by rw [hreader']
    rw [← hheader]
    refine spans_of_probes (n := min (reader.header.dataLen - hashHeaderSize) (bytes.length - hashHeaderSize))
      hm' ?_ ?_ hprobes
    · rw [hdata']
      refine Nat.lt_of_le_of_lt ?_ hbytes
      rw [← hlen]
      exact List.length_take_le' _ _
    · rw [Hashreader.hashtable, hheader, hdata', hm.loaded.headerSize, List.drop_take, hbytes',
        List.drop_left' hhead]
      show ((List.range _).map _).take _ = (List.range _).map _
      rw [← List.map_take, List.take_range]
  · intro hspans bytes' reader' hlen htake hopen'
    obtain ⟨hm', -, hload'⟩ := mapped_of_hashOpen hopen'
    have hsame := (loadHashheader_eq_of_take hload htake).2
    have hheader : reader'.header = reader.header := Except.ok.inj (hload'.symm.trans hsame)
    exact Hashheader.Spans.probes (hheader ▸ hspans) hm'

def bareHeader (hashCapacity : Nat) : Hashheader where
  majorVersion := hashMajorVersion
  minorVersion := hashMinorVersion
  fileIdentifier := 7
  hashSeed := 0
  headerSize := hashHeaderSize
  dataEnd := logHeaderSize
  maxKeyLen := 0
  maxValueLen := 0
  garbageSize := 0
  numEntries := 0
  addressSize := 4
  hashSize := 4
  hashCapacity := hashCapacity
  maxDisplacement := 0
  numPuts := 0
  entryBlockBits := 0
  entryBlockBitmask := 0
  hashCollisions := 0
  totalDisplacement := 0

def bareLogheader : Logheader where
  majorVersion := logMajorVersion
  minorVersion := logMinorVersion
  fileIdentifier := 7
  numPuts := 0
  numDeletes := 0
  dataEnd := logHeaderSize
  maxKeyLen := 0
  maxValueLen := 0
  deleteSize := 0
  compressionType := .none
  compressionBlockSize := 0
  putSize := 0
  headerSize := logHeaderSize
  maxEntriesPerBlock := 0

omit [Compressors] in
theorem exists_bareReader (hashCapacity : Nat) (table : List UInt8)
    (h : (hashOpen (some ((bareHeader hashCapacity).bytes ++ table)) (some bareLogheader.bytes)).toOption.map
      (fun reader => reader.header) = some (bareHeader hashCapacity)) :
    ∃ reader, hashOpen (some ((bareHeader hashCapacity).bytes ++ table)) (some bareLogheader.bytes)
      = .ok reader ∧ reader.header = bareHeader hashCapacity := by
  cases hopen : hashOpen (some ((bareHeader hashCapacity).bytes ++ table)) (some bareLogheader.bytes) with
  | error code =>
    rw [hopen] at h
    cases h
  | ok reader =>
    rw [hopen] at h
    exact ⟨reader, rfl, Option.some.inj h⟩

/-- The slots of two entries with hash values 2 and 1, both in the slots that they want. -/
def pairTable : List UInt8 := [2, 0, 0, 0, 90, 0, 0, 0, 1, 0, 0, 0, 84, 0, 0, 0]

omit [Compressors] in
/-- A full index of two slots. -/
theorem probes_iff_spans_sample :
    ∃ bytes logFile reader, hashOpen (some bytes) logFile = .ok reader ∧ bytes.length < 2 ^ 63 ∧
      reader.readSlot 0 = some (2, 90) ∧ reader.readSlot 1 = some (1, 84) ∧ reader.Probes := by
  obtain ⟨reader, hopen, hheader⟩ := exists_bareReader 2 pairTable (by decide +kernel)
  have hlen : ((bareHeader 2).bytes ++ pairTable).length < 2 ^ 63 := by
    rw [List.length_append, Hashheader.length_bytes]
    decide
  have hspans : reader.header.Spans := by
    rw [hheader]
    exact ⟨by decide, by decide, by decide, Or.inl (by decide)⟩
  have hslots : (hashOpen (some ((bareHeader 2).bytes ++ pairTable)) (some bareLogheader.bytes)).toOption.map
      (fun reader => (reader.readSlot 0, reader.readSlot 1)) = some (some (2, 90), some (1, 84)) := by
    decide +kernel
  rw [hopen] at hslots
  obtain ⟨hfirst, hsecond⟩ := Prod.mk.inj (Option.some.inj hslots)
  exact ⟨_, _, reader, hopen, hlen, hfirst, hsecond,
    (probes_iff_spans hopen hlen).mpr hspans _ reader rfl rfl hopen⟩

omit [Compressors] in
/-- An index of no slots opens, and any search in it divides by zero. -/
theorem hashOpen_of_noSlots :
    ∃ bytes logFile reader, hashOpen (some bytes) logFile = .ok reader ∧ ¬ reader.Probes := by
  obtain ⟨reader, hopen, hheader⟩ :=
    exists_bareReader 0 [] (by decide +kernel)
  refine ⟨_, _, reader, hopen, fun hprobes => hprobes.capacity_ne_zero ?_⟩
  rw [hheader]
  rfl

end Sparkey
