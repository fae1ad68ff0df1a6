import Sparkey.Hashheader
import Sparkey.Lib.RobinHood

/-!
# The bytes of a table as slots

The table is an array of bytes; what the algorithms work on is a function from
slots to what is stored there, `Hashheader.slots`, with address 0 for nothing.
Reading and writing a slot is looking up and updating that function, and the
displacement of the code is the distance of `Lib/RobinHood.lean`.
-/

namespace Sparkey

open RobinHood

/-! ### Bytes under a write -/

theorem getElem?_splice {data bytes : List UInt8} {offset : Nat}
    (h : offset + bytes.length ≤ data.length) (i : Nat) :
    (splice data offset bytes)[i]?
      = if offset ≤ i ∧ i < offset + bytes.length then bytes[i - offset]? else data[i]? := by
  unfold splice
  split_ifs with hb hi hi
  · subst hb
    rw [List.length_nil] at hi
    omega
  · rfl
  · rw [show offset - data.length = 0 by omega, List.replicate_zero, List.append_nil,
      List.getElem?_append_left (by simp; omega), List.getElem?_append_right (by simp; omega),
      List.length_take_of_le (by omega)]
  · rw [show offset - data.length = 0 by omega, List.replicate_zero, List.append_nil]
    by_cases hlt : i < offset
    · rw [List.append_assoc, List.getElem?_append_left (by simp; omega),
        List.getElem?_take_of_lt hlt]
    · rw [List.getElem?_append_right (by simp; omega), List.getElem?_drop]
      congr 1
      simp only [List.length_append, List.length_take]
      omega

theorem readLittleEndian_splice_ne {data bytes : List UInt8} {offset n pos : Nat}
    (h : offset + bytes.length ≤ data.length)
    (hne : pos + n ≤ offset ∨ offset + bytes.length ≤ pos) :
    readLittleEndian n (splice data offset bytes) pos = readLittleEndian n data pos := by
  have hbytes : ((splice data offset bytes).drop pos).take n = (data.drop pos).take n := by
    apply List.ext_getElem?
    intro i
    by_cases hi : i < n
    · rw [List.getElem?_take_of_lt hi, List.getElem?_take_of_lt hi, List.getElem?_drop,
        List.getElem?_drop, getElem?_splice h, if_neg (by omega)]
    · rw [List.getElem?_take_eq_none (by omega), List.getElem?_take_eq_none (by omega)]
  rw [readLittleEndian, readLittleEndian, hbytes]

theorem readLittleEndian_splice {data : List UInt8} {offset n value : Nat}
    (h : offset + n ≤ data.length) (hv : value < 256 ^ n) :
    readLittleEndian n (splice data offset (writeLittleEndian n value)) offset = some value := by
  have hmid : ((data.drop offset).take n).length = (writeLittleEndian n value).length := by
    rw [length_writeLittleEndian, List.length_take, List.length_drop]
    omega
  have hsplit : data = data.take offset ++ (data.drop offset).take n ++ data.drop (offset + n) := by
    rw [← List.drop_drop, List.append_assoc, List.take_append_drop, List.take_append_drop]
  have hpre : (data.take offset).length = offset := List.length_take_of_le (by omega)
  have := splice_append (data.take offset) _ (data.drop (offset + n)) _ hmid
  rw [← hsplit, hpre] at this
  rw [this]
  have hread := readLittleEndian_write hv (data.take offset) (data.drop (offset + n))
  rwa [hpre] at hread

theorem readLittleEndian_of_le (n pos : Nat) (data : List UInt8) (h : pos + n ≤ data.length) :
    ∃ value, readLittleEndian n data pos = some value ∧ value < 256 ^ n := by
  have hlen : ((data.drop pos).take n).length = n := by
    rw [List.length_take, List.length_drop]
    omega
  refine ⟨LittleEndian.decode ((data.drop pos).take n), by rw [readLittleEndian, if_pos hlen], ?_⟩
  have := LittleEndian.decode_lt ((data.drop pos).take n)
  rwa [hlen] at this

/-! ### Slots -/

/-- A table of the size and the widths its header tells, with nothing left in its free slots. -/
structure Sized (header : Hashheader) (hashtable : List UInt8) : Prop where
  addressSize : header.addressSize = 4 ∨ header.addressSize = 8
  hashSize : header.hashSize = 4 ∨ header.hashSize = 8
  capacity_pos : 0 < header.hashCapacity
  capacity_lt : header.hashCapacity < 2 ^ 63
  length : hashtable.length = header.slotSize * header.hashCapacity
  blank : ∀ slot hash, header.readSlot hashtable slot = some (hash, 0) → hash = 0

def Hashheader.slots (header : Hashheader) (hashtable : List UInt8) (slot : Nat) :
    Option (Nat × Nat) :=
  match header.readSlot hashtable slot with
  | some (hash, position) => if position = 0 then none else some (hash, position)
  | none => none

def Hashheader.home (header : Hashheader) (entry : Nat × Nat) : Nat :=
  entry.1 % header.hashCapacity

variable {header header' : Hashheader} {hashtable : List UInt8} {slot hash position : Nat}

theorem Hashheader.home_lt (hs : Sized header hashtable) (entry : Nat × Nat) :
    header.home entry < header.hashCapacity := Nat.mod_lt _ hs.capacity_pos

theorem Hashheader.readSlot_congr (ha : header'.addressSize = header.addressSize)
    (hh : header'.hashSize = header.hashSize) :
    header'.readSlot hashtable slot = header.readSlot hashtable slot := by
  unfold Hashheader.readSlot Hashheader.readPos Hashheader.slotSize
  rw [ha, hh]

theorem Hashheader.slots_congr (ha : header'.addressSize = header.addressSize)
    (hh : header'.hashSize = header.hashSize) :
    header'.slots hashtable = header.slots hashtable := by
  funext slot
  unfold Hashheader.slots
  rw [Hashheader.readSlot_congr ha hh]

theorem Sized.slot_le (hs : Sized header hashtable) (h : slot < header.hashCapacity) :
    slot * header.slotSize + header.slotSize ≤ hashtable.length := by
  rw [hs.length, ← Nat.succ_mul, Nat.mul_comm header.slotSize]
  exact Nat.mul_le_mul_right _ h

theorem Sized.slotSize_le (hs : Sized header hashtable) : header.slotSize ≤ 16 := by
  have haddress := hs.addressSize
  have hhash := hs.hashSize
  unfold Hashheader.slotSize
  omega

/-- The `int` that the code adds and multiplies with is the size of a slot. -/
theorem Hashheader.slotStep_of_le (h : header.slotSize ≤ 16) : header.slotStep = header.slotSize := by
  unfold Hashheader.slotStep
  rw [u32_of_lt (by omega), if_pos (by omega)]

theorem Sized.slotStep_eq (hs : Sized header hashtable) : header.slotStep = header.slotSize :=
  Hashheader.slotStep_of_le hs.slotSize_le

theorem readAddr_of_size {pos addressSize : Nat} (h : addressSize = 4 ∨ addressSize = 8) :
    readAddr hashtable pos addressSize = readLittleEndian addressSize hashtable pos := by
  rw [readAddr, if_pos h]

theorem writeAddr_of_size {addressSize : Nat} (h : addressSize = 4 ∨ addressSize = 8) :
    writeAddr position addressSize = writeLittleEndian addressSize position := by
  rw [writeAddr, if_pos h]

/-- **Reading a slot.** -/
theorem Sized.readSlot (hs : Sized header hashtable) (h : slot < header.hashCapacity) :
    ∃ hash position, header.readSlot hashtable slot = some (hash, position) ∧
      hash < 256 ^ header.hashSize ∧ position < 256 ^ header.addressSize ∧
      header.slots hashtable slot = if position = 0 then none else some (hash, position) := by
  have hle := hs.slot_le h
  unfold Hashheader.slotSize at hle
  obtain ⟨hash, hhash, hhash'⟩ := readLittleEndian_of_le header.hashSize
    (slot * (header.addressSize + header.hashSize)) hashtable (by omega)
  obtain ⟨position, hpos, hpos'⟩ := readLittleEndian_of_le header.addressSize
    (slot * (header.addressSize + header.hashSize) + header.hashSize) hashtable (by omega)
  have hread : header.readSlot hashtable slot = some (hash, position) := by
    rw [Hashheader.readSlot, Hashheader.readPos, Hashheader.slotSize, hhash,
      readAddr_of_size hs.addressSize, hpos]
    rfl
  refine ⟨hash, position, hread, hhash', hpos', ?_⟩
  rw [Hashheader.slots, hread]

theorem length_splice_of_le {data bytes : List UInt8} {offset : Nat}
    (h : offset + bytes.length ≤ data.length) : (splice data offset bytes).length = data.length := by
  rw [length_splice _ _ (by omega)]
  exact Nat.max_eq_left h

theorem Sized.length_write (hs : Sized header hashtable) (h : slot < header.hashCapacity) :
    (header.writeSlot hashtable slot hash position).length = header.slotSize * header.hashCapacity := by
  have hle := hs.slot_le h
  unfold Hashheader.slotSize at hle
  have hlen : (splice hashtable (slot * header.slotSize)
      (writeLittleEndian header.hashSize hash)).length = hashtable.length := by
    refine length_splice_of_le ?_
    rw [length_writeLittleEndian, Hashheader.slotSize]
    omega
  rw [Hashheader.writeSlot, length_splice_of_le, hlen, hs.length]
  rw [hlen, writeAddr_of_size hs.addressSize, length_writeLittleEndian, Hashheader.slotSize]
  omega

/-- **Writing a slot** changes what is read there, and nothing else. -/
theorem Sized.readSlot_write (hs : Sized header hashtable) (h : slot < header.hashCapacity)
    (hhash : hash < 256 ^ header.hashSize) (hpos : position < 256 ^ header.addressSize) :
    header.readSlot (header.writeSlot hashtable slot hash position)
      = Function.update (header.readSlot hashtable) slot (some (hash, position)) := by
  have hle := hs.slot_le h
  obtain ⟨p, hp⟩ : ∃ p, p = slot * header.slotSize := ⟨_, rfl⟩
  obtain ⟨t, ht⟩ : ∃ t, t = splice hashtable p (writeLittleEndian header.hashSize hash) := ⟨_, rfl⟩
  have hsize : header.slotSize = header.addressSize + header.hashSize := rfl
  have hlen : t.length = hashtable.length := by
    rw [ht]
    refine length_splice_of_le ?_
    rw [length_writeLittleEndian]
    omega
  have hwrite : header.writeSlot hashtable slot hash position
      = splice t (p + header.hashSize) (writeLittleEndian header.addressSize position) := by
    rw [Hashheader.writeSlot, ← hp, ← ht, writeAddr_of_size hs.addressSize]
  have hfits : p + header.hashSize + (writeLittleEndian header.addressSize position).length
      ≤ t.length := by
    rw [length_writeLittleEndian]
    omega
  -- a number outside the slot is read as before
  have hfar : ∀ n pos, pos + n ≤ p ∨ p + header.slotSize ≤ pos →
      readLittleEndian n (header.writeSlot hashtable slot hash position) pos
        = readLittleEndian n hashtable pos := by
    intro n pos hne
    rw [hwrite, readLittleEndian_splice_ne hfits (by rw [length_writeLittleEndian]; omega), ht]
    refine readLittleEndian_splice_ne ?_ ?_ <;> rw [length_writeLittleEndian] <;> omega
  funext other
  by_cases hother : other = slot
  · subst hother
    rw [Function.update_self, Hashheader.readSlot, Hashheader.readPos, ← hp,
      readAddr_of_size hs.addressSize]
    have h1 : readLittleEndian header.hashSize
        (header.writeSlot hashtable other hash position) p = some hash := by
      rw [hwrite, readLittleEndian_splice_ne hfits (Or.inl (Nat.le_refl _)), ht]
      exact readLittleEndian_splice (by omega) hhash
    have h2 : readLittleEndian header.addressSize
        (header.writeSlot hashtable other hash position) (p + header.hashSize) = some position := by
      rw [hwrite]
      exact readLittleEndian_splice (by omega) hpos
    rw [h1, h2]
    rfl
  · rw [Function.update_of_ne hother]
    have hne : other * header.slotSize + header.slotSize ≤ p ∨
        p + header.slotSize ≤ other * header.slotSize := by
      rcases Nat.lt_or_gt_of_ne hother with hlt | hgt
      · left
        rw [← Nat.succ_mul, hp]
        exact Nat.mul_le_mul_right _ hlt
      · right
        rw [hp, ← Nat.succ_mul]
        exact Nat.mul_le_mul_right _ hgt
    rw [Hashheader.readSlot, Hashheader.readSlot, Hashheader.readPos, Hashheader.readPos,
      readAddr_of_size hs.addressSize, readAddr_of_size hs.addressSize, hfar _ _ (by omega),
      hfar _ _ (by omega)]

theorem Sized.write (hs : Sized header hashtable) (h : slot < header.hashCapacity)
    (hhash : hash < 256 ^ header.hashSize) (hpos : position < 256 ^ header.addressSize)
    (hblank : position = 0 → hash = 0) :
    Sized header (header.writeSlot hashtable slot hash position) := by
  refine ⟨hs.addressSize, hs.hashSize, hs.capacity_pos, hs.capacity_lt, hs.length_write h, ?_⟩
  intro other hash' hread
  rw [hs.readSlot_write h hhash hpos] at hread
  by_cases hother : other = slot
  · rw [hother, Function.update_self] at hread
    cases hread
    exact hblank rfl
  · rw [Function.update_of_ne hother] at hread
    exact hs.blank other hash' hread

theorem Sized.slots_write (hs : Sized header hashtable) (h : slot < header.hashCapacity)
    (hhash : hash < 256 ^ header.hashSize) (hpos : position < 256 ^ header.addressSize) :
    header.slots (header.writeSlot hashtable slot hash position)
      = Function.update (header.slots hashtable) slot
          (if position = 0 then none else some (hash, position)) := by
  funext other
  rw [Hashheader.slots, hs.readSlot_write h hhash hpos]
  by_cases hother : other = slot
  · rw [hother, Function.update_self, Function.update_self]
  · rw [Function.update_of_ne hother, Function.update_of_ne hother]
    rfl

theorem readSlot_replicate_zero (ha : header.addressSize = 4 ∨ header.addressSize = 8) {n : Nat}
    {content : Nat × Nat} (h : header.readSlot (List.replicate n 0) slot = some content) :
    content = (0, 0) := by
  have hread : ∀ m pos value, readLittleEndian m (List.replicate n 0) pos = some value →
      value = 0 := by
    intro m pos value h
    rw [readLittleEndian] at h
    split_ifs at h
    rw [List.drop_replicate, List.take_replicate, LittleEndian.decode_replicate_zero] at h
    exact (Option.some.inj h).symm
  rw [Hashheader.readSlot, Hashheader.readPos, readAddr_of_size ha] at h
  cases h1 : readLittleEndian header.hashSize (List.replicate n 0) (slot * header.slotSize) with
  | none =>
    rw [h1] at h
    cases h
  | some hash =>
    cases h2 : readLittleEndian header.addressSize (List.replicate n 0)
        (slot * header.slotSize + header.hashSize) with
    | none =>
      rw [h1, h2] at h
      cases h
    | some position =>
      rw [h1, h2] at h
      cases h
      rw [hread _ _ _ h1, hread _ _ _ h2]

theorem slots_replicate_zero (ha : header.addressSize = 4 ∨ header.addressSize = 8) (n : Nat) :
    header.slots (List.replicate n 0) = fun _ => none := by
  funext slot
  rw [Hashheader.slots]
  cases h : header.readSlot (List.replicate n 0) slot with
  | none => rfl
  | some content =>
    rw [readSlot_replicate_zero ha h]
    rfl

/-! ### Walking -/

theorem nextSlot_eq (capacity slot : Nat) : nextSlot capacity slot = next capacity slot := rfl

theorem mod_eq_next {capacity slot : Nat} (h : slot < capacity) :
    (slot + 1) % capacity = next capacity slot := by
  unfold next
  split_ifs with hge
  · rw [show slot + 1 = capacity by omega, Nat.mod_self]
  · exact Nat.mod_eq_of_lt (by omega)

/-- **The displacement of the code** is the distance from the wanted slot. -/
theorem getDisplacement_eq {capacity : Nat} (hlt : capacity < 2 ^ 63) (h : slot < capacity)
    (hash : Nat) :
    getDisplacement capacity slot hash = dist capacity (hash % capacity) slot := by
  have hw : hash % capacity < capacity := Nat.mod_lt _ (by omega)
  unfold getDisplacement RobinHood.dist u64
  simp only
  split_ifs with hle
  · rw [show (slot + (2 ^ 64 - hash % capacity)) = slot - hash % capacity + 2 ^ 64 by omega,
      Nat.add_mod_right, Nat.mod_eq_of_lt (a := slot - hash % capacity) (by omega),
      Nat.mod_eq_of_lt (a := capacity + _) (by omega), Nat.add_mod_left,
      Nat.mod_eq_of_lt (by omega)]
  · rw [Nat.mod_eq_of_lt (a := slot + _) (by omega),
      show capacity + (slot + (2 ^ 64 - hash % capacity)) = capacity + slot - hash % capacity + 2 ^ 64
        by omega, Nat.add_mod_right, Nat.mod_eq_of_lt (b := 2 ^ 64) (by omega),
      Nat.mod_eq_of_lt (by omega)]

end Sparkey
