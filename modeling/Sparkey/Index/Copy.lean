import Sparkey.Index.Fill
import Sparkey.Index.Update

/-!
# Copying the slots of an older table

`hash_copy` walks over a buffer of slots and stores every entry it finds, with the
address spelled out anew for the bits of the new table.  The entries go in one after
the other, as they stand in the buffer.
-/

namespace Sparkey

open Program BlockStream RobinHood LastWrite

variable [HashFunctions] {stored items more live live' live'' : List (Item Entry)} {s s' s'' : Hashing}
  {oldHeader : Hashheader} {buf : List UInt8} {garbage garbage' : Nat}

theorem Updated.refl (hi : Indexed items s.hashHeader s.hashtable live) :
    Updated items s s live 0 :=
  ⟨.refl _, hi, fun hlt => (u64_of_lt hlt).symm⟩

theorem Updated.trans (h : Updated items s s' live' garbage)
    (h' : Updated items s' s'' live'' garbage') :
    Updated items s s'' live'' (garbage + garbage') := by
  refine ⟨h.recounted.trans h'.recounted, h'.indexed, fun hlt => ?_⟩
  have h₁ := h.garbageSize hlt
  have h₂ := h'.garbageSize (h₁ ▸ u64_lt _)
  rw [h₂, h₁]
  unfold u64
  omega

/-- The two tables have the same hash values. -/
structure SameHash (header header' : Hashheader) : Prop where
  hashSize : header'.hashSize = header.hashSize
  hashSeed : header'.hashSeed = header.hashSeed

omit [HashFunctions] in
theorem SameHash.of_recounted {header header' header'' : Hashheader} (h : SameHash header header')
    (hr : Recounted header' header'') : SameHash header header'' := by
  rw [hr]
  exact ⟨h.hashSize, h.hashSeed⟩

omit [HashFunctions] in
theorem readSlot_of_le {slot : Nat} (ha : oldHeader.addressSize = 4 ∨ oldHeader.addressSize = 8)
    (h : (slot + 1) * oldHeader.slotSize ≤ buf.length) :
    ∃ hash position, oldHeader.readSlot buf slot = some (hash, position) ∧
      oldHeader.slots buf slot = if position = 0 then none else some (hash, position) := by
  rw [Nat.succ_mul] at h
  have hsize : oldHeader.slotSize = oldHeader.addressSize + oldHeader.hashSize := rfl
  obtain ⟨hash, hhash, -⟩ := readLittleEndian_of_le oldHeader.hashSize
    (slot * oldHeader.slotSize) buf (by omega)
  obtain ⟨position, hpos, -⟩ := readLittleEndian_of_le oldHeader.addressSize
    (slot * oldHeader.slotSize + oldHeader.hashSize) buf (by omega)
  have hread : oldHeader.readSlot buf slot = some (hash, position) := by
    rw [Hashheader.readSlot, Hashheader.readPos, hhash, readAddr_of_size ha, hpos]
    rfl
  exact ⟨hash, position, hread, by rw [Hashheader.slots, hread]⟩

/-- The entries `more` are being copied to a table that stores `live`: they are of other keys. -/
structure Copies (oldHeader : Hashheader) (stored items more live : List (Item Entry))
    (s : Hashing) : Prop where
  addressed : Addressed s.hashHeader items
  sameHash : SameHash oldHeader s.hashHeader
  indexed : Indexed items s.hashHeader s.hashtable live
  stored : ∀ it ∈ more, it ∈ stored
  mem : ∀ it ∈ more, it ∈ items ∧ it.val.type = .put
  distinct : itemKind.Distinct (more ++ live)

theorem Copies.head_fresh {it : Item Entry} (h : Copies oldHeader stored items (it :: more) live s) :
    ∀ x ∈ live, x.val.key ≠ it.val.key := fun x hx hk =>
  (List.nodup_cons.mp h.distinct).1 (List.mem_map.mpr ⟨x, List.mem_append_right _ hx, hk⟩)

theorem Copies.rest {more' : List (Item Entry)}
    (h : Copies oldHeader stored items (more ++ more') live s)
    (hup : Updated items s s' (more.reverse ++ live) 0) :
    Copies oldHeader stored items more' (more.reverse ++ live) s' := by
  have hperm : (more ++ more' ++ live).Perm (more' ++ (more.reverse ++ live)) := by
    rw [List.append_assoc]
    refine (List.perm_append_comm_assoc more more' live).trans ?_
    exact (more.reverse_perm.symm.append_right live).append_left more'
  refine ⟨hup.recounted.addressed h.addressed, h.sameHash.of_recounted hup.recounted, hup.indexed,
    fun it hit => h.stored it (List.mem_append_right _ hit),
    fun it hit => h.mem it (List.mem_append_right _ hit), ?_⟩
  exact ((hperm.map _).nodup_iff).mp h.distinct

theorem Copies.left {more' : List (Item Entry)}
    (h : Copies oldHeader stored items (more ++ more') live s) :
    Copies oldHeader stored items more live s := by
  refine ⟨h.addressed, h.sameHash, h.indexed, fun it hit => h.stored it (List.mem_append_left _ hit),
    fun it hit => h.mem it (List.mem_append_left _ hit), ?_⟩
  refine List.Nodup.sublist (List.Sublist.map _ ?_) h.distinct
  exact (List.sublist_append_left more more').append_right live

theorem Copies.tail {it : Item Entry} (h : Copies oldHeader stored items (it :: more) live s)
    (hup : Updated items s s' (it :: live) 0) : Copies oldHeader stored items more (it :: live) s' := by
  have hsplit : Copies oldHeader stored items ([it] ++ more) live s := h
  exact hsplit.rest hup

theorem Copies.slotStep_eq (hold : oldHeader.addressSize = 4 ∨ oldHeader.addressSize = 8)
    (h : Copies oldHeader stored items more live s) : oldHeader.slotStep = oldHeader.slotSize := by
  have hhash := h.indexed.sized.hashSize
  rw [h.sameHash.hashSize] at hhash
  refine Hashheader.slotStep_of_le ?_
  unfold Hashheader.slotSize
  omega

variable [Compressors]

/-- A slot of the buffer: if it is free nothing happens, and otherwise its entry is stored. -/
theorem run_hashCopyLoop_succ (fuel : Nat)
    (hold : oldHeader.addressSize = 4 ∨ oldHeader.addressSize = 8)
    (hstep : oldHeader.slotStep = oldHeader.slotSize) (haold : Addressed oldHeader stored)
    (hpos : ∀ it ∈ items, it.pos ≠ 0) {n j : Nat} (hlen : (j + (n + 1)) * oldHeader.slotSize ≤ buf.length)
    (hmore : (List.range' j (n + 1)).filterMap (oldHeader.slots buf) = more.map oldHeader.slotOf)
    (hhash : SameHash oldHeader s.hashHeader) (hstored : ∀ it ∈ more, it ∈ stored)
    (hmem : ∀ it ∈ more, it ∈ items) :
    (hashCopyLoop buf ((j + (n + 1)) * oldHeader.slotSize) oldHeader (fuel + 1)
        (j * oldHeader.slotSize)).run s
      = (hashCopyLoop buf ((j + 1 + n) * oldHeader.slotSize) oldHeader fuel
        ((j + 1) * oldHeader.slotSize)).run s ∧
      (List.range' (j + 1) n).filterMap (oldHeader.slots buf) = more.map oldHeader.slotOf ∨
    ∃ it rest, more = it :: rest ∧
      (List.range' (j + 1) n).filterMap (oldHeader.slots buf) = rest.map oldHeader.slotOf ∧
      (hashCopyLoop buf ((j + (n + 1)) * oldHeader.slotSize) oldHeader (fuel + 1)
        (j * oldHeader.slotSize)).run s
      = (do hashPut none ((s.hashHeader.slotOf it).1 % s.hashHeader.hashCapacity)
              (s.hashHeader.slotOf it).1 (s.hashHeader.slotOf it).2
            hashCopyLoop buf ((j + 1 + n) * oldHeader.slotSize) oldHeader fuel
              ((j + 1) * oldHeader.slotSize) : Run Hashing Unit).run s := by
  have hslotSize : 0 < oldHeader.slotSize := by
    unfold Hashheader.slotSize
    omega
  have hlast : (j + 1) * oldHeader.slotSize ≤ (j + (n + 1)) * oldHeader.slotSize :=
    Nat.mul_le_mul_right _ (by omega)
  have hlt : j * oldHeader.slotSize < (j + (n + 1)) * oldHeader.slotSize :=
    Nat.mul_lt_mul_of_pos_right (by omega) hslotSize
  obtain ⟨hash, position, hread, hslot⟩ := readSlot_of_le hold (Nat.le_trans hlast hlen)
  rw [hashCopyLoop, if_pos hlt, show oldHeader.readPos buf (j * oldHeader.slotSize)
    = some (hash, position) from hread]
  simp only
  rw [run_get_bind]
  rw [List.range'_succ, List.filterMap_cons, hslot] at hmore
  have hnext : j * oldHeader.slotSize + oldHeader.slotSize = (j + 1) * oldHeader.slotSize :=
    (Nat.succ_mul _ _).symm
  rw [hstep, hnext, show j + (n + 1) = j + 1 + n by omega]
  by_cases h0 : position = 0
  · -- a free slot
    rw [if_pos h0] at hmore
    have hzero : oldHeader.positionOf position = 0 := by
      rw [h0, Hashheader.positionOf, Nat.zero_shiftRight]
    rw [run_bind_ok (run_onlyIf_neg (not_not_intro hzero) _ _)]
    exact Or.inl ⟨rfl, hmore⟩
  · rw [if_neg h0] at hmore
    simp only at hmore
    obtain _ | ⟨it, rest⟩ := more
    · cases hmore
    rw [List.map_cons] at hmore
    obtain ⟨hit, hmore⟩ := List.cons.inj hmore
    have hin := hmem it List.mem_cons_self
    have hst := hstored it List.mem_cons_self
    have haddr : position = oldHeader.addressOf it := congrArg Prod.snd hit
    have hkey : hash = (s.hashHeader.slotOf it).1 := by
      rw [Hashheader.slotOf, hhash.hashSize, hhash.hashSeed]
      exact congrArg Prod.fst hit
    have hp : oldHeader.positionOf position = it.pos := by rw [haddr, haold.positionOf it hst]
    have hidx : oldHeader.entryIndexOf position = it.idx := by rw [haddr, haold.entryIndexOf it hst]
    refine Or.inr ⟨it, rest, rfl, hmore, ?_⟩
    rw [EStateM.run_bind, run_onlyIf_pos (by rw [hp]; exact hpos it hin), hp, hidx, hkey]
    rfl

/-- **`hash_copy` stores what the buffer holds**, with the addresses of the new table. -/
theorem run_hashCopyLoop (hold : oldHeader.addressSize = 4 ∨ oldHeader.addressSize = 8)
    (haold : Addressed oldHeader stored) (hpos : ∀ it ∈ items, it.pos ≠ 0) :
    ∀ (n : Nat) {j fuel : Nat} {more live : List (Item Entry)} {s : Hashing}, n < fuel →
      (j + n) * oldHeader.slotSize ≤ buf.length →
      (List.range' j n).filterMap (oldHeader.slots buf) = more.map oldHeader.slotOf →
      Copies oldHeader stored items more live s →
      more.length + live.length ≤ s.hashHeader.hashCapacity →
      ∃ s', (hashCopyLoop buf ((j + n) * oldHeader.slotSize) oldHeader fuel
          (j * oldHeader.slotSize)).run s = .ok () s' ∧
        (s'.iter = s.iter ∧ s'.raIter = s.raIter) ∧
        Updated items s s' (more.reverse ++ live) 0 := by
  intro n
  induction n with
  | zero =>
    intro j fuel more live s hfuel _ hmore hc _
    obtain ⟨fuel, rfl⟩ : ∃ k, fuel = k + 1 := ⟨fuel - 1, by omega⟩
    obtain rfl : more = [] := by
      rw [List.range'_zero, List.filterMap_nil] at hmore
      exact List.map_eq_nil_iff.mp hmore.symm
    refine ⟨s, ?_, ⟨rfl, rfl⟩, .refl hc.indexed⟩
    rw [hashCopyLoop, if_neg (by simp)]
    rfl
  | succ n ih =>
    intro j fuel more live s hfuel hlen hmore hc hroom
    obtain ⟨fuel, rfl⟩ : ∃ k, fuel = k + 1 := ⟨fuel - 1, by omega⟩
    have hlen' : (j + 1 + n) * oldHeader.slotSize ≤ buf.length := by
      rwa [Nat.add_right_comm, Nat.add_assoc]
    rcases run_hashCopyLoop_succ fuel hold (hc.slotStep_eq hold) haold hpos hlen hmore hc.sameHash hc.stored
      (fun it hit => (hc.mem it hit).1) with ⟨hrun, hmore'⟩ | ⟨it, rest, rfl, hmore', hrun⟩
    · rw [hrun]
      exact ih (by omega) hlen' hmore' hc hroom
    · rw [List.length_cons] at hroom
      obtain ⟨s₁, hrun₁, hiters, hup⟩ := run_hashPut_copy hc.addressed hc.indexed
        (hc.mem it List.mem_cons_self).1 (hc.mem it List.mem_cons_self).2 hc.head_fresh (by omega)
      obtain ⟨s₂, hrun₂, hiters₂, hup₂⟩ := ih (j := j + 1) (show n < fuel by omega) hlen' hmore'
        (hc.tail hup) (by rw [hup.recounted.capacity, List.length_cons]; omega)
      refine ⟨s₂, ?_, ⟨hiters₂.1.trans hiters.1, hiters₂.2.trans hiters.2⟩, ?_⟩
      · rw [hrun, run_bind_ok hrun₁, hrun₂]
      · have := hup.trans hup₂
        rwa [List.reverse_cons, List.append_assoc]

/-- **Where there is no room** for what the buffer holds, the copying goes on for ever. -/
theorem run_hashCopyLoop_full (hold : oldHeader.addressSize = 4 ∨ oldHeader.addressSize = 8)
    (haold : Addressed oldHeader stored) (hpos : ∀ it ∈ items, it.pos ≠ 0) :
    ∀ (n : Nat) {j fuel : Nat} {more live : List (Item Entry)} {s : Hashing}, n < fuel →
      (j + n) * oldHeader.slotSize ≤ buf.length →
      (List.range' j n).filterMap (oldHeader.slots buf) = more.map oldHeader.slotOf →
      Copies oldHeader stored items more live s →
      s.hashHeader.hashCapacity < more.length + live.length →
      ∃ s', (hashCopyLoop buf ((j + n) * oldHeader.slotSize) oldHeader fuel
          (j * oldHeader.slotSize)).run s = .error .stuck s' := by
  intro n
  induction n with
  | zero =>
    intro j fuel more live s _ _ hmore hc hfull
    obtain rfl : more = [] := by
      rw [List.range'_zero, List.filterMap_nil] at hmore
      exact List.map_eq_nil_iff.mp hmore.symm
    have := hc.indexed.length_le
    rw [List.length_nil] at hfull
    omega
  | succ n ih =>
    intro j fuel more live s hfuel hlen hmore hc hfull
    obtain ⟨fuel, rfl⟩ : ∃ k, fuel = k + 1 := ⟨fuel - 1, by omega⟩
    have hlen' : (j + 1 + n) * oldHeader.slotSize ≤ buf.length := by
      rwa [Nat.add_right_comm, Nat.add_assoc]
    rcases run_hashCopyLoop_succ fuel hold (hc.slotStep_eq hold) haold hpos hlen hmore hc.sameHash hc.stored
      (fun it hit => (hc.mem it hit).1) with ⟨hrun, hmore'⟩ | ⟨it, rest, rfl, hmore', hrun⟩
    · rw [hrun]
      exact ih (by omega) hlen' hmore' hc hfull
    rw [List.length_cons] at hfull
    rcases Nat.lt_or_ge live.length s.hashHeader.hashCapacity with hroom | hnone
    · -- there is room for this one
      obtain ⟨s₁, hrun₁, -, hup⟩ := run_hashPut_copy hc.addressed hc.indexed
        (hc.mem it List.mem_cons_self).1 (hc.mem it List.mem_cons_self).2 hc.head_fresh hroom
      obtain ⟨s₂, hrun₂⟩ := ih (j := j + 1) (show n < fuel by omega) hlen' hmore' (hc.tail hup)
        (by rw [hup.recounted.capacity, List.length_cons]; omega)
      exact ⟨s₂, by rw [hrun, run_bind_ok hrun₁, hrun₂]⟩
    · obtain ⟨s₁, hrun₁⟩ := run_hashPut_copy_full hc.addressed hc.indexed
        (hc.mem it List.mem_cons_self).1 hc.head_fresh hnone
      exact ⟨s₁, by rw [hrun, run_bind_error hrun₁]⟩

omit [HashFunctions] [Compressors] in
theorem lt_hashCopy_fuel {n : Nat} (hold : oldHeader.addressSize = 4 ∨ oldHeader.addressSize = 8) :
    n < n * oldHeader.slotSize + 1 := by
  have hslotSize : 0 < oldHeader.slotSize := by
    unfold Hashheader.slotSize
    omega
  have := Nat.le_mul_of_pos_right n hslotSize
  omega

/-- **`hash_copy`** of some whole slots. -/
theorem run_hashCopy {n : Nat} (hold : oldHeader.addressSize = 4 ∨ oldHeader.addressSize = 8)
    (haold : Addressed oldHeader stored) (hpos : ∀ it ∈ items, it.pos ≠ 0)
    (hlen : n * oldHeader.slotSize ≤ buf.length)
    (hmore : (List.range n).filterMap (oldHeader.slots buf) = more.map oldHeader.slotOf)
    (hc : Copies oldHeader stored items more live s)
    (hroom : more.length + live.length ≤ s.hashHeader.hashCapacity) :
    ∃ s', (hashCopy buf (n * oldHeader.slotSize) oldHeader).run s = .ok () s' ∧
      (s'.iter = s.iter ∧ s'.raIter = s.raIter) ∧ Updated items s s' (more.reverse ++ live) 0 := by
  rw [List.range_eq_range'] at hmore
  have := run_hashCopyLoop hold haold hpos n (j := 0) (lt_hashCopy_fuel hold) (by rwa [Nat.zero_add])
    hmore hc hroom
  rwa [Nat.zero_add, Nat.zero_mul] at this

theorem run_hashCopy_full {n : Nat} (hold : oldHeader.addressSize = 4 ∨ oldHeader.addressSize = 8)
    (haold : Addressed oldHeader stored) (hpos : ∀ it ∈ items, it.pos ≠ 0)
    (hlen : n * oldHeader.slotSize ≤ buf.length)
    (hmore : (List.range n).filterMap (oldHeader.slots buf) = more.map oldHeader.slotOf)
    (hc : Copies oldHeader stored items more live s)
    (hfull : s.hashHeader.hashCapacity < more.length + live.length) :
    ∃ s', (hashCopy buf (n * oldHeader.slotSize) oldHeader).run s = .error .stuck s' := by
  rw [List.range_eq_range'] at hmore
  have := run_hashCopyLoop_full hold haold hpos n (j := 0) (lt_hashCopy_fuel hold)
    (by rwa [Nat.zero_add]) hmore hc hfull
  rwa [Nat.zero_add, Nat.zero_mul] at this

/-! ### `fill_hash` -/

omit [HashFunctions] [Compressors] in
theorem readLittleEndian_piece {table rest : List UInt8} {base size n pos : Nat}
    (h : pos + n ≤ size) (hlen : base + size ≤ table.length) :
    readLittleEndian n ((table.drop base).take size ++ rest) pos
      = readLittleEndian n table (base + pos) := by
  have hpiece : (((table.drop base).take size ++ rest).drop pos).take n
      = (table.drop (base + pos)).take n := by
    rw [List.drop_append_of_le_length (by rw [List.length_take, List.length_drop]; omega),
      List.take_append_of_le_length (by rw [List.length_drop, List.length_take, List.length_drop]; omega),
      List.drop_take, List.take_take, List.drop_drop, Nat.min_eq_left (by omega)]
  rw [readLittleEndian, readLittleEndian, hpiece]

omit [HashFunctions] [Compressors] in
theorem slots_piece {table rest : List UInt8} {j n i : Nat}
    (hold : oldHeader.addressSize = 4 ∨ oldHeader.addressSize = 8) (hi : i < n)
    (hlen : (j + n) * oldHeader.slotSize ≤ table.length) :
    oldHeader.slots ((table.drop (j * oldHeader.slotSize)).take (n * oldHeader.slotSize) ++ rest) i
      = oldHeader.slots table (j + i) := by
  have hsize : oldHeader.slotSize = oldHeader.addressSize + oldHeader.hashSize := rfl
  have hslot : (i + 1) * oldHeader.slotSize ≤ n * oldHeader.slotSize :=
    Nat.mul_le_mul_right _ hi
  rw [Nat.succ_mul] at hslot
  rw [Nat.add_mul] at hlen
  have hpos : (j + i) * oldHeader.slotSize = j * oldHeader.slotSize + i * oldHeader.slotSize :=
    Nat.add_mul _ _ _
  unfold Hashheader.slots Hashheader.readSlot Hashheader.readPos
  rw [readAddr_of_size hold, readAddr_of_size hold, readLittleEndian_piece (by omega) hlen,
    readLittleEndian_piece (by omega) hlen, hpos, Nat.add_assoc]

omit [Compressors] in
theorem run_fillBuffer {table : List UInt8} {j n : Nat}
    (hold : oldHeader.addressSize = 4 ∨ oldHeader.addressSize = 8)
    (hlen : (j + n) * oldHeader.slotSize ≤ table.length)
    (hmore : (List.range' j n).filterMap (oldHeader.slots table) = more.map oldHeader.slotOf)
    (buf : List UInt8) :
    ∃ buf', (readFully (n * oldHeader.slotSize) buf).run
        ⟨oldHeader.bytes ++ table, hashHeaderSize + j * oldHeader.slotSize, []⟩
        = .ok buf' ⟨oldHeader.bytes ++ table, hashHeaderSize + (j + n) * oldHeader.slotSize, []⟩ ∧
      n * oldHeader.slotSize ≤ buf'.length ∧
      (List.range n).filterMap (oldHeader.slots buf') = more.map oldHeader.slotOf := by
  have hdrop : (oldHeader.bytes ++ table).drop (hashHeaderSize + j * oldHeader.slotSize)
      = table.drop (j * oldHeader.slotSize) := by
    rw [← oldHeader.length_bytes, ← List.drop_drop, List.drop_left]
  have hlen' := hlen
  rw [Nat.add_mul] at hlen'
  have hfile : hashHeaderSize + j * oldHeader.slotSize + n * oldHeader.slotSize
      ≤ (oldHeader.bytes ++ table).length := by
    rw [List.length_append, Hashheader.length_bytes]
    omega
  have hread := run_readFully (.inr ⟨hfile, getsAll_nil _⟩) buf
  rw [List.tail_nil, ite_self, hdrop, Nat.add_assoc, ← Nat.add_mul] at hread
  refine ⟨_, hread, ?_, ?_⟩
  · rw [List.length_append, List.length_take, List.length_drop]
    omega
  · rw [← hmore, List.range'_eq_map_range, List.filterMap_map]
    exact List.filterMap_congr fun i hi => slots_piece hold (List.mem_range.mp hi) hlen

omit [Compressors] in
theorem range_buffers {table : List UInt8} {n j : Nat}
    (hlen : (j + (n + 1) * 1024) * oldHeader.slotSize ≤ table.length)
    (hmore : (List.range' j ((n + 1) * 1024)).filterMap (oldHeader.slots table)
      = more.map oldHeader.slotOf) :
    ∃ more₁ more₂, more = more₁ ++ more₂ ∧
      (j + 1024) * oldHeader.slotSize ≤ table.length ∧
      (List.range' j 1024).filterMap (oldHeader.slots table) = more₁.map oldHeader.slotOf ∧
      (j + 1024 + n * 1024) * oldHeader.slotSize ≤ table.length ∧
      (List.range' (j + 1024) (n * 1024)).filterMap (oldHeader.slots table)
        = more₂.map oldHeader.slotOf := by
  have hcount : (n + 1) * 1024 = 1024 + n * 1024 := by omega
  rw [hcount, ← Nat.add_assoc] at hlen
  rw [hcount, ← List.range'_append_1, List.filterMap_append] at hmore
  obtain ⟨more₁, more₂, rfl, hmore₁, hmore₂⟩ := List.map_eq_append_iff.mp hmore.symm
  exact ⟨more₁, more₂, rfl, Nat.le_trans (Nat.mul_le_mul_right _ (Nat.le_add_right _ _)) hlen,
    hmore₁.symm, hlen, hmore₂.symm⟩

theorem run_fillHashLoop {table : List UInt8}
    (hold : oldHeader.addressSize = 4 ∨ oldHeader.addressSize = 8)
    (haold : Addressed oldHeader stored) (hpos : ∀ it ∈ items, it.pos ≠ 0) :
    ∀ (n : Nat) {j : Nat} {more live : List (Item Entry)} {s : Hashing} (buf : List UInt8),
      (j + n * 1024) * oldHeader.slotSize ≤ table.length →
      (List.range' j (n * 1024)).filterMap (oldHeader.slots table) = more.map oldHeader.slotOf →
      Copies oldHeader stored items more live s →
      more.length + live.length ≤ s.hashHeader.hashCapacity →
      ∃ s' buf', (fillHashLoop (oldHeader.slotSize * 1024) oldHeader n buf).run
          (⟨oldHeader.bytes ++ table, hashHeaderSize + j * oldHeader.slotSize, []⟩, s)
          = .ok buf' (⟨oldHeader.bytes ++ table,
            hashHeaderSize + (j + n * 1024) * oldHeader.slotSize, []⟩, s') ∧
        (s'.iter = s.iter ∧ s'.raIter = s.raIter) ∧ Updated items s s' (more.reverse ++ live) 0 := by
  intro n
  induction n with
  | zero =>
    intro j more live s buf _ hmore hc _
    obtain rfl : more = [] := by
      rw [Nat.zero_mul, List.range'_zero, List.filterMap_nil] at hmore
      exact List.map_eq_nil_iff.mp hmore.symm
    exact ⟨s, buf, rfl, ⟨rfl, rfl⟩, .refl hc.indexed⟩
  | succ n ih =>
    intro j more live s buf hlen hmore hc hroom
    obtain ⟨more₁, more₂, rfl, hlen₁, hmore₁, hlen₂, hmore₂⟩ := range_buffers hlen hmore
    rw [List.length_append] at hroom
    obtain ⟨buf₁, hread, hbuf, hslots⟩ := run_fillBuffer hold hlen₁ hmore₁ buf
    obtain ⟨s₁, hcopy, hiters₁, hup₁⟩ := run_hashCopy hold haold hpos hbuf hslots hc.left (by omega)
    obtain ⟨s', buf', hrun', hiters', hup'⟩ := ih buf₁ hlen₂ hmore₂ (hc.rest hup₁)
      (by rw [hup₁.recounted.capacity, List.length_append, List.length_reverse]; omega)
    refine ⟨s', buf', ?_, ⟨hiters'.1.trans hiters₁.1, hiters'.2.trans hiters₁.2⟩, ?_⟩
    · rw [Nat.mul_comm 1024] at hread hcopy
      rw [fillHashLoop, run_bind_ok (run_onFst_ok hread), run_bind_ok (run_onSnd_ok hcopy), hrun',
        Nat.succ_mul, Nat.add_comm (n * 1024), ← Nat.add_assoc]
    · have := hup₁.trans hup'
      rwa [List.reverse_append, List.append_assoc]

theorem run_fillHashLoop_full {table : List UInt8}
    (hold : oldHeader.addressSize = 4 ∨ oldHeader.addressSize = 8)
    (haold : Addressed oldHeader stored) (hpos : ∀ it ∈ items, it.pos ≠ 0) :
    ∀ (n : Nat) {j : Nat} {more live : List (Item Entry)} {s : Hashing} (buf : List UInt8),
      (j + n * 1024) * oldHeader.slotSize ≤ table.length →
      (List.range' j (n * 1024)).filterMap (oldHeader.slots table) = more.map oldHeader.slotOf →
      Copies oldHeader stored items more live s →
      s.hashHeader.hashCapacity < more.length + live.length →
      ∃ st', (fillHashLoop (oldHeader.slotSize * 1024) oldHeader n buf).run
          (⟨oldHeader.bytes ++ table, hashHeaderSize + j * oldHeader.slotSize, []⟩, s)
          = .error .stuck st' := by
  intro n
  induction n with
  | zero =>
    intro j more live s buf _ hmore hc hfull
    obtain rfl : more = [] := by
      rw [Nat.zero_mul, List.range'_zero, List.filterMap_nil] at hmore
      exact List.map_eq_nil_iff.mp hmore.symm
    have := hc.indexed.length_le
    rw [List.length_nil] at hfull
    omega
  | succ n ih =>
    intro j more live s buf hlen hmore hc hfull
    obtain ⟨more₁, more₂, rfl, hlen₁, hmore₁, hlen₂, hmore₂⟩ := range_buffers hlen hmore
    rw [List.length_append] at hfull
    obtain ⟨buf₁, hread, hbuf, hslots⟩ := run_fillBuffer hold hlen₁ hmore₁ buf
    rw [fillHashLoop]
    rcases Nat.lt_or_ge s.hashHeader.hashCapacity (more₁.length + live.length) with hnone | hroom
    · obtain ⟨s₁, hcopy⟩ := run_hashCopy_full hold haold hpos hbuf hslots hc.left hnone
      rw [Nat.mul_comm 1024] at hread hcopy
      rw [run_bind_ok (run_onFst_ok hread), run_bind_error (run_onSnd_error hcopy)]
      exact ⟨_, rfl⟩
    · obtain ⟨s₁, hcopy, -, hup₁⟩ := run_hashCopy hold haold hpos hbuf hslots hc.left hroom
      obtain ⟨st', hrun'⟩ := ih buf₁ hlen₂ hmore₂ (hc.rest hup₁)
        (by rw [hup₁.recounted.capacity, List.length_append, List.length_reverse]; omega)
      rw [Nat.mul_comm 1024] at hread hcopy
      rw [run_bind_ok (run_onFst_ok hread), run_bind_ok (run_onSnd_ok hcopy), hrun']
      exact ⟨_, rfl⟩

omit [Compressors] in
/-- What `fill_hash` takes over: the entries of the old table, for a table without any. -/
structure TakesOver (oldHeader : Hashheader) (stored items oldLive : List (Item Entry))
    (table : List UInt8) (s : Hashing) : Prop where
  headerSize : oldHeader.headerSize = hashHeaderSize
  old : Addressed oldHeader stored
  oldIndexed : Indexed stored oldHeader table oldLive
  length_lt : table.length < 2 ^ 64
  pos_ne_zero : ∀ it ∈ items, it.pos ≠ 0
  addressed : Addressed s.hashHeader items
  sameHash : SameHash oldHeader s.hashHeader
  indexed : Indexed items s.hashHeader s.hashtable []
  subset : ∀ it ∈ oldLive, it ∈ items

variable {env : HashEnv} {table : List UInt8} {oldLive : List (Item Entry)}

omit [HashFunctions] [Compressors] in
theorem Sized.bufferFits {header : Hashheader} {hashtable : List UInt8} (hs : Sized header hashtable) :
    header.BufferFits := by
  have haddress := hs.addressSize
  have hle := hs.slotSize_le
  rw [Hashheader.BufferFits, hs.slotStep_eq]
  unfold Hashheader.slotSize at hle ⊢
  omega

omit [Compressors] in
/-- The slots are read in `q` whole buffers, and one of `r` slots. -/
theorem TakesOver.split (h : TakesOver oldHeader stored items oldLive table s) :
    ∃ q r more₁ more₂, q * 1024 + r = oldHeader.hashCapacity ∧
      u64 (oldHeader.hashCapacity * oldHeader.slotSize) / (oldHeader.slotSize * 1024) = q ∧
      u64 (oldHeader.hashCapacity * oldHeader.slotSize) % (oldHeader.slotSize * 1024)
        = r * oldHeader.slotSize ∧
      (0 + q * 1024) * oldHeader.slotSize ≤ table.length ∧
      (List.range' 0 (q * 1024)).filterMap (oldHeader.slots table) = more₁.map oldHeader.slotOf ∧
      (0 + q * 1024 + r) * oldHeader.slotSize ≤ table.length ∧
      (List.range' (0 + q * 1024) r).filterMap (oldHeader.slots table)
        = more₂.map oldHeader.slotOf ∧
      (more₁ ++ more₂).Perm oldLive ∧ Copies oldHeader stored items (more₁ ++ more₂) [] s := by
  have hsized := h.oldIndexed.sized
  have hslotSize : 0 < oldHeader.slotSize := by
    have := hsized.addressSize
    unfold Hashheader.slotSize
    omega
  -- the entries, slot by slot
  obtain ⟨more, hmore, hperm⟩ : ∃ more : List (Item Entry),
      RobinHood.entries oldHeader.hashCapacity (oldHeader.slots table) = more.map oldHeader.slotOf ∧
        more.Perm oldLive := by
    have heq := congrFun (congrFun (List.eq_map_comp_perm oldHeader.slotOf)
      (RobinHood.entries oldHeader.hashCapacity (oldHeader.slots table))) oldLive
    exact heq.mpr h.oldIndexed.entries
  have hc : Copies oldHeader stored items more [] s := by
    refine ⟨h.addressed, h.sameHash, h.indexed,
      fun it hit => (h.oldIndexed.mem it (hperm.mem_iff.mp hit)).1,
      fun it hit => ⟨h.subset it (hperm.mem_iff.mp hit),
        (h.oldIndexed.mem it (hperm.mem_iff.mp hit)).2⟩, ?_⟩
    rw [List.append_nil]
    exact ((hperm.map _).nodup_iff).mpr h.oldIndexed.distinct
  have hremaining : u64 (oldHeader.hashCapacity * oldHeader.slotSize)
      = oldHeader.slotSize * oldHeader.hashCapacity := by
    rw [Nat.mul_comm, u64_of_lt]
    rw [← hsized.length]
    exact h.length_lt
  have hsum : oldHeader.hashCapacity / 1024 * 1024 + oldHeader.hashCapacity % 1024
      = oldHeader.hashCapacity := Nat.div_add_mod' _ _
  have hlen : (0 + oldHeader.hashCapacity / 1024 * 1024 + oldHeader.hashCapacity % 1024)
      * oldHeader.slotSize ≤ table.length := by
    rw [Nat.zero_add, hsum, hsized.length, Nat.mul_comm]
  unfold RobinHood.entries at hmore
  rw [List.range_eq_range', ← hsum, ← List.range'_append_1, List.filterMap_append] at hmore
  obtain ⟨more₁, more₂, rfl, hmore₁, hmore₂⟩ := List.map_eq_append_iff.mp hmore.symm
  refine ⟨oldHeader.hashCapacity / 1024, oldHeader.hashCapacity % 1024, more₁, more₂, hsum, ?_, ?_,
    Nat.le_trans (Nat.mul_le_mul_right _ (Nat.le_add_right _ _)) hlen, hmore₁.symm, hlen, hmore₂.symm,
    hperm, hc⟩
  · rw [hremaining, Nat.mul_div_mul_left _ _ hslotSize]
  · rw [hremaining, Nat.mul_mod_mul_left, Nat.mul_comm]

/-- **What `fill_hash` comes to** with the header of an index. -/
theorem TakesOver.fillHash_eq (h : TakesOver oldHeader stored items oldLive table s)
    (hopens : env.openFails = none) (hreads : env.reads = []) :
    fillHash env (oldHeader.bytes ++ table) oldHeader
      = onNew ⟨oldHeader.bytes ++ table, hashHeaderSize, []⟩
        (fillHashBuffers oldHeader (oldHeader.slotSize * 1024)
          (u64 (oldHeader.hashCapacity * oldHeader.slotSize) / (oldHeader.slotSize * 1024))
          (u64 (oldHeader.hashCapacity * oldHeader.slotSize) % (oldHeader.slotSize * 1024))
          env.unsetBuf) := by
  rw [fillHash_of_fits hopens h.oldIndexed.sized.bufferFits, h.oldIndexed.sized.slotStep_eq,
    h.headerSize, hreads]

/-- **`fill_hash`** stores what the old index stores, if every read gets all it asks for. -/
theorem run_fillHash (h : TakesOver oldHeader stored items oldLive table s)
    (hopens : env.openFails = none) (hreads : env.reads = [])
    (hroom : oldLive.length ≤ s.hashHeader.hashCapacity) :
    ∃ s' live', (fillHash env (oldHeader.bytes ++ table) oldHeader).run s = .ok () s' ∧
      (s'.iter = s.iter ∧ s'.raIter = s.raIter) ∧ live'.Perm oldLive ∧ Updated items s s' live' 0 := by
  have hold := h.oldIndexed.sized.addressSize
  obtain ⟨q, r, more₁, more₂, -, hquot, hrest, hlen₁, hmore₁, hlen, hmore₂, hperm, hc⟩ := h.split
  rw [← hperm.length_eq, List.length_append] at hroom
  obtain ⟨s₁, buf₁, hrun₁, hiters₁, hup₁⟩ := run_fillHashLoop hold h.old h.pos_ne_zero q env.unsetBuf
    hlen₁ hmore₁ hc.left (by rw [List.length_nil]; omega)
  obtain ⟨buf₂, hread, hbuf, hslots⟩ := run_fillBuffer hold hlen hmore₂ buf₁
  obtain ⟨s', hcopy, hiters', hup'⟩ := run_hashCopy hold h.old h.pos_ne_zero hbuf hslots
    (hc.rest hup₁) (by
      rw [hup₁.recounted.capacity, List.length_append, List.length_reverse, List.length_nil]
      omega)
  rw [Nat.zero_mul, Nat.add_zero] at hrun₁
  refine ⟨s', _, ?_, ⟨hiters'.1.trans hiters₁.1, hiters'.2.trans hiters₁.2⟩, ?_, hup₁.trans hup'⟩
  · rw [h.fillHash_eq hopens hreads, hquot, hrest]
    exact run_onNew_ok ((run_bind_ok hrun₁).trans ((run_bind_ok (run_onFst_ok hread)).trans
      (run_onSnd_ok hcopy)))
  · rw [List.append_nil, ← List.reverse_append]
    exact (List.reverse_perm _).trans hperm

/-- **Where the old entries have no room** `fill_hash` goes on for ever. -/
theorem run_fillHash_full (h : TakesOver oldHeader stored items oldLive table s)
    (hopens : env.openFails = none) (hreads : env.reads = [])
    (hfull : s.hashHeader.hashCapacity < oldLive.length) :
    ∃ s', (fillHash env (oldHeader.bytes ++ table) oldHeader).run s = .error .stuck s' := by
  have hold := h.oldIndexed.sized.addressSize
  obtain ⟨q, r, more₁, more₂, -, hquot, hrest, hlen₁, hmore₁, hlen, hmore₂, hperm, hc⟩ := h.split
  rw [← hperm.length_eq, List.length_append] at hfull
  rw [h.fillHash_eq hopens hreads, hquot, hrest]
  rcases Nat.lt_or_ge s.hashHeader.hashCapacity more₁.length with hnone | hroom
  · obtain ⟨st₁, hrun₁⟩ := run_fillHashLoop_full hold h.old h.pos_ne_zero q env.unsetBuf hlen₁ hmore₁
      hc.left (by rw [List.length_nil]; omega)
    rw [Nat.zero_mul, Nat.add_zero] at hrun₁
    exact ⟨_, run_onNew_error (run_bind_error hrun₁)⟩
  · obtain ⟨s₁, buf₁, hrun₁, -, hup₁⟩ := run_fillHashLoop hold h.old h.pos_ne_zero q env.unsetBuf hlen₁
      hmore₁ hc.left (by rw [List.length_nil]; omega)
    obtain ⟨buf₂, hread, hbuf, hslots⟩ := run_fillBuffer hold hlen hmore₂ buf₁
    obtain ⟨s', hcopy⟩ := run_hashCopy_full hold h.old h.pos_ne_zero hbuf hslots (hc.rest hup₁) (by
      rw [hup₁.recounted.capacity, List.length_append, List.length_reverse, List.length_nil]
      omega)
    rw [Nat.zero_mul, Nat.add_zero] at hrun₁
    exact ⟨_, run_onNew_error ((run_bind_ok hrun₁).trans ((run_bind_ok (run_onFst_ok hread)).trans
      (run_onSnd_error hcopy)))⟩

end Sparkey
