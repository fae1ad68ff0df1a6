import Sparkey.Index.Table
import Sparkey.Lib.LastWrite
import Sparkey.Roundtrip

/-!
# What a table stores

`Indexed items header hashtable live` says that the table is a valid one, and that
it stores the entries `live` of the log, no two with one key, each under the hash of
its key and with its address.  `hash_put`, `hash_delete` and `hash_copy` change the
table as writing to a finite map does, and `hash_put` goes round for ever where
there is no room.
-/

namespace Sparkey

open Program BlockStream RobinHood LastWrite

/-! ### Entries of a log in a table -/

def Entry.size : Entry → Nat
  | .put key value => putSize key.1.length value.1.length
  | .delete key => deleteSize key.1.length

def itemKind : Kind (Item Entry) (List UInt8) where
  key it := it.val.key
  isPut it := it.val.type = .put
  size it := it.val.size

@[simp] theorem key_itemKind (it : Item Entry) : itemKind.key it = it.val.key := rfl
@[simp] theorem size_itemKind (it : Item Entry) : itemKind.size it = it.val.size := rfl

theorem isPut_itemKind {it : Item Entry} : itemKind.isPut it = true ↔ it.val.type = .put := by
  simp [itemKind]

theorem size_of_put {e : Entry} (h : e.type = .put) :
    putSize e.key.length e.value.length = e.size := by
  rcases e with ⟨k, v⟩ | k
  · rfl
  · cases h

variable {header header' : Hashheader} {items : List (Item Entry)} {it it' : Item Entry}

def Hashheader.addressOf (header : Hashheader) (it : Item Entry) : Nat :=
  header.address it.pos it.idx

/-- The entries of the log have addresses of the width the table has for them, from which they
can be told. -/
structure Addressed (header : Hashheader) (items : List (Item Entry)) : Prop where
  ne_zero : ∀ it ∈ items, header.addressOf it ≠ 0
  lt : ∀ it ∈ items, header.addressOf it < 256 ^ header.addressSize
  positionOf : ∀ it ∈ items, header.positionOf (header.addressOf it) = it.pos
  entryIndexOf : ∀ it ∈ items, header.entryIndexOf (header.addressOf it) = it.idx

theorem bitmask_eq (bits : Nat) : bitmask bits = 2 ^ bits - 1 := by
  rw [bitmask, Nat.one_shiftLeft]

theorem address_eq {pos idx : Nat} (hpos : pos < 2 ^ (64 - header.entryBlockBits))
    (hbits : header.entryBlockBits ≤ 64) (hidx : idx < 2 ^ header.entryBlockBits) :
    header.address pos idx = pos * 2 ^ header.entryBlockBits + idx := by
  have hlt : pos * 2 ^ header.entryBlockBits < 2 ^ 64 := by
    have := Nat.mul_lt_mul_of_pos_right hpos (Nat.two_pow_pos header.entryBlockBits)
    rwa [← Nat.pow_add, Nat.sub_add_cancel hbits] at this
  rw [Hashheader.address, Nat.shiftLeft_eq, u64_of_lt hlt, ← Nat.shiftLeft_eq,
    ← Nat.shiftLeft_add_eq_or_of_lt hidx]

/-- **Addresses fit**, if the data of the log are not too long for the bits. -/
theorem addressed (hbits : header.entryBlockBits ≤ 32)
    (hmask : header.entryBlockBitmask = bitmask header.entryBlockBits)
    (hend : header.dataEnd < 2 ^ (64 - header.entryBlockBits))
    (hsize : header.addressSize = if header.dataEnd < 1 <<< (32 - header.entryBlockBits) then 4 else 8)
    (hpos : ∀ it ∈ items, it.pos ≠ 0 ∧ it.pos < header.dataEnd)
    (hidx : ∀ it ∈ items, it.idx < 2 ^ header.entryBlockBits) : Addressed header items := by
  have heq : ∀ it ∈ items, header.addressOf it = it.pos * 2 ^ header.entryBlockBits + it.idx :=
    fun it hit => address_eq (Nat.lt_trans (hpos it hit).2 hend) (by omega) (hidx it hit)
  have hpow := Nat.two_pow_pos header.entryBlockBits
  have hlt : ∀ {w}, w ≥ header.entryBlockBits → header.dataEnd < 2 ^ (w - header.entryBlockBits) →
      ∀ it ∈ items, header.addressOf it < 2 ^ w := by
    intro w hw hend it hit
    have hlt := Nat.lt_trans (hpos it hit).2 hend
    have hle := Nat.mul_le_mul_right (2 ^ header.entryBlockBits) (Nat.succ_le_of_lt hlt)
    rw [← Nat.pow_add, Nat.sub_add_cancel hw, Nat.succ_mul] at hle
    have := hidx it hit
    rw [heq it hit]
    omega
  refine ⟨fun it hit h0 => ?_, fun it hit => ?_, fun it hit => ?_, fun it hit => ?_⟩
  · rw [heq it hit] at h0
    have hpos := Nat.mul_pos (Nat.pos_of_ne_zero (hpos it hit).1) hpow
    omega
  · rw [hsize]
    split_ifs with h4
    · rw [Nat.one_shiftLeft] at h4
      have := hlt hbits h4 it hit
      rwa [show (256 : Nat) ^ 4 = 2 ^ 32 by decide]
    · have := hlt (by omega) hend it hit
      rwa [show (256 : Nat) ^ 8 = 2 ^ 64 by decide]
  · rw [Hashheader.positionOf, heq it hit, Nat.shiftRight_eq_div_pow, Nat.mul_comm,
      Nat.mul_add_div hpow, Nat.div_eq_of_lt (hidx it hit), Nat.add_zero]
  · rw [Hashheader.entryIndexOf, hmask, bitmask_eq, Nat.and_two_pow_sub_one_eq_mod, u32,
      Nat.mod_mod_of_dvd _ (Nat.pow_dvd_pow 2 hbits), heq it hit, Nat.mul_comm,
      Nat.mul_add_mod, Nat.mod_eq_of_lt (hidx it hit)]

theorem intLog2Loop_spec : ∀ (fuel x count : Nat), x < 2 ^ fuel →
    count ≤ intLog2Loop fuel x count ∧ x < 2 ^ (intLog2Loop fuel x count - count) ∧
      ∀ n, x < 2 ^ n → intLog2Loop fuel x count ≤ count + n := by
  intro fuel
  induction fuel with
  | zero =>
    intro x count hx
    obtain rfl : x = 0 := by omega
    exact ⟨Nat.le_refl _, by simp [intLog2Loop], fun n _ => Nat.le_add_right _ _⟩
  | succ fuel ih =>
    intro x count hx
    rw [intLog2Loop]
    split_ifs with hpos
    · have hhalf : x >>> 1 = x / 2 := by rw [Nat.shiftRight_eq_div_pow, Nat.pow_one]
      obtain ⟨hle, hlt, hmin⟩ := ih (x >>> 1) (count + 1)
        (by rw [hhalf]; rw [Nat.pow_succ] at hx; omega)
      refine ⟨by omega, ?_, fun n hn => ?_⟩
      · have hexp : intLog2Loop fuel (x >>> 1) (count + 1) - count
            = intLog2Loop fuel (x >>> 1) (count + 1) - (count + 1) + 1 := by omega
        rw [hexp, Nat.pow_succ]
        rw [hhalf] at hlt ⊢
        omega
      · obtain ⟨n, rfl⟩ : ∃ k, n = k + 1 := by
          refine ⟨n - 1, ?_⟩
          rcases n with - | n
          · rw [Nat.pow_zero] at hn
            omega
          · omega
        have := hmin n (by rw [hhalf]; rw [Nat.pow_succ] at hn; omega)
        omega
    · obtain rfl : x = 0 := by omega
      exact ⟨Nat.le_refl _, by simp, fun n _ => Nat.le_add_right _ _⟩

/-- Numbers below the largest one have no more bits than `int_log2` says. -/
theorem lt_two_pow_intLog2 {x n : Nat} (hx : x < 2 ^ 32) (hn : n < max 1 x) : n < 2 ^ intLog2 x := by
  obtain ⟨-, hlt, -⟩ := intLog2Loop_spec 32 x 0 hx
  have hpos := Nat.two_pow_pos (intLog2 x)
  rw [Nat.sub_zero] at hlt
  change x < 2 ^ intLog2 x at hlt
  omega

theorem intLog2_le {x n : Nat} (hx : x < 2 ^ n) (hn : n ≤ 32) : intLog2 x ≤ n := by
  have hx' : x < 2 ^ 32 := Nat.lt_of_lt_of_le hx (Nat.pow_le_pow_right (by decide) hn)
  have := (intLog2Loop_spec 32 x 0 hx').2.2 n hx
  rwa [Nat.zero_add] at this

/-- **The addresses of a log fit the header made for it**, if its data are not too long. -/
theorem addressed_newHashheader [Compressors] {log : Logreader} (hl : Logged log items)
    (hend : log.header.dataEnd < 2 ^ (64 - intLog2 log.header.maxEntriesPerBlock))
    (old : Option Hashheader) (hashSeed hashSize : Nat) :
    Addressed (newHashheader log.header old hashSeed hashSize) items := by
  have hbits := intLog2_le (n := 30) hl.maxEntriesPerBlock_lt (by decide)
  refine addressed ?_ rfl hend rfl ?_ ?_
  · show intLog2 log.header.maxEntriesPerBlock ≤ 32
    omega
  · intro it hit
    obtain ⟨n, hn⟩ := List.mem_iff_getElem?.mp hit
    have := hl.le_pos hit
    have : logHeaderSize = 84 := rfl
    exact ⟨by omega, hl.pos_lt hn⟩
  · intro it hit
    exact lt_two_pow_intLog2 (Nat.lt_trans hl.maxEntriesPerBlock_lt (by decide)) (hl.idx_lt it hit)

variable [HashFunctions]

def Hashheader.slotOf (header : Hashheader) (it : Item Entry) : Nat × Nat :=
  (HashFunctions.hash header.hashSize it.val.key header.hashSeed, header.addressOf it)

def Recounted (header header' : Hashheader) : Prop :=
  header' = { header with
    garbageSize := header'.garbageSize
    numEntries := header'.numEntries
    maxDisplacement := header'.maxDisplacement
    hashCollisions := header'.hashCollisions
    totalDisplacement := header'.totalDisplacement }

section Recounted

omit [HashFunctions]

theorem Recounted.refl (header : Hashheader) : Recounted header header := rfl

theorem Recounted.trans {header'' : Hashheader} (h : Recounted header header')
    (h' : Recounted header' header'') : Recounted header header'' := by
  unfold Recounted at *
  rw [h', h]

theorem Recounted.slots (h : Recounted header header') : header'.slots = header.slots := by
  funext hashtable
  refine Hashheader.slots_congr ?_ ?_ <;> rw [h]

theorem Recounted.capacity (h : Recounted header header') :
    header'.hashCapacity = header.hashCapacity := by rw [h]

theorem Recounted.home (h : Recounted header header') : header'.home = header.home := by
  funext entry
  rw [Hashheader.home, Hashheader.home, h.capacity]

theorem Recounted.addressOf (h : Recounted header header') :
    header'.addressOf = header.addressOf := by
  rw [h]
  rfl

theorem Recounted.addressed (h : Recounted header header') (ha : Addressed header items) :
    Addressed header' items := by
  rw [h]
  exact ⟨ha.1, ha.2, ha.3, ha.4⟩

end Recounted

theorem Recounted.slotOf (h : Recounted header header') : header'.slotOf = header.slotOf := by
  rw [h]
  rfl

/-- The table stores the entries `live` of the log. -/
structure Indexed (items : List (Item Entry)) (header : Hashheader) (hashtable : List UInt8)
    (live : List (Item Entry)) : Prop where
  sized : Sized header hashtable
  valid : Valid header.hashCapacity header.home (header.slots hashtable)
  entries : (entries header.hashCapacity (header.slots hashtable)).Perm (live.map header.slotOf)
  numEntries : header.numEntries = live.length
  distinct : itemKind.Distinct live
  mem : ∀ it ∈ live, it ∈ items ∧ it.val.type = .put

variable {hashtable : List UInt8} {live : List (Item Entry)}

theorem Indexed.mem_entries (hi : Indexed items header hashtable live) {entry : Nat × Nat}
    {slot : Nat} (hslot : slot < header.hashCapacity)
    (h : header.slots hashtable slot = some entry) : ∃ it ∈ live, header.slotOf it = entry := by
  have := hi.entries.mem_iff.mp (RobinHood.mem_entries.mpr ⟨slot, hslot, h⟩)
  exact List.mem_map.mp this

theorem Indexed.exists_slot (hi : Indexed items header hashtable live) (hit : it ∈ live) :
    ∃ slot < header.hashCapacity, header.slots hashtable slot = some (header.slotOf it) :=
  RobinHood.mem_entries.mp (hi.entries.mem_iff.mpr (List.mem_map_of_mem hit))

theorem Indexed.length_le (hi : Indexed items header hashtable live) :
    live.length ≤ header.hashCapacity := by
  have := hi.entries.length_eq
  rw [List.length_map] at this
  rw [← this]
  exact length_entries_le

def Hashheader.storesKey (header : Hashheader) (live : List (Item Entry)) (key : List UInt8)
    (entry : Nat × Nat) : Bool :=
  live.any fun it => header.slotOf it = entry ∧ it.val.key = key

theorem storesKey_iff {key : List UInt8} {entry : Nat × Nat} :
    header.storesKey live key entry = true ↔ ∃ it ∈ live, header.slotOf it = entry ∧ it.val.key = key := by
  simp [Hashheader.storesKey]

section Holds

variable [Compressors] {log : Logreader}

theorem slotOf_inj (hl : log.Holds items) (ha : Addressed header items) (hit : it ∈ items)
    (hit' : it' ∈ items) (h : header.slotOf it = header.slotOf it') : it = it' := by
  have haddr : header.addressOf it = header.addressOf it' := congrArg Prod.snd h
  refine hl.entries.eq_of_address Entry.header_ne_nil rfl hit hit' ?_ ?_
  · rw [← ha.positionOf it hit, haddr, ha.positionOf it' hit']
  · rw [← ha.entryIndexOf it hit, haddr, ha.entryIndexOf it' hit']

theorem Indexed.slot_unique (hl : log.Holds items) (ha : Addressed header items)
    (hi : Indexed items header hashtable live) {slot slot' : Nat} {entry : Nat × Nat}
    (hslot : slot < header.hashCapacity) (hslot' : slot' < header.hashCapacity)
    (h : header.slots hashtable slot = some entry)
    (h' : header.slots hashtable slot' = some entry) : slot = slot' := by
  refine eq_of_nodup_entries ?_ hslot hslot' h h'
  refine hi.entries.nodup_iff.mpr (List.Nodup.map_on ?_ (List.Nodup.of_map _ hi.distinct))
  intro a hma b hmb hab
  exact slotOf_inj hl ha (hi.mem a hma).1 (hi.mem b hmb).1 hab

end Holds

end Sparkey
