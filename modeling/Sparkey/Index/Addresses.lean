import Sparkey.Index.Answers
import Sparkey.Walk

/-!
# The addresses of a log

`sparkey_hash_write` stores the place of an entry as one number, the position of its block followed
by the bits of its number there, in four bytes or eight.  The other functions shift and mask it apart
again.  They get back what was put in as long as the shift has not pushed bits of the position out
of 64, and four bytes are chosen only where they are enough (`recovers_iff_of_writing`).
-/

namespace Sparkey

open Program BlockStream

/-- The address that is stored is not the mark of a free slot, and leads back to this place. -/
def Hashheader.Recovers (header : Hashheader) (blockPosition entryCount : Nat) : Prop :=
  ∃ a, readAddr (writeAddr (header.address blockPosition entryCount) header.addressSize) 0
      header.addressSize = some a ∧
    a ≠ 0 ∧ header.positionOf a = blockPosition ∧ header.entryIndexOf a = entryCount

variable {header : Hashheader} {pos idx : Nat}

theorem readAddr_lt (hsize : header.addressSize = 4 ∨ header.addressSize = 8) {a value : Nat}
    (h : readAddr (writeAddr value header.addressSize) 0 header.addressSize = some a) :
    a < 2 ^ 64 := by
  rw [readAddr_of_size hsize, writeAddr_of_size hsize] at h
  obtain ⟨b, hb, hlt⟩ := readLittleEndian_of_le header.addressSize 0
    (writeLittleEndian header.addressSize value) (by rw [length_writeLittleEndian]; omega)
  cases h.symm.trans hb
  rcases hsize with h4 | h8
  · rw [h4] at hlt
    exact Nat.lt_trans hlt (by decide)
  · rw [h8] at hlt
    exact hlt

theorem readAddr_writeAddr (hsize : header.addressSize = 4 ∨ header.addressSize = 8) {value : Nat}
    (hlt : value < 256 ^ header.addressSize) :
    readAddr (writeAddr value header.addressSize) 0 header.addressSize = some value := by
  rw [readAddr_of_size hsize, writeAddr_of_size hsize]
  have h := readLittleEndian_write hlt [] []
  rwa [List.nil_append, List.append_nil] at h

theorem Hashheader.Recovers.lt (hsize : header.addressSize = 4 ∨ header.addressSize = 8)
    (hbits : header.entryBlockBits ≤ 64) (h : header.Recovers pos idx) :
    pos < 2 ^ (64 - header.entryBlockBits) := by
  obtain ⟨a, hread, -, rfl, -⟩ := h
  have hlt := readAddr_lt hsize hread
  rw [Hashheader.positionOf, Nat.shiftRight_eq_div_pow]
  apply Nat.div_lt_of_lt_mul
  rwa [← Nat.pow_add, Nat.add_sub_cancel' hbits]

/-- **An address that fits in 64 bits** is got back from the bytes chosen for it. -/
theorem recovers_of_lt (hbits : header.entryBlockBits ≤ 32)
    (hmask : header.entryBlockBitmask = bitmask header.entryBlockBits)
    (hsize : header.addressSize = if header.dataEnd < 1 <<< (32 - header.entryBlockBits) then 4 else 8)
    (h0 : pos ≠ 0) (hend : pos < header.dataEnd) (hidx : idx < 2 ^ header.entryBlockBits)
    (hlt : pos < 2 ^ (64 - header.entryBlockBits)) : header.Recovers pos idx := by
  -- the address of one entry, in a header that ends right behind it
  have heq := address_eq hlt (by omega) hidx
  have hpow := Nat.two_pow_pos header.entryBlockBits
  have hwidth : ∀ {w}, header.entryBlockBits ≤ w → pos < 2 ^ (w - header.entryBlockBits) →
      header.address pos idx < 2 ^ w := by
    intro w hw hpos
    have hle := Nat.mul_le_mul_right (2 ^ header.entryBlockBits) (Nat.succ_le_of_lt hpos)
    rw [← Nat.pow_add, Nat.sub_add_cancel hw, Nat.succ_mul] at hle
    rw [heq]
    omega
  have hboth : header.addressSize = 4 ∨ header.addressSize = 8 := by
    rw [hsize]
    split_ifs
    · exact Or.inl rfl
    · exact Or.inr rfl
  refine ⟨header.address pos idx, readAddr_writeAddr hboth ?_, ?_, ?_, ?_⟩
  · rw [hsize]
    split_ifs with h4
    · rw [Nat.one_shiftLeft] at h4
      have := hwidth hbits (Nat.lt_trans hend h4)
      rwa [show (256 : Nat) ^ 4 = 2 ^ 32 by decide]
    · have := hwidth (by omega) hlt
      rwa [show (256 : Nat) ^ 8 = 2 ^ 64 by decide]
  · rw [heq]
    have := Nat.mul_pos (Nat.pos_of_ne_zero h0) hpow
    omega
  · rw [Hashheader.positionOf, heq, Nat.shiftRight_eq_div_pow, Nat.mul_comm, Nat.mul_add_div hpow,
      Nat.div_eq_of_lt hidx, Nat.add_zero]
  · rw [Hashheader.entryIndexOf, hmask, bitmask_eq, Nat.and_two_pow_sub_one_eq_mod, u32,
      Nat.mod_mod_of_dvd _ (Nat.pow_dvd_pow 2 hbits), heq, Nat.mul_comm, Nat.mul_add_mod,
      Nat.mod_eq_of_lt hidx]

variable [Compressors] {log : Logreader} {items : List (Item Entry)} {it : Item Entry}

/-- The addresses of a log that can be got back are those below a power of two. -/
theorem recovers_newHashheader_iff (hl : Logged log items) (hit : it ∈ items)
    (old : Option Hashheader) (hashSeed hashSize : Nat) :
    (newHashheader log.header old hashSeed hashSize).Recovers it.pos it.idx ↔
      it.pos < 2 ^ (64 - intLog2 log.header.maxEntriesPerBlock) := by
  have hbits : intLog2 log.header.maxEntriesPerBlock ≤ 30 :=
    intLog2_le hl.maxEntriesPerBlock_lt (by decide)
  have hsize : (newHashheader log.header old hashSeed hashSize).addressSize = 4 ∨
      (newHashheader log.header old hashSeed hashSize).addressSize = 8 := by
    show (if _ then 4 else 8) = 4 ∨ (if _ then 4 else 8) = 8
    split_ifs
    · exact Or.inl rfl
    · exact Or.inr rfl
  constructor
  · intro h
    exact h.lt hsize (by show intLog2 _ ≤ 64; omega)
  · intro hlt
    obtain ⟨n, hn⟩ := List.mem_iff_getElem?.mp hit
    have hle := hl.le_pos hit
    have h84 : logHeaderSize = 84 := rfl
    apply recovers_of_lt
    · show intLog2 _ ≤ 32
      omega
    · rfl
    · rfl
    · omega
    · exact hl.toHolds.pos_lt hn
    · exact lt_two_pow_intLog2 (Nat.lt_trans hl.maxEntriesPerBlock_lt (by decide)) (hl.idx_lt it hit)
    · exact hlt

omit [Compressors] in
theorem Hashheader.Recovers.inj {pos' idx' : Nat} (h : header.Recovers pos idx)
    (h' : header.Recovers pos' idx') (haddr : header.address pos idx = header.address pos' idx') :
    pos = pos' ∧ idx = idx' := by
  obtain ⟨a, hread, -, rfl, rfl⟩ := h
  obtain ⟨a', hread', -, rfl, rfl⟩ := h'
  rw [haddr] at hread
  cases hread.symm.trans hread'
  exact ⟨rfl, rfl⟩

/-- **The address of an entry leads back to it** exactly where the block starts low enough.  The place
is that which an iterator shows when `next` stops at the entry. -/
theorem recovers_iff_of_writing {t : CompressionType} {n : Nat} {calls : List Call} {w w' : Logwriter}
    {k : Nat} {iter : Logiter} (hw : Writing t n calls w)
    (hfit : ∀ e ∈ entriesOf calls, HeadFits (.of t n) e) (hz : (Setting.of t n).Lossless)
    (hflush : logwriterFlush.run w = .ok () w') (hopen : logreaderOpen (some w'.fd.data) = .ok log)
    (old : Option Hashheader) (hashSeed hashSize : Nat)
    (hheader : header = newHashheader log.header old hashSeed hashSize) (hstop : Stop log k iter) :
    (header.Recovers iter.blockPosition iter.entryCount.toNat ↔
      iter.blockPosition < 2 ^ (64 - header.entryBlockBits)) ∧
    ∀ l other, Stop log l other → header.Recovers iter.blockPosition iter.entryCount.toNat →
      header.Recovers other.blockPosition other.entryCount.toNat →
      header.address iter.blockPosition iter.entryCount.toNat
        = header.address other.blockPosition other.entryCount.toNat → k = l := by
  obtain ⟨items, hp⟩ := published_of_flush hw hfit hz hflush hopen
  have hl := hp.logged hz
  obtain ⟨it, hit, -, hcount, hpos⟩ := hstop.active hl.toHolds
  rw [hcount, hpos, Int.toNat_natCast]
  constructor
  · rw [hheader]
    exact recovers_newHashheader_iff hl (List.mem_of_getElem? hit) old hashSeed hashSize
  · intro l other hother h h' haddr
    obtain ⟨it', hit', -, hcount', hpos'⟩ := hother.active hl.toHolds
    rw [hcount', hpos', Int.toNat_natCast] at h' haddr
    obtain ⟨hpos, hidx⟩ := h.inj h' haddr
    have heq := hl.entries.eq_of_address Entry.header_ne_nil rfl (List.mem_of_getElem? hit)
      (List.mem_of_getElem? hit') hpos hidx
    refine (List.getElem?_inj ?_ hl.nodup).mp ?_
    · exact (List.getElem?_eq_some_iff.mp hit).1
    · rw [hit, hit', heq]

omit [Compressors] in
theorem recovers_iff_of_writing_sample :
    letI := literalCompressors
    ∃ (log : Logreader) (iter : Logiter), Stop log 2 iter ∧
      (newHashheader log.header none 7 0).Recovers iter.blockPosition iter.entryCount.toNat := by
  let := literalCompressors
  have hsmall : (writeAndOpen sampleEnv .snappy 10 sampleCalls).map
      (fun log => decide log.header.Small) = some true := by
    decide +kernel
  obtain ⟨w, w', log, hw, hclose, hopen, hlog⟩ := exists_of_writeAndOpen sampleEnv .snappy 10
    sampleCalls (by decide) (by decide +kernel)
  rw [hlog] at hsmall
  obtain ⟨w₁, hfl, rfl⟩ := ok_logwriterClose (kept_of_writing hw).1.writable hclose
  have hz : (Setting.of .snappy 10).Lossless := fun _ => lossless_snappyLiteral
  obtain ⟨blocks, hc⟩ := carries_of_flush hw hz hfl hopen
  have hfit : ∀ e ∈ (entriesOf sampleCalls).take 3, HeadFits log.header.setting e := by
    intro e he
    rw [setting_of_flush hw hfl hopen]
    exact headFits_sampleCalls e (List.mem_of_mem_take he)
  obtain ⟨iter, hstop⟩ := exists_stop hc (by decide) hfit
  refine ⟨log, iter, hstop, (recovers_iff_of_writing hw headFits_sampleCalls hz hfl hopen none 7 0 rfl
    hstop).1.mpr ?_⟩
  -- the block of an entry starts in front of the end
  obtain ⟨items, hp⟩ := published_of_flush hw headFits_sampleCalls hz hfl hopen
  obtain ⟨it, hit, -, -, hpos⟩ := hstop.active (hp.logged hz).toHolds
  rw [hpos]
  apply Nat.lt_trans ((hp.logged hz).toHolds.pos_lt hit)
  exact ((of_decide_eq_true (Option.some.inj hsmall)).orderly (rfl : calmEnv.reads = [])).dataEnd_lt

end Sparkey
