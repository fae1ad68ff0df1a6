import Sparkey.Hashheader
import Sparkey.Lib.BlockHash

/-!
# `MurmurHash3.c`

The hash functions of the index: `MurmurHash3_x86_32` for 4 bytes, and the first half of
`MurmurHash3_x64_128` for 8 bytes.  Both absorb the key in blocks and forget nothing on the way, so
two keys of one length that differ within one block only have different hash values
(`murmurhash32Hash_eq_iff`).  Of the 128 bits that holds for the whole
(`murmurHash3X64128_eq_iff`), of which the index keeps 64.
-/

namespace Sparkey

open BlockHash

/-! ### `MurmurHash3_x86_32` -/

def getblock32 (block : List UInt8) : BitVec 32 := BitVec.ofNat 32 (LittleEndian.decode block)

def fmix32 (h : BitVec 32) : BitVec 32 :=
  let h := xorShift 16 h
  let h := h * 0x85ebca6b
  let h := xorShift 13 h
  let h := h * 0xc2b2ae35
  xorShift 16 h

def scramble32 (k1 : BitVec 32) : BitVec 32 :=
  let k1 := k1 * 0xcc9e2d51
  let k1 := rotl k1 15
  k1 * 0x1b873593

def round32 (h1 : BitVec 32) (block : List UInt8) : BitVec 32 :=
  let k1 := scramble32 (getblock32 block)
  let h1 := h1 ^^^ k1
  let h1 := rotl h1 13
  h1 * 5 + 0xe6546b64

/-- The tail of `MurmurHash3_x86_32`: the `switch`, with `len & 3` bytes in `tail`. -/
def tail32 (h1 : BitVec 32) (tail : List UInt8) : BitVec 32 :=
  if tail.length = 0 then h1
  else h1 ^^^ scramble32 (wordFrom 32 0 tail)

/-- The way `MurmurHash3_x86_32` goes through a key. -/
def x86_32 : Absorber (BitVec 32) := ⟨4, by decide, round32, tail32⟩

def murmurHash3X8632 (key : List UInt8) (seed : BitVec 32) : BitVec 32 :=
  let h1 := x86_32.absorb key seed
  let h1 := h1 ^^^ BitVec.ofNat 32 key.length
  fmix32 h1

/-! ### `MurmurHash3_x64_128` -/

def getblock64 (block : List UInt8) : BitVec 64 := BitVec.ofNat 64 (LittleEndian.decode block)

def fmix64 (k : BitVec 64) : BitVec 64 :=
  let k := xorShift 33 k
  let k := k * 0xff51afd7ed558ccd
  let k := xorShift 33 k
  let k := k * 0xc4ceb9fe1a85ec53
  xorShift 33 k

def scramble64₁ (k1 : BitVec 64) : BitVec 64 :=
  let k1 := k1 * 0x87c37b91114253d5
  let k1 := rotl k1 31
  k1 * 0x4cf5ad432745937f

def scramble64₂ (k2 : BitVec 64) : BitVec 64 :=
  let k2 := k2 * 0x4cf5ad432745937f
  let k2 := rotl k2 33
  k2 * 0x87c37b91114253d5

def round128 (h : BitVec 64 × BitVec 64) (block : List UInt8) : BitVec 64 × BitVec 64 :=
  let k1 := getblock64 (block.take 8)
  let k2 := getblock64 (block.drop 8)
  let h1 := h.1 ^^^ scramble64₁ k1
  let h1 := rotl h1 27
  let h1 := h1 + h.2
  let h1 := h1 * 5 + 0x52dce729
  let h2 := h.2 ^^^ scramble64₂ k2
  let h2 := rotl h2 31
  let h2 := h2 + h1
  let h2 := h2 * 5 + 0x38495ab5
  (h1, h2)

/-- The tail of `MurmurHash3_x64_128`: the `switch`, with `len & 15` bytes in `tail`. -/
def tail128 (h : BitVec 64 × BitVec 64) (tail : List UInt8) : BitVec 64 × BitVec 64 :=
  let h2 := if 8 < tail.length then h.2 ^^^ scramble64₂ (wordFrom 64 0 (tail.drop 8)) else h.2
  let h1 := if 0 < tail.length then h.1 ^^^ scramble64₁ (wordFrom 64 0 (tail.take 8)) else h.1
  (h1, h2)

/-- The way `MurmurHash3_x64_128` goes through a key. -/
def x64_128 : Absorber (BitVec 64 × BitVec 64) := ⟨16, by decide, round128, tail128⟩

def finalize128 (len : Nat) (h : BitVec 64 × BitVec 64) : BitVec 64 × BitVec 64 :=
  let h1 := h.1 ^^^ BitVec.ofNat 64 len
  let h2 := h.2 ^^^ BitVec.ofNat 64 len
  let h1 := h1 + h2
  let h2 := h2 + h1
  let h1 := fmix64 h1
  let h2 := fmix64 h2
  let h1 := h1 + h2
  let h2 := h2 + h1
  (h1, h2)

def murmurHash3X64128 (key : List UInt8) (seed : BitVec 32) : BitVec 64 × BitVec 64 :=
  let h := x64_128.absorb key (seed.setWidth 64, seed.setWidth 64)
  finalize128 key.length h

/-! ### The hash functions of the index -/

/-- A length as the `int` it is handed on as, unless that is negative. -/
def intLength (len : Nat) : Option Nat := if u32 len < 2 ^ 31 then some (u32 len) else none

/-- `murmurhash32_hash`.  There is no result if the length is negative as an `int`. -/
def murmurhash32Hash (buf : List UInt8) (seed : Nat) : Option Nat :=
  (intLength buf.length).map fun len =>
    (murmurHash3X8632 (buf.take len) (BitVec.ofNat 32 seed)).toNat

def murmurhash64Hash (buf : List UInt8) (seed : Nat) : Option Nat :=
  (intLength buf.length).map fun len =>
    (murmurHash3X64128 (buf.take len) (BitVec.ofNat 32 seed)).1.toNat

def murmurhash (hashSize : Nat) (key : List UInt8) (hashSeed : Nat) : Nat :=
  match hashSize with
  | 4 => (murmurhash32Hash key hashSeed).getD 0
  | 8 => (murmurhash64Hash key hashSeed).getD 0
  | _ => 0

example : murmurhash 4 [] 0 = 0 := by decide +kernel

example : murmurhash 4 [0x68, 0x65, 0x6c, 0x6c, 0x6f] 0 = 0x248bfa47 := by decide +kernel

example : murmurhash 8 [0x68, 0x65, 0x6c, 0x6c, 0x6f] 0 = 0xcbd8a7b341bd9b02 := by decide +kernel

/-! ### Nothing is forgotten -/

theorem ofNat_decode_injective {n : Nat} {x y : List UInt8} (hx : x.length = n) (hy : y.length = n)
    (h : BitVec.ofNat (8 * n) (LittleEndian.decode x) = BitVec.ofNat (8 * n) (LittleEndian.decode y)) :
    x = y := by
  have hlt : ∀ z : List UInt8, z.length = n → LittleEndian.decode z < 2 ^ (8 * n) := by
    intro z hz
    have hz' := LittleEndian.decode_lt z
    rwa [hz, show 256 = 2 ^ 8 from rfl, ← Nat.pow_mul] at hz'
  have hnat := congrArg BitVec.toNat h
  rw [BitVec.toNat_ofNat, BitVec.toNat_ofNat, Nat.mod_eq_of_lt (hlt x hx),
    Nat.mod_eq_of_lt (hlt y hy)] at hnat
  exact LittleEndian.decode_injective (hx.trans hy.symm) hnat

theorem getblock32_injective {x y : List UInt8} (hx : x.length = 4) (hy : y.length = 4)
    (h : getblock32 x = getblock32 y) : x = y := ofNat_decode_injective hx hy h

theorem getblock64_injective {x y : List UInt8} (hx : x.length = 8) (hy : y.length = 8)
    (h : getblock64 x = getblock64 y) : x = y := ofNat_decode_injective hx hy h

theorem fmix32_injective : Function.Injective fmix32 := by
  have h₁ := mul_injective (show (0x85ebca6b : BitVec 32) * 0xa5cb9243 = 1 by decide)
  have h₂ := mul_injective (show (0xc2b2ae35 : BitVec 32) * 0x7ed1b41d = 1 by decide)
  exact (xorShift_injective (by decide)).comp (h₂.comp ((xorShift_injective (by decide)).comp
    (h₁.comp (xorShift_injective (by decide)))))

theorem fmix64_injective : Function.Injective fmix64 := by
  have h₁ := mul_injective (show (0xff51afd7ed558ccd : BitVec 64) * 0x4f74430c22a54005 = 1 by decide)
  have h₂ := mul_injective (show (0xc4ceb9fe1a85ec53 : BitVec 64) * 0x9cb4b2f8129337db = 1 by decide)
  exact (xorShift_injective (by decide)).comp (h₂.comp ((xorShift_injective (by decide)).comp
    (h₁.comp (xorShift_injective (by decide)))))

theorem scramble32_injective : Function.Injective scramble32 := by
  have h₁ := mul_injective (show (0xcc9e2d51 : BitVec 32) * 0xdee13bb1 = 1 by decide)
  have h₂ := mul_injective (show (0x1b873593 : BitVec 32) * 0x56ed309b = 1 by decide)
  exact h₂.comp ((rotl_injective (by decide)).comp h₁)

theorem scramble64₁_injective : Function.Injective scramble64₁ := by
  have h₁ := mul_injective (show (0x87c37b91114253d5 : BitVec 64) * 0xa98409e882ce4d7d = 1 by decide)
  have h₂ := mul_injective (show (0x4cf5ad432745937f : BitVec 64) * 0xa81e14edd9de2c7f = 1 by decide)
  exact h₂.comp ((rotl_injective (by decide)).comp h₁)

theorem scramble64₂_injective : Function.Injective scramble64₂ := by
  have h₁ := mul_injective (show (0x4cf5ad432745937f : BitVec 64) * 0xa81e14edd9de2c7f = 1 by decide)
  have h₂ := mul_injective (show (0x87c37b91114253d5 : BitVec 64) * 0xa98409e882ce4d7d = 1 by decide)
  exact h₂.comp ((rotl_injective (by decide)).comp h₁)

theorem five32 : (5 : BitVec 32) * 0xcccccccd = 1 := by decide

theorem five64 : (5 : BitVec 64) * 0xcccccccccccccccd = 1 := by decide

/-- **`MurmurHash3_x86_32` forgets nothing** on its way through a key. -/
theorem faithful_x86_32 : x86_32.Faithful where
  round_state x _ h h' heq := by
    exact (BitVec.xor_left_inj _).mp (rotl_injective (by decide) (mul_add_injective five32 _ heq))
  round_block h x y hx hy heq := by
    have heq := rotl_injective (by decide) (mul_add_injective five32 _ heq)
    exact getblock32_injective hx hy (scramble32_injective ((BitVec.xor_right_inj _).mp heq))
  tail_state x _ h h' heq := by
    simp only [x86_32, tail32] at heq
    split_ifs at heq
    · exact heq
    · exact (BitVec.xor_left_inj _).mp heq
  tail_block h x y hx hlen heq := by
    simp only [x86_32, tail32, ← hlen] at heq hx
    split_ifs at heq with hnil
    · rw [List.length_eq_zero_iff.mp hnil, List.length_eq_zero_iff.mp (hlen.symm.trans hnil)]
    · exact wordFrom_injective hlen (by omega) (scramble32_injective ((BitVec.xor_right_inj _).mp heq))

/-- What a round makes of `h1` gives away neither more nor less than what comes in. -/
theorem round128_eq {h h' : BitVec 64 × BitVec 64} {x y : List UInt8}
    (heq : round128 h x = round128 h' y) :
    rotl (h.1 ^^^ scramble64₁ (getblock64 (x.take 8))) 27 + h.2 =
      rotl (h'.1 ^^^ scramble64₁ (getblock64 (y.take 8))) 27 + h'.2 ∧
    h.2 ^^^ scramble64₂ (getblock64 (x.drop 8)) = h'.2 ^^^ scramble64₂ (getblock64 (y.drop 8)) := by
  obtain ⟨h₁, h₂⟩ := Prod.mk.inj heq
  refine ⟨mul_add_injective five64 _ h₁, ?_⟩
  rw [h₁] at h₂
  exact rotl_injective (by decide) (add_left_injective _ (mul_add_injective five64 _ h₂))

/-- **`MurmurHash3_x64_128` forgets nothing** on its way through a key. -/
theorem faithful_x64_128 : x64_128.Faithful where
  round_state x _ h h' heq := by
    obtain ⟨h₁, h₂⟩ := round128_eq heq
    have h₂ := (BitVec.xor_left_inj _).mp h₂
    rw [h₂] at h₁
    have h₁ := rotl_injective (by decide) (add_left_injective _ h₁)
    exact Prod.ext ((BitVec.xor_left_inj _).mp h₁) h₂
  round_block h x y hx hy heq := by
    have hx : x.length = 16 := hx
    have hy : y.length = 16 := hy
    obtain ⟨h₁, h₂⟩ := round128_eq heq
    have h₁ := rotl_injective (by decide) (add_left_injective _ h₁)
    have hlow := scramble64₁_injective ((BitVec.xor_right_inj _).mp h₁)
    have hhigh := scramble64₂_injective ((BitVec.xor_right_inj _).mp h₂)
    have hlow := getblock64_injective (List.length_take_of_le (by omega))
      (List.length_take_of_le (by omega)) hlow
    have hhigh := getblock64_injective (by rw [List.length_drop, hx]) (by rw [List.length_drop, hy]) hhigh
    rw [← List.take_append_drop 8 x, ← List.take_append_drop 8 y, hlow, hhigh]
  tail_state x _ h h' heq := by
    obtain ⟨h₁, h₂⟩ := Prod.mk.inj heq
    refine Prod.ext ?_ ?_
    · split_ifs at h₁
      · exact (BitVec.xor_left_inj _).mp h₁
      · exact h₁
    · split_ifs at h₂
      · exact (BitVec.xor_left_inj _).mp h₂
      · exact h₂
  tail_block h x y hx hlen heq := by
    have hx : x.length < 16 := hx
    obtain ⟨h₁, h₂⟩ := Prod.mk.inj heq
    have hlow : x.take 8 = y.take 8 := by
      rw [← hlen] at h₁
      split_ifs at h₁ with hpos
      · refine wordFrom_injective ?_ ?_ (scramble64₁_injective ((BitVec.xor_right_inj _).mp h₁))
        · rw [List.length_take, List.length_take, hlen]
        · rw [List.length_take]
          omega
      · rw [List.length_eq_zero_iff.mp (Nat.eq_zero_of_not_pos hpos),
          List.length_eq_zero_iff.mp (hlen.symm.trans (Nat.eq_zero_of_not_pos hpos))]
    have hhigh : x.drop 8 = y.drop 8 := by
      rw [← hlen] at h₂
      split_ifs at h₂ with hlong
      · refine wordFrom_injective ?_ ?_ (scramble64₂_injective ((BitVec.xor_right_inj _).mp h₂))
        · rw [List.length_drop, List.length_drop, hlen]
        · rw [List.length_drop]
          omega
      · rw [List.drop_eq_nil_of_le (by omega), List.drop_eq_nil_of_le (by omega)]
    rw [← List.take_append_drop 8 x, ← List.take_append_drop 8 y, hlow, hhigh]

theorem finalize128_injective (len : Nat) : Function.Injective (finalize128 len) := by
  intro h h' heq
  obtain ⟨h₁, h₂⟩ := Prod.mk.inj heq
  rw [h₁] at h₂
  have h₂ := add_left_injective _ h₂
  rw [h₂] at h₁
  have h₁ := fmix64_injective (add_left_injective _ h₁)
  have h₂ := fmix64_injective h₂
  rw [h₁] at h₂
  have h₂ := add_left_injective _ h₂
  rw [h₂] at h₁
  have h₁ := add_left_injective _ h₁
  exact Prod.ext ((BitVec.xor_left_inj _).mp h₁) ((BitVec.xor_left_inj _).mp h₂)

/-! ### The hash values of keys of one length -/

variable {pre x y post : List UInt8}

/-- **`MurmurHash3_x86_32`** tells keys apart that differ in one block or in the tail only. -/
theorem murmurHash3X8632_eq_iff (hp : x86_32.Place pre x y post) (seed : BitVec 32) :
    murmurHash3X8632 (pre ++ x ++ post) seed = murmurHash3X8632 (pre ++ y ++ post) seed ↔ x = y := by
  rw [← absorb_eq_iff faithful_x86_32 hp (s := seed)]
  refine ⟨fun h => ?_, fun h => ?_⟩
  · have h := fmix32_injective h
    rw [hp.length] at h
    exact (BitVec.xor_left_inj _).mp h
  · rw [murmurHash3X8632, h, hp.length]
    rfl

/-- **`MurmurHash3_x64_128`** tells keys apart that differ in one block or in the tail only. -/
theorem murmurHash3X64128_eq_iff (hp : x64_128.Place pre x y post) (seed : BitVec 32) :
    murmurHash3X64128 (pre ++ x ++ post) seed = murmurHash3X64128 (pre ++ y ++ post) seed ↔ x = y := by
  rw [← absorb_eq_iff faithful_x64_128 hp (s := (seed.setWidth 64, seed.setWidth 64))]
  refine ⟨fun h => ?_, fun h => ?_⟩
  · rw [murmurHash3X64128, murmurHash3X64128, hp.length] at h
    exact finalize128_injective _ h
  · rw [murmurHash3X64128, murmurHash3X64128, h, hp.length]

/-- Two keys of eighteen bytes with different ends. -/
theorem murmurHash3X64128_eq_iff_sample :
    murmurHash3X64128 (List.replicate 16 9 ++ [1, 2]) 7 ≠
      murmurHash3X64128 (List.replicate 16 9 ++ [2, 1]) 7 := by
  have hp : x64_128.Place (List.replicate 16 9) [1, 2] [2, 1] [] :=
    ⟨by decide, by decide, by decide⟩
  have hiff := murmurHash3X64128_eq_iff hp 7
  rw [List.append_nil, List.append_nil] at hiff
  exact fun h => absurd (hiff.mp h) (by decide)

/-- **The seed of `MurmurHash3_x86_32`**: each key makes a permutation of the words. -/
theorem murmurHash3X8632_bijective (key : List UInt8) :
    Function.Bijective fun seed => murmurHash3X8632 key seed := by
  apply Finite.injective_iff_bijective.mp
  intro seed seed' h
  have h := fmix32_injective h
  exact absorb_injective faithful_x86_32 key ((BitVec.xor_left_inj _).mp h)

/-- And each key tells the seeds of `MurmurHash3_x64_128` apart. -/
theorem murmurHash3X64128_injective (key : List UInt8) :
    Function.Injective fun seed => murmurHash3X64128 key seed := by
  intro seed seed' h
  have h := absorb_injective faithful_x64_128 key (finalize128_injective _ h)
  have hwide := congrArg (BitVec.setWidth 32) (Prod.mk.inj h).1
  simpa using hwide

theorem intLength_of_lt {len : Nat} (h : len < 2 ^ 31) : intLength len = some len := by
  rw [intLength, u32_of_lt (by omega), if_pos h]

theorem murmurhash32Hash_of_lt {key : List UInt8} (h : key.length < 2 ^ 31) (seed : Nat) :
    murmurhash32Hash key seed = some (murmurHash3X8632 key (BitVec.ofNat 32 seed)).toNat := by
  rw [murmurhash32Hash, intLength_of_lt h, Option.map_some, List.take_length]

/-- **The 4-byte hash value of the index** tells keys of less than 2 GiB apart that differ in one
block or in the tail only, whatever the seed is. -/
theorem murmurhash32Hash_eq_iff (hp : x86_32.Place pre x y post)
    (hlen : (pre ++ x ++ post).length < 2 ^ 31) (seed : Nat) :
    murmurhash32Hash (pre ++ x ++ post) seed = murmurhash32Hash (pre ++ y ++ post) seed ↔ x = y := by
  rw [murmurhash32Hash_of_lt hlen, murmurhash32Hash_of_lt (hp.length ▸ hlen), Option.some_inj,
    BitVec.toNat_inj, murmurHash3X8632_eq_iff hp]

/-- Two keys of five bytes with different ends. -/
theorem murmurhash32Hash_eq_iff_sample :
    murmurhash32Hash [1, 2, 3, 4, 5] 7 ≠ murmurhash32Hash [1, 2, 3, 4, 6] 7 := by
  have hp : x86_32.Place [1, 2, 3, 4] [5] [6] [] := ⟨by decide, by decide, by decide⟩
  have hiff := murmurhash32Hash_eq_iff hp (by decide) 7
  exact fun h => absurd (hiff.mp h) (by decide)

theorem murmurhash_four (key : List UInt8) (hashSeed : Nat) :
    murmurhash 4 key hashSeed = (murmurhash32Hash key hashSeed).getD 0 := by
  rw [murmurhash]

theorem getD_map_toNat_lt {w : Nat} {α : Type} (x : Option α) (f : α → BitVec w) :
    (x.map fun a => (f a).toNat).getD 0 < 2 ^ w := by
  cases x with
  | none => exact Nat.two_pow_pos w
  | some a => exact (f a).isLt

theorem murmurhash_lt (hashSize : Nat) (key : List UInt8) (hashSeed : Nat) :
    murmurhash hashSize key hashSeed < 256 ^ hashSize := by
  have hpos : 0 < 256 ^ hashSize := Nat.pow_pos (by decide)
  unfold murmurhash
  split
  · exact Nat.lt_of_lt_of_eq (getD_map_toNat_lt _ _) (by norm_num)
  · exact Nat.lt_of_lt_of_eq (getD_map_toNat_lt _ _) (by norm_num)
  · exact hpos

abbrev murmurHashes : HashFunctions := ⟨murmurhash, murmurhash_lt⟩

/-- **Keys of one length of up to four bytes** have different 4-byte hash values. -/
theorem murmurhash_four_injective {key key' : List UInt8} (hlen : key.length = key'.length)
    (hshort : key.length ≤ 4) {seed : Nat} (h : murmurhash 4 key seed = murmurhash 4 key' seed) :
    key = key' := by
  have hp : x86_32.Place [] key key' [] := by
    refine ⟨dvd_zero _, hlen, ?_⟩
    rcases Nat.eq_or_lt_of_le hshort with heq | hlt
    · exact Or.inl heq
    · exact Or.inr ⟨hlt, rfl⟩
  rw [murmurhash_four, murmurhash_four, murmurhash32Hash_of_lt (by omega),
    murmurhash32Hash_of_lt (by omega), Option.getD_some, Option.getD_some] at h
  have hiff := murmurHash3X8632_eq_iff hp (BitVec.ofNat 32 seed)
  rw [List.nil_append, List.append_nil, List.nil_append, List.append_nil] at hiff
  exact hiff.mp (BitVec.eq_of_toNat_eq h)

end Sparkey
