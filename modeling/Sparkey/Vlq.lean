import Sparkey.Basic

/-!
# Variable length quantities

`write_vlq` of `logwriter.c`, `read_vlq` of `logreader.c` and
`unsigned_vlq_size` of `hashwriter.c`: a number as bytes of seven bits each,
lowest first, the last one below `0x80`.
-/

namespace Sparkey

def writeVlqLoop : Nat → Nat → List UInt8
  | 0, value => [UInt8.ofNat value]
  | fuel + 1, value =>
    if 1 <<< 7 ≤ value then
      UInt8.ofNat ((value &&& 0x7f) ||| 0x80) :: writeVlqLoop fuel (value >>> 7)
    else [UInt8.ofNat value]

/-- `write_vlq`: the bytes it puts in the buffer; it returns their count. -/
def writeVlq (value : Nat) : List UInt8 := writeVlqLoop value value

def writeVlqCountLoop : Nat → Nat → Nat → Nat
  | 0, _, count => count
  | fuel + 1, value, count =>
    if 1 <<< 7 ≤ value then writeVlqCountLoop fuel (value >>> 7) (count + 1) else count

/-- What `write_vlq` returns. -/
def writeVlqCount (value : Nat) : Nat := writeVlqCountLoop value value 1

/-- The loop of `read_vlq` over the bytes from `position` on.  Running off the
array has no result, and neither has a shift that is wider than the word. -/
def readVlqLoop : List UInt8 → Nat → Nat → Nat → Option (Nat × Nat)
  | [], _, _, _ => none
  | byte :: array, res, shift, position =>
    let tmp := byte.toNat
    let tmp2 := tmp &&& 0x7f
    if 64 ≤ shift then none
    else if tmp = tmp2 then some (u64 (res ||| tmp <<< shift), position + 1)
    else readVlqLoop array (u64 (res ||| tmp2 <<< shift)) (shift + 7) (position + 1)

/-- `read_vlq`: the value, and the position behind it. -/
def readVlq (array : List UInt8) (position : Nat) : Option (Nat × Nat) :=
  readVlqLoop (array.drop position) 0 0 position

def unsignedVlqSize (value : Nat) : Nat :=
  if value < 1 <<< 7 then 1
  else if value < 1 <<< 14 then 2
  else if value < 1 <<< 21 then 3
  else if value < 1 <<< 28 then 4
  else if value < 1 <<< 35 then 5
  else if value < 1 <<< 42 then 6
  else if value < 1 <<< 49 then 7
  else if value < 1 <<< 56 then 8
  else if value < 1 <<< 63 then 9
  else 10

/-! ### Writing -/

theorem writeVlqLoop_of_lt (fuel : Nat) {value : Nat} (h : value < 128) :
    writeVlqLoop fuel value = [UInt8.ofNat value] := by
  cases fuel with
  | zero => rfl
  | succ fuel => exact if_neg (Nat.not_le_of_lt h)

theorem writeVlqLoop_of_ge (fuel : Nat) {value : Nat} (h : 128 ≤ value) :
    writeVlqLoop (fuel + 1) value
      = UInt8.ofNat ((value &&& 0x7f) ||| 0x80) :: writeVlqLoop fuel (value / 128) := by
  rw [writeVlqLoop, if_pos (show 1 <<< 7 ≤ value from h), Nat.shiftRight_eq_div_pow]

theorem writeVlqLoop_succ : ∀ (fuel value : Nat), value ≤ fuel →
    writeVlqLoop (fuel + 1) value = writeVlqLoop fuel value := by
  intro fuel
  induction fuel with
  | zero =>
    intro value h
    obtain rfl : value = 0 := Nat.le_zero.mp h
    rfl
  | succ fuel ih =>
    intro value h
    rcases Nat.lt_or_ge value 128 with hv | hv
    · rw [writeVlqLoop_of_lt _ hv, writeVlqLoop_of_lt _ hv]
    · rw [writeVlqLoop_of_ge _ hv, writeVlqLoop_of_ge _ hv, ih _ (by omega)]

theorem writeVlqLoop_eq {fuel value : Nat} (h : value ≤ fuel) :
    writeVlqLoop fuel value = writeVlq value := by
  induction fuel with
  | zero =>
    obtain rfl : value = 0 := Nat.le_zero.mp h
    rfl
  | succ fuel ih =>
    rcases Nat.lt_or_ge fuel value with hlt | hle
    · obtain rfl : value = fuel + 1 := by omega
      rfl
    · rw [writeVlqLoop_succ _ _ hle, ih hle]

theorem writeVlq_of_lt {value : Nat} (h : value < 128) : writeVlq value = [UInt8.ofNat value] := by
  exact writeVlqLoop_of_lt value h

theorem writeVlq_of_ge {value : Nat} (h : 128 ≤ value) :
    writeVlq value = UInt8.ofNat ((value &&& 0x7f) ||| 0x80) :: writeVlq (value / 128) := by
  cases value with
  | zero => omega
  | succ v =>
    rw [writeVlq, writeVlqLoop_of_ge _ h, writeVlqLoop_eq (by omega)]

theorem length_writeVlq_pos (value : Nat) : 0 < (writeVlq value).length := by
  rcases Nat.lt_or_ge value 128 with h | h
  · rw [writeVlq_of_lt h]
    exact Nat.one_pos
  · rw [writeVlq_of_ge h]
    exact Nat.succ_pos _

theorem length_writeVlq : ∀ (n value : Nat), value < 128 ^ (n + 1) → 128 ^ n ≤ value ∨ n = 0 →
    (writeVlq value).length = n + 1 := by
  intro n
  induction n with
  | zero =>
    intro value h _
    rw [writeVlq_of_lt (by simpa using h)]
    rfl
  | succ n ih =>
    intro value h hge
    have hge' : 128 ^ (n + 1) ≤ value := by omega
    have h128 : 128 ≤ value := by
      have := Nat.pow_pos (n := n) (show 0 < 128 by decide)
      rw [Nat.pow_succ] at hge'
      omega
    rw [writeVlq_of_ge h128, List.length_cons, ih]
    · rw [Nat.div_lt_iff_lt_mul (by decide), ← Nat.pow_succ]
      exact h
    · left
      rw [Nat.le_div_iff_mul_le (by decide), ← Nat.pow_succ]
      exact hge'

theorem unsignedVlqSize_eq {value : Nat} (h : value < 2 ^ 64) :
    unsignedVlqSize value = (writeVlq value).length := by
  unfold unsignedVlqSize
  simp only [Nat.one_shiftLeft]
  split_ifs with h1 h2 h3 h4 h5 h6 h7 h8 h9
  · exact (length_writeVlq 0 value (by omega) (by omega)).symm
  · exact (length_writeVlq 1 value (by omega) (by omega)).symm
  · exact (length_writeVlq 2 value (by omega) (by omega)).symm
  · exact (length_writeVlq 3 value (by omega) (by omega)).symm
  · exact (length_writeVlq 4 value (by omega) (by omega)).symm
  · exact (length_writeVlq 5 value (by omega) (by omega)).symm
  · exact (length_writeVlq 6 value (by omega) (by omega)).symm
  · exact (length_writeVlq 7 value (by omega) (by omega)).symm
  · exact (length_writeVlq 8 value (by omega) (by omega)).symm
  · exact (length_writeVlq 9 value (by omega) (by omega)).symm

/-- A number below `128 ^ n` takes at most `n` bytes. -/
theorem length_writeVlq_le : ∀ (n value : Nat), value < 128 ^ n → (writeVlq value).length ≤ max n 1 := by
  intro n
  induction n with
  | zero =>
    intro value h
    obtain rfl : value = 0 := by simpa using h
    decide
  | succ n ih =>
    intro value h
    rcases Nat.lt_or_ge value 128 with hs | hs
    · rw [writeVlq_of_lt hs]
      exact Nat.le_max_right _ _
    · have := ih (value / 128) (by
        rw [Nat.div_lt_iff_lt_mul (by decide), ← Nat.pow_succ]
        exact h)
      rw [writeVlq_of_ge hs, List.length_cons]
      rcases Nat.eq_zero_or_pos n with rfl | hn
      · have : value < 128 := by simpa using h
        omega
      · omega

/-! ### Reading back -/

theorem toNat_last {value : Nat} (h : value < 128) : (UInt8.ofNat value).toNat = value := by
  rw [UInt8.toNat_ofNat']
  omega

theorem toNat_more (value : Nat) :
    (UInt8.ofNat ((value &&& 0x7f) ||| 0x80)).toNat = value % 128 + 128 := by
  have hand : value &&& 0x7f = value % 128 := Nat.and_two_pow_sub_one_eq_mod value 7
  have hlt : value % 128 < 128 := Nat.mod_lt _ (by decide)
  rw [hand, UInt8.toNat_ofNat']
  generalize value % 128 = x at hlt ⊢
  revert x
  decide

/-- `read_vlq` in the middle of a number: `res` holds the bits read so far. -/
theorem readVlqLoop_writeVlq (value : Nat) (rest : List UInt8) {shift : Nat} (hshift : shift < 64)
    (hlt : value <<< shift < 2 ^ 64) (res position : Nat) :
    readVlqLoop (writeVlq value ++ rest) res shift position
      = some (u64 (res ||| value <<< shift), position + (writeVlq value).length) := by
  induction value using Nat.strongRecOn generalizing res shift position with
  | ind value ih =>
    have hfits : ¬ 64 ≤ shift := Nat.not_le.mpr hshift
    rcases Nat.lt_or_ge value 128 with h | h
    · rw [writeVlq_of_lt h, List.singleton_append, readVlqLoop, toNat_last h, if_neg hfits]
      have hand : value &&& 0x7f = value := by
        rw [show (0x7f : Nat) = 2 ^ 7 - 1 from rfl, Nat.and_two_pow_sub_one_eq_mod]
        omega
      simp [hand]
    · have hmod : (value % 128 + 128) &&& 0x7f = value % 128 := by
        rw [show (0x7f : Nat) = 2 ^ 7 - 1 from rfl, Nat.and_two_pow_sub_one_eq_mod]
        omega
      -- the low bits joined with the rest of the number are the number
      have hjoin : (value % 128) <<< shift ||| (value / 128) <<< (shift + 7) = value <<< shift := by
        rw [Nat.add_comm shift 7, Nat.shiftLeft_add, ← Nat.shiftLeft_or_distrib]
        congr 1
        rw [Nat.or_comm, ← Nat.shiftLeft_add_eq_or_of_lt (by omega), Nat.shiftLeft_eq]
        omega
      -- there are more bits, so they are still within the word
      have hrest : (value / 128) <<< (shift + 7) ≤ value <<< shift := by
        rw [← hjoin]
        exact Nat.right_le_or
      have hshift' : shift + 7 < 64 := by
        have hpow : 2 ^ (shift + 7) ≤ (value / 128) <<< (shift + 7) := by
          rw [Nat.shiftLeft_eq]
          exact Nat.le_mul_of_pos_left _ (Nat.div_pos h (by decide))
        exact (Nat.pow_lt_pow_iff_right (by decide)).mp (by omega : 2 ^ (shift + 7) < 2 ^ 64)
      rw [writeVlq_of_ge h, List.cons_append, readVlqLoop, toNat_more, hmod, if_neg hfits,
        if_neg (by omega), ih _ (by omega) hshift' (by omega)]
      simp only [u64, Nat.or_mod_two_pow, Nat.mod_mod, List.length_cons]
      rw [← hjoin, Nat.or_mod_two_pow, Nat.or_assoc, Nat.add_assoc, Nat.add_comm 1]

/-- **What was written is read back**, whatever follows. -/
theorem readVlq_writeVlq {value : Nat} (h : value < 2 ^ 64) (pre rest : List UInt8) :
    readVlq (pre ++ (writeVlq value ++ rest)) pre.length
      = some (value, pre.length + (writeVlq value).length) := by
  rw [readVlq, List.drop_left, readVlqLoop_writeVlq _ _ (by decide) (by simpa using h)]
  simp [u64_of_lt h]

theorem writeVlqCountLoop_eq : ∀ fuel value count : Nat,
    writeVlqCountLoop fuel value count + 1 = count + (writeVlqLoop fuel value).length := by
  intro fuel
  induction fuel with
  | zero => exact fun _ _ => rfl
  | succ fuel ih =>
    intro value count
    rw [writeVlqCountLoop, writeVlqLoop]
    split_ifs with h
    · rw [ih, List.length_cons]
      omega
    · rfl

theorem writeVlqCount_eq (value : Nat) : writeVlqCount value = (writeVlq value).length := by
  have := writeVlqCountLoop_eq value value 1
  rw [writeVlqCount, writeVlq]
  omega

/-- **No encoding begins with another.** -/
theorem eq_of_writeVlq_begins {value other : Nat} (h : value < 2 ^ 64) (h' : other < 2 ^ 64)
    (hbegins : writeVlq value <+: writeVlq other) : value = other := by
  obtain ⟨rest, hrest⟩ := hbegins
  -- both are read from the same bytes
  have hread := readVlq_writeVlq h [] rest
  have hread' := readVlq_writeVlq h' [] []
  rw [List.append_nil, ← hrest] at hread'
  have heq := hread.symm.trans hread'
  exact (Prod.mk.inj (Option.some.inj heq)).1

/-- **Encoder, decoder and size table agree** on all words. -/
theorem vlq_agree {value : Nat} (h : value < 2 ^ 64) (pre rest : List UInt8) :
    readVlq (pre ++ (writeVlq value ++ rest)) pre.length
        = some (value, pre.length + writeVlqCount value) ∧
      (writeVlq value).length = writeVlqCount value ∧
      writeVlqCount value = unsignedVlqSize value ∧
      1 ≤ writeVlqCount value ∧ writeVlqCount value ≤ 10 ∧
      ∀ other < 2 ^ 64, writeVlq value <+: writeVlq other → writeVlq value = writeVlq other := by
  have hcount := writeVlqCount_eq value
  have hpos := length_writeVlq_pos value
  have hle : (writeVlq value).length ≤ 10 :=
    length_writeVlq_le 10 value (Nat.lt_trans h (by decide))
  refine ⟨?_, hcount.symm, ?_, by omega, by omega, ?_⟩
  · rw [hcount]
    exact readVlq_writeVlq h pre rest
  · rw [hcount, unsignedVlqSize_eq h]
  · intro other h' hbegins
    rw [eq_of_writeVlq_begins h h' hbegins]

/-- The largest word takes ten bytes. -/
theorem vlq_agree_max :
    readVlq ([7] ++ (writeVlq (2 ^ 64 - 1) ++ [9])) 1
        = some (2 ^ 64 - 1, 1 + writeVlqCount (2 ^ 64 - 1)) ∧
      writeVlqCount (2 ^ 64 - 1) = unsignedVlqSize (2 ^ 64 - 1) := by
  have h := vlq_agree (show 2 ^ 64 - 1 < 2 ^ 64 by decide) [7] [9]
  exact ⟨h.1, h.2.2.1⟩

theorem readVlqLoop_lt : ∀ {array : List UInt8} {res shift position value pos : Nat},
    readVlqLoop array res shift position = some (value, pos) → position < pos := by
  intro array
  induction array with
  | nil =>
    intro res shift position value pos h
    cases h
  | cons byte array ih =>
    intro res shift position value pos h
    rw [readVlqLoop] at h
    split_ifs at h with hwide hlast
    · cases h
      exact Nat.lt_succ_self position
    · exact Nat.lt_of_succ_lt (ih h)

theorem readVlq_lt {array : List UInt8} {position value pos : Nat}
    (h : readVlq array position = some (value, pos)) : position < pos := readVlqLoop_lt h

end Sparkey
