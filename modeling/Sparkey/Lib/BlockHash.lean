import Mathlib

/-!
# Hashing in blocks

A hash function that goes through its input in blocks of a fixed width keeps a state, mixes every
whole block into it, and then what is left (`Absorber`).  If neither kind of step forgets anything
(`Absorber.Faithful`), the state behind the input still tells the state in front of it apart
(`absorb_injective`), and tells apart inputs that differ in a single place between two blocks
(`absorb_eq_iff`).

The steps are made of operations on words that forget nothing: to shift a word and add it to itself
by `xor`, to rotate it, and to multiply it by an odd constant.
-/

namespace BlockHash

/-! ### Operations on words -/

section Words

variable {w : Nat}

def xorShift (k : Nat) (x : BitVec w) : BitVec w := x ^^^ (x >>> k)

def rotl (x : BitVec w) (r : Nat) : BitVec w := (x <<< r) ||| (x >>> (w - r))

theorem xorShift_injective {k : Nat} (hk : 0 < k) :
    Function.Injective (xorShift k : BitVec w → BitVec w) := by
  intro x y h
  -- the highest bits stay, and give away the ones below
  have hbits : ∀ n i, w ≤ i + n → x.getLsbD i = y.getLsbD i := by
    intro n
    induction n with
    | zero =>
      intro i hi
      rw [BitVec.getLsbD_of_ge x i hi, BitVec.getLsbD_of_ge y i hi]
    | succ n ih =>
      intro i hi
      have hhigh := ih (k + i) (by omega)
      have hbit := congrArg (fun z => z.getLsbD i) h
      simp only [xorShift, BitVec.getLsbD_xor, BitVec.getLsbD_ushiftRight, hhigh] at hbit
      exact Bool.xor_left_inj.mp hbit
  exact BitVec.eq_of_getLsbD_eq fun i _ => hbits w i (Nat.le_add_left _ _)

theorem getLsbD_rotl {r i : Nat} (hi : i < w) (x : BitVec w) :
    (rotl x r).getLsbD i = if i < r then x.getLsbD (w - r + i) else x.getLsbD (i - r) := by
  rw [rotl, BitVec.getLsbD_or, BitVec.getLsbD_shiftLeft, BitVec.getLsbD_ushiftRight]
  by_cases hc : i < r
  · simp [hc]
  · rw [BitVec.getLsbD_of_ge x (w - r + i) (by omega)]
    simp [hc, hi]

theorem rotl_injective {r : Nat} (hr : r ≤ w) :
    Function.Injective fun x : BitVec w => rotl x r := by
  intro x y h
  apply BitVec.eq_of_getLsbD_eq
  intro i hi
  by_cases hc : i + r < w
  · have hbit := congrArg (fun z => z.getLsbD (i + r)) h
    simp only [getLsbD_rotl hc] at hbit
    rwa [if_neg (by omega), if_neg (by omega), Nat.add_sub_cancel] at hbit
  · have hbit := congrArg (fun z => z.getLsbD (i - (w - r))) h
    simp only [getLsbD_rotl (show i - (w - r) < w by omega)] at hbit
    rwa [if_pos (by omega), if_pos (by omega), Nat.add_sub_cancel' (by omega)] at hbit

theorem mul_injective {c c' : BitVec w} (h : c * c' = 1) : Function.Injective fun x => x * c := by
  intro x y hxy
  have hundo := congrArg (· * c') hxy
  simpa [BitVec.mul_assoc, h] using hundo

theorem mul_add_injective {c c' : BitVec w} (h : c * c' = 1) (e : BitVec w) :
    Function.Injective fun x => x * c + e :=
  (add_left_injective e).comp (mul_injective h)

/-- Bytes at their places in a word, from the byte with number `i` on. -/
def wordFrom (w : Nat) : Nat → List UInt8 → BitVec w
  | _, [] => 0
  | i, b :: bs => wordFrom w (i + 1) bs ^^^ (b.toBitVec.setWidth w <<< (8 * i))

theorem getLsbD_wordFrom_of_lt (bs : List UInt8) {i j : Nat} (h : j < 8 * i) :
    (wordFrom w i bs).getLsbD j = false := by
  induction bs generalizing i with
  | nil => simp [wordFrom]
  | cons b bs ih => simp [wordFrom, ih (show j < 8 * (i + 1) by omega), h]

theorem wordFrom_injective {bs cs : List UInt8} {i : Nat} (hlen : bs.length = cs.length)
    (hfit : 8 * (i + bs.length) ≤ w) (h : wordFrom w i bs = wordFrom w i cs) : bs = cs := by
  induction bs generalizing cs i with
  | nil => exact (List.length_eq_zero_iff.mp hlen.symm).symm
  | cons b bs ih =>
    cases cs with
    | nil => cases hlen
    | cons c cs =>
      simp only [List.length_cons] at hlen hfit
      have hbc : b = c := by
        apply UInt8.toBitVec_inj.mp
        apply BitVec.eq_of_getLsbD_eq
        intro j hj
        have hbit := congrArg (fun z => z.getLsbD (8 * i + j)) h
        have hlow : 8 * i + j < 8 * (i + 1) := by omega
        simp only [wordFrom, BitVec.getLsbD_xor, getLsbD_wordFrom_of_lt _ hlow,
          BitVec.getLsbD_shiftLeft, BitVec.getLsbD_setWidth] at hbit
        simpa [show 8 * i + j < w by omega, show j < w by omega] using hbit
      subst hbc
      have hrest : wordFrom w (i + 1) bs = wordFrom w (i + 1) cs := by
        simpa [wordFrom, BitVec.xor_left_inj] using h
      rw [ih (Nat.succ.inj hlen) (by omega) hrest]

end Words

/-! ### Absorbing an input -/

/-- How a block, and how what is left behind the blocks, goes into the state. -/
structure Absorber (σ : Type) where
  width : Nat
  width_pos : 0 < width
  round : σ → List UInt8 → σ
  tail : σ → List UInt8 → σ

variable {σ : Type} (A : Absorber σ) {data x y pre post : List UInt8} {s s' : σ}

def Absorber.block (data : List UInt8) (i : Nat) : List UInt8 := (data.drop (A.width * i)).take A.width

def Absorber.body (data : List UInt8) (nblocks : Nat) (s : σ) : σ :=
  (List.range nblocks).foldl (fun s i => A.round s (A.block data i)) s

def Absorber.absorb (data : List UInt8) (s : σ) : σ :=
  A.tail (A.body data (data.length / A.width) s) (data.drop (data.length / A.width * A.width))

/-- No step forgets the state in front of it, or what goes into it. -/
structure Absorber.Faithful : Prop where
  round_state : ∀ x, x.length = A.width → Function.Injective fun s => A.round s x
  round_block : ∀ s x y, x.length = A.width → y.length = A.width → A.round s x = A.round s y → x = y
  tail_state : ∀ x, x.length < A.width → Function.Injective fun s => A.tail s x
  tail_block : ∀ s x y, x.length < A.width → x.length = y.length → A.tail s x = A.tail s y → x = y

variable {A}

theorem absorb_of_lt (h : data.length < A.width) : A.absorb data s = A.tail s data := by
  rw [Absorber.absorb, Nat.div_eq_of_lt h, Nat.zero_mul, List.drop_zero]
  rfl

theorem absorb_append (h : x.length = A.width) :
    A.absorb (x ++ data) s = A.absorb data (A.round s x) := by
  have hblocks : (x ++ data).length / A.width = data.length / A.width + 1 := by
    rw [List.length_append, h, Nat.add_comm, Nat.add_div_right _ A.width_pos]
  have hbody : A.body (x ++ data) (data.length / A.width + 1) s =
      A.body data (data.length / A.width) (A.round s x) := by
    rw [Absorber.body, List.range_succ_eq_map, List.foldl_cons, List.foldl_map, Absorber.body]
    have hfirst : A.block (x ++ data) 0 = x := by
      rw [Absorber.block, Nat.mul_zero, List.drop_zero, ← h, List.take_left]
    have hnext : ∀ i, A.block (x ++ data) (i + 1) = A.block data i := by
      intro i
      rw [Absorber.block, Nat.mul_succ, Nat.add_comm, ← List.drop_drop, ← h, List.drop_left, h]
      rfl
    simp only [hfirst, hnext]
  have hrest : (x ++ data).drop ((data.length / A.width + 1) * A.width) =
      data.drop (data.length / A.width * A.width) := by
    rw [Nat.succ_mul, Nat.add_comm, ← List.drop_drop, ← h, List.drop_left]
  rw [Absorber.absorb, hblocks, hbody, hrest, Absorber.absorb]

theorem induction_blocks (A : Absorber σ) {motive : List UInt8 → Prop}
    (short : ∀ data, data.length < A.width → motive data)
    (block : ∀ x data, x.length = A.width → motive data → motive (x ++ data)) (data : List UInt8) :
    motive data := by
  induction hn : data.length using Nat.strongRecOn generalizing data with
  | ind n ih =>
    rcases Nat.lt_or_ge data.length A.width with hlt | hge
    · exact short data hlt
    · rw [← List.take_append_drop A.width data]
      refine block _ _ (List.length_take_of_le hge) (ih _ ?_ _ rfl)
      have := A.width_pos
      rw [List.length_drop]
      omega

/-- **The state in front of an input** can be told from the one behind it. -/
theorem absorb_injective (hA : A.Faithful) (data : List UInt8) :
    Function.Injective fun s => A.absorb data s := by
  induction data using induction_blocks A with
  | short data h =>
    simp only [absorb_of_lt h]
    exact hA.tail_state data h
  | block x data h ih =>
    simp only [absorb_append h]
    exact ih.comp (hA.round_state x h)

/-- A place in an input: a whole block, or what is left behind the blocks. -/
structure Absorber.Place (A : Absorber σ) (pre x y post : List UInt8) : Prop where
  aligned : A.width ∣ pre.length
  length_eq : x.length = y.length
  whole : x.length = A.width ∨ x.length < A.width ∧ post = []

theorem Absorber.Place.length (hp : A.Place pre x y post) :
    (pre ++ x ++ post).length = (pre ++ y ++ post).length := by
  simp only [List.length_append, hp.length_eq]

/-- **Inputs that differ in one place** lead to different states. -/
theorem absorb_eq_iff (hA : A.Faithful) (hp : A.Place pre x y post) :
    A.absorb (pre ++ x ++ post) s = A.absorb (pre ++ y ++ post) s ↔ x = y := by
  refine ⟨fun h => ?_, fun h => by rw [h]⟩
  obtain ⟨⟨n, hn⟩, hlen, hwhole⟩ := hp
  rw [List.append_assoc, List.append_assoc] at h
  -- the blocks in front are the same, and leave the same state
  induction n generalizing pre s with
  | zero =>
    obtain rfl := List.length_eq_zero_iff.mp (hn.trans (Nat.mul_zero _))
    rw [List.nil_append, List.nil_append] at h
    rcases hwhole with hx | ⟨hx, rfl⟩
    · rw [absorb_append hx, absorb_append (hlen ▸ hx)] at h
      exact hA.round_block s x y hx (hlen ▸ hx) (absorb_injective hA post h)
    · rw [List.append_nil, List.append_nil, absorb_of_lt hx, absorb_of_lt (hlen ▸ hx)] at h
      exact hA.tail_block s x y hx hlen h
  | succ n ih =>
    have hge : A.width ≤ pre.length := by
      rw [hn, Nat.mul_succ]
      exact Nat.le_add_left _ _
    have hfirst : (pre.take A.width).length = A.width := List.length_take_of_le hge
    have hrest : (pre.drop A.width).length = A.width * n := by
      rw [List.length_drop, hn, Nat.mul_succ, Nat.add_sub_cancel]
    rw [← List.take_append_drop A.width pre, List.append_assoc, List.append_assoc,
      absorb_append hfirst, absorb_append hfirst] at h
    exact ih h hrest

end BlockHash
