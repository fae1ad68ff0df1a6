import Mathlib

/-!
# Strings in memory

Memory is a list of bytes, and a string in it goes from a position up to the next zero.  `strcspn`
and `strtok` are the functions of the C library for a single character, and `fgetsBytes` is what
`fgets` takes from a stream.  Each has a rule for memory that is written out around the place it
looks at (`strcspn_eq`, `strtok_eq`, `strtok_eq_none`).
-/

namespace CString

/-! ### Looking at strings -/

/-- How many bytes from a position on satisfy a condition, up to the end of the string. -/
def span (p : UInt8 → Bool) (mem : List UInt8) (pos : Nat) : Nat :=
  ((mem.drop pos).takeWhile fun c => c ≠ 0 && p c).length

def strcspn (reject : UInt8) (mem : List UInt8) (pos : Nat) : Nat := span (· ≠ reject) mem pos

def str (mem : List UInt8) (pos : Nat) : Option (List UInt8) :=
  let bytes := (mem.drop pos).takeWhile (· ≠ 0)
  if pos + bytes.length < mem.length then some bytes else none

/-- `strtok` for one character, at a position: where the token begins, if there is one, the memory
behind the call, and where the next call goes on.  There is no result if the string does not end. -/
def strtok (delim : UInt8) (mem : List UInt8) (pos : Nat) : Option (Option Nat × List UInt8 × Nat) :=
  let start := pos + span (· = delim) mem pos
  match mem[start]? with
  | none => none
  | some c =>
    if c = 0 then some (none, mem, start)
    else
      let stop := start + span (· ≠ delim) mem start
      match mem[stop]? with
      | none => none
      | some c =>
        if c = 0 then some (some start, mem, stop)
        else some (some start, mem.set stop 0, stop + 1)

variable {p : UInt8 → Bool} {c reject delim : UInt8} {pre run post token skipped : List UInt8}

theorem span_eq (hrun : ∀ b ∈ run, b ≠ 0 ∧ p b = true) (hc : c = 0 ∨ p c = false) :
    span p (pre ++ run ++ c :: post) pre.length = run.length := by
  rw [span, List.append_assoc, List.drop_left, List.takeWhile_append_of_pos, List.takeWhile_cons_of_neg,
    List.append_nil]
  · rcases hc with rfl | hc
    · simp
    · simp [hc]
  · intro b hb
    simpa using hrun b hb

theorem getElem?_at (pre : List UInt8) (c : UInt8) (post : List UInt8) :
    (pre ++ c :: post)[pre.length]? = some c := by
  rw [List.getElem?_append_right (Nat.le_refl _), Nat.sub_self]
  rfl

theorem strcspn_eq (hrun : ∀ b ∈ run, b ≠ 0 ∧ b ≠ reject) (hc : c = 0 ∨ c = reject) :
    strcspn reject (pre ++ run ++ c :: post) pre.length = run.length := by
  refine span_eq (fun b hb => ?_) (hc.imp_right fun h => ?_)
  · simpa using hrun b hb
  · simpa using h

theorem str_eq {mem : List UInt8} (hmem : mem = pre ++ run ++ 0 :: post) (hrun : ∀ b ∈ run, b ≠ 0) :
    str mem pre.length = some run := by
  subst hmem
  have hbytes : ((pre ++ run ++ 0 :: post).drop pre.length).takeWhile (· ≠ 0) = run := by
    rw [List.append_assoc, List.drop_left, List.takeWhile_append_of_pos, List.takeWhile_cons_of_neg,
      List.append_nil]
    · simp
    · intro b hb
      simpa using hrun b hb
  rw [str]
  simp only [hbytes]
  rw [if_pos]
  simp

/-- **A token** behind some delimiters, and in front of one or at the end of the string. -/
theorem strtok_eq (delim : UInt8) {mem : List UInt8} (hmem : mem = pre ++ skipped ++ token ++ c :: post)
    (hskip : ∀ b ∈ skipped, b ≠ 0 ∧ b = delim) (htoken : ∀ b ∈ token, b ≠ 0 ∧ b ≠ delim)
    (hne : token ≠ []) (hc : c = 0 ∨ c = delim) :
    strtok delim mem pre.length =
      some (some (pre ++ skipped).length, pre ++ skipped ++ token ++ 0 :: post,
        (pre ++ skipped ++ token).length + if c = 0 then 0 else 1) := by
  subst hmem
  obtain ⟨b, rest, rfl⟩ := List.exists_cons_of_ne_nil hne
  have hb := htoken b List.mem_cons_self
  have hstart : span (· = delim) (pre ++ skipped ++ (b :: rest) ++ c :: post) pre.length =
      skipped.length := by
    rw [List.append_assoc, List.cons_append]
    refine span_eq (fun x hx => ?_) (Or.inr (by simpa using hb.2))
    simpa using hskip x hx
  have hfirst : (pre ++ skipped ++ (b :: rest) ++ c :: post)[pre.length + skipped.length]? =
      some b := by
    rw [← List.length_append, List.append_assoc, List.cons_append]
    exact getElem?_at _ _ _
  have hstop : span (· ≠ delim) (pre ++ skipped ++ (b :: rest) ++ c :: post)
      (pre.length + skipped.length) = (b :: rest).length := by
    rw [← List.length_append]
    refine span_eq (fun x hx => ?_) (hc.imp_right fun h => by simpa using h)
    simpa using htoken x hx
  have hend : (pre ++ skipped ++ (b :: rest) ++ c :: post)[pre.length + skipped.length +
      (b :: rest).length]? = some c := by
    rw [← List.length_append, ← List.length_append]
    exact getElem?_at _ _ _
  rw [strtok]
  simp only [hstart, hfirst, hstop, hend, if_neg hb.1]
  rw [← List.length_append, ← List.length_append]
  by_cases hzero : c = 0
  · rw [if_pos hzero, if_pos hzero, hzero, Nat.add_zero]
  · rw [if_neg hzero, if_neg hzero, List.set_append_right _ _ (Nat.le_refl _), Nat.sub_self]
    rfl

theorem strtok_eq_none (delim : UInt8) {mem : List UInt8} (hmem : mem = pre ++ skipped ++ 0 :: post)
    (hskip : ∀ b ∈ skipped, b ≠ 0 ∧ b = delim) :
    strtok delim mem pre.length = some (none, mem, (pre ++ skipped).length) := by
  subst hmem
  have hstart : span (· = delim) (pre ++ skipped ++ 0 :: post) pre.length = skipped.length :=
    span_eq (fun x hx => by simpa using hskip x hx) (Or.inl rfl)
  have hfirst : (pre ++ skipped ++ 0 :: post)[pre.length + skipped.length]? = some 0 := by
    rw [← List.length_append]
    exact getElem?_at _ _ _
  rw [strtok]
  simp only [hstart, hfirst, if_true, List.length_append]

/-! ### Storing and reading -/

def store (mem : List UInt8) (pos : Nat) (bytes : List UInt8) : List UInt8 :=
  mem.take pos ++ bytes ++ mem.drop (pos + bytes.length)

/-- The bytes that `fgets` takes from a stream into room for `size`: it stops behind a newline, and
leaves room for the zero. -/
def fgetsBytes : Nat → List UInt8 → List UInt8
  | 0, _ => []
  | _, [] => []
  | n + 1, b :: bs => if b = 10 then [b] else b :: fgetsBytes n bs

theorem fgetsBytes_line {line rest : List UInt8} {n : Nat} (hline : 10 ∉ line) (hn : line.length < n) :
    fgetsBytes n (line ++ 10 :: rest) = line ++ [10] := by
  induction line generalizing n with
  | nil =>
    obtain ⟨n, rfl⟩ := Nat.exists_eq_succ_of_ne_zero (Nat.ne_zero_of_lt hn)
    rfl
  | cons b line ih =>
    obtain ⟨n, rfl⟩ := Nat.exists_eq_succ_of_ne_zero (Nat.ne_zero_of_lt hn)
    have hb : b ≠ 10 := fun h => hline (h ▸ List.mem_cons_self)
    rw [List.cons_append, fgetsBytes, if_neg hb, ih (fun h => hline (List.mem_cons_of_mem _ h))
      (Nat.lt_of_succ_lt_succ hn), List.cons_append]

theorem fgetsBytes_part {part rest : List UInt8} {n : Nat} (hpart : 10 ∉ part)
    (hn : part.length = n ∨ part.length ≤ n ∧ rest = []) : fgetsBytes n (part ++ rest) = part := by
  induction part generalizing n with
  | nil =>
    rcases hn with rfl | ⟨-, rfl⟩
    · rfl
    · cases n <;> rfl
  | cons b part ih =>
    have hb : b ≠ 10 := fun h => hpart (h ▸ List.mem_cons_self)
    obtain ⟨n, rfl⟩ := Nat.exists_eq_succ_of_ne_zero (show n ≠ 0 by
      rw [List.length_cons] at hn
      omega)
    rw [List.cons_append, fgetsBytes, if_neg hb, ih (fun h => hpart (List.mem_cons_of_mem _ h))]
    rw [List.length_cons] at hn
    exact hn.imp Nat.succ.inj (And.imp_left Nat.le_of_succ_le_succ)

end CString
