import Mathlib

/-!
# One list cut in two ways

A list may be cut into pieces in two ways, into blocks and into items for instance.
`start ps i` is where the `i`th piece starts, `Within bs a b` says that what lies between
`a` and `b` lies in one block, and `startsIn bs ps j` is the number of pieces that start
in block `j`.  What is laid behind a whole number of both moves along with them
(`Within.append_right`, `startsIn_append_right`).
-/

namespace Tiling

universe u

variable {α : Type u}

def start (ps : List (List α)) (i : Nat) : Nat := (ps.take i).flatten.length

def Within (bs : List (List α)) (a b : Nat) : Prop :=
  ∃ j < bs.length, start bs j ≤ a ∧ b ≤ start bs (j + 1)

def startsIn (bs ps : List (List α)) (j : Nat) : Nat :=
  (List.range ps.length).countP fun i => start bs j ≤ start ps i ∧ start ps i < start bs (j + 1)

variable {bs cs ps qs : List (List α)} {a b i j : Nat}

@[simp] theorem start_zero : start ps 0 = 0 := rfl

theorem start_of_le (h : ps.length ≤ i) : start ps i = ps.flatten.length := by
  rw [start, List.take_of_length_le h]

theorem start_length : start ps ps.length = ps.flatten.length := start_of_le (Nat.le_refl _)

theorem start_succ {p : List α} (h : ps[i]? = some p) : start ps (i + 1) = start ps i + p.length := by
  rw [start, start, List.take_add_one, h, Option.toList_some, List.flatten_append, List.length_append,
    List.flatten_singleton]

theorem start_le_succ : start ps i ≤ start ps (i + 1) := by
  cases h : ps[i]? with
  | some p =>
    rw [start_succ h]
    exact Nat.le_add_right _ _
  | none =>
    have hle : ps.length ≤ i := List.getElem?_eq_none_iff.mp h
    refine Nat.le_of_eq ?_
    rw [start_of_le hle, start_of_le (Nat.le_succ_of_le hle)]

theorem start_mono (h : i ≤ j) : start ps i ≤ start ps j := by
  induction h with
  | refl => exact Nat.le_refl _
  | step _ ih => exact Nat.le_trans ih start_le_succ

theorem start_le_length : start ps i ≤ ps.flatten.length := by
  rcases Nat.le_total ps.length i with hle | hle
  · exact Nat.le_of_eq (start_of_le hle)
  · rw [← start_length]
    exact start_mono hle

theorem start_append_left (h : i ≤ ps.length) : start (ps ++ qs) i = start ps i := by
  rw [start, List.take_append_of_le_length h, start]

theorem start_append_right : start (ps ++ qs) (ps.length + i) = ps.flatten.length + start qs i := by
  rw [start, List.take_length_add_append, List.flatten_append, List.length_append, start]

theorem start_lt_start (hne : ∀ p ∈ ps, p ≠ []) (hij : i < j) (h : i < ps.length) :
    start ps i < start ps j := by
  have hp : ps[i]? = some ps[i] := List.getElem?_eq_getElem h
  have hpos : 0 < ps[i].length := List.length_pos_iff.mpr (hne _ (List.getElem_mem h))
  have hle : start ps (i + 1) ≤ start ps j := start_mono hij
  rw [start_succ hp] at hle
  omega

theorem start_lt (hne : ∀ p ∈ ps, p ≠ []) (h : i < ps.length) : start ps i < ps.flatten.length := by
  exact Nat.lt_of_lt_of_le (start_lt_start hne h h) (Nat.le_of_eq start_length)

/-! ### One behind the other -/

theorem Within.append_left (h : Within bs a b) : Within (bs ++ cs) a b := by
  obtain ⟨j, hj, ha, hb⟩ := h
  refine ⟨j, by rw [List.length_append]; omega, ?_, ?_⟩
  · rwa [start_append_left (Nat.le_of_lt hj)]
  · rwa [start_append_left hj]

theorem Within.append_right (h : Within cs a b) :
    Within (bs ++ cs) (bs.flatten.length + a) (bs.flatten.length + b) := by
  obtain ⟨j, hj, ha, hb⟩ := h
  refine ⟨bs.length + j, by rw [List.length_append]; omega, ?_, ?_⟩
  · rw [start_append_right]
    omega
  · rw [Nat.add_assoc, start_append_right]
    omega

theorem startsIn_le : startsIn bs ps j ≤ ps.length := by
  have h := List.countP_le_length (l := List.range ps.length)
    (p := fun i => start bs j ≤ start ps i ∧ start ps i < start bs (j + 1))
  rwa [List.length_range] at h

theorem startsIn_eq (bs ps qs : List (List α)) (j : Nat) : startsIn bs (ps ++ qs) j
    = (List.range ps.length).countP (fun i => start bs j ≤ start ps i ∧ start ps i < start bs (j + 1))
      + (List.range qs.length).countP (fun i => start bs j ≤ ps.flatten.length + start qs i ∧
          ps.flatten.length + start qs i < start bs (j + 1)) := by
  rw [startsIn, List.length_append, List.range_add, List.countP_append, List.countP_map]
  congr 1
  · refine List.countP_congr fun i hi => ?_
    rw [start_append_left (Nat.le_of_lt (List.mem_range.mp hi))]
  · refine List.countP_congr fun i _ => ?_
    rw [Function.comp_apply, start_append_right]

theorem startsIn_append_left (hflat : bs.flatten = ps.flatten) (hj : j < bs.length) :
    startsIn (bs ++ cs) (ps ++ qs) j = startsIn bs ps j := by
  have hle : start bs (j + 1) ≤ ps.flatten.length := hflat ▸ start_le_length
  have hnext : start (bs ++ cs) (j + 1) = start bs (j + 1) := start_append_left hj
  rw [startsIn_eq, start_append_left (Nat.le_of_lt hj), hnext, startsIn, Nat.add_eq_left,
    List.countP_eq_zero]
  intro i _
  rw [decide_eq_true_iff]
  omega

theorem startsIn_append_right (hflat : bs.flatten = ps.flatten) (hne : ∀ p ∈ ps, p ≠ []) :
    startsIn (bs ++ cs) (ps ++ qs) (bs.length + j) = startsIn cs qs j := by
  have hnext : start (bs ++ cs) (bs.length + j + 1) = ps.flatten.length + start cs (j + 1) := by
    rw [Nat.add_assoc, start_append_right, hflat]
  rw [startsIn_eq, hnext, start_append_right, hflat, startsIn]
  have hzero : (List.range ps.length).countP (fun i => decide
      (ps.flatten.length + start cs j ≤ start ps i ∧
        start ps i < ps.flatten.length + start cs (j + 1))) = 0 := by
    rw [List.countP_eq_zero]
    intro i hi
    have := start_lt hne (List.mem_range.mp hi)
    rw [decide_eq_true_iff]
    omega
  rw [hzero, Nat.zero_add]
  refine List.countP_congr fun i _ => ?_
  rw [decide_eq_true_iff, decide_eq_true_iff]
  omega

end Tiling
