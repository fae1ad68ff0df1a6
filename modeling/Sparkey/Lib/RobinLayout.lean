import Sparkey.Lib.RobinHood

/-!
# The layout is unique

How many entries want each slot determines a valid table up to the choice among
entries that want the same one (`layout_unique`), whatever was stored and taken out
before.

Walking round the table, the entries that pass a slot form a queue: those that want
the slot join it, and one leaves to be stored there.  Two queues with the same
arrivals can never cross, and as each is empty somewhere, they are one and the same
(`passing_eq`).  The queue is first in, first out, so its length tells which entry
is stored where (`passing_bounds`).
-/

namespace RobinHood

variable {α β : Type*} {c s z : Nat}

theorem around {P : Nat → Prop} {s₀ : Nat} (hs₀ : s₀ < c) (h₀ : P s₀)
    (hstep : ∀ s < c, P s → P (next c s)) : ∀ s < c, P s := by
  intro s hs
  generalize hk : dist c s₀ s = k
  induction k generalizing s₀ with
  | zero =>
    obtain rfl : s = s₀ := (dist_eq_zero_iff hs₀).mp hk
    exact h₀
  | succ k ih =>
    have hne : s₀ ≠ s := by
      rintro rfl
      rw [dist_self] at hk
      omega
    have := dist_of_next hs₀ hs hne
    exact ih (next_lt hs₀) (hstep s₀ hs₀ h₀) (by omega)

section Counting

variable (c) (home : α → Nat)

def countAt (t : Nat → Option α) (p : α → Nat → Bool) : Nat :=
  (List.range c).countP fun z => (t z).any fun a => p a z

def passing (t : Nat → Option α) (s : Nat) : Nat :=
  countAt c t fun a z => dist c (home a) s ≤ dist c (home a) z

def wanting (t : Nat → Option α) (s d : Nat) : Nat :=
  countAt c t fun a _ => dist c (home a) s < d

variable {c home} {t : Nat → Option α} {p q : α → Nat → Bool} {a : α} {d : Nat}

theorem countAt_mono (h : ∀ z < c, ∀ a, t z = some a → p a z = true → q a z = true) :
    countAt c t p ≤ countAt c t q := by
  refine List.countP_mono_left fun z hz hp => ?_
  cases ht : t z with
  | none => simp [ht] at hp
  | some a =>
    rw [ht] at hp
    exact h z (List.mem_range.mp hz) a ht hp

theorem countAt_succ (hs : s < c) (ht : t s = some a) (hp : p a s = false)
    (hq : ∀ z < c, ∀ b, t z = some b → (q b z = true ↔ p b z = true ∨ z = s)) :
    countAt c t q = countAt c t p + 1 := by
  have hq' : countAt c t q
      = (List.range c).countP fun z => (t z).any (fun a => p a z) || z == s := by
    refine List.countP_congr fun z hz => ?_
    rw [List.mem_range] at hz
    cases htz : t z with
    | none =>
      have hne : z ≠ s := by
        rintro rfl
        rw [htz] at ht
        cases ht
      simp [hne]
    | some b => simpa using hq z hz b htz
  have hone : (List.range c).countP (fun z => z == s) = 1 := by
    have := List.nodup_iff_count_eq_one.mp List.nodup_range s (List.mem_range.mpr hs)
    rwa [List.count] at this
  rw [hq', ← hone, countAt]
  -- the two parts have nothing in common
  have hdisj : ∀ l : List Nat, l.countP (fun z => (t z).any (fun a => p a z) || z == s)
      = l.countP (fun z => (t z).any fun a => p a z) + l.countP (fun z => z == s) := by
    intro l
    induction l with
    | nil => rfl
    | cons z l ih =>
      rw [List.countP_cons, List.countP_cons, List.countP_cons, ih]
      by_cases hzs : z = s
      · subst hzs
        simp [ht, hp]
        omega
      · simp [hzs]
        omega
  exact hdisj _

theorem countAt_home (p : Nat → Bool) :
    (countAt c t fun a _ => p (home a)) = ((entries c t).map home).countP p := by
  unfold countAt entries
  rw [List.countP_map, List.countP_filterMap]
  refine List.countP_congr fun z _ => ?_
  cases t z <;> simp

theorem passing_of_none (hv : Valid c home t) (hhome : ∀ a, home a < c) (hs : s < c)
    (h : t s = none) : passing c home t s = 0 := by
  unfold passing countAt
  rw [List.countP_eq_zero]
  intro z hz
  rw [List.mem_range] at hz
  cases ht : t z with
  | none => simp
  | some a =>
    simp only [Option.any_some, decide_eq_true_eq]
    intro hle
    have hd := dist_lt (hhome a) hz
    obtain ⟨b, hb, -⟩ := hv.path (hhome a) hz ht hs (by
      have hw := hhome a
      unfold dist at *
      split_ifs at * <;> omega)
    rw [h] at hb
    cases hb

/-- **The queue is first in, first out**: the entry stored at a slot has waited longest. -/
theorem passing_bounds (hv : Valid c home t) (hhome : ∀ a, home a < c) (hs : s < c)
    (h : t s = some a) :
    wanting c home t s (dist c (home a) s) < passing c home t s ∧
      passing c home t s ≤ wanting c home t s (dist c (home a) s + 1) := by
  constructor
  · -- those that joined later, and the entry itself
    have hcount := countAt_succ (q := fun b z => decide (dist c (home b) s < dist c (home a) s) || z == s)
      (p := fun b _ => dist c (home b) s < dist c (home a) s) hs h (by simp) (by simp)
    refine Nat.lt_of_lt_of_le (Nat.lt_succ_self _) (Nat.le_trans (Nat.le_of_eq hcount.symm) ?_)
    refine countAt_mono fun z hz b hb hlt => ?_
    simp only [Bool.or_eq_true, decide_eq_true_eq, beq_iff_eq] at hlt ⊢
    rcases hlt with hlt | rfl
    · by_contra hnot
      -- an entry that joined later cannot be stored before
      have hw := hhome b
      have hwa := hhome a
      obtain ⟨x, hx, hle⟩ := hv.path hwa hs h hz (by
        unfold dist at *
        split_ifs at * <;> omega)
      rw [hb] at hx
      cases hx
      unfold dist at *
      split_ifs at * <;> omega
    · exact Nat.le_refl _
  · refine countAt_mono fun z hz b hb hle => ?_
    simp only [decide_eq_true_eq] at hle ⊢
    have hw := hhome b
    obtain ⟨x, hx, hle'⟩ := hv.path hw hz hb hs (by
      have := dist_lt hw hz
      unfold dist at *
      split_ifs at * <;> omega)
    rw [h] at hx
    cases hx
    omega

/-- **The queue from slot to slot**: one entry stays, and those that want the next slot join. -/
theorem passing_next (hfree : t s = none → passing c home t s = 0) (hhome : ∀ a, home a < c)
    (hs : s < c) :
    passing c home t (next c s)
      = wanting c home t (next c s) 1 + (passing c home t s - 1) := by
  have hsplit : ∀ l : List Nat, (∀ z ∈ l, z < c) →
      l.countP (fun z => (t z).any fun a => dist c (home a) (next c s) ≤ dist c (home a) z)
        = l.countP (fun z => (t z).any fun a => dist c (home a) (next c s) < 1)
          + l.countP (fun z => (t z).any fun a => dist c (home a) s < dist c (home a) z) := by
    intro l
    induction l with
    | nil => exact fun _ => rfl
    | cons z l ih =>
      intro hl
      have hz := hl z List.mem_cons_self
      rw [List.countP_cons, List.countP_cons, List.countP_cons,
        ih fun y hy => hl y (List.mem_cons_of_mem _ hy)]
      cases ht : t z with
      | none => simp
      | some a =>
        have hw := hhome a
        have hd := dist_lt hw hz
        simp only [Option.any_some, decide_eq_true_eq]
        by_cases hhere : home a = next c s
        · have h0 : dist c (home a) (next c s) = 0 := (dist_eq_zero_iff hw).mpr hhere.symm
          have hfar : ¬ dist c (home a) s < dist c (home a) z := by
            rw [hhere] at hd ⊢
            unfold dist next at *
            split_ifs at * <;> omega
          rw [if_pos (by omega), if_pos (by omega), if_neg hfar]
          omega
        · have hstep := dist_next hw hs fun h => hhere h.symm
          have h0 : ¬ dist c (home a) (next c s) < 1 := by omega
          rw [if_neg h0, hstep]
          by_cases hlt : dist c (home a) s < dist c (home a) z
          · rw [if_pos (by omega), if_pos hlt]
            omega
          · rw [if_neg (by omega), if_neg hlt]
            omega
  have hrest : (List.range c).countP
      (fun z => (t z).any fun a => dist c (home a) s < dist c (home a) z)
        = passing c home t s - 1 := by
    cases ht : t s with
    | none =>
      rw [hfree ht]
      have hle : (List.range c).countP
          (fun z => (t z).any fun a => dist c (home a) s < dist c (home a) z)
            ≤ passing c home t s :=
        countAt_mono (p := fun a z => decide (dist c (home a) s < dist c (home a) z))
          fun z _ a _ hp => by
            simp only [decide_eq_true_eq] at hp ⊢
            exact Nat.le_of_lt hp
      rw [hfree ht] at hle
      omega
    | some a =>
      have hcount := countAt_succ
        (q := fun b z => decide (dist c (home b) s ≤ dist c (home b) z))
        (p := fun b z => dist c (home b) s < dist c (home b) z) hs ht (by simp) (by
          intro z hz b hb
          have hw := hhome b
          simp only [decide_eq_true_eq]
          constructor
          · intro hle
            rcases Nat.lt_or_eq_of_le hle with hlt | heq
            · exact Or.inl hlt
            · right
              unfold dist at heq
              split_ifs at heq <;> omega
          · rintro (hlt | rfl)
            · exact Nat.le_of_lt hlt
            · exact Nat.le_refl _)
      have : passing c home t s = _ := hcount
      rw [this, Nat.add_sub_cancel]
      rfl
  rw [← hrest]
  exact hsplit _ fun z hz => List.mem_range.mp hz

/-- **The entries form a queue**: nobody passes a free slot, and somewhere the queue is empty once its
first entry has left. -/
structure Queued (c : Nat) (home : α → Nat) (t : Nat → Option α) : Prop where
  free : ∀ s < c, t s = none → passing c home t s = 0
  exists_le : ∃ s < c, passing c home t s ≤ 1

theorem Valid.queued (hv : Valid c home t) (hhome : ∀ a, home a < c) : Queued c home t := by
  have hfree : ∀ s < c, t s = none → passing c home t s = 0 := fun s hs =>
    passing_of_none hv hhome hs
  refine ⟨hfree, ?_⟩
  obtain ⟨s, hs, hrank⟩ := hv.exists_rank_le
  cases ht : t s with
  | none => exact ⟨s, hs, by rw [hfree s hs ht]; omega⟩
  | some a =>
    rw [rank_of_some ht] at hrank
    obtain ⟨p, hp, rfl⟩ := exists_prev hs
    have hle := (passing_bounds hv hhome hs ht).2
    have hstep := passing_next (hfree p hp) hhome hp
    rw [show dist c (home a) (next c p) = 0 by omega, Nat.zero_add] at hle
    exact ⟨p, hp, by omega⟩

end Counting

section Unique

variable {home : α → Nat} {home' : β → Nat} {t : Nat → Option α} {t' : Nat → Option β}

theorem wanting_eq (h : ((entries c t).map home).Perm ((entries c t').map home')) (s d : Nat) :
    wanting c home t s d = wanting c home' t' s d := by
  have h₁ : wanting c home t s d = _ := countAt_home fun w => dist c w s < d
  have h₂ : wanting c home' t' s d = _ := countAt_home fun w => dist c w s < d
  exact h₁.trans ((h.countP_eq _).trans h₂.symm)

/-- **Two queues with the same arrivals are the same.** -/
theorem passing_eq (hq : Queued c home t) (hq' : Queued c home' t') (hhome : ∀ a, home a < c)
    (hhome' : ∀ b, home' b < c)
    (h : ((entries c t).map home).Perm ((entries c t').map home')) :
    ∀ s < c, passing c home t s = passing c home' t' s := by
  obtain ⟨z, hz, hle⟩ := hq.exists_le
  obtain ⟨z', hz', hle'⟩ := hq'.exists_le
  have hnext : ∀ s < c, passing c home t (next c s)
      = wanting c home' t' (next c s) 1 + (passing c home t s - 1) := fun s hs => by
    rw [← wanting_eq h]
    exact passing_next (hq.free s hs) hhome hs
  have hnext' := fun s (hs : s < c) => passing_next (hq'.free s hs) hhome' hs
  -- where they meet they stay together
  have hmeet : ∀ s < c, passing c home t s - 1 = passing c home' t' s - 1 →
      ∀ s < c, passing c home t s = passing c home' t' s := by
    intro s hs heq
    refine around (next_lt hs) ?_ fun s hs ih => ?_
    · rw [hnext s hs, hnext' s hs, heq]
    · rw [hnext s hs, hnext' s hs, ih]
  rcases Nat.le_total (passing c home t z) (passing c home' t' z) with hcmp | hcmp
  · have hall : ∀ s < c, passing c home t s ≤ passing c home' t' s :=
      around hz hcmp fun s hs ih => by
        rw [hnext s hs, hnext' s hs]
        omega
    have := hall z' hz'
    exact hmeet z' hz' (by omega)
  · exact hmeet z hz (by omega)

/-- **The layout is unique**: if as many entries want each slot in one table as in the other, a slot
is free in both or holds entries that want the same slot. -/
theorem layout_unique (hv : Valid c home t) (hv' : Valid c home' t') (hhome : ∀ a, home a < c)
    (hhome' : ∀ b, home' b < c)
    (h : ((entries c t).map home).Perm ((entries c t').map home')) :
    ∀ s < c, (t s).map home = (t' s).map home' := by
  intro s hs
  have hpass := passing_eq (hv.queued hhome) (hv'.queued hhome') hhome hhome' h s hs
  cases ht : t s with
  | none =>
    cases ht' : t' s with
    | none => rfl
    | some b =>
      have := (passing_bounds hv' hhome' hs ht').1
      rw [passing_of_none hv hhome hs ht] at hpass
      omega
  | some a =>
    have hb := passing_bounds hv hhome hs ht
    cases ht' : t' s with
    | none =>
      rw [passing_of_none hv' hhome' hs ht'] at hpass
      omega
    | some b =>
      have hb' := passing_bounds hv' hhome' hs ht'
      rw [wanting_eq h, wanting_eq h] at hb
      -- the one that has waited longer would have been stored
      have hmono : ∀ {d d' : Nat}, d ≤ d' → wanting c home' t' s d ≤ wanting c home' t' s d' :=
        fun hdd => countAt_mono fun _ _ _ _ hp => by
          simp only [decide_eq_true_eq] at hp ⊢
          omega
      have hdist : dist c (home a) s = dist c (home' b) s := by
        rcases Nat.lt_trichotomy (dist c (home a) s) (dist c (home' b) s) with hlt | heq | hlt
        · have := hmono (show dist c (home a) s + 1 ≤ _ from hlt)
          omega
        · exact heq
        · have := hmono (show dist c (home' b) s + 1 ≤ _ from hlt)
          omega
      have hw := hhome a
      have hw' := hhome' b
      have : home a = home' b := by
        unfold dist at hdist
        split_ifs at hdist <;> omega
      rw [Option.map_some, Option.map_some, this]

end Unique

end RobinHood
