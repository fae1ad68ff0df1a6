import Sparkey.Lib.RobinLayout

/-!
# Linear probing

Plain linear probing stores an entry in the first free slot from its home on.  Its tables
form queues like Robin Hood tables do (`Queued`), and with as many entries for each home
the queues are the same.  So the displacements have the same sum (`sum_displacements_eq`),
and no entry of a Robin Hood table is displaced further than some entry of the other
(`displacement_le`): who is stored there has waited longest, and the other queue is just
as long.
-/

namespace RobinHood

variable {α β : Type*} {c s z : Nat}

/-! ### Sums of displacements -/

section Sums

variable (c) (home : α → Nat)

/-- The displacements of the stored entries, slot by slot. -/
def displacements (t : Nat → Option α) : List Nat :=
  (List.range c).filterMap fun z => (t z).map fun a => dist c (home a) z

variable {c home} {home' : β → Nat} {t : Nat → Option α} {t' : Nat → Option β} {a : α} {d w : Nat}

theorem mem_displacements :
    d ∈ displacements c home t ↔ ∃ z < c, ∃ a, t z = some a ∧ dist c (home a) z = d := by
  simp [displacements]

theorem length_displacements : (displacements c home t).length = (entries c t).length := by
  rw [displacements, entries, List.length_filterMap_eq_countP, List.length_filterMap_eq_countP]
  exact List.countP_congr fun z _ => by simp

theorem map_dist_perm (hw : w < c) : ((List.range c).map (dist c w)).Perm (List.range c) := by
  have hnodup : ((List.range c).map (dist c w)).Nodup := by
    refine List.Nodup.map_on (fun s hs z hz h => ?_) List.nodup_range
    rw [List.mem_range] at hs hz
    unfold dist at h
    split_ifs at h <;> omega
  have hsub : (List.range c).map (dist c w) ⊆ List.range c := by
    intro d hd
    obtain ⟨s, hs, rfl⟩ := List.mem_map.mp hd
    rw [List.mem_range] at hs ⊢
    exact dist_lt hw hs
  refine (List.subperm_of_subset hnodup hsub).perm_of_length_le (Nat.le_of_eq ?_)
  rw [List.length_map]

theorem countP_dist_le (hw : w < c) (hd : d < c) :
    ((List.range c).countP fun s => dist c w s ≤ d) = d + 1 := by
  have hcount := (map_dist_perm hw).countP_eq fun e => decide (e ≤ d)
  rw [List.countP_map] at hcount
  have hsplit : List.range c = List.range (d + 1) ++ (List.range (c - (d + 1))).map (d + 1 + ·) := by
    rw [← List.range_add, Nat.add_sub_cancel' hd]
  have hfirst : (List.range (d + 1)).countP (fun e => decide (e ≤ d)) = d + 1 := by
    have hall : ∀ e ∈ List.range (d + 1), decide (e ≤ d) = true := by
      intro e he
      rw [List.mem_range] at he
      exact decide_eq_true (by omega)
    rw [List.countP_eq_length.mpr hall, List.length_range]
  have hrest : ((List.range (c - (d + 1))).map (d + 1 + ·)).countP (fun e => decide (e ≤ d)) = 0 := by
    rw [List.countP_eq_zero]
    intro e he
    obtain ⟨k, -, rfl⟩ := List.mem_map.mp he
    simp
    omega
  exact hcount.trans (by rw [hsplit, List.countP_append, hfirst, hrest])

theorem sum_countP {γ δ : Type*} (p : γ → δ → Bool) (l : List γ) : ∀ l' : List δ,
    (l.map fun x => l'.countP (p x)).sum = (l'.map fun y => l.countP fun x => p x y).sum := by
  intro l'
  induction l with
  | nil =>
    induction l' with
    | nil => rfl
    | cons y l' ih => rw [List.map_cons, List.sum_cons, ← ih]; rfl
  | cons x l ih =>
    rw [List.map_cons, List.sum_cons, ih]
    clear ih
    induction l' with
    | nil => rfl
    | cons y l' ih =>
      rw [List.map_cons, List.map_cons, List.sum_cons, List.sum_cons, ← ih, List.countP_cons,
        List.countP_cons]
      omega

/-- **The queues hold the displacements.** -/
theorem sum_passing (hhome : ∀ a, home a < c) (t : Nat → Option α) :
    ((List.range c).map (passing c home t)).sum
      = (displacements c home t).sum + (displacements c home t).length := by
  have hswap := sum_countP (fun s z => (t z).any fun a => decide (dist c (home a) s ≤ dist c (home a) z))
    (List.range c) (List.range c)
  refine Eq.trans ?_ (hswap.trans ?_)
  · rfl
  have hslots : ∀ l : List Nat, (∀ z ∈ l, z < c) →
      (l.map fun z => (List.range c).countP fun s =>
        (t z).any fun a => decide (dist c (home a) s ≤ dist c (home a) z)).sum
        = (l.filterMap fun z => (t z).map fun a => dist c (home a) z).sum
          + (l.filterMap fun z => (t z).map fun a => dist c (home a) z).length := by
    intro l
    induction l with
    | nil => exact fun _ => rfl
    | cons z l ih =>
      intro hl
      have hz := hl z List.mem_cons_self
      rw [List.map_cons, List.sum_cons, ih fun y hy => hl y (List.mem_cons_of_mem _ hy),
        List.filterMap_cons]
      cases ht : t z with
      | none => simp
      | some a =>
        have hone := countP_dist_le (hhome a) (dist_lt (hhome a) hz)
        simp only [Option.any_some, Option.map_some, List.sum_cons, List.length_cons, hone]
        omega
  exact hslots _ fun z hz => List.mem_range.mp hz

/-- **The total displacement** depends only on how many entries want each slot. -/
theorem sum_displacements_eq (hq : Queued c home t) (hq' : Queued c home' t') (hhome : ∀ a, home a < c)
    (hhome' : ∀ b, home' b < c)
    (h : ((entries c t).map home).Perm ((entries c t').map home')) :
    (displacements c home t).sum = (displacements c home' t').sum := by
  have hpass : (List.range c).map (passing c home t) = (List.range c).map (passing c home' t') :=
    List.map_congr_left fun s hs => passing_eq hq hq' hhome hhome' h s (List.mem_range.mp hs)
  have hsum := sum_passing hhome t
  have hsum' := sum_passing hhome' t'
  have hlen := h.length_eq
  rw [List.length_map, List.length_map] at hlen
  rw [hpass, length_displacements] at hsum
  rw [length_displacements] at hsum'
  omega

/-- **Nobody in a Robin Hood table is displaced further** than all entries of another table. -/
theorem displacement_le (hv : Valid c home t) (hq' : Queued c home' t') (hhome : ∀ a, home a < c)
    (hhome' : ∀ b, home' b < c)
    (h : ((entries c t).map home).Perm ((entries c t').map home')) (hd : d ∈ displacements c home t) :
    ∃ d' ∈ displacements c home' t', d ≤ d' := by
  obtain ⟨s, hs, a, ha, rfl⟩ := mem_displacements.mp hd
  have hlong := (passing_bounds hv hhome hs ha).1
  rw [passing_eq (hv.queued hhome) hq' hhome hhome' h s hs, wanting_eq h] at hlong
  by_contra hnone
  -- otherwise all that pass the slot would have joined later
  refine Nat.not_le_of_lt hlong (countAt_mono fun z hz b hb hpasses => ?_)
  simp only [decide_eq_true_eq] at hpasses ⊢
  by_contra hlate
  exact hnone ⟨_, mem_displacements.mpr ⟨z, hz, b, hb, rfl⟩, by omega⟩

end Sums

/-! ### Storing in the first free slot -/

section Probe

variable (c) (home : α → Nat)

def probe : Nat → Nat → α → (Nat → Option α) → Option (Nat → Option α)
  | 0, _, _, _ => none
  | fuel + 1, s, a, t =>
    match t s with
    | none => some (Function.update t s (some a))
    | some _ => probe fuel (next c s) a t

def probeAll : List α → (Nat → Option α) → Option (Nat → Option α)
  | [], t => some t
  | a :: rest, t => (probe c c (home a) a t).bind (probeAll rest)

variable {c home} {t t' : Nat → Option α} {a : α} {as : List α}

/-- **The first free slot** is taken. -/
theorem probe_eq (hz : z < c) (hfree : t z = none) : ∀ (fuel s : Nat), s < c → dist c s z < fuel →
    (∀ y < c, dist c s y < dist c s z → t y ≠ none) →
    probe c fuel s a t = some (Function.update t z (some a)) := by
  intro fuel
  induction fuel with
  | zero => intro s _ hlt; omega
  | succ fuel ih =>
    intro s hs hlt hfirst
    rw [probe]
    by_cases hsz : s = z
    · subst hsz
      rw [hfree]
    · have hdist := dist_of_next hs hz hsz
      have hne : t s ≠ none := hfirst s hs (by rw [dist_self]; omega)
      obtain ⟨b, hb⟩ := Option.ne_none_iff_exists'.mp hne
      rw [hb]
      refine ih (next c s) (next_lt hs) (by omega) fun y hy hlty => hfirst y hy ?_
      by_cases hsy : s = y
      · subst hsy
        rw [dist_self]
        omega
      · have := dist_of_next hs hy hsy
        omega

theorem exists_first_free (w : Nat) (h : ∃ z < c, t z = none) :
    ∃ z < c, t z = none ∧ ∀ y < c, dist c w y < dist c w z → t y ≠ none := by
  classical
  have hex : ∃ d, ∃ z < c, t z = none ∧ dist c w z = d := by
    obtain ⟨z, hz, hfree⟩ := h
    exact ⟨_, z, hz, hfree, rfl⟩
  obtain ⟨z, hz, hfree, hdist⟩ := Nat.find_spec hex
  refine ⟨z, hz, hfree, fun y hy hlt hnone => ?_⟩
  have := Nat.find_min' hex ⟨y, hy, hnone, rfl⟩
  omega

theorem passing_update (hz : z < c) (hfree : t z = none) (s : Nat) :
    passing c home (Function.update t z (some a)) s
      = passing c home t s + if dist c (home a) s ≤ dist c (home a) z then 1 else 0 := by
  have hsplit : ∀ l : List Nat, l.Nodup →
      l.countP (fun y => (Function.update t z (some a) y).any
          fun b => decide (dist c (home b) s ≤ dist c (home b) y))
        = l.countP (fun y => (t y).any fun b => decide (dist c (home b) s ≤ dist c (home b) y))
          + if z ∈ l then (if dist c (home a) s ≤ dist c (home a) z then 1 else 0) else 0 := by
    intro l
    induction l with
    | nil => exact fun _ => rfl
    | cons y l ih =>
      intro hnodup
      rw [List.nodup_cons] at hnodup
      rw [List.countP_cons, List.countP_cons, ih hnodup.2]
      by_cases hzy : z = y
      · subst hzy
        rw [if_neg hnodup.1, if_pos List.mem_cons_self, Function.update_self, hfree]
        simp
      · rw [Function.update_of_ne (Ne.symm hzy)]
        simp only [List.mem_cons, hzy, false_or]
        omega
  have h := hsplit (List.range c) List.nodup_range
  rw [if_pos (List.mem_range.mpr hz)] at h
  exact h

/-- **Storing in the first free slot** keeps the queues. -/
theorem Queued.update (hq : Queued c home t) (hhome : ∀ a, home a < c) (hz : z < c) (hfree : t z = none)
    (hfirst : ∀ y < c, dist c (home a) y < dist c (home a) z → t y ≠ none) :
    Queued c home (Function.update t z (some a)) := by
  refine ⟨fun s hs hnone => ?_, z, hz, ?_⟩
  · have hsz : s ≠ z := by
      rintro rfl
      rw [Function.update_self] at hnone
      cases hnone
    rw [Function.update_of_ne hsz] at hnone
    rw [passing_update hz hfree, hq.free s hs hnone, if_neg]
    intro hle
    rcases Nat.lt_or_eq_of_le hle with hlt | heq
    · exact hfirst s hs hlt hnone
    · have hw := hhome a
      unfold dist at heq
      split_ifs at heq <;> omega
  · rw [passing_update hz hfree, hq.free z hz hfree, if_pos (Nat.le_refl _), Nat.zero_add]

theorem queued_empty (hc : 0 < c) : Queued c home (fun _ => none) := by
  have hzero : ∀ s, passing c home (fun _ => none) s = 0 := by
    intro s
    rw [passing, countAt, List.countP_eq_zero]
    intro z _
    simp
  exact ⟨fun s _ _ => hzero s, 0, hc, by rw [hzero]; exact Nat.zero_le _⟩

/-- **Linear probing succeeds while there is room**, and its tables form queues. -/
theorem probeAll_spec (hhome : ∀ a, home a < c) : ∀ (as : List α) {t : Nat → Option α}, Queued c home t →
    (entries c t).length + as.length ≤ c →
    ∃ t', probeAll c home as t = some t' ∧ Queued c home t' ∧ (entries c t').Perm (as ++ entries c t) := by
  intro as
  induction as with
  | nil =>
    intro t hq _
    exact ⟨t, rfl, hq, .refl _⟩
  | cons a as ih =>
    intro t hq hroom
    rw [List.length_cons] at hroom
    obtain ⟨z, hz, hfree, hfirst⟩ := exists_first_free (home a) (exists_free (c := c) (t := t) (by omega))
    have hprobe : probe c c (home a) a t = some (Function.update t z (some a)) :=
      probe_eq hz hfree c (home a) (hhome a) (dist_lt (hhome a) hz) hfirst
    have hperm := entries_fill (a := a) hz hfree
    obtain ⟨t', hall, hq', hperm'⟩ := ih (hq.update hhome hz hfree hfirst) (by
      rw [hperm.length_eq, List.length_cons]
      omega)
    refine ⟨t', ?_, hq', ?_⟩
    · rw [probeAll, hprobe, Option.bind_some, hall]
    · refine hperm'.trans ((hperm.append_left as).trans ?_)
      exact List.perm_middle

end Probe

end RobinHood
