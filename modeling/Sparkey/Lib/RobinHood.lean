import Mathlib

/-!
# Robin Hood hashing with backward-shift deletion

A table of capacity `c` is a function from slots to stored entries; only the
slots below `c` count.  Every entry `a` has a home slot `home a`, and the
*displacement* of an entry is how far past its home it sits, cyclically.

The theory rests on one number per slot: `rank t s` is `0` on an empty slot and
one more than the displacement on an occupied one.  A table is `Valid` when the
rank grows by at most one from a slot to the next and some slot has rank at
most one.  That is the whole Robin Hood invariant: an entry with a positive
displacement has an occupied slot before it, of displacement at least its own
minus one.

`put`, `find` and `shift` are the three loops of the algorithm.  They count the
displacement up by one a slot, as an implementation does, and take the number
of slots they may visit as fuel.
-/

namespace RobinHood

variable {α : Type*}

/-! ### Slots on a circle -/

def next (c s : Nat) : Nat := if c ≤ s + 1 then 0 else s + 1

def dist (c w s : Nat) : Nat := if w ≤ s then s - w else c + s - w

section Circle

variable {c w s z : Nat}

theorem next_lt (hs : s < c) : next c s < c := by
  unfold next
  split_ifs <;> omega

theorem dist_lt (hw : w < c) (hs : s < c) : dist c w s < c := by
  unfold dist
  split_ifs <;> omega

@[simp] theorem dist_self : dist c w w = 0 := by simp [dist]

theorem dist_eq_zero_iff (hw : w < c) : dist c w s = 0 ↔ s = w := by
  unfold dist
  split_ifs <;> omega

theorem dist_next (hw : w < c) (hs : s < c) (h : next c s ≠ w) :
    dist c w (next c s) = dist c w s + 1 := by
  unfold dist next at *
  split_ifs at * <;> omega

/-- Walking towards `z`, each step brings it one slot nearer. -/
theorem dist_of_next (hs : s < c) (_ : z < c) (h : s ≠ z) :
    dist c s z = dist c (next c s) z + 1 := by
  unfold dist next at *
  split_ifs at * <;> omega

/-- A walk from `w` over `s` to `z` that does not go all the way round. -/
theorem dist_add (hw : w < c) (hs : s < c) (_ : z < c) (h : dist c w s + dist c s z < c) :
    dist c w s + dist c s z = dist c w z := by
  unfold dist at *
  split_ifs at * <;> omega

/-- The slot before `s` is the last one a walk starting at `s` reaches. -/
theorem exists_prev (hs : s < c) : ∃ p < c, next c p = s := by
  refine ⟨if s = 0 then c - 1 else s - 1, ?_, ?_⟩
  · split_ifs <;> omega
  · unfold next
    split_ifs <;> omega

theorem next_inj {p q : Nat} (hp : p < c) (hq : q < c) (h : next c p = next c q) : p = q := by
  unfold next at h
  split_ifs at h <;> omega

end Circle

/-! ### Ranks and the invariant -/

variable (c : Nat) (home : α → Nat)

/-- `0` for an empty slot, one more than the displacement for an occupied one. -/
def rank (t : Nat → Option α) (s : Nat) : Nat :=
  match t s with
  | none => 0
  | some a => dist c (home a) s + 1

structure Valid (t : Nat → Option α) : Prop where
  rank_next : ∀ s < c, rank c home t (next c s) ≤ rank c home t s + 1
  exists_rank_le : ∃ s < c, rank c home t s ≤ 1

def entries (t : Nat → Option α) : List α := (List.range c).filterMap t

section Rank

variable {c home} {t : Nat → Option α} {s z : Nat} {a b : α}

theorem rank_of_none (h : t s = none) : rank c home t s = 0 := by simp [rank, h]

theorem rank_of_some (h : t s = some a) : rank c home t s = dist c (home a) s + 1 := by
  simp [rank, h]

theorem rank_update_ne (x : Option α) (h : s ≠ z) :
    rank c home (Function.update t z x) s = rank c home t s := by
  simp [rank, Function.update_of_ne h]

theorem rank_update_some : rank c home (Function.update t s (some a)) s = dist c (home a) s + 1 :=
  rank_of_some (by simp)

theorem rank_update_none : rank c home (Function.update t s none) s = 0 :=
  rank_of_none (by simp)

theorem mem_entries : a ∈ entries c t ↔ ∃ s < c, t s = some a := by
  simp [entries]

theorem valid_empty (hc : 0 < c) : Valid c home (fun _ => none) :=
  ⟨fun _ _ => by simp [rank], 0, hc, by simp [rank]⟩

theorem entries_empty : entries c (fun _ => (none : Option α)) = [] := by
  simp [entries]

theorem Valid.rank_le (hv : Valid c home t) (hs : s < c) (hz : z < c) :
    rank c home t z ≤ rank c home t s + dist c s z := by
  generalize hk : dist c s z = k
  induction k generalizing s with
  | zero =>
    have : z = s := (dist_eq_zero_iff hs).mp hk
    subst this
    exact Nat.le_refl _
  | succ k ih =>
    have hne : s ≠ z := by
      rintro rfl
      simp at hk
    have hstep := dist_of_next hs hz hne
    have h1 := ih (next_lt hs) (by omega)
    have h2 := hv.rank_next s hs
    omega

/-- On the way from its home to its slot an entry meets only occupied slots, of
displacement at least its own at that point: no probe for it gives up early. -/
theorem Valid.path (hv : Valid c home t) (hhome : home a < c) (hz : z < c) (ha : t z = some a)
    (hs : s < c) (hpath : dist c (home a) s + dist c s z < c) :
    ∃ b, t s = some b ∧ dist c (home a) s ≤ dist c (home b) s := by
  have hr := hv.rank_le hs hz
  rw [rank_of_some ha, ← dist_add hhome hs hz hpath] at hr
  cases hb : t s with
  | none =>
    rw [rank_of_none hb] at hr
    omega
  | some b =>
    rw [rank_of_some hb] at hr
    exact ⟨b, rfl, by omega⟩

end Rank

/-! ### What the table stores -/

section Entries

variable {c} {t : Nat → Option α} {s : Nat} {a b : α}

theorem filterMap_update_not_mem {l : List Nat} (h : s ∉ l) (x : Option α) :
    l.filterMap (Function.update t s x) = l.filterMap t := by
  apply List.filterMap_congr
  intro i hi
  exact Function.update_of_ne (ne_of_mem_of_not_mem hi h) x t

/-- Storing at `s`: what `s` held goes out, the new entry comes in. -/
theorem entries_update (hs : s < c) (x : Option α) :
    (entries c (Function.update t s x)).Perm
      (x.toList ++ entries c (Function.update t s none)) := by
  have hmem : s ∈ List.range c := List.mem_range.mpr hs
  have hsplit : (List.range c).Perm (s :: (List.range c).erase s) := List.perm_cons_erase hmem
  have hnot : s ∉ (List.range c).erase s := fun h =>
    (List.Nodup.mem_erase_iff List.nodup_range).mp h |>.1 rfl
  have hone : ∀ y : Option α, (entries c (Function.update t s y)).Perm
      (y.toList ++ ((List.range c).erase s).filterMap t) := by
    intro y
    refine (hsplit.filterMap _).trans ?_
    rw [← filterMap_update_not_mem hnot y]
    cases y <;> simp
  refine (hone x).trans ?_
  exact ((hone none).symm.append_left _)

theorem entries_perm_of_some (hs : s < c) (h : t s = some b) :
    (entries c t).Perm (b :: entries c (Function.update t s none)) := by
  have := entries_update (t := t) hs (some b)
  rwa [← h, Function.update_eq_self, h] at this

theorem entries_update_none_of_none (h : t s = none) :
    entries c (Function.update t s none) = entries c t := by
  rw [← h, Function.update_eq_self]

theorem entries_fill (hs : s < c) (h : t s = none) :
    (entries c (Function.update t s (some a))).Perm (a :: entries c t) := by
  have := entries_update (t := t) hs (some a)
  rwa [entries_update_none_of_none h] at this

theorem entries_swap (hs : s < c) (h : t s = some b) :
    (b :: entries c (Function.update t s (some a))).Perm (a :: entries c t) := by
  have h1 := (entries_update (t := t) hs (some a)).cons b
  have h2 := (entries_perm_of_some hs h).cons a
  exact h1.trans ((List.Perm.swap _ _ _).trans h2.symm)

theorem eq_of_nodup_entries {z : Nat} (h : (entries c t).Nodup) (hs : s < c) (hz : z < c)
    (hta : t s = some a) (htz : t z = some a) : s = z := by
  by_contra hne
  have hperm := entries_perm_of_some hs hta
  have hmem : a ∈ entries c (Function.update t s none) :=
    mem_entries.mpr ⟨z, hz, by rw [Function.update_of_ne (Ne.symm hne)]; exact htz⟩
  exact (List.nodup_cons.mp (hperm.nodup_iff.mp h)).1 hmem

theorem length_entries : (entries c t).length = (List.range c).countP fun s => (t s).isSome := by
  unfold entries
  induction List.range c with
  | nil => rfl
  | cons s l ih =>
    cases h : t s with
    | none => simp [h, ih]
    | some a => simp [h, ih]

theorem length_entries_le : (entries c t).length ≤ c := by
  have := List.length_filterMap_le t (List.range c)
  rwa [List.length_range] at this

theorem exists_free (h : (entries c t).length < c) : ∃ z < c, t z = none := by
  rw [length_entries] at h
  by_contra hfree
  have hall : ∀ s ∈ List.range c, (fun s => (t s).isSome) s = true := by
    intro s hs
    cases hts : t s with
    | none => exact absurd ⟨s, List.mem_range.mp hs, hts⟩ hfree
    | some a => simp [hts]
  rw [List.countP_eq_length.mpr hall, List.length_range] at h
  exact Nat.lt_irrefl c h

theorem ne_none_of_full (h : c ≤ (entries c t).length) (hs : s < c) : t s ≠ none := by
  rw [length_entries] at h
  have hle := List.countP_le_length (p := fun s => (t s).isSome) (l := List.range c)
  rw [List.length_range] at hle
  have heq : (List.range c).countP (fun s => (t s).isSome) = (List.range c).length := by
    rw [List.length_range]
    omega
  have := List.countP_eq_length.mp heq s (List.mem_range.mpr hs)
  intro hn
  rw [hn] at this
  cases this

end Entries

/-! ### The loops -/

/-- Look for an entry satisfying `same` from slot `s`, already `d` slots past
the home, giving up at an empty slot or at an entry less displaced than `d`. -/
def find (same : α → Bool) : Nat → Nat → Nat → (Nat → Option α) → Option (Option Nat)
  | 0, _, _, _ => none
  | fuel + 1, s, d, t =>
    match t s with
    | none => some none
    | some b =>
      if same b then some (some s)
      else if dist c (home b) s < d then some none
      else find same fuel (next c s) (d + 1) t

/-- Store `a` from slot `s` on, already `d` slots past its home: an empty slot
takes it, an entry satisfying `same` is replaced by it while `may` holds, and
an entry less displaced gives way and is carried on instead. -/
def put (same : α → Bool) : Nat → Bool → Nat → Nat → α → (Nat → Option α) →
    Option ((Nat → Option α) × Option α)
  | 0, _, _, _, _, _ => none
  | fuel + 1, may, s, d, a, t =>
    match t s with
    | none => some (Function.update t s (some a), none)
    | some b =>
      if may && same b then some (Function.update t s (some a), some b)
      else if dist c (home b) s < d then
        put same fuel false (next c s) (dist c (home b) s + 1) b (Function.update t s (some a))
      else put same fuel may (next c s) (d + 1) a t

/-- Empty slot `s`, pulling the entries behind it back one slot each until one
is empty or at home. -/
def shift : Nat → Nat → (Nat → Option α) → Option (Nat → Option α)
  | 0, _, _ => none
  | fuel + 1, s, t =>
    match t (next c s) with
    | none => some (Function.update t s none)
    | some b =>
      if home b = next c s then some (Function.update t s none)
      else shift fuel (next c s) (Function.update t s (some b))

section Find

variable {c home} {same : α → Bool} {t : Nat → Option α} {s z d : Nat} {a : α}

theorem find_some (hv : Valid c home t) (hhome : home a < c) (hz : z < c) (ha : t z = some a)
    (hsame : same a = true) (huniq : ∀ s < c, ∀ b, t s = some b → same b = true → s = z) :
    ∀ fuel s d, s < c → d = dist c (home a) s → d + dist c s z < c → dist c s z < fuel →
      find c home same fuel s d t = some (some z) := by
  intro fuel
  induction fuel with
  | zero => intro s d _ _ _ hf; omega
  | succ fuel ih =>
    intro s d hs hd hpath hf
    obtain ⟨b, hb, hle⟩ := hv.path hhome hz ha hs (hd ▸ hpath)
    rw [find, hb]
    by_cases hsb : same b = true
    · have := huniq s hs b hb hsb
      subst this
      simp [hsb]
    · have hne : s ≠ z := by
        rintro rfl
        rw [ha] at hb
        obtain rfl := Option.some.inj hb
        exact hsb hsame
      have hstep := dist_of_next hs hz hne
      have hnext : next c s ≠ home a := by
        intro he
        have := dist_add hhome hs hz (hd ▸ hpath)
        rw [hstep, he] at this
        omega
      simp only [hsb, Bool.false_eq_true, if_false]
      rw [if_neg (by omega)]
      exact ih _ _ (next_lt hs) (by rw [dist_next hhome hs hnext, hd]) (by omega) (by omega)

variable (same) in
/-- Where nothing matches, the search says so, after at most `c + 1` slots. -/
theorem find_none (hhome : ∀ b, home b < c)
    (hmiss : ∀ s < c, ∀ b, t s = some b → same b = false) :
    ∀ fuel s d, s < c → d ≤ c → c < fuel + d → find c home same fuel s d t = some none := by
  intro fuel
  induction fuel with
  | zero => intro s d _ _ hf; omega
  | succ fuel ih =>
    intro s d hs hd hf
    rw [find]
    cases hb : t s with
    | none => rfl
    | some b =>
      have hlt := dist_lt (hhome b) hs
      simp only [hmiss s hs b hb, Bool.false_eq_true, if_false]
      split_ifs with hdisp
      · rfl
      · exact ih _ _ (next_lt hs) (by omega) (by omega)

end Find

section Put

variable {c home} {same : α → Bool} {t : Nat → Option α} {s z d : Nat} {a b : α}

theorem Valid.replace (hv : Valid c home t) (hz : t z = some b) (hhome : home a = home b) :
    Valid c home (Function.update t z (some a)) := by
  have hrank : ∀ s, rank c home (Function.update t z (some a)) s = rank c home t s := by
    intro s
    by_cases h : s = z
    · subst h
      rw [rank_update_some, rank_of_some hz, hhome]
    · exact rank_update_ne _ h
  refine ⟨fun s hs => ?_, ?_⟩
  · rw [hrank, hrank]
    exact hv.rank_next s hs
  · obtain ⟨s, hs, hr⟩ := hv.exists_rank_le
    exact ⟨s, hs, by rw [hrank]; exact hr⟩

theorem put_some (hv : Valid c home t) (hhome : home b < c) (hz : z < c) (hb : t z = some b)
    (hsame : same b = true) (huniq : ∀ s < c, ∀ x, t s = some x → same x = true → s = z) :
    ∀ fuel s d, s < c → d = dist c (home b) s → d + dist c s z < c → dist c s z < fuel →
      put c home same fuel true s d a t = some (Function.update t z (some a), some b) := by
  intro fuel
  induction fuel with
  | zero => intro s d _ _ _ hf; omega
  | succ fuel ih =>
    intro s d hs hd hpath hf
    obtain ⟨x, hx, hle⟩ := hv.path hhome hz hb hs (hd ▸ hpath)
    rw [put, hx]
    by_cases hsx : same x = true
    · have := huniq s hs x hx hsx
      subst this
      rw [hb] at hx
      obtain rfl := Option.some.inj hx
      simp [hsx]
    · have hne : s ≠ z := by
        rintro rfl
        rw [hb] at hx
        obtain rfl := Option.some.inj hx
        exact hsx hsame
      have hstep := dist_of_next hs hz hne
      have hnext : next c s ≠ home b := by
        intro he
        have := dist_add hhome hs hz (hd ▸ hpath)
        rw [hstep, he] at this
        omega
      simp only [hsx, Bool.and_false, Bool.false_eq_true, if_false]
      rw [if_neg (by omega)]
      exact ih _ _ (next_lt hs) (by rw [dist_next hhome hs hnext, hd]) (by omega) (by omega)

/-- What carrying an entry past `s` needs: its displacement there is at most the
rank of the slot before. -/
def Carries (c : Nat) (home : α → Nat) (t : Nat → Option α) (s : Nat) (a : α) : Prop :=
  ∀ p < c, next c p = s → dist c (home a) s ≤ rank c home t p

theorem carries_home (a : α) : Carries c home t (home a) a := by
  intro p _ _
  rw [dist_self]
  exact Nat.zero_le _

/-- Storing a carried entry at a slot of smaller rank keeps the ranks in step. -/
theorem rank_next_update (hr : ∀ s < c, rank c home t (next c s) ≤ rank c home t s + 1)
    (hcarry : Carries c home t s a) (hle : rank c home t s ≤ dist c (home a) s + 1) :
    ∀ p < c, rank c home (Function.update t s (some a)) (next c p)
      ≤ rank c home (Function.update t s (some a)) p + 1 := by
  intro p hp
  by_cases hps : p = s
  · subst hps
    rw [rank_update_some]
    by_cases hn : next c p = p
    · rw [hn, rank_update_some]
      omega
    · rw [rank_update_ne _ hn]
      have := hr p hp
      omega
  · rw [rank_update_ne _ hps]
    by_cases hn : next c p = s
    · rw [hn, rank_update_some]
      have := hcarry p hp hn
      omega
    · rw [rank_update_ne _ hn]
      exact hr p hp

variable (same) in
theorem put_none (hhome : ∀ x, home x < c) (hz : z < c) :
    ∀ fuel may s d (a : α) (t : Nat → Option α),
      (∀ s < c, rank c home t (next c s) ≤ rank c home t s + 1) →
      (may = true → ∀ s < c, ∀ x, t s = some x → same x = false) →
      t z = none → s < c → Carries c home t s a →
      d = dist c (home a) s → d + dist c s z < c → dist c s z < fuel →
      ∃ t', put c home same fuel may s d a t = some (t', none) ∧ Valid c home t' ∧
        (entries c t').Perm (a :: entries c t) := by
  intro fuel
  induction fuel with
  | zero => intro may s d a t _ _ _ _ _ _ _ hf; omega
  | succ fuel ih =>
    intro may s d a t hr hmiss htz hs hcarry hd hpath hf
    rw [put]
    cases hb : t s with
    | none =>
      refine ⟨_, rfl, ⟨?_, ?_⟩, entries_fill hs hb⟩
      · exact rank_next_update hr hcarry (by rw [rank_of_none hb]; omega)
      · -- the slot after a free one is free or holds an entry at home
        have hn := hr s hs
        rw [rank_of_none hb] at hn
        by_cases he : next c s = s
        · refine ⟨s, hs, ?_⟩
          have : home a = s := by
            have := hhome a
            unfold next at he
            split_ifs at he <;> omega
          refine Nat.le_of_eq ?_
          rw [rank_update_some, this, dist_self]
        · exact ⟨next c s, next_lt hs, by rw [rank_update_ne _ he]; omega⟩
    | some b =>
      have hne : s ≠ z := by
        rintro rfl
        rw [htz] at hb
        exact absurd hb (by simp)
      have hstep := dist_of_next hs hz hne
      have hrs : rank c home t s = dist c (home b) s + 1 := rank_of_some hb
      have hmay : (may && same b) = false := by
        cases may with
        | false => rfl
        | true => simp [hmiss rfl s hs b hb]
      simp only [hmay, Bool.false_eq_true, if_false]
      split_ifs with hdisp
      · -- `b` gives way: it is carried on from the next slot
        have hnext : next c s ≠ home b := by
          intro he
          have := dist_add (hhome b) hs hz (by omega)
          rw [hstep, he] at this
          omega
        have hcarry' : Carries c home (Function.update t s (some a)) (next c s) b := by
          intro p hp hpn
          obtain rfl := next_inj hp hs hpn
          rw [rank_update_some, dist_next (hhome b) hs hnext]
          omega
        obtain ⟨t', hput, hv, hperm⟩ := ih false (next c s) (dist c (home b) s + 1) b
          (Function.update t s (some a))
          (rank_next_update hr hcarry (by rw [hrs]; omega))
          (by intro h; cases h) (by rw [Function.update_of_ne hne.symm]; exact htz)
          (next_lt hs) hcarry' (dist_next (hhome b) hs hnext).symm (by omega) (by omega)
        exact ⟨t', hput, hv, hperm.trans (entries_swap hs hb)⟩
      · have hnext : next c s ≠ home a := by
          intro he
          have := dist_add (hhome a) hs hz (by omega)
          rw [hstep, he] at this
          omega
        have hcarry' : Carries c home t (next c s) a := by
          intro p hp hpn
          obtain rfl := next_inj hp hs hpn
          rw [hrs, dist_next (hhome a) hs hnext]
          omega
        exact ih may (next c s) (d + 1) a t hr hmiss htz (next_lt hs) hcarry'
          (by rw [dist_next (hhome a) hs hnext, hd]) (by omega) (by omega)

variable (home same) in
/-- With every slot taken and nothing to replace, storing goes round for ever. -/
theorem put_full :
    ∀ fuel may s d (a : α) (t : Nat → Option α), s < c →
      (∀ s < c, t s ≠ none) → (may = true → ∀ s < c, ∀ x, t s = some x → same x = false) →
      put c home same fuel may s d a t = none := by
  intro fuel
  induction fuel with
  | zero => intros; rfl
  | succ fuel ih =>
    intro may s d a t hs hfull hmiss
    rw [put]
    cases hb : t s with
    | none => exact absurd hb (hfull s hs)
    | some b =>
      have hmay : (may && same b) = false := by
        cases may with
        | false => rfl
        | true => simp [hmiss rfl s hs b hb]
      simp only [hmay, Bool.false_eq_true, if_false]
      split_ifs
      · refine ih _ _ _ _ _ (next_lt hs) (fun q hq => ?_) (by intro h; cases h)
        by_cases hqs : q = s
        · subst hqs
          simp
        · rw [Function.update_of_ne hqs]
          exact hfull q hq
      · exact ih _ _ _ _ _ (next_lt hs) hfull hmiss

end Put

section Shift

variable {c home} {t : Nat → Option α} {s z : Nat} {a b : α}

/-- The shift ends at a slot whose successor has rank at most one. -/
theorem shift_stop (hhome : ∀ x, home x < c) (fuel : Nat)
    (hstop : rank c home t (next c s) ≤ 1) :
    shift c home (fuel + 1) s t = some (Function.update t s none) := by
  rw [shift]
  cases hb : t (next c s) with
  | none => rfl
  | some b =>
    rw [rank_of_some hb] at hstop
    have hat := (dist_eq_zero_iff (hhome b)).mp (Nat.le_zero.mp (Nat.le_of_succ_le_succ hstop))
    exact if_pos hat.symm

/-- Otherwise it pulls the next entry, which is away from home, back one slot. -/
theorem shift_pull (fuel : Nat) (hgo : ¬ rank c home t (next c s) ≤ 1) :
    ∃ b, t (next c s) = some b ∧ home b ≠ next c s ∧
      shift c home (fuel + 1) s t
        = shift c home fuel (next c s) (Function.update t s (some b)) := by
  cases hb : t (next c s) with
  | none =>
    rw [rank_of_none hb] at hgo
    omega
  | some b =>
    have hat : home b ≠ next c s := by
      intro he
      rw [rank_of_some hb, he, dist_self] at hgo
      exact hgo (Nat.le_refl 1)
    refine ⟨b, rfl, hat, ?_⟩
    rw [shift, hb]
    exact if_neg hat

theorem next_ne_of_away (hhome : home b < c) (hs : s < c) (haway : home b ≠ next c s) :
    next c s ≠ s := by
  unfold next at *
  split_ifs at * <;> omega

/-- Pulling the next entry back one slot keeps the ranks in step; the copy it
leaves behind is overwritten next. -/
theorem rank_next_pull (hr : ∀ s < c, rank c home t (next c s) ≤ rank c home t s + 1)
    (hhome : home b < c) (hs : s < c) (hb : t (next c s) = some b) (haway : home b ≠ next c s) :
    ∀ p < c, rank c home (Function.update t s (some b)) (next c p)
      ≤ rank c home (Function.update t s (some b)) p + 1 := by
  have hdist : dist c (home b) (next c s) = dist c (home b) s + 1 :=
    dist_next hhome hs haway.symm
  have hrank : rank c home t (next c s) = dist c (home b) s + 2 := by
    rw [rank_of_some hb, hdist]
  have hrs := hr s hs
  intro p hp
  by_cases hps : p = s
  · subst hps
    rw [rank_update_some]
    by_cases hn : next c p = p
    · rw [hn, rank_update_some]
      omega
    · refine Nat.le_of_eq ?_
      rw [rank_update_ne _ hn, hrank]
  · rw [rank_update_ne _ hps]
    by_cases hn : next c p = s
    · rw [hn, rank_update_some]
      have := hr p hp
      rw [hn] at this
      omega
    · rw [rank_update_ne _ hn]
      exact hr p hp

theorem valid_of_stop (hr : ∀ s < c, rank c home t (next c s) ≤ rank c home t s + 1)
    (hs : s < c) (hstop : rank c home t (next c s) ≤ 1) :
    Valid c home (Function.update t s none) := by
  refine ⟨fun p hp => ?_, s, hs, by rw [rank_update_none]; omega⟩
  by_cases hn : next c p = s
  · rw [hn, rank_update_none]
    omega
  · rw [rank_update_ne _ hn]
    by_cases hps : p = s
    · subst hps
      rw [rank_update_none]
      omega
    · rw [rank_update_ne _ hps]
      exact hr p hp

/-- Moving the entry of the next slot back leaves the stored entries as they are,
the hole being the slot it came from. -/
theorem entries_pull (hs : s < c) (hn : next c s ≠ s) (hb : t (next c s) = some b) :
    (entries c (Function.update (Function.update t s (some b)) (next c s) none)).Perm
      (entries c (Function.update t s none)) := by
  have hcomm : Function.update (Function.update t s (some b)) (next c s) none
      = Function.update (Function.update t (next c s) none) s (some b) :=
    Function.update_comm hn.symm _ _ _
  rw [hcomm]
  refine (entries_update hs (some b)).trans ?_
  rw [Function.update_comm hn.symm none none t |>.symm]
  exact (entries_perm_of_some (next_lt hs) (by rw [Function.update_of_ne hn]; exact hb)).symm

theorem shift_of_stop (hhome : ∀ x, home x < c) (hz : z < c) :
    ∀ fuel s (t : Nat → Option α), s < c → s ≠ z →
      (∀ s < c, rank c home t (next c s) ≤ rank c home t s + 1) →
      rank c home t z ≤ 1 → dist c s z ≤ fuel →
      ∃ t', shift c home fuel s t = some t' ∧ Valid c home t' ∧
        (entries c t').Perm (entries c (Function.update t s none)) := by
  intro fuel
  induction fuel with
  | zero =>
    intro s t hs hne _ _ hf
    exact absurd ((dist_eq_zero_iff hs).mp (Nat.le_zero.mp hf)).symm hne
  | succ fuel ih =>
    intro s t hs hne hr hrz hf
    by_cases hstop : rank c home t (next c s) ≤ 1
    · exact ⟨_, shift_stop hhome fuel hstop, valid_of_stop hr hs hstop, List.Perm.refl _⟩
    · obtain ⟨b, hb, haway, heq⟩ := shift_pull fuel hstop
      have hnz : next c s ≠ z := fun he => hstop (he ▸ hrz)
      have hns := next_ne_of_away (hhome b) hs haway
      have hstep := dist_of_next hs hz hne
      obtain ⟨t', hshift, hv, hperm⟩ := ih (next c s) (Function.update t s (some b))
        (next_lt hs) hnz (rank_next_pull hr (hhome b) hs hb haway)
        (by rw [rank_update_ne _ hne.symm]; exact hrz) (by omega)
      exact ⟨t', heq ▸ hshift, hv, hperm.trans (entries_pull hs hns hb)⟩

/-- **Backward-shift deletion**: the entry of `s` goes, every other one stays. -/
theorem shift_spec (hv : Valid c home t) (hhome : ∀ x, home x < c) (hs : s < c)
    (ha : t s = some a) :
    ∃ t', shift c home (c + 1) s t = some t' ∧ Valid c home t' ∧
      (entries c t).Perm (a :: entries c t') := by
  suffices h : ∃ t', shift c home (c + 1) s t = some t' ∧ Valid c home t' ∧
      (entries c t').Perm (entries c (Function.update t s none)) by
    obtain ⟨t', hshift, hv', hperm⟩ := h
    exact ⟨t', hshift, hv', (entries_perm_of_some hs ha).trans (hperm.symm.cons a)⟩
  obtain ⟨z, hz, hrz⟩ := hv.exists_rank_le
  by_cases hne : s = z
  · subst hne
    by_cases hstop : rank c home t (next c s) ≤ 1
    · exact ⟨_, shift_stop hhome c hstop, valid_of_stop hv.rank_next hs hstop, List.Perm.refl _⟩
    · -- only the emptied slot was in sight: after one step it holds an entry at home
      obtain ⟨b, hb, haway, heq⟩ := shift_pull c hstop
      have hns := next_ne_of_away (hhome b) hs haway
      have hdist := dist_next (hhome b) hs haway.symm
      have hrn := hv.rank_next s hs
      rw [rank_of_some hb, hdist] at hrn
      obtain ⟨t', hshift, hv', hperm⟩ := shift_of_stop hhome hs c (next c s)
        (Function.update t s (some b)) (next_lt hs) hns
        (rank_next_pull hv.rank_next (hhome b) hs hb haway)
        (by rw [rank_update_some]; omega) (Nat.le_of_lt (dist_lt (next_lt hs) hs))
      exact ⟨t', heq ▸ hshift, hv', hperm.trans (entries_pull hs hns hb)⟩
  · exact shift_of_stop hhome hz (c + 1) s t hs hne hv.rank_next hrz
      (by have := dist_lt hs hz; omega)

end Shift

end RobinHood
