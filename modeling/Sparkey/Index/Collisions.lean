import Sparkey.Index.Invariant
import Sparkey.Index.Displacement
import Sparkey.Lib.RobinLayout

/-!
# Counting collisions

`calculate_max_displacement` counts a collision wherever a slot has the hash value of the entry in
the slot in front of it, around the end of the table.  The number it should find is that of the
entries less that of the different hash values.  It finds more where an entry with hash value 0 is
in front of a free slot, which reads as 0, or where there is only one hash value around a full table,
and less where entries with one hash value are not next to each other.  Two of these may cancel out
(`exact_iff_of_reached`).
-/

namespace Sparkey

open Program BlockStream RobinHood LastWrite

/-! ### Runs on a circle -/

section Circle

variable {α β : Type} {c slot : Nat} {t word : Nat → Option β}

theorem countP_add {p q r : α → Bool} {l : List α}
    (h : ∀ x ∈ l, (p x).toNat = (q x).toNat + (r x).toNat) :
    l.countP p = l.countP q + l.countP r := by
  induction l with
  | nil => rfl
  | cons x l ih =>
    have hx := h x List.mem_cons_self
    have hl := ih fun y hy => h y (List.mem_cons_of_mem _ hy)
    rw [List.countP_cons, List.countP_cons, List.countP_cons, hl]
    cases hp : p x <;> cases hq : q x <;> cases hr : r x <;> simp [hp, hq, hr] at hx ⊢ <;> omega

def inFront (c slot : Nat) : Nat := if slot = 0 then c - 1 else slot - 1

theorem sum_eq_card_iff {values : Finset β} {f : β → Nat} (hle : ∀ value ∈ values, 1 ≤ f value) :
    ∑ value ∈ values, f value = values.card ↔ ∀ value ∈ values, f value = 1 := by
  rw [Finset.card_eq_sum_ones, eq_comm, Finset.sum_eq_sum_iff_of_le hle]
  exact forall₂_congr fun value _ => eq_comm

variable [DecidableEq β]

theorem sum_eq_card_succ_iff {values : Finset β} {f : β → Nat} (hle : ∀ value ∈ values, 1 ≤ f value) :
    ∑ value ∈ values, f value = values.card + 1 ↔
      ∃ value ∈ values, f value = 2 ∧ ∀ other ∈ values, other ≠ value → f other = 1 := by
  have hrest : ∀ value, (∀ other ∈ values.erase value, f other = 1) ↔
      ∀ other ∈ values, other ≠ value → f other = 1 := by
    intro value
    simp only [Finset.mem_erase]
    exact ⟨fun h other hother hne => h other ⟨hne, hother⟩, fun h other hother => h other hother.2 hother.1⟩
  constructor
  · intro hsum
    obtain ⟨value, hvalue, hne⟩ : ∃ value ∈ values, f value ≠ 1 := by
      by_contra hall
      push Not at hall
      have := (sum_eq_card_iff hle).mpr hall
      omega
    have hsplit := Finset.add_sum_erase values f hvalue
    have hcard := Finset.card_erase_add_one hvalue
    have hother : (values.erase value).card ≤ ∑ other ∈ values.erase value, f other := by
      rw [Finset.card_eq_sum_ones]
      exact Finset.sum_le_sum fun other hother => hle other (Finset.mem_of_mem_erase hother)
    have hone := hle value hvalue
    refine ⟨value, hvalue, by omega, (hrest value).mp ?_⟩
    refine (sum_eq_card_iff fun other hother => hle other (Finset.mem_of_mem_erase hother)).mp ?_
    omega
  · rintro ⟨value, hvalue, htwo, hall⟩
    have hsplit := Finset.add_sum_erase values f hvalue
    have hcard := Finset.card_erase_add_one hvalue
    have hother := (sum_eq_card_iff fun other hother =>
      hle other (Finset.mem_of_mem_erase hother)).mpr ((hrest value).mpr hall)
    omega

def repeats (c : Nat) (t : Nat → Option β) : Nat :=
  (List.range c).countP fun slot => t slot ≠ none ∧ t (inFront c slot) = t slot

def starts (c : Nat) (t : Nat → Option β) : List β :=
  (List.range c).filterMap fun slot => if t (inFront c slot) = t slot then none else t slot

def ghosts (c : Nat) (t word : Nat → Option β) : Nat :=
  (List.range c).countP fun slot =>
    slot ≠ 0 ∧ t slot = none ∧ t (slot - 1) ≠ none ∧ t (slot - 1) = word slot

def Meets (t word : Nat → Option β) (slot : Nat) : Prop :=
  slot ≠ 0 ∧ t (slot - 1) ≠ none ∧ t (slot - 1) = word slot

instance : Decidable (Meets t word slot) := by
  unfold Meets
  infer_instance

theorem countP_occupied (c : Nat) (t : Nat → Option β) :
    (List.range c).countP (fun slot => t slot ≠ none) = repeats c t + (starts c t).length := by
  rw [starts, List.length_filterMap_eq_countP]
  refine countP_add fun slot _ => ?_
  by_cases h : t (inFront c slot) = t slot
  · simp [h]
  · cases hslot : t slot <;> rw [hslot] at h <;> simp [h]

/-- **What meets its like**: the values that are repeated, and the free slots that read so. -/
theorem countP_meets (hc : 0 < c) (hword : ∀ slot < c, t slot ≠ none → word slot = t slot) :
    (List.range c).countP (fun slot => Meets t word slot)
      + (if t 0 ≠ none ∧ t 0 = t (c - 1) then 1 else 0) = repeats c t + ghosts c t word := by
  obtain ⟨n, rfl⟩ : ∃ n, c = n + 1 := ⟨c - 1, by omega⟩
  have hrest : (List.range' 1 n).countP (fun slot => Meets t word slot)
      = (List.range' 1 n).countP (fun slot => t slot ≠ none ∧ t (inFront (n + 1) slot) = t slot)
        + (List.range' 1 n).countP (fun slot =>
          slot ≠ 0 ∧ t slot = none ∧ t (slot - 1) ≠ none ∧ t (slot - 1) = word slot) := by
    refine countP_add fun slot hslot => ?_
    obtain ⟨hpos, hlt⟩ := List.mem_range'_1.mp hslot
    have h0 : slot ≠ 0 := by omega
    by_cases hfree : t slot = none
    · simp [Meets, h0, hfree]
    · have hw := hword slot (by omega) hfree
      by_cases heq : t (slot - 1) = t slot <;> simp [Meets, inFront, h0, hfree, hw, heq]
  have hrange : List.range (n + 1) = 0 :: List.range' 1 n := by
    rw [List.range_eq_range', List.range'_succ]
  rw [repeats, ghosts, hrange, List.countP_cons, List.countP_cons, List.countP_cons, hrest]
  have hmeets : ¬ Meets t word 0 := fun h => h.1 rfl
  have hghost : ¬ ((0 : Nat) ≠ 0 ∧ t 0 = none ∧ t (0 - 1) ≠ none ∧ t (0 - 1) = word 0) :=
    fun h => h.1 rfl
  have hfront : inFront (n + 1) 0 = n := rfl
  simp only [decide_eq_true_eq, if_neg hmeets, if_neg hghost, hfront, Nat.add_sub_cancel]
  by_cases hwrap : t 0 ≠ none ∧ t 0 = t n
  · rw [if_pos hwrap, if_pos ⟨hwrap.1, hwrap.2.symm⟩]
    omega
  · rw [if_neg hwrap, if_neg fun h => hwrap ⟨h.1, h.2.symm⟩]
    omega

theorem mem_starts {value : β} :
    value ∈ starts c t ↔ ∃ slot < c, t (inFront c slot) ≠ t slot ∧ t slot = some value := by
  rw [starts, List.mem_filterMap]
  constructor
  · rintro ⟨slot, hslot, h⟩
    split_ifs at h with heq
    exact ⟨slot, List.mem_range.mp hslot, heq, h⟩
  · rintro ⟨slot, hslot, hne, h⟩
    exact ⟨slot, List.mem_range.mpr hslot, by rw [if_neg hne, h]⟩

theorem inFront_next (h : slot < c) : inFront c (next c slot) = slot := by
  unfold next
  split_ifs with hlast
  · show c - 1 = slot
    omega
  · exact if_neg (Nat.succ_ne_zero slot)

theorem all_of_not_mem_starts {value : β} (hmem : value ∈ entries c t) (hnot : value ∉ starts c t) :
    ∀ slot < c, t slot = some value := by
  obtain ⟨slot, hslot, hvalue⟩ := mem_entries.mp hmem
  by_contra hall
  push Not at hall
  obtain ⟨other, hother, hne⟩ := hall
  -- the slots that do not have the value reach all around
  refine around (P := fun s => t s ≠ some value) hother hne (fun s hs hs' hnext => ?_) slot hslot hvalue
  refine hnot (mem_starts.mpr ⟨next c s, next_lt hs, ?_, hnext⟩)
  rw [inFront_next hs, hnext]
  exact hs'

theorem sum_count_starts :
    ∑ value ∈ (entries c t).toFinset, (starts c t).count value = (starts c t).length := by
  simp only [← Multiset.coe_count, ← Multiset.coe_card]
  refine Multiset.sum_count_eq_card fun value h => ?_
  obtain ⟨slot, hslot, -, hvalue⟩ := mem_starts.mp (Multiset.mem_coe.mp h)
  exact List.mem_toFinset.mpr (mem_entries.mpr ⟨slot, hslot, hvalue⟩)

/-- Where there is a value of no run, it is in all slots, and there are no runs. -/
theorem starts_or (c : Nat) (t : Nat → Option β) :
    (∀ value ∈ entries c t, 1 ≤ (starts c t).count value) ∨
      (∃ value, (entries c t).dedup = [value]) ∧ starts c t = [] ∧ ∀ slot < c, t slot ≠ none := by
  by_cases h : ∀ value ∈ entries c t, value ∈ starts c t
  · exact Or.inl fun value hv => List.one_le_count_iff.mpr (h value hv)
  · push Not at h
    obtain ⟨value, hmem, hnot⟩ := h
    have hall := all_of_not_mem_starts hmem hnot
    refine Or.inr ⟨⟨value, ?_⟩, ?_, fun slot hslot => by simp [hall slot hslot]⟩
    · have hrep : entries c t = List.replicate (entries c t).length value := by
        refine List.eq_replicate_iff.mpr ⟨rfl, fun v hv => ?_⟩
        obtain ⟨slot, hslot, hv⟩ := mem_entries.mp hv
        exact Option.some.inj (hv.symm.trans (hall slot hslot))
      obtain ⟨n, hn⟩ := Nat.exists_eq_succ_of_ne_zero (List.length_pos_of_mem hmem).ne'
      rw [hrep, hn, List.replicate_dedup (Nat.succ_ne_zero n)]
    · refine List.eq_nil_iff_forall_not_mem.mpr fun v hv => ?_
      obtain ⟨slot, hslot, hne, -⟩ := mem_starts.mp hv
      refine hne ((hall _ ?_).trans (hall slot hslot).symm)
      unfold inFront
      split_ifs <;> omega

/-- **As many runs as values**: each has one. -/
theorem length_starts_eq_iff : (starts c t).length = (entries c t).dedup.length ↔
    ∀ value ∈ entries c t, (starts c t).count value = 1 := by
  rcases starts_or c t with hle | ⟨⟨value, hone⟩, hnone, -⟩
  · rw [← sum_count_starts, ← List.card_toFinset, sum_eq_card_iff fun v hv => hle v (List.mem_toFinset.mp hv)]
    simp only [List.mem_toFinset]
  · have hmem : value ∈ entries c t := List.mem_dedup.mp (hone ▸ List.mem_singleton_self value)
    rw [hone, hnone]
    exact ⟨nofun, fun h => absurd (h value hmem) (by simp)⟩

/-- **One run more than values**: one has two. -/
theorem length_starts_eq_succ_iff : (starts c t).length = (entries c t).dedup.length + 1 ↔
    ∃ value ∈ entries c t, (starts c t).count value = 2 ∧
      ∀ other ∈ entries c t, other ≠ value → (starts c t).count other = 1 := by
  rcases starts_or c t with hle | ⟨⟨value, hone⟩, hnone, -⟩
  · rw [← sum_count_starts, ← List.card_toFinset,
      sum_eq_card_succ_iff fun v hv => hle v (List.mem_toFinset.mp hv)]
    simp only [List.mem_toFinset]
  · rw [hone, hnone]
    refine ⟨nofun, ?_⟩
    rintro ⟨value, -, htwo, -⟩
    simp at htwo

end Circle

/-! ### The scan -/

variable {header : Hashheader} {hashtable : List UInt8} {slot n num : Nat} {d d' : Displacements}

def Hashheader.hashAt (header : Hashheader) (hashtable : List UInt8) (slot : Nat) : Option Nat :=
  (header.slots hashtable slot).map Prod.fst

def Hashheader.wordAt (header : Hashheader) (hashtable : List UInt8) (slot : Nat) : Option Nat :=
  (header.readSlot hashtable slot).map Prod.fst

/-- The hash values of the entries, slot by slot. -/
def Hashheader.hashes (header : Hashheader) (hashtable : List UInt8) : List Nat :=
  (List.range header.hashCapacity).filterMap (header.hashAt hashtable)

theorem Sized.wordAt (hs : Sized header hashtable) (h : slot < header.hashCapacity)
    (hne : header.hashAt hashtable slot ≠ none) :
    header.wordAt hashtable slot = header.hashAt hashtable slot := by
  obtain ⟨hash, position, hread, -, -, hslot⟩ := hs.readSlot h
  rw [Hashheader.hashAt, hslot] at hne ⊢
  rw [Hashheader.wordAt, hread]
  split_ifs at hne ⊢
  · exact absurd rfl hne
  · rfl

/-- What the scan knows before `slot`, with so many collisions met. -/
structure Scanned (header : Hashheader) (hashtable : List UInt8) (slot num : Nat) (d : Displacements) :
    Prop where
  numHashCollisions : d.numHashCollisions = u64 num
  prev : d.prev = if slot = 0 then none else header.hashAt hashtable (slot - 1)
  first : d.first = if slot = 0 then none else header.hashAt hashtable 0
  last : d.last = if slot = header.hashCapacity then header.hashAt hashtable (slot - 1) else none

theorem Scanned.round (h : Scanned header hashtable slot num d)
    (hlt : slot < header.hashCapacity) {hash position : Nat}
    (hread : header.readSlot hashtable slot = some (hash, position)) :
    Scanned header hashtable (slot + 1)
      (num + if Meets (header.hashAt hashtable) (header.wordAt hashtable) slot then 1 else 0)
      (d.round header.hashCapacity slot hash position) := by
  have hword : header.wordAt hashtable slot = some hash := by
    rw [Hashheader.wordAt, hread]
    rfl
  have hat : header.hashAt hashtable slot = if position = 0 then none else some hash := by
    rw [Hashheader.hashAt, Hashheader.slots, hread]
    simp only
    split_ifs <;> rfl
  have hmeets : d.prev = some hash ↔ Meets (header.hashAt hashtable) (header.wordAt hashtable) slot := by
    rw [h.prev, Meets, hword]
    by_cases h0 : slot = 0
    · simp [h0]
    · rw [if_neg h0]
      constructor
      · intro heq
        exact ⟨h0, by rw [heq]; exact Option.some_ne_none _, heq⟩
      · exact fun hm => hm.2.2
  -- the count is that of the round
  obtain ⟨num', hnum'⟩ : ∃ num', num' = num +
      if Meets (header.hashAt hashtable) (header.wordAt hashtable) slot then 1 else 0 := ⟨_, rfl⟩
  have hcount : (if d.prev = some hash then u64 (d.numHashCollisions + 1) else d.numHashCollisions)
      = u64 num' := by
    rw [hnum', h.numHashCollisions]
    by_cases hm : d.prev = some hash
    · rw [if_pos hm, if_pos (hmeets.mp hm), u64_add_u64]
    · rw [if_neg hm, if_neg fun hm' => hm (hmeets.mpr hm')]
      rfl
  rw [← hnum']
  have hlast := h.last
  rw [if_neg (Nat.ne_of_lt hlt)] at hlast
  -- a collision changes nothing but the count
  obtain ⟨d₁, hd₁⟩ : ∃ d₁, d₁ = if d.prev = some hash then
      { d with numHashCollisions := u64 (d.numHashCollisions + 1) } else d := ⟨_, rfl⟩
  have hnum₁ : d₁.numHashCollisions = u64 num' := by
    rw [← hcount, hd₁]
    split_ifs <;> rfl
  have hfirst₁ : d₁.first = if slot = 0 then none else header.hashAt hashtable 0 := by
    rw [← h.first, hd₁]
    split_ifs <;> rfl
  have hlast₁ : d₁.last = none := by
    rw [← hlast, hd₁]
    split_ifs <;> rfl
  rw [Displacements.round, ← hd₁]
  by_cases hp : position = 0
  · rw [if_pos hp] at hat
    rw [if_neg (not_not_intro hp)]
    refine ⟨hnum₁, ?_, ?_, ?_⟩
    · rw [if_neg (Nat.succ_ne_zero _), Nat.add_sub_cancel, hat]
    · show d₁.first = _
      rw [hfirst₁, if_neg (Nat.succ_ne_zero _)]
      split_ifs with h0
      · rw [← h0, hat]
      · rfl
    · show d₁.last = _
      rw [hlast₁, Nat.add_sub_cancel, hat, ite_self]
  · rw [if_neg hp] at hat
    rw [if_pos hp]
    refine ⟨hnum₁, ?_, ?_, ?_⟩
    · rw [if_neg (Nat.succ_ne_zero _), Nat.add_sub_cancel, hat]
    · show (if slot = 0 then some hash else d₁.first) = _
      rw [hfirst₁, if_neg (Nat.succ_ne_zero _)]
      split_ifs with h0
      · rw [← h0, hat]
      · rfl
    · show (if slot = header.hashCapacity - 1 then some hash else d₁.last) = _
      rw [hlast₁, Nat.add_sub_cancel, hat]
      by_cases hend : slot = header.hashCapacity - 1
      · rw [if_pos hend, if_pos (by omega)]
      · rw [if_neg hend, if_neg (by omega)]

/-- **What the scan meets** from `slot` on. -/
theorem Scanned.loop (hs : Sized header hashtable) : ∀ (n slot : Nat) {num : Nat} {d : Displacements},
    slot + n = header.hashCapacity → Scanned header hashtable slot num d →
    displacementsLoop header hashtable n slot d = some d' →
    Scanned header hashtable header.hashCapacity (num + (List.range' slot n).countP fun slot =>
      Meets (header.hashAt hashtable) (header.wordAt hashtable) slot) d' := by
  intro n
  induction n with
  | zero =>
    intro slot num d hn h hrun
    cases hrun
    rw [Nat.add_zero] at hn
    rwa [← hn]
  | succ n ih =>
    intro slot num d hn h hrun
    have hlt : slot < header.hashCapacity := by omega
    obtain ⟨hash, position, hread, -⟩ := hs.readSlot hlt
    rw [displacementsLoop, hread] at hrun
    have := ih (slot + 1) (by omega) (h.round hlt hread) hrun
    rw [List.range'_succ, List.countP_cons, Nat.add_comm (List.countP _ _), ← Nat.add_assoc]
    simpa using this

/-- **The collisions that are counted**: repeats around the table, and free slots that read as the
entry in front of them. -/
theorem hashCollisions_eq {s s' : Hashing} (hs : Sized s.hashHeader s.hashtable)
    (hrun : calculateMaxDisplacement.run s = .ok () s') :
    s'.hashHeader.hashCollisions
      = repeats s.hashHeader.hashCapacity (s.hashHeader.hashAt s.hashtable)
        + ghosts s.hashHeader.hashCapacity (s.hashHeader.hashAt s.hashtable)
          (s.hashHeader.wordAt s.hashtable) := by
  have hpos := hs.capacity_pos
  have hlt := hs.capacity_lt
  rw [calculateMaxDisplacement, run_get_bind] at hrun
  cases hloop : displacementsLoop s.hashHeader s.hashtable s.hashHeader.hashCapacity 0
      ⟨0, 0, 0, none, none, none⟩ with
  | none =>
    rw [hloop] at hrun
    cases hrun
  | some d =>
    rw [hloop] at hrun
    cases hrun
    have hstart : Scanned s.hashHeader s.hashtable 0 0 ⟨0, 0, 0, none, none, none⟩ :=
      ⟨rfl, rfl, rfl, by rw [if_neg (by omega)]⟩
    have hscan := Scanned.loop hs s.hashHeader.hashCapacity 0 (Nat.zero_add _) hstart hloop
    obtain ⟨hnum, -, hfirst, hlast⟩ := hscan
    rw [if_neg (by omega)] at hfirst
    rw [if_pos rfl] at hlast
    have hsum := countP_meets hpos fun slot hslot hne => hs.wordAt hslot hne
    have hle : (List.range s.hashHeader.hashCapacity).countP (fun slot =>
        Meets (s.hashHeader.hashAt s.hashtable) (s.hashHeader.wordAt s.hashtable) slot)
        ≤ s.hashHeader.hashCapacity := by
      have := List.countP_le_length (p := fun slot => decide
        (Meets (s.hashHeader.hashAt s.hashtable) (s.hashHeader.wordAt s.hashtable) slot))
        (l := List.range s.hashHeader.hashCapacity)
      rwa [List.length_range] at this
    rw [← hsum]
    show (if d.first.isSome ∧ d.first = d.last then u64 (d.numHashCollisions + 1)
      else d.numHashCollisions) = _
    rw [Nat.zero_add, ← List.range_eq_range', u64_of_lt (by omega)] at hnum
    rw [hnum, hfirst, hlast]
    simp only [← Option.isSome_iff_ne_none]
    split_ifs
    · exact u64_of_lt (by omega)
    · rfl

/-! ### Exact results -/

/-- The results of `calculate_max_displacement` are those of the table: the sum and the largest of
the displacements, and the number of entries less that of different hash values. -/
structure Measures (header' header : Hashheader) (hashtable : List UInt8) : Prop where
  totalDisplacement : header'.totalDisplacement = (header.displacements hashtable).sum
  maxDisplacement : header'.maxDisplacement = (header.displacements hashtable).foldl max 0
  hashCollisions : header'.hashCollisions
    = (header.hashes hashtable).length - (header.hashes hashtable).dedup.length

/-- An entry with hash value 0 in front of a free slot, which reads as 0 too. -/
def Hashheader.Ghost (header : Hashheader) (hashtable : List UInt8) : Prop :=
  ∃ slot, slot + 1 < header.hashCapacity ∧ header.hashAt hashtable slot = some 0 ∧
    header.hashAt hashtable (slot + 1) = none

/-- How many runs of entries with one hash value, around the table, have this one. -/
def Hashheader.runs (header : Hashheader) (hashtable : List UInt8) (hash : Nat) : Nat :=
  (starts header.hashCapacity (header.hashAt hashtable)).count hash

/-- The entries with one hash value are next to each other, in one run for each hash value; or one
hash value has two runs, which makes up for an entry with hash value 0 in front of a free slot. -/
def RunsTell (header : Hashheader) (hashtable : List UInt8) : Prop :=
  (¬ header.Ghost hashtable ∧ ∀ hash ∈ header.hashes hashtable, header.runs hashtable hash = 1) ∨
    (header.Ghost hashtable ∧ ∃ hash ∈ header.hashes hashtable, header.runs hashtable hash = 2 ∧
      ∀ other ∈ header.hashes hashtable, other ≠ hash → header.runs hashtable other = 1)

variable [HashFunctions] [Compressors] {log : Logreader} {items live : List (Item Entry)}
  {s s' : Hashing}

omit [HashFunctions] [Compressors] in
theorem length_hashes : (header.hashes hashtable).length
    = repeats header.hashCapacity (header.hashAt hashtable)
      + (starts header.hashCapacity (header.hashAt hashtable)).length := by
  rw [← countP_occupied, Hashheader.hashes, List.length_filterMap_eq_countP]
  refine List.countP_congr fun slot _ => ?_
  rw [decide_eq_true_eq, Option.isSome_iff_ne_none]

omit [Compressors] in
theorem Indexed.hashes_perm (hi : Indexed items header hashtable live) :
    (header.hashes hashtable).Perm (live.map fun it => (header.slotOf it).1) := by
  have hmap := hi.entries.map Prod.fst
  rw [List.map_map, RobinHood.entries, List.map_filterMap] at hmap
  exact hmap

omit [Compressors] in
theorem Indexed.occupied_of_zero (hi : Indexed items header hashtable live)
    (hlt : slot < header.hashCapacity) (hzero : header.hashAt hashtable slot = some 0) :
    ∀ other ≤ slot, header.hashAt hashtable other ≠ none := by
  intro other hle
  obtain ⟨⟨hash, position⟩, hslot, rfl⟩ := Option.map_eq_some_iff.mp hzero
  have hhome : header.home (0, position) = 0 := Nat.zero_mod _
  have hpos := hi.sized.capacity_pos
  obtain ⟨entry, hentry, -⟩ := hi.valid.path (hhome ▸ hpos) hlt hslot (Nat.lt_of_le_of_lt hle hlt)
    (by rw [hhome, RobinHood.dist, if_pos (Nat.zero_le _), RobinHood.dist, if_pos hle]; omega)
  rw [Hashheader.hashAt, hentry]
  exact Option.some_ne_none _

omit [HashFunctions] [Compressors] in
theorem Sized.wordAt_of_free (hs : Sized header hashtable) (h : slot < header.hashCapacity)
    (hfree : header.hashAt hashtable slot = none) : header.wordAt hashtable slot = some 0 := by
  obtain ⟨hash, position, hread, -, -, hslot⟩ := hs.readSlot h
  rw [Hashheader.hashAt, Option.map_eq_none_iff, hslot] at hfree
  split_ifs at hfree with hp
  rw [hp] at hread
  rw [Hashheader.wordAt, hread, hs.blank slot hash hread]
  rfl

omit [Compressors] in
/-- **At most one free slot** reads as the entry in front of it. -/
theorem Indexed.ghosts_eq (hi : Indexed items header hashtable live) :
    (header.Ghost hashtable → ghosts header.hashCapacity (header.hashAt hashtable)
      (header.wordAt hashtable) = 1) ∧
    (¬ header.Ghost hashtable → ghosts header.hashCapacity (header.hashAt hashtable)
      (header.wordAt hashtable) = 0) := by
  have hghost : ∀ slot < header.hashCapacity,
      (slot ≠ 0 ∧ header.hashAt hashtable slot = none ∧ header.hashAt hashtable (slot - 1) ≠ none ∧
        header.hashAt hashtable (slot - 1) = header.wordAt hashtable slot) →
      slot ≠ 0 ∧ header.hashAt hashtable slot = none ∧ header.hashAt hashtable (slot - 1) = some 0 := by
    rintro slot hlt ⟨h0, hfree, -, heq⟩
    exact ⟨h0, hfree, heq.trans (hi.sized.wordAt_of_free hlt hfree)⟩
  constructor
  · rintro ⟨slot, hlt, hzero, hfree⟩
    rw [ghosts]
    refine Eq.trans (List.countP_congr fun other hother => ?_)
      (List.count_eq_one_of_mem List.nodup_range (List.mem_range.mpr hlt))
    have hother := List.mem_range.mp hother
    rw [decide_eq_true_eq, beq_iff_eq]
    constructor
    · intro h
      obtain ⟨h0, hfree', hzero'⟩ := hghost other hother h
      -- of two such slots the first would be in front of an entry with hash value 0
      rcases Nat.lt_trichotomy other (slot + 1) with hlt' | heq | hgt
      · exact absurd hfree' (hi.occupied_of_zero (by omega) hzero other (by omega))
      · exact heq
      · exact absurd hfree (hi.occupied_of_zero (by omega) hzero' (slot + 1) (by omega))
    · rintro rfl
      refine ⟨Nat.succ_ne_zero _, hfree, ?_, ?_⟩
      · rw [Nat.add_sub_cancel, hzero]
        exact Option.some_ne_none _
      · rw [Nat.add_sub_cancel, hzero, hi.sized.wordAt_of_free hlt hfree]
  · intro hnot
    rw [ghosts, List.countP_eq_zero]
    intro slot hslot
    rw [decide_eq_true_eq]
    intro h
    obtain ⟨h0, hfree, hzero⟩ := hghost slot (List.mem_range.mp hslot) h
    have hslot := List.mem_range.mp hslot
    have hsucc : slot - 1 + 1 = slot := by omega
    exact hnot ⟨slot - 1, by rwa [hsucc], hzero, by rwa [hsucc]⟩

omit [Compressors] in
/-- **The layout tells** when there are as many runs as hash values and slots that only read so. -/
theorem Indexed.runsTell_iff (hi : Indexed items header hashtable live) :
    RunsTell header hashtable ↔ (starts header.hashCapacity (header.hashAt hashtable)).length
      = (header.hashes hashtable).dedup.length
        + ghosts header.hashCapacity (header.hashAt hashtable) (header.wordAt hashtable) := by
  by_cases hghost : header.Ghost hashtable
  · rw [hi.ghosts_eq.1 hghost]
    refine Iff.trans ?_ length_starts_eq_succ_iff.symm
    exact ⟨fun h => h.elim (fun h => absurd hghost h.1) And.right, fun h => Or.inr ⟨hghost, h⟩⟩
  · rw [hi.ghosts_eq.2 hghost, Nat.add_zero]
    refine Iff.trans ?_ length_starts_eq_iff.symm
    exact ⟨fun h => h.elim And.right fun h => absurd h.1 hghost, fun h => Or.inl ⟨hghost, h⟩⟩

/-- **When the results of the scan are exact.**  The largest displacement always is. -/
theorem exact_iff_of_reached (hl : log.Holds items) (h : Reached log items s) :
    ∃ live s', Indexed items s.hashHeader s.hashtable live ∧
      (s.hashHeader.hashes s.hashtable).Perm (live.map fun it => (s.hashHeader.slotOf it).1) ∧
      calculateMaxDisplacement.run s = .ok () s' ∧
      s'.hashHeader.maxDisplacement = (s.hashHeader.displacements s.hashtable).foldl max 0 ∧
      s'.hashHeader.totalDisplacement = u64 (s.hashHeader.displacements s.hashtable).sum ∧
      (Measures s'.hashHeader s.hashHeader s.hashtable ↔
        (s.hashHeader.displacements s.hashtable).sum < 2 ^ 64 ∧ RunsTell s.hashHeader s.hashtable) := by
  obtain ⟨-, live, hi⟩ := h.indexed hl
  obtain ⟨s', hrun, -, -, hmax, htotal, -⟩ := run_calculateMaxDisplacement hi
  have hcoll := hashCollisions_eq hi.sized hrun
  have hlen : (s.hashHeader.hashes s.hashtable).length
      = repeats s.hashHeader.hashCapacity (s.hashHeader.hashAt s.hashtable)
        + (starts s.hashHeader.hashCapacity (s.hashHeader.hashAt s.hashtable)).length := length_hashes
  have hle : (s.hashHeader.hashes s.hashtable).dedup.length ≤ (s.hashHeader.hashes s.hashtable).length :=
    (List.dedup_sublist _).length_le
  refine ⟨live, s', hi, hi.hashes_perm, hrun, hmax, htotal, ?_, ?_⟩
  · intro hm
    have hsum := hm.totalDisplacement
    have hnum := hm.hashCollisions
    rw [htotal] at hsum
    rw [hcoll] at hnum
    refine ⟨hsum ▸ u64_lt _, hi.runsTell_iff.mpr ?_⟩
    omega
  · rintro ⟨hlt, hruns⟩
    have hruns := hi.runsTell_iff.mp hruns
    refine ⟨htotal.trans (u64_of_lt hlt), hmax, ?_⟩
    rw [hcoll]
    omega

omit [HashFunctions] [Compressors] in
/-- In the table with the entries of `[1]` and `[5]` both have hash value 1, and the first slot is
free. -/
theorem exact_iff_of_reached_sample :
    letI := literalCompressors
    letI := lengthHash
    ∃ log items s s', Reached log items s ∧ calculateMaxDisplacement.run s = .ok () s' ∧
      s.hashHeader.hashes s.hashtable = [1, 1] ∧ s'.hashHeader.hashCollisions = 1 ∧
      Measures s'.hashHeader s.hashHeader s.hashtable := by
  let := literalCompressors
  let := lengthHash
  obtain ⟨log, a, b, rest, s, hl, hkeya, hkeyb, hs, hcap, hsize, -, hi⟩ := exists_pairTable
  obtain ⟨live, s', -, -, hrun, -, -, hiff⟩ := exact_iff_of_reached hl.toHolds hs
  have hone : ∀ it ∈ [b, a], (s.hashHeader.slotOf it).1 = 1 := by
    intro it hit
    rw [Hashheader.slotOf, hsize]
    rcases List.mem_pair.mp hit with rfl | rfl
    · rw [hkeyb]
      rfl
    · rw [hkeya]
      rfl
  have hvalue : ∀ slot < 3, s.hashHeader.hashAt s.hashtable slot ≠ none →
      s.hashHeader.hashAt s.hashtable slot = some 1 ∧ slot ≠ 0 := by
    intro slot hslot hne
    have hslots : s.hashHeader.slots s.hashtable slot ≠ none :=
      fun h => hne (by rw [Hashheader.hashAt, h]; rfl)
    obtain ⟨entry, hentry⟩ := Option.ne_none_iff_exists'.mp hslots
    obtain ⟨it, hit, rfl⟩ := hi.mem_entries (by rwa [hcap]) hentry
    have hlt := displacement_lt hi (by rwa [hcap]) hentry
    rw [hcap, Hashheader.home, hone it hit, hcap] at hlt
    refine ⟨by rw [Hashheader.hashAt, hentry, Option.map_some, hone it hit], ?_⟩
    -- both want slot 1, and slot 0 is two slots behind it
    rintro rfl
    exact absurd (show 2 < 2 from hlt) (by decide)
  have hfree : s.hashHeader.hashAt s.hashtable 0 = none := by
    by_contra hne
    exact (hvalue 0 (by decide) hne).2 rfl
  have hlen : (s.hashHeader.hashes s.hashtable).length = 2 := hi.hashes_perm.length_eq
  obtain ⟨hfirst, hsecond⟩ : s.hashHeader.hashAt s.hashtable 1 = some 1 ∧
      s.hashHeader.hashAt s.hashtable 2 = some 1 := by
    rw [Hashheader.hashes, hcap, List.length_filterMap_eq_countP, show List.range 3 = [0] ++ [1, 2] from rfl,
      List.countP_append, List.countP_singleton, hfree, Option.isSome_none, if_neg Bool.false_ne_true,
      Nat.zero_add] at hlen
    have hboth := List.countP_eq_length.mp hlen
    have hvalue' : ∀ slot ∈ [1, 2], slot < 3 → s.hashHeader.hashAt s.hashtable slot = some 1 :=
      fun slot hmem hslot => (hvalue slot hslot (Option.isSome_iff_ne_none.mp (hboth slot hmem))).1
    exact ⟨hvalue' 1 (by decide) (by decide), hvalue' 2 (by decide) (by decide)⟩
  have hhashes : s.hashHeader.hashes s.hashtable = [1, 1] := by
    rw [Hashheader.hashes, hcap]
    simp [List.range_succ, hfree, hfirst, hsecond]
  have hstarts : starts s.hashHeader.hashCapacity (s.hashHeader.hashAt s.hashtable) = [1] := by
    rw [starts, hcap]
    simp [List.range_succ, inFront, hfree, hfirst, hsecond]
  have hm : Measures s'.hashHeader s.hashHeader s.hashtable := by
    refine hiff.mpr ⟨?_, Or.inl ⟨?_, ?_⟩⟩
    · refine Nat.lt_of_le_of_lt (List.sum_le_card_nsmul _ 2 fun d hd => ?_) ?_
      · obtain ⟨slot, hslot, hd⟩ := List.mem_filterMap.mp hd
        obtain ⟨entry, hentry, rfl⟩ := Option.map_eq_some_iff.mp hd
        refine (displacement_lt hi ?_ hentry).le
        simpa using hslot
      · rw [length_displacements hi]
        show 2 * 2 < 2 ^ 64
        decide
    · rintro ⟨slot, hslot, hzero, -⟩
      have := (hvalue slot (by omega) (hzero ▸ Option.some_ne_none _)).1
      rw [hzero] at this
      cases this
    · intro hash hhash
      rw [hhashes] at hhash
      obtain rfl : hash = 1 := by simpa using hhash
      rw [Hashheader.runs, hstarts]
      rfl
  refine ⟨log, _, s, s', hs, hrun, hhashes, ?_, hm⟩
  rw [hm.hashCollisions, hhashes]
  rfl

omit [HashFunctions] [Compressors] in
/-- **A table of one slot**, as it is made for a log with one put: its entry counts as a collision. -/
theorem hashCollisions_of_onePut :
    letI := literalCompressors
    letI := lengthHash
    ∃ log items s s', log.Holds items ∧ Reached log items s ∧
      calculateMaxDisplacement.run s = .ok () s' ∧ s.hashHeader.hashCapacity = 1 ∧
      (s.hashHeader.hashes s.hashtable).length = 1 ∧ (s.hashHeader.hashes s.hashtable).Nodup ∧
      s'.hashHeader.hashCollisions = 1 ∧ ¬ Measures s'.hashHeader s.hashHeader s.hashtable := by
  let := literalCompressors
  let := lengthHash
  obtain ⟨log, item, b, rest, s₀, hl, hput, -, -, -, hzero, hcap, -⟩ := exists_sampleTable
  obtain ⟨header, hheader⟩ : ∃ header, header = { s₀.hashHeader with hashCapacity := 1 } := ⟨_, rfl⟩
  obtain ⟨s₁, hs₁⟩ : ∃ s₁ : Hashing, s₁ = { s₀ with
      hashHeader := header, hashtable := List.replicate (header.slotSize * 1) 0 } := ⟨_, rfl⟩
  have hcap₁ : s₁.hashHeader.hashCapacity = 1 := by rw [hs₁, hheader]
  have hsize : s₁.hashHeader.slotSize ≤ 16 := by
    have haddress := hzero.addressSize
    have hhash := hzero.hashSize
    rw [hs₁, hheader]
    show s₀.hashHeader.addressSize + s₀.hashHeader.hashSize ≤ 16
    omega
  have hzero₁ : ZeroTable (item :: b :: rest) s₁ := by
    refine ⟨?_, ?_, ?_, ?_, ?_, ?_, ?_⟩
    · rw [hs₁, hheader]
      exact hzero.addressSize
    · rw [hs₁, hheader]
      exact hzero.hashSize
    · rw [hcap₁]
      decide
    · have hlen : s₁.hashtable.length = s₁.hashHeader.slotSize := by
        rw [hs₁]
        exact (List.length_replicate ..).trans (Nat.mul_one _)
      omega
    · rw [hcap₁, hs₁]
    · rw [hs₁, hheader]
      exact hzero.numEntries
    · rw [hs₁, hheader]
      exact ⟨hzero.addressed.ne_zero, hzero.addressed.lt, hzero.addressed.positionOf,
        hzero.addressed.entryIndexOf⟩
  obtain ⟨s, hreached, hrec, hi⟩ := Reached.exists_put hl.toHolds (.zero hzero₁) (indexed_zero hzero₁)
    List.mem_cons_self hput nofun (by rw [hcap₁]; decide)
  have hcap' : s.hashHeader.hashCapacity = 1 := hrec.capacity.trans hcap₁
  obtain ⟨s', hrun, -⟩ := run_calculateMaxDisplacement hi
  have hlen : (s.hashHeader.hashes s.hashtable).length = 1 := by
    rw [hi.hashes_perm.length_eq]
    rfl
  obtain ⟨hash, hhashes⟩ := List.length_eq_one_iff.mp hlen
  have hat : s.hashHeader.hashAt s.hashtable 0 = some hash := by
    rw [Hashheader.hashes, hcap'] at hhashes
    cases h : s.hashHeader.hashAt s.hashtable 0 with
    | none => simp [h] at hhashes
    | some h₀ => simpa [h] using hhashes
  -- the slot is in front of itself
  have hcoll : s'.hashHeader.hashCollisions = 1 := by
    rw [hashCollisions_eq hi.sized hrun, hcap']
    simp [repeats, ghosts, inFront, hat]
  refine ⟨log, item :: b :: rest, s, s', hl.toHolds, hreached, hrun, hcap', hlen, ?_, hcoll, ?_⟩
  · rw [hhashes]
    exact List.nodup_singleton _
  · intro hm
    have := hm.hashCollisions
    rw [hcoll, hhashes, (List.nodup_singleton hash).dedup] at this
    simp at this

end Sparkey
