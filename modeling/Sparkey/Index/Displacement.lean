import Sparkey.Index.Build

/-!
# Counting displacements

`calculate_max_displacement` scans the table once.  Its maximum and its total are
those of the displacements of the stored entries, which depend on the wanted slots
alone; and the checks of the loader on its results always hold.
-/

namespace Sparkey

open Program BlockStream RobinHood LastWrite

def Hashheader.displacementsFrom (header : Hashheader) (hashtable : List UInt8) (slot n : Nat) :
    List Nat :=
  (List.range' slot n).filterMap fun slot => (header.slots hashtable slot).map fun entry =>
    dist header.hashCapacity (header.home entry) slot

/-- The displacements of the stored entries, slot by slot. -/
def Hashheader.displacements (header : Hashheader) (hashtable : List UInt8) : List Nat :=
  header.displacementsFrom hashtable 0 header.hashCapacity

variable {header : Hashheader} {hashtable : List UInt8}

theorem displacementsFrom_succ (slot n : Nat) :
    header.displacementsFrom hashtable slot (n + 1)
      = ((header.slots hashtable slot).map fun entry =>
          dist header.hashCapacity (header.home entry) slot).toList
        ++ header.displacementsFrom hashtable (slot + 1) n := by
  rw [Hashheader.displacementsFrom, List.range'_succ, List.filterMap_cons]
  cases header.slots hashtable slot <;> rfl

/-- What the scan knows before `slot`, `k` entries being stored before it: between two entries
with one hash value there is no free slot. -/
structure Scanning (capacity slot k : Nat) (d : Displacements) : Prop where
  total_lt : d.totalDisplacement < 2 ^ 64
  collisions : d.numHashCollisions + (if d.prev.isSome then 1 else 0) ≤ k
  last : d.last.isSome → d.prev.isSome ∧ slot = capacity

theorem Scanning.round_free {capacity slot k : Nat} {d : Displacements}
    (h : Scanning capacity slot k d) (hash : Nat) (hlt : slot < capacity) (hk : k < 2 ^ 64 - 1) :
    Scanning capacity (slot + 1) k (d.round capacity slot hash 0) ∧
      (d.round capacity slot hash 0).maxDisplacement = d.maxDisplacement ∧
      (d.round capacity slot hash 0).totalDisplacement = d.totalDisplacement := by
  have hlast : d.last = none := by
    cases hl : d.last with
    | none => rfl
    | some x =>
      have := (h.last (by rw [hl]; rfl)).2
      omega
  have hcoll := h.collisions
  unfold Displacements.round
  by_cases hprev : d.prev = some hash
  · rw [hprev, Option.isSome_some, if_pos rfl] at hcoll
    simp only [hprev, if_true, ne_eq, not_true_eq_false, if_false]
    refine ⟨⟨h.total_lt, ?_, ?_⟩, trivial, trivial⟩
    · show u64 (d.numHashCollisions + 1) + 0 ≤ k
      rw [u64_of_lt (by omega)]
      omega
    · intro hs
      rw [show (_ : Option Nat) = none from hlast] at hs
      cases hs
  · simp only [if_neg hprev, ne_eq, not_true_eq_false, if_false]
    refine ⟨⟨h.total_lt, ?_, ?_⟩, trivial, trivial⟩
    · show d.numHashCollisions + 0 ≤ k
      omega
    · intro hs
      rw [show (_ : Option Nat) = none from hlast] at hs
      cases hs

theorem Scanning.round_occupied {capacity slot k position : Nat} {d : Displacements}
    (h : Scanning capacity slot k d) (hash : Nat) (hlt : slot < capacity) (hcap : capacity < 2 ^ 63)
    (hk : k < 2 ^ 64 - 1) (h0 : position ≠ 0) :
    Scanning capacity (slot + 1) (k + 1) (d.round capacity slot hash position) ∧
      (d.round capacity slot hash position).maxDisplacement
        = max d.maxDisplacement (dist capacity (hash % capacity) slot) ∧
      (d.round capacity slot hash position).totalDisplacement
        = u64 (d.totalDisplacement + dist capacity (hash % capacity) slot) := by
  have hlast : d.last = none := by
    cases hl : d.last with
    | none => rfl
    | some x =>
      have := (h.last (by rw [hl]; rfl)).2
      omega
  have hcoll := h.collisions
  have hdisp := getDisplacement_eq hcap hlt hash
  have hstep : ∀ n, n ≤ k → Scanning capacity (slot + 1) (k + 1)
      { maxDisplacement := max d.maxDisplacement (getDisplacement capacity slot hash)
        numHashCollisions := n
        totalDisplacement := u64 (d.totalDisplacement + getDisplacement capacity slot hash)
        first := if slot = 0 then some hash else d.first
        last := if slot = capacity - 1 then some hash else d.last
        prev := some hash } := by
    intro n hn
    refine ⟨u64_lt _, ?_, ?_⟩
    · show n + 1 ≤ k + 1
      omega
    · intro hs
      refine ⟨rfl, ?_⟩
      by_cases hend : slot = capacity - 1
      · omega
      · rw [show (if slot = capacity - 1 then some hash else d.last) = none by
          rw [if_neg hend, hlast]] at hs
        cases hs
  unfold Displacements.round
  by_cases hprev : d.prev = some hash
  · rw [hprev, Option.isSome_some, if_pos rfl] at hcoll
    simp only [hprev, if_true, if_pos h0]
    refine ⟨hstep _ ?_, by rw [hdisp], by rw [hdisp]⟩
    rw [u64_of_lt (by omega)]
    omega
  · simp only [if_neg hprev, if_pos h0]
    exact ⟨hstep _ (by omega), by rw [hdisp], by rw [hdisp]⟩

/-- **The scan** from `slot` on. -/
theorem displacementsLoop_eq (hs : Sized header hashtable) : ∀ (n slot : Nat) {k : Nat}
    {d : Displacements}, slot + n = header.hashCapacity → k ≤ slot →
    Scanning header.hashCapacity slot k d →
    ∃ d', displacementsLoop header hashtable n slot d = some d' ∧
      Scanning header.hashCapacity header.hashCapacity
        (k + (header.displacementsFrom hashtable slot n).length) d' ∧
      d'.maxDisplacement
        = (header.displacementsFrom hashtable slot n).foldl max d.maxDisplacement ∧
      d'.totalDisplacement
        = u64 (d.totalDisplacement + (header.displacementsFrom hashtable slot n).sum) := by
  intro n
  induction n with
  | zero =>
    intro slot k d hn _ h
    refine ⟨d, rfl, ?_, rfl, ?_⟩
    · obtain rfl : slot = header.hashCapacity := by omega
      exact h
    · exact (u64_of_lt h.total_lt).symm
  | succ n ih =>
    intro slot k d hn hk h
    have hlt : slot < header.hashCapacity := by omega
    have hcap := hs.capacity_lt
    obtain ⟨hash, position, hread, -, -, hslot⟩ := hs.readSlot hlt
    rw [displacementsFrom_succ, hslot]
    simp only [displacementsLoop, hread]
    by_cases h0 : position = 0
    · subst h0
      obtain ⟨hscan, hmax, htotal⟩ := h.round_free hash hlt (by omega)
      obtain ⟨d', hrun, hscan', hmax', htotal'⟩ := ih (slot + 1) (by omega) (by omega) hscan
      rw [hmax] at hmax'
      rw [htotal] at htotal'
      exact ⟨d', hrun, hscan', hmax', htotal'⟩
    · obtain ⟨hscan, hmax, htotal⟩ := h.round_occupied hash hlt hcap (by omega) h0
      obtain ⟨d', hrun, hscan', hmax', htotal'⟩ := ih (slot + 1) (by omega) (by omega) hscan
      have hlist : ((if position = 0 then none else some (hash, position)).map fun entry =>
          dist header.hashCapacity (header.home entry) slot).toList
            = [dist header.hashCapacity (hash % header.hashCapacity) slot] := by
        rw [if_neg h0]
        rfl
      rw [hlist]
      refine ⟨d', hrun, ?_, ?_, ?_⟩
      · rw [List.length_append, List.length_singleton, ← Nat.add_assoc]
        exact hscan'
      · rw [hmax', hmax]
        rfl
      · rw [htotal', htotal, u64_add_u64, List.sum_append, List.sum_singleton, Nat.add_assoc]

theorem Recounted.displacements {header' : Hashheader} (h : Recounted header header') :
    header'.displacements hashtable = header.displacements hashtable := by
  unfold Hashheader.displacements Hashheader.displacementsFrom
  rw [h.slots, h.home, h.capacity]

variable [HashFunctions] {items live : List (Item Entry)} {s : Hashing}

theorem length_displacements (hi : Indexed items header hashtable live) :
    (header.displacements hashtable).length = live.length := by
  have hlen := hi.entries.length_eq
  rw [List.length_map, length_entries] at hlen
  rw [← hlen, Hashheader.displacements, Hashheader.displacementsFrom, ← List.range_eq_range',
    List.length_filterMap_eq_countP]
  refine List.countP_congr fun slot _ => ?_
  rw [Option.isSome_map]

/-- **A displacement is smaller than the number of entries**: the slots on the way are occupied. -/
theorem displacement_lt (hi : Indexed items header hashtable live) {slot : Nat}
    (hslot : slot < header.hashCapacity) {entry : Nat × Nat}
    (h : header.slots hashtable slot = some entry) :
    dist header.hashCapacity (header.home entry) slot < live.length := by
  have hhome := Hashheader.home_lt hi.sized entry
  have hlen := hi.entries.length_eq
  rw [List.length_map, length_entries] at hlen
  rw [← hlen, List.countP_eq_length_filter]
  -- the slots from the wanted one on are different, and all occupied
  obtain ⟨path, hpath⟩ : ∃ path : List Nat, path =
      (List.range (dist header.hashCapacity (header.home entry) slot + 1)).map
        fun i => (header.home entry + i) % header.hashCapacity := ⟨_, rfl⟩
  have hd := dist_lt hhome hslot
  have hnodup : path.Nodup := by
    rw [hpath]
    refine List.Nodup.map_on ?_ List.nodup_range
    intro a ha b hb hab
    rw [List.mem_range] at ha hb
    generalize header.home entry = w at *
    generalize header.hashCapacity = c at *
    rcases Nat.lt_or_ge (w + a) c with h₁ | h₁ <;> rcases Nat.lt_or_ge (w + b) c with h₂ | h₂
    · rw [Nat.mod_eq_of_lt h₁, Nat.mod_eq_of_lt h₂] at hab
      omega
    · rw [Nat.mod_eq_of_lt h₁, Nat.mod_eq_sub_mod h₂, Nat.mod_eq_of_lt (by omega)] at hab
      omega
    · rw [Nat.mod_eq_of_lt h₂, Nat.mod_eq_sub_mod h₁, Nat.mod_eq_of_lt (by omega)] at hab
      omega
    · rw [Nat.mod_eq_sub_mod h₁, Nat.mod_eq_sub_mod h₂, Nat.mod_eq_of_lt (by omega),
        Nat.mod_eq_of_lt (by omega)] at hab
      omega
  have hsub : ∀ z ∈ path, z ∈ (List.range header.hashCapacity).filter
      fun slot => (header.slots hashtable slot).isSome := by
    intro z hz
    rw [hpath] at hz
    obtain ⟨i, hi', rfl⟩ := List.mem_map.mp hz
    rw [List.mem_range] at hi'
    have hzlt : (header.home entry + i) % header.hashCapacity < header.hashCapacity :=
      Nat.mod_lt _ hi.sized.capacity_pos
    rw [List.mem_filter]
    refine ⟨List.mem_range.mpr hzlt, ?_⟩
    obtain ⟨b, hb, -⟩ := hi.valid.path hhome hslot h hzlt (by
      generalize header.home entry = w at *
      generalize header.hashCapacity = c at *
      rcases Nat.lt_or_ge (w + i) c with h₁ | h₁
      · rw [Nat.mod_eq_of_lt h₁]
        unfold RobinHood.dist at *
        split_ifs at * <;> omega
      · rw [Nat.mod_eq_sub_mod h₁, Nat.mod_eq_of_lt (by omega)]
        unfold RobinHood.dist at *
        split_ifs at * <;> omega)
    rw [hb]
    rfl
  have hle := (List.subperm_of_subset hnodup hsub).length_le
  rw [hpath, List.length_map, List.length_range] at hle
  exact hle

omit [HashFunctions] in
theorem foldl_max_le {l : List Nat} {a n : Nat} (ha : a ≤ n) (h : ∀ x ∈ l, x ≤ n) :
    l.foldl max a ≤ n := by
  induction l generalizing a with
  | nil => exact ha
  | cons x l ih =>
    exact ih (Nat.max_le.mpr ⟨ha, h x List.mem_cons_self⟩)
      fun y hy => h y (List.mem_cons_of_mem _ hy)

/-- **`calculate_max_displacement`** ends, and what it finds passes the checks of the loader. -/
theorem run_calculateMaxDisplacement (hi : Indexed items s.hashHeader s.hashtable live) :
    ∃ s', calculateMaxDisplacement.run s = .ok () s' ∧ s'.hashtable = s.hashtable ∧
      Updated items s s' live 0 ∧
      s'.hashHeader.maxDisplacement
        = (s.hashHeader.displacements s.hashtable).foldl max 0 ∧
      s'.hashHeader.totalDisplacement = u64 (s.hashHeader.displacements s.hashtable).sum ∧
      s'.hashHeader.maxDisplacement ≤ live.length ∧ s'.hashHeader.hashCollisions ≤ live.length := by
  have hscan₀ : Scanning s.hashHeader.hashCapacity 0 0 ⟨0, 0, 0, none, none, none⟩ :=
    ⟨Nat.two_pow_pos _, Nat.le_refl _, nofun⟩
  obtain ⟨d, hrun, hscan, hmax, htotal⟩ := displacementsLoop_eq hi.sized s.hashHeader.hashCapacity 0
    (Nat.zero_add _) (Nat.le_refl _) hscan₀
  have hlen : (s.hashHeader.displacementsFrom s.hashtable 0 s.hashHeader.hashCapacity).length
      = live.length := length_displacements hi
  rw [Nat.zero_add, hlen] at hscan
  rw [Nat.zero_add] at htotal
  have hcoll := hscan.collisions
  have hle := hi.length_le
  have hcap := hi.sized.capacity_lt
  obtain ⟨n, hn⟩ : ∃ n, n = if d.first.isSome ∧ d.first = d.last
      then u64 (d.numHashCollisions + 1) else d.numHashCollisions := ⟨_, rfl⟩
  have hnle : n ≤ live.length := by
    rw [hn]
    split_ifs with hwrap
    · -- the last slot is occupied, too
      have hlast : d.last.isSome := hwrap.2 ▸ hwrap.1
      rw [if_pos (hscan.last hlast).1] at hcoll
      rw [u64_of_lt (by omega)]
      exact hcoll
    · omega
  have hrun' : calculateMaxDisplacement.run s = .ok () { s with hashHeader := { s.hashHeader with
      totalDisplacement := d.totalDisplacement
      maxDisplacement := d.maxDisplacement
      hashCollisions := n } } := by
    rw [calculateMaxDisplacement, run_get_bind, hrun, hn]
    rfl
  refine ⟨_, hrun', rfl, ⟨rfl, hi.of_recounted rfl rfl, fun hlt => (u64_of_lt hlt).symm⟩, hmax, htotal, ?_,
    hnle⟩
  show d.maxDisplacement ≤ live.length
  rw [hmax]
  refine foldl_max_le (Nat.zero_le _) fun x hx => ?_
  rw [Hashheader.displacementsFrom] at hx
  obtain ⟨slot, hslot, hx⟩ := List.mem_filterMap.mp hx
  obtain ⟨entry, hentry, rfl⟩ := Option.map_eq_some_iff.mp hx
  have hslot' : slot < s.hashHeader.hashCapacity := by
    have := List.mem_range'_1.mp hslot
    omega
  exact Nat.le_of_lt (displacement_lt hi hslot' hentry)

end Sparkey
