import Sparkey.Index.Displacement
import Sparkey.Index.Invariant
import Sparkey.Lib.LinearProbing

/-!
# A table forgets its history

Which slots of a table are occupied, and which slot the entry there wants, depends
on the keys that are stored and on nothing else: not on the order they came in, nor
on what was deleted in between, nor on where in which log their entries are.  So do
the displacements.  Plain linear probing displaces the same keys as much in all, and one
of them at least as far as any (`displacement_of_reached`).
-/

namespace Sparkey

open Program BlockStream RobinHood LastWrite

variable [HashFunctions] {items items' live live' : List (Item Entry)} {s s' : Hashing}

theorem homes_perm (hi : Indexed items s.hashHeader s.hashtable live)
    (hi' : Indexed items' s'.hashHeader s'.hashtable live')
    (hcap : s'.hashHeader.hashCapacity = s.hashHeader.hashCapacity)
    (hhash : SameHash s.hashHeader s'.hashHeader)
    (hkeys : ∀ key, (∃ it ∈ live, it.val.key = key) ↔ ∃ it ∈ live', it.val.key = key) :
    ((entries s.hashHeader.hashCapacity s.slots).map s.hashHeader.home).Perm
      ((entries s.hashHeader.hashCapacity s'.slots).map s'.hashHeader.home) := by
  have hentries' := hi'.entries
  rw [hcap] at hentries'
  have hperm : (live.map itemKind.key).Perm (live'.map itemKind.key) := by
    refine (List.perm_ext_iff_of_nodup hi.distinct hi'.distinct).mpr fun key => ?_
    simpa using hkeys key
  -- the wanted slot is one of the key
  have hhome : ∀ it : Item Entry, s.hashHeader.home (s.hashHeader.slotOf it)
      = HashFunctions.hash s.hashHeader.hashSize (itemKind.key it) s.hashHeader.hashSeed
        % s.hashHeader.hashCapacity := fun it => rfl
  have hhome' : ∀ it : Item Entry, s'.hashHeader.home (s'.hashHeader.slotOf it)
      = HashFunctions.hash s.hashHeader.hashSize (itemKind.key it) s.hashHeader.hashSeed
        % s.hashHeader.hashCapacity := fun it => by
    rw [Hashheader.home, Hashheader.slotOf, hcap, hhash.hashSize, hhash.hashSeed]
    rfl
  have hwanted := hperm.map fun key => HashFunctions.hash s.hashHeader.hashSize key
    s.hashHeader.hashSeed % s.hashHeader.hashCapacity
  rw [List.map_map, List.map_map] at hwanted
  have hcomp : s.hashHeader.home ∘ s.hashHeader.slotOf
      = (fun key => HashFunctions.hash s.hashHeader.hashSize key s.hashHeader.hashSeed
        % s.hashHeader.hashCapacity) ∘ itemKind.key := funext hhome
  have hcomp' : s'.hashHeader.home ∘ s'.hashHeader.slotOf
      = (fun key => HashFunctions.hash s.hashHeader.hashSize key s.hashHeader.hashSeed
        % s.hashHeader.hashCapacity) ∘ itemKind.key := funext hhome'
  have h₁ := hi.entries.map s.hashHeader.home
  have h₂ := hentries'.map s'.hashHeader.home
  rw [List.map_map, hcomp] at h₁
  rw [List.map_map, hcomp'] at h₂
  exact h₁.trans (hwanted.trans h₂.symm)

variable [Compressors] {log log' : Logreader}

/-- **History independence**: two tables of one capacity, reached by calls on the same or on
different logs, that store the same keys are occupied in the same slots, by entries that want the
same slots, and `calculate_max_displacement` finds the same displacements in them. -/
theorem layout_of_reached (hl : log.Holds items) (hl' : log'.Holds items')
    (h : Reached log items s) (h' : Reached log' items' s')
    (hcap : s'.hashHeader.hashCapacity = s.hashHeader.hashCapacity)
    (hhash : SameHash s.hashHeader s'.hashHeader)
    (hkeys : ∀ key, (∃ address, s.Stores items key address)
      ↔ ∃ address, s'.Stores items' key address) :
    (∀ slot < s.hashHeader.hashCapacity,
      (s.slots slot).map (fun entry => entry.1 % s.hashHeader.hashCapacity)
        = (s'.slots slot).map fun entry => entry.1 % s.hashHeader.hashCapacity) ∧
    ∃ s₁ s₁', calculateMaxDisplacement.run s = .ok () s₁ ∧
      calculateMaxDisplacement.run s' = .ok () s₁' ∧
      s₁.hashHeader.maxDisplacement = s₁'.hashHeader.maxDisplacement ∧
      s₁.hashHeader.totalDisplacement = s₁'.hashHeader.totalDisplacement := by
  obtain ⟨ha, live, hi⟩ := h.indexed hl
  obtain ⟨ha', live', hi'⟩ := h'.indexed hl'
  have hkeys' : ∀ key, (∃ it ∈ live, it.val.key = key) ↔ ∃ it ∈ live', it.val.key = key := by
    intro key
    have hk := hkeys key
    simp only [hi.stores_iff hl ha, hi'.stores_iff hl' ha'] at hk
    constructor
    · rintro ⟨it, hit, hkey⟩
      obtain ⟨_, it', hit', hkey', -⟩ := hk.mp ⟨_, it, hit, hkey, rfl⟩
      exact ⟨it', hit', hkey'⟩
    · rintro ⟨it, hit, hkey⟩
      obtain ⟨_, it', hit', hkey', -⟩ := hk.mpr ⟨_, it, hit, hkey, rfl⟩
      exact ⟨it', hit', hkey'⟩
  have hvalid' := hi'.valid
  have hhome' : ∀ entry, s'.hashHeader.home entry < s.hashHeader.hashCapacity := fun entry => by
    rw [← hcap]
    exact Hashheader.home_lt hi'.sized entry
  rw [hcap] at hvalid'
  have hunique := layout_unique hi.valid hvalid' (Hashheader.home_lt hi.sized) hhome'
    (homes_perm hi hi' hcap hhash hkeys')
  have heq : s'.hashHeader.home = s.hashHeader.home := by
    funext entry
    rw [Hashheader.home, Hashheader.home, hcap]
  rw [heq] at hunique
  refine ⟨hunique, ?_⟩
  obtain ⟨s₁, hrun, -, -, hmax, htotal, -⟩ := run_calculateMaxDisplacement hi
  obtain ⟨s₁', hrun', -, -, hmax', htotal', -⟩ := run_calculateMaxDisplacement hi'
  have hdisp : s.hashHeader.displacements s.hashtable = s'.hashHeader.displacements s'.hashtable := by
    unfold Hashheader.displacements Hashheader.displacementsFrom
    rw [hcap, heq]
    refine List.filterMap_congr fun slot hslot => ?_
    have hlt : slot < s.hashHeader.hashCapacity := by
      have := List.mem_range'_1.mp hslot
      omega
    have := congrArg (Option.map fun w => dist s.hashHeader.hashCapacity w slot) (hunique slot hlt)
    rw [Option.map_map, Option.map_map] at this
    exact this
  exact ⟨s₁, s₁', hrun, hrun', by rw [hmax, hmax', hdisp], by rw [htotal, htotal', hdisp]⟩

omit [HashFunctions] [Compressors] in
theorem layout_of_reached_sample :
    letI := literalCompressors
    letI := lengthHash
    ∃ log items s s', Reached log items s ∧ Reached log items s' ∧ s.occupied = 2 ∧
      ∀ slot < 3, (s.slots slot).map (fun entry => entry.1 % 3)
        = (s'.slots slot).map fun entry => entry.1 % 3 := by
  let := literalCompressors
  let := lengthHash
  obtain ⟨log, a, b, rest, s₀, hl, hputa, hkeya, hputb, hkeyb, hzero, hcap, -⟩ := exists_sampleTable
  have hne : a.val.key ≠ b.val.key := by
    rw [hkeya, hkeyb]
    decide
  have hmema : a ∈ a :: b :: rest := List.mem_cons_self
  have hmemb : b ∈ a :: b :: rest := List.mem_cons_of_mem _ List.mem_cons_self
  have hi₀ := indexed_zero hzero
  -- the two keys collide, and come in either order
  obtain ⟨s₁, hr₁, hrec₁, hi₁⟩ := Reached.exists_put hl.toHolds (.zero hzero) hi₀ hmema hputa nofun
    (by rw [hcap]; decide)
  obtain ⟨s₂, hr₂, hrec₂, hi₂⟩ := hr₁.exists_put hl.toHolds hi₁ hmemb hputb
    (by simpa using hne) (by rw [hrec₁.capacity, hcap]; show 1 < 3; decide)
  obtain ⟨s₁', hr₁', hrec₁', hi₁'⟩ := Reached.exists_put hl.toHolds (.zero hzero) hi₀ hmemb hputb
    nofun (by rw [hcap]; decide)
  obtain ⟨s₂', hr₂', hrec₂', hi₂'⟩ := hr₁'.exists_put hl.toHolds hi₁' hmema hputa
    (by simpa using hne.symm) (by rw [hrec₁'.capacity, hcap]; show 1 < 3; decide)
  have hrec := hrec₁.trans hrec₂
  have hrec' := hrec₁'.trans hrec₂'
  have hcap₂ : s₂.hashHeader.hashCapacity = 3 := hrec.capacity.trans hcap
  have hhash : SameHash s₂.hashHeader s₂'.hashHeader := by
    have h₁ : SameHash s₀.hashHeader s₂.hashHeader := SameHash.of_recounted ⟨rfl, rfl⟩ hrec
    have h₂ : SameHash s₀.hashHeader s₂'.hashHeader := SameHash.of_recounted ⟨rfl, rfl⟩ hrec'
    exact ⟨h₂.hashSize.trans h₁.hashSize.symm, h₂.hashSeed.trans h₁.hashSeed.symm⟩
  have hkeys : ∀ key, (∃ address, s₂.Stores (a :: b :: rest) key address)
      ↔ ∃ address, s₂'.Stores (a :: b :: rest) key address := by
    intro key
    simp only [hi₂.stores_iff hl.toHolds (hrec.addressed hzero.addressed),
      hi₂'.stores_iff hl.toHolds (hrec'.addressed hzero.addressed)]
    constructor
    · rintro ⟨_, it, hit, hkey, -⟩
      exact ⟨_, it, by simpa [or_comm] using hit, hkey, rfl⟩
    · rintro ⟨_, it, hit, hkey, -⟩
      exact ⟨_, it, by simpa [or_comm] using hit, hkey, rfl⟩
  have hlayout := (layout_of_reached hl.toHolds hl.toHolds hr₂ hr₂'
    ((hrec'.capacity.trans hcap).trans hcap₂.symm) hhash hkeys).1
  rw [hcap₂] at hlayout
  exact ⟨log, _, s₂, s₂', hr₂, hr₂', hi₂.occupied_eq, hlayout⟩

/-! ### Plain linear probing -/

omit [Compressors] in
def Hashheader.wanted (header : Hashheader) (key : List UInt8) : Nat :=
  HashFunctions.hash header.hashSize key header.hashSeed % header.hashCapacity

omit [Compressors] [HashFunctions] in
theorem Hashheader.displacements_eq (header : Hashheader) (hashtable : List UInt8) :
    header.displacements hashtable
      = RobinHood.displacements header.hashCapacity header.home (header.slots hashtable) := by
  rw [Hashheader.displacements, Hashheader.displacementsFrom, ← List.range_eq_range']
  rfl

omit [Compressors] [HashFunctions] in
theorem le_foldl_max {l : List Nat} {x : Nat} (a : Nat) (h : x ∈ l) : x ≤ l.foldl max a := by
  have hstart : ∀ (l : List Nat) (a : Nat), a ≤ l.foldl max a := by
    intro l
    induction l with
    | nil => exact fun a => Nat.le_refl a
    | cons y l ih => exact fun a => Nat.le_trans (Nat.le_max_left a y) (ih _)
  induction l generalizing a with
  | nil => cases h
  | cons y l ih =>
    rcases List.mem_cons.mp h with rfl | h
    · exact Nat.le_trans (Nat.le_max_right a x) (hstart l _)
    · exact ih _ h

/-- **The keys displace each other no further than by linear probing**: whatever order linear probing
stores them in, its table has the same displacement in all, and a largest one that is not
smaller. -/
theorem displacement_of_reached (hl : log.Holds items) (h : Reached log items s)
    {keys : List (List UInt8)} (hnodup : keys.Nodup)
    (hkeys : ∀ key, key ∈ keys ↔ ∃ address, s.Stores items key address) :
    ∃ t s', probeAll s.hashHeader.hashCapacity s.hashHeader.wanted keys (fun _ => none) = some t ∧
      calculateMaxDisplacement.run s = .ok () s' ∧
      s'.hashHeader.maxDisplacement
        ≤ (RobinHood.displacements s.hashHeader.hashCapacity s.hashHeader.wanted t).foldl max 0 ∧
      (s.hashHeader.displacements s.hashtable).sum
        = (RobinHood.displacements s.hashHeader.hashCapacity s.hashHeader.wanted t).sum ∧
      s'.hashHeader.totalDisplacement
        = u64 (RobinHood.displacements s.hashHeader.hashCapacity s.hashHeader.wanted t).sum := by
  obtain ⟨ha, live, hi⟩ := h.indexed hl
  have hpos : 0 < s.hashHeader.hashCapacity := hi.sized.capacity_pos
  have hhome := Hashheader.home_lt hi.sized
  have hwanted : ∀ key, s.hashHeader.wanted key < s.hashHeader.hashCapacity := fun key =>
    Nat.mod_lt _ hpos
  -- the keys are those of the live entries
  have hlive : keys.Perm (live.map itemKind.key) := by
    refine (List.perm_ext_iff_of_nodup hnodup hi.distinct).mpr fun key => ?_
    rw [hkeys]
    simp only [hi.stores_iff hl ha]
    constructor
    · rintro ⟨_, it, hit, hkey, -⟩
      exact List.mem_map.mpr ⟨it, hit, hkey⟩
    · intro hkey
      obtain ⟨it, hit, hkey⟩ := List.mem_map.mp hkey
      exact ⟨_, it, hit, hkey, rfl⟩
  have hroom : (entries s.hashHeader.hashCapacity fun _ => (none : Option (List UInt8))).length
      + keys.length ≤ s.hashHeader.hashCapacity := by
    rw [entries_empty, List.length_nil, Nat.zero_add, hlive.length_eq, List.length_map]
    exact hi.length_le
  obtain ⟨t, hprobe, hqueued, hstored⟩ := probeAll_spec hwanted keys (queued_empty hpos) hroom
  rw [entries_empty, List.append_nil] at hstored
  have hsame : ((entries s.hashHeader.hashCapacity s.slots).map s.hashHeader.home).Perm
      ((entries s.hashHeader.hashCapacity t).map s.hashHeader.wanted) := by
    have h₁ := hi.entries.map s.hashHeader.home
    have h₂ := (hstored.trans hlive).map s.hashHeader.wanted
    rw [List.map_map] at h₁ h₂
    exact h₁.trans h₂.symm
  have hsum := sum_displacements_eq (hi.valid.queued hhome) hqueued hhome hwanted hsame
  have hmax : ∀ d ∈ s.hashHeader.displacements s.hashtable,
      d ≤ (RobinHood.displacements s.hashHeader.hashCapacity s.hashHeader.wanted t).foldl max 0 := by
    intro d hd
    rw [Hashheader.displacements_eq] at hd
    obtain ⟨d', hd', hle⟩ := displacement_le hi.valid hqueued hhome hwanted hsame hd
    exact Nat.le_trans hle (le_foldl_max 0 hd')
  obtain ⟨s', hrun, -, -, hmaximum, htotal, -⟩ := run_calculateMaxDisplacement hi
  have hsum' := (congrArg List.sum (s.hashHeader.displacements_eq s.hashtable)).trans hsum
  refine ⟨t, s', hprobe, hrun, ?_, hsum', ?_⟩
  · rw [hmaximum]
    exact foldl_max_le (Nat.zero_le _) hmax
  · rw [htotal, hsum']

omit [HashFunctions] [Compressors] in
theorem displacement_of_reached_sample :
    letI := literalCompressors
    letI := lengthHash
    ∃ log items s keys t, Reached log items s ∧ keys.length = 2 ∧
      probeAll 3 s.hashHeader.wanted keys (fun _ => none) = some t ∧
      (s.hashHeader.displacements s.hashtable).sum
        = (RobinHood.displacements 3 s.hashHeader.wanted t).sum := by
  let := literalCompressors
  let := lengthHash
  obtain ⟨log, a, b, rest, s₂, hl, hkeya, hkeyb, hr₂, hcap₂, -, ha, hi₂⟩ := exists_pairTable
  have hne : a.val.key ≠ b.val.key := by
    rw [hkeya, hkeyb]
    decide
  have hkeys : ∀ key, key ∈ [a.val.key, b.val.key] ↔ ∃ address, s₂.Stores (a :: b :: rest) key address := by
    intro key
    simp only [hi₂.stores_iff hl.toHolds ha]
    constructor
    · intro hkey
      rcases List.mem_pair.mp hkey with rfl | rfl
      · exact ⟨_, a, List.mem_cons_of_mem _ List.mem_cons_self, rfl, rfl⟩
      · exact ⟨_, b, List.mem_cons_self, rfl, rfl⟩
    · rintro ⟨_, it, hit, rfl, -⟩
      rcases List.mem_pair.mp hit with rfl | rfl
      · exact List.mem_cons_of_mem _ List.mem_cons_self
      · exact List.mem_cons_self
  obtain ⟨t, s', hprobe, -, -, hsum, -⟩ :=
    displacement_of_reached hl.toHolds hr₂ (by simpa using hne) hkeys
  rw [hcap₂] at hprobe hsum
  exact ⟨log, _, s₂, _, t, hr₂, rfl, hprobe, hsum⟩

end Sparkey
