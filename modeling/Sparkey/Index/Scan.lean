import Sparkey.Index.Agreement
import Sparkey.Index.Layout

/-!
# Where `sparkey_hash_get` looks

The search of `sparkey_hash_get` gives up at the first entry that is nearer to the slot it
wants than the key would be.  It finds the same slot as a scan of the whole table, and as
one of the first `max_displacement + 1` slots from the wanted one (`scan_of_indexing`).
But `read_fully` sends every part of a short read to the start of its buffer, so what is
copied may be whatever memory held, the same entry twice for instance, and then the
slot depends on where the scan starts.
-/

namespace Sparkey

open Program BlockStream RobinHood LastWrite

/-! ### Slots in a row -/

def slotsFrom (capacity : Nat) : Nat → Nat → List Nat
  | 0, _ => []
  | n + 1, slot => slot :: slotsFrom capacity n (nextSlot capacity slot)

theorem mem_slotsFrom {capacity : Nat} : ∀ {n slot z : Nat}, slot < capacity → z < capacity →
    dist capacity slot z < n → z ∈ slotsFrom capacity n slot := by
  intro n
  induction n with
  | zero => exact fun _ _ h => absurd h (Nat.not_lt_zero _)
  | succ n ih =>
    intro slot z hslot hz hlt
    rw [slotsFrom, nextSlot_eq]
    by_cases hsz : slot = z
    · exact hsz ▸ List.mem_cons_self
    · rw [dist_of_next hslot hz hsz] at hlt
      exact List.mem_cons_of_mem _ (ih (next_lt hslot) hz (by omega))

theorem lt_of_mem_slotsFrom {capacity : Nat} : ∀ {n slot z : Nat}, slot < capacity →
    z ∈ slotsFrom capacity n slot → z < capacity := by
  intro n
  induction n with
  | zero => exact fun _ h => absurd h List.not_mem_nil
  | succ n ih =>
    intro slot z hslot hmem
    rcases List.mem_cons.mp hmem with rfl | hmem
    · exact hslot
    · rw [nextSlot_eq] at hmem
      exact ih (next_lt hslot) hmem

variable [Compressors] [HashFunctions] {t : CompressionType} {n : Nat} {calls : List Call}
  {w w' : Logwriter} {index index' : Option (List UInt8)} {env : HashEnv} {hashSize : Nat}
  {log log₀ : Logreader} {reader : Hashreader} {iter : Logiter} {key : List UInt8}
  {items more live : List (Item Entry)} {it : Item Entry} {header : Hashheader}
  {hashtable : List UInt8}

/-! ### Scans -/

/-- `sparkey_hash_get`, up to the slot at which it stops. -/
def hashGetSlot (reader : Hashreader) (key : List UInt8) : Run Logiter (Option Nat) := do
  assertReaderOpen reader
  let hash := HashFunctions.hash reader.header.hashSize key reader.header.hashSeed
  let capacity := reader.header.hashCapacity
  if capacity = 0 then
    stuck
  hashGetSlotLoop reader key hash (capacity + 1) (hash % capacity) 0

/-- **`sparkey_hash_get`** goes to the slot, and then says what it found. -/
theorem hashGet_eq (reader : Hashreader) (key : List UInt8) :
    hashGet reader key = hashGetSlot reader key >>= settle := by
  rw [hashGet, hashGetSlot, bind_assoc]
  simp only [hashGetLoop_eq]
  by_cases hc : reader.header.hashCapacity = 0
  · simp only [if_pos hc]
    rfl
  · simp only [if_neg hc]

def scanSlots (reader : Hashreader) (key : List UInt8) : List Nat → Run Logiter (Option Nat)
  | [] => pure none
  | slot :: slots =>
    match reader.readSlot slot with
    | none => stuck
    | some (hash2, address2) => do
      if address2 = 0 then
        scanSlots reader key slots
      else
        let equals ← comparesKey reader key (hash2, address2)
        if equals then pure (some slot) else scanSlots reader key slots

def scanAll (reader : Hashreader) (key : List UInt8) : Run Logiter (Option Nat) :=
  scanSlots reader key (List.range reader.header.hashCapacity)

/-- A scan of the first `max_displacement + 1` slots from the wanted one. -/
def scanNear (reader : Hashreader) (key : List UInt8) : Run Logiter (Option Nat) :=
  scanSlots reader key (slotsFrom reader.header.hashCapacity (reader.header.maxDisplacement + 1)
    (reader.header.wanted key))

theorem run_scanSlots_none (h : Reading log₀ reader items more live)
    (hfresh : ∀ it ∈ live, it.val.key ≠ key) : ∀ {slots : List Nat},
    (∀ slot ∈ slots, slot < reader.header.hashCapacity) → Usable reader.log iter →
    SlotDone reader (items ++ more) live key (some none) ((scanSlots reader key slots).run iter) := by
  intro slots
  induction slots generalizing iter with
  | nil => exact fun _ hu => ⟨iter, rfl, hu⟩
  | cons slot slots ih =>
    intro hlt hu
    obtain ⟨hslot, hlt⟩ := List.forall_mem_cons.mp hlt
    obtain ⟨hash2, address2, hread, hcontent⟩ := h.readSlot hslot
    simp only [scanSlots, hread]
    by_cases h0 : address2 = 0
    · rw [if_pos h0]
      exact ih hlt hu
    rw [if_neg h0] at hcontent ⊢
    obtain ⟨it, hit, hentry⟩ := h.indexed.mem_entries hslot hcontent
    obtain ⟨n, hn⟩ := (h.mem hit).2.1
    obtain ⟨iter₁, hrun, hu₁, -⟩ := run_comparesKey h key hu hit hn
    rw [decide_eq_false (hfresh it hit), hentry] at hrun
    rw [run_bind_ok hrun]
    exact ih hlt hu₁

theorem run_scanSlots_some (h : Reading log₀ reader items more live) (hit : it ∈ live)
    (hkey : it.val.key = key) {z : Nat} (hcontent : reader.slots z = some (reader.header.slotOf it))
    (huniq : ∀ slot < reader.header.hashCapacity, ∀ x ∈ live,
      reader.slots slot = some (reader.header.slotOf x) → x.val.key = key → slot = z) :
    ∀ {slots : List Nat}, (∀ slot ∈ slots, slot < reader.header.hashCapacity) → z ∈ slots →
    Usable reader.log iter →
    SlotDone reader (items ++ more) live key (some (some z)) ((scanSlots reader key slots).run iter) := by
  intro slots
  induction slots generalizing iter with
  | nil => exact fun _ hz => absurd hz List.not_mem_nil
  | cons slot slots ih =>
    intro hlt hz hu
    obtain ⟨hslot, hlt⟩ := List.forall_mem_cons.mp hlt
    obtain ⟨hash2, address2, hread, hslotContent⟩ := h.readSlot hslot
    simp only [scanSlots, hread]
    by_cases h0 : address2 = 0
    · -- the slot of the key is not free
      rw [if_pos h0] at hslotContent ⊢
      have hne : z ≠ slot := by
        rintro rfl
        rw [hcontent] at hslotContent
        cases hslotContent
      exact ih hlt ((List.mem_cons.mp hz).resolve_left hne) hu
    rw [if_neg h0] at hslotContent ⊢
    obtain ⟨x, hx, hentry⟩ := h.indexed.mem_entries hslot hslotContent
    obtain ⟨n, hn⟩ := (h.mem hx).2.1
    obtain ⟨iter₁, hrun, hu₁, hactive⟩ := run_comparesKey h key hu hx hn
    rw [hentry] at hrun
    rw [run_bind_ok hrun]
    rw [← hentry] at hslotContent
    by_cases hxkey : x.val.key = key
    · obtain rfl := huniq slot hslot x hx hslotContent hxkey
      rw [decide_eq_true hxkey, if_pos rfl]
      exact ⟨iter₁, x, n, rfl, hx, hxkey, hslotContent, hn, hactive hxkey⟩
    · have hne : z ≠ slot := by
        rintro rfl
        rw [hcontent] at hslotContent
        obtain rfl : it = x := slotOf_inj h.old h.addressed (h.mem hit).1 (h.mem hx).1
          (Option.some.inj hslotContent)
        exact hxkey hkey
      rw [decide_eq_false hxkey, if_neg (by decide)]
      exact ih hlt ((List.mem_cons.mp hz).resolve_left hne) hu₁

/-! ### The same slot -/

/-- `sparkey_hash_get` stops at the slot, or at none, to which either scan comes. -/
def SameSlot (reader : Hashreader) (iter : Logiter) (key : List UInt8) : Prop :=
  ∃ found iter₁ iter₂ iter₃, (hashGetSlot reader key).run iter = .ok found iter₁ ∧
    (hashGet reader key).run iter = (settle found).run iter₁ ∧
    (scanAll reader key).run iter = .ok found iter₂ ∧
    (scanNear reader key).run iter = .ok found iter₃

/-- **A valid table** is scanned as it is searched. -/
theorem Reading.sameSlot (h : Reading log₀ reader items more live) (hu : Usable reader.log iter)
    (hmax : reader.header.maxDisplacement
      = (reader.header.displacements reader.hashtable).foldl max 0) (key : List UInt8) :
    SameSlot reader iter key := by
  have hsized := h.indexed.sized
  have hhome := Hashheader.home_lt hsized
  have hwanted : reader.header.wanted key < reader.header.hashCapacity :=
    Nat.mod_lt _ hsized.capacity_pos
  have hall : ∀ slot ∈ List.range reader.header.hashCapacity, slot < reader.header.hashCapacity :=
    fun _ => List.mem_range.mp
  have hnear : ∀ slot ∈ slotsFrom reader.header.hashCapacity (reader.header.maxDisplacement + 1)
      (reader.header.wanted key), slot < reader.header.hashCapacity :=
    fun _ => lt_of_mem_slotsFrom hwanted
  have hdone := run_hashGetSlotLoop h key (reader.header.hashCapacity + 1) _ 0 hwanted hu
  have hstart : (hashGetSlot reader key).run iter
      = (hashGetSlotLoop reader key (HashFunctions.hash reader.header.hashSize key
        reader.header.hashSeed) (reader.header.hashCapacity + 1) (reader.header.wanted key) 0).run
        iter := by
    rw [hashGetSlot, assertReaderOpen, if_neg (not_not_intro h.openStatus)]
    simp only [if_neg (Nat.ne_of_gt hsized.capacity_pos)]
    rfl
  cases hget : itemKind.get? key live with
  | none =>
    have hfresh : ∀ it ∈ live, it.val.key ≠ key := fun it hit => get?_eq_none hget hit
    rw [find_none _ hhome (fun _ _ _ _ => storesKey_of_fresh hfresh _) _ _ 0 hwanted
      (Nat.zero_le _) (by omega)] at hdone
    obtain ⟨iter₁, hrun₁, -⟩ := hdone
    obtain ⟨iter₂, hrun₂, -⟩ := run_scanSlots_none h hfresh hall hu
    obtain ⟨iter₃, hrun₃, -⟩ := run_scanSlots_none h hfresh hnear hu
    have hget₁ := hstart.trans hrun₁
    exact ⟨none, iter₁, iter₂, iter₃, hget₁, by rw [hashGet_eq, run_bind_ok hget₁], hrun₂, hrun₃⟩
  | some it =>
    obtain ⟨hit, hkey⟩ := get?_eq_some hget
    rw [key_itemKind] at hkey
    obtain ⟨z, hz, hcontent, hst, huniq⟩ := Indexed.slot_of_key
      (s := ⟨reader.hashtable, reader.header, iter, iter⟩) h.old h.addressed h.indexed hit hkey
    have hhomeOf : reader.header.wanted key = reader.header.home (reader.header.slotOf it) := by
      rw [← hkey]
      rfl
    have hdist := dist_lt (hhome (reader.header.slotOf it)) hz
    have hfound := find_some h.indexed.valid (hhome _) hz hcontent hst huniq
      (reader.header.hashCapacity + 1) _ 0 (hhome (reader.header.slotOf it)) dist_self.symm (by omega)
      (by omega)
    rw [hhomeOf, hfound] at hdone
    have huniq' : ∀ slot < reader.header.hashCapacity, ∀ x ∈ live,
        reader.slots slot = some (reader.header.slotOf x) → x.val.key = key → slot = z :=
      fun slot hslot x hx hxslot hxkey =>
        huniq slot hslot _ hxslot ((h.storesKey_iff key hx).mpr hxkey)
    -- the header knows how far the entry can be from the slot it wants
    have hle : dist reader.header.hashCapacity (reader.header.wanted key) z
        < reader.header.maxDisplacement + 1 := by
      refine Nat.lt_succ_of_le ?_
      rw [hmax, hhomeOf, Hashheader.displacements_eq]
      exact le_foldl_max 0 (mem_displacements.mpr ⟨z, hz, _, hcontent, rfl⟩)
    obtain ⟨iter₁, _, _, hrun₁, -⟩ := hdone
    obtain ⟨iter₂, _, _, hrun₂, -⟩ := run_scanSlots_some h hit hkey hcontent huniq' hall
      (List.mem_range.mpr hz) hu
    obtain ⟨iter₃, _, _, hrun₃, -⟩ := run_scanSlots_some h hit hkey hcontent huniq' hnear
      (mem_slotsFrom hwanted hz hle) hu
    rw [hhomeOf] at hstart
    have hget₁ := hstart.trans hrun₁
    exact ⟨some z, iter₁, iter₂, iter₃, hget₁, by rw [hashGet_eq, run_bind_ok hget₁], hrun₂, hrun₃⟩

/-- **`sparkey_hash_get` looks far enough**: in every table that was made by runs with all they needed
it stops where a scan of the whole table does, and where one of `max_displacement + 1` slots does. -/
theorem scan_of_indexing (h : Indexing t n wholeReads calls w index)
    (hfit : ∀ e ∈ entriesOf calls, HeadFits (.of t n) e) (hz : (Setting.of t n).Lossless)
    (hflush : logwriterFlush.run w = .ok () w') (hopen : logreaderOpen (some w'.fd.data) = .ok log)
    (hwhole : WholeReads env log.header (oldHeader? log.header index))
    (hrun : (hashWrite env (some w'.fd.data) hashSize).run index = .ok () index')
    (hreader : hashOpen index' (some w'.fd.data) = .ok reader) (hused : Used reader iter)
    (key : List UInt8) : SameSlot reader iter key := by
  have hkeeps := keeps_true wholeReads
  obtain ⟨items, header, hashtable, hp, rfl, hi, -⟩ := (h.follows hkeeps (fun h => h) hfit hz).run
    hkeeps hfit hz hflush hopen hwhole hwhole hrun
  have hl := hp.logged hz
  obtain ⟨_, hopened, ho⟩ := hi.hashOpen (hi.load_of_hashOpen hreader) (.refl _) (Nat.le_refl _) hopen
  cases hreader.symm.trans hopened
  obtain ⟨live, -, hreading⟩ := hi.reading_self hl ho
  refine hreading.sameSlot (hused.steady hreading).toUsable ?_ key
  rw [ho.header, ho.hashtable]
  exact hi.measured.maxDisplacement

def twoSlots (index logFile : Option (List UInt8)) (key : List UInt8) : Option (Option Nat × Option Nat) :=
  match hashOpen index logFile with
  | .error _ => none
  | .ok reader =>
    match logiterCreate zeroLogiter reader.log with
    | .error _ => none
    | .ok iter =>
      match (hashGetSlot reader key).run iter, (scanAll reader key).run iter with
      | .ok found _, .ok found' _ => some (found, found')
      | _, _ => none

theorem exists_of_twoSlots {logFile : Option (List UInt8)} {slots : Option Nat × Option Nat}
    (h : twoSlots index logFile key = some slots) :
    ∃ reader iter iter₁ iter₂, hashOpen index logFile = .ok reader ∧
      logiterCreate zeroLogiter reader.log = .ok iter ∧
      (hashGetSlot reader key).run iter = .ok slots.1 iter₁ ∧
      (scanAll reader key).run iter = .ok slots.2 iter₂ := by
  unfold twoSlots at h
  split at h
  · cases h
  · rename_i reader hreader
    split at h
    · cases h
    · rename_i iter hiter
      split at h
      · rename_i found iter₁ found' iter₂ hget hscan
        cases h
        exact ⟨reader, iter, iter₁, iter₂, hreader, hiter, hget, hscan⟩
      · cases h

omit [Compressors] [HashFunctions] in
theorem scan_of_indexing_sample :
    letI := literalCompressors
    letI := lengthHash
    ∃ w w' index index' reader iter, Indexing .none 0 wholeReads (fourPuts ++ [.flush] ++ fifthPut) w
        index ∧ logwriterFlush.run w = .ok () w' ∧
      (hashWrite calmEnv (some w'.fd.data) 4).run index = .ok () index' ∧
      hashOpen index' (some w'.fd.data) = .ok reader ∧ Used reader iter ∧ SameSlot reader iter [3] := by
  let := literalCompressors
  let := lengthHash
  have hfacts : (twoRuns calmEnv calmEnv fourPuts fifthPut 4 4).map (fun r =>
      (decide r.log.header.Small, decide r.log'.header.Small,
        (success? r.result).map fun index' => (twoSlots index' (some r.log'.data) [3]).isSome))
        = some (true, true, some true) := by
    decide +kernel
  obtain ⟨r, hr, hfacts⟩ := Option.map_eq_some_iff.mp hfacts
  simp only [Prod.mk.injEq, decide_eq_true_eq] at hfacts
  obtain ⟨hsmall, hsmall', hslots⟩ := hfacts
  obtain ⟨w, w', hran⟩ := exists_of_twoRuns hr
  have hwhole := ((hsmall.orderly rfl).wholeReads none : WholeReads calmEnv r.log.header none)
  obtain ⟨w₁, hindexing, hflush⟩ := hran.indexing wholeReads hwhole
  obtain ⟨index', hresult, hslots⟩ := Option.map_eq_some_iff.mp hslots
  obtain ⟨_, htwo⟩ := Option.isSome_iff_exists.mp hslots
  rw [hran.data] at htwo
  obtain ⟨reader, iter, _, _, hreader, hiter, -, -⟩ := exists_of_twoSlots htwo
  have hrun := hran.result.trans (success?_eq_some hresult)
  exact ⟨w₁, w', _, index', reader, iter, hindexing, hflush, hrun, hreader, .create hiter,
    scan_of_indexing hindexing (fun _ _ => nofun) nofun hflush hran.opened'
      ((hsmall'.orderly rfl).wholeReads _) hrun hreader (.create hiter) [3]⟩

/-- Four puts, the first of them of a key that wants the last of seven slots. -/
def sixBytePuts : List Call :=
  [.add (.put (.of [9, 9, 9, 9, 9, 9]) (.of [])), .add (.put (.of [2]) (.of [])),
    .add (.put (.of [3]) (.of [])), .add (.put (.of [4]) (.of []))]

def sixByteKey : List UInt8 := [9, 9, 9, 9, 9, 9]

/-- A system that gets one byte with every read, and memory that happens to hold the entry of the
key twice. -/
def repeatingEnv : HashEnv :=
  { calmEnv with
    unsetBuf := List.replicate 8 0 ++ [6, 0, 0, 0, 84, 0, 0, 0, 6, 0, 0, 0, 84, 0, 0, 0]
      ++ List.replicate 8168 0
    reads := List.replicate 40 (.got 0) }

omit [Compressors] [HashFunctions] in
/-- Two copies of one entry lie around the end of a table of seven slots: `sparkey_hash_get` stops
at the last slot, and a scan of the table at the first. -/
theorem scan_of_repeatedEntry :
    letI := literalCompressors
    letI := lengthHash
    ∃ w w' log index index' reader iter,
      Indexing .none 0 orderlyRuns (sixBytePuts ++ [.flush] ++ fifthPut) w index ∧
      logwriterFlush.run w = .ok () w' ∧ logreaderOpen (some w'.fd.data) = .ok log ∧
      (hashWrite repeatingEnv (some w'.fd.data) 4).run index = .ok () index' ∧
      hashOpen index' (some w'.fd.data) = .ok reader ∧ Used reader iter ∧
      ¬ SameSlot reader iter sixByteKey := by
  let := literalCompressors
  let := lengthHash
  have hfacts : (twoRuns calmEnv repeatingEnv sixBytePuts fifthPut 4 4).map (fun r =>
      (decide r.log.header.Small,
        (success? r.result).bind fun index' => twoSlots index' (some r.log'.data) sixByteKey))
        = some (true, some (some 6, some 0)) := by
    decide +kernel
  obtain ⟨r, hr, hfacts⟩ := Option.map_eq_some_iff.mp hfacts
  simp only [Prod.mk.injEq, decide_eq_true_eq] at hfacts
  obtain ⟨hsmall, hslots⟩ := hfacts
  obtain ⟨w, w', hran⟩ := exists_of_twoRuns hr
  obtain ⟨w₁, hindexing, hflush⟩ := hran.indexing orderlyRuns (hsmall.orderly rfl)
  obtain ⟨index', hresult, hslots⟩ := Option.bind_eq_some_iff.mp hslots
  rw [hran.data] at hslots
  obtain ⟨reader, iter, _, _, hreader, hiter, hget, hscan⟩ := exists_of_twoSlots hslots
  refine ⟨w₁, w', r.log', _, index', reader, iter, hindexing, hflush, hran.opened',
    hran.result.trans (success?_eq_some hresult), hreader, .create hiter, ?_⟩
  rintro ⟨found, _, _, _, hget', -, hscan', -⟩
  rw [hget] at hget'
  rw [hscan] at hscan'
  cases hget'
  cases hscan'

end Sparkey
