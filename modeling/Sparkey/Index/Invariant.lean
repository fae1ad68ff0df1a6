import Sparkey.Index.Copy
import Sparkey.Roundtrip

/-!
# The invariant of the table

A table starts out as zeros and is changed by `hash_put`, `hash_delete` and
`hash_copy` only; `Reached` are the states that come about so.  In each of them the
probe invariant holds, in the words of the code (`TableInvariant`), and each further
call succeeds and does to the stored pairs of key and address what inserting into a
finite map or erasing from it does (`invariant_of_reached`).
-/

namespace Sparkey

open Program BlockStream RobinHood LastWrite

/-! ### What is stored -/

def Hashing.occupied (s : Hashing) : Nat :=
  (List.range s.hashHeader.hashCapacity).countP fun slot => (s.slots slot).isSome

variable [HashFunctions]

/-- Under `key` the table stores `address`: a slot has the hash value of the key and the address
of an entry of the log with this key. -/
def Hashing.Stores (items : List (Item Entry)) (s : Hashing) (key : List UInt8) (address : Nat) :
    Prop :=
  ∃ slot < s.hashHeader.hashCapacity,
    s.slots slot = some (HashFunctions.hash s.hashHeader.hashSize key s.hashHeader.hashSeed, address) ∧
      ∃ it ∈ items, it.val.key = key ∧ s.hashHeader.addressOf it = address

/-- What the code relies on between two calls. -/
structure TableInvariant (items : List (Item Entry)) (s : Hashing) : Prop where
  /-- Only puts of the log are stored. -/
  puts : ∀ slot < s.hashHeader.hashCapacity, ∀ entry, s.slots slot = some entry →
    ∃ it ∈ items, it.val.type = .put ∧ s.hashHeader.slotOf it = entry
  /-- Stored keys are pairwise distinct. -/
  distinct : ∀ slot < s.hashHeader.hashCapacity, ∀ slot' < s.hashHeader.hashCapacity,
    ∀ it ∈ items, ∀ it' ∈ items, s.slots slot = some (s.hashHeader.slotOf it) →
      s.slots slot' = some (s.hashHeader.slotOf it') → it.val.key = it'.val.key → slot = slot'
  /-- `num_entries` counts the occupied slots. -/
  numEntries : s.hashHeader.numEntries = s.occupied
  /-- From its wanted slot on to its own an entry has occupied slots only. -/
  path : ∀ slot < s.hashHeader.hashCapacity, ∀ hash address, s.slots slot = some (hash, address) →
    ∀ i ≤ getDisplacement s.hashHeader.hashCapacity slot hash,
      s.slots ((hash % s.hashHeader.hashCapacity + i) % s.hashHeader.hashCapacity) ≠ none
  /-- From one slot to the next displacements grow by at most one, and behind an empty slot there
  is none. -/
  step : ∀ slot < s.hashHeader.hashCapacity, ∀ hash address,
    s.slots ((slot + 1) % s.hashHeader.hashCapacity) = some (hash, address) →
      getDisplacement s.hashHeader.hashCapacity ((slot + 1) % s.hashHeader.hashCapacity) hash
        ≤ match s.slots slot with
          | some entry => getDisplacement s.hashHeader.hashCapacity slot entry.1 + 1
          | none => 0
  /-- In a full table some entry is in its wanted slot. -/
  full : (∀ slot < s.hashHeader.hashCapacity, s.slots slot ≠ none) →
    ∃ slot < s.hashHeader.hashCapacity, ∃ hash address, s.slots slot = some (hash, address) ∧
      getDisplacement s.hashHeader.hashCapacity slot hash = 0

/-! ### The states of a table -/

/-- A table of zeros for the entries of a log, in an object of some size. -/
structure ZeroTable (items : List (Item Entry)) (s : Hashing) : Prop where
  addressSize : s.hashHeader.addressSize = 4 ∨ s.hashHeader.addressSize = 8
  hashSize : s.hashHeader.hashSize = 4 ∨ s.hashHeader.hashSize = 8
  capacity_pos : 0 < s.hashHeader.hashCapacity
  length_lt : s.hashtable.length < 2 ^ 63
  zero : s.hashtable = List.replicate (s.hashHeader.slotSize * s.hashHeader.hashCapacity) 0
  numEntries : s.hashHeader.numEntries = 0
  addressed : Addressed s.hashHeader items

/-- A call that changes the table. -/
inductive TableCall
  | put (item : Item Entry)
  | delete (item : Item Entry)
  | copy (oldHeader : Hashheader) (buf : List UInt8) (count : Nat) (entries : List (Item Entry))

section Calls

variable [Compressors]

/-- The call, with the arguments `sparkey_hash_write` and `fill_hash` hand over. -/
def TableCall.program (log : Logreader) : TableCall → Run Hashing Unit
  | .put item => do
    let s ← get
    let keyHash := HashFunctions.hash s.hashHeader.hashSize item.val.key s.hashHeader.hashSeed
    hashPut (some log) (keyHash % s.hashHeader.hashCapacity) keyHash
      (s.hashHeader.address item.pos item.idx)
  | .delete item => do
    let s ← get
    let keyHash := HashFunctions.hash s.hashHeader.hashSize item.val.key s.hashHeader.hashSeed
    hashDelete log (keyHash % s.hashHeader.hashCapacity) keyHash
  | .copy oldHeader buf count _ => hashCopy buf (count * oldHeader.slotSize) oldHeader

/-- When a call may be made: the iterator is at the entry, and `hash_put` finds its key or a free
slot; or the slots to be copied hold entries of keys that are not stored, and there is room. -/
def TableCall.Allowed (log : Logreader) (items : List (Item Entry)) (s : Hashing) : TableCall → Prop
  | .put item => item ∈ items ∧ item.val.type = .put ∧ (∃ rest, Ready log item rest s.iter s.raIter) ∧
    ((∃ address, s.Stores items item.val.key address) ∨ s.occupied < s.hashHeader.hashCapacity)
  | .delete item => ∃ rest, Ready log item rest s.iter s.raIter
  | .copy oldHeader buf count entries =>
    (oldHeader.addressSize = 4 ∨ oldHeader.addressSize = 8) ∧ Addressed oldHeader items ∧
      SameHash oldHeader s.hashHeader ∧ count * oldHeader.slotSize ≤ buf.length ∧
      (List.range count).filterMap (oldHeader.slots buf) = entries.map oldHeader.slotOf ∧
      (∀ it ∈ entries, it ∈ items ∧ it.val.type = .put) ∧ itemKind.Distinct entries ∧
      (∀ it ∈ entries, ∀ address, ¬ s.Stores items it.val.key address) ∧
      s.occupied + entries.length ≤ s.hashHeader.hashCapacity

/-- What a call does to the finite map from keys to addresses. -/
def TableCall.effect (header : Hashheader) (m : List UInt8 → Option Nat) :
    TableCall → List UInt8 → Option Nat
  | .put item => Function.update m item.val.key (some (header.addressOf item))
  | .delete item => Function.update m item.val.key none
  | .copy _ _ _ entries =>
    entries.foldl (fun m it => Function.update m it.val.key (some (header.addressOf it))) m

/-- The states of a table.  Between the calls the iterators may be put anywhere. -/
inductive Reached (log : Logreader) (items : List (Item Entry)) : Hashing → Prop
  | zero {s : Hashing} : ZeroTable items s → Reached log items s
  | iters {s : Hashing} (iter raIter : Logiter) : Reached log items s →
      Reached log items { s with iter, raIter }
  | call {s s' : Hashing} (c : TableCall) : Reached log items s → c.Allowed log items s →
      (c.program log).run s = .ok () s' → Reached log items s'

end Calls

/-! ### From the slots to the invariant -/

variable {items live : List (Item Entry)} {s s' : Hashing} {item : Item Entry}
  {m : List UInt8 → Option Nat}

theorem indexed_zero (hz : ZeroTable items s) : Indexed items s.hashHeader s.hashtable [] := by
  have hslot : 0 < s.hashHeader.slotSize := by
    have := hz.addressSize
    unfold Hashheader.slotSize
    omega
  have hlen : s.hashtable.length = s.hashHeader.slotSize * s.hashHeader.hashCapacity := by
    rw [hz.zero, List.length_replicate]
  have hlt : s.hashHeader.hashCapacity < 2 ^ 63 := by
    have := Nat.le_mul_of_pos_left s.hashHeader.hashCapacity hslot
    have := hz.length_lt
    omega
  have hslots : s.slots = fun _ => none := by
    unfold Hashing.slots
    rw [hz.zero]
    exact slots_replicate_zero hz.addressSize _
  have hblank : ∀ slot hash,
      s.hashHeader.readSlot s.hashtable slot = some (hash, 0) → hash = 0 := by
    intro slot hash hread
    rw [hz.zero] at hread
    exact congrArg Prod.fst (readSlot_replicate_zero hz.addressSize hread)
  refine .of_slots (.refl _) ⟨hz.addressSize, hz.hashSize, hz.capacity_pos, hlt, hlen, hblank⟩ hslots
    (valid_empty hz.capacity_pos) ?_ hz.numEntries List.nodup_nil nofun
  rw [entries_empty]
  exact List.Perm.refl _

theorem Indexed.occupied_eq (hi : Indexed items s.hashHeader s.hashtable live) :
    s.occupied = live.length := by
  have hlen := hi.entries.length_eq
  rw [List.length_map, length_entries] at hlen
  exact hlen

variable [Compressors] {log : Logreader}

/-- **What is stored** are the live entries. -/
theorem Indexed.stores_iff (hl : log.Holds items) (ha : Addressed s.hashHeader items)
    (hi : Indexed items s.hashHeader s.hashtable live) {key : List UInt8} {address : Nat} :
    s.Stores items key address ↔
      ∃ it ∈ live, it.val.key = key ∧ s.hashHeader.addressOf it = address := by
  constructor
  · rintro ⟨slot, hlt, hslot, it, hit, hkey, haddr⟩
    obtain ⟨x, hx, hentry⟩ := hi.mem_entries hlt hslot
    have hsame : s.hashHeader.slotOf x = s.hashHeader.slotOf it := by
      rw [hentry, Hashheader.slotOf, hkey, haddr]
    obtain rfl := slotOf_inj hl ha (hi.mem x hx).1 hit hsame
    exact ⟨x, hx, hkey, haddr⟩
  · rintro ⟨it, hit, hkey, haddr⟩
    obtain ⟨slot, hlt, hslot⟩ := hi.exists_slot hit
    refine ⟨slot, hlt, ?_, it, (hi.mem it hit).1, hkey, haddr⟩
    rw [← hkey, ← haddr]
    exact hslot

/-- **The invariant**, out of the one on slots. -/
theorem Indexed.tableInvariant (hl : log.Holds items) (ha : Addressed s.hashHeader items)
    (hi : Indexed items s.hashHeader s.hashtable live) : TableInvariant items s := by
  have hcap := hi.sized.capacity_pos
  have hlt := hi.sized.capacity_lt
  have hdisp : ∀ {slot hash : Nat}, slot < s.hashHeader.hashCapacity →
      getDisplacement s.hashHeader.hashCapacity slot hash
        = dist s.hashHeader.hashCapacity (hash % s.hashHeader.hashCapacity) slot :=
    fun hslot => getDisplacement_eq hlt hslot _
  refine ⟨?_, ?_, ?_, ?_, ?_, ?_⟩
  · intro slot hslot entry hentry
    obtain ⟨it, hit, heq⟩ := hi.mem_entries hslot hentry
    exact ⟨it, (hi.mem it hit).1, (hi.mem it hit).2, heq⟩
  · intro slot hslot slot' hslot' it hit it' hit' hentry hentry' hkey
    obtain ⟨x, hx, hxs⟩ := hi.mem_entries hslot hentry
    obtain ⟨y, hy, hys⟩ := hi.mem_entries hslot' hentry'
    obtain rfl := slotOf_inj hl ha (hi.mem x hx).1 hit hxs
    obtain rfl := slotOf_inj hl ha (hi.mem y hy).1 hit' hys
    obtain rfl := hi.distinct.eq_of_key hx hy hkey
    exact hi.slot_unique hl ha hslot hslot' hentry hentry'
  · rw [hi.numEntries, hi.occupied_eq]
  · intro slot hslot hash address hentry i hle
    rw [hdisp hslot] at hle
    have hw : hash % s.hashHeader.hashCapacity < s.hashHeader.hashCapacity := Nat.mod_lt _ hcap
    have hd := dist_lt hw hslot
    -- the slot `i` places behind the wanted one
    have hz : (hash % s.hashHeader.hashCapacity + i) % s.hashHeader.hashCapacity
        < s.hashHeader.hashCapacity := Nat.mod_lt _ hcap
    have hpath : dist s.hashHeader.hashCapacity (hash % s.hashHeader.hashCapacity)
        ((hash % s.hashHeader.hashCapacity + i) % s.hashHeader.hashCapacity) = i ∧
        dist s.hashHeader.hashCapacity
          ((hash % s.hashHeader.hashCapacity + i) % s.hashHeader.hashCapacity) slot + i
          = dist s.hashHeader.hashCapacity (hash % s.hashHeader.hashCapacity) slot := by
      generalize hash % s.hashHeader.hashCapacity = w at *
      generalize s.hashHeader.hashCapacity = c at *
      rcases Nat.lt_or_ge (w + i) c with hwi | hwi
      · rw [Nat.mod_eq_of_lt hwi]
        unfold RobinHood.dist at *
        split_ifs at * <;> omega
      · rw [Nat.mod_eq_sub_mod hwi, Nat.mod_eq_of_lt (by omega)]
        unfold RobinHood.dist at *
        split_ifs at * <;> omega
    obtain ⟨b, hb, -⟩ := hi.valid.path (a := (hash, address)) (Hashheader.home_lt hi.sized _) hslot
      hentry hz (by
        show dist _ (hash % s.hashHeader.hashCapacity) _ + _ < _
        omega)
    exact fun hnone => by
      rw [show s.slots _ = _ from hb] at hnone
      cases hnone
  · intro slot hslot hash address hentry
    rw [mod_eq_next hslot] at hentry ⊢
    have hrank := hi.valid.rank_next slot hslot
    rw [rank_of_some hentry] at hrank
    rw [hdisp (next_lt hslot)]
    change dist _ (hash % s.hashHeader.hashCapacity) _ + 1 ≤ _ at hrank
    cases hcur : s.slots slot with
    | none =>
      rw [rank_of_none hcur] at hrank
      simp only
      omega
    | some entry =>
      rw [rank_of_some hcur] at hrank
      simp only
      rw [hdisp hslot]
      change _ ≤ dist _ (entry.1 % s.hashHeader.hashCapacity) _ + 1 + 1 at hrank
      omega
  · intro hfull
    obtain ⟨slot, hslot, hrank⟩ := hi.valid.exists_rank_le
    cases hcur : s.slots slot with
    | none => exact absurd hcur (hfull slot hslot)
    | some entry =>
      rw [rank_of_some hcur] at hrank
      refine ⟨slot, hslot, entry.1, entry.2, hcur, ?_⟩
      rw [hdisp hslot]
      change dist _ (entry.1 % s.hashHeader.hashCapacity) _ + 1 ≤ 1 at hrank
      omega

/-! ### What a call does -/

def Maps (header : Hashheader) (m : List UInt8 → Option Nat) (live : List (Item Entry)) : Prop :=
  ∀ key address, m key = some address ↔
    ∃ it ∈ live, it.val.key = key ∧ header.addressOf it = address

section Maps

omit [HashFunctions] [Compressors]

variable {header : Hashheader}

theorem Maps.erase (hm : Maps header m live) (key : List UInt8) :
    Maps header (Function.update m key none) (itemKind.others key live) := by
  intro k address
  by_cases hk : k = key
  · subst hk
    rw [Function.update_self]
    refine ⟨nofun, ?_⟩
    rintro ⟨it, hit, hkey, -⟩
    exact absurd hkey (mem_others.mp hit).2
  · rw [Function.update_of_ne hk, hm k address]
    constructor
    · rintro ⟨it, hit, hkey, haddr⟩
      exact ⟨it, mem_others.mpr ⟨hit, fun h => hk (hkey.symm.trans h)⟩, hkey, haddr⟩
    · rintro ⟨it, hit, hkey, haddr⟩
      exact ⟨it, (mem_others.mp hit).1, hkey, haddr⟩

theorem Maps.insert (hm : Maps header m live) (item : Item Entry) :
    Maps header (Function.update m item.val.key (some (header.addressOf item)))
      (item :: itemKind.others item.val.key live) := by
  intro k address
  have herase := hm.erase item.val.key k address
  by_cases hk : k = item.val.key
  · subst hk
    rw [Function.update_self] at herase ⊢
    constructor
    · intro h
      exact ⟨item, List.mem_cons_self, rfl, Option.some.inj h⟩
    · rintro ⟨it, hit, hkey, haddr⟩
      rcases List.mem_cons.mp hit with rfl | hit
      · rw [haddr]
      · exact absurd (herase.mpr ⟨it, hit, hkey, haddr⟩) nofun
  · rw [Function.update_of_ne hk] at herase ⊢
    rw [herase]
    constructor
    · rintro ⟨it, hit, h⟩
      exact ⟨it, List.mem_cons_of_mem _ hit, h⟩
    · rintro ⟨it, hit, hkey, haddr⟩
      rcases List.mem_cons.mp hit with rfl | hit
      · exact absurd hkey.symm hk
      · exact ⟨it, hit, hkey, haddr⟩

theorem Maps.inserts : ∀ {entries live : List (Item Entry)} {m : List UInt8 → Option Nat},
    Maps header m live → itemKind.Distinct (entries ++ live) →
    Maps header (entries.foldl
      (fun m it => Function.update m it.val.key (some (header.addressOf it))) m)
      (entries.reverse ++ live) := by
  intro entries
  induction entries with
  | nil => exact fun hm _ => hm
  | cons it entries ih =>
    intro live m hm hdistinct
    obtain ⟨hnotin, -⟩ := List.nodup_cons.mp hdistinct
    have hfresh : ∀ x ∈ live, x.val.key ≠ it.val.key := fun x hx hk =>
      hnotin (List.mem_map.mpr ⟨x, List.mem_append_right _ hx, hk⟩)
    have hins := hm.insert it
    rw [(others_eq_self (K := itemKind) hfresh).2] at hins
    have := ih hins (((List.perm_middle.map _).nodup_iff).mpr hdistinct)
    rwa [List.reverse_cons, List.append_assoc]

end Maps

/-- The map of a table with a free slot, or with one for the key, has room. -/
theorem Indexed.room (hl : log.Holds items) (ha : Addressed s.hashHeader items)
    (hi : Indexed items s.hashHeader s.hashtable live)
    (h : (∃ address, s.Stores items item.val.key address) ∨
      s.occupied < s.hashHeader.hashCapacity) :
    (itemKind.others item.val.key live).length < s.hashHeader.hashCapacity := by
  rcases h with ⟨address, hst⟩ | hfree
  · obtain ⟨old, hold, hkey, -⟩ := (hi.stores_iff hl ha).mp hst
    have hlen := (hi.distinct.split hold hkey).2.length_eq
    rw [List.length_cons] at hlen
    have := hi.length_le
    omega
  · rw [hi.occupied_eq] at hfree
    have : (itemKind.others item.val.key live).length ≤ live.length := List.length_filter_le _ _
    omega

/-- **Each call** succeeds and does what its effect on the finite map is. -/
theorem run_tableCall (hl : log.Holds items) (ha : Addressed s.hashHeader items)
    (hi : Indexed items s.hashHeader s.hashtable live) (c : TableCall)
    (hc : c.Allowed log items s) :
    ∃ s' live' garbage, (c.program log).run s = .ok () s' ∧ Updated items s s' live' garbage ∧
      ∀ m, Maps s.hashHeader m live → Maps s.hashHeader (c.effect s.hashHeader m) live' := by
  cases c with
  | put item =>
    obtain ⟨hmem, hput, ⟨rest, hr⟩, hroom⟩ := hc
    obtain ⟨s', hrun, -, hup⟩ := run_hashPut hl ha hi hmem hput hr (hi.room hl ha hroom)
    exact ⟨s', _, _, hrun, hup, fun m hm => hm.insert item⟩
  | delete item =>
    obtain ⟨rest, hr⟩ := hc
    obtain ⟨s', hrun, -, hup⟩ := run_hashDelete hl ha hi hr
    exact ⟨s', _, _, hrun, hup, fun m hm => hm.erase item.val.key⟩
  | copy oldHeader buf count entries =>
    obtain ⟨hold, haold, hhash, hlen, hslots, hmem, hdistinct, hfresh, hroom⟩ := hc
    have hpos : ∀ it ∈ items, it.pos ≠ 0 := by
      intro it hit
      have := hl.le_pos hit
      have : logHeaderSize = 84 := rfl
      omega
    have hall : itemKind.Distinct (entries ++ live) := by
      rw [Kind.Distinct, List.map_append, List.nodup_append]
      refine ⟨hdistinct, hi.distinct, ?_⟩
      intro k hk k' hk' heq
      obtain ⟨it, hit, rfl⟩ := List.mem_map.mp hk
      obtain ⟨x, hx, rfl⟩ := List.mem_map.mp hk'
      exact hfresh it hit _ ((hi.stores_iff hl ha).mpr ⟨x, hx, heq.symm, rfl⟩)
    rw [hi.occupied_eq, Nat.add_comm] at hroom
    obtain ⟨s', hrun, -, hup⟩ := run_hashCopy hold haold hpos hlen hslots
      ⟨ha, hhash, hi, fun it hit => (hmem it hit).1, hmem, hall⟩ hroom
    exact ⟨s', _, _, hrun, hup, fun m hm => hm.inserts hall⟩

/-- **A table that was reached** stores some entries of the log. -/
theorem Reached.indexed (hl : log.Holds items) (h : Reached log items s) :
    Addressed s.hashHeader items ∧ ∃ live, Indexed items s.hashHeader s.hashtable live := by
  induction h with
  | zero hz => exact ⟨hz.addressed, [], indexed_zero hz⟩
  | iters iter raIter _ ih => exact ih
  | call c _ hc hrun ih =>
    obtain ⟨ha, live, hi⟩ := ih
    obtain ⟨s'', live', garbage, hrun', hup, -⟩ := run_tableCall hl ha hi c hc
    rw [hrun'] at hrun
    cases hrun
    exact ⟨hup.recounted.addressed ha, live', hup.indexed⟩

theorem Indexed.exists_map (hl : log.Holds items) (ha : Addressed s.hashHeader items)
    (hi : Indexed items s.hashHeader s.hashtable live) :
    ∃ m : List UInt8 → Option Nat,
      ∀ key address, s.Stores items key address ↔ m key = some address := by
  refine ⟨fun key => (live.find? fun it => it.val.key = key).map s.hashHeader.addressOf,
    fun key address => (hi.stores_iff hl ha).trans ?_⟩
  rw [Option.map_eq_some_iff]
  constructor
  · rintro ⟨it, hit, hkey, haddr⟩
    refine ⟨it, ?_, haddr⟩
    cases hf : live.find? fun x => x.val.key = key with
    | none =>
      have := List.find?_eq_none.mp hf it hit
      simp [hkey] at this
    | some x =>
      have hk : x.val.key = key := by simpa using List.find?_some hf
      rw [hi.distinct.eq_of_key (List.mem_of_find?_eq_some hf) hit (hk.trans hkey.symm)]
  · rintro ⟨it, hf, haddr⟩
    exact ⟨it, List.mem_of_find?_eq_some hf, by simpa using List.find?_some hf, haddr⟩

/-- **The invariant of the table**: it holds in every state reached from a table of zeros, and each
call that may be made there succeeds, keeps it, and does to the stored pairs of key and address what
it does to a finite map. -/
theorem invariant_of_reached (hl : log.Holds items) (h : Reached log items s) :
    TableInvariant items s ∧
      (∃ m : List UInt8 → Option Nat,
        ∀ key address, s.Stores items key address ↔ m key = some address) ∧
      ∀ c : TableCall, c.Allowed log items s →
        ∃ s', (c.program log).run s = .ok () s' ∧ TableInvariant items s' ∧
          ∀ m : List UInt8 → Option Nat,
            (∀ key address, s.Stores items key address ↔ m key = some address) →
            ∀ key address, s'.Stores items key address
              ↔ c.effect s.hashHeader m key = some address := by
  obtain ⟨ha, live, hi⟩ := h.indexed hl
  refine ⟨hi.tableInvariant hl ha, hi.exists_map hl ha, fun c hc => ?_⟩
  obtain ⟨s', live', garbage, hrun, hup, heffect⟩ := run_tableCall hl ha hi c hc
  have ha' := hup.recounted.addressed ha
  refine ⟨s', hrun, hup.indexed.tableInvariant hl ha', fun m hm key address => ?_⟩
  have hmaps : Maps s.hashHeader m live := fun key address =>
    (hm key address).symm.trans (hi.stores_iff hl ha)
  rw [hup.indexed.stores_iff hl ha', hup.recounted.addressOf]
  exact (heffect m hmaps key address).symm

/-! ### A table to look at -/

omit [HashFunctions] in
theorem exists_ready (hl : log.Holds items) (hmem : item ∈ items) :
    ∃ rest iter raIter, Ready log item rest iter raIter := by
  obtain ⟨raIter, hra⟩ := logiterCreate_ok hl.toOpened zeroLogiter
  have hu := (logiterCreate_before hl hra).usable
  obtain ⟨n, hn⟩ := List.mem_iff_getElem?.mp hmem
  obtain ⟨iter, -, hactive, -⟩ := run_fetch hl hu hn
  exact ⟨_, iter, raIter, ⟨_, _, hactive⟩, hu⟩

theorem Reached.exists_put (hl : log.Holds items) (h : Reached log items s)
    (hi : Indexed items s.hashHeader s.hashtable live) (hmem : item ∈ items)
    (hput : item.val.type = .put) (hfresh : ∀ it ∈ live, it.val.key ≠ item.val.key)
    (hroom : live.length < s.hashHeader.hashCapacity) :
    ∃ s', Reached log items s' ∧ Recounted s.hashHeader s'.hashHeader ∧
      Indexed items s'.hashHeader s'.hashtable (item :: live) := by
  obtain ⟨ha, -⟩ := h.indexed hl
  obtain ⟨rest, iter, raIter, hr⟩ := exists_ready hl hmem
  have hlen : (itemKind.others item.val.key live).length < s.hashHeader.hashCapacity := by
    rw [(others_eq_self (K := itemKind) hfresh).2]
    exact hroom
  obtain ⟨s', hrun, -, hup⟩ := run_hashPut (s := { s with iter, raIter }) hl ha hi hmem hput hr hlen
  have hallowed : (TableCall.put item).Allowed log items { s with iter, raIter } :=
    ⟨hmem, hput, ⟨rest, hr⟩, Or.inr (by
      rw [Indexed.occupied_eq (s := { s with iter, raIter }) hi]
      exact hroom)⟩
  have hindexed := hup.indexed
  rw [(others_eq_self (K := itemKind) hfresh).2] at hindexed
  exact ⟨s', .call _ (.iters iter raIter h) hallowed hrun, hup.recounted, hindexed⟩

omit [HashFunctions] [Compressors] in
theorem exists_sampleTable :
    letI := literalCompressors
    ∃ log a b rest s, Logged log (a :: b :: rest) ∧ a.val.type = .put ∧ a.val.key = [1] ∧
      b.val.type = .put ∧ b.val.key = [5] ∧ ZeroTable (a :: b :: rest) s ∧
      s.hashHeader.hashCapacity = 3 ∧ s.hashHeader.hashSize = 4 := by
  let := literalCompressors
  obtain ⟨w, w', log, hw, hclose, hopen, hlog⟩ := exists_of_writeAndOpen sampleEnv .none 0
    sampleCalls (by decide) (by decide +kernel)
  obtain ⟨w₁, hflush, rfl⟩ := ok_logwriterClose (kept_of_writing hw).1.writable hclose
  obtain ⟨items, hl, hvals⟩ := logged_of_flush hw (fun _ _ => nofun) nofun hflush hopen
  have hlength : items.length = (entriesOf sampleCalls).length := by
    rw [← hvals, List.length_map]
  obtain _ | ⟨a, _ | ⟨b, rest⟩⟩ := items
  · exact absurd hlength (by decide)
  · exact absurd hlength (by change ¬1 = _; decide)
  have ha := (List.cons.inj hvals).1
  have hb := (List.cons.inj (List.cons.inj hvals).2).1
  have hfacts : (writeAndOpen sampleEnv .none 0 sampleCalls).map (fun log =>
      (log.header.dataEnd, log.header.maxEntriesPerBlock, log.header.numPuts)) = some (116, 0, 3) := by
    decide +kernel
  rw [hlog] at hfacts
  obtain ⟨hend, hmax, hputs⟩ : log.header.dataEnd = 116 ∧ log.header.maxEntriesPerBlock = 0 ∧
      log.header.numPuts = 3 := by simpa using hfacts
  obtain ⟨header, hheader⟩ : ∃ header, header = newHashheader log.header none 0 4 := ⟨_, rfl⟩
  have haddressed : Addressed header (a :: b :: rest) := by
    rw [hheader]
    refine addressed_newHashheader hl ?_ _ _ _
    rw [hend, hmax]
    decide
  have hcap : header.hashCapacity = 3 := by
    rw [hheader]
    show 1 ||| timesOnePointThree log.header.numPuts = 3
    rw [hputs]
    decide
  have hsize : header.hashSize = 4 := by
    rw [hheader]
    rfl
  have haddr : header.addressSize = 4 := by
    rw [hheader]
    show (if log.header.dataEnd < 1 <<< (32 - intLog2 log.header.maxEntriesPerBlock) then 4 else 8) = 4
    rw [hend, hmax]
    decide
  refine ⟨log, a, b, rest, ⟨List.replicate (header.slotSize * header.hashCapacity) 0, header, zeroLogiter,
    zeroLogiter⟩, hl, by rw [ha]; rfl, by rw [ha]; rfl, by rw [hb]; rfl, by rw [hb]; rfl,
    ⟨Or.inl haddr, Or.inl hsize, ?_, ?_, rfl, ?_, haddressed⟩, hcap, hsize⟩
  · show 0 < header.hashCapacity
    omega
  · show (List.replicate _ (0 : UInt8)).length < 2 ^ 63
    rw [List.length_replicate, Hashheader.slotSize, hcap, hsize, haddr]
    decide
  · show header.numEntries = 0
    rw [hheader]
    rfl

omit [Compressors] in
theorem exists_pairTable :
    letI := literalCompressors
    ∃ log a b rest s, Logged log (a :: b :: rest) ∧ a.val.key = [1] ∧ b.val.key = [5] ∧
      Reached log (a :: b :: rest) s ∧ s.hashHeader.hashCapacity = 3 ∧ s.hashHeader.hashSize = 4 ∧
      Addressed s.hashHeader (a :: b :: rest) ∧
      Indexed (a :: b :: rest) s.hashHeader s.hashtable [b, a] := by
  let := literalCompressors
  obtain ⟨log, a, b, rest, s₀, hl, hputa, hkeya, hputb, hkeyb, hzero, hcap, hsize⟩ := exists_sampleTable
  have hne : a.val.key ≠ b.val.key := by
    rw [hkeya, hkeyb]
    decide
  obtain ⟨s₁, hr₁, hrec₁, hi₁⟩ := Reached.exists_put hl.toHolds (.zero hzero) (indexed_zero hzero)
    List.mem_cons_self hputa nofun (by rw [hcap]; decide)
  obtain ⟨s₂, hr₂, hrec₂, hi₂⟩ := hr₁.exists_put hl.toHolds hi₁
    (List.mem_cons_of_mem _ List.mem_cons_self) hputb (by simpa using hne)
    (by rw [hrec₁.capacity, hcap]; show 1 < 3; decide)
  have hrec := hrec₁.trans hrec₂
  refine ⟨log, a, b, rest, s₂, hl, hkeya, hkeyb, hr₂, hrec.capacity.trans hcap, ?_,
    hrec.addressed hzero.addressed, hi₂⟩
  rw [hrec]
  exact hsize

omit [HashFunctions] [Compressors] in
/-- Two keys with one hash value, one of which is deleted. -/
theorem invariant_of_reached_sample :
    letI := literalCompressors
    letI := lengthHash
    ∃ log items s s' item address, Reached log items s ∧ s.occupied = 2 ∧
      ((TableCall.delete item).program log).run s = .ok () s' ∧ Reached log items s' ∧
      (∀ address, ¬ s'.Stores items [1] address) ∧ s'.Stores items [5] address ∧
      TableInvariant items s' := by
  let := literalCompressors
  let := lengthHash
  obtain ⟨log, a, b, rest, s, hl, hkeya, hkeyb, hs, -, -, ha, hi⟩ := exists_pairTable
  obtain ⟨others, iter, raIter, hr⟩ := exists_ready hl.toHolds (List.mem_cons_self (a := a))
  have hallowed : (TableCall.delete a).Allowed log (a :: b :: rest) { s with iter, raIter } :=
    ⟨others, hr⟩
  obtain ⟨-, ⟨m, hm⟩, hcall⟩ := invariant_of_reached hl.toHolds (.iters iter raIter hs)
  obtain ⟨s', hrun, hinv, heffect⟩ := hcall (.delete a) hallowed
  have heffect := heffect m hm
  refine ⟨log, _, { s with iter, raIter }, s', a, s.hashHeader.addressOf b, .iters iter raIter hs,
    hi.occupied_eq, hrun, .call _ (.iters iter raIter hs) hallowed hrun, ?_, ?_, hinv⟩
  · intro address h
    have := (heffect _ _).mp h
    rw [TableCall.effect, hkeya, Function.update_self] at this
    cases this
  · refine (heffect _ _).mpr ?_
    rw [TableCall.effect, hkeya, Function.update_of_ne (by decide)]
    exact (hm _ _).mp ((hi.stores_iff hl.toHolds ha).mpr ⟨b, List.mem_cons_self, hkeyb, rfl⟩)

end Sparkey
