import Sparkey.Index.History
import Sparkey.Reader.Steady

/-!
# Looking a key up

`sparkey_hash_get` goes through the slots as `RobinHood.find` does, and compares the key
with that of an entry where the hash values are equal.  So it leaves the iterator at
the live entry of the key (`run_hashGet`), which is the last put of the key if no delete
came behind it.
-/

namespace Sparkey

open Program BlockStream RobinHood LastWrite

variable [Compressors] {log log₀ : Logreader} {items more live : List (Item Entry)}
  {item it : Item Entry} {iter iter' : Logiter} {key rest value : List UInt8} {n : Nat}

/-! ### Comparing the key -/

/-- **The comparison of `sparkey_hash_get`**, behind the bytes that were equal. -/
theorem run_equalsLoop (hl : log.Opened) (hlen : key.length = item.val.key.length) :
    ∀ (fuel pos2 : Nat) {rest : List UInt8} {iter : Logiter}, key.length < fuel + pos2 →
      pos2 ≤ key.length → rest = item.val.key.drop pos2 → key.take pos2 = item.val.key.take pos2 →
      Active log iter item items rest item.val.value →
      ∃ iter', (equalsLoop log key fuel pos2).run iter = .ok (decide (item.val.key = key)) iter' ∧
        Usable log iter' ∧
        (item.val.key = key → Active log iter' item items [] item.val.value) := by
  intro fuel
  induction fuel with
  | zero =>
    intro pos2 rest iter hf hle
    omega
  | succ fuel ih =>
    intro pos2 rest iter hf hle hrest htake h
    rw [equalsLoop]
    by_cases hpos : pos2 < key.length
    · have hrestLen : rest.length = key.length - pos2 := by rw [hrest, List.length_drop, hlen]
      have hne : rest ≠ [] := List.ne_nil_of_length_pos (by omega)
      obtain ⟨m, iter₁, hrun, -, hm, hm0, h₁⟩ := run_logiterKeychunk hl h key.length
      have hmpos := hm0 hne (by omega)
      have hbuf : (rest.take m).length = m := List.length_take_of_le hm
      have hmine : ((key.drop pos2).take m).length = m := by
        rw [List.length_take, List.length_drop]
        omega
      have hcmp := memcmp_eq_zero (hmine.trans hbuf.symm)
      rw [if_pos hpos, run_bind_ok hrun, hbuf]
      by_cases hv : memcmp ((key.drop pos2).take m) (rest.take m) = 0
      · -- equal so far
        rw [if_neg (not_not_intro hv)]
        refine ih (pos2 + m) (by omega) (by omega) ?_ ?_ h₁
        · rw [hrest, List.drop_drop]
        · rw [List.take_add, List.take_add, htake, hcmp.mp hv, hrest]
      · have hkey : item.val.key ≠ key := fun heq => hv (hcmp.mpr (by rw [hrest, heq]))
        rw [if_pos hv, decide_eq_false hkey]
        exact ⟨iter₁, rfl, h₁.usable, fun heq => absurd heq hkey⟩
    · obtain rfl : pos2 = key.length := by omega
      have hkey : item.val.key = key := by
        rw [List.take_length, hlen, List.take_length] at htake
        exact htake.symm
      have hnil : rest = [] := by rw [hrest, hlen, List.drop_length]
      rw [if_neg hpos, decide_eq_true hkey]
      exact ⟨iter, rfl, h.usable, fun _ => hnil ▸ h⟩

/-- **The comparison with the entry at an address**, from wherever the iterator is. -/
theorem run_isEntryOf (key : List UInt8) (hl : log.Holds items) (hu : Usable log iter)
    (hn : items[n]? = some item)
    (hput : item.val.type = .put) :
    ∃ iter', (isEntryOf log key item.pos item.idx).run iter
        = .ok (decide (item.val.key = key)) iter' ∧ Usable log iter' ∧
      (item.val.key = key →
        Active log iter' item (items.drop (n + 1)) [] item.val.value) := by
  obtain ⟨iter₃, hfetch, hactive, -⟩ := run_fetch hl hu hn
  obtain ⟨_, iter₁, hseek, hfetch⟩ := ok_bind hfetch
  obtain ⟨_, iter₂, hskip, hnext⟩ := ok_bind hfetch
  have htype : ¬ iter₃.type ≠ .put := not_not_intro (hactive.type.trans hput)
  rw [isEntryOf, run_bind_ok hseek, run_bind_ok hskip, run_bind_ok hnext, run_get_bind]
  simp only [if_neg htype, hactive.keylen]
  by_cases hlen : key.length = item.val.key.length
  · rw [if_pos hlen]
    exact run_equalsLoop hl.toOpened hlen _ 0 (by omega) (Nat.zero_le _) rfl rfl hactive
  · have hkey : item.val.key ≠ key := fun heq => hlen (congrArg List.length heq).symm
    rw [if_neg hlen, decide_eq_false hkey]
    exact ⟨iter₃, rfl, hactive.usable, fun heq => absurd heq hkey⟩

/-! ### The loop -/

variable [HashFunctions]

structure Reading (log₀ : Logreader) (reader : Hashreader) (items more live : List (Item Entry)) :
    Prop where
  openStatus : reader.openStatus = magicValueHashreader
  old : log₀.Holds items
  logged : Logged reader.log (items ++ more)
  addressed : Addressed reader.header items
  /-- The entries that have come since do not get the address of an old one. -/
  apart : ∀ it ∈ more, ∀ x ∈ items, reader.header.addressOf it ≠ reader.header.addressOf x
  indexed : Indexed items reader.header reader.hashtable live
  length_lt : reader.hashtable.length < 2 ^ 63

theorem Reading.holds {reader : Hashreader} (h : Reading log₀ reader items more live) :
    reader.log.Holds (items ++ more) :=
  h.logged.toHolds

variable {reader : Hashreader}

abbrev Hashreader.slots (reader : Hashreader) : Nat → Option (Nat × Nat) :=
  reader.header.slots reader.hashtable

omit [Compressors] [HashFunctions] in
/-- Where the table is of the size in the header, no position is cut down. -/
theorem Sized.readSlot_eq (hs : Sized reader.header reader.hashtable)
    (hlen : reader.hashtable.length < 2 ^ 63) {slot : Nat} (h : slot < reader.header.hashCapacity) :
    reader.readSlot slot = reader.header.readSlot reader.hashtable slot := by
  have hle := hs.slot_le h
  have hsize := hs.slotSize_le
  rw [Hashreader.readSlot, hs.slotStep_eq, u64_of_lt (by omega), Hashheader.readSlot]

theorem Reading.readSlot (h : Reading log₀ reader items more live) {slot : Nat}
    (hslot : slot < reader.header.hashCapacity) :
    ∃ hash position, reader.readSlot slot = some (hash, position) ∧
      reader.slots slot = if position = 0 then none else some (hash, position) := by
  obtain ⟨hash, position, hread, -, -, hcontent⟩ := h.indexed.sized.readSlot hslot
  exact ⟨hash, position, (h.indexed.sized.readSlot_eq h.length_lt hslot).trans hread, hcontent⟩

theorem Reading.mem (h : Reading log₀ reader items more live) (hit : it ∈ live) :
    it ∈ items ∧ (∃ n : Nat, (items ++ more)[n]? = some it) ∧ it.val.type = .put := by
  obtain ⟨hmem, hput⟩ := h.indexed.mem it hit
  exact ⟨hmem, List.mem_iff_getElem?.mp (List.mem_append_left _ hmem), hput⟩

theorem Reading.storesKey_iff (h : Reading log₀ reader items more live) (key : List UInt8)
    (hit : it ∈ live) :
    reader.header.storesKey live key (reader.header.slotOf it) = true ↔ it.val.key = key := by
  rw [Sparkey.storesKey_iff]
  constructor
  · rintro ⟨x, hx, hslot, hkey⟩
    rwa [← slotOf_inj h.old h.addressed (h.mem hx).1 (h.mem hit).1 hslot]
  · exact fun hkey => ⟨it, hit, rfl, hkey⟩

/-- The iterator is at an entry of the key, with the whole value unread. -/
structure Found (log : Logreader) (iter : Logiter) (items : List (Item Entry)) (it : Item Entry)
    (n : Nat) : Prop where
  getElem : items[n]? = some it
  active : Active log iter it (items.drop (n + 1)) [] it.val.value

/-- The loop of `sparkey_hash_get` up to the slot at which it stops, if it finds the key. -/
def hashGetSlotLoop (reader : Hashreader) (key : List UInt8) (hash : Nat) :
    Nat → Nat → Nat → Run Logiter (Option Nat)
  | 0, _, _ => stuck
  | fuel + 1, slot, displacement => do
    match reader.readSlot slot with
    | none => stuck
    | some (hash2, address2) =>
      if address2 = 0 then
        return none
      let equals ← if hash = hash2 then
          isEntryOf reader.log key (reader.header.positionOf address2)
            (reader.header.entryIndexOf address2)
        else pure false
      if equals then
        return some slot
      let capacity := reader.header.hashCapacity
      if getDisplacement capacity slot hash2 < displacement then
        return none
      hashGetSlotLoop reader key hash fuel (nextSlot capacity slot) (displacement + 1)

/-- What `sparkey_hash_get` does when the slot is known. -/
def settle : Option Nat → Run Logiter Unit
  | some _ => pure ()
  | none => do
    modify fun iter => { iter with state := .invalid }
    return ()

omit [HashFunctions] in
/-- **The loop of `sparkey_hash_get`** is that up to the slot. -/
theorem hashGetLoop_eq (reader : Hashreader) (key : List UInt8) (hash : Nat) :
    ∀ fuel slot displacement : Nat, hashGetLoop reader key hash fuel slot displacement
      = hashGetSlotLoop reader key hash fuel slot displacement >>= settle := by
  intro fuel
  induction fuel with
  | zero => exact fun _ _ => rfl
  | succ fuel ih =>
    intro slot displacement
    rw [hashGetLoop, hashGetSlotLoop]
    cases reader.readSlot slot with
    | none => rfl
    | some content =>
      obtain ⟨hash2, address2⟩ := content
      simp only
      by_cases h0 : address2 = 0
      · rw [if_pos h0, if_pos h0]
        rfl
      rw [if_neg h0, if_neg h0]
      -- the two go on alike behind the comparison
      have hrest : ∀ equals : Bool, (if equals = true then pure () else
          if getDisplacement reader.header.hashCapacity slot hash2 < displacement then do
            modify fun iter => { iter with state := .invalid }
            pure ()
          else hashGetLoop reader key hash fuel (nextSlot reader.header.hashCapacity slot)
            (displacement + 1) : Run Logiter Unit)
          = (if equals = true then pure (some slot) else
          if getDisplacement reader.header.hashCapacity slot hash2 < displacement then pure none
          else hashGetSlotLoop reader key hash fuel (nextSlot reader.header.hashCapacity slot)
            (displacement + 1)) >>= settle := by
        intro equals
        cases equals with
        | true => rfl
        | false =>
          simp only [Bool.false_eq_true, if_false]
          split_ifs
          · rfl
          · exact ih _ _
      simp only [hrest]
      by_cases hhash : hash = hash2
      · rw [if_pos hhash, if_pos hhash, bind_assoc]
      · rw [if_neg hhash, if_neg hhash]
        rfl

/-- What a search for a key comes to that stops at a slot, at none, or never. -/
def SlotDone (reader : Hashreader) (items live : List (Item Entry)) (key : List UInt8)
    (r : Option (Option Nat)) (res : EStateM.Result (Stop Returncode) Logiter (Option Nat)) : Prop :=
  match r with
  | none => ∃ iter', res = .error .stuck iter'
  | some none => ∃ iter', res = .ok none iter' ∧ Usable reader.log iter'
  | some (some slot) => ∃ iter' it n, res = .ok (some slot) iter' ∧ it ∈ live ∧ it.val.key = key ∧
      reader.slots slot = some (reader.header.slotOf it) ∧ Found reader.log iter' items it n

/-- What `sparkey_hash_get` comes to, given what the search on slots does. -/
def GetDone (reader : Hashreader) (items live : List (Item Entry)) (key : List UInt8)
    (r : Option (Option Nat)) (res : EStateM.Result (Stop Returncode) Logiter Unit) : Prop :=
  match r with
  | none => ∃ iter', res = .error .stuck iter'
  | some none => ∃ iter', res = .ok () iter' ∧ iter'.state = .invalid ∧ Usable reader.log iter'
  | some (some slot) => ∃ iter' it n, res = .ok () iter' ∧ it ∈ live ∧ it.val.key = key ∧
      reader.slots slot = some (reader.header.slotOf it) ∧ Found reader.log iter' items it n

def comparesKey (reader : Hashreader) (key : List UInt8) (entry : Nat × Nat) : Run Logiter Bool :=
  if HashFunctions.hash reader.header.hashSize key reader.header.hashSeed = entry.1 then
    isEntryOf reader.log key (reader.header.positionOf entry.2) (reader.header.entryIndexOf entry.2)
  else pure false

/-- **The comparison tells whether the entry is one of the key.** -/
theorem run_comparesKey (h : Reading log₀ reader items more live) (key : List UInt8)
    (hu : Usable reader.log iter) (hit : it ∈ live) (hn : (items ++ more)[n]? = some it) :
    ∃ iter', (comparesKey reader key (reader.header.slotOf it)).run iter
        = .ok (decide (it.val.key = key)) iter' ∧ Usable reader.log iter' ∧
      (it.val.key = key →
        Active reader.log iter' it ((items ++ more).drop (n + 1)) [] it.val.value) := by
  obtain ⟨hmem, -, hput⟩ := h.mem hit
  have hpos : reader.header.positionOf (reader.header.slotOf it).2 = it.pos :=
    h.addressed.positionOf it hmem
  have hidx : reader.header.entryIndexOf (reader.header.slotOf it).2 = it.idx :=
    h.addressed.entryIndexOf it hmem
  rw [comparesKey, hpos, hidx]
  by_cases hhash : HashFunctions.hash reader.header.hashSize key reader.header.hashSeed
      = (reader.header.slotOf it).1
  · rw [if_pos hhash]
    exact run_isEntryOf key h.holds hu hn hput
  · have hkey : it.val.key ≠ key := by
      rintro rfl
      exact hhash rfl
    rw [if_neg hhash, decide_eq_false hkey]
    exact ⟨iter, rfl, hu, fun heq => absurd heq hkey⟩

/-- **The search of `sparkey_hash_get`** does what `RobinHood.find` does. -/
theorem run_hashGetSlotLoop (h : Reading log₀ reader items more live) (key : List UInt8) :
    ∀ (fuel slot displacement : Nat) {iter : Logiter}, slot < reader.header.hashCapacity →
    Usable reader.log iter →
    SlotDone reader (items ++ more) live key
      (find reader.header.hashCapacity reader.header.home (reader.header.storesKey live key) fuel slot
        displacement reader.slots)
      ((hashGetSlotLoop reader key (HashFunctions.hash reader.header.hashSize key
        reader.header.hashSeed) fuel slot displacement).run iter) := by
  intro fuel
  induction fuel with
  | zero =>
    intro slot displacement iter _ _
    exact ⟨iter, rfl⟩
  | succ fuel ih =>
    intro slot displacement iter hslot hu
    have hsized := h.indexed.sized
    obtain ⟨hash2, address2, hread, hcontent⟩ := h.readSlot hslot
    rw [hashGetSlotLoop, find, hread]
    simp only
    by_cases h0 : address2 = 0
    · -- a free slot
      rw [if_pos h0] at hcontent ⊢
      rw [hcontent]
      exact ⟨_, rfl, hu⟩
    rw [if_neg h0] at hcontent ⊢
    rw [hcontent]
    obtain ⟨it, hit, hentry⟩ := h.indexed.mem_entries hslot hcontent
    obtain ⟨n, hn⟩ := (h.mem hit).2.1
    obtain ⟨rfl, rfl⟩ : (reader.header.slotOf it).1 = hash2 ∧ (reader.header.slotOf it).2 = address2 :=
      Prod.mk.inj hentry
    have hstores := h.storesKey_iff key hit
    obtain ⟨iter₁, hcompare, hu₁, hactive⟩ := run_comparesKey h key hu hit hn
    have hrun : ∀ f : Bool → Run Logiter (Option Nat),
        (if HashFunctions.hash reader.header.hashSize key reader.header.hashSeed
            = (reader.header.slotOf it).1 then
          isEntryOf reader.log key (reader.header.positionOf (reader.header.slotOf it).2)
            (reader.header.entryIndexOf (reader.header.slotOf it).2) >>= f
        else pure false >>= f).run iter = (f (decide (it.val.key = key))).run iter₁ := by
      intro f
      rw [← run_bind_ok hcompare, comparesKey]
      split_ifs <;> rfl
    rw [hrun]
    by_cases hkey : it.val.key = key
    · simp only [decide_eq_true hkey, if_true, hentry ▸ hstores.mpr hkey]
      exact ⟨iter₁, it, n, rfl, hit, hkey, hcontent, hn, hactive hkey⟩
    · have hnot : ¬ reader.header.storesKey live key
          ((reader.header.slotOf it).1, (reader.header.slotOf it).2) = true := mt hstores.mp hkey
      have hdisp := getDisplacement_eq hsized.capacity_lt hslot (reader.header.slotOf it).1
      have hhome : reader.header.home ((reader.header.slotOf it).1, (reader.header.slotOf it).2)
          = (reader.header.slotOf it).1 % reader.header.hashCapacity := rfl
      simp only [if_neg hnot, decide_eq_false hkey, Bool.false_eq_true, if_false, hdisp, nextSlot_eq,
        hhome]
      by_cases hd : dist reader.header.hashCapacity
          ((reader.header.slotOf it).1 % reader.header.hashCapacity) slot < displacement
      · simp only [if_pos hd]
        exact ⟨_, rfl, hu₁⟩
      · simp only [if_neg hd]
        exact ih _ _ (next_lt hslot) hu₁

/-- **The loop of `sparkey_hash_get`** does what `RobinHood.find` does. -/
theorem run_hashGetLoop (h : Reading log₀ reader items more live) (key : List UInt8)
    (fuel slot displacement : Nat) (hslot : slot < reader.header.hashCapacity)
    (hu : Usable reader.log iter) :
    GetDone reader (items ++ more) live key
      (find reader.header.hashCapacity reader.header.home (reader.header.storesKey live key) fuel slot
        displacement reader.slots)
      ((hashGetLoop reader key (HashFunctions.hash reader.header.hashSize key reader.header.hashSeed)
        fuel slot displacement).run iter) := by
  have hdone := run_hashGetSlotLoop h key fuel slot displacement hslot hu
  rw [hashGetLoop_eq]
  rcases hfind : find reader.header.hashCapacity reader.header.home
    (reader.header.storesKey live key) fuel slot displacement reader.slots with - | - | found
  · rw [hfind] at hdone
    obtain ⟨iter', hrun⟩ := hdone
    exact ⟨iter', run_bind_error hrun⟩
  · rw [hfind] at hdone
    obtain ⟨iter', hrun, hu'⟩ := hdone
    rw [run_bind_ok hrun]
    exact ⟨_, rfl, rfl, ⟨⟨hu'.iterOpen.1, hu'.iterOpen.2⟩, hu'.cached⟩⟩
  · rw [hfind] at hdone
    obtain ⟨iter', it, n, hrun, hrest⟩ := hdone
    rw [run_bind_ok hrun]
    exact ⟨iter', it, n, rfl, hrest⟩

/-- **`sparkey_hash_get`** goes to the live entry of the key, or says that there is none. -/
theorem run_hashGet (h : Reading log₀ reader items more live) (hu : Usable reader.log iter)
    (key : List UInt8) :
    ∃ iter', (hashGet reader key).run iter = .ok () iter' ∧
      match itemKind.get? key live with
      | some it => ∃ n, Found reader.log iter' (items ++ more) it n
      | none => iter'.state = .invalid ∧ Usable reader.log iter' := by
  have hsized := h.indexed.sized
  have hhome := Hashheader.home_lt hsized
  have hslot : HashFunctions.hash reader.header.hashSize key reader.header.hashSeed
      % reader.header.hashCapacity < reader.header.hashCapacity := Nat.mod_lt _ hsized.capacity_pos
  have hdone := run_hashGetLoop h key (reader.header.hashCapacity + 1) _ 0 hslot hu
  have hstart : (hashGet reader key).run iter
      = (hashGetLoop reader key (HashFunctions.hash reader.header.hashSize key reader.header.hashSeed)
        (reader.header.hashCapacity + 1) (HashFunctions.hash reader.header.hashSize key
          reader.header.hashSeed % reader.header.hashCapacity) 0).run iter := by
    rw [hashGet, assertReaderOpen, if_neg (not_not_intro h.openStatus)]
    simp only [if_neg (Nat.ne_of_gt hsized.capacity_pos)]
    rfl
  rw [hstart]
  cases hget : itemKind.get? key live with
  | none =>
    have hfresh : ∀ it ∈ live, it.val.key ≠ key := fun it hit => get?_eq_none hget hit
    rw [find_none _ hhome (fun _ _ _ _ => storesKey_of_fresh hfresh _) _ _ 0 hslot (Nat.zero_le _)
      (by omega)] at hdone
    exact hdone
  | some it =>
    obtain ⟨hit, hkey⟩ := get?_eq_some hget
    rw [key_itemKind] at hkey
    obtain ⟨z, hz, hcontent, hst, huniq⟩ := Indexed.slot_of_key
      (s := ⟨reader.hashtable, reader.header, iter, iter⟩) h.old h.addressed h.indexed hit hkey
    have hwanted : HashFunctions.hash reader.header.hashSize key reader.header.hashSeed
        % reader.header.hashCapacity = reader.header.home (reader.header.slotOf it) := by
      rw [← hkey]
      rfl
    have hdist := dist_lt (hhome (reader.header.slotOf it)) hz
    have hfound := find_some h.indexed.valid (hhome _) hz hcontent hst huniq
      (reader.header.hashCapacity + 1) _ 0 (hhome (reader.header.slotOf it)) dist_self.symm (by omega)
      (by omega)
    rw [hwanted, hfound] at hdone
    obtain ⟨iter', it', n, hrun, hit', hkey', -, hat⟩ := hdone
    obtain rfl : it = it' := h.indexed.distinct.eq_of_key hit hit' (hkey.trans hkey'.symm)
    rw [hwanted]
    exact ⟨iter', hrun, n, hat⟩

/-! ### Any calls before -/

omit [HashFunctions] in
theorem handles_equalsLoop : ∀ fuel pos2 : Nat,
    Preserves (Handled log) (equalsLoop log key fuel pos2) := by
  intro fuel
  induction fuel with
  | zero => exact fun _ => preserves_stuck
  | succ fuel ih =>
    intro pos2
    refine .ite ((handles_keychunk _).bind fun buf2 => ?_) (preserves_pure _)
    exact .ite (preserves_pure _) (ih _)

omit [HashFunctions] in
theorem handles_isEntryOf {position2 entryIndex2 : Nat} (hp : log.StartsBlock position2) :
    Preserves (Handled log) (isEntryOf log key position2 entryIndex2) := by
  refine (handles_seek (Or.inr hp)).bind fun _ => (handles_skip _).bind fun _ =>
    handles_next.bind fun _ => .get_bind fun iter h => ?_
  by_cases htype : iter.type = .put
  · rw [if_neg (not_not_intro htype)]
    exact Preserves.ite (handles_equalsLoop _ _) (preserves_pure _) iter h
  · rw [if_pos htype]
    exact h.miss

theorem handles_iterHash (header : Hashheader) : Preserves (Handled log) (iterHash header log) := by
  refine (handles_keychunk _).attempt.bind fun res => ?_
  cases res with
  | error code => exact preserves_pure _
  | ok buf =>
    refine .get_bind fun iter h => ?_
    by_cases hlen : buf.length = iter.keylen
    · rw [if_pos hlen]
      exact h
    · rw [if_neg hlen]
      refine Preserves.bind (handles_fillKey _).attempt (fun res => ?_) iter h
      cases res with
      | error code => exact preserves_pure _
      | ok rest => exact .ite (preserves_pure _) (preserves_pure _)

omit [HashFunctions] in
theorem handles_setInvalid : Preserves (Handled log) (do
    modify fun iter => { iter with state := .invalid }
    return () : Run Logiter Unit) :=
  preserves_modify fun _ h => h.miss

theorem handles_hashGetLoop (h : Reading log₀ reader items more live) (hash : Nat) :
    ∀ fuel slot displacement : Nat, slot < reader.header.hashCapacity →
      Preserves (Handled reader.log) (hashGetLoop reader key hash fuel slot displacement) := by
  intro fuel
  induction fuel with
  | zero => exact fun _ _ _ => preserves_stuck
  | succ fuel ih =>
    intro slot displacement hslot
    obtain ⟨hash2, address2, hread, hcontent⟩ := h.readSlot hslot
    rw [hashGetLoop, hread]
    simp only
    by_cases h0 : address2 = 0
    · rw [if_pos h0]
      exact handles_setInvalid
    rw [if_neg h0] at hcontent ⊢
    obtain ⟨it, hit, hentry⟩ := h.indexed.mem_entries hslot hcontent
    have hmem := (h.mem hit).1
    have hpos : reader.header.positionOf address2 = it.pos := by
      rw [show address2 = reader.header.addressOf it from (congrArg Prod.snd hentry).symm]
      exact h.addressed.positionOf it hmem
    have hrest : ∀ equals : Bool, Preserves (Handled reader.log) (if equals = true then pure () else
        if getDisplacement reader.header.hashCapacity slot hash2 < displacement then do
          modify fun iter => { iter with state := .invalid }
          return ()
        else hashGetLoop reader key hash fuel (nextSlot reader.header.hashCapacity slot)
          (displacement + 1) : Run Logiter Unit) := fun equals =>
      .ite (preserves_pure _) (.ite handles_setInvalid (ih _ _ (next_lt hslot)))
    refine .ite (Preserves.bind ?_ hrest) (Preserves.bind (preserves_pure _) hrest)
    exact handles_isEntryOf (hpos ▸ h.holds.startsBlock (List.mem_append_left _ hmem))

theorem handles_hashGet (h : Reading log₀ reader items more live) (key : List UInt8) :
    Preserves (Handled reader.log) (hashGet reader key) := by
  refine Preserves.bind (.ite (preserves_fail _) (preserves_pure _)) fun _ => ?_
  refine .ite preserves_stuck (handles_hashGetLoop h _ _ _ _ ?_)
  exact Nat.mod_lt _ h.indexed.sized.capacity_pos

theorem handles_hashnextLoop : ∀ fuel : Nat,
    Preserves (Handled reader.log) (hashnextLoop reader fuel) := by
  intro fuel
  induction fuel with
  | zero => exact preserves_stuck
  | succ fuel ih =>
    refine handles_next.bind fun _ => .get_bind fun iter h => ?_
    refine Preserves.ite (preserves_pure _) (Preserves.ite ih ?_) iter h
    refine (handles_iterHash _).bind fun keyHash => ?_
    simp only
    refine .ite preserves_stuck ?_
    split
    · exact preserves_stuck
    · exact handles_reset
    · exact ih

theorem handles_logiterHashnext :
    Preserves (Handled reader.log) (logiterHashnext reader) :=
  (Preserves.ite (preserves_fail _) (preserves_pure _)).bind fun _ => handles_hashnextLoop _

omit [HashFunctions] [Compressors] in
inductive IterCall
  | next
  | skip (count : Nat)
  | seek (position : Nat)
  | reset
  | keychunk (maxlen : Nat)
  | valuechunk (maxlen : Nat)
  | fillKey (maxlen : Nat)
  | fillValue (maxlen : Nat)
  | get (key : List UInt8)
  | hashnext

def IterCall.program (reader : Hashreader) : IterCall → Run Logiter Unit
  | next => logiterNext reader.log
  | skip count => logiterSkip reader.log count
  | seek position => logiterSeek reader.log position
  | reset => logiterReset reader.log
  | keychunk maxlen => do let _ ← logiterKeychunk reader.log maxlen
  | valuechunk maxlen => do let _ ← logiterValuechunk reader.log maxlen
  | fillKey maxlen => do let _ ← logiterFillKey reader.log maxlen
  | fillValue maxlen => do let _ ← logiterFillValue reader.log maxlen
  | get key => hashGet reader key
  | hashnext => logiterHashnext reader

omit [HashFunctions] in
/-- The position for `seek` must be the start of a block, or the end of the data. -/
def IterCall.Allowed (log : Logreader) : IterCall → Prop
  | seek position => position = log.header.dataEnd ∨ log.StartsBlock position
  | _ => True

/-- An iterator after any calls, on which `seek` was told starts of blocks. -/
inductive Used (reader : Hashreader) : Logiter → Prop
  | create {unset iter : Logiter} : logiterCreate unset reader.log = .ok iter → Used reader iter
  | call {iter iter' : Logiter} (c : IterCall) : Used reader iter → c.Allowed reader.log →
      LeadsTo (c.program reader) iter iter' → Used reader iter'
  | keycmp₁ {iter₁ iter₂ : Logiter} {iters : Logiter × Logiter} : Used reader iter₁ →
      Used reader iter₂ → LeadsTo (logiterKeycmp reader.log) (iter₁, iter₂) iters →
      Used reader iters.1
  | keycmp₂ {iter₁ iter₂ : Logiter} {iters : Logiter × Logiter} : Used reader iter₁ →
      Used reader iter₂ → LeadsTo (logiterKeycmp reader.log) (iter₁, iter₂) iters →
      Used reader iters.2

theorem IterCall.handles (h : Reading log₀ reader items more live) (c : IterCall)
    (hc : c.Allowed reader.log) : Preserves (Handled reader.log) (c.program reader) := by
  cases c with
  | next => exact handles_next
  | skip count => exact handles_skip count
  | seek position => exact handles_seek hc
  | reset => exact handles_reset
  | keychunk maxlen => exact (handles_keychunk maxlen).bind fun _ => preserves_pure _
  | valuechunk maxlen => exact (handles_valuechunk maxlen).bind fun _ => preserves_pure _
  | fillKey maxlen => exact (handles_fillKey maxlen).bind fun _ => preserves_pure _
  | fillValue maxlen => exact (handles_fillValue maxlen).bind fun _ => preserves_pure _
  | get key => exact handles_hashGet h key
  | hashnext => exact handles_logiterHashnext

/-- **Using an index** does nothing to an iterator that calls on the log do not do. -/
theorem Used.handled (h : Reading log₀ reader items more live) (hu : Used reader iter) :
    Handled reader.log iter := by
  induction hu with
  | create hcreate => exact .create hcreate
  | call c _ hc hrun ih => exact (c.handles h hc).of_leadsTo ih hrun
  | keycmp₁ _ _ hrun ih₁ ih₂ => exact .keycmp₁ ih₁ ih₂ hrun
  | keycmp₂ _ _ hrun ih₁ ih₂ => exact .keycmp₂ ih₁ ih₂ hrun

/-- **Any calls leave the iterator steady.** -/
theorem Used.steady (h : Reading log₀ reader items more live) (hu : Used reader iter) :
    Steady reader.log iter :=
  (hu.handled h).steady h.holds.toOpened h.holds.chain

end Sparkey
