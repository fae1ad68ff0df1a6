import Sparkey.Index.Lookup

/-!
# Going through the live entries

`sparkey_logiter_hashnext` goes through the log and stops where it finds the address of
the entry in the table.  The search is that of `RobinHood.find` once more, with another
comparison, and it finds the entries that are live (`run_findAddressLoop`).
-/

namespace Sparkey

open Program BlockStream RobinHood LastWrite

variable [Compressors] [HashFunctions] {log₀ : Logreader} {reader : Hashreader}
  {items more live rest : List (Item Entry)} {it : Item Entry} {iter iter' : Logiter}

/-! ### Looking for an address -/

omit [Compressors] [HashFunctions] in
/-- The inner loop of `sparkey_logiter_hashnext` does what `RobinHood.find` does. -/
theorem findAddressLoop_eq (hsized : Sized reader.header reader.hashtable)
    (hlen : reader.hashtable.length < 2 ^ 63) (position : Nat) :
    ∀ fuel slot displacement : Nat, slot < reader.header.hashCapacity →
      findAddressLoop reader position fuel slot displacement
        = (find reader.header.hashCapacity reader.header.home (fun entry => position = entry.2) fuel slot
          displacement reader.slots).map Option.isSome := by
  intro fuel
  induction fuel with
  | zero => exact fun _ _ _ => rfl
  | succ fuel ih =>
    intro slot displacement hslot
    obtain ⟨hash2, position2, hread, -, -, hcontent⟩ := hsized.readSlot hslot
    change reader.slots slot = _ at hcontent
    rw [findAddressLoop, find, hsized.readSlot_eq hlen hslot, hread]
    simp only
    by_cases h0 : position2 = 0
    · rw [if_pos h0] at hcontent ⊢
      rw [hcontent]
      rfl
    rw [if_neg h0] at hcontent ⊢
    rw [hcontent]
    have hdisp := getDisplacement_eq hsized.capacity_lt hslot hash2
    have hhome : reader.header.home (hash2, position2) = hash2 % reader.header.hashCapacity := rfl
    simp only [decide_eq_true_eq, hdisp, nextSlot_eq, hhome]
    by_cases heq : position = position2
    · rw [if_pos heq, if_pos heq]
      rfl
    rw [if_neg heq, if_neg heq]
    by_cases hd : dist reader.header.hashCapacity (hash2 % reader.header.hashCapacity) slot < displacement
    · rw [if_pos hd, if_pos hd]
      rfl
    · rw [if_neg hd, if_neg hd]
      exact ih _ _ (next_lt hslot)

/-- The address of an entry is stored if the entry is live, and otherwise no entry has it. -/
theorem Reading.addressOf_eq_iff (h : Reading log₀ reader items more live) (hit : it ∈ items ++ more)
    {x : Item Entry} (hx : x ∈ live) :
    reader.header.addressOf it = reader.header.addressOf x ↔ it = x := by
  refine ⟨fun haddr => ?_, fun heq => heq ▸ rfl⟩
  have hxmem := (h.mem hx).1
  rcases List.mem_append.mp hit with hold | hnew
  · refine h.old.entries.eq_of_address Entry.header_ne_nil rfl hold hxmem ?_ ?_
    · rw [← h.addressed.positionOf it hold, haddr, h.addressed.positionOf x hxmem]
    · rw [← h.addressed.entryIndexOf it hold, haddr, h.addressed.entryIndexOf x hxmem]
  · exact absurd haddr (h.apart it hnew x hxmem)

/-- **The search for an address** finds the live entries. -/
theorem run_findAddressLoop (h : Reading log₀ reader items more live) (hit : it ∈ items ++ more) :
    findAddressLoop reader (reader.header.addressOf it) (reader.header.hashCapacity + 1)
        (HashFunctions.hash reader.header.hashSize it.val.key reader.header.hashSeed
          % reader.header.hashCapacity) 0
      = some (decide (it ∈ live)) := by
  have hsized := h.indexed.sized
  have hhome := Hashheader.home_lt hsized
  rw [findAddressLoop_eq hsized h.length_lt _ _ _ _ (Nat.mod_lt _ hsized.capacity_pos)]
  by_cases hlive : it ∈ live
  · obtain ⟨z, hz, hslot⟩ := h.indexed.exists_slot hlive
    have hsame : ∀ slot < reader.header.hashCapacity, ∀ entry, reader.slots slot = some entry →
        decide (reader.header.addressOf it = entry.2) = true → slot = z := by
      intro slot hlt entry hentry haddr
      obtain ⟨x, hx, rfl⟩ := h.indexed.mem_entries hlt hentry
      have heq := (h.addressOf_eq_iff hit hx).mp (of_decide_eq_true haddr)
      subst heq
      exact h.indexed.slot_unique h.old h.addressed hlt hz hentry hslot
    have hdist := dist_lt (hhome (reader.header.slotOf it)) hz
    have hfind := find_some h.indexed.valid (hhome _) hz hslot (decide_eq_true rfl) hsame
      (reader.header.hashCapacity + 1) _ 0 (hhome (reader.header.slotOf it)) dist_self.symm (by omega)
      (by omega)
    change (find _ _ _ _ (reader.header.home (reader.header.slotOf it)) 0 _).map _ = _
    rw [hfind, decide_eq_true hlive]
    rfl
  · rw [find_none _ hhome _ _ _ 0 (Nat.mod_lt _ hsized.capacity_pos) (Nat.zero_le _) (by omega),
      decide_eq_false hlive]
    · rfl
    · intro slot hlt entry hentry
      obtain ⟨x, hx, rfl⟩ := h.indexed.mem_entries hlt hentry
      refine decide_eq_false fun haddr => hlive ?_
      rw [(h.addressOf_eq_iff hit hx).mp haddr]
      exact hx

/-! ### `sparkey_logiter_hashnext` -/

def nextLive (live : List (Item Entry)) : List (Item Entry) → Option (Item Entry × List (Item Entry))
  | [] => none
  | it :: rest => if it ∈ live then some (it, rest) else nextLive live rest

/-- **The loop of `sparkey_logiter_hashnext`** goes to the next live entry, and makes it unread. -/
theorem run_hashnextLoop (h : Reading log₀ reader items more live) : ∀ (rest : List (Item Entry))
    {fuel : Nat} {iter : Logiter}, rest.length < fuel → (∀ it ∈ rest, it ∈ items ++ more) →
    Before reader.log iter rest →
    ∃ iter', (hashnextLoop reader fuel).run iter = .ok () iter' ∧
      match nextLive live rest with
      | some (it, behind) => Active reader.log iter' it behind it.val.key it.val.value
      | none => iter'.state = .closed := by
  intro rest
  induction rest with
  | nil =>
    intro fuel iter hfuel _ hb
    obtain ⟨fuel, rfl⟩ := Nat.exists_eq_succ_of_ne_zero (Nat.ne_zero_of_lt hfuel)
    obtain ⟨iter', hrun, hstate, -⟩ := run_logiterNext_end h.holds.toOpened hb
    refine ⟨iter', ?_, hstate⟩
    rw [hashnextLoop, run_bind_ok hrun, run_get_bind, hstate, if_pos (by decide)]
    rfl
  | cons it rest ih =>
    intro fuel iter hfuel hmem hb
    obtain ⟨fuel, rfl⟩ := Nat.exists_eq_succ_of_ne_zero (Nat.ne_zero_of_lt hfuel)
    have hit := hmem it List.mem_cons_self
    have hrest := fun x hx => hmem x (List.mem_cons_of_mem _ hx)
    obtain ⟨iter₁, hrun, hactive, hcount, hpos⟩ := run_logiterNext_item h.holds.toOpened hb
    rw [hashnextLoop, run_bind_ok hrun, run_get_bind, if_neg (not_not_intro hactive.state)]
    simp only [nextLive]
    by_cases hput : it.val.type = .put
    · have hidx : (iter₁.entryCount % 2 ^ 64).toNat = it.idx := by
        have := h.logged.idx_lt it hit
        have := h.logged.maxEntriesPerBlock_lt
        rw [hcount]
        omega
      obtain ⟨iter₂, hhash, h₂⟩ := run_iterHash h.holds.toOpened reader.header hactive
      have hfind := run_findAddressLoop h hit
      rw [if_neg (not_not_intro (hactive.type.trans hput)), hidx, hactive.entryBlockPosition,
        run_bind_ok hhash]
      change findAddressLoop reader (reader.header.address it.pos it.idx) _ _ _ = _ at hfind
      rw [hfind]
      simp only [if_neg (Nat.ne_of_gt h.indexed.sized.capacity_pos)]
      by_cases hlive : it ∈ live
      · obtain ⟨iter₃, hreset, h₃⟩ := run_logiterReset h.holds.toOpened h₂
        rw [decide_eq_true hlive, if_pos hlive]
        exact ⟨iter₃, hreset, h₃⟩
      · rw [decide_eq_false hlive, if_neg hlive]
        exact ih (Nat.lt_of_succ_lt_succ hfuel) hrest h₂.before
    · -- a delete
      have hlive : ¬ it ∈ live := fun hlive => hput (h.mem hlive).2.2
      rw [if_pos (fun htype => hput (hactive.type.symm.trans htype)), if_neg hlive]
      exact ih (Nat.lt_of_succ_lt_succ hfuel) hrest hactive.before

/-- **`sparkey_logiter_hashnext`** goes to the next live entry. -/
theorem run_logiterHashnext (h : Reading log₀ reader items more live)
    (hmem : ∀ it ∈ rest, it ∈ items ++ more) (hlen : rest.length ≤ (items ++ more).length)
    (hb : Before reader.log iter rest) :
    ∃ iter', (logiterHashnext reader).run iter = .ok () iter' ∧
      match nextLive live rest with
      | some (it, behind) => Active reader.log iter' it behind it.val.key it.val.value
      | none => iter'.state = .closed := by
  have hstart : (logiterHashnext reader).run iter
      = (hashnextLoop reader (entryFuel reader.log)).run iter := by
    rw [logiterHashnext, assertReaderOpen, if_neg (not_not_intro h.openStatus)]
    rfl
  rw [hstart]
  exact run_hashnextLoop h rest (Nat.lt_of_le_of_lt hlen (length_lt_entryFuel h.holds)) hmem hb

/-! ### The enumeration -/

structure Unread (log : Logreader) (iter : Logiter) (it : Item Entry) : Prop where
  state : iter.state = .active
  type : iter.type = it.val.type
  entryBlockPosition : iter.entryBlockPosition = it.pos
  keylen : iter.keylen = it.val.key.length
  valuelen : iter.valuelen = it.val.value.length
  keyRemaining : iter.keyRemaining = iter.keylen
  valueRemaining : iter.valueRemaining = iter.valuelen
  /-- The whole key can be read, and then the whole value. -/
  read : ∃ iter₁ iter₂, (logiterFillKey log iter.keylen).run iter = .ok it.val.key iter₁ ∧
    (logiterFillValue log iter.valuelen).run iter₁ = .ok it.val.value iter₂

/-- Repeated `sparkey_logiter_hashnext` stops at these entries, and then the iterator is closed. -/
inductive Enumerates (reader : Hashreader) : Logiter → List (Item Entry) → Prop
  | closed {iter iter' : Logiter} : (logiterHashnext reader).run iter = .ok () iter' →
      iter'.state = .closed → Enumerates reader iter []
  | stop {iter iter' : Logiter} {it : Item Entry} {rest : List (Item Entry)} :
      (logiterHashnext reader).run iter = .ok () iter' → Unread reader.log iter' it →
      Enumerates reader iter' rest → Enumerates reader iter (it :: rest)

omit [HashFunctions] in
theorem Active.unread {log : Logreader} (hl : log.Opened)
    (h : Active log iter it rest it.val.key it.val.value) : Unread log iter it := by
  obtain ⟨iter₁, hkey, h₁⟩ := run_logiterFillKey hl h it.val.key.length
  obtain ⟨iter₂, key', hvalue, -⟩ := run_logiterFillValue hl h₁ it.val.value.length
  rw [List.take_length] at hkey hvalue
  refine ⟨h.state, h.type, h.entryBlockPosition, h.keylen, h.valuelen,
    h.keyRemaining.trans h.keylen.symm, h.valueRemaining.trans h.valuelen.symm, iter₁, iter₂, ?_, ?_⟩
  · rw [h.keylen]
    exact hkey
  · rw [h.valuelen]
    exact hvalue

omit [Compressors] [HashFunctions] in
theorem nextLive_eq (live : List (Item Entry)) : ∀ rest : List (Item Entry),
    (nextLive live rest = none ∧ rest.filter (· ∈ live) = []) ∨
      ∃ skipped it behind, nextLive live rest = some (it, behind) ∧ rest = skipped ++ it :: behind ∧
        rest.filter (· ∈ live) = it :: behind.filter (· ∈ live) := by
  intro rest
  induction rest with
  | nil => exact Or.inl ⟨rfl, rfl⟩
  | cons x rest ih =>
    by_cases hx : x ∈ live
    · refine Or.inr ⟨[], x, rest, ?_, rfl, ?_⟩
      · rw [nextLive, if_pos hx]
      · rw [List.filter_cons_of_pos (by simpa using hx)]
    · rw [nextLive, if_neg hx, List.filter_cons_of_neg (by simpa using hx)]
      rcases ih with hnone | ⟨skipped, it, behind, hnext, rfl, hfilter⟩
      · exact Or.inl hnone
      · exact Or.inr ⟨x :: skipped, it, behind, hnext, rfl, hfilter⟩

/-- **Repeated `sparkey_logiter_hashnext`** goes through the live entries, in the order of the log. -/
theorem enumerates (h : Reading log₀ reader items more live) : ∀ (n : Nat)
    {rest : List (Item Entry)} {iter : Logiter}, rest.length ≤ n →
    (∀ it ∈ rest, it ∈ items ++ more) → rest.length ≤ (items ++ more).length →
    Before reader.log iter rest → Enumerates reader iter (rest.filter (· ∈ live)) := by
  intro n
  induction n with
  | zero =>
    intro rest iter hn hmem hlen hb
    obtain rfl : rest = [] := List.length_eq_zero_iff.mp (Nat.le_zero.mp hn)
    obtain ⟨iter', hrun, hclosed⟩ := run_logiterHashnext h hmem hlen hb
    exact .closed hrun hclosed
  | succ n ih =>
    intro rest iter hn hmem hlen hb
    obtain ⟨iter', hrun, hnext⟩ := run_logiterHashnext h hmem hlen hb
    rcases nextLive_eq live rest with ⟨hnone, hfilter⟩ | ⟨skipped, it, behind, hsome, rfl, hfilter⟩
    · rw [hnone] at hnext
      rw [hfilter]
      exact .closed hrun hnext
    · rw [hsome] at hnext
      rw [hfilter]
      rw [List.length_append, List.length_cons] at hn hlen
      refine .stop hrun (Active.unread h.holds.toOpened hnext) (ih (by omega) (fun x hx => ?_) (by omega)
        (Active.before hnext))
      exact hmem x (List.mem_append_right _ (List.mem_cons_of_mem _ hx))

end Sparkey
