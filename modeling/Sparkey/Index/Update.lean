import Sparkey.Index.Indexed

/-!
# Changing what a table stores

What `hash_put`, `hash_delete` and `hash_copy` do to a table that stores some
entries of the log, in terms of these entries.
-/

namespace Sparkey

open Program BlockStream RobinHood LastWrite

section Keys

variable [HashFunctions] {items : List (Item Entry)} {header header' : Hashheader}
  {hashtable hashtable' : List UInt8} {live live' : List (Item Entry)}

theorem storesKey_of_fresh {key : List UInt8} (h : ∀ it ∈ live, it.val.key ≠ key)
    (entry : Nat × Nat) : header.storesKey live key entry = false := by
  refine Bool.eq_false_iff.mpr fun hst => ?_
  obtain ⟨it, hit, -, hk⟩ := storesKey_iff.mp hst
  exact h it hit hk

theorem Indexed.of_slots {t : Nat → Option (Nat × Nat)} (hr : Recounted header header')
    (hsized : Sized header' hashtable') (hslots : header'.slots hashtable' = t)
    (hvalid : Valid header.hashCapacity header.home t)
    (hperm : (RobinHood.entries header.hashCapacity t).Perm (live'.map header.slotOf))
    (hnum : header'.numEntries = live'.length) (hdistinct : itemKind.Distinct live')
    (hmem : ∀ it ∈ live', it ∈ items ∧ it.val.type = .put) :
    Indexed items header' hashtable' live' := by
  refine ⟨hsized, ?_, ?_, hnum, hdistinct, hmem⟩
  · rw [hslots, hr.capacity, hr.home]
    exact hvalid
  · rw [hslots, hr.capacity, hr.slotOf]
    exact hperm

omit [HashFunctions] in
theorem u64_pred {n : Nat} (h : n + 1 < 2 ^ 64) : u64 (n + 1 + (2 ^ 64 - 1)) = n := by
  rw [show n + 1 + (2 ^ 64 - 1) = n + 2 ^ 64 by omega, u64, Nat.add_mod_right,
    Nat.mod_eq_of_lt (by omega)]

end Keys

variable [Compressors] [HashFunctions] {log : Logreader} {items rest : List (Item Entry)}
  {it item old : Item Entry} {live : List (Item Entry)} {s s' : Hashing} {n : Nat}

def Ready (log : Logreader) (item : Item Entry) (rest : List (Item Entry))
    (iter raIter : Logiter) : Prop :=
  (∃ key value, Active log iter item rest key value) ∧ Usable log raIter

/-! ### Comparing keys -/

omit [HashFunctions] in
/-- **The comparison with another entry** tells whether the keys are equal. -/
theorem run_sameKey (hl : log.Holds items) (hn : items[n]? = some it) (hput : it.val.type = .put)
    (hr : Ready log item rest s.iter s.raIter) :
    ∃ s', (sameKey log it.pos it.idx).run s
        = .ok (if it.val.key = item.val.key then some (it.val.key.length, it.val.value.length)
            else none) s' ∧ SameTable s s' ∧ Ready log item rest s'.iter s'.raIter := by
  obtain ⟨⟨key, value, hactive⟩, husable⟩ := hr
  obtain ⟨r₃, hfetch, hactive₃, -⟩ := run_fetch hl husable hn
  obtain ⟨_, r₁, hseek, hfetch⟩ := ok_bind hfetch
  obtain ⟨_, r₂, hskip, hnext⟩ := ok_bind hfetch
  have htype : ¬ r₃.type ≠ .put := not_not_intro (hactive₃.type.trans hput)
  rw [sameKey, run_bind_ok (run_onRaIter_ok hseek), run_bind_ok (run_onRaIter_ok hskip),
    run_bind_ok (run_onRaIter_ok hnext), run_get_bind]
  simp only [if_neg htype, hactive₃.keylen, hactive₃.valuelen, hactive.keylen]
  by_cases hlen : item.val.key.length = it.val.key.length
  · obtain ⟨iter', hreset, hactive'⟩ := run_logiterReset hl.toOpened hactive
    obtain ⟨res, iter₁, iter₂, key₁, key₂, hcmp, hres, h₁, h₂⟩ :=
      run_logiterKeycmp hl.toOpened hactive' hactive₃
    rw [if_pos hlen]
    rw [run_bind_ok (run_onIter_ok (s := { s with raIter := r₃ }) hreset),
      run_bind_ok (run_onIters_ok (s := { s with iter := iter', raIter := r₃ }) hcmp)]
    refine ⟨{ s with iter := iter₁, raIter := iter₂ }, ?_, ⟨rfl, rfl⟩, ⟨_, _, h₁⟩, h₂.usable⟩
    by_cases hkey : it.val.key = item.val.key
    · rw [if_pos (hres.mpr hkey.symm), if_pos hkey]
      rfl
    · rw [if_neg fun h0 => hkey (hres.mp h0).symm, if_neg hkey]
      rfl
  · have hkey : it.val.key ≠ item.val.key := fun h => hlen (congrArg List.length h).symm
    rw [if_neg hlen, if_neg hkey]
    exact ⟨{ s with raIter := r₃ }, rfl, ⟨rfl, rfl⟩, ⟨key, value, hactive⟩, hactive₃.usable⟩

def Hashheader.lensOf (header : Hashheader) (live : List (Item Entry)) (entry : Nat × Nat) :
    Nat × Nat :=
  match live.find? fun it => header.slotOf it = entry with
  | some it => (it.val.key.length, it.val.value.length)
  | none => (0, 0)

theorem lensOf_slotOf (hl : log.Holds items) (ha : Addressed s.hashHeader items)
    (hi : Indexed items s.hashHeader s.hashtable live) (hit : it ∈ live) :
    s.hashHeader.lensOf live (s.hashHeader.slotOf it)
      = (it.val.key.length, it.val.value.length) := by
  unfold Hashheader.lensOf
  cases hf : live.find? fun x => s.hashHeader.slotOf x = s.hashHeader.slotOf it with
  | none =>
    have := List.find?_eq_none.mp hf it hit
    simp at this
  | some x =>
    have hslot : s.hashHeader.slotOf x = s.hashHeader.slotOf it := by
      simpa using List.find?_some hf
    have hx := List.mem_of_find?_eq_some hf
    rw [slotOf_inj hl ha (hi.mem x hx).1 (hi.mem it hit).1 hslot]

/-- **The comparison of the probe loops** tells the entries of the key. -/
theorem compares (hl : log.Holds items) (ha : Addressed s.hashHeader items)
    (hi : Indexed items s.hashHeader s.hashtable live) (item : Item Entry)
    (rest : List (Item Entry)) :
    Compares (some log) s (s.hashHeader.slotOf item).1 (s.hashHeader.storesKey live item.val.key)
      (s.hashHeader.lensOf live) (Ready log item rest) := by
  intro slot hslot entry hentry s₁ hsame hr
  obtain ⟨it, hit, rfl⟩ := hi.mem_entries hslot hentry
  obtain ⟨hmem, hput⟩ := hi.mem it hit
  obtain ⟨n, hn⟩ := List.mem_iff_getElem?.mp hmem
  have hstores : s.hashHeader.storesKey live item.val.key (s.hashHeader.slotOf it) = true
      ↔ it.val.key = item.val.key := by
    rw [storesKey_iff]
    constructor
    · rintro ⟨x, hx, hslot, hkey⟩
      rwa [← slotOf_inj hl ha (hi.mem x hx).1 hmem hslot]
    · exact fun hkey => ⟨it, hit, rfl, hkey⟩
  simp only [collides, EStateM.run_bind, EStateM.run_get]
  by_cases hhash : (s.hashHeader.slotOf item).1 = (s.hashHeader.slotOf it).1
  · rw [if_pos ⟨trivial, hhash⟩, hsame.hashHeader]
    have hpos : s.hashHeader.positionOf (s.hashHeader.slotOf it).2 = it.pos := ha.positionOf it hmem
    have hidx : s.hashHeader.entryIndexOf (s.hashHeader.slotOf it).2 = it.idx :=
      ha.entryIndexOf it hmem
    obtain ⟨s₂, hrun, hsame₂, hr₂⟩ := run_sameKey hl hn hput hr
    rw [hpos, hidx, hrun]
    refine ⟨s₂, ?_, hsame.trans hsame₂, hr₂⟩
    rw [lensOf_slotOf hl ha hi hit]
    by_cases hkey : it.val.key = item.val.key
    · rw [if_pos hkey, if_pos (hstores.mpr hkey)]
    · rw [if_neg hkey, if_neg (mt hstores.mp hkey)]
  · -- entries of one key have one hash
    have hkey : it.val.key ≠ item.val.key := by
      rintro hkey
      refine hhash ?_
      show HashFunctions.hash _ _ _ = HashFunctions.hash _ _ _
      rw [hkey]
    rw [if_neg fun h => hhash h.2, if_neg (mt hstores.mp hkey), EStateM.run_pure]
    exact ⟨s₁, rfl, hsame, hr⟩

/-! ### The slot of a key -/

theorem Indexed.slot_of_key (hl : log.Holds items) (ha : Addressed s.hashHeader items)
    (hi : Indexed items s.hashHeader s.hashtable live) (hold : old ∈ live)
    {key : List UInt8} (hkey : old.val.key = key) :
    ∃ z < s.hashHeader.hashCapacity, s.slots z = some (s.hashHeader.slotOf old) ∧
      s.hashHeader.storesKey live key (s.hashHeader.slotOf old) = true ∧
      ∀ slot < s.hashHeader.hashCapacity, ∀ entry, s.slots slot = some entry →
        s.hashHeader.storesKey live key entry = true → slot = z := by
  obtain ⟨z, hz, hslot⟩ := hi.exists_slot hold
  refine ⟨z, hz, hslot, storesKey_iff.mpr ⟨old, hold, rfl, hkey⟩, ?_⟩
  intro slot hlt entry hentry hst
  obtain ⟨it, hit, rfl, hk⟩ := storesKey_iff.mp hst
  have := hi.distinct.eq_of_key hit hold (hk.trans hkey.symm)
  subst this
  exact hi.slot_unique hl ha hlt hz hentry hslot

/-! ### `hash_put` -/

structure Updated (items : List (Item Entry)) (s s' : Hashing) (live' : List (Item Entry))
    (garbage : Nat) : Prop where
  recounted : Recounted s.hashHeader s'.hashHeader
  indexed : Indexed items s'.hashHeader s'.hashtable live'
  garbageSize : s.hashHeader.garbageSize < 2 ^ 64 →
    s'.hashHeader.garbageSize = u64 (s.hashHeader.garbageSize + garbage)

section Put

variable {lg : Option Logreader} {G : Logiter → Logiter → Prop}

omit [HashFunctions] in
theorem run_hashPut_eq (entry : Nat × Nat) :
    (hashPut lg (entry.1 % s.hashHeader.hashCapacity) entry.1 entry.2).run s
      = (hashPutLoop lg (s.hashHeader.hashCapacity + 1) lg.isSome (s.hashHeader.home entry) 0
          entry.1 entry.2).run s := rfl

theorem putDone_hashPut (lg : Option Logreader) (ha : Addressed s.hashHeader items)
    (hi : Indexed items s.hashHeader s.hashtable live) (hmem : item ∈ items)
    (hgood : G s.iter s.raIter)
    (hcmp : lg.isSome = true → Compares lg s (s.hashHeader.slotOf item).1
      (s.hashHeader.storesKey live item.val.key) (s.hashHeader.lensOf live) G) :
    PutDone s.hashHeader (s.hashHeader.lensOf live) G
      (put s.hashHeader.hashCapacity s.hashHeader.home
        (s.hashHeader.storesKey live item.val.key) (s.hashHeader.hashCapacity + 1) lg.isSome
        (s.hashHeader.home (s.hashHeader.slotOf item)) 0 (s.hashHeader.slotOf item) s.slots)
      ((hashPut lg ((s.hashHeader.slotOf item).1 % s.hashHeader.hashCapacity)
        (s.hashHeader.slotOf item).1 (s.hashHeader.slotOf item).2).run s) := by
  rw [run_hashPut_eq]
  exact run_hashPutLoop _ _ _ _ _ _ hi.sized (Hashheader.home_lt hi.sized _) (HashFunctions.hash_lt _ _ _)
    (ha.lt item hmem) (ha.ne_zero item hmem) hgood hcmp

/-- **Storing an entry of a new key**, while there is room. -/
theorem run_hashPut_fresh (ha : Addressed s.hashHeader items)
    (hi : Indexed items s.hashHeader s.hashtable live) (hmem : item ∈ items)
    (hput : item.val.type = .put) (hfresh : ∀ it ∈ live, it.val.key ≠ item.val.key)
    (hroom : live.length < s.hashHeader.hashCapacity) (hgood : G s.iter s.raIter)
    (hcmp : lg.isSome = true → Compares lg s (s.hashHeader.slotOf item).1
      (s.hashHeader.storesKey live item.val.key) (s.hashHeader.lensOf live) G) :
    ∃ s', (hashPut lg ((s.hashHeader.slotOf item).1 % s.hashHeader.hashCapacity)
        (s.hashHeader.slotOf item).1 (s.hashHeader.slotOf item).2).run s = .ok () s' ∧
      G s'.iter s'.raIter ∧ Updated items s s' (item :: live) 0 := by
  have hdone := putDone_hashPut lg ha hi hmem hgood hcmp
  have hhome := Hashheader.home_lt hi.sized
  have hlen := hi.entries.length_eq
  rw [List.length_map] at hlen
  obtain ⟨z, hz, hfree⟩ := exists_free (t := s.slots) (c := s.hashHeader.hashCapacity)
    (by rw [hlen]; exact hroom)
  have hdist := dist_lt (hhome (s.hashHeader.slotOf item)) hz
  obtain ⟨t, hrun, hvalid, hperm⟩ := put_none
    (s.hashHeader.storesKey live item.val.key) hhome hz (s.hashHeader.hashCapacity + 1)
    lg.isSome _ 0 (s.hashHeader.slotOf item) s.slots hi.valid.rank_next
    (fun _ _ _ _ _ => storesKey_of_fresh hfresh _) hfree (hhome _) (carries_home _)
    dist_self.symm (by omega) (by omega)
  rw [hrun] at hdone
  obtain ⟨s', hrun', hgood', hslots', hsized', hheader⟩ := hdone
  have hrec : Recounted s.hashHeader s'.hashHeader := by
    rw [hheader]
    rfl
  refine ⟨s', hrun', hgood', hrec, .of_slots hrec hsized' hslots' hvalid ?_ ?_ ?_ ?_, ?_⟩
  · exact hperm.trans (hi.entries.cons _)
  · rw [hheader, List.length_cons, ← hi.numEntries]
    have := hi.sized.capacity_lt
    exact u64_of_lt (by rw [hi.numEntries]; omega)
  · exact List.nodup_cons.mpr ⟨fun h => by
      obtain ⟨x, hx, hk⟩ := List.mem_map.mp h
      exact hfresh x hx hk, hi.distinct⟩
  · intro it hit
    rcases List.mem_cons.mp hit with rfl | hit
    · exact ⟨hmem, hput⟩
    · exact hi.mem it hit
  · rw [hheader]
    exact fun hlt => (u64_of_lt hlt).symm

/-- **Storing an entry in the place of an older one** of the key. -/
theorem run_hashPut_old (hl : log.Holds items) (ha : Addressed s.hashHeader items)
    (hi : Indexed items s.hashHeader s.hashtable live) (hmem : item ∈ items)
    (hput : item.val.type = .put) (hold : old ∈ live) (hkey : old.val.key = item.val.key)
    (hr : Ready log item rest s.iter s.raIter) :
    ∃ s', (hashPut (some log) ((s.hashHeader.slotOf item).1 % s.hashHeader.hashCapacity)
        (s.hashHeader.slotOf item).1 (s.hashHeader.slotOf item).2).run s = .ok () s' ∧
      Ready log item rest s'.iter s'.raIter ∧
      Updated items s s' (item :: itemKind.others item.val.key live) old.val.size := by
  have hdone := putDone_hashPut (some log) ha hi hmem hr fun _ => compares hl ha hi item rest
  obtain ⟨z, hz, hslot, hst, huniq⟩ := hi.slot_of_key hl ha hold hkey
  have hhash : (s.hashHeader.slotOf item).1 = (s.hashHeader.slotOf old).1 := by
    show HashFunctions.hash _ _ _ = HashFunctions.hash _ _ _
    rw [hkey]
  have hhome : s.hashHeader.home (s.hashHeader.slotOf item)
      = s.hashHeader.home (s.hashHeader.slotOf old) := by
    rw [Hashheader.home, Hashheader.home, hhash]
  have hlt := Hashheader.home_lt hi.sized (s.hashHeader.slotOf old)
  have hdist := dist_lt hlt hz
  have hrun := put_some (a := s.hashHeader.slotOf item) hi.valid hlt hz hslot hst huniq
    (s.hashHeader.hashCapacity + 1) _ 0 hlt dist_self.symm (by omega) (by omega)
  rw [hhome, Option.isSome_some, hrun] at hdone
  obtain ⟨s', hrun', hr', hslots', hsized', hheader⟩ := hdone
  simp only [lensOf_slotOf hl ha hi hold] at hheader
  have hrec : Recounted s.hashHeader s'.hashHeader := by
    rw [hheader]
    rfl
  obtain ⟨-, hsplit⟩ := hi.distinct.split hold hkey
  have hperm := (entries_swap hz hslot (a := s.hashHeader.slotOf item)).trans
    ((hi.entries.trans (hsplit.map _)).cons _)
  refine ⟨s', hrun', hr', hrec, .of_slots hrec hsized' hslots' (hi.valid.replace hslot hhome)
    (hperm.trans (List.Perm.swap _ _ _)).cons_inv ?_ (hi.distinct.cons_others item) ?_, ?_⟩
  · have hlen := hsplit.length_eq
    rw [List.length_cons] at hlen ⊢
    rw [hheader, ← hlen, ← hi.numEntries]
    rfl
  · intro it hit
    rcases List.mem_cons.mp hit with rfl | hit
    · exact ⟨hmem, hput⟩
    · exact hi.mem it (mem_others.mp hit).1
  · rw [hheader, ← size_of_put (hi.mem old hold).2]
    exact fun _ => rfl

/-- **`hash_put`** writes to the finite map the table is. -/
theorem run_hashPut (hl : log.Holds items) (ha : Addressed s.hashHeader items)
    (hi : Indexed items s.hashHeader s.hashtable live) (hmem : item ∈ items)
    (hput : item.val.type = .put) (hr : Ready log item rest s.iter s.raIter)
    (hroom : (itemKind.others item.val.key live).length < s.hashHeader.hashCapacity) :
    ∃ s', (hashPut (some log) ((s.hashHeader.slotOf item).1 % s.hashHeader.hashCapacity)
        (s.hashHeader.slotOf item).1 (s.hashHeader.slotOf item).2).run s = .ok () s' ∧
      Ready log item rest s'.iter s'.raIter ∧
      Updated items s s' (item :: itemKind.others item.val.key live)
        ((itemKind.those item.val.key live).map itemKind.size).sum := by
  by_cases hex : ∃ old ∈ live, old.val.key = item.val.key
  · obtain ⟨old, hold, hkey⟩ := hex
    rw [(hi.distinct.split hold hkey).1]
    exact run_hashPut_old hl ha hi hmem hput hold hkey hr
  · have hfresh : ∀ it ∈ live, it.val.key ≠ item.val.key := fun it hit hk => hex ⟨it, hit, hk⟩
    obtain ⟨hthose, hothers⟩ := others_eq_self (K := itemKind) hfresh
    rw [hothers] at hroom ⊢
    rw [hthose]
    exact run_hashPut_fresh ha hi hmem hput hfresh
      hroom hr fun _ => compares hl ha hi item rest

/-- **Where there is no room `hash_put` goes round for ever**: no number of rounds is enough. -/
theorem run_hashPutLoop_full (hl : log.Holds items) (ha : Addressed s.hashHeader items)
    (hi : Indexed items s.hashHeader s.hashtable live) (hmem : item ∈ items)
    (hr : Ready log item rest s.iter s.raIter)
    (hfull : s.hashHeader.hashCapacity ≤ (itemKind.others item.val.key live).length) (fuel : Nat) :
    ∃ s', (hashPutLoop (some log) fuel true (s.hashHeader.home (s.hashHeader.slotOf item)) 0
      (s.hashHeader.slotOf item).1 (s.hashHeader.slotOf item).2).run s = .error .stuck s' := by
  have hlen := hi.entries.length_eq
  rw [List.length_map] at hlen
  have hfresh : ∀ it ∈ live, it.val.key ≠ item.val.key := by
    intro it hit hk
    have hsplit := (hi.distinct.split hit hk).2.length_eq
    rw [List.length_cons] at hsplit
    have := hi.length_le
    omega
  rw [(others_eq_self (K := itemKind) hfresh).2] at hfull
  have hdone := run_hashPutLoop fuel true _ 0 _ _ hi.sized
    (Hashheader.home_lt hi.sized (s.hashHeader.slotOf item)) (HashFunctions.hash_lt _ _ _)
    (ha.lt item hmem) (ha.ne_zero item hmem) hr fun _ => compares hl ha hi item rest
  have hrun := put_full s.hashHeader.home
    (s.hashHeader.storesKey live item.val.key) fuel true _ 0
    (s.hashHeader.slotOf item) s.slots (Hashheader.home_lt hi.sized (s.hashHeader.slotOf item))
    (fun slot hslot => ne_none_of_full (by rw [hlen]; exact hfull) hslot)
    (fun _ _ _ _ _ => storesKey_of_fresh hfresh _)
  change PutDone _ _ _ (put _ _ _ _ _ _ _ (s.hashHeader.slotOf item) _) _ at hdone
  rw [hrun] at hdone
  exact hdone

/-- **Storing an entry without a look at the log**, as `hash_copy` does. -/
theorem run_hashPut_copy (ha : Addressed s.hashHeader items)
    (hi : Indexed items s.hashHeader s.hashtable live) (hmem : item ∈ items)
    (hput : item.val.type = .put) (hfresh : ∀ it ∈ live, it.val.key ≠ item.val.key)
    (hroom : live.length < s.hashHeader.hashCapacity) :
    ∃ s', (hashPut none ((s.hashHeader.slotOf item).1 % s.hashHeader.hashCapacity)
        (s.hashHeader.slotOf item).1 (s.hashHeader.slotOf item).2).run s = .ok () s' ∧
      (s'.iter = s.iter ∧ s'.raIter = s.raIter) ∧ Updated items s s' (item :: live) 0 :=
  run_hashPut_fresh (G := fun iter raIter => iter = s.iter ∧ raIter = s.raIter) ha hi
    hmem hput hfresh hroom ⟨rfl, rfl⟩ nofun

theorem run_hashPut_copy_full (ha : Addressed s.hashHeader items)
    (hi : Indexed items s.hashHeader s.hashtable live) (hmem : item ∈ items)
    (hfresh : ∀ it ∈ live, it.val.key ≠ item.val.key)
    (hfull : s.hashHeader.hashCapacity ≤ live.length) :
    ∃ s', (hashPut none ((s.hashHeader.slotOf item).1 % s.hashHeader.hashCapacity)
        (s.hashHeader.slotOf item).1 (s.hashHeader.slotOf item).2).run s = .error .stuck s' := by
  have hlen := hi.entries.length_eq
  rw [List.length_map] at hlen
  have hdone := putDone_hashPut none (G := fun _ _ => True) ha hi hmem trivial nofun
  have hrun := put_full s.hashHeader.home (s.hashHeader.storesKey live item.val.key)
    (s.hashHeader.hashCapacity + 1) false _ 0 (s.hashHeader.slotOf item) s.slots
    (Hashheader.home_lt hi.sized (s.hashHeader.slotOf item))
    (fun slot hslot => ne_none_of_full (by rw [hlen]; exact hfull) hslot)
    (fun _ _ _ _ _ => storesKey_of_fresh hfresh _)
  rw [Option.isSome_none, hrun] at hdone
  exact hdone

end Put

/-! ### `hash_delete` -/

theorem Indexed.inRange (hl : log.Holds items) (ha : Addressed s.hashHeader items)
    (hi : Indexed items s.hashHeader s.hashtable live) : InRange log s := by
  intro slot hslot entry hentry
  obtain ⟨it, hit, rfl⟩ := hi.mem_entries hslot hentry
  have hmem := (hi.mem it hit).1
  obtain ⟨n, hn⟩ := List.mem_iff_getElem?.mp hmem
  have hpos : s.hashHeader.positionOf (s.hashHeader.slotOf it).2 = it.pos := ha.positionOf it hmem
  rw [hpos, hl.headerSize]
  exact ⟨hl.le_pos hmem, hl.pos_lt hn⟩

/-- **`hash_delete`** erases from the finite map the table is. -/
theorem run_hashDelete (hl : log.Holds items) (ha : Addressed s.hashHeader items)
    (hi : Indexed items s.hashHeader s.hashtable live)
    (hr : Ready log item rest s.iter s.raIter) :
    ∃ s', (hashDelete log ((s.hashHeader.slotOf item).1 % s.hashHeader.hashCapacity)
        (s.hashHeader.slotOf item).1).run s = .ok () s' ∧ Ready log item rest s'.iter s'.raIter ∧
      Updated items s s' (itemKind.others item.val.key live)
        ((itemKind.those item.val.key live).map itemKind.size).sum := by
  have hhome := Hashheader.home_lt hi.sized
  have hdone := run_hashDeleteLoop (s.hashHeader.hashCapacity + 1) _ 0 _ hi.sized
    (hhome (s.hashHeader.slotOf item)) (hi.inRange hl ha) hr (compares hl ha hi item rest)
  have hstart : (hashDelete log ((s.hashHeader.slotOf item).1 % s.hashHeader.hashCapacity)
      (s.hashHeader.slotOf item).1).run s = (hashDeleteLoop log (s.hashHeader.hashCapacity + 1)
        (s.hashHeader.home (s.hashHeader.slotOf item)) 0 (s.hashHeader.slotOf item).1).run s := rfl
  rw [hstart]
  by_cases hex : ∃ old ∈ live, old.val.key = item.val.key
  · obtain ⟨old, hold, hkey⟩ := hex
    obtain ⟨z, hz, hslot, hst, huniq⟩ := hi.slot_of_key hl ha hold hkey
    have hhash : s.hashHeader.home (s.hashHeader.slotOf item)
        = s.hashHeader.home (s.hashHeader.slotOf old) := by
      show HashFunctions.hash _ _ _ % _ = HashFunctions.hash _ _ _ % _
      rw [hkey]
    have hdist := dist_lt (hhome (s.hashHeader.slotOf old)) hz
    have hfind := find_some hi.valid (hhome _) hz hslot hst huniq (s.hashHeader.hashCapacity + 1) _ 0
      (hhome (s.hashHeader.slotOf old)) dist_self.symm (by omega) (by omega)
    rw [hhash, hfind] at hdone
    obtain ⟨-, s₁, entry, hsame, hr₁, hentry, hrun⟩ := hdone
    obtain rfl : entry = s.hashHeader.slotOf old := by
      rw [hslot] at hentry
      exact (Option.some.inj hentry).symm
    rw [hhash, hrun]
    -- the shift
    obtain ⟨t, hshift, hvalid, hperm⟩ := shift_spec hi.valid hhome hz hslot
    have hshiftDone := run_shiftLoop (s.hashHeader.hashCapacity + 1) z (hsame.sized hi.sized)
      (by rw [hsame.hashHeader]; exact hz)
    rw [hsame.slots, hsame.hashHeader, hshift] at hshiftDone
    obtain ⟨s₂, hrun₂, hslots₂, hsized₂, hheader₂, hiter₂, hraIter₂⟩ := hshiftDone
    rw [hsame.hashHeader] at hheader₂
    rw [run_bind_ok hrun₂, run_modifyHeader, lensOf_slotOf hl ha hi hold]
    obtain ⟨hthose, hsplit⟩ := hi.distinct.split hold hkey
    have hlen := hsplit.length_eq
    rw [List.length_cons] at hlen
    have hrec : Recounted s.hashHeader (s₂.hashHeader.deletedEntry old.val.key.length
        old.val.value.length) := by
      rw [hheader₂]
      rfl
    refine ⟨_, rfl, ?_, hrec, .of_slots hrec ?_ ?_ hvalid ?_ ?_ (hi.distinct.others _) ?_, ?_⟩
    · show Ready log item rest s₂.iter s₂.raIter
      rw [hiter₂, hraIter₂]
      exact hr₁
    · exact ⟨hsized₂.1, hsized₂.2, hsized₂.3, hsized₂.4, hsized₂.5, hsized₂.6⟩
    · exact (Hashheader.slots_congr rfl rfl).trans hslots₂
    · have := hperm.symm.trans (hi.entries.trans (hsplit.map _))
      exact this.cons_inv
    · show u64 (s₂.hashHeader.numEntries + (2 ^ 64 - 1)) = _
      have hle := hi.length_le
      have hcap := hi.sized.capacity_lt
      rw [hheader₂, hi.numEntries, hlen]
      exact u64_pred (by omega)
    · intro it hit
      exact hi.mem it (mem_others.mp hit).1
    · intro _
      show u64 (s₂.hashHeader.garbageSize + putSize _ _) = _
      rw [hheader₂, size_of_put (hi.mem old hold).2, hthose]
      rfl
  · have hfresh : ∀ it ∈ live, it.val.key ≠ item.val.key := fun it hit hk => hex ⟨it, hit, hk⟩
    obtain ⟨hthose, hothers⟩ := others_eq_self (K := itemKind) hfresh
    have hfind := find_none (t := s.slots) (s.hashHeader.storesKey live item.val.key) hhome
      (fun _ _ _ _ => storesKey_of_fresh hfresh _) (s.hashHeader.hashCapacity + 1)
      (s.hashHeader.home (s.hashHeader.slotOf item)) 0 (hhome _) (Nat.zero_le _) (by omega)
    rw [hfind] at hdone
    obtain ⟨s', hrun', hsame, hr'⟩ := hdone
    have hrec : Recounted s.hashHeader s'.hashHeader := by rw [hsame.hashHeader]; rfl
    refine ⟨s', hrun', hr', hrec, ?_, ?_⟩
    · rw [hothers, hsame.hashHeader, hsame.hashtable]
      exact hi
    · rw [hthose, hsame.hashHeader]
      exact fun hlt => (u64_of_lt hlt).symm

end Sparkey
