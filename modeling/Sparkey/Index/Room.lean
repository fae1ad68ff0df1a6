import Sparkey.Index.Promises

/-!
# Room in the table

`hash_put` goes round the table until it finds a free slot, so a run ends only if the
table has one whenever it is needed.  A table for copied entries has room for them and
for all new puts.  But a run that changes the hash size goes through the whole log, in
a table that is made for what was live, and for the new puts: entries that have been
deleted since need room, too (`returns_iff_of_indexing`).
-/

namespace Sparkey

open Program BlockStream RobinHood LastWrite

def startHeader (logHeader : Logheader) (old : Option Hashheader) (hashSize : Nat) : Hashheader :=
  newHashheader logHeader old 0 hashSize

def tableSize (logHeader : Logheader) (old : Option Hashheader) (hashSize : Nat) : Nat :=
  (startHeader logHeader old hashSize).slotSize * (startHeader logHeader old hashSize).hashCapacity

def peakKeys (es : List Entry) : Nat := peakLive entryKind ⟨[], 0⟩ es

/-- **Room for a run**: the size of the table is a 64-bit number, and where there is an index of
another hash size, the table has a slot for every key that is live at some time. -/
structure HasRoom (logHeader : Logheader) (old : Option Hashheader) (hashSize : Nat)
    (es : List Entry) : Prop where
  size_lt : tableSize logHeader old hashSize < 2 ^ 64
  peak_le : ∀ header, old = some header →
    header.hashSize ≠ (startHeader logHeader old hashSize).hashSize →
    tableSize logHeader old hashSize < 2 ^ 63 →
    peakKeys es ≤ (startHeader logHeader old hashSize).hashCapacity

variable [Compressors] [HashFunctions] {t : CompressionType} {n : Nat} {calls : List Call}
  {w w' : Logwriter} {logFile index : Option (List UInt8)} {env : HashEnv} {hashSize : Nat}
  {log log₀ : Logreader} {items more : List (Item Entry)} {s : Hashing} {old : Hashheader}
  {hashtable : List UInt8}

omit [Compressors] [HashFunctions] in
theorem peakLive_items (items : List (Item Entry)) :
    peakLive itemKind ⟨[], 0⟩ items = peakKeys (items.map Item.val) := by
  have hmap : peakLive entryKind ⟨[], 0⟩ (items.map Item.val) = peakLive itemKind ⟨[], 0⟩ items :=
    peakLive_map Item.val (fun _ => rfl) (fun _ => rfl) items ⟨[], 0⟩ 0
  exact hmap.symm

omit [Compressors] [HashFunctions] in
theorem peakKeys_le (es : List Entry) : peakKeys es ≤ countPuts es := by
  have := peakLive_le (K := entryKind) es ⟨[], 0⟩
  have h0 : (⟨[], 0⟩ : Contents Entry).live.length = 0 := rfl
  have hputs : es.countP entryKind.isPut = countPuts es := rfl
  rw [h0, Nat.zero_add, hputs] at this
  exact this

omit [Compressors] [HashFunctions] in
theorem Prepared.start {logHeader : Logheader} (hp : Prepared env logHeader log index hashSize s) :
    s.hashHeader.hashCapacity
        = (startHeader logHeader (oldHeader? logHeader index) hashSize).hashCapacity ∧
      s.hashHeader.hashSize = (startHeader logHeader (oldHeader? logHeader index) hashSize).hashSize ∧
      s.hashHeader.slotSize * s.hashHeader.hashCapacity
        = tableSize logHeader (oldHeader? logHeader index) hashSize := by
  rw [hp.header]
  exact ⟨rfl, rfl, rfl⟩

/-- **A run through the whole log** ends if and only if its table has room. -/
theorem returns_buildTable_none (hl : Logged log items)
    (hend : log.header.dataEnd < 2 ^ (64 - intLog2 log.header.maxEntriesPerBlock))
    (hp : Prepared env log.header log index hashSize s)
    (hlt : s.hashHeader.slotSize * s.hashHeader.hashCapacity < 2 ^ 63) :
    Returns ((buildTable env index log none).run s) ↔
      peakLive itemKind ⟨[], 0⟩ items ≤ s.hashHeader.hashCapacity := by
  have hz := hp.zeroTable hl hend hlt
  obtain ⟨hb, hu⟩ := hp.before hl.toHolds
  constructor
  · intro hreturns
    by_contra hfull
    obtain ⟨s', hrun⟩ := run_buildTable_full env index hl hz hb hu
      (Nat.lt_of_not_le hfull)
    rw [hrun] at hreturns
    exact hreturns
  · intro hroom
    obtain ⟨s', hrun, -⟩ := run_buildTable_none env index hl hz hb hu hroom
    rw [hrun]
    trivial

/-- **When a run ends**, if it does where it copies a table, and where there is no old one. -/
theorem returns_hashWrite_iff (hl : Logged log items)
    (hend : log.header.dataEnd < 2 ^ (64 - intLog2 log.header.maxEntriesPerBlock))
    (hopen : logreaderOpen logFile = .ok log) (hsize : hashSize = 0 ∨ hashSize = 4 ∨ hashSize = 8)
    (hcopy : ∀ old s, oldHeader? log.header index = some old →
      Prepared env log.header log index hashSize s → old.hashSize = s.hashHeader.hashSize →
      old.dataEnd ≠ log.header.dataEnd →
      s.hashHeader.slotSize * s.hashHeader.hashCapacity < 2 ^ 63 →
      Returns ((buildTable env index log (some old)).run s))
    (hfresh : oldHeader? log.header index = none →
      peakKeys (items.map Item.val) ≤ (startHeader log.header none hashSize).hashCapacity) :
    Returns ((hashWrite env logFile hashSize).run index) ↔
      oldHeader? log.header index = none ∧ env.rand32 = none ∨
        HasRoom log.header (oldHeader? log.header index) hashSize (items.map Item.val) := by
  have hload := loadLogheader_of_open hopen
  rw [hashWrite]
  by_cases hno : oldHeader? log.header index = none ∧ env.rand32 = none
  · rw [run_hashWriteOn_rand hload hopen hl.toOpened hno.1 hno.2]
    exact iff_of_true trivial (Or.inl hno)
  rw [or_iff_right hno]
  obtain ⟨s, hp, hrun⟩ := run_hashWriteOn hload hopen hl.toOpened hsize fun hold hrand =>
    hno ⟨hold, hrand⟩
  obtain ⟨hcap, hhash, htable⟩ := hp.start
  rw [hrun, htable]
  by_cases h64 : 2 ^ 64 ≤ tableSize log.header (oldHeader? log.header index) hashSize
  · -- the size does not fit its word
    rw [if_pos h64]
    exact iff_of_false id fun hroom => Nat.not_le_of_lt hroom.size_lt h64
  by_cases h63 : 2 ^ 63 ≤ tableSize log.header (oldHeader? log.header index) hashSize
  · -- the system has no object of this size
    rw [if_neg h64, if_pos h63]
    exact iff_of_true trivial ⟨Nat.lt_of_not_le h64, fun _ _ _ h => absurd h (Nat.not_lt_of_le h63)⟩
  rw [if_neg h64, if_neg h63]
  have hlt : s.hashHeader.slotSize * s.hashHeader.hashCapacity < 2 ^ 63 := by omega
  have hbuilt := returns_buildTable_none hl hend hp hlt
  rw [peakLive_items, hcap] at hbuilt
  have hsized := Nat.lt_of_not_le h64
  cases hold : oldHeader? log.header index with
  | none =>
    have hcopied : s.copied log.header index = none := by
      rw [Hashing.copied, hold]
      rfl
    rw [hold] at hbuilt hsized
    rw [hcopied, Option.map_none, if_neg (Option.some_ne_none _).symm]
    refine iff_of_true (returns_writeTable.mpr (hbuilt.mpr (hfresh hold))) ⟨hsized, ?_⟩
    intro old h
    cases h
  | some old =>
    rw [hold] at hbuilt hsized hhash
    by_cases hsame : old.hashSize = s.hashHeader.hashSize
    · -- the old table is copied
      have hcopied : s.copied log.header index = some old := by
        rw [Hashing.copied, hold, copiedHeader, Option.filter_some, if_pos (decide_eq_true hsame)]
      have hroom : HasRoom log.header (some old) hashSize (items.map Item.val) := by
        refine ⟨hsized, fun header hheader hne _ => ?_⟩
        cases hheader
        exact absurd (hsame.trans hhash) hne
      refine iff_of_true ?_ hroom
      rw [hcopied, Option.map_some]
      by_cases hdone : some old.dataEnd = some log.header.dataEnd
      · rw [if_pos hdone]
        trivial
      · rw [if_neg hdone]
        exact returns_writeTable.mpr (hcopy old s hold hp hsame (fun h => hdone (congrArg some h)) hlt)
    · -- the whole log is gone through
      have hcopied : s.copied log.header index = none := by
        rw [Hashing.copied, hold, copiedHeader, Option.filter_some, if_neg (by simpa using hsame)]
      rw [hcopied, Option.map_none, if_neg (Option.some_ne_none _).symm]
      refine (returns_writeTable.trans hbuilt).trans ⟨fun hpeak => ⟨hsized, fun _ _ _ _ => hpeak⟩,
        fun hroom => hroom.peak_le old rfl (fun h => hsame (h.trans hhash.symm)) ?_⟩
      rw [hold] at h63
      exact Nat.lt_of_not_le h63

theorem returns_buildTable_some (hg : Grown log₀ log items more) (hi : IndexOf log₀ items old hashtable)
    (hputs : countPuts ((items ++ more).map Item.val) < 2 ^ 64)
    (hwhole : WholeReads env log.header (some old))
    (hp : Prepared env log.header log (some (old.bytes ++ hashtable)) hashSize s)
    (hold : oldHeader? log.header (some (old.bytes ++ hashtable)) = some old)
    (hsize : old.hashSize = s.hashHeader.hashSize)
    (hne : old.dataEnd ≠ log.header.dataEnd)
    (hlt : s.hashHeader.slotSize * s.hashHeader.hashCapacity < 2 ^ 63) :
    Returns ((buildTable env (some (old.bytes ++ hashtable)) log (some old)).run s) := by
  cases hopens : env.openFails with
  | some code =>
    have hfill : (fillHash env (old.bytes ++ hashtable) old).run s = .error (.rc code) s := by
      rw [fillHash, hopens]
      rfl
    rw [run_buildTable_some_eq, run_bind_error hfill]
    trivial
  | none =>
    obtain ⟨s', _, _, hrun, -⟩ := run_buildTable_some
      (hp.copying hg hi hwhole.dataEnd_lt hold hsize hlt hne hopens
        (hwhole.reads.resolve_left (Option.some_ne_none _)))
      (peakLive_le_hashCapacity hg hi hputs hp hold)
    rw [hrun]
    trivial

/-- **When a run ends** that finds no index, or one of an earlier state of the log. -/
theorem Follows.returns_iff {known : Known} (h : Follows t n known calls w index)
    (hfit : ∀ e ∈ entriesOf calls, HeadFits (.of t n) e) (hz : (Setting.of t n).Lossless)
    (hputs : countPuts (entriesOf calls) < 2 ^ 64) (hflush : logwriterFlush.run w = .ok () w')
    (hopen : logreaderOpen (some w'.fd.data) = .ok log)
    (hwhole : WholeReads env log.header (oldHeader? log.header index))
    (hsize : hashSize = 0 ∨ hashSize = 4 ∨ hashSize = 8) :
    Returns ((hashWrite env (some w'.fd.data) hashSize).run index) ↔
      oldHeader? log.header index = none ∧ env.rand32 = none ∨
        HasRoom log.header (oldHeader? log.header index) hashSize (entriesOf calls) := by
  have hfresh : ∀ {items : List (Item Entry)}, Logged log items →
      items.map Item.val = entriesOf calls →
      peakKeys (items.map Item.val) ≤ (startHeader log.header none hashSize).hashCapacity := by
    intro items hl hvals
    refine Nat.le_trans (peakKeys_le _) (Nat.le_trans ?_ (le_hashCapacity _))
    rw [expectedEntries, hl.counts.numPuts, hvals, u64_of_lt hputs]
  cases h with
  | absent hw =>
    obtain ⟨items, hp⟩ := published_of_flush hw hfit hz hflush hopen
    have hl := hp.logged hz
    have hvals := hp.vals
    rw [entriesOf_flush] at hvals
    rw [← hvals]
    refine returns_hashWrite_iff hl hwhole.dataEnd_lt hopen hsize ?_ fun _ => hfresh hl hvals
    intro old s hold
    cases hold
  | present hp hgo hi =>
    rename_i calls more w₀ log₀ items old hashtable _
    have hentries := entriesOf_append_calls calls more
    obtain ⟨new, hgrown, hp'⟩ := hp.grown hgo hflush hopen
      (fun e he => hfit e (hentries ▸ List.mem_append_right _ he)) hz
    have hl := hp'.logged hz
    have hvals := hp'.vals
    rw [entriesOf_flush] at hvals
    rw [← hvals] at hputs ⊢
    have hold := hi.oldHeader?_eq hgrown
      (Nat.lt_of_le_of_lt (countPuts_le_append items new) hputs)
    refine returns_hashWrite_iff hl hwhole.dataEnd_lt hopen hsize ?_ fun _ => hfresh hl hvals
    intro old' s hold' hprepared hsame hne hlt
    cases hold.symm.trans hold'
    rw [hold] at hwhole
    exact returns_buildTable_some hgrown hi hputs hwhole hprepared hold hsame hne hlt

/-- **When a run ends**, behind any history of orderly runs: the table needs room, which matters
only where the run changes the hash size. -/
theorem returns_iff_of_indexing (h : Indexing t n orderlyRuns calls w index)
    (hfit : ∀ e ∈ entriesOf calls, HeadFits (.of t n) e) (hz : (Setting.of t n).Lossless)
    (hputs : countPuts (entriesOf calls) < 2 ^ 64) (hflush : logwriterFlush.run w = .ok () w')
    (hopen : logreaderOpen (some w'.fd.data) = .ok log) (horderly : Orderly env log.header)
    (hsize : hashSize = 0 ∨ hashSize = 4 ∨ hashSize = 8) :
    Returns ((hashWrite env (some w'.fd.data) hashSize).run index) ↔
      oldHeader? log.header index = none ∧ env.rand32 = none ∨
        HasRoom log.header (oldHeader? log.header index) hashSize (entriesOf calls) :=
  (h.follows (keeps_true orderlyRuns) (fun h => h.wholeReads _) hfit hz).returns_iff hfit hz hputs hflush
    hopen (horderly.wholeReads _) hsize

omit [Compressors] [HashFunctions] in
theorem returns_iff_of_indexing_sample :
    letI := literalCompressors
    letI := lengthHash
    ∃ w w' index, Indexing .none 0 orderlyRuns (fourPuts ++ [.flush] ++ fifthPut) w index ∧
      logwriterFlush.run w = .ok () w' ∧
      Returns ((hashWrite calmEnv (some w'.fd.data) 8).run index) := by
  let := literalCompressors
  let := lengthHash
  have hfacts : (twoRuns calmEnv calmEnv fourPuts fifthPut 4 4).map (fun r =>
      (decide r.log.header.Small, decide r.log'.header.Small,
        decide (tableSize r.log'.header (oldHeader? r.log'.header r.index) 8 < 2 ^ 64),
        decide (5 ≤ (startHeader r.log'.header (oldHeader? r.log'.header r.index) 8).hashCapacity)))
        = some (true, true, true, true) := by
    decide +kernel
  obtain ⟨r, hr, hfacts⟩ := Option.map_eq_some_iff.mp hfacts
  simp only [Prod.mk.injEq, decide_eq_true_eq] at hfacts
  obtain ⟨hsmall, hsmall', hsize, hcap⟩ := hfacts
  obtain ⟨w, w', hran⟩ := exists_of_twoRuns hr
  obtain ⟨w₁, hindexing, hflush⟩ := hran.indexing orderlyRuns (hsmall.orderly rfl)
  refine ⟨w₁, w', _, hindexing, hflush, (returns_iff_of_indexing hindexing (fun _ _ => nofun) nofun
    (by decide) hflush hran.opened' (hsmall'.orderly rfl) (by decide)).mpr (Or.inr ⟨hsize, ?_⟩)⟩
  intro header _ _ _
  exact Nat.le_trans (by decide) hcap

def putAndDelete : List Call :=
  [.add (.put (.of [1]) (.of [])), .add (.put (.of [2]) (.of [])), .add (.delete (.of [1])),
    .add (.delete (.of [2]))]

omit [Compressors] [HashFunctions] in
/-- A run that changes the hash size of an index without entries makes a table of one slot, and
goes round it for ever with the second put. -/
theorem stuck_of_putAndDelete :
    letI := literalCompressors
    letI := lengthHash
    ∃ w w' index index', Indexing .none 0 orderlyRuns (putAndDelete ++ [.flush] ++ []) w index ∧
      logwriterFlush.run w = .ok () w' ∧
      (hashWrite calmEnv (some w'.fd.data) 8).run index = .error .stuck index' := by
  let := literalCompressors
  let := lengthHash
  have hfacts : (twoRuns calmEnv calmEnv putAndDelete [] 4 8).map (fun r =>
      (decide r.log.header.Small, isStuck r.result)) = some (true, true) := by
    decide +kernel
  obtain ⟨r, hr, hfacts⟩ := Option.map_eq_some_iff.mp hfacts
  simp only [Prod.mk.injEq, decide_eq_true_eq] at hfacts
  obtain ⟨hsmall, hstuck⟩ := hfacts
  obtain ⟨w, w', hran⟩ := exists_of_twoRuns hr
  obtain ⟨w₁, hindexing, hflush⟩ := hran.indexing orderlyRuns (hsmall.orderly rfl)
  obtain ⟨index', hresult⟩ := exists_of_isStuck hstuck
  exact ⟨w₁, w', _, index', hindexing, hflush, hran.result.trans hresult⟩

end Sparkey
