import Sparkey.Index.History
import Sparkey.Promises

/-!
# What the header of an index promises

The loader takes an index to be corrupt when it counts more entries than the log has
puts.  It never does after orderly runs (`hashOpen_of_indexing`).  But `read_fully`
sends every part of a short read to the start of its buffer, and what is then taken
for entries are the bytes of memory that was never written to.

The size of the garbage is that of all entries that are not live, until a run changes
the hash size: it goes through the whole log, and adds to what the old index has
counted already (`garbageSize_of_indexing`).
-/

namespace Sparkey

open Program BlockStream RobinHood LastWrite

variable [Compressors] [HashFunctions] {t : CompressionType} {n : Nat} {calls : List Call}
  {w w' : Logwriter} {index index' : Option (List UInt8)} {env : HashEnv} {hashSize : Nat}
  {log : Logreader}

/-! ### The checks of the loader -/

omit [Compressors] [HashFunctions] in
def orderlyRuns : Rule := fun env logHeader _ _ => Orderly env logHeader

omit [Compressors] [HashFunctions] in
theorem keeps_true (rule : Rule) : rule.Keeps fun _ _ => True := ⟨fun _ => trivial, fun _ _ _ => trivial⟩

/-- **What a run writes is accepted**, behind orderly runs and if it is orderly: the loader gives
back the header, and the index opens with the log. -/
theorem hashOpen_of_indexing (h : Indexing t n orderlyRuns calls w index)
    (hfit : ∀ e ∈ entriesOf calls, HeadFits (.of t n) e) (hz : (Setting.of t n).Lossless)
    (hputs : countPuts (entriesOf calls) < 2 ^ 64) (hflush : logwriterFlush.run w = .ok () w')
    (hopen : logreaderOpen (some w'.fd.data) = .ok log) (horderly : Orderly env log.header)
    (hrun : (hashWrite env (some w'.fd.data) hashSize).run index = .ok () index') :
    ∃ header hashtable reader, index' = some (header.bytes ++ hashtable) ∧
      loadHashheader index' = .ok header ∧ header.numEntries ≤ header.numPuts ∧
      header.maxDisplacement ≤ header.numEntries ∧ header.hashCollisions ≤ header.numEntries ∧
      hashOpen index' (some w'.fd.data) = .ok reader := by
  have hkeeps := keeps_true orderlyRuns
  obtain ⟨items, header, hashtable, hp, rfl, hi, -⟩ := (h.follows hkeeps (fun h => h.wholeReads _) hfit
    hz).run hkeeps hfit hz hflush hopen (horderly.wholeReads _) horderly hrun
  have hl := hp.logged hz
  have hvals := hp.vals
  rw [entriesOf_flush] at hvals
  rw [← hvals] at hputs
  obtain ⟨reader, hreader, -⟩ := hi.hashOpen (hi.load hl hputs) (.refl _) (Nat.le_refl _) hopen
  obtain ⟨-, hputs', hmax, hcoll⟩ := hi.consistent hl hputs
  exact ⟨header, hashtable, reader, rfl, hi.load hl hputs, hputs', hmax, hcoll, hreader⟩

def fourPuts : List Call :=
  [.add (.put (.of [1]) (.of [])), .add (.put (.of [2]) (.of [])), .add (.put (.of [3]) (.of [])),
    .add (.put (.of [4]) (.of []))]

def fifthPut : List Call := [.add (.put (.of [5]) (.of []))]

omit [Compressors] [HashFunctions] in
theorem hashOpen_of_indexing_sample :
    letI := literalCompressors
    letI := lengthHash
    ∃ w w' index index' header hashtable reader, Indexing .none 0 orderlyRuns
        (fourPuts ++ [.flush] ++ fifthPut) w index ∧ logwriterFlush.run w = .ok () w' ∧
      index' = some (header.bytes ++ hashtable) ∧ loadHashheader index' = .ok header ∧
      header.numEntries ≤ header.numPuts ∧ header.maxDisplacement ≤ header.numEntries ∧
      header.hashCollisions ≤ header.numEntries ∧
      hashOpen index' (some w'.fd.data) = .ok reader := by
  let := literalCompressors
  let := lengthHash
  have hfacts : (twoRuns calmEnv calmEnv fourPuts fifthPut 4 4).map (fun r =>
      (decide r.log.header.Small, decide r.log'.header.Small, (success? r.result).isSome))
        = some (true, true, true) := by
    decide +kernel
  obtain ⟨r, hr, hfacts⟩ := Option.map_eq_some_iff.mp hfacts
  simp only [Prod.mk.injEq, decide_eq_true_eq] at hfacts
  obtain ⟨hsmall, hsmall', hok⟩ := hfacts
  obtain ⟨w, w', hran⟩ := exists_of_twoRuns hr
  obtain ⟨w₁, hindexing, hflush⟩ := hran.indexing orderlyRuns (hsmall.orderly rfl)
  obtain ⟨index', hresult⟩ := Option.isSome_iff_exists.mp hok
  obtain ⟨header, hashtable, reader, h⟩ := hashOpen_of_indexing hindexing (fun _ _ => nofun) nofun
    (by decide) hflush hran.opened' (hsmall'.orderly rfl)
    (hran.result.trans (success?_eq_some hresult))
  exact ⟨w₁, w', _, index', header, hashtable, reader, hindexing, hflush, h⟩

def shortReadsEnv : HashEnv :=
  { calmEnv with unsetBuf := List.replicate 8192 1, reads := List.replicate 40 (.got 0) }

omit [Compressors] [HashFunctions] in
/-- Bytes that were never written to are taken for five entries more: the index counts six, where
the log has five puts. -/
theorem loadHashheader_of_shortReads :
    letI := literalCompressors
    letI := lengthHash
    ∃ w w' log index index', Indexing .none 0 orderlyRuns (fourPuts ++ [.flush] ++ fifthPut) w index ∧
      logwriterFlush.run w = .ok () w' ∧ logreaderOpen (some w'.fd.data) = .ok log ∧
      (hashWrite shortReadsEnv (some w'.fd.data) 4).run index = .ok () index' ∧
      loadHashheader index' = .error .hashHeaderCorrupt := by
  let := literalCompressors
  let := lengthHash
  have hfacts : (twoRuns calmEnv shortReadsEnv fourPuts fifthPut 4 4).map (fun r =>
      (decide r.log.header.Small,
        (success? r.result).bind fun index' => failure? (loadHashheader index')))
        = some (true, some .hashHeaderCorrupt) := by
    decide +kernel
  obtain ⟨r, hr, hfacts⟩ := Option.map_eq_some_iff.mp hfacts
  simp only [Prod.mk.injEq, decide_eq_true_eq] at hfacts
  obtain ⟨hsmall, hcode⟩ := hfacts
  obtain ⟨w, w', hran⟩ := exists_of_twoRuns hr
  obtain ⟨w₁, hindexing, hflush⟩ := hran.indexing orderlyRuns (hsmall.orderly rfl)
  obtain ⟨index', hresult, hcode⟩ := Option.bind_eq_some_iff.mp hcode
  exact ⟨w₁, w', r.log', _, index', hindexing, hflush, hran.opened',
    hran.result.trans (success?_eq_some hresult), failure?_eq_some hcode⟩

/-! ### The size of the garbage -/

omit [Compressors] [HashFunctions] in
/-- Every run was orderly, and none changed the hash size of an index that counts garbage. -/
def sizeKept : Rule := fun env logHeader old hashSize => Orderly env logHeader ∧
  ∀ header, old = some header →
    header.nextHashSize logHeader hashSize = header.hashSize ∨ header.garbageSize = 0

/-- How the entries of a log are told apart, and how many bytes they take up. -/
def entryKind : Kind Entry (List UInt8) where
  key := Entry.key
  isPut e := e.type = .put
  size e := e.bytes.length

omit [Compressors] [HashFunctions] in
/-- The sizes `replaced_entry` and `deleted_entry` work out are those of the bytes. -/
theorem Entry.size_eq (e : Entry) : e.size = e.bytes.length := by
  rw [Entry.bytes, List.length_append, Entry.header, List.length_append, Entry.body,
    List.length_append, ← unsignedVlqSize_eq e.num1_lt, ← unsignedVlqSize_eq e.num2_lt]
  cases e with
  | put key value =>
    show putSize key.1.length value.1.length = unsignedVlqSize (key.1.length + 1)
      + unsignedVlqSize value.1.length + (key.1.length + value.1.length)
    unfold putSize
    omega
  | delete key =>
    have h0 : unsignedVlqSize 0 = 1 := rfl
    show deleteSize key.1.length = unsignedVlqSize 0 + unsignedVlqSize key.1.length
      + (key.1.length + 0)
    rw [h0, Nat.add_zero, deleteSize]

omit [Compressors] [HashFunctions] in
theorem deadSize_items (items : List (Item Entry)) :
    itemKind.deadSize items = entryKind.deadSize (items.map Item.val) := by
  induction items with
  | nil => rfl
  | cons it items ih =>
    have houtlives : itemKind.Outlives it items ↔
        entryKind.Outlives it.val (items.map Item.val) := by
      simp only [Kind.Outlives, List.forall_mem_map]
      exact Iff.rfl
    rw [Kind.deadSize, List.map_cons, Kind.deadSize, ih, size_itemKind, Entry.size_eq]
    simp only [houtlives]
    rfl

omit [Compressors] [HashFunctions] in
theorem keeps_garbageSize : sizeKept.Keeps fun items header =>
    header.garbageSize = u64 (contents itemKind items).garbage := by
  refine ⟨fun h => h, fun {env logHeader hashSize items more old header} hrule hknown hrefreshed => ?_⟩
  by_cases hsize : header.hashSize = old.hashSize
  · exact hrefreshed.same hsize hknown
  · rcases hrule.2 old rfl with hkept | hzero
    · exact absurd (hrefreshed.hashSize.trans hkept) hsize
    · rw [hrefreshed.other hsize, hzero, Nat.zero_add]

/-- **The size of the garbage** is that of the entries that are not live, each counted once, if no
run changed the hash size of an index with garbage.  What is left of the log is live. -/
theorem garbageSize_of_indexing (h : Indexing t n sizeKept calls w index)
    (hfit : ∀ e ∈ entriesOf calls, HeadFits (.of t n) e) (hz : (Setting.of t n).Lossless)
    (hflush : logwriterFlush.run w = .ok () w') (hopen : logreaderOpen (some w'.fd.data) = .ok log)
    (hrule : sizeKept env log.header (oldHeader? log.header index) hashSize)
    (hrun : (hashWrite env (some w'.fd.data) hashSize).run index = .ok () index') :
    ∃ (header : Hashheader) (hashtable : List UInt8), index' = some (header.bytes ++ hashtable) ∧
      header.dataEnd = log.header.dataEnd ∧
      header.garbageSize = u64 (entryKind.deadSize (entriesOf calls)) ∧
      u64 (log.header.putSize + log.header.deleteSize + (2 ^ 64 - header.garbageSize))
        = u64 (entryKind.liveSize (entriesOf calls)) := by
  obtain ⟨items, header, hashtable, hp, rfl, hi, hgarbage⟩ :=
    (h.follows keeps_garbageSize (fun h => h.1.wholeReads _) hfit hz).run keeps_garbageSize hfit hz
      hflush hopen (hrule.1.wholeReads _) hrule hrun
  have hvals := hp.vals
  rw [entriesOf_flush] at hvals
  have hdead : header.garbageSize = u64 (entryKind.deadSize (entriesOf calls)) := by
    rw [hgarbage, garbage_contents, deadSize_items, hvals]
  refine ⟨header, hashtable, rfl, hi.covers.dataEnd, hdead, ?_⟩
  have hsizes := sizes_of_writing hp.writing
  have htotal := entryKind.liveSize_add_deadSize (entriesOf calls)
  have hheader := (hp.flushed.holds (kept_of_writing hp.writing).1 hp.spelled hz hopen).2
  rw [entriesOf_flush] at hsizes
  change entryKind.liveSize (entriesOf calls) + entryKind.deadSize (entriesOf calls)
    = ((entriesOf calls).map fun e => e.bytes.length).sum at htotal
  rw [hheader, hdead]
  unfold u64 at *
  omega

def putTwice : List Call := [.add (.put (.of [1]) (.of [])), .add (.put (.of [1]) (.of []))]

omit [Compressors] [HashFunctions] in
theorem garbageSize_of_indexing_sample :
    letI := literalCompressors
    letI := lengthHash
    ∃ w w' index index', Indexing .none 0 sizeKept (putTwice ++ [.flush] ++ fifthPut) w index ∧
      logwriterFlush.run w = .ok () w' ∧
      (hashWrite calmEnv (some w'.fd.data) 4).run index = .ok () index' ∧
      ∃ (header : Hashheader) (hashtable : List UInt8), index' = some (header.bytes ++ hashtable) ∧
        header.garbageSize = 3 := by
  let := literalCompressors
  let := lengthHash
  have hfacts : (twoRuns calmEnv calmEnv putTwice fifthPut 4 4).map (fun r =>
      (decide r.log.header.Small, decide r.log'.header.Small,
        (oldHeader? r.log'.header r.index).map Hashheader.hashSize,
        (success? r.result).isSome)) = some (true, true, some 4, true) := by
    decide +kernel
  obtain ⟨r, hr, hfacts⟩ := Option.map_eq_some_iff.mp hfacts
  simp only [Prod.mk.injEq, decide_eq_true_eq] at hfacts
  obtain ⟨hsmall, hsmall', hold, hok⟩ := hfacts
  obtain ⟨w, w', hran⟩ := exists_of_twoRuns hr
  obtain ⟨w₁, hindexing, hflush⟩ := hran.indexing sizeKept
    ⟨hsmall.orderly rfl, nofun⟩
  have hrule : sizeKept calmEnv r.log'.header (oldHeader? r.log'.header r.index) 4 := by
    refine ⟨hsmall'.orderly rfl, fun header hheader => Or.inl ?_⟩
    rw [hheader] at hold
    rw [Option.some.inj hold]
    rfl
  obtain ⟨index', hresult⟩ := Option.isSome_iff_exists.mp hok
  have hrun := hran.result.trans (success?_eq_some hresult)
  obtain ⟨header, hashtable, hindex, -, hgarbage, -⟩ := garbageSize_of_indexing hindexing
    (fun _ _ => nofun) nofun hflush hran.opened' hrule hrun
  refine ⟨w₁, w', _, index', hindexing, hflush, hrun, header, hashtable, hindex, hgarbage.trans ?_⟩
  decide

omit [Compressors] [HashFunctions] in
/-- Three bytes of garbage are six, when a second run changes the hash size. -/
theorem garbageSize_of_hashSizes :
    letI := literalCompressors
    letI := lengthHash
    ∃ w w' index index' header, Indexing .none 0 orderlyRuns (putTwice ++ [.flush] ++ []) w index ∧
      logwriterFlush.run w = .ok () w' ∧
      (hashWrite calmEnv (some w'.fd.data) 8).run index = .ok () index' ∧
      loadHashheader index' = .ok header ∧ header.garbageSize = 6 ∧
      entryKind.deadSize (entriesOf (putTwice ++ [.flush] ++ [])) = 3 := by
  let := literalCompressors
  let := lengthHash
  have hfacts : (twoRuns calmEnv calmEnv putTwice [] 4 8).map (fun r =>
      (decide r.log.header.Small,
        (success? r.result).bind fun index' =>
          (loadHashheader index').toOption.map Hashheader.garbageSize)) = some (true, some 6) := by
    decide +kernel
  obtain ⟨r, hr, hfacts⟩ := Option.map_eq_some_iff.mp hfacts
  simp only [Prod.mk.injEq, decide_eq_true_eq] at hfacts
  obtain ⟨hsmall, hsize⟩ := hfacts
  obtain ⟨w, w', hran⟩ := exists_of_twoRuns hr
  obtain ⟨w₁, hindexing, hflush⟩ := hran.indexing orderlyRuns (hsmall.orderly rfl)
  obtain ⟨index', hresult, hsize⟩ := Option.bind_eq_some_iff.mp hsize
  obtain ⟨header, hload, hsize⟩ := Option.map_eq_some_iff.mp hsize
  exact ⟨w₁, w', _, index', header, hindexing, hflush, hran.result.trans (success?_eq_some hresult),
    ok_of_toOption hload, hsize, by decide⟩

end Sparkey
