import Sparkey.Writer.Cut

/-!
# What the header of a log promises

The loader takes a header to be corrupt when it counts more entries than the file
has bytes.  An uncompressed entry has two bytes at least, but a compressor makes
much less of them, so whether a log is taken depends on how well it compresses
(`loadLogheader_of_writing`).

The two maxima are for buffers.  A put raises them, a delete does not, so the loop
of `sparkey.h` stays within its buffers exactly if no deleted key is longer than all
keys that were put (`shown_le_iff`).
-/

namespace Sparkey

open Program BlockStream

variable [Compressors] {t : CompressionType} {n : Nat} {calls : List Call} {w w' : Logwriter}
  {log : Logreader}

/-! ### The counts -/

/-- The bytes that the entries of some calls take up in the log behind a flush. -/
def storedSize (s : Setting) (calls : List Call) : Nat :=
  ((pack s (calls ++ [.flush])).map fun p => p.out.length).getD 0

/-- A flush, perhaps as part of a close, leaves the header and the data of the log. -/
theorem flushed_of_end (hw : Writing t n calls w)
    (hend : logwriterFlush.run w = .ok () w' ∨ logwriterClose.run w = .ok () w') :
    ∃ w₁, logwriterFlush.run w = .ok () w₁ ∧ w'.fd = w₁.fd ∧ w'.header = w₁.header := by
  rcases hend with hflush | hclose
  · exact ⟨w', hflush, rfl, rfl⟩
  · obtain ⟨w₁, hflush, rfl⟩ := ok_logwriterClose (kept_of_writing hw).1.writable hclose
    exact ⟨w₁, hflush, rfl, rfl⟩

theorem dataEnd_of_flush (hw : Writing t n calls w) (hflush : logwriterFlush.run w = .ok () w') :
    w'.header.dataEnd = logHeaderSize + storedSize (.of t n) calls := by
  obtain ⟨hk, hpack⟩ := kept_of_writing hw
  obtain ⟨-, hf, hpack'⟩ := hk.flush hflush
  have hall : pack (.of t n) (calls ++ [.flush]) = some w'.packing := by
    rw [pack_append, hpack]
    exact hpack'
  rw [storedSize, hall, hf.dataEnd, hf.data, List.length_append, Logheader.length_bytes]
  rfl

/-- **A log that was written is accepted**, with the fields its writer held, if and only if it
has no more puts and no more deletes than bytes. -/
theorem loadLogheader_of_writing (hw : Writing t n calls w)
    (hend : logwriterFlush.run w = .ok () w' ∨ logwriterClose.run w = .ok () w') :
    loadLogheader (some w'.fd.data) = .ok w'.header ↔
      u64 (countPuts (entriesOf calls)) ≤ logHeaderSize + storedSize (.of t n) calls ∧
      u64 (countDeletes (entriesOf calls)) ≤ logHeaderSize + storedSize (.of t n) calls := by
  obtain ⟨w₁, hflush, hfd, hheader⟩ := flushed_of_end hw hend
  obtain ⟨hk, hf, -⟩ := (kept_of_writing hw).1.flush hflush
  rw [hfd, hheader, hk.loadLogheader hf, ← dataEnd_of_flush hw hflush, ← hk.counts.numPuts,
    ← hk.counts.numDeletes]
  have hsize : logHeaderSize ≤ w₁.header.dataEnd := by
    rw [dataEnd_of_flush hw hflush]
    exact Nat.le_add_right _ _
  constructor
  · intro h
    by_contra hlt
    rw [if_pos (by omega)] at h
    cases h
  · intro h
    rw [if_neg (by omega)]

omit [Compressors] in
theorem two_mul_length_le (es : List Entry) : 2 * es.length ≤ (pieces es).flatten.length := by
  induction es with
  | nil => exact Nat.le_refl 0
  | cons e es ih =>
    have htwo := e.two_le_length_header
    have hsplit : (pieces (e :: es)).flatten = e.header ++ e.body ++ (pieces es).flatten := rfl
    rw [hsplit, List.length_append, List.length_append, List.length_cons]
    omega

/-- **Without compression** there are never more puts or deletes than bytes. -/
theorem counts_le_storedSize (hu : usesCompressor t = false) (hw : Writing t n calls w)
    (hflush : logwriterFlush.run w = .ok () w') :
    u64 (countPuts (entriesOf calls)) ≤ logHeaderSize + storedSize (.of t n) calls ∧
      u64 (countDeletes (entriesOf calls)) ≤ logHeaderSize + storedSize (.of t n) calls := by
  obtain ⟨hk, hpack⟩ := kept_of_writing hw
  obtain ⟨-, -, hpack'⟩ := hk.flush hflush
  have hall : pack (.of t n) (calls ++ [.flush]) = some w'.packing := by
    rw [pack_append, hpack]
    exact hpack'
  have hstored : storedSize (.of t n) calls = (pieces (entriesOf calls)).flatten.length := by
    rw [storedSize, hall, ← entriesOf_flush calls, ← (out_pack hu hall).2]
    rfl
  have htwo := two_mul_length_le (entriesOf calls)
  have hputs : countPuts (entriesOf calls) ≤ (entriesOf calls).length := List.countP_le_length
  have hdeletes : countDeletes (entriesOf calls) ≤ (entriesOf calls).length := List.countP_le_length
  rw [hstored]
  constructor
  · exact (Nat.mod_le _ _).trans (by omega)
  · exact (Nat.mod_le _ _).trans (by omega)

omit [Compressors] in
theorem loadLogheader_of_writing_sample :
    letI := literalCompressors
    ∃ w w', Writing .snappy 10 sampleCalls w ∧ logwriterClose.run w = .ok () w' ∧
      loadLogheader (some w'.fd.data) = .ok w'.header := by
  let := literalCompressors
  obtain ⟨w, w', log, hw, hclose, -⟩ := exists_of_writeAndOpen sampleEnv .snappy 10 sampleCalls
    (by decide) (by decide +kernel)
  exact ⟨w, w', hw, hclose, (loadLogheader_of_writing hw (.inr hclose)).mpr (by decide +kernel)⟩

def emptyPuts : List UInt8 := (List.replicate 104 [1, 0]).flatten

/-- Snappy for this block: its length, its first two bytes, and copies of 64 bytes at most from two
bytes back. -/
def emptyPutsStream : List UInt8 := [208, 1, 4, 1, 0, 254, 2, 0, 254, 2, 0, 254, 2, 0, 54, 2, 0]

def snappyCopies : Compressor where
  maxCompressedSize := snappyLiteral.maxCompressedSize
  compress input size :=
    if input = emptyPuts ∧ emptyPutsStream.length ≤ size then some emptyPutsStream else none
  decompress input size :=
    if input = emptyPutsStream ∧ emptyPuts.length ≤ size then .ok emptyPuts else .error id
  maxCompressedSize_lt := snappyLiteral.maxCompressedSize_lt
  compress_le := by
    intro input size output h
    split_ifs at h with hlen
    cases h
    exact hlen.2
  decompress_le := by
    intro input size output h
    split_ifs at h with hlen
    cases h
    exact hlen.2

omit [Compressors] in
theorem lossless_snappyCopies : snappyCopies.Lossless := by
  intro input size output h n hn
  simp only [snappyCopies] at h ⊢
  split_ifs at h with hlen
  cases h
  obtain ⟨rfl, -⟩ := hlen
  exact if_pos ⟨rfl, hn⟩

abbrev copiesCompressors : Compressors := ⟨fun _ => snappyCopies⟩

def emptyPutCalls : List Call := List.replicate 104 (.add (.put (.of []) (.of [])))

omit [Compressors] in
/-- 104 puts in 102 bytes are taken to be corrupt. -/
theorem loadLogheader_of_emptyPuts :
    letI := copiesCompressors
    (Setting.of .snappy 1000).Lossless ∧
    ∃ w w', Writing .snappy 1000 emptyPutCalls w ∧ logwriterClose.run w = .ok () w' ∧
      w'.header.numPuts = 104 ∧ w'.header.dataEnd = 102 ∧
      loadLogheader (some w'.fd.data) = .error .logHeaderCorrupt := by
  let := copiesCompressors
  refine ⟨fun _ => lossless_snappyCopies, ?_⟩
  obtain ⟨w, hw⟩ := Option.isSome_iff_exists.mp
    (show (writeLog ⟨some 7, [], []⟩ .snappy 1000 emptyPutCalls).isSome = true by decide +kernel)
  have hfacts : (writeLog ⟨some 7, [], []⟩ .snappy 1000 emptyPutCalls).map (fun w =>
      (success? (logwriterClose.run w)).map fun w' =>
        (w'.header.numPuts, w'.header.dataEnd, failure? (loadLogheader (some w'.fd.data))))
      = some (some (104, 102, some .logHeaderCorrupt)) := by
    decide +kernel
  rw [hw, Option.map_some, Option.some_inj] at hfacts
  obtain ⟨w', hclose, hfacts⟩ := Option.map_eq_some_iff.mp hfacts
  simp only [Prod.mk.injEq] at hfacts
  obtain ⟨hputs, hend, hload⟩ := hfacts
  exact ⟨w, w', writing_of_writeLog (by decide) hw, success?_eq_some hclose, hputs, hend,
    failure?_eq_some hload⟩

/-! ### The maxima -/

section Maxima

omit [Compressors]

variable {f : Entry → Nat} {m : Nat} {es : List Entry}

theorem attained_append (h : m = 0 ∨ ∃ e ∈ es, e.type = .put ∧ f e = m) (e : Entry) :
    m = 0 ∨ ∃ e' ∈ es ++ [e], e'.type = .put ∧ f e' = m := by
  rcases h with h | ⟨e', he', h⟩
  · exact Or.inl h
  · exact Or.inr ⟨e', List.mem_append_left _ he', h⟩

/-- **A maximum over the puts** is attained when one more put has come. -/
theorem attained_max (h : m = 0 ∨ ∃ e ∈ es, e.type = .put ∧ f e = m) {e : Entry}
    (hput : e.type = .put) :
    max m (f e) = 0 ∨ ∃ e' ∈ es ++ [e], e'.type = .put ∧ f e' = max m (f e) := by
  rcases Nat.le_total (f e) m with hle | hle
  · rw [Nat.max_eq_left hle]
    exact attained_append h e
  · exact Or.inr ⟨e, List.mem_append_right _ List.mem_cons_self, hput, (Nat.max_eq_right hle).symm⟩

end Maxima

def Logheader.Attains (header : Logheader) (es : List Entry) : Prop :=
  header.maxKeyLen = 0 ∨ ∃ e ∈ es, e.type = .put ∧ e.key.length = header.maxKeyLen

omit [Compressors] in
theorem Logheader.Attains.count {header : Logheader} {es : List Entry} (h : header.Attains es)
    (e : Entry) (m : Nat) : (header.count e m).Attains (es ++ [e]) := by
  rcases e with ⟨key, value⟩ | key
  · exact attained_max (f := fun e => e.key.length) (e := .put key value) h rfl
  · exact attained_append h (.delete key)

/-- **What the header tells of the entries**: it holds of the header of an empty log, and it is kept
when an entry is counted, and when a block or the end of the data is noted. -/
theorem header_of_writing {P : Logheader → List Entry → Prop}
    (hzero : ∀ header : Logheader, header.putSize = 0 → header.deleteSize = 0 → header.maxKeyLen = 0 →
      header.maxValueLen = 0 → P header [])
    (hcount : ∀ header es e, P header es → P (header.count e e.bytes.length) (es ++ [e]))
    (hkeep : ∀ (header : Logheader) es m d, P header es →
      P { header with maxEntriesPerBlock := m, dataEnd := d } es)
    (hw : Writing t n calls w) : P w.header (entriesOf calls) := by
  induction hw with
  | create _ h =>
    rw [logwriterCreate] at h
    split_ifs at h
    all_goals
      simp only at h
      split at h
      · cases h
      split at h
      · cases h
      split_ifs at h
      cases h
      exact hzero _ rfl rfl rfl rfl
  | add e hw h ih =>
    obtain ⟨p, log₁, -, hs, rfl⟩ := ok_logwriterAdd (kept_of_writing hw).1.writable h
    rw [entriesOf_append]
    refine hcount _ _ e ?_
    rw [hs.header]
    exact hkeep _ _ _ _ ih
  | flush hw h ih =>
    obtain ⟨-, -, -, -, hheader, -⟩ := ok_logwriterFlush (kept_of_writing hw).1.writable h
    rw [entriesOf_append, hheader, Call.entry?, Option.toList_none, List.append_nil]
    exact hkeep _ _ _ _ ih
  | reopen hw hclose happend ih =>
    have hk := (kept_of_writing hw).1
    obtain ⟨log₁, hflush, rfl⟩ := ok_logwriterClose hk.writable hclose
    obtain ⟨hk₁, hf₁, -⟩ := hk.flush hflush
    obtain ⟨-, -, -, -, hheader, -⟩ := ok_logwriterFlush hk.writable hflush
    cases logwriterAppend_eq hk₁ hf₁ happend
    rw [entriesOf_append, Call.entry?, Option.toList_none, List.append_nil]
    show P log₁.header _
    rw [hheader]
    exact hkeep _ _ _ _ ih

theorem attains_of_writing (hw : Writing t n calls w) : w.header.Attains (entriesOf calls) :=
  header_of_writing (fun _ _ _ h _ => Or.inl h) (fun _ _ e h => h.count e _) (fun _ _ _ _ h => h) hw

/-- The bytes that the entries of a type take up. -/
def sizeOfType (type : EntryType) (es : List Entry) : Nat :=
  ((es.filter fun e => e.type = type).map fun e => e.bytes.length).sum

omit [Compressors] in
theorem sizeOfType_append (type : EntryType) (es : List Entry) (e : Entry) : sizeOfType type (es ++ [e])
    = sizeOfType type es + if e.type = type then e.bytes.length else 0 := by
  rw [sizeOfType, List.filter_append, List.map_append, List.sum_append, ← sizeOfType]
  by_cases he : e.type = type <;> simp [he]

omit [Compressors] in
theorem sizeOfType_add (es : List Entry) :
    sizeOfType .put es + sizeOfType .delete es = (es.map fun e => e.bytes.length).sum := by
  induction es using List.reverseRecOn with
  | nil => rfl
  | append_singleton es e ih =>
    rw [sizeOfType_append, sizeOfType_append, List.map_append, List.sum_append, ← ih]
    cases h : e.type <;> simp <;> omega

/-- **The sizes in the header** are those of the puts and of the deletes. -/
theorem putSize_of_writing (hw : Writing t n calls w) :
    w.header.putSize = u64 (sizeOfType .put (entriesOf calls)) ∧
      w.header.deleteSize = u64 (sizeOfType .delete (entriesOf calls)) := by
  refine header_of_writing (P := fun header es => header.putSize = u64 (sizeOfType .put es) ∧
    header.deleteSize = u64 (sizeOfType .delete es)) ?_ ?_ (fun _ _ _ _ h => h) hw
  · intro header hput hdelete _ _
    exact ⟨hput, hdelete⟩
  · intro header es e h
    rw [sizeOfType_append, sizeOfType_append]
    cases e with
    | put key value => exact ⟨by
        show u64 (header.putSize + _) = u64 (_ + _)
        rw [h.1, u64_add_u64]
        rfl, h.2⟩
    | delete key => exact ⟨h.1, by
        show u64 (header.deleteSize + _) = u64 (_ + _)
        rw [h.2, u64_add_u64]
        rfl⟩

theorem sizes_of_writing (hw : Writing t n calls w) :
    u64 (w.header.putSize + w.header.deleteSize)
      = u64 ((entriesOf calls).map fun e => e.bytes.length).sum := by
  obtain ⟨hput, hdelete⟩ := putSize_of_writing hw
  rw [hput, hdelete, u64_add_u64, Nat.add_comm, u64_add_u64, Nat.add_comm, sizeOfType_add]

def logreaderMaxkeylen (log : Logreader) : Nat := log.header.maxKeyLen

def logreaderMaxvaluelen (log : Logreader) : Nat := log.header.maxValueLen

/-- **The buffers of the loop hold every entry** if and only if no deleted key is longer than all
the keys that were put. -/
theorem shown_le_iff (hw : Writing t n calls w)
    (hfit : ∀ e ∈ entriesOf calls, HeadFits (.of t n) e) (hz : (Setting.of t n).Lossless)
    (hclose : logwriterClose.run w = .ok () w')
    (hopen : logreaderOpen (some w'.fd.data) = .ok log) (unset : Logiter) {fuel : Nat}
    (hfuel : (entriesOf calls).length < fuel) :
    (∀ iter shown iter', logiterCreate unset log = .ok iter →
      (dump log fuel).run iter = .ok shown iter' → ∀ e ∈ shown,
        e.keylen ≤ logreaderMaxkeylen log ∧ e.valuelen ≤ logreaderMaxvaluelen log) ↔
    ∀ key, .delete key ∈ entriesOf calls →
      key.1 = [] ∨ ∃ e ∈ entriesOf calls, e.type = .put ∧ key.1.length ≤ e.key.length := by
  obtain ⟨hk, hattains⟩ :
      log.header.Counts (entriesOf calls) ∧ log.header.Attains (entriesOf calls) := by
    obtain ⟨w₁, hflush, rfl⟩ := ok_logwriterClose (kept_of_writing hw).1.writable hclose
    obtain ⟨hk, hf, -⟩ := (kept_of_writing hw).1.flush hflush
    obtain ⟨-, hheader, -⟩ := hk.open hf hopen
    obtain ⟨-, -, -, -, hold, -⟩ := ok_logwriterFlush (kept_of_writing hw).1.writable hflush
    have := attains_of_writing hw
    rw [hheader]
    refine ⟨hk.counts, ?_⟩
    rw [hold]
    exact this
  -- what the loop shows are the entries
  obtain ⟨items, hl, hvals⟩ := holds_of_close hw hfit hz hclose hopen
  obtain ⟨iter, iter', hiter, hrun, -⟩ := hl.exists_dump hvals unset hfuel
  have hshown : (∀ iter shown iter', logiterCreate unset log = .ok iter →
      (dump log fuel).run iter = .ok shown iter' → ∀ e ∈ shown,
        e.keylen ≤ logreaderMaxkeylen log ∧ e.valuelen ≤ logreaderMaxvaluelen log) ↔
      ∀ e ∈ entriesOf calls, e.key.length ≤ log.header.maxKeyLen ∧
        e.value.length ≤ log.header.maxValueLen := by
    constructor
    · intro h e he
      exact h iter _ iter' hiter hrun e.shown (List.mem_map_of_mem he)
    · intro h iter₁ shown iter₁' hiter₁ hrun₁ e he
      cases hiter.symm.trans hiter₁
      cases hrun.symm.trans hrun₁
      obtain ⟨e, he', rfl⟩ := List.mem_map.mp he
      exact h e he'
  rw [hshown]
  constructor
  · intro h key hkey
    rcases hattains with h0 | ⟨e, he, hput, hlen⟩
    · have := (h _ hkey).1
      rw [h0] at this
      exact Or.inl (List.eq_nil_of_length_eq_zero (Nat.le_zero.mp this))
    · exact Or.inr ⟨e, he, hput, hlen ▸ (h _ hkey).1⟩
  · intro h e he
    rcases e with ⟨key, value⟩ | key
    · exact ⟨hk.key_le _ he rfl, hk.value_le _ he rfl⟩
    · refine ⟨?_, Nat.zero_le _⟩
      rcases h key he with hnil | ⟨e, he, hput, hle⟩
      · show key.1.length ≤ _
        rw [hnil]
        exact Nat.zero_le _
      · exact Nat.le_trans hle (hk.key_le e he hput)

omit [Compressors] in
theorem shown_le_iff_sample :
    letI := literalCompressors
    ∃ log, ∀ iter shown iter', logiterCreate zeroLogiter log = .ok iter →
      (dump log 5).run iter = .ok shown iter' → ∀ e ∈ shown,
        e.keylen ≤ logreaderMaxkeylen log ∧ e.valuelen ≤ logreaderMaxvaluelen log := by
  let := literalCompressors
  obtain ⟨w, w', log, hw, hclose, hopen, -⟩ := exists_of_writeAndOpen sampleEnv .snappy 10
    sampleCalls (by decide) (by decide +kernel)
  refine ⟨log, (shown_le_iff hw headFits_sampleCalls (fun _ => lossless_snappyLiteral) hclose hopen
    zeroLogiter (by decide)).mpr fun key hkey => Or.inr ?_⟩
  obtain rfl : Blob.of [1] = key := by
    simpa [entriesOf, sampleCalls, Call.entry?] using hkey
  exact ⟨.put (.of [1]) (.of [2, 3]), List.mem_cons_self, rfl, Nat.le_refl 1⟩

def deleteCalls : List Call := [.add (.delete (.of [1]))]

omit [Compressors] in
/-- The loop fills a buffer of no bytes with the key of a delete. -/
theorem shown_of_deleteCalls :
    letI := literalCompressors
    ∃ w w' log iter iter', Writing .none 0 deleteCalls w ∧ logwriterClose.run w = .ok () w' ∧
      logreaderOpen (some w'.fd.data) = .ok log ∧ logiterCreate zeroLogiter log = .ok iter ∧
      (dump log 2).run iter = .ok [⟨.delete, 1, 0, [1], []⟩] iter' ∧
      logreaderMaxkeylen log = 0 := by
  let := literalCompressors
  obtain ⟨w, w', log, hw, hclose, hopen, hlog⟩ := exists_of_writeAndOpen ⟨some 7, [], []⟩ .none 0
    deleteCalls (by decide) (by decide +kernel)
  have hmax : (writeAndOpen ⟨some 7, [], []⟩ .none 0 deleteCalls).map logreaderMaxkeylen = some 0 := by
    decide +kernel
  rw [hlog, Option.map_some, Option.some_inj] at hmax
  obtain ⟨items, hl, hvals⟩ := holds_of_close hw (fun _ _ => nofun) nofun hclose hopen
  obtain ⟨iter, iter', hiter, hrun, -⟩ := hl.exists_dump hvals zeroLogiter
    (by decide : (entriesOf deleteCalls).length < 2)
  exact ⟨w, w', log, iter, iter', hw, hclose, hopen, hiter, hrun, hmax⟩

end Sparkey
