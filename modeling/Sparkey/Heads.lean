import Sparkey.Chunks

/-!
# What `next` relies on

`next` reads the two numbers of a head from one block, and takes an empty block for the end of
the log.  The writer lets it do so (`Whole`) exactly where no head takes more bytes than a
block has: the smallest block size it accepts is 10, and a head can have up to 20.
-/

namespace Sparkey

open Program BlockStream

/-- No block is empty, and the two numbers in front of an entry are in one block. -/
structure Whole (blocks : List (List UInt8)) (es : List Entry) : Prop where
  nil_notMem : [] ∉ blocks
  /-- The head of an entry is in the block with number `j`, behind `u`. -/
  head : ∀ {i e}, es[i]? = some e → ∃ j b u, blocks[j]? = some b ∧
    (blocks.take j).flatten ++ u = (pieces (es.take i)).flatten ∧ u ++ e.header <+: b

theorem Cut.whole {n : Nat} {blocks : List (List UInt8)} {es : List Entry} (h : Cut n blocks es)
    (hg : Gaps n blocks es) (hfit : ∀ e ∈ es, e.header.length ≤ n) : Whole blocks es := by
  refine ⟨fun hnil => ?_, fun {i e} hi => ?_⟩
  · obtain ⟨j, hj⟩ := List.mem_iff_getElem?.mp hnil
    obtain ⟨i, e, hi, hlarge, -⟩ := hg j hj
    have := hfit e (List.mem_of_getElem? hi)
    omega
  · obtain ⟨j, b, u, hj, hu, hhead | ⟨hlarge, -, -⟩⟩ := h.head hi
    · exact ⟨j, b, u, hj, hu, hhead⟩
    · have := hfit e (List.mem_of_getElem? hi)
      omega

theorem Whole.header_le {n : Nat} {blocks : List (List UInt8)} {es : List Entry} {e : Entry}
    (h : Whole blocks es) (hlen : ∀ b ∈ blocks, b.length ≤ n) (he : e ∈ es) : e.header.length ≤ n := by
  obtain ⟨i, hi⟩ := List.mem_iff_getElem?.mp he
  obtain ⟨j, b, u, hj, -, hhead⟩ := h.head hi
  have hb := hlen b (List.mem_of_getElem? hj)
  have hle := hhead.length_le
  rw [List.length_append] at hle
  omega

variable [Compressors] {log : Logreader} {blocks : List (List UInt8)} {es : List Entry}

/-- **When the blocks of a compressed log are whole.** -/
theorem Logreader.Carries.whole_iff (h : log.Carries blocks es)
    (hu : usesCompressor log.header.compressionType = true) :
    Whole blocks es ↔ ∀ e ∈ es, HeadFits log.header.setting e :=
  ⟨fun hw _ he _ => hw.header_le (h.length_le hu) he,
    fun hfit => h.cut.whole h.gaps fun e he => hfit e he hu⟩

/-- **The blocks a writer emits**: none is empty and no head is split if and only if every head fits
in a block.  If so, and if the log opens, a new iterator comes by all entries before it is closed. -/
theorem whole_of_writing {t : CompressionType} {n : Nat} {calls : List Call} {w w' : Logwriter}
    (hw : Writing t n calls w) (hu : usesCompressor t = true) (hz : (Setting.of t n).Lossless)
    (hfl : logwriterFlush.run w = .ok () w') :
    ∃ blocks, w'.reader.Blocks logHeaderSize blocks w'.header.dataEnd ∧
      blocks.flatten = (pieces (entriesOf calls)).flatten ∧
      (Whole blocks (entriesOf calls) ↔ ∀ e ∈ entriesOf calls, e.header.length ≤ n) ∧
      ∀ log, logreaderOpen (some w'.fd.data) = .ok log →
        log.Blocks logHeaderSize blocks log.header.dataEnd ∧
        ((∀ e ∈ entriesOf calls, e.header.length ≤ n) → ∀ unset fuel, (entriesOf calls).length < fuel →
          ∃ iter iter', logiterCreate unset log = .ok iter ∧
            (dump log fuel).run iter = .ok ((entriesOf calls).map Entry.shown) iter' ∧
            iter'.state = .closed) := by
  obtain ⟨blocks, hc⟩ := carries_reader hw hz hfl
  obtain ⟨hk, hf, -⟩ := (kept_of_writing hw).1.flush hfl
  have hset : w'.reader.header.setting = Setting.of t n := hk.setting
  have htype : w'.reader.header.compressionType = t := congrArg Setting.compressionType hset
  have hsize : (Setting.of t n).compressionBlockSize = n := if_pos hu
  have hfits : (∀ e ∈ entriesOf calls, HeadFits (.of t n) e) ↔
      ∀ e ∈ entriesOf calls, e.header.length ≤ n := by
    refine forall₂_congr fun e _ => ?_
    rw [HeadFits, hsize]
    exact ⟨fun h => h hu, fun h _ => h⟩
  refine ⟨blocks, hc.chain, hc.cut.flatten, ?_, fun log hopen => ⟨?_, fun hfit unset fuel hfuel => ?_⟩⟩
  · rw [hc.whole_iff (htype ▸ hu), hset, hfits]
  · rw [hk.eq_reader hf hopen]
    exact hc.chain
  · obtain ⟨items, hl, hvals, -⟩ := holds_of_flush hw (hfits.mpr hfit) hz hfl hopen
    exact hl.exists_dump hvals unset hfuel

omit [Compressors] in
theorem whole_of_writing_sample :
    letI := literalCompressors
    ∃ (log : Logreader) (blocks : List (List UInt8)),
      log.Blocks logHeaderSize blocks log.header.dataEnd ∧ Whole blocks (entriesOf sampleCalls) := by
  let := literalCompressors
  have hz : (Setting.of .snappy 10).Lossless := fun _ => lossless_snappyLiteral
  obtain ⟨w, w', log, hw, hfl, hopen, -⟩ := exists_sampleLog
  obtain ⟨blocks, -, -, hiff, hopened⟩ := whole_of_writing hw rfl hz hfl
  exact ⟨log, blocks, (hopened log hopen).1, hiff.mpr fun e he => headFits_sampleCalls e he rfl⟩

omit [Compressors] in
/-- A head of eleven bytes does not go into a block of ten. -/
theorem not_whole_of_largeEntry :
    letI := literalCompressors
    ∃ (w w' : Logwriter) (log : Logreader) (blocks : List (List UInt8)),
      Writing .snappy 10 (largeCalls largeEntry) w ∧ logwriterFlush.run w = .ok () w' ∧
      logreaderOpen (some w'.fd.data) = .ok log ∧
      log.Blocks logHeaderSize blocks log.header.dataEnd ∧
      ¬ Whole blocks (entriesOf (largeCalls largeEntry)) := by
  let := literalCompressors
  have hz : (Setting.of .snappy 10).Lossless := fun _ => lossless_snappyLiteral
  obtain ⟨w, w', log, hw, hfl, hopen⟩ := exists_largeLog length_bytes_largeEntry
  obtain ⟨blocks, hc⟩ := carries_of_flush hw hz hfl hopen
  have hset := setting_of_flush hw hfl hopen
  have htype : log.header.compressionType = .snappy := congrArg Setting.compressionType hset
  refine ⟨w, w', log, blocks, hw, hfl, hopen, hc.chain, fun hwhole => ?_⟩
  have hmem : largeEntry ∈ entriesOf (largeCalls largeEntry) :=
    List.mem_filterMap.mpr ⟨.add largeEntry, List.mem_cons_of_mem _ List.mem_cons_self, rfl⟩
  have hfit := (hc.whole_iff (by rw [htype]; rfl)).mp hwhole largeEntry hmem
  rw [hset] at hfit
  have hle : largeEntry.header.length ≤ 10 := hfit rfl
  rw [length_header_largeEntry] at hle
  exact absurd hle (by decide)

end Sparkey
