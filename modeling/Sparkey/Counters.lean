import Sparkey.Heads
import Sparkey.Promises

/-!
# What the counters of a log say

The header of a log counts its entries and adds up their sizes, in 64-bit words
(`counters_of_writing`).  So the counters are exact as long as no total is too large for
such a word, which without compression is always so: there the entries lie one behind
the other from the header to the end of the data.  What compresses well enough may be
more than a word can count.
-/

namespace Sparkey

open Program BlockStream Tiling

/-- The counters of a header are those of some entries. -/
structure Logheader.Tells (header : Logheader) (es : List Entry) : Prop where
  numPuts : header.numPuts = countPuts es
  numDeletes : header.numDeletes = countDeletes es
  putSize : header.putSize = sizeOfType .put es
  deleteSize : header.deleteSize = sizeOfType .delete es

/-- Where the entry with some number begins in an uncompressed log, and the one before it ends. -/
def boundary (es : List Entry) (k : Nat) : Nat := logHeaderSize + start (pieces es) k

theorem length_pieces (es : List Entry) :
    (pieces es).flatten.length = sizeOfType .put es + sizeOfType .delete es := by
  rw [sizeOfType_add, List.length_flatten, List.map_map]
  rfl

theorem count_le_sizeOfType (type : EntryType) (es : List Entry) :
    (es.countP fun e => e.type = type) ≤ sizeOfType type es := by
  induction es using List.reverseRecOn with
  | nil => exact Nat.le_refl 0
  | append_singleton es e ih =>
    have hpos := List.length_pos_iff.mpr (bytes_ne_nil e)
    rw [sizeOfType_append, List.countP_append, List.countP_singleton]
    by_cases he : e.type = type <;> simp [he] <;> omega

variable [Compressors] {t : CompressionType} {n : Nat} {calls : List Call} {w w' : Logwriter}
  {log : Logreader} {iter : Logiter} {k : Nat}

/-- The entries that `next` stops at fill the log from its header to the end of its data. -/
structure Tiles (log : Logreader) (es : List Entry) : Prop where
  first : boundary es 0 = logHeaderSize
  last : boundary es es.length = log.header.dataEnd
  step : ∀ {k e}, es[k]? = some e → boundary es (k + 1) = boundary es k + e.bytes.length
  stops : ∀ {k}, k < es.length → ∃ iter, Stop log k iter
  stop : ∀ {k iter}, Stop log k iter → ∃ e, es[k]? = some e ∧
    iter.entryBlockPosition = boundary es k ∧ Presents log iter e (es.drop (k + 1))

theorem Stop.boundary {items : List (Item Entry)} (hl : log.Holds items)
    (hu : usesCompressor log.header.compressionType = false) (h : Stop log k iter) :
    ∃ e, (items.map Item.val)[k]? = some e ∧
      iter.entryBlockPosition = Sparkey.boundary (items.map Item.val) k ∧
      Presents log iter e ((items.map Item.val).drop (k + 1)) := by
  obtain ⟨item, hitem, hactive, -⟩ := h.active hl
  have hmoves : log.source.moves = true := by
    show (!usesCompressor log.header.compressionType) = true
    rw [hu]
    rfl
  have hpos := hl.entries.pos_eq hmoves (fun hne => absurd rfl hne) hitem
  refine ⟨item.val, ?_, ?_, ?_⟩
  · rw [List.getElem?_map, hitem]
    rfl
  · rw [hactive.entryBlockPosition, hpos, Sparkey.boundary, start, pieces, List.map_map,
      ← List.map_take]
    rfl
  · rw [← List.map_drop]
    exact hactive.presents hl.toOpened

theorem dataEnd_of_plain (hw : Writing t n calls w) (hu : usesCompressor t = false)
    (hfl : logwriterFlush.run w = .ok () w') :
    w'.header.dataEnd = logHeaderSize + (pieces (entriesOf calls)).flatten.length := by
  obtain ⟨hk, hp⟩ := kept_of_writing hw
  obtain ⟨-, hf, hp'⟩ := hk.flush hfl
  have hpack : pack (.of t n) (calls ++ [.flush]) = some w'.packing := by
    rw [pack_append, hp]
    exact hp'
  obtain ⟨-, hout⟩ := out_pack (s := .of t n) hu hpack
  rw [hf.dataEnd, hf.data, List.length_append, Logheader.length_bytes, hout, entriesOf_flush]

/-- **An uncompressed log is tiled** by its entries. -/
theorem tiles_of_flush (hw : Writing t n calls w) (hu : usesCompressor t = false)
    (hfl : logwriterFlush.run w = .ok () w') (hopen : logreaderOpen (some w'.fd.data) = .ok log) :
    Tiles log (entriesOf calls) := by
  have hfit : ∀ e ∈ entriesOf calls, HeadFits (.of t n) e := fun e _ hu' =>
    absurd (hu.symm.trans hu') Bool.false_ne_true
  have hz : (Setting.of t n).Lossless := fun hu' => absurd (hu.symm.trans hu') Bool.false_ne_true
  obtain ⟨items, hl, hvals, -⟩ := holds_of_flush hw hfit hz hfl hopen
  obtain ⟨blocks, hc⟩ := carries_of_flush hw hz hfl hopen
  have hset := setting_of_flush hw hfl hopen
  have htype : log.header.compressionType = t := congrArg Setting.compressionType hset
  refine ⟨rfl, ?_, ?_, ?_, ?_⟩
  · rw [(((kept_of_writing hw).1.flush hfl).1.open ((kept_of_writing hw).1.flush hfl).2.1 hopen).2.1,
      dataEnd_of_plain hw hu hfl, boundary, ← start_length, List.length_map]
  · intro k e he
    rw [boundary, boundary, start_pieces_succ he, Nat.add_assoc]
  · intro k hk
    exact exists_stop hc hk fun e he => hset ▸ hfit e (List.mem_of_mem_take he)
  · intro k iter hstop
    have := hstop.boundary hl (htype ▸ hu)
    rwa [hvals] at this

/-- **What the header of a log counts**: the puts and the deletes and the bytes they take up, in
64-bit words.  Without compression no word is too small, the two sizes lead from the header to the
end of the data, and the entries lie there without a gap. -/
theorem counters_of_writing (hw : Writing t n calls w) (hz : (Setting.of t n).Lossless)
    (hend : logwriterFlush.run w = .ok () w' ∨ logwriterClose.run w = .ok () w') :
    w'.header.numPuts = u64 (countPuts (entriesOf calls)) ∧
    w'.header.numDeletes = u64 (countDeletes (entriesOf calls)) ∧
    w'.header.putSize = u64 (sizeOfType .put (entriesOf calls)) ∧
    w'.header.deleteSize = u64 (sizeOfType .delete (entriesOf calls)) ∧
    (sizeOfType .put (entriesOf calls) < 2 ^ 64 → sizeOfType .delete (entriesOf calls) < 2 ^ 64 →
      w'.header.Tells (entriesOf calls)) ∧
    (∀ log, logreaderOpen (some w'.fd.data) = .ok log → log.header = w'.header ∧
      ∃ blocks, log.Blocks logHeaderSize blocks log.header.dataEnd ∧
        blocks.flatten = (pieces (entriesOf calls)).flatten) ∧
    (usesCompressor t = false → w'.header.Tells (entriesOf calls) ∧
      w'.header.dataEnd = logHeaderSize + w'.header.putSize + w'.header.deleteSize ∧
      ∃ log, logreaderOpen (some w'.fd.data) = .ok log ∧ Tiles log (entriesOf calls)) := by
  obtain ⟨w₁, hfl, hfd, hheader⟩ := flushed_of_end hw hend
  obtain ⟨hk, hf, -⟩ := (kept_of_writing hw).1.flush hfl
  obtain ⟨hput, hdelete⟩ : w'.header.putSize = u64 (sizeOfType .put (entriesOf calls)) ∧
      w'.header.deleteSize = u64 (sizeOfType .delete (entriesOf calls)) := by
    have := putSize_of_writing (hw.flush hfl)
    rwa [entriesOf_flush, ← hheader] at this
  have hputs := count_le_sizeOfType .put (entriesOf calls)
  have hdeletes := count_le_sizeOfType .delete (entriesOf calls)
  -- what is small enough for a word is exact
  have htells : sizeOfType .put (entriesOf calls) < 2 ^ 64 →
      sizeOfType .delete (entriesOf calls) < 2 ^ 64 → w'.header.Tells (entriesOf calls) := by
    intro hlt hlt'
    refine ⟨?_, ?_, hput.trans (u64_of_lt hlt), hdelete.trans (u64_of_lt hlt')⟩
    · rw [hheader, hk.counts.numPuts]
      exact u64_of_lt (Nat.lt_of_le_of_lt hputs hlt)
    · rw [hheader, hk.counts.numDeletes]
      exact u64_of_lt (Nat.lt_of_le_of_lt hdeletes hlt')
  refine ⟨hheader ▸ hk.counts.numPuts, hheader ▸ hk.counts.numDeletes, hput, hdelete, htells, ?_, ?_⟩
  · intro log hopen
    rw [hfd] at hopen
    obtain ⟨blocks, hc⟩ := carries_of_flush hw hz hfl hopen
    exact ⟨hheader ▸ (hk.open hf hopen).2.1, blocks, hc.chain, hc.cut.flatten⟩
  · intro hu
    have hend := dataEnd_of_plain hw hu hfl
    have hlt := hf.dataEnd_lt
    have hpieces := length_pieces (entriesOf calls)
    have hall := htells (by omega) (by omega)
    have hload := hk.loadLogheader hf
    have hnumPuts := hall.numPuts
    have hnumDeletes := hall.numDeletes
    rw [hheader] at hnumPuts hnumDeletes
    rw [countPuts] at hnumPuts
    rw [countDeletes] at hnumDeletes
    rw [if_neg (by omega)] at hload
    obtain ⟨log, hopen⟩ := hf.exists_open hload
    refine ⟨hall, ?_, log, hfd ▸ hopen, tiles_of_flush hw hu hfl hopen⟩
    rw [hall.putSize, hall.deleteSize, hheader, hend, hpieces, Nat.add_assoc]

omit [Compressors] in
theorem counters_of_writing_sample :
    letI := literalCompressors
    ∃ w' : Logwriter, w'.header.numPuts = 3 ∧ w'.header.numDeletes = 1 ∧ w'.header.putSize = 29 ∧
      w'.header.deleteSize = 3 := by
  let := literalCompressors
  obtain ⟨w, w', log, hw, hclose, -⟩ := exists_of_writeAndOpen sampleEnv .snappy 10 sampleCalls
    (by decide) (by decide +kernel)
  obtain ⟨hputs, hdeletes, hput, hdelete, -⟩ :=
    counters_of_writing hw (fun _ => lossless_snappyLiteral) (.inr hclose)
  refine ⟨w', hputs.trans (by decide), hdeletes.trans (by decide), hput.trans (by decide),
    hdelete.trans (by decide)⟩

/-! ### More than a word counts -/

theorem Packing.add_of_room {s : Setting} {p q : Packing} {e : Entry}
    (hu : usesCompressor s.compressionType = true) (hroom : p.makeRoom s e = some q)
    (hle : q.block.length + e.bytes.length ≤ s.compressionBlockSize) :
    p.add s e = some { q with
      block := q.block ++ e.bytes, entryCount := q.entryCount + 1, flushed := false } := by
  have hbytes : e.bytes = writeVlq e.num1 ++ (writeVlq e.num2 ++ (e.data1 ++ e.data2)) := by
    rw [Entry.bytes, Entry.header, ← e.data1_append_data2, List.append_assoc]
  have hlen := congrArg List.length hbytes
  simp only [List.length_append] at hlen
  rw [Packing.add, if_pos hu, hroom, Option.bind_some, Packing.fill_fits, Option.bind_some,
    Packing.fill_fits, Option.bind_some, Packing.fill_fits, Option.bind_some, Packing.fill_fits,
    Option.bind_some, Packing.endEntry, if_neg (fun h => Bool.false_ne_true h.1), hbytes]
  · simp only [List.append_assoc]
    rfl
  all_goals
    simp only [Packing.enter, List.length_append]
    omega

def emptyPut : Entry := .put (.of []) (.of [])

def manyPuts (m : Nat) : List Call := List.replicate m (.add emptyPut)

omit [Compressors] in
theorem entriesOf_manyPuts (m : Nat) : entriesOf (manyPuts m) = List.replicate m emptyPut := by
  have hsome : Call.entry? (.add emptyPut) = some emptyPut := rfl
  rw [entriesOf, manyPuts, List.filterMap_replicate_of_some hsome]

omit [Compressors] in
theorem sizeOfType_manyPuts (m : Nat) : sizeOfType .put (entriesOf (manyPuts m)) = 2 * m := by
  rw [entriesOf_manyPuts, sizeOfType, List.filter_replicate, if_pos (by decide), List.map_replicate,
    List.sum_replicate_nat, Nat.mul_comm]
  rfl

omit [Compressors] in
theorem flushBlock_emptyPuts {p : Packing} (hp : p.block = (List.replicate 104 [1, 0]).flatten) :
    letI := copiesCompressors
    p.flushBlock (.of .snappy 208)
      = some ⟨p.out ++ frame emptyPutsStream, [], true, 0, p.peak⟩ := by
  let := copiesCompressors
  have hc : Setting.compress (.of .snappy 208) p.block = some emptyPutsStream :=
    if_pos ⟨hp, by decide⟩
  rw [Packing.flushBlock, hc]
  rfl

omit [Compressors] in
/-- 104 of them are a block of 208 bytes, which takes up 18 in the log. -/
theorem pack_manyPuts (m : Nat) :
    letI := copiesCompressors
    ∃ p q r, pack (.of .snappy 208) (manyPuts m) = some p ∧ m = 104 * q + r ∧ r ≤ 104 ∧
      p.block = (List.replicate r [1, 0]).flatten ∧ p.out.length = 18 * q := by
  let := copiesCompressors
  induction m with
  | zero => exact ⟨.init, 0, 0, rfl, rfl, Nat.zero_le _, rfl, rfl⟩
  | succ m ih =>
    obtain ⟨p, q, r, hp, hm, hr, hblock, hout⟩ := ih
    have hlen : p.block.length = 2 * r := by
      rw [hblock, List.length_flatten, List.map_replicate, List.sum_replicate_nat, Nat.mul_comm]
      rfl
    have hnext : ∀ p', p.add (.of .snappy 208) emptyPut = some p' →
        pack (.of .snappy 208) (manyPuts (m + 1)) = some p' := by
      intro p' hp'
      rw [manyPuts, List.replicate_succ', pack_append, ← manyPuts, hp]
      exact hp'
    by_cases hfull : r = 104
    · -- the block is full, so it is closed first
      subst hfull
      refine ⟨_, q + 1, 1, hnext _ (Packing.add_of_room (q :=
        ⟨p.out ++ frame emptyPutsStream, [], true, 0, p.peak⟩) rfl ?_ ?_), by omega, by omega, rfl, ?_⟩
      · rw [Packing.makeRoom, if_pos]
        · exact flushBlock_emptyPuts hblock
        · left
          show 208 - p.block.length < 2
          omega
      · show 0 + 2 ≤ 208
        decide
      · rw [List.length_append, hout]
        show 18 * q + 18 = _
        omega
    · refine ⟨_, q, r + 1, hnext _ (Packing.add_of_room (q := p) rfl ?_ ?_), by omega, by omega, ?_,
        hout⟩
      · rw [Packing.makeRoom, if_neg]
        show ¬ (208 - p.block.length < 2 ∨ (2 ≤ 208 ∧ 208 - p.block.length < 2))
        omega
      · show p.block.length + 2 ≤ 208
        omega
      · rw [hblock, List.replicate_succ', List.flatten_append]
        rfl

omit [Compressors] in
/-- So many puts have more bytes than a 64-bit word can count, and fit in a file. -/
theorem putSize_of_manyPuts :
    letI := copiesCompressors
    (Setting.of .snappy 208).Lossless ∧
    ∃ w w', Writing .snappy 208 (manyPuts (104 * 2 ^ 57)) w ∧ logwriterFlush.run w = .ok () w' ∧
      w'.header.putSize ≠ sizeOfType .put (entriesOf (manyPuts (104 * 2 ^ 57))) := by
  let := copiesCompressors
  refine ⟨fun _ => lossless_snappyCopies, ?_⟩
  obtain ⟨m, hm⟩ : ∃ m, m = 2 ^ 57 := ⟨_, rfl⟩
  rw [← hm]
  obtain ⟨p, q, r, hp, hmq, hr, hblock, hout⟩ := pack_manyPuts (104 * m)
  have hmax : maxFileSize = 2 ^ 63 - 1 := rfl
  have h84 : logHeaderSize = 84 := rfl
  have hroom : p.Fits := by
    rw [Packing.Fits, hout]
    omega
  obtain ⟨w, hw, hwilling⟩ := exists_writing (t := .snappy) (n := 208) (by decide) (by decide) (by
    intro c hc
    rw [List.eq_of_mem_replicate hc]
    intro h
    cases h) hp hroom
  obtain ⟨hk, hpack⟩ := kept_of_writing hw
  cases hp.symm.trans hpack
  -- the last block is full
  obtain ⟨p', hflush, hout'⟩ : ∃ p', w.packing.flush (.of .snappy 208) = some p' ∧
      p'.out.length ≤ 18 * q + 18 := by
    by_cases hr0 : r = 0
    · refine ⟨w.packing, ?_, by omega⟩
      rw [Packing.flush, hblock, hr0, if_neg (by decide)]
    · have hr104 : r = 104 := by omega
      rw [hr104] at hblock
      refine ⟨_, (if_pos ?_).trans (flushBlock_emptyPuts hblock), ?_⟩
      · rw [hblock]
        exact List.length_pos_iff.mpr (List.cons_ne_nil _ _)
      · rw [List.length_append, hout]
        exact Nat.le_refl _
  rw [← hk.setting] at hflush
  obtain ⟨_, w', hfl, -⟩ := hwilling.run_logwriterFlush hk.writable hflush (by
    rw [Packing.Fits]
    omega)
  refine ⟨w, w', hw, hfl, ?_⟩
  obtain ⟨hput, -⟩ := putSize_of_writing (hw.flush hfl)
  rw [hput, entriesOf_flush, sizeOfType_manyPuts]
  have hlt := u64_lt (2 * (104 * m))
  omega

end Sparkey
