import Sparkey.Reader.Seek
import Sparkey.Writer.History

/-!
# What is written is what is read

The file a flush leaves behind is one whose blocks are those of the packing, so a
reader opened on it holds the entries of the calls (`Flushed.holds`).  The loop that
`sparkey.h` gives for going through a log then shows every entry once, in order, and
ends with the iterator closed (`dump_of_writing`).
-/

namespace Sparkey

open Program BlockStream

/-! ### The loop over a log -/

structure Shown where
  type : EntryType
  keylen : Nat
  valuelen : Nat
  key : List UInt8
  value : List UInt8
  deriving DecidableEq

/-- What an iterator should show of an entry. -/
def Entry.shown (e : Entry) : Shown := ⟨e.type, e.key.length, e.value.length, e.key, e.value⟩

section Loop

variable [Compressors]

/-- The rounds of the loop of `sparkey.h`, with `keybuf` and `valuebuf` collected.  It breaks as
soon as the iterator is not active. -/
def dump (log : Logreader) : Nat → Run Logiter (List Shown)
  | 0 => stuck
  | fuel + 1 => do
    logiterNext log
    let iter ← get
    if iter.state ≠ .active then
      return []
    let key ← logiterFillKey log iter.keylen
    let value ← logiterFillValue log iter.valuelen
    let rest ← dump log fuel
    pure (⟨iter.type, iter.keylen, iter.valuelen, key, value⟩ :: rest)

/-- **Going through the entries an iterator is before.** -/
theorem run_dump {log : Logreader} (hl : log.Opened) : ∀ (items : List (Item Entry))
    {fuel : Nat} {iter : Logiter}, items.length < fuel → Before log iter items →
    ∃ iter', (dump log fuel).run iter = .ok (items.map fun it => it.val.shown) iter' ∧
      iter'.state = .closed ∧ Usable log iter' := by
  intro items
  induction items with
  | nil =>
    intro fuel iter hf hb
    obtain ⟨fuel, rfl⟩ := Nat.exists_eq_succ_of_ne_zero (Nat.ne_zero_of_lt hf)
    obtain ⟨iter', hrun, hs, ho, hc⟩ := run_logiterNext_end hl hb
    refine ⟨iter', ?_, hs, ho, hc⟩
    have hne : iter'.state ≠ .active := by
      rw [hs]
      decide
    simp only [dump, EStateM.run_bind, hrun, EStateM.run_get, if_pos hne, EStateM.run_pure,
      List.map_nil]
  | cons item items ih =>
    intro fuel iter hf hb
    obtain ⟨fuel, rfl⟩ := Nat.exists_eq_succ_of_ne_zero (Nat.ne_zero_of_lt hf)
    obtain ⟨iter₁, hrun₁, h₁, -⟩ := run_logiterNext_item hl hb
    obtain ⟨iter₂, hrun₂, h₂⟩ := run_logiterFillKey hl h₁ item.val.key.length
    obtain ⟨iter₃, key, hrun₃, h₃⟩ := run_logiterFillValue hl h₂ item.val.value.length
    obtain ⟨iter', hrun', hs, hu⟩ := ih (Nat.lt_of_succ_lt_succ hf) h₃.before
    refine ⟨iter', ?_, hs, hu⟩
    have hstate : ¬ iter₁.state ≠ .active := not_not_intro h₁.state
    rw [List.take_length] at hrun₂ hrun₃
    simp only [dump, EStateM.run_bind, hrun₁, EStateM.run_get, if_neg hstate, hrun₂, hrun₃, hrun',
      EStateM.run_pure, List.map_cons, Entry.shown, h₁.type, h₁.keylen, h₁.valuelen]

end Loop

/-! ### The blocks of a flushed file -/

section Written

variable [Compressors] {w w' : Logwriter} {s : Setting} {es : List Entry}
  {items : List (Item Entry)} {log : Logreader}

/-- The reader of a log that has been flushed, where the loader takes its header. -/
def Logwriter.reader (w : Logwriter) : Logreader where
  openStatus := magicValueLogreader
  header := w.header
  dataLen := w.header.dataEnd
  data := w.fd.data

theorem Kept.opened_reader (hk : Kept s es w) (hf : Flushed w) : w.reader.Opened :=
  ⟨rfl, rfl, hf.dataEnd.symm, hk.current.headerSize⟩

theorem Kept.eq_reader (hk : Kept s es w) (hf : Flushed w)
    (h : logreaderOpen (some w.fd.data) = .ok log) : log = w.reader := by
  have hload := loadLogheader_bytes (hk.fits hf.dataEnd_lt) hk.current w.packing.out
  rw [← hf.data] at hload
  unfold logreaderOpen at h
  rw [hload] at h
  split_ifs at h with hbad
  simp only at h
  split_ifs at h with hlen
  cases h
  have hdata : w.fd.data.take w.header.dataEnd = w.fd.data :=
    List.take_of_length_le (Nat.le_of_eq hf.dataEnd.symm)
  rw [Option.getD_some, hdata]
  rfl

theorem Kept.open (hk : Kept s es w) (hf : Flushed w)
    (h : logreaderOpen (some w.fd.data) = .ok log) :
    log.Opened ∧ log.header = w.header ∧ log.data = w.fd.data := by
  rw [hk.eq_reader hf h]
  exact ⟨hk.opened_reader hf, rfl, rfl⟩

theorem Framed.blockAt {t : Nat × List UInt8 × Nat} {out : List UInt8} {header : Logheader}
    (h : Framed s out t) (hs : log.header.setting = s) (hdata : log.data = header.bytes ++ out)
    (hu : usesCompressor s.compressionType = true)
    (hz : (sparkeyCompressors s.compressionType).Lossless) : log.BlockAt t.1 t.2.1 t.2.2 := by
  subst hs
  obtain ⟨pre, compressed, post, rfl, hcomp, hle, hpos, hnext⟩ := h
  have hlt : compressed.length < 2 ^ 32 := Nat.lt_of_le_of_lt
    (Compressor.compress_le _ hcomp) (Compressor.maxCompressedSize_lt _ _)
  have hsplit : log.data
      = header.bytes ++ pre ++ writeVlq compressed.length ++ (compressed ++ post) := by
    rw [hdata, frame]
    simp only [List.append_assoc]
  have hlen : (header.bytes ++ pre).length = t.1 := by
    rw [List.length_append, Logheader.length_bytes, hpos]
  have hread := readVlq_writeVlq (Nat.lt_trans hlt (by decide)) (header.bytes ++ pre)
    (compressed ++ post)
  rw [← List.append_assoc (header.bytes ++ pre), ← hsplit, hlen] at hread
  have hpre : (header.bytes ++ pre ++ writeVlq compressed.length).length
      = t.1 + (writeVlq compressed.length).length := by
    rw [List.length_append, hlen]
  refine (Logreader.blockAt_compressed hu).mpr ⟨_, _, hread, ?_, ?_, ?_⟩
  · rw [u32_of_lt hlt, hnext, frame, List.length_append, Nat.add_assoc]
  · rw [hnext, hsplit, frame]
    simp only [List.length_append] at hpre ⊢
    omega
  · rw [u32_of_lt hlt, hsplit, ← hpre, List.drop_left, List.take_left]
    exact hz _ _ _ hcomp _ hle

/-- A compressor that gives back what it was given. -/
def Setting.Lossless (s : Setting) : Prop :=
  usesCompressor s.compressionType = true → (sparkeyCompressors s.compressionType).Lossless

/-- **A log that begins with the bytes of a packing** has its entries first.  What comes behind
them starts at a block. -/
theorem Packing.Spelled.path {p : Packing} {out : List UInt8} {header : Logheader}
    (hsp : p.Spelled s items) (hb : p.block = []) (hset : log.header.setting = s)
    (hdata : log.data = header.bytes ++ out) (hpre : p.out <+: out) (hz : s.Lossless) :
    ∃ c, Path log.source Entry.header Entry.body firstCursor items c ∧
      (c.cur = [] ∧ c.next = logHeaderSize + p.out.length ∨
        log.BlockAt (logHeaderSize + p.out.length) c.cur c.next ∧
          c = .start (logHeaderSize + p.out.length) c.cur c.next) := by
  have htype : log.header.compressionType = s.compressionType := by
    rw [← hset]
    rfl
  obtain ⟨rest, rfl⟩ := hpre
  have hlen : log.data.length = logHeaderSize + p.out.length + rest.length := by
    rw [hdata, List.length_append, List.length_append, Logheader.length_bytes, Nat.add_assoc]
  unfold Packing.Spelled at hsp
  by_cases hu : usesCompressor s.compressionType = true
  · -- a file of compressed blocks
    rw [if_pos hu] at hsp
    obtain ⟨d, hlaid, hspells, -⟩ := hsp
    have hcov : d.Covers log.source := fun t ht =>
      ((hlaid.blocks t ht).append rest).blockAt hset hdata hu (hz hu)
    have hmoves : log.source.moves = false := by
      show (!usesCompressor log.header.compressionType) = false
      rw [htype, hu]
      rfl
    exact ⟨d.last, hspells log.source hmoves hcov d.last (Or.inl ⟨hlaid.data.trans hb, rfl⟩),
      Or.inl ⟨hlaid.tidy.last_cur, hlaid.next⟩⟩
  · -- one run of bytes
    rw [if_neg hu] at hsp
    obtain ⟨-, -, hspells⟩ := hsp
    have hplain : usesCompressor log.header.compressionType = false := by
      rw [htype]
      exact Bool.eq_false_of_not_eq_true hu
    have hmoves : log.source.moves = true := by
      show (!usesCompressor log.header.compressionType) = true
      rw [hplain]
      rfl
    by_cases hout : p.out = []
    · refine ⟨firstCursor, hspells log.source hmoves nofun _ (Or.inl ⟨hout, rfl⟩), Or.inl ⟨rfl, ?_⟩⟩
      rw [hout, List.length_nil, Nat.add_zero]
    · have hpos : 0 < p.out.length := List.length_pos_iff.mpr hout
      have hblock : log.BlockAt logHeaderSize (p.out ++ rest) log.data.length := by
        refine (Logreader.blockAt_plain hplain).mpr ⟨by omega, ?_, rfl⟩
        rw [hdata, ← header.length_bytes, List.drop_left]
      have hcur : (p.out ++ rest).drop p.out.length = rest := List.drop_left
      obtain ⟨c, hc⟩ : ∃ c, c = Cursor.move log.source
        ⟨logHeaderSize, 0, p.out ++ rest, log.data.length⟩ p.out.length := ⟨_, rfl⟩
      have hc' : c = .start (logHeaderSize + p.out.length) rest log.data.length := by
        rw [hc, Cursor.move, if_pos hmoves, hcur]
      refine ⟨c, hspells log.source hmoves nofun c (Or.inr ⟨hout, rest, _, hblock, hc⟩), ?_⟩
      rw [hc']
      by_cases hrest : rest = []
      · refine Or.inl ⟨hrest, ?_⟩
        rw [hlen, hrest, List.length_nil, Nat.add_zero]
      · refine Or.inr ⟨?_, rfl⟩
        have hrest' : 0 < rest.length := List.length_pos_iff.mpr hrest
        refine (Logreader.blockAt_plain hplain).mpr ⟨by omega, ?_, rfl⟩
        rw [hdata, ← List.append_assoc, ← header.length_bytes, ← List.length_append, List.drop_left]

/-- **A flushed file holds the entries of its packing.** -/
theorem Flushed.holds (hf : Flushed w) (hk : Kept s es w) (hsp : w.packing.Spelled s items)
    (hz : s.Lossless) (h : logreaderOpen (some w.fd.data) = .ok log) :
    log.Holds items ∧ log.header = w.header := by
  obtain ⟨hopened, hheader, hdata⟩ := hk.open hf h
  have hset : log.header.setting = s := by
    rw [hheader]
    exact hk.setting
  rw [hf.data] at hdata
  have hlen : log.data.length = logHeaderSize + w.packing.out.length := by
    rw [hdata, List.length_append, Logheader.length_bytes]
  obtain ⟨c, hpath, hplace⟩ := hsp.path hf.block hset hdata (List.prefix_refl _) hz
  refine ⟨⟨hopened, ?_⟩, hheader⟩
  rcases hplace with ⟨hcur, hnext⟩ | ⟨hblock, -⟩
  · exact hpath.to_items hcur (hnext.trans hlen.symm)
  · have h1 := log.source.block_lt hblock
    have h2 : _ ≤ log.data.length := log.source.block_le hblock
    omega

/-! ### Reading a log that was written -/

variable {t : CompressionType} {n : Nat} {calls : List Call}

/-- **A reader of a flushed log** holds the entries the calls added. -/
theorem holds_of_flush (hw : Writing t n calls w)
    (hfit : ∀ e ∈ entriesOf calls, HeadFits (.of t n) e) (hz : (Setting.of t n).Lossless)
    (hfl : logwriterFlush.run w = .ok () w') (h : logreaderOpen (some w'.fd.data) = .ok log) :
    ∃ items, log.Holds items ∧ items.map Item.val = entriesOf calls ∧ log.header = w'.header ∧
      w'.packing.Spelled (.of t n) items ∧ Kept (.of t n) (entriesOf calls) w' ∧ Flushed w' := by
  obtain ⟨hk, hp⟩ := kept_of_writing hw
  obtain ⟨hk', hf, hp'⟩ := hk.flush hfl
  obtain ⟨items, hsp, hvals⟩ := spelled_pack hfit hp
  have hsp' := (hsp.flush hp').1
  obtain ⟨hl, hheader⟩ := hf.holds hk' hsp' hz h
  exact ⟨items, hl, hvals, hheader, hsp', hk', hf⟩

structure Logged (log : Logreader) (items : List (Item Entry)) : Prop
    extends log.Holds items where
  counts : log.header.Counts (items.map Item.val)
  idx_lt : ∀ it ∈ items, it.idx < max 1 log.header.maxEntriesPerBlock
  maxEntriesPerBlock_lt : log.header.maxEntriesPerBlock < 2 ^ 30
  dataEnd_lt : log.header.dataEnd < 2 ^ 63

/-- **A reader of a flushed file** can be indexed. -/
theorem Flushed.logged (hf : Flushed w) (hk : Kept s es w) (hsp : w.packing.Spelled s items)
    (hvals : items.map Item.val = es) (hz : s.Lossless)
    (h : logreaderOpen (some w.fd.data) = .ok log) : Logged log items := by
  obtain ⟨hl, hheader⟩ := hf.holds hk hsp hz h
  have hpeak := hsp.peak_le
  have hbs := hk.blockSize_lt
  have hmax : w.header.maxEntriesPerBlock ≤ w.packing.peak := Nat.le_max_left _ _
  refine ⟨hl, ?_, ?_, ?_, ?_⟩
  · rw [hheader, hvals]
    exact hk.counts
  · unfold Packing.Spelled at hsp
    by_cases hu : usesCompressor s.compressionType = true
    · -- no block is open, so the counter has the largest number
      rw [if_pos hu] at hsp
      obtain ⟨d, -, -, hcount, hstarts, -⟩ := hsp
      rw [hf.block, List.length_nil] at hcount
      have h0 : w.packing.entryCount = 0 := by omega
      have hpk : w.packing.peak = w.header.maxEntriesPerBlock := by
        rw [Packing.peak, h0]
        exact Nat.max_zero _
      intro it hit
      have := idx_lt_maxStarts hit
      rw [hheader]
      omega
    · have hmoves : log.source.moves = true := by
        have htype : log.header.compressionType = s.compressionType := by
          rw [hheader, ← hk.setting]
          rfl
        show (!usesCompressor log.header.compressionType) = true
        rw [htype, Bool.eq_false_of_not_eq_true hu]
        rfl
      intro it hit
      rw [hl.entries.idx_eq_zero hmoves rfl it hit]
      omega
  · rw [hheader]
    omega
  · rw [hheader]
    exact hf.dataEnd_lt

/-- **A reader of a flushed log** can be indexed. -/
theorem logged_of_flush (hw : Writing t n calls w)
    (hfit : ∀ e ∈ entriesOf calls, HeadFits (.of t n) e) (hz : (Setting.of t n).Lossless)
    (hfl : logwriterFlush.run w = .ok () w') (h : logreaderOpen (some w'.fd.data) = .ok log) :
    ∃ items, Logged log items ∧ items.map Item.val = entriesOf calls := by
  obtain ⟨items, -, hvals, -, hsp, hk, hf⟩ := holds_of_flush hw hfit hz hfl h
  exact ⟨items, hf.logged hk hsp hvals hz h, hvals⟩

/-- A reader of a closed log holds the entries the calls added. -/
theorem holds_of_close (hw : Writing t n calls w)
    (hfit : ∀ e ∈ entriesOf calls, HeadFits (.of t n) e) (hz : (Setting.of t n).Lossless)
    (hclose : logwriterClose.run w = .ok () w') (hopen : logreaderOpen (some w'.fd.data) = .ok log) :
    ∃ items, log.Holds items ∧ items.map Item.val = entriesOf calls := by
  obtain ⟨w₁, hfl, rfl⟩ := ok_logwriterClose (kept_of_writing hw).1.writable hclose
  obtain ⟨items, hl, hvals, -⟩ := holds_of_flush hw hfit hz hfl hopen
  exact ⟨items, hl, hvals⟩

/-- **The loop over a log** shows its entries and closes the iterator. -/
theorem Logreader.Holds.exists_dump {items : List (Item Entry)} {es : List Entry} (hl : log.Holds items)
    (hvals : items.map Item.val = es) (unset : Logiter) {fuel : Nat} (hfuel : es.length < fuel) :
    ∃ iter iter', logiterCreate unset log = .ok iter ∧
      (dump log fuel).run iter = .ok (es.map Entry.shown) iter' ∧ iter'.state = .closed := by
  obtain ⟨iter, hiter⟩ := logiterCreate_ok hl.toOpened unset
  have hlen : items.length < fuel := by
    rwa [← hvals, List.length_map] at hfuel
  obtain ⟨iter', hrun, hs, -⟩ := run_dump hl.toOpened items hlen (logiterCreate_before hl hiter)
  refine ⟨iter, iter', hiter, ?_, hs⟩
  rw [hrun, ← hvals, List.map_map]
  rfl

/-- **Round trip**: the loop over a log that was written and closed shows the entries that were
added, in order, and closes the iterator. -/
theorem dump_of_writing (hw : Writing t n calls w)
    (hfit : ∀ e ∈ entriesOf calls, HeadFits (.of t n) e) (hz : (Setting.of t n).Lossless)
    (hclose : logwriterClose.run w = .ok () w')
    (hopen : logreaderOpen (some w'.fd.data) = .ok log) (unset : Logiter) {fuel : Nat}
    (hfuel : (entriesOf calls).length < fuel) :
    ∃ iter iter', logiterCreate unset log = .ok iter ∧
      (dump log fuel).run iter = .ok ((entriesOf calls).map Entry.shown) iter' ∧
      iter'.state = .closed := by
  obtain ⟨items, hl, hvals⟩ := holds_of_close hw hfit hz hclose hopen
  exact hl.exists_dump hvals unset hfuel

/-! ### A log to look at -/

def writeAndOpen (env : WriterEnv) (t : CompressionType) (n : Nat) (calls : List Call) :
    Option Logreader :=
  (writeLog env t n calls).bind fun w =>
    match logwriterClose.run w with
    | .ok _ w' => (logreaderOpen (some w'.fd.data)).toOption
    | .error _ _ => none

theorem exists_of_writeAndOpen (env : WriterEnv) (t : CompressionType) (n : Nat)
    (calls : List Call) (hlt : n < 2 ^ 31)
    (h : (writeAndOpen env t n calls).isSome = true) :
    ∃ w w' log, Writing t n calls w ∧ logwriterClose.run w = .ok () w' ∧
      logreaderOpen (some w'.fd.data) = .ok log ∧ writeAndOpen env t n calls = some log := by
  obtain ⟨log, hlog⟩ := Option.isSome_iff_exists.mp h
  obtain ⟨w, hw, hlog'⟩ := Option.bind_eq_some_iff.mp hlog
  split at hlog'
  · rename_i w' hclose
    exact ⟨w, w', log, writing_of_writeLog hlt hw, hclose, ok_of_toOption hlog', hlog⟩
  · cases hlog'

end Written

abbrev Blob.of (bytes : List UInt8)
    (h : decide (bytes.length < 2 ^ 63) = true := by exact (rfl : true = true)) : Blob :=
  ⟨bytes, of_decide_eq_true h⟩

def sampleEnv : WriterEnv := ⟨some 7, [.wrote 3, .failed .eintr], []⟩

def sampleCalls : List Call :=
  [.add (.put (.of [1]) (.of [2, 3])), .flush,
    .add (.put (.of [5]) (.of [0, 1, 2, 3, 4, 5, 6, 7, 8, 9, 10, 11, 12, 13, 14, 15, 16, 17, 18])),
    .reopen, .add (.delete (.of [1])), .add (.put (.of []) (.of []))]

def zeroLogiter : Logiter where
  openStatus := 0
  fileIdentifier := 0
  blockPosition := 0
  nextBlockPosition := 0
  blockOffset := 0
  blockLen := 0
  entryCount := 0
  compressionBuf := []
  entryBlockPosition := 0
  entryBlockOffset := 0
  type := .put
  state := .new
  keylen := 0
  valuelen := 0
  keyRemaining := 0
  valueRemaining := 0

theorem headFits_sampleCalls : ∀ e ∈ entriesOf sampleCalls, HeadFits (.of .snappy 10) e := by
  have h : ∀ e ∈ entriesOf sampleCalls, e.header.length ≤ 10 := by decide
  exact fun e he _ => h e he

theorem dump_of_writing_sample :
    letI := literalCompressors
    ∃ log iter iter', logiterCreate zeroLogiter log = .ok iter ∧
      (dump log 5).run iter = .ok [
        ⟨.put, 1, 2, [1], [2, 3]⟩,
        ⟨.put, 1, 19, [5], [0, 1, 2, 3, 4, 5, 6, 7, 8, 9, 10, 11, 12, 13, 14, 15, 16, 17, 18]⟩,
        ⟨.delete, 1, 0, [1], []⟩, ⟨.put, 0, 0, [], []⟩] iter' ∧
      iter'.state = .closed := by
  let := literalCompressors
  obtain ⟨w, w', log, hw, hclose, hopen, -⟩ := exists_of_writeAndOpen sampleEnv .snappy 10
    sampleCalls (by decide) (by decide +kernel)
  exact ⟨log, dump_of_writing hw headFits_sampleCalls (fun _ => lossless_snappyLiteral) hclose hopen
    zeroLogiter (by decide)⟩

end Sparkey
