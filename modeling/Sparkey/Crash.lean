import Sparkey.Roundtrip
import Sparkey.Writer.Torn

/-!
# Sessions that are cut off

A session may end anywhere, between two calls or in the middle of one, and leaves the
file as its last `write` made it.  The next session begins with the header it finds there.
`Underway` is what such a file and its writer keep: in front of the end that the header tells
there are the entries `shown`, and the writer has `added` some more behind it.

`Sessions` are any number of them one after the other.  Whatever happens, a reader finds
the entries that were there when a session began, and those the session had added if the
new end of the data is written (`dump_of_sessions`).
-/

namespace Sparkey

open Program BlockStream

/-! ### The largest number of entries -/

/-- The packings differ in nothing but the largest number of entries in a block. -/
def Packing.Same (p q : Packing) : Prop := ∃ m, q = { p with maxEntriesPerBlock := m }

section Same

variable [Compressors] {s : Setting} {p p' q : Packing} {e : Entry}

theorem Packing.Same.flushBlock (h : p.Same q) (hp : p.flushBlock s = some p') :
    ∃ q', q.flushBlock s = some q' ∧ p'.Same q' := by
  obtain ⟨m, rfl⟩ := h
  obtain ⟨compressed, hc, rfl⟩ := Packing.flushBlock_eq hp
  refine ⟨⟨p.out ++ frame compressed, [], true, 0, max m p.entryCount⟩, ?_, _, rfl⟩
  rw [Packing.flushBlock, hc]
  rfl

theorem Packing.Same.flushIf {c d : Prop} [Decidable c] [Decidable d] (hcd : c ↔ d) (h : p.Same q)
    (hp : (if c then p.flushBlock s else some p) = some p') :
    ∃ q', (if d then q.flushBlock s else some q) = some q' ∧ p'.Same q' := by
  by_cases hc : c
  · rw [if_pos hc] at hp
    rw [if_pos (hcd.mp hc)]
    exact h.flushBlock hp
  · rw [if_neg hc] at hp
    rw [if_neg (mt hcd.mpr hc)]
    cases hp
    exact ⟨q, rfl, h⟩

theorem Packing.Same.fillLoop : ∀ (fuel : Nat) {data : List UInt8} {p p' q : Packing}, p.Same q →
    Packing.fillLoop s fuel data p = some p' →
    ∃ q', Packing.fillLoop s fuel data q = some q' ∧ p'.Same q' := by
  intro fuel
  induction fuel with
  | zero =>
    intro data p p' q _ hp
    cases hp
  | succ fuel ih =>
    rintro data p p' _ ⟨m, rfl⟩ hp
    rw [Packing.fillLoop] at hp ⊢
    by_cases hfits : data.length ≤ s.compressionBlockSize - p.block.length
    · rw [if_pos hfits] at hp ⊢
      cases hp
      exact ⟨_, rfl, m, rfl⟩
    · rw [if_neg hfits] at hp ⊢
      obtain ⟨p₁, hp₁, hp⟩ := Option.bind_eq_some_iff.mp hp
      obtain ⟨q₁, hq₁, h₁⟩ := Packing.Same.flushBlock (q := { p with
        block := p.block ++ data.take (s.compressionBlockSize - p.block.length)
        maxEntriesPerBlock := m }) ⟨m, rfl⟩ hp₁
      obtain ⟨q', hq', h'⟩ := ih h₁ hp
      exact ⟨q', Option.bind_eq_some_iff.mpr ⟨q₁, hq₁, hq'⟩, h'⟩

theorem Packing.Same.add (h : p.Same q) (hp : p.add s e = some p') :
    ∃ q', q.add s e = some q' ∧ p'.Same q' := by
  rw [Packing.add] at hp ⊢
  by_cases hu : usesCompressor s.compressionType = true
  · rw [if_pos hu] at hp ⊢
    obtain ⟨p₁, hp₁, hp⟩ := Option.bind_eq_some_iff.mp hp
    obtain ⟨p₂, hp₂, hp⟩ := Option.bind_eq_some_iff.mp hp
    obtain ⟨p₃, hp₃, hp⟩ := Option.bind_eq_some_iff.mp hp
    obtain ⟨p₄, hp₄, hp⟩ := Option.bind_eq_some_iff.mp hp
    obtain ⟨p₅, hp₅, hp⟩ := Option.bind_eq_some_iff.mp hp
    have hblock : ∀ {p q : Packing}, p.Same q → p.block = q.block ∧ p.flushed = q.flushed := by
      rintro p _ ⟨m, rfl⟩
      exact ⟨rfl, rfl⟩
    obtain ⟨q₁, hq₁, h₁⟩ := h.flushIf (by rw [(hblock h).1]) hp₁
    have henter : p₁.enter.Same q₁.enter := by
      obtain ⟨m, rfl⟩ := h₁
      exact ⟨m, rfl⟩
    obtain ⟨q₂, hq₂, h₂⟩ := henter.fillLoop _ hp₂
    obtain ⟨q₃, hq₃, h₃⟩ := h₂.fillLoop _ hp₃
    obtain ⟨q₄, hq₄, h₄⟩ := h₃.fillLoop _ hp₄
    obtain ⟨q₅, hq₅, h₅⟩ := h₄.fillLoop _ hp₅
    obtain ⟨q', hq', h'⟩ := h₅.flushIf (by rw [(hblock h₅).1, (hblock h₅).2]) hp
    refine ⟨q', ?_, h'⟩
    refine Option.bind_eq_some_iff.mpr ⟨q₁, hq₁, Option.bind_eq_some_iff.mpr ⟨q₂, hq₂, ?_⟩⟩
    refine Option.bind_eq_some_iff.mpr ⟨q₃, hq₃, Option.bind_eq_some_iff.mpr ⟨q₄, hq₄, ?_⟩⟩
    exact Option.bind_eq_some_iff.mpr ⟨q₅, hq₅, hq'⟩
  · rw [if_neg hu] at hp ⊢
    obtain ⟨m, rfl⟩ := h
    cases hp
    exact ⟨_, rfl, m, rfl⟩

theorem Packing.Same.flush (h : p.Same q) (hp : p.flush s = some p') :
    ∃ q', q.flush s = some q' ∧ p'.Same q' := by
  refine h.flushIf ?_ hp
  obtain ⟨m, rfl⟩ := h
  exact Iff.rfl

end Same

/-! ### What a file holds -/

section Holding

variable [Compressors] {s : Setting} {es : List Entry} {header : Logheader}
  {data : List UInt8} {log : Logreader}

structure Logheader.Proper (s : Setting) (header : Logheader) : Prop where
  setting : header.setting = s
  fits : header.Fits
  current : header.Current
  maxEntriesPerBlock_le : header.maxEntriesPerBlock ≤ s.compressionBlockSize + 1
  dataEnd_lt : header.dataEnd < 2 ^ 63

omit [Compressors] in
theorem Logheader.Proper.torn {new old : Logheader} (hnew : new.Proper s) (hold : old.Proper s)
    (j : Nat) : (new.torn old j).Proper s := by
  refine ⟨?_, hnew.fits.torn hold.fits j, hnew.current.torn hold.current j, ?_, ?_⟩
  · exact (Logheader.setting_torn (hnew.setting.trans hold.setting.symm) j).trans hold.setting
  · show (if _ then _ else _) ≤ _
    split_ifs
    · exact hnew.maxEntriesPerBlock_le
    · exact hold.maxEntriesPerBlock_le
  · show (if _ then _ else _) < _
    split_ifs
    · exact hnew.dataEnd_lt
    · exact hold.dataEnd_lt

/-- In front of the end its header tells, the file has these entries. -/
structure Holding (s : Setting) (es : List Entry) (header : Logheader) (data : List UInt8) : Prop
    extends header.Proper s where
  entries : ∃ (p : Packing) (items : List (Item Entry)), p.Spelled s items ∧
    items.map Item.val = es ∧ p.block = [] ∧ header.dataEnd = logHeaderSize + p.out.length ∧
    header.bytes ++ p.out <+: data

/-- The file is longer than the header tells, at least not shorter. -/
theorem Holding.dataEnd_le (h : Holding s es header data) : header.dataEnd ≤ data.length := by
  obtain ⟨p, items, -, -, -, hend, hpre⟩ := h.entries
  have := hpre.length_le
  rw [List.length_append, Logheader.length_bytes] at this
  omega

theorem Holding.of_take (h : Holding s es header data) {data' : List UInt8}
    (hpre : data.take header.dataEnd <+: data') : Holding s es header data' := by
  obtain ⟨p, items, hsp, hvals, hb, hend, hfront⟩ := h.entries
  refine ⟨h.toProper, p, items, hsp, hvals, hb, hend, List.IsPrefix.trans ?_ hpre⟩
  obtain ⟨rest, rfl⟩ := hfront
  have hlen : (header.bytes ++ p.out).length = header.dataEnd := by
    rw [List.length_append, Logheader.length_bytes, hend]
  rw [← hlen, List.take_left]

theorem Holding.mono (h : Holding s es header data) {data' : List UInt8} (hpre : data <+: data') :
    Holding s es header data' := h.of_take ((List.take_prefix _ _).trans hpre)

theorem Holding.loadLogheader (h : Holding s es header data) :
    loadLogheader (some data)
      = if header.dataEnd < header.numPuts ∨ header.dataEnd < header.numDeletes then
          .error .logHeaderCorrupt else .ok header := by
  obtain ⟨p, items, -, -, -, hend, rest, rfl⟩ := h.entries
  rw [List.append_assoc, loadLogheader_bytes h.fits h.current]
  have hle : ¬ header.dataEnd < logHeaderSize := by omega
  simp only [hle, false_or]

/-- **A reader of the file** finds the entries. -/
theorem Holding.holds (h : Holding s es header data) (hz : s.Lossless)
    (hopen : logreaderOpen (some data) = .ok log) :
    log.header = header ∧ ∃ items, log.Holds items ∧ items.map Item.val = es := by
  have hload := h.loadLogheader
  rw [logreaderOpen, hload] at hopen
  split_ifs at hopen with hbad
  simp only at hopen
  split_ifs at hopen with hlen
  cases hopen
  obtain ⟨p, items, hsp, hvals, hb, hend, rest, rfl⟩ := h.entries
  have hfront : (header.bytes ++ p.out).length = header.dataEnd := by
    rw [List.length_append, Logheader.length_bytes, hend]
  have hdata : (header.bytes ++ p.out ++ rest).take header.dataEnd = header.bytes ++ p.out := by
    rw [← hfront, List.take_left]
  refine ⟨rfl, items, ⟨⟨rfl, rfl, ?_, h.current.headerSize⟩, ?_⟩, hvals⟩
  · show ((some (header.bytes ++ p.out ++ rest)).getD [] |>.take header.dataEnd).length = _
    rw [Option.getD_some, hdata, hfront]
  obtain ⟨log, hlog⟩ : ∃ log : Logreader, log = ⟨magicValueLogreader, header, header.dataEnd,
      header.bytes ++ p.out⟩ := ⟨_, rfl⟩
  have hreader : log.Entries firstCursor items := by
    have hsetting : log.header.setting = s := by
      rw [hlog]
      exact h.setting
    have hfile : log.data = header.bytes ++ p.out := by rw [hlog]
    obtain ⟨c, hpath, hplace⟩ := hsp.path hb hsetting hfile (List.prefix_refl _) hz
    have hstop : log.data.length = logHeaderSize + p.out.length := by
      rw [hlog, ← hend]
      exact hfront
    rcases hplace with ⟨hcur, hnext⟩ | ⟨hblock, -⟩
    · exact hpath.to_items hcur (hnext.trans hstop.symm)
    · have h1 := log.source.block_lt hblock
      have h2 : _ ≤ log.data.length := log.source.block_le hblock
      omega
  rw [hlog] at hreader
  show Logreader.Entries ⟨_, _, _, ((some (header.bytes ++ p.out ++ rest)).getD []).take header.dataEnd⟩
    firstCursor items
  rw [Option.getD_some, hdata]
  exact hreader

end Holding

/-! ### A session -/

def Logheader.Next (header new : Logheader) : Prop :=
  new = { header with maxEntriesPerBlock := new.maxEntriesPerBlock, dataEnd := new.dataEnd }

theorem Logheader.Fits.count {header : Logheader} (h : header.Fits) (e : Entry) (n : Nat) :
    (header.count e n).Fits := by
  rcases e with ⟨⟨k, hk⟩, ⟨x, hx⟩⟩ | k
  · exact ⟨h.1, u64_lt _, h.3, h.4, max_lt h.5 (Nat.lt_trans hk (by decide)),
      max_lt h.6 (Nat.lt_trans hx (by decide)), h.7, h.8, u64_lt _, h.10⟩
  · exact ⟨h.1, h.2, u64_lt _, h.4, h.5, h.6, u64_lt _, h.8, h.9, h.10⟩

section Session

variable [Compressors] {s : Setting} {old : Logheader} {shown added : List Entry}
  {v v' : Logwriter} {e : Entry} {code : Returncode}

/-- What the writer of a session keeps: the file has the header `old` and in front of its end the
entries `shown`, and the writer has `added` more. -/
structure Underway (s : Setting) (old : Logheader) (shown added : List Entry) (v : Logwriter) : Prop where
  writable : Writable v
  setting : v.header.setting = s
  blockSize_lt : s.compressionBlockSize < 2 ^ 31
  plain : usesCompressor s.compressionType = false → s.compressionBlockSize = 0
  fits : v.header.Fits
  current : v.header.Current
  loose : v.packing.Loose s 0
  whole : ∀ r ∈ v.fd.writes, r.Whole
  dataEnd_eq : old.dataEnd = v.header.dataEnd
  dataEnd_le : v.header.dataEnd ≤ v.fd.offset
  holding : Holding s shown old v.fd.data
  spelled : ∃ (q : Packing) (items : List (Item Entry)), v.packing.Same q ∧ q.Spelled s items ∧
    items.map Item.val = shown ++ added

def Logwriter.front (v : Logwriter) : List UInt8 := v.fd.data.take v.header.dataEnd

theorem Underway.length_front (h : Underway s old shown added v) : v.front.length = v.header.dataEnd := by
  refine List.length_take_of_le ?_
  rw [← h.writable.atEnd.offset]
  exact h.dataEnd_le

theorem Underway.behind (h : Underway s old shown added v) : v.Behind v.front 0 v :=
  ⟨v.fd, h.writable.atEnd.behind (List.take_prefix _ _) (Nat.zero_le _) h.whole, rfl⟩

theorem Underway.kept {x : Run Logwriter Unit} (hs : Underway s old shown added v)
    (hx : Respects (Logwriter.Behind v.front 0) x) (h : x.run v = .ok () v') :
    (∀ r ∈ v'.fd.writes, r.Whole) ∧ v.front <+: v'.fd.data ∧ v.header.dataEnd ≤ v'.fd.offset := by
  obtain ⟨v₁, h₁, fd, hfd, -⟩ := hx.ok_left hs.behind h
  cases h.symm.trans h₁
  have hlen := hfd.front_le
  rw [hs.length_front] at hlen
  exact ⟨hfd.whole, hfd.prefix_data, hlen⟩

theorem Underway.kept_of_error {x : Run Logwriter Unit} (hs : Underway s old shown added v)
    (hx : Respects (Logwriter.Behind v.front 0) x) (h : x.run v = .error (.rc code) v') :
    v.front <+: v'.fd.data := by
  obtain ⟨v₁, h₁, fd, hfd, -⟩ := hx.error_left hs.behind h
  cases h.symm.trans h₁
  exact hfd.prefix_data

theorem Underway.holding_of_front (hs : Underway s old shown added v) {data : List UInt8}
    (hfront : v.front <+: data) : Holding s shown old data := by
  refine hs.holding.of_take ?_
  rw [hs.dataEnd_eq]
  exact hfront

/-- **Adding an entry** keeps what the file shows. -/
theorem Underway.add (hs : Underway s old shown added v) (hfit : HeadFits s e)
    (h : (logwriterAdd e).run v = .ok () v') : Underway s old shown (added ++ [e]) v' := by
  obtain ⟨hwhole, hfront, hle⟩ := hs.kept (respects_logwriterAdd e) h
  obtain ⟨p, log₁, hp, hstep, rfl⟩ := ok_logwriterAdd hs.writable h
  rw [hs.setting] at hp
  have hw₁ := hstep.writable
  have hpack : ({ log₁ with header := log₁.header.count e e.bytes.length } : Logwriter).packing = p := by
    rw [← hstep.packing]
    cases e <;> rfl
  have hloose : p.Loose s 0 := hs.loose.add hp
  have hfits : log₁.header.Fits := by
    have hf := hs.fits
    have hmax : log₁.header.maxEntriesPerBlock ≤ p.peak := by
      rw [← hstep.packing]
      exact Nat.le_max_left _ _
    have hpeak := hloose.peak_le
    have hlt := hs.blockSize_lt
    rw [hstep.header]
    exact ⟨hf.1, hf.2, hf.3, hf.4, hf.5, hf.6, hf.7, hf.8, hf.9, by
      show log₁.header.maxEntriesPerBlock < 2 ^ 32
      omega⟩
  have hcurrent : log₁.header.Current := by
    rw [hstep.header]
    exact ⟨hs.current.1, hs.current.2, hs.current.3⟩
  have hend : (log₁.header.count e e.bytes.length).dataEnd = v.header.dataEnd := by
    rw [hstep.header]
    cases e <;> rfl
  refine ⟨⟨hw₁.openStatus, hw₁.atEnd, hw₁.header_le, ?_, ?_⟩, ?_, hs.blockSize_lt, hs.plain,
    hfits.count e _, ?_, ?_, hwhole, hs.dataEnd_eq.trans hend.symm, ?_, hs.holding_of_front hfront, ?_⟩
  · rw [hw₁.blockSize]
    cases e <;> rfl
  · rw [hw₁.maxCompressedSize]
    cases e <;> rfl
  · exact (Logheader.setting_count _ _ _).trans (hstep.setting.trans hs.setting)
  · cases e <;> exact ⟨hcurrent.1, hcurrent.2, hcurrent.3⟩
  · rw [hpack]
    exact hloose
  · exact Nat.le_trans (Nat.le_of_eq hend) hle
  · obtain ⟨q, items, hsame, hsp, hvals⟩ := hs.spelled
    obtain ⟨q', hq', hsame'⟩ := hsame.add hp
    obtain ⟨it, hit, hsp'⟩ := hsp.add hfit hq'
    refine ⟨q', items ++ [it], ?_, hsp', ?_⟩
    · rw [hpack]
      exact hsame'
    · rw [List.map_append, hvals, List.map_singleton, hit, List.append_assoc]

/-- A `put` or a `delete` that stops leaves the entries that were shown. -/
theorem Underway.error_add (hs : Underway s old shown added v)
    (h : (logwriterAdd e).run v = .error (.rc code) v') : Holding s shown old v'.fd.data :=
  hs.holding_of_front (hs.kept_of_error (respects_logwriterAdd e) h)

theorem Underway.proper (hs : Underway s old shown added v) {new : Logheader} (hnext : v.header.Next new)
    (hmax : new.maxEntriesPerBlock ≤ s.compressionBlockSize + 1) (hlt : new.dataEnd < 2 ^ 63) :
    new.Proper s := by
  have hf := hs.fits
  have hbs := hs.blockSize_lt
  refine ⟨?_, ⟨?_, ?_, ?_, by omega, ?_, ?_, ?_, ?_, ?_, by omega⟩, ?_, hmax, hlt⟩
  · rw [hnext]
    exact hs.setting
  · rw [hnext]
    exact hf.1
  · rw [hnext]
    exact hf.2
  · rw [hnext]
    exact hf.3
  · rw [hnext]
    exact hf.5
  · rw [hnext]
    exact hf.6
  · rw [hnext]
    exact hf.7
  · rw [hnext]
    exact hf.8
  · rw [hnext]
    exact hf.9
  · rw [hnext]
    exact ⟨hs.current.1, hs.current.2, hs.current.3⟩

/-- The packing that a flush makes spells all entries, but for the largest number. -/
theorem Underway.spelled_flush (hs : Underway s old shown added v) {p : Packing}
    (hp : v.packing.flush s = some p) : ∃ (q : Packing) (items : List (Item Entry)), p.Same q ∧
      q.Spelled s items ∧ items.map Item.val = shown ++ added ∧ q.block = [] ∧ q.out = p.out := by
  obtain ⟨q, items, hsame, hsp, hvals⟩ := hs.spelled
  obtain ⟨q', hq', hsame'⟩ := hsame.flush hp
  obtain ⟨hsp', hblock⟩ := hsp.flush hq'
  refine ⟨q', items, hsame', hsp', hvals, hblock, ?_⟩
  obtain ⟨m, rfl⟩ := hsame'
  rfl

/-- **A flush** shows all entries. -/
theorem Underway.flush (hs : Underway s old shown added v) (h : logwriterFlush.run v = .ok () v') :
    Underway s v'.header (shown ++ added) [] v' := by
  have hwhole : ∀ r ∈ v'.fd.writes, r.Whole := by
    obtain ⟨v₁, h₁, fd, hfd, -⟩ := respects_logwriterFlush.ok_left
      (hs.behind.weaken List.nil_prefix (Nat.le_refl _)) h
    cases h.symm.trans h₁
    exact hfd.whole
  obtain ⟨p, hp, hw', rfl, hnext, hdata, hend, hlt⟩ := ok_logwriterFlush hs.writable h
  rw [hs.setting] at hp
  obtain ⟨q, items, hsame, hsp, hvals, hblock, hout⟩ := hs.spelled_flush hp
  have hloose := hs.loose.flush hp
  have hproper := hs.proper hnext (Nat.le_trans (Nat.le_max_left _ _) hloose.peak_le) hlt
  refine ⟨hw', hproper.setting, hs.blockSize_lt, hs.plain, hproper.fits, hproper.current, hloose, hwhole,
    rfl, ?_, ⟨hproper, q, items, hsp, hvals, hblock, ?_, ?_⟩, q, items, hsame, hsp, ?_⟩
  · rw [hend, hw'.atEnd.offset]
  · rw [hend, hdata, List.length_append, Logheader.length_bytes, hout]
  · rw [hdata, hout]
  · rw [hvals, List.append_nil]

omit [Compressors] in
theorem error_onFileBuf_writeLogheader {header : Logheader} {e : Program.Stop Returncode}
    (h : (onFileBuf (onSnd (writeLogheader header))).run v = .error e v') :
    (writeLogheader header).run v.fd = .error e v'.fd := by
  simp only [onFileBuf, onSnd, EStateM.run] at h
  cases hr : (writeLogheader header).run v.fd with
  | ok u fd =>
    simp only [EStateM.run] at hr
    simp only [hr] at h
    cases h
  | error e' fd =>
    simp only [EStateM.run] at hr
    simp only [hr] at h
    cases h
    rfl

theorem Underway.error_flush_cases (hs : Underway s old shown added v)
    (h : logwriterFlush.run v = .error (.rc code) v') : v.front <+: v'.fd.data ∨
      ∃ (v₁ : Logwriter) (new : Logheader), v.packing.flush s = some v₁.packing ∧ v.header.Next new ∧
        new.maxEntriesPerBlock ≤ v₁.packing.peak ∧ new.dataEnd = v₁.fd.data.length ∧
        new.dataEnd < 2 ^ 63 ∧ v₁.fileBuf.data = [] ∧ v.front <+: v₁.fd.data ∧
        (∀ r ∈ v₁.fd.writes, r.Whole) ∧
        (writeLogheader new).run (v₁.fd.seek 0) = .error (.rc code) v'.fd := by
  rw [logwriterFlush, run_bind_ok (run_assertWriterOpen hs.writable), run_get_bind] at h
  rcases error_bind h with h | ⟨_, v₁, h₁, h⟩
  · exact Or.inl (hs.kept_of_error respects_flushCompressed.onlyIf h)
  obtain ⟨_, h₁', hb₁⟩ := respects_flushCompressed.onlyIf.ok_left hs.behind h₁
  cases h₁.symm.trans h₁'
  obtain ⟨p, hp, hs₁⟩ := ok_flushIf (d := 0 < v.packing.block.length) Iff.rfl hs.writable h₁
  rw [run_get_bind] at h
  rcases error_bind h with h | ⟨_, v₂, h₂, h⟩
  · obtain ⟨_, h', fd, hfd, -⟩ := (respects_onFileBuf respects_bufFlushfile).onlyIf.error_left hb₁ h
    cases h.symm.trans h'
    exact Or.inl hfd.prefix_data
  obtain ⟨_, h₂', fd, hfd, -⟩ := (respects_onFileBuf respects_bufFlushfile).onlyIf.ok_left hb₁ h₂
  cases h₂.symm.trans h₂'
  obtain ⟨hs₂, hbuf⟩ := ok_flushFile hs₁.writable h₂
  rw [run_get_bind, run_set_bind, run_get_bind] at h
  rcases error_bind h with h | ⟨_, v₃, -, h⟩
  swap
  · cases h
  have hoff := hs₂.writable.atEnd.offset
  have hle := hs₂.writable.atEnd.le_max
  have hpos : u64 v₂.fd.offset = v₂.fd.data.length := by
    have hbig : maxFileSize = 2 ^ 63 - 1 := rfl
    rw [u64_of_lt (by omega), hoff]
  refine Or.inr ⟨v₂, { v₂.header with dataEnd := u64 v₂.fd.offset }, ?_, ?_, Nat.le_max_left _ _, hpos, ?_,
    hbuf, hfd.prefix_data, hfd.whole, error_onFileBuf_writeLogheader h⟩
  · rw [hs₂.packing, hs₁.packing, ← hs.setting]
    exact hp
  · rw [Logheader.Next, hs₂.header, hs₁.header]
  · have hbig : maxFileSize = 2 ^ 63 - 1 := rfl
    show u64 v₂.fd.offset < 2 ^ 63
    omega

/-- What is in front of the old end: the old header and the bytes of its packing. -/
theorem Underway.front_eq (hs : Underway s old shown added v) {p : Packing}
    (hend : old.dataEnd = logHeaderSize + p.out.length) (hpre : old.bytes ++ p.out <+: v.fd.data) :
    v.front = old.bytes ++ p.out := by
  have hlen : (old.bytes ++ p.out).length = v.header.dataEnd := by
    rw [List.length_append, Logheader.length_bytes, ← hs.dataEnd_eq, hend]
  obtain ⟨more, hmore⟩ := hpre
  rw [Logwriter.front, ← hmore, ← hlen, List.take_left]

/-- **A flush that stops** leaves a torn header, of which `j` fields are new.  The entries that were
shown are still there as long as the old end is, and all of them are if the new one is written. -/
theorem Underway.error_flush (hs : Underway s old shown added v)
    (h : logwriterFlush.run v = .error (.rc code) v') :
    ∃ new : Logheader, ∃ j < 14, v.header.Next new ∧
      ((new.torn old j).dataEnd = v.header.dataEnd → Holding s shown (new.torn old j) v'.fd.data) ∧
      (6 < j → Holding s (shown ++ added) (new.torn old j) v'.fd.data) := by
  rcases hs.error_flush_cases h with hfront | ⟨v₁, new, hp, hnext, hmax, hend, hlt, hbuf, hfront,
      hwhole, herror⟩
  · exact ⟨v.header, 0, by decide, rfl, fun _ => hs.holding_of_front hfront,
      fun h => absurd h (by decide)⟩
  obtain ⟨p₀, items₀, hsp₀, hvals₀, hb₀, hend₀, hpre₀⟩ := hs.holding.entries
  -- the file is the old header and what the packing has
  obtain ⟨more, hmore⟩ := hfront
  rw [hs.front_eq hend₀ hpre₀, List.append_assoc] at hmore
  obtain ⟨j, -, hj, -, htorn⟩ := error_writeLogheader (f := v₁.fd.seek 0) hmore.symm rfl hwhole herror
  have hrest : p₀.out ++ more = v₁.packing.out := by
    show _ = (v₁.fd.data ++ v₁.fileBuf.data).drop logHeaderSize
    rw [hbuf, List.append_nil, ← hmore, ← old.length_bytes, List.drop_left]
  have hproper := (hs.proper hnext (Nat.le_trans hmax (hs.loose.flush hp).peak_le) hlt).torn
    hs.holding.toProper j
  refine ⟨new, j, hj, hnext, fun hold => ?_, fun hlate => ?_⟩
  · refine ⟨hproper, p₀, items₀, hsp₀, hvals₀, hb₀, ?_, ?_⟩
    · rw [hold, ← hs.dataEnd_eq, hend₀]
    · rw [htorn, List.prefix_append_right_inj]
      exact List.prefix_append _ _
  · obtain ⟨q, items, -, hsp, hvals, hblock, hout⟩ := hs.spelled_flush hp
    refine ⟨hproper, q, items, hsp, hvals, hblock, ?_, ?_⟩
    · rw [show (new.torn old j).dataEnd = new.dataEnd from if_pos hlate, hend, ← hmore, hout, ← hrest,
        List.length_append, Logheader.length_bytes]
    · rw [htorn, hout, hrest]

theorem Underway.close (hs : Underway s old shown added v) (h : logwriterClose.run v = .ok () v') :
    Holding s (shown ++ added) v'.header v'.fd.data := by
  obtain ⟨v₁, h₁, rfl⟩ := ok_logwriterClose hs.writable h
  exact (hs.flush h₁).holding

theorem error_logwriterClose (hw : Writable v) {e : Program.Stop Returncode}
    (h : logwriterClose.run v = .error e v') : logwriterFlush.run v = .error e v' := by
  rw [logwriterClose, run_get_bind, if_neg (not_not_intro hw.openStatus)] at h
  rcases error_bind h with h | ⟨_, v₁, -, h⟩
  · exact h
  · cases h

omit [Compressors] in
theorem data_of_writeLogheader {header : Logheader} {writes : List WriteResult} {fd : File} {u : Unit}
    (hwhole : ∀ r ∈ writes, r.Whole) (h : (writeLogheader header).run ⟨[], 0, writes⟩ = .ok u fd) :
    fd.data = header.bytes ∧ ∀ r ∈ fd.writes, r.Whole := by
  have hend : AtEnd ⟨[], 0, writes⟩ := ⟨rfl, Nat.zero_le _⟩
  have hbehind : File.Behind [] 0 ⟨[], 0, writes⟩ ⟨[], 0, writes⟩ :=
    hend.behind (List.prefix_refl _) (Nat.zero_le _) hwhole
  obtain ⟨_, h', hfd⟩ := (respects_writeLogheader header).ok_left hbehind h
  cases h.symm.trans h'
  have hwrote := wrote_writeLogheader header ⟨[], 0, writes⟩
  rw [h] at hwrote
  obtain ⟨-, w, rfl⟩ := hwrote
  refine ⟨?_, hfd.whole⟩
  show splice [] 0 header.bytes = header.bytes
  exact splice_length [] _

theorem data_of_logwriterCreate {env : WriterEnv} {t : CompressionType} {n : Nat}
    (hwhole : ∀ r ∈ env.writes, r.Whole) (h : logwriterCreate env t n = .ok v) :
    v.fd.data = v.header.bytes ∧ v.header.dataEnd = logHeaderSize ∧ ∀ r ∈ v.fd.writes, r.Whole := by
  rw [logwriterCreate] at h
  split_ifs at h
  all_goals
    cases hr : env.rand32 with
    | none =>
      simp only [hr] at h
      cases h
    | some fileIdentifier =>
      simp only [hr] at h
      split at h
      · cases h
      rename_i hrun
      split_ifs at h
      cases h
      obtain ⟨hdata, hw⟩ := data_of_writeLogheader hwhole hrun
      exact ⟨hdata, rfl, hw⟩

/-- **A log that was created** shows nothing. -/
theorem underway_of_logwriterCreate {env : WriterEnv} {t : CompressionType} {n : Nat} (hlt : n < 2 ^ 31)
    (hwhole : ∀ r ∈ env.writes, r.Whole) (h : logwriterCreate env t n = .ok v) :
    Underway (.of t n) v.header [] [] v := by
  obtain ⟨hk, hp⟩ := ok_logwriterCreate hlt h
  obtain ⟨hdata, hend, hw⟩ := data_of_logwriterCreate hwhole h
  have hfits := hk.fits (by rw [hend]; decide)
  have hmax : v.header.maxEntriesPerBlock = 0 := congrArg Packing.maxEntriesPerBlock hp
  have hholding : Holding (.of t n) [] v.header v.fd.data := by
    refine ⟨⟨hk.setting, hfits, hk.current, ?_, ?_⟩, .init, [], spelled_init _, rfl, rfl, ?_, ?_⟩
    · rw [hmax]
      exact Nat.zero_le _
    · rw [hend]
      decide
    · rw [hend]
      rfl
    · rw [hdata, Packing.init, List.append_nil]
  refine ⟨hk.writable, hk.setting, hk.blockSize_lt, hk.plain, hfits, hk.current, hk.loose, hw, rfl, ?_,
    hholding, .init, [], ⟨0, by rw [hp]; rfl⟩, spelled_init _, rfl⟩
  rw [hend, hk.writable.atEnd.offset]
  exact hk.writable.header_le

/-- **Appending** to a file that holds some entries shows them. -/
theorem Holding.append {header : Logheader} {data : List UInt8} {env : WriterEnv} {w : Logwriter}
    (hh : Holding s shown header data) (hlt : s.compressionBlockSize < 2 ^ 31)
    (hplain : usesCompressor s.compressionType = false → s.compressionBlockSize = 0)
    (hwhole : ∀ r ∈ env.writes, r.Whole) (h : logwriterAppend env (some data) = .ok w) :
    w.header = header ∧ ∃ v, v.Behind [] 0 w ∧ Underway s header shown [] v := by
  have hle := hh.dataEnd_le
  have hlt' := hh.dataEnd_lt
  have hheader : (if usesCompressor header.compressionType then header
      else { header with compressionBlockSize := 0 }) = header := by
    split_ifs with hu
    · rfl
    · have h0 : header.compressionBlockSize = 0 := by
        have := hplain (by rw [← hh.setting]; exact Bool.eq_false_of_not_eq_true hu)
        rwa [← hh.setting] at this
      rw [← h0]
  rw [logwriterAppend, hh.loadLogheader] at h
  split_ifs at h with hbad
  simp only [hheader] at h
  split_ifs at h
  cases h
  obtain ⟨p, items, hsp, hvals, hb, hend, hpre⟩ := hh.entries
  have htake : data.take header.dataEnd = header.bytes ++ p.out := by
    have hlen : (header.bytes ++ p.out).length = header.dataEnd := by
      rw [List.length_append, Logheader.length_bytes, hend]
    obtain ⟨rest, rfl⟩ := hpre
    rw [← hlen, List.take_left]
  have hlen : (data.take header.dataEnd).length = header.dataEnd := List.length_take_of_le hle
  have hmaxFile : maxFileSize = 2 ^ 63 - 1 := rfl
  obtain ⟨v, hv⟩ : ∃ v : Logwriter, v = {
      openStatus := magicValueLogwriter
      header
      fd := ⟨data.take header.dataEnd, header.dataEnd, env.writes⟩
      blockBuf := Buf.init header.compressionBlockSize
      maxCompressedSize :=
        (sparkeyCompressors header.compressionType).maxCompressedSize header.compressionBlockSize
      fileBuf := Buf.init fileBufSize
      flushed := false
      entryCount := 0
      compressFails := env.compressFails } := ⟨_, rfl⟩
  have hpack : v.packing = ⟨p.out, [], false, 0, header.maxEntriesPerBlock⟩ := by
    have hout : (data.take header.dataEnd ++ ([] : List UInt8)).drop logHeaderSize = p.out := by
      rw [List.append_nil, htake, ← header.length_bytes, List.drop_left]
    rw [hv, ← hout]
    rfl
  refine ⟨rfl, v, ⟨⟨data, header.dataEnd, env.writes⟩, ?_, by rw [hv]; rfl⟩, ?_⟩
  · rw [hv]
    exact ⟨List.take_prefix _ _, rfl, rfl, Nat.le_of_eq hlen.symm, List.nil_prefix, Nat.zero_le _,
      Nat.zero_le _, hwhole⟩
  have hatEnd : AtEnd v.fd := by
    rw [hv]
    exact ⟨hlen.symm, by show header.dataEnd ≤ maxFileSize; omega⟩
  refine ⟨⟨by rw [hv], hatEnd, ?_, by rw [hv]; rfl, by rw [hv]⟩, by rw [hv]; exact hh.setting, hlt, hplain,
    by rw [hv]; exact hh.fits, by rw [hv]; exact hh.current, ?_, by rw [hv]; exact hwhole,
    by rw [hv], ?_, ?_, p.reopen, items, ?_, hsp.reopen hb, by rw [hvals, List.append_nil]⟩
  · rw [hv]
    show _ ≤ (data.take header.dataEnd).length
    omega
  · rw [hpack]
    exact ⟨Nat.zero_le _, Nat.zero_le _, Nat.max_le.mpr ⟨hh.maxEntriesPerBlock_le, Nat.zero_le _⟩⟩
  · rw [hv]
  · rw [hv]
    exact hh.of_take (List.prefix_refl _)
  · refine ⟨p.maxEntriesPerBlock, ?_⟩
    rw [hpack, Packing.reopen, hb]

end Session

/-! ### Any number of sessions -/

section Sessions

variable [Compressors] {t : CompressionType} {n : Nat} {shown added : List Entry} {w w' : Logwriter}
  {file : List UInt8} {log : Logreader}

def Call.run : Call → Run Logwriter Unit
  | .add e => logwriterAdd e
  | .flush => logwriterFlush
  | .reopen => logwriterClose

/-- The file a session leaves that is cut off, between two calls or in the middle of one.  Where the
session ends between two writes, the file is the one it leaves if the next `write` fails. -/
inductive Stopped (w : Logwriter) : List UInt8 → Prop
  | between : Stopped w w.fd.data
  | within {c : Call} {code : Returncode} {w' : Logwriter} :
      c.run.run w = .error (.rc code) w' → Stopped w w'.fd.data

/-- Sessions one after the other, the last of which has the writer `w`; `cut` tells whether one of them
was cut off.  When the last one began, or since its last flush, the log had the entries `shown`, and
it has `added` some more.  A session that was cut off has got its entries in if the file tells a
new end of the data. -/
inductive Sessions (t : CompressionType) (n : Nat) :
    Bool → List Entry → List Entry → Logwriter → Prop
  /-- The block size is an `int`. -/
  | create {env : WriterEnv} {w : Logwriter} : n < 2 ^ 31 → (∀ r ∈ env.writes, r.Whole) →
      logwriterCreate env t n = .ok w → Sessions t n false [] [] w
  | add {cut : Bool} {shown added : List Entry} {w w' : Logwriter} (e : Entry) :
      HeadFits (.of t n) e → Sessions t n cut shown added w →
      (logwriterAdd e).run w = .ok () w' → Sessions t n cut shown (added ++ [e]) w'
  | flush {cut : Bool} {shown added : List Entry} {w w' : Logwriter} :
      Sessions t n cut shown added w → logwriterFlush.run w = .ok () w' →
      Sessions t n cut (shown ++ added) [] w'
  | close {cut : Bool} {shown added : List Entry} {w w₁ w' : Logwriter} {env : WriterEnv} :
      Sessions t n cut shown added w → logwriterClose.run w = .ok () w₁ →
      (∀ r ∈ env.writes, r.Whole) → logwriterAppend env (some w₁.fd.data) = .ok w' →
      Sessions t n cut (shown ++ added) [] w'
  | stop {cut : Bool} {shown added : List Entry} {w w' : Logwriter} {file : List UInt8}
      {env : WriterEnv} : Sessions t n cut shown added w → Stopped w file →
      (∀ r ∈ env.writes, r.Whole) → logwriterAppend env (some file) = .ok w' →
      Sessions t n true (if w'.header.dataEnd = w.header.dataEnd then shown else shown ++ added) [] w'

def Lasting (s : Setting) (old : Logheader) (shown added : List Entry) (w : Logwriter) : Prop :=
  ∃ v, v.Behind [] 0 w ∧ Underway s old shown added v

/-- **The file a session leaves** has the old header, or a torn one. -/
theorem Lasting.holding {s : Setting} {old : Logheader} (h : Lasting s old shown added w)
    (hstop : Stopped w file) : ∃ new : Logheader, ∃ j < 14, w.header.Next new ∧
      ((new.torn old j).dataEnd = w.header.dataEnd → Holding s shown (new.torn old j) file) ∧
      (6 < j → Holding s (shown ++ added) (new.torn old j) file) := by
  obtain ⟨v, ⟨fd, hfd, rfl⟩, hs⟩ := h
  -- as long as no header is written, the old one is there
  have hearly : Holding s shown old file → ∃ new : Logheader, ∃ j < 14, v.header.Next new ∧
      ((new.torn old j).dataEnd = v.header.dataEnd → Holding s shown (new.torn old j) file) ∧
      (6 < j → Holding s (shown ++ added) (new.torn old j) file) := fun hold =>
    ⟨v.header, 0, by decide, rfl, fun _ => hold, fun h => absurd h (by decide)⟩
  cases hstop with
  | between => exact hearly (hs.holding.mono hfd.data)
  | @within c code w' hrun =>
    have hrespects : Respects (Logwriter.Behind [] 0) c.run := by
      cases c with
      | add e => exact respects_logwriterAdd e
      | flush => exact respects_logwriterFlush
      | reopen => exact respects_logwriterClose
    obtain ⟨v', hrun', fd', hfd', rfl⟩ := hrespects.error_left ⟨fd, hfd, rfl⟩ hrun
    have hflush : logwriterFlush.run v = .error (.rc code) v' → ∃ new : Logheader, ∃ j < 14,
        v.header.Next new ∧
        ((new.torn old j).dataEnd = v.header.dataEnd → Holding s shown (new.torn old j) fd'.data) ∧
        (6 < j → Holding s (shown ++ added) (new.torn old j) fd'.data) := by
      intro hrun
      obtain ⟨new, j, hj, hnext, hold, hnew⟩ := hs.error_flush hrun
      exact ⟨new, j, hj, hnext, fun h => (hold h).mono hfd'.data,
        fun h => (hnew h).mono hfd'.data⟩
    cases c with
    | add e => exact hearly ((hs.error_add hrun').mono hfd'.data)
    | flush => exact hflush hrun'
    | reopen => exact hflush (error_logwriterClose hs.writable hrun')

theorem Lasting.holding_ite {s : Setting} {old : Logheader} (h : Lasting s old shown added w)
    (hstop : Stopped w file) : ∃ header,
      Holding s (if header.dataEnd = w.header.dataEnd then shown else shown ++ added) header file := by
  obtain ⟨new, j, -, -, hold, hnew⟩ := h.holding hstop
  refine ⟨new.torn old j, ?_⟩
  obtain ⟨v, ⟨fd, hfd, rfl⟩, hs⟩ := h
  split_ifs with hc
  · exact hold hc
  · refine hnew (Nat.lt_of_not_le fun hle => hc ?_)
    exact (if_neg (Nat.not_lt.mpr hle)).trans hs.dataEnd_eq

omit [Compressors] in
theorem Setting.plain_of (t : CompressionType) (n : Nat) :
    usesCompressor (Setting.of t n).compressionType = false →
      (Setting.of t n).compressionBlockSize = 0 := by
  intro hu
  show (if _ then _ else _) = 0
  rw [if_neg (by rw [show usesCompressor t = false from hu]; decide)]

omit [Compressors] in
theorem Setting.of_lt (t : CompressionType) {n : Nat} (hlt : n < 2 ^ 31) :
    (Setting.of t n).compressionBlockSize < 2 ^ 31 := by
  show (if _ then _ else _) < _
  split_ifs
  · exact hlt
  · decide

theorem lasting_of_sessions {cut : Bool} (h : Sessions t n cut shown added w) :
    n < 2 ^ 31 ∧ ∃ old, Lasting (.of t n) old shown added w := by
  induction h with
  | create hlt hwhole h =>
    have hs := underway_of_logwriterCreate hlt hwhole h
    exact ⟨hlt, _, _, hs.behind.weaken List.nil_prefix (Nat.le_refl _), hs⟩
  | add e hfit _ h ih =>
    obtain ⟨hlt, old, v, hb, hs⟩ := ih
    obtain ⟨v', hrun, hb'⟩ := (respects_logwriterAdd e).ok_left hb h
    exact ⟨hlt, old, v', hb', hs.add hfit hrun⟩
  | flush _ h ih =>
    obtain ⟨hlt, old, v, hb, hs⟩ := ih
    obtain ⟨v', hrun, hb'⟩ := respects_logwriterFlush.ok_left hb h
    exact ⟨hlt, _, v', hb', hs.flush hrun⟩
  | close _ hclose hwhole happend ih =>
    obtain ⟨hlt, old, v, hb, hs⟩ := ih
    obtain ⟨v', hrun, fd, hfd, rfl⟩ := respects_logwriterClose.ok_left hb hclose
    exact ⟨hlt, _, (((hs.close hrun).mono hfd.data).append (Setting.of_lt t hlt)
      (Setting.plain_of t n) hwhole happend).2⟩
  | stop _ hstop hwhole happend ih =>
    obtain ⟨hlt, old, hl⟩ := ih
    obtain ⟨header, hh⟩ := hl.holding_ite hstop
    obtain ⟨hheader, hlasting⟩ := hh.append (Setting.of_lt t hlt) (Setting.plain_of t n) hwhole happend
    rw [hheader]
    exact ⟨hlt, _, hlasting⟩

/-- **Whatever happens to a session**, a reader of its file goes through the entries that were shown
when it began, and through those it had added if the file tells a new end of the data: never a part
of an entry, and nothing of a session that was cut off. -/
theorem dump_of_sessions {cut : Bool} (h : Sessions t n cut shown added w) (hz : (Setting.of t n).Lossless)
    (hstop : Stopped w file) (hopen : logreaderOpen (some file) = .ok log) (unset : Logiter)
    {fuel : Nat} (hfuel : (shown ++ added).length < fuel) :
    ∃ iter iter', logiterCreate unset log = .ok iter ∧
      (dump log fuel).run iter = .ok ((if log.header.dataEnd = w.header.dataEnd then shown
        else shown ++ added).map Entry.shown) iter' ∧
      iter'.state = .closed := by
  obtain ⟨-, old, hl⟩ := lasting_of_sessions h
  obtain ⟨header, hh⟩ := hl.holding_ite hstop
  obtain ⟨rfl, items, hl, hvals⟩ := hh.holds hz hopen
  refine hl.exists_dump hvals unset (Nat.lt_of_le_of_lt ?_ hfuel)
  split_ifs
  · rw [List.length_append]
    exact Nat.le_add_right _ _
  · exact Nat.le_refl _

/-- A session that flushes a put and is cut off while it flushes a delete, and one that goes on behind
it with another put and is cut off too: the writers at the two cuts, the writer in between, and the
file in the end. -/
def cutSessions (env env' : WriterEnv) :
    Option ((Logwriter × Logwriter) × Logwriter × (Returncode × Logwriter)) :=
  (logwriterCreate env .snappy 10).toOption.bind fun w₀ =>
  (success? ((logwriterAdd (.put (.of [1]) (.of [2, 3]))).run w₀)).bind fun w₁ =>
  (success? (logwriterFlush.run w₁)).bind fun w₂ =>
  (success? ((logwriterAdd (.delete (.of [1]))).run w₂)).bind fun w₃ =>
  (stopped? (logwriterFlush.run w₃)).bind fun w₄ =>
  (logwriterAppend env' (some w₄.2.fd.data)).toOption.bind fun w₅ =>
  (success? ((logwriterAdd (.put (.of [5]) (.of [6]))).run w₅)).bind fun w₆ =>
  (stopped? (logwriterFlush.run w₆)).map fun w₇ => ((w₃, w₅), w₆, w₇)

def cutEnv : WriterEnv := ⟨some 7, List.replicate 37 (.wrote 99) ++ [.failed .enospc], []⟩

def cutEnv' : WriterEnv := ⟨none, [.wrote 99, .failed .efbig], []⟩

omit [Compressors] in
theorem dump_of_sessions_sample :
    letI := literalCompressors
    ∃ log iter iter', logiterCreate zeroLogiter log = .ok iter ∧
      (dump log 4).run iter = .ok [⟨.put, 1, 2, [1], [2, 3]⟩, ⟨.delete, 1, 0, [1], []⟩] iter' ∧
      iter'.state = .closed := by
  let := literalCompressors
  have hfacts : (cutSessions cutEnv cutEnv').map (fun r =>
      (decide (r.1.2.header.dataEnd = r.1.1.header.dataEnd),
        (logreaderOpen (some r.2.2.2.fd.data)).toOption.map fun log =>
          decide (log.header.dataEnd = r.2.1.header.dataEnd))) = some (false, some true) := by
    decide +kernel
  obtain ⟨r, hr, hfacts⟩ := Option.map_eq_some_iff.mp hfacts
  simp only [Prod.mk.injEq] at hfacts
  obtain ⟨hnew, hopen⟩ := hfacts
  obtain ⟨log, hlog, hold⟩ := Option.map_eq_some_iff.mp hopen
  simp only [cutSessions, Option.bind_eq_some_iff, Option.map_eq_some_iff] at hr
  obtain ⟨w₀, h₀, w₁, h₁, w₂, h₂, w₃, h₃, ⟨code, w₄⟩, h₄, w₅, h₅, w₆, h₆, ⟨code', w₇⟩, h₇, rfl⟩ := hr
  have hwhole : ∀ r ∈ cutEnv.writes, r.Whole := by decide
  have hwhole' : ∀ r ∈ cutEnv'.writes, r.Whole := by decide
  have hfit : ∀ e : Entry, e.header.length ≤ 10 → HeadFits (.of .snappy 10) e := fun e h _ => h
  have hs := Sessions.stop (.add _ (hfit _ (by decide)) (.flush (.add _ (hfit _ (by decide))
    (.create (by decide) hwhole (ok_of_toOption h₀)) (success?_eq_some h₁)) (success?_eq_some h₂))
    (success?_eq_some h₃)) (.within (c := .flush) (stopped?_eq_some h₄)) hwhole' (ok_of_toOption h₅)
  rw [if_neg (of_decide_eq_false hnew)] at hs
  obtain ⟨iter, iter', hiter, hrun, hclosed⟩ := dump_of_sessions
    (.add _ (hfit _ (by decide)) hs (success?_eq_some h₆)) (fun _ => lossless_snappyLiteral)
    (.within (c := .flush) (stopped?_eq_some h₇)) (ok_of_toOption hlog) zeroLogiter
    (by decide : _ < 4)
  rw [if_pos (of_decide_eq_true hold)] at hrun
  exact ⟨log, iter, iter', hiter, hrun, hclosed⟩

end Sessions

end Sparkey
