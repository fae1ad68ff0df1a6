import Sparkey.Logwriter
import Sparkey.Writer.Packing

/-!
# A writer makes the bytes of its log

A writer's packing is what it has put behind the header, be it in the file or still
in the file buffer, together with its block buffer.  Every call that succeeds does
to it what the packing's own step does (`Step`), however the file buffer spills and
however the system takes the bytes.
-/

namespace Sparkey

open Program

/-! ### The file buffer -/

def stream (s : Buf × File) : List UInt8 := s.2.data ++ s.1.data

structure AtEnd (fd : File) : Prop where
  offset : fd.offset = fd.data.length
  le_max : fd.offset ≤ maxFileSize

structure Appended (s s' : Buf × File) (data : List UInt8) : Prop where
  atEnd : AtEnd s'.2
  stream_eq : stream s' = stream s ++ data
  grows : s.2.data <+: s'.2.data
  size : s'.1.size = s.1.size

variable {s s' s'' : Buf × File} {data data' : List UInt8}

theorem Appended.trans (h : Appended s s' data) (h' : Appended s' s'' data') :
    Appended s s'' (data ++ data') :=
  ⟨h'.atEnd, by rw [h'.stream_eq, h.stream_eq, List.append_assoc], h.grows.trans h'.grows,
    h'.size.trans h.size⟩

theorem AtEnd.put {fd : File} (h : AtEnd fd) {w : List WriteResult}
    (hle : fd.offset + data.length ≤ max maxFileSize fd.offset) :
    AtEnd { fd.put data with writes := w } ∧
      ({ fd.put data with writes := w } : File).data = fd.data ++ data := by
  have hdata : (fd.put data).data = fd.data ++ data := by
    show splice fd.data fd.offset data = _
    rw [h.offset, splice_length]
  have hmax := h.le_max
  refine ⟨⟨?_, ?_⟩, hdata⟩
  · show fd.offset + data.length = (fd.put data).data.length
    rw [hdata, List.length_append, h.offset]
  · show fd.offset + data.length ≤ maxFileSize
    omega

theorem ok_bufFlushfile (ha : AtEnd s.2) {u : Unit} (h : bufFlushfile.run s = .ok u s') :
    Appended s s' [] ∧ s'.1 = s.1.reset := by
  obtain ⟨buf, fd⟩ := s
  have hw := wrote_writeFull buf.data fd
  simp only [bufFlushfile, EStateM.run_bind, EStateM.run_get] at h
  cases hr : (writeFull buf.data).run fd with
  | error e fd' =>
    simp only [onSnd, EStateM.run] at h hr
    rw [hr] at h
    cases h
  | ok u fd' =>
    rw [hr] at hw
    obtain ⟨hle, w, rfl⟩ := hw
    rw [run_onSnd_ok hr] at h
    simp only [EStateM.run_modify] at h
    cases h
    obtain ⟨hend, hdata⟩ := ha.put (w := w) hle
    refine ⟨⟨hend, ?_, ?_, rfl⟩, rfl⟩
    · show _ ++ [] = (fd.data ++ buf.data) ++ []
      rw [List.append_nil, List.append_nil]
      exact hdata
    · show fd.data <+: _
      rw [hdata]
      exact List.prefix_append _ _

theorem ok_bufAddLoop : ∀ (fuel : Nat) {data : List UInt8} {s s' : Buf × File} {u : Unit},
    AtEnd s.2 → (bufAddLoop fuel data).run s = .ok u s' → Appended s s' data := by
  intro fuel
  induction fuel with
  | zero =>
    intro data s s' u _ h
    cases h
  | succ fuel ih =>
    rintro data ⟨buf, fd⟩ s' u ha h
    simp only [bufAddLoop, EStateM.run_bind, EStateM.run_get] at h
    split at h
    · -- the rest fits
      simp only [EStateM.run_set] at h
      cases h
      refine ⟨ha, ?_, List.prefix_refl _, rfl⟩
      show fd.data ++ (buf.data ++ data) = (fd.data ++ buf.data) ++ data
      rw [List.append_assoc]
    · rw [run_set_bind] at h
      have hfill : Appended (buf, fd) (buf.fill data, fd) (data.take buf.remaining) := by
        refine ⟨ha, ?_, List.prefix_refl _, rfl⟩
        show fd.data ++ (buf.data ++ data.take buf.remaining) = _
        rw [← List.append_assoc]
        rfl
      obtain ⟨v, s₁, hfl, h⟩ := ok_bind h
      have hflush : Appended (buf.fill data, fd) s₁ [] := (ok_bufFlushfile hfill.atEnd hfl).1
      have := (hfill.trans hflush).trans (ih hflush.atEnd h)
      rwa [List.append_nil, List.take_append_drop] at this

/-- **`buf_add` appends**, wherever the buffer spills. -/
theorem ok_bufAdd (ha : AtEnd s.2) {u : Unit} (h : (bufAdd data).run s = .ok u s') :
    Appended s s' data := ok_bufAddLoop _ ha h

/-! ### The writer -/

def Logwriter.packing (log : Logwriter) : Packing where
  out := (stream (log.fileBuf, log.fd)).drop logHeaderSize
  block := log.blockBuf.data
  flushed := log.flushed
  entryCount := log.entryCount
  maxEntriesPerBlock := log.header.maxEntriesPerBlock

section Writer

variable [Compressors]

structure Writable (log : Logwriter) : Prop where
  openStatus : log.openStatus = magicValueLogwriter
  atEnd : AtEnd log.fd
  header_le : logHeaderSize ≤ log.fd.data.length
  blockSize : log.blockBuf.size = log.header.compressionBlockSize
  maxCompressedSize : log.maxCompressedSize
    = (sparkeyCompressors log.header.compressionType).maxCompressedSize log.header.compressionBlockSize

/-- The writer went to one whose packing is `p`, and did not touch the rest of its header. -/
structure Step (log log' : Logwriter) (p : Packing) : Prop where
  writable : Writable log'
  packing : log'.packing = p
  header : log'.header
    = { log.header with maxEntriesPerBlock := log'.header.maxEntriesPerBlock }

variable {log log' log'' : Logwriter} {p p' : Packing}

theorem Step.trans (h : Step log log' p) (h' : Step log' log'' p') : Step log log'' p' := by
  refine ⟨h'.writable, h'.packing, ?_⟩
  rw [h'.header, h.header]

theorem Step.setting (h : Step log log' p) : log'.header.setting = log.header.setting := by
  rw [h.header]
  rfl

theorem Writable.refl (h : Writable log) : Step log log log.packing := ⟨h, rfl, rfl⟩

theorem ok_onFileBuf {x : Run (Buf × File) Unit} {u : Unit}
    (hx : ∀ s' u, x.run (log.fileBuf, log.fd) = .ok u s' → Appended (log.fileBuf, log.fd) s' data)
    (hw : Writable log) (h : (onFileBuf x).run log = .ok u log') :
    Step log log' { log.packing with out := log.packing.out ++ data } := by
  simp only [onFileBuf, EStateM.run] at h
  cases hr : x (log.fileBuf, log.fd) with
  | error e s =>
    simp only [hr] at h
    cases h
  | ok v s' =>
    simp only [hr] at h
    cases h
    have ha := hx s' _ hr
    have hlen : logHeaderSize ≤ s'.2.data.length :=
      Nat.le_trans hw.header_le ha.grows.length_le
    refine ⟨⟨hw.openStatus, ha.atEnd, hlen, hw.blockSize, hw.maxCompressedSize⟩, ?_, rfl⟩
    have hout : (stream (s'.1, s'.2)).drop logHeaderSize
        = (stream (log.fileBuf, log.fd)).drop logHeaderSize ++ data := by
      have hle : logHeaderSize ≤ (stream (log.fileBuf, log.fd)).length := by
        have := hw.header_le
        show _ ≤ (log.fd.data ++ log.fileBuf.data).length
        rw [List.length_append]
        omega
      rw [← List.drop_append_of_le_length hle, ← ha.stream_eq]
    unfold Logwriter.packing
    rw [← hout]

theorem ok_onFileBuf_bufAdd {u : Unit} (hw : Writable log)
    (h : (onFileBuf (bufAdd data)).run log = .ok u log') :
    Step log log' { log.packing with out := log.packing.out ++ data } :=
  ok_onFileBuf (fun _ _ hr => ok_bufAdd hw.atEnd hr) hw h

theorem ok_compress {input compressed : List UInt8} (hw : Writable log)
    (h : (compress input).run log = .ok compressed log') :
    log.header.setting.compress input = some compressed ∧
      log' = { log with compressFails := log.compressFails.tail } := by
  rw [compress, run_get_bind, run_set_bind] at h
  split_ifs at h with hf
  · cases h
  cases hc : (sparkeyCompressors log.header.compressionType).compress input
      log.maxCompressedSize with
  | none =>
    simp only [hc] at h
    cases h
  | some c =>
    simp only [hc] at h
    cases h
    rw [hw.maxCompressedSize] at hc
    exact ⟨hc, rfl⟩

theorem Writable.countBlock (hw : Writable log) : Writable log.countBlock :=
  ⟨hw.openStatus, hw.atEnd, hw.header_le, hw.blockSize, hw.maxCompressedSize⟩

/-- **`flush_compressed` closes the block.** -/
theorem ok_flushCompressed {u : Unit} (hw : Writable log)
    (h : flushCompressed.run log = .ok u log') :
    ∃ p, log.packing.flushBlock log.header.setting = some p ∧ Step log log' p := by
  rw [flushCompressed, run_modify_bind, run_get_bind] at h
  obtain ⟨compressed, log₁, hc, h⟩ := ok_bind h
  obtain ⟨hz, rfl⟩ := ok_compress hw.countBlock hc
  obtain ⟨_, log₂, h₂, h⟩ := ok_bind h
  have hw₁ : Writable { log.countBlock with
      compressFails := log.countBlock.compressFails.tail } :=
    ⟨hw.openStatus, hw.atEnd, hw.header_le, hw.blockSize, hw.maxCompressedSize⟩
  have hs₂ := ok_onFileBuf_bufAdd hw₁ h₂
  obtain ⟨_, log₃, h₃, h⟩ := ok_bind h
  have hs₃ := ok_onFileBuf_bufAdd hs₂.writable h₃
  cases h
  have hw₃ := hs₃.writable
  have hpack : log₃.packing = { log.countBlock.packing with
      out := log.packing.out ++ frame compressed } := by
    rw [hs₃.packing, hs₂.packing, frame, ← List.append_assoc]
    rfl
  have hhead : log₃.header = { log.header with maxEntriesPerBlock := log₃.header.maxEntriesPerBlock } := by
    rw [hs₃.header, hs₂.header]
    rfl
  have hz' : log.header.setting.compress log.packing.block = some compressed := hz
  refine ⟨⟨log.packing.out ++ frame compressed, [], true, 0, log.packing.peak⟩, ?_,
    ⟨hw₃.openStatus, hw₃.atEnd, hw₃.header_le, hw₃.blockSize, hw₃.maxCompressedSize⟩, ?_, hhead⟩
  · rw [Packing.flushBlock, hz']
    rfl
  · show ({ log₃.packing with block := [] } : Packing) = _
    rw [hpack]
    rfl

theorem ok_compressedAddLoop : ∀ (fuel : Nat) {data : List UInt8} {log log' : Logwriter} {u : Unit},
    Writable log → (compressedAddLoop fuel data).run log = .ok u log' →
    ∃ p, Packing.fillLoop log.header.setting fuel data log.packing = some p ∧ Step log log' p := by
  intro fuel
  induction fuel with
  | zero =>
    intro data log log' u _ h
    cases h
  | succ fuel ih =>
    intro data log log' u hw h
    have hroom : log.blockBuf.remaining
        = log.header.setting.compressionBlockSize - log.packing.block.length := by
      rw [Buf.remaining, hw.blockSize]
      rfl
    rw [compressedAddLoop, run_get_bind] at h
    rw [Packing.fillLoop, ← hroom]
    split at h
    · rename_i hfits
      cases h
      rw [if_pos hfits]
      exact ⟨_, rfl, ⟨hw.openStatus, hw.atEnd, hw.header_le, hw.blockSize, hw.maxCompressedSize⟩, rfl,
        rfl⟩
    · rename_i hfits
      rw [run_set_bind] at h
      obtain ⟨_, log₁, hfl, h⟩ := ok_bind h
      have hw₁ : Writable { log with blockBuf := log.blockBuf.fill data } :=
        ⟨hw.openStatus, hw.atEnd, hw.header_le, hw.blockSize, hw.maxCompressedSize⟩
      obtain ⟨p₁, hp₁, hs₁⟩ := ok_flushCompressed hw₁ hfl
      obtain ⟨p, hp, hs⟩ := ih hs₁.writable h
      rw [hs₁.packing, hs₁.setting] at hp
      refine ⟨p, ?_, hs.writable, hs.packing, hs.header.trans ?_⟩
      · rw [if_neg hfits]
        refine Option.bind_eq_some_iff.mpr ⟨p₁, hp₁, hp⟩
      · rw [hs₁.header]

/-- **`compressed_add` fills blocks.** -/
theorem ok_compressedAdd {u : Unit} (hw : Writable log)
    (h : (compressedAdd data).run log = .ok u log') :
    ∃ p, log.packing.fill log.header.setting data = some p ∧ Step log log' p :=
  ok_compressedAddLoop _ hw h

theorem ok_flushIf {c d : Prop} [Decidable c] [Decidable d] {u : Unit} (hcc : c ↔ d)
    (hw : Writable log) (h : (onlyIf c flushCompressed).run log = .ok u log') :
    ∃ p, (if d then log.packing.flushBlock log.header.setting else some log.packing) = some p ∧
      Step log log' p := by
  by_cases hc : c
  · rw [run_onlyIf_pos hc] at h
    rw [if_pos (hcc.mp hc)]
    exact ok_flushCompressed hw h
  · rw [run_onlyIf_neg hc] at h
    rw [if_neg (mt hcc.mpr hc)]
    cases h
    exact ⟨_, rfl, hw.refl⟩

/-- **`log_add` adds the entry**, and returns its size. -/
theorem ok_logAdd {e : Entry} {n : Nat} (hw : Writable log)
    (h : (logAdd e.num1 e.num2 e.data1 e.data2).run log = .ok n log') :
    n = e.bytes.length ∧ ∃ p, log.packing.add log.header.setting e = some p ∧ Step log log' p := by
  have hhead : (writeVlq e.num1).length + (writeVlq e.num2).length = e.header.length :=
    List.length_append.symm
  have hbytes : e.header.length + e.data1.length + e.data2.length = e.bytes.length := by
    rw [Entry.bytes, List.length_append, ← e.data1_append_data2, List.length_append, Nat.add_assoc]
  have hroom : log.blockBuf.remaining
      = log.header.setting.compressionBlockSize - log.packing.block.length := by
    rw [Buf.remaining, hw.blockSize]
    rfl
  have hsize : log.blockBuf.size = log.header.setting.compressionBlockSize := hw.blockSize
  rw [logAdd, run_get_bind] at h
  by_cases hu : usesCompressor log.header.compressionType = true
  · rw [if_pos hu] at h
    obtain ⟨_, log₁, h₁, h⟩ := ok_bind h
    obtain ⟨p₁, hp₁, hs₁⟩ := ok_flushIf (d :=
      log.header.setting.compressionBlockSize - log.packing.block.length < e.header.length ∨
        (e.bytes.length ≤ log.header.setting.compressionBlockSize ∧
          log.header.setting.compressionBlockSize - log.packing.block.length < e.bytes.length))
      (by rw [hhead, hbytes, hroom, hsize]) hw h₁
    rw [run_modify_bind] at h
    have hw₁ := hs₁.writable
    obtain ⟨_, log₂, h₂, h⟩ := ok_bind h
    have hw₂ : Writable { log₁ with entryCount := log₁.entryCount + 1, flushed := false } :=
      ⟨hw₁.openStatus, hw₁.atEnd, hw₁.header_le, hw₁.blockSize, hw₁.maxCompressedSize⟩
    obtain ⟨p₂, hp₂, hs₂⟩ := ok_compressedAdd hw₂ h₂
    obtain ⟨_, log₃, h₃, h⟩ := ok_bind h
    obtain ⟨p₃, hp₃, hs₃⟩ := ok_compressedAdd hs₂.writable h₃
    obtain ⟨_, log₄, h₄, h⟩ := ok_bind h
    obtain ⟨p₄, hp₄, hs₄⟩ := ok_compressedAdd hs₃.writable h₄
    obtain ⟨_, log₅, h₅, h⟩ := ok_bind h
    obtain ⟨p₅, hp₅, hs₅⟩ := ok_compressedAdd hs₄.writable h₅
    rw [run_get_bind] at h
    obtain ⟨_, log₆, h₆, h⟩ := ok_bind h
    have hflushed : log₅.flushed = p₅.flushed := by
      rw [← hs₅.packing]
      rfl
    have hused : log₅.blockBuf.used = p₅.block.length := by
      rw [← hs₅.packing]
      rfl
    obtain ⟨p₆, hp₆, hs₆⟩ := ok_flushIf (d := p₅.flushed = true ∧ 0 < p₅.block.length)
      (by rw [hflushed, hused]) hs₅.writable h₆
    cases h
    refine ⟨by rw [hhead, hbytes], p₆, ?_, ?_⟩
    · have hset₂ : log₂.header.setting = log.header.setting := hs₂.setting.trans hs₁.setting
      have hset₃ := hs₃.setting.trans hset₂
      have hset₄ := hs₄.setting.trans hset₃
      have hset₅ := hs₅.setting.trans hset₄
      have hset₁ : ({ log₁ with entryCount := log₁.entryCount + 1, flushed := false } :
        Logwriter).header.setting = log.header.setting := hs₁.setting
      rw [hset₁] at hp₂
      rw [hset₂, hs₂.packing] at hp₃
      rw [hset₃, hs₃.packing] at hp₄
      rw [hset₄, hs₄.packing] at hp₅
      rw [hset₅, hs₅.packing] at hp₆
      have hp₂' : p₁.enter.fill log.header.setting (writeVlq e.num1) = some p₂ := by
        rw [← hs₁.packing]
        exact hp₂
      rw [Packing.add, if_pos (show usesCompressor log.header.setting.compressionType = true from hu)]
      simp only [Packing.makeRoom, hp₁, Option.bind_some, hp₂', hp₃, hp₄, hp₅]
      exact hp₆
    · refine ⟨hs₆.writable, hs₆.packing, ?_⟩
      rw [hs₆.header, hs₅.header, hs₄.header, hs₃.header, hs₂.header, hs₁.header]
  · rw [if_neg hu] at h
    obtain ⟨_, log₂, h₂, h⟩ := ok_bind h
    have hs₂ := ok_onFileBuf_bufAdd hw h₂
    obtain ⟨_, log₃, h₃, h⟩ := ok_bind h
    have hs₃ := ok_onFileBuf_bufAdd hs₂.writable h₃
    obtain ⟨_, log₄, h₄, h⟩ := ok_bind h
    have hs₄ := ok_onFileBuf_bufAdd hs₃.writable h₄
    obtain ⟨_, log₅, h₅, h⟩ := ok_bind h
    have hs₅ := ok_onFileBuf_bufAdd hs₄.writable h₅
    cases h
    refine ⟨by rw [hhead, hbytes], { log.packing with out := log.packing.out ++ e.bytes }, ?_, ?_⟩
    · rw [Packing.add, if_neg (show ¬ usesCompressor log.header.setting.compressionType = true from hu)]
    · refine ⟨hs₅.writable, ?_, ?_⟩
      · rw [hs₅.packing, hs₄.packing, hs₃.packing, hs₂.packing, Entry.bytes, Entry.header,
          ← e.data1_append_data2]
        simp only [List.append_assoc]
      · rw [hs₅.header, hs₄.header, hs₃.header, hs₂.header]

end Writer

end Sparkey
