import Sparkey.Logreader
import Sparkey.Writer.History

/-!
# Writers on a willing system

A call to a writer can only fail because the system fails, because the compressor does,
or because the file would become too long.  So where the packing of some calls exists and
has room in a file, a system that does what it is asked for lets the calls succeed
(`exists_writing`).
-/

namespace Sparkey

open Program BlockStream

/-! ### The file buffer -/

theorem run_bufFlushfile {s : Buf × File} (hw : Unfailing s.2.writes)
    (hroom : s.2.offset + s.1.data.length ≤ maxFileSize) :
    ∃ w, bufFlushfile.run s = .ok () (s.1.reset, { s.2.put s.1.data with writes := w }) ∧
      Unfailing w := by
  obtain ⟨buf, fd⟩ := s
  obtain ⟨w, hrun, hw'⟩ := sends_writeFull buf.data fd hw hroom
  refine ⟨w, ?_, hw'⟩
  rw [bufFlushfile, run_get_bind, run_bind_ok (run_onSnd_ok hrun)]
  rfl

theorem run_bufAddLoop : ∀ (fuel : Nat) (data : List UInt8) {s : Buf × File}, 0 < s.1.size →
    Unfailing s.2.writes → s.2.offset + s.1.data.length + data.length ≤ maxFileSize →
    data.length + (if s.1.remaining = 0 then 1 else 0) < fuel →
    ∃ s', (bufAddLoop fuel data).run s = .ok () s' ∧ Unfailing s'.2.writes ∧
      s'.1.size = s.1.size := by
  intro fuel
  induction fuel with
  | zero =>
    intro data s _ _ _ hf
    omega
  | succ fuel ih =>
    rintro data ⟨buf, fd⟩ hsize hw hroom hf
    simp only at hsize hw hroom hf
    rw [bufAddLoop, run_get_bind]
    by_cases hfits : data.length ≤ buf.remaining
    · simp only [dif_pos hfits]
      exact ⟨_, rfl, hw, rfl⟩
    · simp only [dif_neg hfits]
      rw [run_set_bind]
      have htake : (data.take buf.remaining).length = buf.remaining :=
        List.length_take_of_le (by omega)
      have hdrop : (data.drop buf.remaining).length = data.length - buf.remaining := List.length_drop
      have hlen : (buf.data ++ data.take buf.remaining).length = buf.data.length + buf.remaining := by
        rw [List.length_append, htake]
      obtain ⟨w, hrun, hw'⟩ := run_bufFlushfile (s := (buf.fill data, fd)) hw (by
        show fd.offset + (buf.data ++ data.take buf.remaining).length ≤ maxFileSize
        omega)
      rw [run_bind_ok hrun]
      have hempty : (buf.fill data).reset.remaining = buf.size := Nat.sub_zero _
      obtain ⟨s', hrun', hw'', hsize'⟩ := ih (data.drop buf.remaining)
        (s := ((buf.fill data).reset, { fd.put (buf.fill data).data with writes := w })) hsize hw' (by
          show fd.offset + (buf.data ++ data.take buf.remaining).length + 0 + _ ≤ maxFileSize
          omega) (by
          rw [hempty, if_neg (Nat.ne_of_gt hsize)]
          split_ifs at hf <;> omega)
      exact ⟨s', hrun', hw'', hsize'⟩

/-- **`buf_add` succeeds** where there is room in the file. -/
theorem run_bufAdd (data : List UInt8) {s : Buf × File} (hsize : 0 < s.1.size)
    (hw : Unfailing s.2.writes) (hroom : s.2.offset + s.1.data.length + data.length ≤ maxFileSize) :
    ∃ s', (bufAdd data).run s = .ok () s' ∧ Unfailing s'.2.writes ∧ s'.1.size = s.1.size := by
  refine run_bufAddLoop _ data hsize hw hroom ?_
  split_ifs <;> omega

/-! ### The writer -/

/-- The system does what a writer asks for. -/
structure Willing (log : Logwriter) : Prop where
  writes : Unfailing log.fd.writes
  compressFails : true ∉ log.compressFails
  fileBuf : 0 < log.fileBuf.size

def Packing.Fits (p : Packing) : Prop := logHeaderSize + p.out.length ≤ maxFileSize

def Succeeds {α : Type} (x : Run Logwriter α) (log : Logwriter) : Prop :=
  ∃ a log', x.run log = .ok a log' ∧ Willing log'

section Writer

variable [Compressors] {log log' : Logwriter} {p p' : Packing} {data : List UInt8} {s : Setting}

omit [Compressors] in
theorem Packing.Fits.of_grows (h : p'.Fits) (hg : p.Grows p') : p.Fits :=
  Nat.le_trans (Nat.add_le_add_left hg.out.length_le _) h

theorem Writable.length_out (hw : Writable log) :
    logHeaderSize + log.packing.out.length = log.fd.offset + log.fileBuf.data.length := by
  have hle := hw.header_le
  have hoff := hw.atEnd.offset
  show _ + ((log.fd.data ++ log.fileBuf.data).drop logHeaderSize).length = _
  rw [List.length_drop, List.length_append]
  omega

theorem Willing.run_bufAdd (data : List UInt8) (h : Willing log) (hw : Writable log)
    (hroom : logHeaderSize + (log.packing.out ++ data).length ≤ maxFileSize) :
    Succeeds (onFileBuf (bufAdd data)) log := by
  have hout := hw.length_out
  rw [List.length_append] at hroom
  obtain ⟨s', hrun, hw', hsize⟩ := Sparkey.run_bufAdd data (s := (log.fileBuf, log.fd))
    h.fileBuf h.writes (by
      show log.fd.offset + log.fileBuf.data.length + data.length ≤ _
      omega)
  refine ⟨(), { log with fileBuf := s'.1, fd := s'.2 }, ?_, hw', h.compressFails, ?_⟩
  · simp only [onFileBuf, EStateM.run] at hrun ⊢
    rw [hrun]
  · show 0 < s'.1.size
    rw [hsize]
    exact h.fileBuf

theorem Willing.run_compress {input compressed : List UInt8} (h : Willing log) (hw : Writable log)
    (hc : log.header.setting.compress input = some compressed) :
    (compress input).run log = .ok compressed { log with compressFails := log.compressFails.tail } := by
  have hhead : log.compressFails.head? ≠ some true := fun h0 =>
    h.compressFails (List.mem_of_mem_head? h0)
  have hc' : (sparkeyCompressors log.header.compressionType).compress input log.maxCompressedSize
      = some compressed := by
    rw [hw.maxCompressedSize]
    exact hc
  rw [compress, run_get_bind, run_set_bind, if_neg hhead]
  simp only [hc']
  rfl

/-- **`flush_compressed` succeeds** where the block can be closed. -/
theorem Willing.run_flushCompressed (h : Willing log) (hw : Writable log)
    (hp : log.packing.flushBlock log.header.setting = some p) (hroom : p.Fits) :
    Succeeds flushCompressed log := by
  obtain ⟨compressed, hc, rfl⟩ := Packing.flushBlock_eq hp
  have hroom' : logHeaderSize + (log.packing.out ++ (writeVlq compressed.length ++ compressed)).length
      ≤ maxFileSize := hroom
  have h₁ : Willing { log.countBlock with compressFails := log.countBlock.compressFails.tail } :=
    ⟨h.writes, fun hmem => h.compressFails (List.mem_of_mem_tail hmem), h.fileBuf⟩
  have hw₁ : Writable { log.countBlock with compressFails := log.countBlock.compressFails.tail } :=
    ⟨hw.openStatus, hw.atEnd, hw.header_le, hw.blockSize, hw.maxCompressedSize⟩
  have h₀ : Willing log.countBlock := ⟨h.writes, h.compressFails, h.fileBuf⟩
  rw [← List.append_assoc] at hroom'
  obtain ⟨_, log₂, hrun₂, h₂⟩ := h₁.run_bufAdd (writeVlq compressed.length) hw₁ (by
    refine Nat.le_trans (Nat.add_le_add_left ?_ _) hroom'
    exact (List.prefix_append _ _).length_le)
  have hs₂ := ok_onFileBuf_bufAdd hw₁ hrun₂
  obtain ⟨_, log₃, hrun₃, h₃⟩ := h₂.run_bufAdd compressed hs₂.writable (by
    rw [hs₂.packing]
    exact hroom')
  refine ⟨(), { log₃ with blockBuf := log₃.blockBuf.reset }, ?_, h₃.writes, h₃.compressFails, h₃.fileBuf⟩
  have hrun₁ : (compress log.countBlock.blockBuf.data).run log.countBlock = _ :=
    h₀.run_compress hw.countBlock hc
  rw [flushCompressed, run_modify_bind, run_get_bind, run_bind_ok hrun₁, run_bind_ok hrun₂,
    run_bind_ok hrun₃]
  rfl

/-- The loop of `compressed_add` succeeds where the blocks can be filled. -/
theorem Willing.run_compressedAddLoop : ∀ (fuel : Nat) (data : List UInt8) {log : Logwriter},
    Willing log → Writable log →
    Packing.fillLoop log.header.setting fuel data log.packing = some p → p.Fits →
    Succeeds (compressedAddLoop fuel data) log := by
  intro fuel
  induction fuel with
  | zero =>
    intro data log _ _ hp
    cases hp
  | succ fuel ih =>
    intro data log h hw hp hroom
    have hremaining : log.blockBuf.remaining
        = log.header.setting.compressionBlockSize - log.packing.block.length := by
      rw [Buf.remaining, hw.blockSize]
      rfl
    rw [Packing.fillLoop, ← hremaining] at hp
    rw [compressedAddLoop]
    by_cases hfits : data.length ≤ log.blockBuf.remaining
    · refine ⟨(), { log with blockBuf := log.blockBuf.copy data hfits }, ?_, h.writes, h.compressFails,
        h.fileBuf⟩
      rw [run_get_bind]
      simp only [dif_pos hfits]
      rfl
    · rw [if_neg hfits] at hp
      obtain ⟨p₁, hp₁, hp⟩ := Option.bind_eq_some_iff.mp hp
      have hw₁ : Writable { log with blockBuf := log.blockBuf.fill data } :=
        ⟨hw.openStatus, hw.atEnd, hw.header_le, hw.blockSize, hw.maxCompressedSize⟩
      have h₁ : Willing { log with blockBuf := log.blockBuf.fill data } :=
        ⟨h.writes, h.compressFails, h.fileBuf⟩
      obtain ⟨_, log₁, hrun₁, h₂⟩ := h₁.run_flushCompressed hw₁ hp₁
        (hroom.of_grows (Packing.grows_fillLoop _ hp))
      obtain ⟨p₁', hp₁', hs₁⟩ := ok_flushCompressed hw₁ hrun₁
      cases hp₁.symm.trans hp₁'
      obtain ⟨a, log', hrun, h'⟩ := ih (data.drop log.blockBuf.remaining) h₂ hs₁.writable (by
        rw [hs₁.packing, hs₁.setting]
        exact hp) hroom
      refine ⟨a, log', ?_, h'⟩
      rw [run_get_bind]
      simp only [dif_neg hfits]
      rw [run_set_bind, run_bind_ok hrun₁, hrun]

/-- **`compressed_add` succeeds** where the blocks can be filled, and what comes behind it may rely
on that. -/
theorem Willing.run_compressedAdd_bind {α : Type} {f : Unit → Run Logwriter α}
    {g : Packing → Option Packing} (h : Willing log) (hw : Writable log)
    (hset : log.header.setting = s) (hp : (log.packing.fill s data).bind g = some p)
    (hg : ∀ q, g q = some p → q.Fits)
    (hf : ∀ log', Willing log' → Writable log' → log'.header.setting = s →
      g log'.packing = some p → Succeeds (f ()) log') :
    Succeeds (compressedAdd data >>= f) log := by
  obtain ⟨p₁, hp₁, hrest⟩ := Option.bind_eq_some_iff.mp hp
  subst hset
  obtain ⟨_, log₁, hrun, h₁⟩ : Succeeds (compressedAdd data) log :=
    h.run_compressedAddLoop _ data hw hp₁ (hg p₁ hrest)
  obtain ⟨p₁', hp₁', hs⟩ := ok_compressedAdd hw hrun
  cases hp₁.symm.trans hp₁'
  rw [Succeeds, run_bind_ok hrun]
  refine hf log₁ h₁ hs.writable hs.setting ?_
  rw [hs.packing]
  exact hrest

theorem Willing.run_flushIf {c d : Prop} [Decidable c] [Decidable d] (hcd : c ↔ d) (h : Willing log)
    (hw : Writable log)
    (hp : (if d then log.packing.flushBlock log.header.setting else some log.packing) = some p)
    (hroom : p.Fits) : Succeeds (onlyIf c flushCompressed) log := by
  by_cases hc : c
  · rw [if_pos (hcd.mp hc)] at hp
    rw [Succeeds, run_onlyIf_pos hc]
    exact h.run_flushCompressed hw hp hroom
  · exact ⟨(), log, run_onlyIf_neg hc _ _, h⟩

theorem Willing.run_bufAdd_bind {α : Type} {f : Unit → Run Logwriter α} {rest : List UInt8}
    (h : Willing log) (hw : Writable log)
    (hroom : logHeaderSize + (log.packing.out ++ (data ++ rest)).length ≤ maxFileSize)
    (hf : ∀ log', Willing log' → Writable log' →
      logHeaderSize + (log'.packing.out ++ rest).length ≤ maxFileSize → Succeeds (f ()) log') :
    Succeeds (onFileBuf (bufAdd data) >>= f) log := by
  rw [← List.append_assoc] at hroom
  obtain ⟨_, log₁, hrun, h₁⟩ := h.run_bufAdd data hw (by
    refine Nat.le_trans (Nat.add_le_add_left ?_ _) hroom
    exact (List.prefix_append _ _).length_le)
  have hs := ok_onFileBuf_bufAdd hw hrun
  rw [Succeeds, run_bind_ok hrun]
  refine hf log₁ h₁ hs.writable ?_
  rw [hs.packing]
  exact hroom

/-- **`log_add` succeeds** where the entry can be added. -/
theorem Willing.run_logAdd {e : Entry} (h : Willing log) (hw : Writable log)
    (hp : log.packing.add log.header.setting e = some p) (hroom : p.Fits) :
    Succeeds (logAdd e.num1 e.num2 e.data1 e.data2) log := by
  have hhead : (writeVlq e.num1).length + (writeVlq e.num2).length = e.header.length :=
    List.length_append.symm
  have hbytes : e.header.length + e.data1.length + e.data2.length = e.bytes.length := by
    rw [Entry.bytes, List.length_append, ← e.data1_append_data2, List.length_append, Nat.add_assoc]
  have hremaining : log.blockBuf.remaining
      = log.header.setting.compressionBlockSize - log.packing.block.length := by
    rw [Buf.remaining, hw.blockSize]
    rfl
  have hsize : log.blockBuf.size = log.header.setting.compressionBlockSize := hw.blockSize
  rw [logAdd]
  by_cases hu : usesCompressor log.header.compressionType = true
  · rw [Packing.add, if_pos (show usesCompressor log.header.setting.compressionType = true from hu)] at hp
    obtain ⟨p₁, hp₁, hr₁⟩ := Option.bind_eq_some_iff.mp hp
    obtain ⟨s, hs⟩ : ∃ s, s = log.header.setting := ⟨_, rfl⟩
    rw [← hs] at hp₁ hr₁
    -- there is room for what is written on the way
    have hroom₅ : ∀ q, Packing.endEntry s q = some p → q.Fits := fun q hq =>
      hroom.of_grows (Packing.grows_flushIf hq)
    have hbefore : ∀ {g : Packing → Option Packing} (data : List UInt8),
        (∀ q, g q = some p → q.Fits) → ∀ q, (Packing.fill s data q).bind g = some p → q.Fits := by
      intro g data hg q hq
      obtain ⟨q', hq', hq⟩ := Option.bind_eq_some_iff.mp hq
      exact (hg q' hq).of_grows (Packing.grows_fillLoop _ hq')
    have hroom₄ := hbefore e.data2 hroom₅
    have hroom₃ := hbefore e.data1 hroom₄
    have hroom₂ := hbefore (writeVlq e.num2) hroom₃
    have hroom₁ : p₁.Fits := hbefore (writeVlq e.num1) hroom₂ p₁.enter hr₁
    have hiff : (log.blockBuf.remaining < (writeVlq e.num1).length + (writeVlq e.num2).length ∨
        ((writeVlq e.num1).length + (writeVlq e.num2).length + e.data1.length + e.data2.length
            ≤ log.blockBuf.size ∧ log.blockBuf.remaining < (writeVlq e.num1).length
              + (writeVlq e.num2).length + e.data1.length + e.data2.length)) ↔
        (s.compressionBlockSize - log.packing.block.length < e.header.length ∨
          (e.bytes.length ≤ s.compressionBlockSize ∧
            s.compressionBlockSize - log.packing.block.length < e.bytes.length)) := by
      rw [hhead, hbytes, hremaining, hsize, hs]
    have hp₁' : (if s.compressionBlockSize - log.packing.block.length < e.header.length ∨
        (e.bytes.length ≤ s.compressionBlockSize ∧
          s.compressionBlockSize - log.packing.block.length < e.bytes.length) then
        log.packing.flushBlock log.header.setting else some log.packing) = some p₁ := by
      rw [← hs]
      exact hp₁
    obtain ⟨_, log₁, hrun₁, h₁⟩ := h.run_flushIf hiff hw hp₁' hroom₁
    obtain ⟨p₁', hp₁'', hs₁⟩ := ok_flushIf hiff hw hrun₁
    cases hp₁'.symm.trans hp₁''
    have hw₁ := hs₁.writable
    rw [Succeeds, run_get_bind, if_pos hu, run_bind_ok hrun₁, run_modify_bind]
    refine Willing.run_compressedAdd_bind ⟨h₁.writes, h₁.compressFails, h₁.fileBuf⟩
      ⟨hw₁.openStatus, hw₁.atEnd, hw₁.header_le, hw₁.blockSize, hw₁.maxCompressedSize⟩
      (hs₁.setting.trans hs.symm) ?_ hroom₂ fun log₂ h₂ hw₂ hset₂ hp₂ => ?_
    · rw [← hr₁, ← hs₁.packing]
      rfl
    refine h₂.run_compressedAdd_bind hw₂ hset₂ hp₂ hroom₃ fun log₃ h₃ hw₃ hset₃ hp₃ => ?_
    refine h₃.run_compressedAdd_bind hw₃ hset₃ hp₃ hroom₄ fun log₄ h₄ hw₄ hset₄ hp₄ => ?_
    refine h₄.run_compressedAdd_bind hw₄ hset₄ hp₄ hroom₅ fun log₅ h₅ hw₅ hset₅ hp₅ => ?_
    have hp₅' : (if log₅.packing.flushed = true ∧ 0 < log₅.packing.block.length then
        log₅.packing.flushBlock log₅.header.setting else some log₅.packing) = some p := by
      rw [hset₅]
      exact hp₅
    obtain ⟨_, log₆, hrun₆, h₆⟩ := h₅.run_flushIf (c := log₅.flushed ∧ 0 < log₅.blockBuf.used)
      Iff.rfl hw₅ hp₅' hroom
    refine ⟨(writeVlq e.num1).length + (writeVlq e.num2).length + e.data1.length + e.data2.length,
      log₆, ?_, h₆⟩
    rw [run_get_bind, run_bind_ok hrun₆]
    rfl
  · have hplain : ¬ usesCompressor log.header.setting.compressionType = true := hu
    rw [Packing.add, if_neg hplain] at hp
    cases hp
    have hroom' : logHeaderSize + (log.packing.out ++ (writeVlq e.num1 ++ (writeVlq e.num2 ++
        (e.data1 ++ e.data2)))).length ≤ maxFileSize := by
      rw [e.data1_append_data2, ← List.append_assoc (writeVlq e.num1)]
      exact hroom
    rw [Succeeds, run_get_bind, if_neg hu]
    refine h.run_bufAdd_bind hw hroom' fun log₁ h₁ hw₁ hroom₁ => ?_
    refine h₁.run_bufAdd_bind hw₁ hroom₁ fun log₂ h₂ hw₂ hroom₂ => ?_
    refine h₂.run_bufAdd_bind hw₂ hroom₂ fun log₃ h₃ hw₃ hroom₃ => ?_
    rw [← List.append_nil e.data2] at hroom₃
    exact h₃.run_bufAdd_bind hw₃ hroom₃ fun log₄ h₄ _ _ => ⟨_, log₄, rfl, h₄⟩

/-! ### Calls -/

/-- **`put` and `delete` succeed** where the entry can be added. -/
theorem Willing.run_logwriterAdd {e : Entry} (h : Willing log) (hw : Writable log)
    (hp : log.packing.add log.header.setting e = some p) (hroom : p.Fits) :
    Succeeds (logwriterAdd e) log := by
  obtain ⟨n, log₁, hrun, h₁⟩ := h.run_logAdd hw hp hroom
  rcases e with ⟨k, v⟩ | k
  · rw [Succeeds, logwriterAdd, logwriterPut, run_bind_ok (run_assertWriterOpen hw)]
    exact ⟨(), _, run_bind_ok hrun, h₁.writes, h₁.compressFails, h₁.fileBuf⟩
  · rw [Succeeds, logwriterAdd, logwriterDelete, run_bind_ok (run_assertWriterOpen hw)]
    exact ⟨(), _, run_bind_ok hrun, h₁.writes, h₁.compressFails, h₁.fileBuf⟩

/-- **A flush succeeds** where the open block can be closed. -/
theorem Willing.run_logwriterFlush (h : Willing log) (hw : Writable log)
    (hp : log.packing.flush log.header.setting = some p) (hroom : p.Fits) :
    Succeeds logwriterFlush log := by
  have hiff : 0 < log.blockBuf.used ↔ 0 < log.packing.block.length := Iff.rfl
  obtain ⟨_, log₁, hrun₁, h₁⟩ := h.run_flushIf hiff hw hp hroom
  obtain ⟨p₁, hp₁, hs₁⟩ := ok_flushIf hiff hw hrun₁
  cases hp.symm.trans hp₁
  have hw₁ := hs₁.writable
  -- the file buffer goes out
  have hfile : Succeeds (onlyIf (0 < log₁.fileBuf.used) (onFileBuf bufFlushfile)) log₁ := by
    by_cases hused : 0 < log₁.fileBuf.used
    · have hout := hw₁.length_out
      rw [hs₁.packing] at hout
      obtain ⟨w, hrun, hun⟩ := run_bufFlushfile (s := (log₁.fileBuf, log₁.fd)) h₁.writes
        (hout ▸ hroom)
      refine ⟨(), { log₁ with
        fileBuf := log₁.fileBuf.reset
        fd := { log₁.fd.put log₁.fileBuf.data with writes := w } }, ?_, hun, h₁.compressFails,
        h₁.fileBuf⟩
      rw [run_onlyIf_pos hused]
      simp only [onFileBuf, EStateM.run] at hrun ⊢
      rw [hrun]
    · exact ⟨(), log₁, run_onlyIf_neg hused _ _, h₁⟩
  obtain ⟨_, log₂, hrun₂, h₂⟩ := hfile
  obtain ⟨hs₂, -⟩ := ok_flushFile hw₁ hrun₂
  -- and the header over the old one
  obtain ⟨header, hheader⟩ : ∃ header : Logheader,
      header = { log₂.header with dataEnd := u64 log₂.fd.offset } := ⟨_, rfl⟩
  obtain ⟨w, hrun₃, hun⟩ := sends_writeLogheader header (log₂.fd.seek 0) h₂.writes (by
    rw [Logheader.length_bytes]
    show 0 + 84 ≤ 2 ^ 63 - 1
    decide)
  refine ⟨(), { log₂ with
    header := header
    fd := { ((log₂.fd.seek 0).put header.bytes) with writes := w, offset := log₂.fd.offset } }, ?_,
    hun, h₂.compressFails, h₂.fileBuf⟩
  rw [logwriterFlush, run_bind_ok (run_assertWriterOpen hw), run_get_bind, run_bind_ok hrun₁,
    run_get_bind, run_bind_ok hrun₂, run_get_bind, run_set_bind, run_get_bind, ← hheader]
  have hwrite : (onFileBuf (onSnd (writeLogheader header))).run
      { log₂ with header := header, fd := log₂.fd.seek 0 } = .ok () { log₂ with
        header := header
        fd := { ((log₂.fd.seek 0).put header.bytes) with writes := w } } := by
    have hsnd : (onSnd (writeLogheader header)).run (log₂.fileBuf, log₂.fd.seek 0) = _ :=
      run_onSnd_ok hrun₃
    simp only [onFileBuf, EStateM.run] at hsnd ⊢
    rw [hsnd]
  rw [run_bind_ok hwrite]
  rfl

theorem exists_logwriterCreate {t : CompressionType} {n : Nat}
    (hsize : usesCompressor t = true → 10 ≤ n) :
    ∃ env log, logwriterCreate env t n = .ok log ∧ Willing log := by
  have hn : ¬ (usesCompressor t = true ∧ n < 10) := fun h => by
    have := hsize h.1
    omega
  obtain ⟨size, hs⟩ : ∃ size, size = if usesCompressor t then n else 0 := ⟨_, rfl⟩
  obtain ⟨w, hrun, hun⟩ := sends_writeLogheader (newLogheader (u32 0) t size)
    { data := [], offset := 0, writes := [] } (fun e => List.not_mem_nil) (by
      rw [Logheader.length_bytes]
      show 0 + 84 ≤ 2 ^ 63 - 1
      decide)
  have hoff : (File.put { data := [], offset := 0, writes := [] }
      (newLogheader (u32 0) t size).bytes).offset = logHeaderSize := by
    show 0 + (newLogheader (u32 0) t size).bytes.length = _
    rw [Nat.zero_add, Logheader.length_bytes]
  have hcreate : ∃ log, logwriterCreate ⟨some 0, [], []⟩ t n = .ok log ∧ log.fd.writes = w ∧
      log.compressFails = [] ∧ log.fileBuf.size = fileBufSize := by
    rw [logwriterCreate, if_neg hn]
    simp only [← hs, hrun]
    rw [if_neg (not_not_intro hoff)]
    exact ⟨_, rfl, rfl, rfl, rfl⟩
  obtain ⟨log, hlog, hwrites, hfails, hbuf⟩ := hcreate
  refine ⟨_, log, hlog, hwrites ▸ hun, ?_, ?_⟩
  · rw [hfails]
    exact List.not_mem_nil
  · rw [hbuf]
    decide

/-- **Calls succeed** whose packing exists, and has room in a file. -/
theorem exists_writing {t : CompressionType} {n : Nat} {calls : List Call}
    (hn : n < 2 ^ 31) (hsize : usesCompressor t = true → 10 ≤ n) (hcalls : ∀ c ∈ calls, c ≠ .reopen)
    (hp : pack (.of t n) calls = some p) (hroom : p.Fits) :
    ∃ log, Writing t n calls log ∧ Willing log := by
  induction calls using List.reverseRecOn generalizing p with
  | nil =>
    obtain ⟨env, log, hcreate, h⟩ := exists_logwriterCreate hsize
    exact ⟨log, .create hn hcreate, h⟩
  | append_singleton calls c ih =>
    rw [pack_append] at hp
    obtain ⟨p₁, hp₁, hc⟩ := Option.bind_eq_some_iff.mp hp
    obtain ⟨log₁, hw₁, h₁⟩ := ih (fun c hc => hcalls c (List.mem_append_left _ hc)) hp₁
      (hroom.of_grows (Packing.grows_call hc))
    obtain ⟨hk, hpack⟩ := kept_of_writing hw₁
    cases hp₁.symm.trans hpack
    rw [← hk.setting] at hc
    cases c with
    | add e =>
      obtain ⟨_, log, hrun, h⟩ := h₁.run_logwriterAdd hk.writable hc hroom
      exact ⟨log, hw₁.add e hrun, h⟩
    | flush =>
      obtain ⟨_, log, hrun, h⟩ := h₁.run_logwriterFlush hk.writable hc hroom
      exact ⟨log, hw₁.flush hrun, h⟩
    | reopen => exact absurd rfl (hcalls .reopen (List.mem_append_right _ (List.mem_singleton_self _)))

omit [Compressors] in
theorem Flushed.exists_open {w : Logwriter} (hf : Flushed w)
    (hload : loadLogheader (some w.fd.data) = .ok w.header) :
    ∃ log, logreaderOpen (some w.fd.data) = .ok log := by
  rw [logreaderOpen, hload]
  simp only [Option.getD_some]
  rw [if_neg (Nat.not_lt_of_le (Nat.le_of_eq hf.dataEnd))]
  exact ⟨_, rfl⟩

/-- **A log can be written and opened**, if its packing has room in a file.  A header takes as many
bytes as it may count entries without further ado. -/
theorem exists_log {t : CompressionType} {n : Nat} {calls : List Call} (hn : n < 2 ^ 31)
    (hsize : usesCompressor t = true → 10 ≤ n) (hcalls : ∀ c ∈ calls, c ≠ .reopen)
    (hp : pack (.of t n) (calls ++ [.flush]) = some p) (hroom : p.Fits)
    (hfew : (entriesOf calls).length ≤ logHeaderSize) :
    ∃ w w' log, Writing t n calls w ∧ logwriterFlush.run w = .ok () w' ∧
      logreaderOpen (some w'.fd.data) = .ok log := by
  rw [pack_append] at hp
  obtain ⟨p₁, hp₁, hc⟩ := Option.bind_eq_some_iff.mp hp
  obtain ⟨w, hw, h⟩ := exists_writing hn hsize hcalls hp₁ (hroom.of_grows (Packing.grows_call hc))
  obtain ⟨hk, hpack⟩ := kept_of_writing hw
  cases hp₁.symm.trans hpack
  rw [← hk.setting] at hc
  obtain ⟨_, w', hfl, -⟩ := h.run_logwriterFlush hk.writable hc hroom
  obtain ⟨hk', hf, -⟩ := hk.flush hfl
  have hload := hk'.loadLogheader hf
  have hend : logHeaderSize ≤ w'.header.dataEnd := by
    rw [hf.dataEnd]
    exact hk'.writable.header_le
  have hputs : w'.header.numPuts ≤ logHeaderSize := by
    rw [hk'.counts.numPuts]
    exact Nat.le_trans (Nat.mod_le _ _) (Nat.le_trans List.countP_le_length hfew)
  have hdeletes : w'.header.numDeletes ≤ logHeaderSize := by
    rw [hk'.counts.numDeletes]
    exact Nat.le_trans (Nat.mod_le _ _) (Nat.le_trans List.countP_le_length hfew)
  rw [if_neg (by omega)] at hload
  obtain ⟨log, hlog⟩ := hf.exists_open hload
  exact ⟨w, w', log, hw, hfl, hlog⟩

/-! ### Packings that exist -/

/-- Compressing a block that is not empty does not fail, and costs three bytes at most. -/
def Setting.Packs (s : Setting) : Prop :=
  ∀ input : List UInt8, input ≠ [] → input.length ≤ s.compressionBlockSize →
    ∃ compressed, s.compress input = some compressed ∧ (frame compressed).length ≤ input.length + 3

def Packing.cost (s : Setting) (p : Packing) : Nat :=
  s.compressionBlockSize * p.out.length + (s.compressionBlockSize + 3) * p.block.length

theorem Setting.Packs.flushBlock (h : s.Packs) (hne : p.block ≠ [])
    (hle : p.block.length ≤ s.compressionBlockSize) :
    ∃ p', p.flushBlock s = some p' ∧ p'.block = [] ∧
      ∀ n, p.block.length ≤ n → p'.cost s ≤ s.compressionBlockSize * p.out.length
        + s.compressionBlockSize * (n + 3) := by
  obtain ⟨compressed, hc, hframe⟩ := h p.block hne hle
  refine ⟨⟨p.out ++ frame compressed, [], true, 0, p.peak⟩, ?_, rfl, ?_⟩
  · rw [Packing.flushBlock, hc]
    rfl
  · intro n hn
    show s.compressionBlockSize * (p.out ++ frame compressed).length
      + (s.compressionBlockSize + 3) * 0 ≤ _
    rw [Nat.mul_zero, Nat.add_zero, List.length_append, Nat.mul_add]
    exact Nat.add_le_add_left (Nat.mul_le_mul_left _ (by omega)) _

theorem Setting.Packs.fillLoop (h : s.Packs) (hs : 0 < s.compressionBlockSize) :
    ∀ (fuel : Nat) (data : List UInt8) {p : Packing}, p.block.length ≤ s.compressionBlockSize →
      data.length + (if p.block.length = s.compressionBlockSize then 1 else 0) < fuel →
      ∃ p', Packing.fillLoop s fuel data p = some p' ∧ p'.block.length ≤ s.compressionBlockSize ∧
        p'.cost s ≤ p.cost s + (s.compressionBlockSize + 3) * data.length := by
  intro fuel
  induction fuel with
  | zero =>
    intro data p _ hf
    omega
  | succ fuel ih =>
    intro data p hle hf
    rw [Packing.fillLoop]
    by_cases hfits : data.length ≤ s.compressionBlockSize - p.block.length
    · rw [if_pos hfits]
      refine ⟨_, rfl, ?_, ?_⟩
      · rw [List.length_append]
        omega
      · show s.compressionBlockSize * p.out.length
          + (s.compressionBlockSize + 3) * (p.block ++ data).length ≤ _
        rw [List.length_append, Nat.mul_add, ← Nat.add_assoc]
        exact Nat.le_refl _
    · rw [if_neg hfits]
      obtain ⟨r, hr⟩ : ∃ r, r = s.compressionBlockSize - p.block.length := ⟨_, rfl⟩
      rw [← hr] at hfits ⊢
      have htake : (data.take r).length = r := List.length_take_of_le (by omega)
      have hdrop : (data.drop r).length = data.length - r := List.length_drop
      have hfull : (p.block ++ data.take r).length = s.compressionBlockSize := by
        rw [List.length_append, htake]
        omega
      obtain ⟨p₁, hp₁, hnil, hcost₁⟩ := h.flushBlock (p := { p with block := p.block ++ data.take r })
        (List.length_pos_iff.mp (hfull ▸ hs)) (Nat.le_of_eq hfull)
      obtain ⟨p', hp', hle', hcost'⟩ := ih (data.drop r) (p := p₁) (by
        rw [hnil]
        exact Nat.zero_le _) (by
        rw [hnil, List.length_nil, if_neg (Nat.ne_of_lt hs)]
        split_ifs at hf <;> omega)
      refine ⟨p', ?_, hle', Nat.le_trans hcost' ?_⟩
      · show (Packing.flushBlock s { p with block := p.block ++ data.take r }).bind _ = some p'
        rw [hp₁]
        exact hp'
      · have hcost := hcost₁ s.compressionBlockSize (Nat.le_of_eq hfull)
        have hlen : p.block.length + data.length = s.compressionBlockSize + (data.length - r) := by
          omega
        have hsplit : (s.compressionBlockSize + 3) * p.block.length
            + (s.compressionBlockSize + 3) * data.length
            = s.compressionBlockSize * (s.compressionBlockSize + 3)
              + (s.compressionBlockSize + 3) * (data.length - r) := by
          rw [← Nat.mul_add, hlen, Nat.mul_add, Nat.mul_comm s.compressionBlockSize]
        have hp₀ : p.cost s = s.compressionBlockSize * p.out.length
            + (s.compressionBlockSize + 3) * p.block.length := rfl
        simp only at hcost
        rw [hdrop]
        omega

theorem Setting.Packs.fill (h : s.Packs) (hs : 0 < s.compressionBlockSize) (data : List UInt8)
    (hle : p.block.length ≤ s.compressionBlockSize) :
    ∃ p', p.fill s data = some p' ∧ p'.block.length ≤ s.compressionBlockSize ∧
      p'.cost s ≤ p.cost s + (s.compressionBlockSize + 3) * data.length := by
  refine h.fillLoop hs _ data hle ?_
  split_ifs <;> omega

theorem Setting.Packs.flushIf {c : Prop} [Decidable c] (h : s.Packs) (hne : c → p.block ≠ [])
    (hle : p.block.length ≤ s.compressionBlockSize) :
    ∃ p', (if c then p.flushBlock s else some p) = some p' ∧
      p'.block.length ≤ s.compressionBlockSize ∧ p'.cost s ≤ p.cost s + 3 * s.compressionBlockSize := by
  by_cases hc : c
  · obtain ⟨p', hp', hnil, hcost⟩ := h.flushBlock (hne hc) hle
    refine ⟨p', by rw [if_pos hc, hp'], by rw [hnil]; exact Nat.zero_le _, ?_⟩
    have hcost := hcost _ (Nat.le_refl _)
    have hle' : s.compressionBlockSize * p.block.length
        ≤ (s.compressionBlockSize + 3) * p.block.length := Nat.mul_le_mul_right _ (Nat.le_add_right _ _)
    have hp₀ : p.cost s = s.compressionBlockSize * p.out.length
        + (s.compressionBlockSize + 3) * p.block.length := rfl
    rw [Nat.mul_add] at hcost
    omega
  · exact ⟨p, by rw [if_neg hc], hle, Nat.le_add_right _ _⟩

/-- **An entry can be added**, unless its head is too large for an empty block. -/
theorem Setting.Packs.add {e : Entry} (h : s.Packs) (hs : 0 < s.compressionBlockSize)
    (hu : usesCompressor s.compressionType = true) (hle : p.block.length ≤ s.compressionBlockSize)
    (hne : p.block ≠ [] ∨ e.header.length ≤ s.compressionBlockSize) :
    ∃ p', p.add s e = some p' ∧ p'.block.length ≤ s.compressionBlockSize ∧
      p'.cost s ≤ p.cost s + (s.compressionBlockSize + 3) * e.bytes.length
        + 6 * s.compressionBlockSize := by
  have hbytes : (writeVlq e.num1).length + (writeVlq e.num2).length + e.data1.length + e.data2.length
      = e.bytes.length := by
    rw [Entry.bytes, Entry.header, ← e.data1_append_data2]
    simp only [List.length_append, Nat.add_assoc]
  obtain ⟨p₁, hp₁, hle₁, hcost₁⟩ := h.flushIf (c :=
    s.compressionBlockSize - p.block.length < e.header.length ∨
      (e.bytes.length ≤ s.compressionBlockSize ∧
        s.compressionBlockSize - p.block.length < e.bytes.length)) (fun hc h0 => by
    have := hne.resolve_left (not_not_intro h0)
    rw [h0, List.length_nil] at hc
    omega) hle
  obtain ⟨p₂, hp₂, hle₂, hcost₂⟩ := h.fill (p := p₁.enter) hs (writeVlq e.num1) hle₁
  obtain ⟨p₃, hp₃, hle₃, hcost₃⟩ := h.fill hs (writeVlq e.num2) hle₂
  obtain ⟨p₄, hp₄, hle₄, hcost₄⟩ := h.fill hs e.data1 hle₃
  obtain ⟨p₅, hp₅, hle₅, hcost₅⟩ := h.fill hs e.data2 hle₄
  obtain ⟨p₆, hp₆, hle₆, hcost₆⟩ := h.flushIf (c := p₅.flushed = true ∧ 0 < p₅.block.length)
    (fun hc => List.length_pos_iff.mp hc.2) hle₅
  refine ⟨p₆, ?_, hle₆, ?_⟩
  · rw [Packing.add, if_pos hu, Packing.makeRoom, hp₁]
    simp only [Option.bind_some, hp₂, hp₃, hp₄, hp₅]
    exact hp₆
  · have henter : p₁.enter.cost s = p₁.cost s := rfl
    rw [← hbytes]
    simp only [Nat.mul_add]
    omega

omit [Compressors] in
theorem packs_literal {t : CompressionType} {n : Nat} (hu : usesCompressor t = true) (hn : n ≤ 60) :
    letI := literalCompressors
    (Setting.of t n).Packs := by
  let := literalCompressors
  have hsize : (Setting.of t n).compressionBlockSize = n := if_pos hu
  intro input hne hle
  rw [hsize] at hle
  have hpos := List.length_pos_iff.mpr hne
  have hmax : input.length + 2 ≤ snappyLiteral.maxCompressedSize n := by
    show input.length + 2 ≤ min (32 + n + n / 6) (2 ^ 32 - 1)
    omega
  refine ⟨UInt8.ofNat input.length :: UInt8.ofNat (4 * (input.length - 1)) :: input, ?_, ?_⟩
  · show snappyLiteral.compress input (snappyLiteral.maxCompressedSize _) = _
    rw [hsize]
    exact if_pos ⟨hpos, by omega, hmax⟩
  · rw [frame, List.length_append, List.length_cons, List.length_cons,
      length_writeVlq 0 _ (by omega) (Or.inr rfl)]
    omega

omit [Compressors] in
theorem Packing.out_le_cost (s : Setting) (p : Packing) :
    s.compressionBlockSize * p.out.length ≤ p.cost s := Nat.le_add_right _ _

end Writer

end Sparkey
