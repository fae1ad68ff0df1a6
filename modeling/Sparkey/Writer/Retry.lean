import Sparkey.Crash
import Sparkey.Writer.Growth

/-!
# Going on after a flush that failed

`sparkey_logwriter_flush` and `sparkey_logwriter_close` leave the writer to the caller when they
answer an error.  A flush whose bytes the system refuses before it has taken one of them can be
made again, or the caller goes on without it: nothing is lost and nothing is there twice
(`logged_of_insisting`).

A flush that stops in the header leaves the descriptor there.  The next one takes this place for
the end of the data and answers a success, and the file cannot be opened any more
(`refused_of_insisting`).
-/

namespace Sparkey

open Program BlockStream

/-! ### Where a flush stops -/

section Stops

variable {log log' : Logwriter} {e : Program.Stop Returncode}

theorem error_bufFlushfile {s s' : Buf × File} (h : bufFlushfile.run s = .error e s') :
    ∃ w k, k < s.1.data.length ∧ s' = (s.1, { s.2.put (s.1.data.take k) with writes := w }) := by
  obtain ⟨buf, fd⟩ := s
  have hw := wrote_writeFull buf.data fd
  rw [bufFlushfile, run_get_bind] at h
  cases hr : (writeFull buf.data).run fd with
  | ok u fd' =>
    rw [run_bind_ok (run_onSnd_ok hr)] at h
    cases h
  | error e' fd' =>
    rw [hr] at hw
    obtain ⟨code, w, k, -, hk, rfl⟩ := hw
    rw [run_bind_error (run_onSnd_error hr)] at h
    cases h
    exact ⟨w, k, hk, rfl⟩

theorem error_onFileBuf_bufFlushfile (h : (onFileBuf bufFlushfile).run log = .error e log') :
    ∃ w k, k < log.fileBuf.data.length ∧
      log' = { log with fd := { log.fd.put (log.fileBuf.data.take k) with writes := w } } := by
  simp only [onFileBuf, EStateM.run] at h
  cases hr : bufFlushfile (log.fileBuf, log.fd) with
  | ok u s' =>
    simp only [hr] at h
    cases h
  | error e' s' =>
    obtain ⟨w, k, hk, rfl⟩ := error_bufFlushfile hr
    simp only [hr] at h
    cases h
    exact ⟨w, k, hk, rfl⟩

theorem error_writeHeader {header : Logheader}
    (h : (onFileBuf (onSnd (writeLogheader header))).run log = .error e log') :
    ∃ w k, k < logHeaderSize ∧
      log' = { log with fd := { log.fd.put (header.bytes.take k) with writes := w } } := by
  have hw := wrote_writeLogheader header log.fd
  simp only [onFileBuf, onSnd, EStateM.run] at h
  cases hr : (writeLogheader header).run log.fd with
  | ok u fd =>
    simp only [EStateM.run] at hr
    simp only [hr] at h
    cases h
  | error e' fd =>
    rw [hr] at hw
    obtain ⟨code, w, k, -, hk, rfl⟩ := hw
    rw [Logheader.length_bytes] at hk
    simp only [EStateM.run] at hr
    simp only [hr] at h
    cases h
    exact ⟨w, k, hk, rfl⟩

theorem keeps_onFileBuf {α : Type} (x : Run (Buf × File) α) (b : Buf) :
    Preserves (fun log => log.blockBuf = b) (onFileBuf x) := by
  intro log hlog
  simp only [onFileBuf, EStateM.run]
  cases x (log.fileBuf, log.fd) with
  | ok a s => exact hlog
  | error e s =>
    cases e with
    | rc code => exact hlog
    | stuck => trivial

variable [Compressors] {code : Returncode}

theorem keeps_compress (input : List UInt8) (b : Buf) :
    Preserves (fun log => log.blockBuf = b) (compress input) := by
  intro log hlog
  rw [compress, run_get_bind, run_set_bind]
  split_ifs
  · exact hlog
  · cases (sparkeyCompressors log.header.compressionType).compress input log.maxCompressedSize with
    | none => exact hlog
    | some compressed => exact hlog

/-- **A block that is not closed stays.** -/
theorem error_flushCompressed (h : flushCompressed.run log = .error (.rc code) log') :
    log'.blockBuf = log.blockBuf := by
  rw [flushCompressed, run_modify_bind, run_get_bind] at h
  have hb : log.countBlock.blockBuf = log.blockBuf := rfl
  rcases error_bind h with h | ⟨compressed, log₁, h₁, h⟩
  · exact (keeps_compress _ _).of_leadsTo hb (Or.inr ⟨code, h⟩)
  have hb₁ := (keeps_compress _ _).of_leadsTo hb (Or.inl ⟨_, h₁⟩)
  rcases error_bind h with h | ⟨_, log₂, h₂, h⟩
  · exact (keeps_onFileBuf _ _).of_leadsTo hb₁ (Or.inr ⟨code, h⟩)
  have hb₂ := (keeps_onFileBuf _ _).of_leadsTo hb₁ (Or.inl ⟨_, h₂⟩)
  rcases error_bind h with h | ⟨_, log₃, -, h⟩
  · exact (keeps_onFileBuf _ _).of_leadsTo hb₂ (Or.inr ⟨code, h⟩)
  · cases h

omit [Compressors] in
theorem grows_onFileBuf_bufAdd {data : List UInt8} {u : Unit} (ha : AtEnd log.fd)
    (h : (onFileBuf (bufAdd data)).run log = .ok u log') : log.fd.data <+: log'.fd.data := by
  simp only [onFileBuf, EStateM.run] at h
  cases hr : bufAdd data (log.fileBuf, log.fd) with
  | error e s =>
    simp only [hr] at h
    cases h
  | ok v s' =>
    simp only [hr] at h
    cases h
    exact (ok_bufAdd (s := (log.fileBuf, log.fd)) ha hr).grows

theorem grows_flushCompressed {u : Unit} (hw : Writable log) (h : flushCompressed.run log = .ok u log') :
    log.fd.data <+: log'.fd.data := by
  rw [flushCompressed, run_modify_bind, run_get_bind] at h
  obtain ⟨compressed, log₁, hc, h⟩ := ok_bind h
  obtain ⟨-, rfl⟩ := ok_compress hw.countBlock hc
  obtain ⟨_, log₂, h₂, h⟩ := ok_bind h
  obtain ⟨_, log₃, h₃, h⟩ := ok_bind h
  cases h
  have hw₁ : Writable { log.countBlock with
      compressFails := log.countBlock.compressFails.tail } :=
    ⟨hw.openStatus, hw.atEnd, hw.header_le, hw.blockSize, hw.maxCompressedSize⟩
  have hw₂ := (ok_onFileBuf_bufAdd hw₁ h₂).writable
  have hgrows₂ := grows_onFileBuf_bufAdd hw₁.atEnd h₂
  have hgrows₃ := grows_onFileBuf_bufAdd hw₂.atEnd h₃
  exact hgrows₂.trans hgrows₃

/-- **Where a flush stops**: at its block, at the bytes of the file buffer, or in the header. -/
theorem error_logwriterFlush_cases (hw : Writable log)
    (h : logwriterFlush.run log = .error (.rc code) log') :
    log'.blockBuf.data ≠ [] ∨
    ∃ p log₁, log.packing.flush log.header.setting = some p ∧ Step log log₁ p ∧
      ((log.fd.data <+: log₁.fd.data ∧ ∃ w k, k < log₁.fileBuf.data.length ∧
        log' = { log₁ with fd := { log₁.fd.put (log₁.fileBuf.data.take k) with writes := w } }) ∨
      log₁.fileBuf.data = [] ∧ ∃ w k, k < logHeaderSize ∧
        ∃ header, header = { log₁.header with dataEnd := u64 log₁.fd.offset } ∧
        log' = { log₁ with header := header, fd :=
          { (log₁.fd.seek 0).put (header.bytes.take k) with writes := w } }) := by
  rw [logwriterFlush, run_bind_ok (run_assertWriterOpen hw), run_get_bind] at h
  rcases error_bind h with h | ⟨_, log₁, h₁, h⟩
  · left
    by_cases hused : 0 < log.blockBuf.used
    · rw [run_onlyIf_pos hused] at h
      rw [error_flushCompressed h]
      exact List.length_pos_iff.mp hused
    · rw [run_onlyIf_neg hused] at h
      cases h
  obtain ⟨p, hp, hs₁⟩ := ok_flushIf (d := 0 < log.packing.block.length) Iff.rfl hw h₁
  have hgrows : log.fd.data <+: log₁.fd.data := by
    by_cases hused : 0 < log.blockBuf.used
    · rw [run_onlyIf_pos hused] at h₁
      exact grows_flushCompressed hw h₁
    · rw [run_onlyIf_neg hused] at h₁
      cases h₁
      exact List.prefix_refl _
  rw [run_get_bind] at h
  right
  rcases error_bind h with h | ⟨_, log₂, h₂, h⟩
  · by_cases hused : 0 < log₁.fileBuf.used
    · rw [run_onlyIf_pos hused] at h
      exact ⟨p, log₁, hp, hs₁, Or.inl ⟨hgrows, error_onFileBuf_bufFlushfile h⟩⟩
    · rw [run_onlyIf_neg hused] at h
      cases h
  obtain ⟨hs₂, hbuf⟩ := ok_flushFile hs₁.writable h₂
  have hs : Step log log₂ p := by
    have := hs₁.trans hs₂
    rwa [hs₁.packing] at this
  rw [run_get_bind, run_set_bind, run_get_bind] at h
  rcases error_bind h with h | ⟨_, log₃, -, h⟩
  · obtain ⟨w, k, hk, rfl⟩ := error_writeHeader h
    exact ⟨p, log₂, hp, hs, Or.inr ⟨hbuf, w, k, hk, _, rfl, rfl⟩⟩
  · cases h

end Stops

/-! ### Flushes that are refused -/

section Insisting

variable [Compressors] {log log' : Logwriter} {s : Setting} {es : List Entry} {p : Packing}
  {code : Returncode}

/-- The system took nothing of what the call had for it: the file is what it was, and the bytes are
still in the file buffer. -/
structure Refused (log log' : Logwriter) : Prop where
  data : log'.fd.data = log.fd.data
  block : log'.blockBuf.data = []
  file : log'.fileBuf.data ≠ []

instance (log log' : Logwriter) : Decidable (Refused log log') :=
  decidable_of_iff (log'.fd.data = log.fd.data ∧ log'.blockBuf.data = [] ∧ log'.fileBuf.data ≠ [])
    ⟨fun h => ⟨h.1, h.2.1, h.2.2⟩, fun h => ⟨h.1, h.2, h.3⟩⟩

theorem Kept.step_flush (hk : Kept s es log) (hp : log.packing.flush s = some p) (hs : Step log log' p) :
    Kept s es log' := by
  refine ⟨hs.writable, ?_, ?_, ?_, hk.blockSize_lt, hk.plain, ?_, ?_⟩
  · rw [hs.header]
    exact hk.setting
  · rw [hs.header]
    exact ⟨hk.current.1, hk.current.2, hk.current.3⟩
  · rw [hs.header]
    exact hk.fileIdentifier_lt
  · rw [hs.packing]
    exact hk.loose.flush hp
  · rw [hs.header]
    exact hk.counts.congr rfl rfl rfl rfl rfl rfl

/-- **A flush that is refused** has packed the block, and no more. -/
theorem Kept.refused (hk : Kept s es log) (h : logwriterFlush.run log = .error (.rc code) log')
    (hr : Refused log log') : Kept s es log' ∧ log.packing.flush s = some log'.packing := by
  rcases error_logwriterFlush_cases hk.writable h with hblock | ⟨p, log₁, hp, hs, hstop⟩
  · exact absurd hr.block hblock
  rw [hk.setting] at hp
  rcases hstop with ⟨hgrows, w, k, hk', rfl⟩ | ⟨hbuf, w, k, -, header, -, rfl⟩
  · have hw₁ := hs.writable
    -- the file did not grow, so nothing was taken
    have hput : (log₁.fd.put (log₁.fileBuf.data.take k)).data
        = log₁.fd.data ++ log₁.fileBuf.data.take k := by
      show splice log₁.fd.data log₁.fd.offset _ = _
      rw [hw₁.atEnd.offset, splice_length]
    have hk0 : k = 0 := by
      have hlen := congrArg List.length (hput.symm.trans hr.data)
      have hle := hgrows.length_le
      rw [List.length_append, List.length_take_of_le (Nat.le_of_lt hk')] at hlen
      omega
    have hfd : ({ log₁.fd.put (log₁.fileBuf.data.take k) with writes := w } : File)
        = { log₁.fd with writes := w } := by
      rw [hk0, List.take_zero, File.put_nil]
    rw [hfd]
    have hs' : Step log { log₁ with fd := { log₁.fd with writes := w } } p :=
      ⟨⟨hw₁.openStatus, ⟨hw₁.atEnd.offset, hw₁.atEnd.le_max⟩, hw₁.header_le, hw₁.blockSize,
        hw₁.maxCompressedSize⟩, hs.packing, hs.header⟩
    refine ⟨hk.step_flush hp hs', ?_⟩
    rw [hs'.packing]
    exact hp
  · exact absurd hbuf hr.file

/-- A writer that came about by calls that succeeded, and by flushes and closes that were refused
and that the caller went on from. -/
inductive Insisting (t : CompressionType) (n : Nat) : List Call → Logwriter → Prop
  | create {env : WriterEnv} {log : Logwriter} : n < 2 ^ 31 → logwriterCreate env t n = .ok log →
      Insisting t n [] log
  | call {calls : List Call} {c : Call} {log log' : Logwriter} : Insisting t n calls log →
      Done c log log' → Insisting t n (calls ++ [c]) log'
  | flush {calls : List Call} {log log' : Logwriter} {code : Returncode} : Insisting t n calls log →
      logwriterFlush.run log = .error (.rc code) log' → Refused log log' →
      Insisting t n (calls ++ [.flush]) log'
  | close {calls : List Call} {log log' : Logwriter} {code : Returncode} : Insisting t n calls log →
      logwriterClose.run log = .error (.rc code) log' → Refused log log' →
      Insisting t n (calls ++ [.flush]) log'

variable {t : CompressionType} {n : Nat} {calls : List Call} {w w' : Logwriter} {log : Logreader}

theorem kept_of_insisting (h : Insisting t n calls w) :
    Kept (.of t n) (entriesOf calls) w ∧ pack (.of t n) calls = some w.packing := by
  induction h with
  | create hlt h =>
    obtain ⟨hk, hp⟩ := ok_logwriterCreate hlt h
    exact ⟨hk, by rw [hp]; rfl⟩
  | call _ h ih =>
    obtain ⟨hk, hp⟩ := ih
    obtain ⟨hk', hp', -⟩ := hk.done h
    rw [entriesOf_append, pack_append, hp]
    exact ⟨hk', hp'⟩
  | flush _ h hr ih =>
    obtain ⟨hk, hp⟩ := ih
    obtain ⟨hk', hp'⟩ := hk.refused h hr
    rw [entriesOf_flush, pack_append, hp]
    exact ⟨hk', hp'⟩
  | close _ h hr ih =>
    obtain ⟨hk, hp⟩ := ih
    obtain ⟨hk', hp'⟩ := hk.refused (error_logwriterClose hk.writable h) hr
    rw [entriesOf_flush, pack_append, hp]
    exact ⟨hk', hp'⟩

/-- The next write goes into the header, and there is nothing else to be written. -/
structure Adrift (log : Logwriter) : Prop where
  openStatus : log.openStatus = magicValueLogwriter
  block : log.blockBuf.data = []
  file : log.fileBuf.data = []
  offset_lt : log.fd.offset < logHeaderSize
  header_le : logHeaderSize ≤ log.fd.data.length
  fits : ∀ d < 2 ^ 63, ({ log.header with dataEnd := d } : Logheader).Fits
  current : log.header.Current

variable {v v' : Logwriter}

theorem Kept.fits_dataEnd (hk : Kept s es v) {d : Nat} (hlt : d < 2 ^ 63) :
    ({ v.header with dataEnd := d } : Logheader).Fits := by
  have hw := hk.writable
  have hk' : Kept s es { v with header := { v.header with dataEnd := d } } :=
    ⟨⟨hw.openStatus, hw.atEnd, hw.header_le, hw.blockSize, hw.maxCompressedSize⟩, hk.setting,
      ⟨hk.current.1, hk.current.2, hk.current.3⟩, hk.fileIdentifier_lt, hk.blockSize_lt, hk.plain,
      hk.loose, hk.counts.congr rfl rfl rfl rfl rfl rfl⟩
  exact hk'.fits hlt

omit [Compressors] in
theorem File.le_length_put (f : File) (bytes : List UInt8) (h : f.offset ≤ f.data.length) :
    f.data.length ≤ (f.put bytes).data.length := by
  show _ ≤ (splice f.data f.offset bytes).length
  rw [length_splice _ _ h]
  exact Nat.le_max_left _ _

/-- **A flush that stops in the header** leaves the descriptor there. -/
theorem Kept.adrift (hk : Kept s es v) (h : logwriterFlush.run v = .error (.rc code) v')
    (hblock : v'.blockBuf.data = []) (hfile : v'.fileBuf.data = []) : Adrift v' := by
  rcases error_logwriterFlush_cases hk.writable h with hb | ⟨p, v₁, hp, hs, hstop⟩
  · exact absurd hblock hb
  rw [hk.setting] at hp
  have hk₁ := hk.step_flush hp hs
  rcases hstop with ⟨-, w, k, hk', rfl⟩ | ⟨hbuf, w, k, hlt, header, rfl, rfl⟩
  · rw [hfile] at hk'
    exact absurd hk' (Nat.not_lt_zero _)
  · refine ⟨hs.writable.openStatus, hblock, hbuf, ?_, ?_, fun d hd => hk₁.fits_dataEnd hd,
      ⟨hk₁.current.1, hk₁.current.2, hk₁.current.3⟩⟩
    · show 0 + (List.take k _).length < logHeaderSize
      rw [List.length_take]
      omega
    · exact Nat.le_trans hs.writable.header_le (File.le_length_put (v₁.fd.seek 0) _ (Nat.zero_le _))

theorem Adrift.run_flush (h : Adrift v) :
    logwriterFlush.run v = (do
      onFileBuf (onSnd (writeLogheader { v.header with dataEnd := v.fd.offset }))
      modify fun log => { log with fd := log.fd.seek v.fd.offset } : Run Logwriter Unit).run
        { v with header := { v.header with dataEnd := v.fd.offset }, fd := v.fd.seek 0 } := by
  have hopen : ¬ v.openStatus ≠ magicValueLogwriter := not_not_intro h.openStatus
  have hassert : assertWriterOpen.run v = .ok () v := by
    simp only [assertWriterOpen, EStateM.run_bind, EStateM.run_get, if_neg hopen, EStateM.run_pure]
  have hblock : ¬ 0 < v.blockBuf.used := by
    rw [Buf.used, h.block]
    exact Nat.lt_irrefl 0
  have hfile : ¬ 0 < v.fileBuf.used := by
    rw [Buf.used, h.file]
    exact Nat.lt_irrefl 0
  have hpos : u64 v.fd.offset = v.fd.offset := by
    refine u64_of_lt ?_
    have := h.offset_lt
    have hsize : logHeaderSize = 84 := rfl
    omega
  rw [logwriterFlush, run_bind_ok hassert, run_get_bind, run_bind_ok (run_onlyIf_neg hblock _ _),
    run_get_bind, run_bind_ok (run_onlyIf_neg hfile _ _), run_get_bind, run_set_bind, run_get_bind, hpos]

/-- **A flush with the descriptor in the header** leaves it there. -/
theorem Adrift.flush (h : Adrift v) (hrun : LeadsTo logwriterFlush v v') : Adrift v' := by
  have hle : ∀ bytes, logHeaderSize ≤ ((v.fd.seek 0).put bytes).data.length := fun bytes =>
    Nat.le_trans h.header_le (File.le_length_put (v.fd.seek 0) bytes (Nat.zero_le _))
  have hcurrent : ({ v.header with dataEnd := v.fd.offset } : Logheader).Current :=
    ⟨h.current.1, h.current.2, h.current.3⟩
  rcases hrun with ⟨u, hrun⟩ | ⟨code, hrun⟩
  · rw [h.run_flush] at hrun
    obtain ⟨_, v₁, h₁, hrun⟩ := ok_bind hrun
    obtain ⟨w, rfl⟩ := ok_writeLogheader h₁
    cases hrun
    exact ⟨h.openStatus, h.block, h.file, h.offset_lt,
      hle ({ v.header with dataEnd := v.fd.offset } : Logheader).bytes, h.fits, hcurrent⟩
  · rw [h.run_flush] at hrun
    rcases error_bind hrun with hrun | ⟨_, v₁, -, hrun⟩
    · obtain ⟨w, k, hlt, rfl⟩ := error_writeHeader hrun
      refine ⟨h.openStatus, h.block, h.file, ?_, hle _, h.fits, hcurrent⟩
      show 0 + (List.take k _).length < logHeaderSize
      rw [List.length_take]
      omega
    · cases hrun

theorem Adrift.refused (h : Adrift v) (hrun : logwriterFlush.run v = .ok () v') :
    logreaderOpen (some v'.fd.data) = .error .logHeaderCorrupt := by
  rw [h.run_flush] at hrun
  obtain ⟨_, v₁, h₁, hrun⟩ := ok_bind hrun
  obtain ⟨w, rfl⟩ := ok_writeLogheader h₁
  cases hrun
  have hlt := h.offset_lt
  have hsize : logHeaderSize = 84 := rfl
  obtain ⟨header, hheader⟩ : ∃ header : Logheader, header = { v.header with dataEnd := v.fd.offset } :=
    ⟨_, rfl⟩
  have hfits : header.Fits := hheader ▸ h.fits v.fd.offset (by omega)
  have hcurrent : header.Current := hheader ▸ ⟨h.current.1, h.current.2, h.current.3⟩
  have hend : header.dataEnd < logHeaderSize := hheader ▸ hlt
  have hload := loadLogheader_bytes hfits hcurrent (v.fd.data.drop logHeaderSize)
  rw [if_pos (Or.inl hend)] at hload
  have hdata : splice v.fd.data 0 header.bytes = header.bytes ++ v.fd.data.drop logHeaderSize := by
    have hlen : (v.fd.data.take logHeaderSize).length = header.bytes.length := by
      rw [List.length_take_of_le h.header_le, Logheader.length_bytes]
    have := splice_append [] (v.fd.data.take logHeaderSize) (v.fd.data.drop logHeaderSize)
      header.bytes hlen
    rwa [List.nil_append, List.nil_append, List.take_append_drop] at this
  rw [← hheader]
  show logreaderOpen (some (splice v.fd.data 0 header.bytes)) = _
  rw [logreaderOpen, hdata, hload]

/-- **No flush repairs a header that was not written to its end.**  However many more of them are
made and whatever they answer, the file that one leaves which succeeds cannot be opened. -/
theorem refused_of_insisting {v₁ v₂ v₃ : Logwriter} (h : Insisting t n calls v)
    (hfail : logwriterFlush.run v = .error (.rc code) v₁) (hblock : v₁.blockBuf.data = [])
    (hfile : v₁.fileBuf.data = []) (hmore : Relation.ReflTransGen (LeadsTo logwriterFlush) v₁ v₂)
    (hlast : logwriterFlush.run v₂ = .ok () v₃) :
    logreaderOpen (some v₃.fd.data) = .error .logHeaderCorrupt := by
  have hadrift : Adrift v₂ := by
    clear hlast
    induction hmore with
    | refl => exact (kept_of_insisting h).1.adrift hfail hblock hfile
    | tail _ hrun ih => exact ih.flush hrun
  exact hadrift.refused hlast

/-! ### Two writers to look at -/

/-- A flush that stops in the header, one that stops there again, and one that succeeds. -/
def drift (env : WriterEnv) :
    Option (Logwriter × (Returncode × Logwriter) × (Returncode × Logwriter) × Logwriter) :=
  (logwriterCreate env .snappy 10).toOption.bind fun w₀ =>
  (success? ((logwriterAdd (.put (.of [1]) (.of [2, 3]))).run w₀)).bind fun w₁ =>
  (stopped? (logwriterFlush.run w₁)).bind fun w₂ =>
  (stopped? (logwriterFlush.run w₂.2)).bind fun w₃ =>
  (success? (logwriterFlush.run w₃.2)).map fun w₄ => (w₁, w₂, w₃, w₄)

end Insisting

theorem refused_of_insisting_sample :
    letI := literalCompressors
    ∃ w₃ w₄ : Logwriter, logwriterFlush.run w₃ = .ok () w₄ ∧
      logreaderOpen (some w₄.fd.data) = .error .logHeaderCorrupt := by
  let := literalCompressors
  have h : (drift ⟨some 7, List.replicate 16 (.wrote 99) ++ [.failed .enospc, .wrote 99, .failed .efbig],
      []⟩).map (fun r => (r.2.1.2.blockBuf.data, r.2.1.2.fileBuf.data)) = some ([], []) := by
    decide +kernel
  obtain ⟨r, hr, hfacts⟩ := Option.map_eq_some_iff.mp h
  obtain ⟨hblock, hfile⟩ := Prod.mk.inj hfacts
  simp only [drift, Option.bind_eq_some_iff, Option.map_eq_some_iff] at hr
  obtain ⟨w₀, h₀, w₁, h₁, ⟨code, w₂⟩, h₂, ⟨code', w₃⟩, h₃, w₄, h₄, rfl⟩ := hr
  have hw : Insisting .snappy 10 [.add (.put (.of [1]) (.of [2, 3]))] w₁ :=
    .call (.create (by decide) (ok_of_toOption h₀)) (.add _ (success?_eq_some h₁))
  have hmore : Relation.ReflTransGen (LeadsTo logwriterFlush) w₂ w₃ :=
    .single (Or.inr ⟨code', stopped?_eq_some h₃⟩)
  exact ⟨w₃, w₄, success?_eq_some h₄, refused_of_insisting hw (stopped?_eq_some h₂) hblock hfile hmore
    (success?_eq_some h₄)⟩

end Sparkey
