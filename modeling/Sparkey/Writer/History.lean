import Sparkey.Writer.Refine

/-!
# The life of a log

`Writing t n calls log` says that the calls all succeeded, beginning with
`sparkey_logwriter_create` and perhaps cut into sessions by
`sparkey_logwriter_close` and `sparkey_logwriter_append`, and left the writer `log`.

What holds of every such writer is `Kept`: its header counts the entries, and its
packing is the one the calls make (`kept_of_writing`).  After a flush the file is
the header and the bytes of the packing, and nothing else (`Flushed`).
-/

namespace Sparkey

open Program BlockStream

/-! ### Counting entries -/

def countPuts (es : List Entry) : Nat := es.countP fun e => e.type = .put

def countDeletes (es : List Entry) : Nat := es.countP fun e => e.type = .delete

theorem countPuts_append (es : List Entry) (e : Entry) :
    countPuts (es ++ [e]) = countPuts es + if e.type = .put then 1 else 0 := by
  simp [countPuts, List.countP_append, List.countP_cons]

theorem countDeletes_append (es : List Entry) (e : Entry) :
    countDeletes (es ++ [e]) = countDeletes es + if e.type = .delete then 1 else 0 := by
  simp [countDeletes, List.countP_append, List.countP_cons]

structure Logheader.Counts (header : Logheader) (es : List Entry) : Prop where
  numPuts : header.numPuts = u64 (countPuts es)
  numDeletes : header.numDeletes = u64 (countDeletes es)
  key_le : ∀ e ∈ es, e.type = .put → e.key.length ≤ header.maxKeyLen
  value_le : ∀ e ∈ es, e.type = .put → e.value.length ≤ header.maxValueLen
  maxKeyLen_lt : header.maxKeyLen < 2 ^ 63
  maxValueLen_lt : header.maxValueLen < 2 ^ 63
  putSize_lt : header.putSize < 2 ^ 64
  deleteSize_lt : header.deleteSize < 2 ^ 64

/-- The header after `put` or `delete` of an entry. -/
def Logheader.count (header : Logheader) (e : Entry) (datasize : Nat) : Logheader :=
  match e with
  | .put key value => { header with
      numPuts := u64 (header.numPuts + 1)
      putSize := u64 (header.putSize + datasize)
      maxKeyLen := max header.maxKeyLen key.1.length
      maxValueLen := max header.maxValueLen value.1.length }
  | .delete _ => { header with
      numDeletes := u64 (header.numDeletes + 1)
      deleteSize := u64 (header.deleteSize + datasize) }

theorem Logheader.Counts.count {header : Logheader} {es : List Entry} (h : header.Counts es)
    (e : Entry) (n : Nat) : (header.count e n).Counts (es ++ [e]) := by
  rcases e with ⟨⟨k, hk⟩, ⟨v, hv⟩⟩ | ⟨k, hk⟩
  · refine ⟨?_, ?_, ?_, ?_, max_lt h.maxKeyLen_lt hk, max_lt h.maxValueLen_lt hv, u64_lt _,
      h.deleteSize_lt⟩
    · show u64 (header.numPuts + 1) = _
      rw [h.numPuts, u64_add_u64, countPuts_append]
      rfl
    · rw [countDeletes_append]
      exact h.numDeletes
    · intro e he ht
      rcases List.mem_append.mp he with he | he
      · exact Nat.le_trans (h.key_le e he ht) (Nat.le_max_left _ _)
      · obtain rfl := List.mem_singleton.mp he
        exact Nat.le_max_right _ _
    · intro e he ht
      rcases List.mem_append.mp he with he | he
      · exact Nat.le_trans (h.value_le e he ht) (Nat.le_max_left _ _)
      · obtain rfl := List.mem_singleton.mp he
        exact Nat.le_max_right _ _
  · refine ⟨?_, ?_, ?_, ?_, h.maxKeyLen_lt, h.maxValueLen_lt, h.putSize_lt, u64_lt _⟩
    · rw [countPuts_append]
      exact h.numPuts
    · show u64 (header.numDeletes + 1) = _
      rw [h.numDeletes, u64_add_u64, countDeletes_append]
      rfl
    · intro e he ht
      rcases List.mem_append.mp he with he | he
      · exact h.key_le e he ht
      · obtain rfl := List.mem_singleton.mp he
        cases ht
    · intro e he ht
      rcases List.mem_append.mp he with he | he
      · exact h.value_le e he ht
      · obtain rfl := List.mem_singleton.mp he
        cases ht

theorem Logheader.Counts.congr {header header' : Logheader} {es : List Entry} (h : header.Counts es)
    (hp : header'.numPuts = header.numPuts) (hd : header'.numDeletes = header.numDeletes)
    (hk : header'.maxKeyLen = header.maxKeyLen) (hv : header'.maxValueLen = header.maxValueLen)
    (hps : header'.putSize = header.putSize) (hds : header'.deleteSize = header.deleteSize) :
    header'.Counts es := by
  obtain ⟨h1, h2, h3, h4, h5, h6, h7, h8⟩ := h
  exact ⟨hp ▸ h1, hd ▸ h2, hk ▸ h3, hv ▸ h4, hk ▸ h5, hv ▸ h6, hps ▸ h7, hds ▸ h8⟩

theorem Logheader.setting_count (header : Logheader) (e : Entry) (n : Nat) :
    (header.count e n).setting = header.setting := by
  cases e <;> rfl

theorem ok_writeLogheader {log log' : Logwriter} {header : Logheader} {u : Unit}
    (h : (onFileBuf (onSnd (writeLogheader header))).run log = .ok u log') :
    ∃ w, log' = { log with fd := { log.fd.put header.bytes with writes := w } } := by
  have hw := wrote_writeLogheader header log.fd
  simp only [onFileBuf, onSnd, EStateM.run] at h
  cases hr : (writeLogheader header).run log.fd with
  | error e fd =>
    simp only [EStateM.run] at hr
    simp only [hr] at h
    cases h
  | ok v fd =>
    rw [hr] at hw
    obtain ⟨-, w, rfl⟩ := hw
    simp only [EStateM.run] at hr
    simp only [hr] at h
    cases h
    exact ⟨w, rfl⟩

section Calls

variable [Compressors]

/-- `sparkey_logwriter_put` or `sparkey_logwriter_delete` of an entry. -/
def logwriterAdd : Entry → Run Logwriter Unit
  | .put key value => logwriterPut key.1 value.1
  | .delete key => logwriterDelete key.1

/-- A writer that came about by calls that all succeeded. -/
inductive Writing (compressionType : CompressionType) (compressionBlockSize : Nat) :
    List Call → Logwriter → Prop
  /-- The block size is an `int`. -/
  | create {env : WriterEnv} {log : Logwriter} : compressionBlockSize < 2 ^ 31 →
      logwriterCreate env compressionType compressionBlockSize = .ok log →
      Writing compressionType compressionBlockSize [] log
  | add {calls : List Call} {log log' : Logwriter} (e : Entry) :
      Writing compressionType compressionBlockSize calls log →
      (logwriterAdd e).run log = .ok () log' →
      Writing compressionType compressionBlockSize (calls ++ [.add e]) log'
  | flush {calls : List Call} {log log' : Logwriter} :
      Writing compressionType compressionBlockSize calls log →
      logwriterFlush.run log = .ok () log' →
      Writing compressionType compressionBlockSize (calls ++ [.flush]) log'
  | reopen {calls : List Call} {log log' log'' : Logwriter} {env : WriterEnv} :
      Writing compressionType compressionBlockSize calls log →
      logwriterClose.run log = .ok () log' →
      logwriterAppend env (some log'.fd.data) = .ok log'' →
      Writing compressionType compressionBlockSize (calls ++ [.reopen]) log''

def Logwriter.perform (env : WriterEnv) (log : Logwriter) : Call → Option Logwriter
  | .add e => match (logwriterAdd e).run log with
    | .ok _ log => some log
    | .error _ _ => none
  | .flush => match logwriterFlush.run log with
    | .ok _ log => some log
    | .error _ _ => none
  | .reopen => match logwriterClose.run log with
    | .ok _ log => (logwriterAppend env (some log.fd.data)).toOption
    | .error _ _ => none

def writeLog (env : WriterEnv) (compressionType : CompressionType) (compressionBlockSize : Nat)
    (calls : List Call) : Option Logwriter :=
  (logwriterCreate env compressionType compressionBlockSize).toOption.bind fun log =>
    calls.foldlM (Logwriter.perform env) log

theorem Writing.perform {compressionType : CompressionType} {compressionBlockSize : Nat}
    {calls : List Call} {env : WriterEnv} {c : Call} {log log' : Logwriter}
    (hw : Writing compressionType compressionBlockSize calls log)
    (h : log.perform env c = some log') :
    Writing compressionType compressionBlockSize (calls ++ [c]) log' := by
  cases c <;> simp only [Logwriter.perform] at h <;> split at h <;> try cases h
  · rename_i hr
    exact .add _ hw hr
  · rename_i hr
    exact .flush hw hr
  · rename_i hr
    exact .reopen hw hr (ok_of_toOption h)

theorem writing_of_writeLog {env : WriterEnv} {compressionType : CompressionType}
    {compressionBlockSize : Nat} {calls : List Call} {log : Logwriter}
    (hlt : compressionBlockSize < 2 ^ 31)
    (h : writeLog env compressionType compressionBlockSize calls = some log) :
    Writing compressionType compressionBlockSize calls log := by
  obtain ⟨log₀, h₀, h⟩ := Option.bind_eq_some_iff.mp h
  have hcalls : ∀ (calls before : List Call) (log₀ : Logwriter),
      Writing compressionType compressionBlockSize before log₀ →
      calls.foldlM (Logwriter.perform env) log₀ = some log →
      Writing compressionType compressionBlockSize (before ++ calls) log := by
    intro calls
    induction calls with
    | nil =>
      intro before log₀ hw h
      cases h
      rwa [List.append_nil]
    | cons c calls ih =>
      intro before log₀ hw h
      rw [List.foldlM_cons] at h
      obtain ⟨log₁, h₁, h⟩ := Option.bind_eq_some_iff.mp h
      have := ih _ _ (hw.perform h₁) h
      rwa [List.append_assoc] at this
  exact hcalls calls [] log₀ (.create hlt (ok_of_toOption h₀)) h

/-- The setting a writer that was asked for one has. -/
def Setting.of (compressionType : CompressionType) (compressionBlockSize : Nat) : Setting :=
  ⟨compressionType, if usesCompressor compressionType then compressionBlockSize else 0⟩

/-- What holds of every writer: its header counts the entries, and fits its place. -/
structure Kept (s : Setting) (es : List Entry) (log : Logwriter) : Prop where
  writable : Writable log
  setting : log.header.setting = s
  current : log.header.Current
  fileIdentifier_lt : log.header.fileIdentifier < 2 ^ 32
  blockSize_lt : s.compressionBlockSize < 2 ^ 31
  plain : usesCompressor s.compressionType = false → s.compressionBlockSize = 0
  loose : log.packing.Loose s 0
  counts : log.header.Counts es

structure Flushed (log : Logwriter) : Prop where
  data : log.fd.data = log.header.bytes ++ log.packing.out
  block : log.packing.block = []
  dataEnd : log.header.dataEnd = log.fd.data.length
  dataEnd_lt : log.header.dataEnd < 2 ^ 63

variable {log log' : Logwriter} {s : Setting} {es : List Entry} {items : List (Item Entry)}
  {e : Entry}

theorem run_assertWriterOpen (hw : Writable log) : assertWriterOpen.run log = .ok () log := by
  simp only [assertWriterOpen, EStateM.run_bind, EStateM.run_get,
    if_neg (not_not_intro hw.openStatus), EStateM.run_pure]

/-- **`put` and `delete` add an entry** and count it. -/
theorem ok_logwriterAdd {u : Unit} (hw : Writable log) (h : (logwriterAdd e).run log = .ok u log') :
    ∃ p log₁, log.packing.add log.header.setting e = some p ∧ Step log log₁ p ∧
      log' = { log₁ with header := log₁.header.count e e.bytes.length } := by
  rcases e with ⟨k, v⟩ | k
  · rw [logwriterAdd, logwriterPut, run_bind_ok (run_assertWriterOpen hw)] at h
    obtain ⟨n, log₁, h₁, h⟩ := ok_bind h
    obtain ⟨rfl, p, hp, hs⟩ := ok_logAdd (e := .put k v) hw h₁
    cases h
    exact ⟨p, log₁, hp, hs, rfl⟩
  · rw [logwriterAdd, logwriterDelete, run_bind_ok (run_assertWriterOpen hw)] at h
    obtain ⟨n, log₁, h₁, h⟩ := ok_bind h
    obtain ⟨rfl, p, hp, hs⟩ := ok_logAdd (e := .delete k) hw h₁
    cases h
    exact ⟨p, log₁, hp, hs, rfl⟩

/-- **A `put` or `delete`** counts its entry. -/
theorem Kept.add (hk : Kept s es log) (h : (logwriterAdd e).run log = .ok () log') :
    Kept s (es ++ [e]) log' ∧ log.packing.add s e = some log'.packing := by
  obtain ⟨p, log₁, hp, hs, rfl⟩ := ok_logwriterAdd hk.writable h
  rw [hk.setting] at hp
  have hw₁ := hs.writable
  have hset : log₁.header.setting = s := hs.setting.trans hk.setting
  have hcounts : log₁.header.Counts es := by
    rw [hs.header]
    exact hk.counts.congr rfl rfl rfl rfl rfl rfl
  have hcurrent : log₁.header.Current := by
    rw [hs.header]
    exact ⟨hk.current.1, hk.current.2, hk.current.3⟩
  have hid : log₁.header.fileIdentifier < 2 ^ 32 := by
    rw [hs.header]
    exact hk.fileIdentifier_lt
  have hpack : ({ log₁ with header := log₁.header.count e e.bytes.length } : Logwriter).packing = p := by
    rw [← hs.packing]
    cases e <;> rfl
  refine ⟨⟨?_, ?_, ?_, ?_, hk.blockSize_lt, hk.plain, ?_, hcounts.count e _⟩, ?_⟩
  · refine ⟨hw₁.openStatus, hw₁.atEnd, hw₁.header_le, ?_, ?_⟩
    · rw [hw₁.blockSize]
      cases e <;> rfl
    · rw [hw₁.maxCompressedSize]
      cases e <;> rfl
  · exact (Logheader.setting_count _ _ _).trans hset
  · cases e <;> exact ⟨hcurrent.1, hcurrent.2, hcurrent.3⟩
  · cases e <;> exact hid
  · rw [hpack]
    exact hk.loose.add hp
  · rw [hpack]
    exact hp

/-! ### Flushing -/

theorem ok_flushFile {u : Unit} (hw : Writable log)
    (h : (onlyIf (0 < log.fileBuf.used) (onFileBuf bufFlushfile)).run log = .ok u log') :
    Step log log' log.packing ∧ log'.fileBuf.data = [] := by
  by_cases hc : 0 < log.fileBuf.used
  · rw [run_onlyIf_pos hc] at h
    have hs := ok_onFileBuf (x := bufFlushfile)
      (fun s' u hr => (ok_bufFlushfile hw.atEnd hr).1) hw h
    rw [List.append_nil] at hs
    refine ⟨hs, ?_⟩
    simp only [onFileBuf, EStateM.run] at h
    cases hr : bufFlushfile (log.fileBuf, log.fd) with
    | error e s =>
      simp only [hr] at h
      cases h
    | ok v s' =>
      simp only [hr] at h
      cases h
      show s'.1.data = []
      rw [(ok_bufFlushfile (s := (log.fileBuf, log.fd)) hw.atEnd hr).2]
      rfl
  · rw [run_onlyIf_neg hc] at h
    cases h
    exact ⟨hw.refl, List.eq_nil_of_length_eq_zero (Nat.eq_zero_of_not_pos hc)⟩

/-- **A flush** leaves the header and the bytes of the log in the file. -/
theorem ok_logwriterFlush {u : Unit} (hw : Writable log) (h : logwriterFlush.run log = .ok u log') :
    ∃ p, log.packing.flush log.header.setting = some p ∧ Writable log' ∧ log'.packing = p ∧
      log'.header = { log.header with
        maxEntriesPerBlock := log'.header.maxEntriesPerBlock, dataEnd := log'.header.dataEnd } ∧
      log'.fd.data = log'.header.bytes ++ log'.packing.out ∧
      log'.header.dataEnd = log'.fd.data.length ∧ log'.header.dataEnd < 2 ^ 63 := by
  rw [logwriterFlush, run_bind_ok (run_assertWriterOpen hw), run_get_bind] at h
  obtain ⟨_, log₁, h₁, h⟩ := ok_bind h
  obtain ⟨p, hp, hs₁⟩ := ok_flushIf (d := 0 < log.packing.block.length) Iff.rfl hw h₁
  rw [run_get_bind] at h
  obtain ⟨_, log₂, h₂, h⟩ := ok_bind h
  obtain ⟨hs₂, hbuf⟩ := ok_flushFile hs₁.writable h₂
  rw [run_get_bind, run_set_bind, run_get_bind] at h
  obtain ⟨_, log₃, h₃, h⟩ := ok_bind h
  obtain ⟨w, rfl⟩ := ok_writeLogheader h₃
  cases h
  have hw₂ := hs₂.writable
  have hoff := hw₂.atEnd.offset
  have hmax := hw₂.atEnd.le_max
  have hpos : u64 log₂.fd.offset = log₂.fd.offset := u64_of_lt (by
    have : maxFileSize = 2 ^ 63 - 1 := rfl
    omega)
  -- the old header and the bytes behind it
  have hout : log₂.packing.out = log₂.fd.data.drop logHeaderSize := by
    show (log₂.fd.data ++ log₂.fileBuf.data).drop logHeaderSize = _
    rw [hbuf, List.append_nil]
  have hsplice : ∀ header : Logheader, splice log₂.fd.data 0 header.bytes
      = header.bytes ++ log₂.packing.out := by
    intro header
    have hlen : (log₂.fd.data.take logHeaderSize).length = header.bytes.length := by
      rw [List.length_take_of_le hw₂.header_le, Logheader.length_bytes]
    have := splice_append [] (log₂.fd.data.take logHeaderSize)
      (log₂.fd.data.drop logHeaderSize) header.bytes hlen
    rw [List.nil_append, List.nil_append, List.take_append_drop] at this
    rw [hout]
    exact this
  obtain ⟨header, hheader⟩ : ∃ header : Logheader,
      header = { log₂.header with dataEnd := u64 log₂.fd.offset } := ⟨_, rfl⟩
  obtain ⟨log₄, hlog₄⟩ : ∃ log₄ : Logwriter, log₄ = { log₂ with
      header := header
      fd := { ((log₂.fd.seek 0).put header.bytes) with writes := w, offset := log₂.fd.offset } } :=
    ⟨_, rfl⟩
  have hpack : log₂.packing = p := hs₂.packing.trans hs₁.packing
  have hdata : log₄.fd.data = header.bytes ++ log₂.packing.out := by
    rw [hlog₄]
    exact hsplice header
  have hlen : log₄.fd.data.length = log₂.fd.data.length := by
    have hle := hw₂.header_le
    rw [hdata, hout, List.length_append, Logheader.length_bytes, List.length_drop]
    omega
  have hout₄ : log₄.packing.out = p.out := by
    have hbuf₄ : log₄.fileBuf.data = [] := by
      rw [hlog₄]
      exact hbuf
    show (log₄.fd.data ++ log₄.fileBuf.data).drop logHeaderSize = p.out
    rw [hbuf₄, List.append_nil, hdata, ← header.length_bytes, List.drop_left, hpack]
  have hpack₄ : log₄.packing = p := by
    ext1
    · exact hout₄
    all_goals
      rw [← hpack, hlog₄, hheader]
      rfl
  have hheader₄ : log₄.header = header := by rw [hlog₄]
  have hgoal : Writable log₄ ∧ log₄.packing = p ∧
      log₄.header = { log.header with
        maxEntriesPerBlock := log₄.header.maxEntriesPerBlock, dataEnd := log₄.header.dataEnd } ∧
      log₄.fd.data = log₄.header.bytes ++ log₄.packing.out ∧
      log₄.header.dataEnd = log₄.fd.data.length ∧ log₄.header.dataEnd < 2 ^ 63 := by
    have hoff₄ : log₄.fd.offset = log₂.fd.offset := by rw [hlog₄]
    refine ⟨⟨?_, ⟨?_, ?_⟩, ?_, ?_, ?_⟩, hpack₄, ?_, ?_, ?_, ?_⟩
    · rw [hlog₄]
      exact hw₂.openStatus
    · rw [hoff₄, hlen, hoff]
    · rw [hoff₄]
      exact hmax
    · rw [hlen]
      exact hw₂.header_le
    · rw [hlog₄, hheader]
      exact hw₂.blockSize
    · rw [hlog₄, hheader]
      exact hw₂.maxCompressedSize
    · rw [hheader₄, hheader, hs₂.header, hs₁.header]
    · rw [hout₄, ← hpack, hheader₄]
      exact hdata
    · rw [hheader₄, hlen, hheader, ← hoff]
      exact hpos
    · rw [hheader₄, hheader]
      show u64 log₂.fd.offset < 2 ^ 63
      have : maxFileSize = 2 ^ 63 - 1 := rfl
      omega
  rw [hlog₄, hheader] at hgoal
  exact ⟨p, hp, hgoal⟩

theorem Kept.flush (hk : Kept s es log) (h : logwriterFlush.run log = .ok () log') :
    Kept s es log' ∧ Flushed log' ∧ log.packing.flush s = some log'.packing := by
  obtain ⟨p, hp, hw', hpack, hhead, hdata, hend, hlt⟩ := ok_logwriterFlush hk.writable h
  rw [hk.setting] at hp
  have hblock : p.block = [] := by
    unfold Packing.flush at hp
    split_ifs at hp with hused
    · obtain ⟨compressed, -, rfl⟩ := Packing.flushBlock_eq hp
      rfl
    · cases hp
      exact List.eq_nil_of_length_eq_zero (Nat.eq_zero_of_not_pos hused)
  refine ⟨⟨hw', ?_, ?_, ?_, hk.blockSize_lt, hk.plain, ?_, ?_⟩, ⟨hdata, ?_, hend, hlt⟩, ?_⟩
  · rw [hhead]
    exact hk.setting
  · rw [hhead]
    exact ⟨hk.current.1, hk.current.2, hk.current.3⟩
  · rw [hhead]
    exact hk.fileIdentifier_lt
  · rw [hpack]
    exact hk.loose.flush hp
  · rw [hhead]
    exact hk.counts.congr rfl rfl rfl rfl rfl rfl
  · rw [hpack]
    exact hblock
  · rw [hpack]
    exact hp

theorem ok_logwriterClose (hw : Writable log) (h : logwriterClose.run log = .ok () log') :
    ∃ log₁, logwriterFlush.run log = .ok () log₁ ∧ log' = { log₁ with openStatus := 0 } := by
  rw [logwriterClose, run_get_bind, if_neg (not_not_intro hw.openStatus)] at h
  obtain ⟨_, log₁, h₁, h⟩ := ok_bind h
  cases h
  exact ⟨log₁, h₁, rfl⟩

/-! ### Opening a log -/

theorem ok_logwriterCreate {env : WriterEnv} {compressionType : CompressionType}
    {compressionBlockSize : Nat} (hlt : compressionBlockSize < 2 ^ 31)
    (h : logwriterCreate env compressionType compressionBlockSize = .ok log) :
    Kept (.of compressionType compressionBlockSize) [] log ∧ log.packing = .init := by
  rw [logwriterCreate] at h
  by_cases hbs : usesCompressor compressionType ∧ compressionBlockSize < 10
  · rw [if_pos hbs] at h
    cases h
  rw [if_neg hbs] at h
  cases hr : env.rand32 with
  | none =>
    simp only [hr] at h
    cases h
  | some fileIdentifier =>
    obtain ⟨size, hsize⟩ : ∃ size, size
      = if usesCompressor compressionType then compressionBlockSize else 0 := ⟨_, rfl⟩
    have hof : Setting.of compressionType compressionBlockSize = ⟨compressionType, size⟩ := by
      rw [Setting.of, hsize]
    simp only [hr, ← hsize] at h
    rw [hof]
    have hw := wrote_writeLogheader (newLogheader (u32 fileIdentifier) compressionType size)
      ⟨[], 0, env.writes⟩
    cases hrun : (writeLogheader (newLogheader (u32 fileIdentifier) compressionType size)).run
        ⟨[], 0, env.writes⟩ with
    | error e fd =>
      simp only [hrun] at h
      cases h
    | ok u fd =>
      rw [hrun] at hw
      obtain ⟨-, w, rfl⟩ := hw
      simp only [hrun] at h
      split_ifs at h with hoff
      cases h
      have hdata : splice [] 0 (newLogheader (u32 fileIdentifier) compressionType size).bytes
          = (newLogheader (u32 fileIdentifier) compressionType size).bytes := splice_length [] _
      have hlen := (newLogheader (u32 fileIdentifier) compressionType size).length_bytes
      have hout : (splice [] 0 (newLogheader (u32 fileIdentifier) compressionType size).bytes
          ++ ([] : List UInt8)).drop logHeaderSize = [] := by
        rw [List.append_nil, hdata, ← hlen, List.drop_length]
      refine ⟨⟨⟨rfl, ⟨?_, ?_⟩, ?_, rfl, rfl⟩, rfl, ⟨rfl, rfl, rfl⟩, u32_lt _, ?_, ?_,
        ⟨Nat.zero_le _, Nat.zero_le _, Nat.zero_le _⟩,
        ⟨rfl, rfl, nofun, nofun, ?_, ?_, ?_, ?_⟩⟩, ?_⟩
      · show 0 + (newLogheader (u32 fileIdentifier) compressionType size).bytes.length = _
        rw [Nat.zero_add]
        exact congrArg List.length hdata.symm
      · show 0 + (newLogheader (u32 fileIdentifier) compressionType size).bytes.length ≤ maxFileSize
        rw [hlen]
        decide
      · show logHeaderSize
          ≤ (splice [] 0 (newLogheader (u32 fileIdentifier) compressionType size).bytes).length
        rw [hdata, hlen]
      · show size < 2 ^ 31
        rw [hsize]
        split_ifs <;> omega
      · intro hu
        show size = 0
        rw [hsize, if_neg (by rw [hu]; decide)]
      any_goals exact Nat.two_pow_pos _
      rw [Packing.init, ← hout]
      rfl

theorem Kept.fits (hw : Kept s es log) (hlt : log.header.dataEnd < 2 ^ 63) :
    log.header.Fits := by
  have hk := hw.counts.maxKeyLen_lt
  have hv := hw.counts.maxValueLen_lt
  have hb : log.header.compressionBlockSize < 2 ^ 31 := by
    have := hw.blockSize_lt
    rwa [← hw.setting] at this
  have hm : log.header.maxEntriesPerBlock ≤ log.packing.peak := Nat.le_max_left _ _
  refine ⟨hw.fileIdentifier_lt, ?_, ?_, by omega, by omega, by omega, hw.counts.deleteSize_lt,
    by omega, hw.counts.putSize_lt, ?_⟩
  · rw [hw.counts.numPuts]
    exact u64_lt _
  · rw [hw.counts.numDeletes]
    exact u64_lt _
  · have hpeak := hw.loose.peak_le
    have hbs := hw.blockSize_lt
    omega

/-- **The loader on the header of a flushed file**: the two counts decide. -/
theorem Kept.loadLogheader (hw : Kept s es log) (hf : Flushed log) :
    loadLogheader (some log.fd.data)
      = if log.header.dataEnd < logHeaderSize ∨ log.header.dataEnd < log.header.numPuts ∨
          log.header.dataEnd < log.header.numDeletes then .error .logHeaderCorrupt
        else .ok log.header := by
  have hload := loadLogheader_bytes (hw.fits hf.dataEnd_lt) hw.current log.packing.out
  rwa [← hf.data] at hload

/-- What `sparkey_logwriter_append` makes of a file that was closed. -/
theorem logwriterAppend_eq {env : WriterEnv} (hw : Kept s es log) (hf : Flushed log)
    (h : logwriterAppend env (some log.fd.data) = .ok log') :
    log' = { log with
      openStatus := magicValueLogwriter
      fd := { data := log.fd.data, offset := log.header.dataEnd, writes := env.writes }
      blockBuf := Buf.init log.header.compressionBlockSize
      maxCompressedSize := (sparkeyCompressors log.header.compressionType).maxCompressedSize
        log.header.compressionBlockSize
      fileBuf := Buf.init fileBufSize
      flushed := false
      entryCount := 0
      compressFails := env.compressFails } := by
  have hload := hw.loadLogheader hf
  by_cases hbad : log.header.dataEnd < logHeaderSize ∨ log.header.dataEnd < log.header.numPuts ∨
      log.header.dataEnd < log.header.numDeletes
  · rw [if_pos hbad] at hload
    rw [logwriterAppend, hload] at h
    cases h
  rw [if_neg hbad] at hload
  have hheader : (if usesCompressor log.header.compressionType then log.header
      else { log.header with compressionBlockSize := 0 }) = log.header := by
    split_ifs with hu
    · rfl
    · have h0 : log.header.compressionBlockSize = 0 := by
        have := hw.plain (by rw [← hw.setting]; exact (Bool.eq_false_of_not_eq_true hu))
        rwa [← hw.setting] at this
      rw [← h0]
  rw [logwriterAppend, hload] at h
  simp only [hheader] at h
  split_ifs at h
  cases h
  rfl

/-- **Appending** goes on where the log was closed. -/
theorem ok_logwriterAppend {env : WriterEnv} (hw : Kept s es log) (hf : Flushed log)
    (h : logwriterAppend env (some log.fd.data) = .ok log') :
    Kept s es log' ∧ log'.packing = log.packing.reopen := by
  cases logwriterAppend_eq hw hf h
  have hlen := hf.dataEnd
  have hlt := hf.dataEnd_lt
  have hbuf : log.fd.data.drop logHeaderSize = log.packing.out := by
    rw [hf.data, ← log.header.length_bytes, List.drop_left]
  have hpack : (log.fd.data ++ ([] : List UInt8)).drop logHeaderSize = log.packing.out := by
    rw [List.append_nil, hbuf]
  have hre : log.packing.reopen = ⟨(log.fd.data ++ ([] : List UInt8)).drop logHeaderSize, [], false, 0,
      log.header.maxEntriesPerBlock⟩ := by
    rw [hpack, ← hf.block]
    rfl
  refine ⟨⟨⟨rfl, ⟨hlen, ?_⟩, hw.writable.header_le, rfl, rfl⟩, hw.setting, hw.current,
    hw.fileIdentifier_lt, hw.blockSize_lt, hw.plain, ?_, hw.counts⟩, hre.symm⟩
  · show log.header.dataEnd ≤ maxFileSize
    have : maxFileSize = 2 ^ 63 - 1 := rfl
    omega
  · have := hw.loose.reopen
    rw [hre] at this
    exact this

/-- **What holds of every writer**, whatever the calls were. -/
theorem kept_of_writing {t : CompressionType} {n : Nat} {calls : List Call}
    (h : Writing t n calls log) :
    Kept (.of t n) (entriesOf calls) log ∧ pack (.of t n) calls = some log.packing := by
  induction h with
  | create hlt h =>
    obtain ⟨hk, hp⟩ := ok_logwriterCreate hlt h
    exact ⟨hk, by rw [hp]; rfl⟩
  | add e _ h ih =>
    obtain ⟨hk, hp⟩ := ih
    obtain ⟨hk', hp'⟩ := hk.add h
    rw [entriesOf_append, pack_append, hp]
    exact ⟨hk', hp'⟩
  | flush _ h ih =>
    obtain ⟨hk, hp⟩ := ih
    obtain ⟨hk', -, hp'⟩ := hk.flush h
    rw [entriesOf_append, pack_append, hp]
    exact ⟨by rwa [Call.entry?, Option.toList_none, List.append_nil], hp'⟩
  | reopen _ hclose happend ih =>
    obtain ⟨hk, hp⟩ := ih
    obtain ⟨log₁, hfl, rfl⟩ := ok_logwriterClose hk.writable hclose
    obtain ⟨hk', hf, hp'⟩ := hk.flush hfl
    obtain ⟨hk'', hp''⟩ := ok_logwriterAppend hk' hf happend
    rw [entriesOf_append, pack_append, hp]
    refine ⟨by rwa [Call.entry?, Option.toList_none, List.append_nil], ?_⟩
    rw [Option.bind_some, Packing.call, hp', Option.map_some, hp'']

end Calls

end Sparkey
