import Sparkey.Compress
import Sparkey.Logheader
import Sparkey.Vlq

/-!
# `buf.c` and `logwriter.c`

A writer keeps two buffers: `blockBuf` collects the block to be compressed next,
and `fileBuf` what goes to the file next.  Every program here is the function of
the same name, on the buffer and the file it is handed or on the whole writer.

Beyond the answers to `write`, kept with the open file, the system decides
whether a call to the compressor fails: `compressFails` holds these answers, and
past its end no call fails.
-/

namespace Sparkey

open Program

/-! ### Buffers -/

/-- `sparkey_buf`: the bytes from `start` to `cur`, and the room from `start` to `end`. -/
structure Buf where
  size : Nat
  data : List UInt8
  fits : data.length ≤ size

def Buf.init (size : Nat) : Buf := ⟨size, [], Nat.zero_le _⟩

def Buf.remaining (buf : Buf) : Nat := buf.size - buf.data.length

def Buf.used (buf : Buf) : Nat := buf.data.length

/-- Copy `data` to `cur`, which moves behind it. -/
def Buf.copy (buf : Buf) (data : List UInt8) (h : data.length ≤ buf.remaining) : Buf :=
  ⟨buf.size, buf.data ++ data, by
    have := buf.fits
    rw [Buf.remaining] at h
    rw [List.length_append]
    omega⟩

def Buf.fill (buf : Buf) (data : List UInt8) : Buf :=
  buf.copy (data.take buf.remaining) (List.length_take_le _ _)

def Buf.reset (buf : Buf) : Buf := ⟨buf.size, [], Nat.zero_le _⟩

@[simp] theorem Buf.size_init (n : Nat) : (Buf.init n).size = n := rfl
@[simp] theorem Buf.data_init (n : Nat) : (Buf.init n).data = [] := rfl
@[simp] theorem Buf.size_copy (buf : Buf) (data : List UInt8) (h : data.length ≤ buf.remaining) :
    (buf.copy data h).size = buf.size := rfl
@[simp] theorem Buf.data_copy (buf : Buf) (data : List UInt8) (h : data.length ≤ buf.remaining) :
    (buf.copy data h).data = buf.data ++ data := rfl
@[simp] theorem Buf.size_fill (buf : Buf) (data : List UInt8) : (buf.fill data).size = buf.size :=
  rfl
@[simp] theorem Buf.data_fill (buf : Buf) (data : List UInt8) :
    (buf.fill data).data = buf.data ++ data.take buf.remaining := rfl
@[simp] theorem Buf.size_reset (buf : Buf) : buf.reset.size = buf.size := rfl
@[simp] theorem Buf.data_reset (buf : Buf) : buf.reset.data = [] := rfl

def bufFlushfile : Run (Buf × File) Unit := do
  let (buf, _) ← get
  onSnd (writeFull buf.data)
  modify fun (buf, fd) => (buf.reset, fd)

def bufAddLoop : Nat → List UInt8 → Run (Buf × File) Unit
  | 0, _ => stuck
  | fuel + 1, data => do
    let (buf, fd) ← get
    if h : data.length ≤ buf.remaining then
      set (buf.copy data h, fd)
    else
      set (buf.fill data, fd)
      bufFlushfile
      bufAddLoop fuel (data.drop buf.remaining)

/-- `buf_add`.  From the second round on the buffer is empty, so a buffer with any room
needs at most one round more than there are bytes. -/
def bufAdd (data : List UInt8) : Run (Buf × File) Unit := bufAddLoop (data.length + 2) data

/-! ### The writer -/

def magicValueLogwriter : Nat := 0x2866211b

/-- `sparkey_logwriter`, and what the system answers to its compressor calls. -/
structure Logwriter where
  openStatus : Nat
  header : Logheader
  fd : File
  blockBuf : Buf
  maxCompressedSize : Nat
  fileBuf : Buf
  flushed : Bool
  entryCount : Nat
  compressFails : List Bool

def onFileBuf {α : Type} (x : Run (Buf × File) α) : Run Logwriter α := fun log =>
  match x.run (log.fileBuf, log.fd) with
  | .ok a s => .ok a { log with fileBuf := s.1, fd := s.2 }
  | .error e s => .error e { log with fileBuf := s.1, fd := s.2 }

def assertWriterOpen : Run Logwriter Unit := do
  let log ← get
  if log.openStatus ≠ magicValueLogwriter then
    fail .logClosed

variable [Compressors]

def compress (input : List UInt8) : Run Logwriter (List UInt8) := do
  let log ← get
  set { log with compressFails := log.compressFails.tail }
  if log.compressFails.head? = some true then
    fail .internalError
  match (sparkeyCompressors log.header.compressionType).compress input log.maxCompressedSize with
  | none => fail .internalError
  | some compressed => pure compressed

/-- The counters of the block that `flush_compressed` is about to end. -/
def Logwriter.countBlock (log : Logwriter) : Logwriter :=
  { log with
    flushed := true
    header := { log.header with
      maxEntriesPerBlock := max log.header.maxEntriesPerBlock log.entryCount }
    entryCount := 0 }

def flushCompressed : Run Logwriter Unit := do
  modify Logwriter.countBlock
  let log ← get
  let compressed ← compress log.blockBuf.data
  onFileBuf (bufAdd (writeVlq compressed.length))
  onFileBuf (bufAdd compressed)
  modify fun log => { log with blockBuf := log.blockBuf.reset }

def logwriterFlush : Run Logwriter Unit := do
  assertWriterOpen
  let log ← get
  onlyIf (0 < log.blockBuf.used) flushCompressed
  let log ← get
  onlyIf (0 < log.fileBuf.used) (onFileBuf bufFlushfile)
  let log ← get
  let pos := log.fd.offset
  set { log with
    header := { log.header with dataEnd := u64 pos }
    fd := log.fd.seek 0 }
  let log ← get
  onFileBuf (onSnd (writeLogheader log.header))
  modify fun log => { log with fd := log.fd.seek pos }

/-- `sparkey_logwriter_close`: the file stays as the flush left it. -/
def logwriterClose : Run Logwriter Unit := do
  let log ← get
  if log.openStatus ≠ magicValueLogwriter then
    return ()
  logwriterFlush
  modify fun log => { log with openStatus := 0 }

def compressedAddLoop : Nat → List UInt8 → Run Logwriter Unit
  | 0, _ => stuck
  | fuel + 1, data => do
    let log ← get
    if h : data.length ≤ log.blockBuf.remaining then
      set { log with blockBuf := log.blockBuf.copy data h }
    else
      set { log with blockBuf := log.blockBuf.fill data }
      flushCompressed
      compressedAddLoop fuel (data.drop log.blockBuf.remaining)

def compressedAdd (data : List UInt8) : Run Logwriter Unit :=
  compressedAddLoop (data.length + 2) data

def logAdd (num1 num2 : Nat) (data1 data2 : List UInt8) : Run Logwriter Nat := do
  let buf1 := writeVlq num1
  let buf2 := writeVlq num2
  let datasize := buf1.length + buf2.length + data1.length + data2.length
  let log ← get
  if usesCompressor log.header.compressionType then
    let remaining := log.blockBuf.remaining
    let fitsInOne := datasize ≤ log.blockBuf.size
    let doesntFitThis := log.blockBuf.remaining < datasize
    onlyIf (remaining < buf1.length + buf2.length ∨ (fitsInOne ∧ doesntFitThis)) flushCompressed
    modify fun log => { log with entryCount := log.entryCount + 1, flushed := false }
    compressedAdd buf1
    compressedAdd buf2
    compressedAdd data1
    compressedAdd data2
    let log ← get
    onlyIf (log.flushed ∧ 0 < log.blockBuf.used) flushCompressed
  else
    onFileBuf (bufAdd buf1)
    onFileBuf (bufAdd buf2)
    onFileBuf (bufAdd data1)
    onFileBuf (bufAdd data2)
  pure datasize

def logwriterPut (key value : List UInt8) : Run Logwriter Unit := do
  assertWriterOpen
  let datasize ← logAdd (key.length + 1) value.length key value
  modify fun log => { log with header := { log.header with
    numPuts := u64 (log.header.numPuts + 1)
    putSize := u64 (log.header.putSize + datasize)
    maxKeyLen := max log.header.maxKeyLen key.length
    maxValueLen := max log.header.maxValueLen value.length } }

def logwriterDelete (key : List UInt8) : Run Logwriter Unit := do
  assertWriterOpen
  let datasize ← logAdd 0 key.length [] key
  modify fun log => { log with header := { log.header with
    numDeletes := u64 (log.header.numDeletes + 1)
    deleteSize := u64 (log.header.deleteSize + datasize) } }

/-! ### Opening -/

def fileBufSize : Nat := 1024 * 1024

/-- What the system decides for one writer: the random identifier if there is
one, and the answers to `write` and to the compressor calls. -/
structure WriterEnv where
  rand32 : Option Nat
  writes : List WriteResult
  compressFails : List Bool

def newLogheader (fileIdentifier : Nat) (compressionType : CompressionType)
    (compressionBlockSize : Nat) : Logheader where
  majorVersion := logMajorVersion
  minorVersion := logMinorVersion
  fileIdentifier
  numPuts := 0
  numDeletes := 0
  dataEnd := logHeaderSize
  maxKeyLen := 0
  maxValueLen := 0
  deleteSize := 0
  compressionType
  compressionBlockSize
  putSize := 0
  headerSize := logHeaderSize
  maxEntriesPerBlock := 0

/-- `sparkey_logwriter_create`.  An older file of the name is removed, so the file starts
empty.  `header_size` is not set in C and not used by the writer. -/
def logwriterCreate (env : WriterEnv) (compressionType : CompressionType)
    (compressionBlockSize : Nat) : Except (Stop Returncode) Logwriter :=
  if usesCompressor compressionType ∧ compressionBlockSize < 10 then
    .error (.rc .invalidCompressionBlockSize)
  else
    let compressionBlockSize := if usesCompressor compressionType then compressionBlockSize else 0
    match env.rand32 with
    | none => .error (.rc .internalError)
    | some fileIdentifier =>
      let header := newLogheader (u32 fileIdentifier) compressionType compressionBlockSize
      match (writeLogheader header).run { data := [], offset := 0, writes := env.writes } with
      | .error e _ => .error e
      | .ok _ fd =>
        if fd.offset ≠ logHeaderSize then
          .error (.rc .internalError)
        else
          .ok {
            openStatus := magicValueLogwriter
            header
            fd
            blockBuf := Buf.init compressionBlockSize
            maxCompressedSize :=
              (sparkeyCompressors compressionType).maxCompressedSize compressionBlockSize
            fileBuf := Buf.init fileBufSize
            flushed := false
            entryCount := 0
            compressFails := env.compressFails }

/-- `sparkey_logwriter_append` to a file with some content, or to none. -/
def logwriterAppend (env : WriterEnv) (file : Option (List UInt8)) :
    Except (Stop Returncode) Logwriter :=
  match loadLogheader file with
  | .error code => .error (.rc code)
  | .ok header =>
    if header.majorVersion ≠ logMajorVersion then
      .error (.rc .wrongLogMajorVersion)
    else if header.minorVersion ≠ logMinorVersion then
      .error (.rc .unsupportedLogMinorVersion)
    else if usesCompressor header.compressionType ∧ header.compressionBlockSize < 10 then
      .error (.rc .invalidCompressionBlockSize)
    else
      let header := if usesCompressor header.compressionType then header
        else { header with compressionBlockSize := 0 }
      .ok {
        openStatus := magicValueLogwriter
        header
        fd := { data := file.getD [], offset := header.dataEnd, writes := env.writes }
        blockBuf := Buf.init header.compressionBlockSize
        maxCompressedSize :=
          (sparkeyCompressors header.compressionType).maxCompressedSize header.compressionBlockSize
        fileBuf := Buf.init fileBufSize
        flushed := false
        entryCount := 0
        compressFails := env.compressFails }

end Sparkey
