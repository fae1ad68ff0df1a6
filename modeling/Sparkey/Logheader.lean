import Sparkey.Endiantools

/-!
# `logheader.c`

The header of a log file: fourteen little-endian fields in 84 bytes.
`loadLogheader_bytes` is what the loader makes of a header that was written:
its two plausibility tests on the entry counts decide alone.
-/

namespace Sparkey

open Program

def logMagicNumber : Nat := 0x49b39c95

def logMajorVersion : Nat := 1

def logMinorVersion : Nat := 0

def logHeaderSize : Nat := 84

structure Logheader where
  majorVersion : Nat
  minorVersion : Nat
  fileIdentifier : Nat
  numPuts : Nat
  numDeletes : Nat
  dataEnd : Nat
  maxKeyLen : Nat
  maxValueLen : Nat
  deleteSize : Nat
  compressionType : CompressionType
  compressionBlockSize : Nat
  putSize : Nat
  headerSize : Nat
  maxEntriesPerBlock : Nat
  deriving DecidableEq

/-- `logheader_version0`: the fields behind the three version words, and the
consistency checks. -/
def logheaderVersion0 (majorVersion minorVersion : Nat) :
    EStateM Returncode (List UInt8) Logheader := do
  let fileIdentifier ← freadLittleEndian 4
  let numPuts ← freadLittleEndian 8
  let numDeletes ← freadLittleEndian 8
  let dataEnd ← freadLittleEndian 8
  let maxKeyLen ← freadLittleEndian 8
  let maxValueLen ← freadLittleEndian 8
  let deleteSize ← freadLittleEndian 8
  let compressionType ← freadLittleEndian 4
  let compressionBlockSize ← freadLittleEndian 4
  let putSize ← freadLittleEndian 8
  let maxEntriesPerBlock ← freadLittleEndian 4
  let headerSize := logHeaderSize
  if dataEnd < headerSize then
    throw .logHeaderCorrupt
  if dataEnd < numPuts then
    throw .logHeaderCorrupt
  if dataEnd < numDeletes then
    throw .logHeaderCorrupt
  match CompressionType.ofNat? compressionType with
  | none => throw .logHeaderCorrupt
  | some compressionType =>
    pure { majorVersion, minorVersion, fileIdentifier, numPuts, numDeletes, dataEnd, maxKeyLen,
           maxValueLen, deleteSize, compressionType, compressionBlockSize, putSize, headerSize,
           maxEntriesPerBlock }

/-- The part of `sparkey_load_logheader` that reads the stream.  The only loader is
the one of minor version 0. -/
def readLogheader : EStateM Returncode (List UInt8) Logheader := do
  let tmp ← freadLittleEndian 4
  if tmp ≠ logMagicNumber then
    throw .wrongLogMagicNumber
  let majorVersion ← freadLittleEndian 4
  if majorVersion ≠ logMajorVersion then
    throw .wrongLogMajorVersion
  let minorVersion ← freadLittleEndian 4
  if logMinorVersion < minorVersion then
    throw .unsupportedLogMinorVersion
  logheaderVersion0 majorVersion minorVersion

/-- `sparkey_load_logheader` on a file with some content, or on none. -/
def loadLogheader (file : Option (List UInt8)) : Except Returncode Logheader :=
  match file with
  | none => .error .fileNotFound
  | some bytes =>
    match readLogheader.run bytes with
    | .ok header _ => .ok header
    | .error code _ => .error code

def writeLogheader (header : Logheader) : Run File Unit := do
  fwriteLittleEndian 4 logMagicNumber
  fwriteLittleEndian 4 logMajorVersion
  fwriteLittleEndian 4 logMinorVersion
  fwriteLittleEndian 4 header.fileIdentifier
  fwriteLittleEndian 8 header.numPuts
  fwriteLittleEndian 8 header.numDeletes
  fwriteLittleEndian 8 header.dataEnd
  fwriteLittleEndian 8 header.maxKeyLen
  fwriteLittleEndian 8 header.maxValueLen
  fwriteLittleEndian 8 header.deleteSize
  fwriteLittleEndian 4 header.compressionType.toNat
  fwriteLittleEndian 4 header.compressionBlockSize
  fwriteLittleEndian 8 header.putSize
  fwriteLittleEndian 4 header.maxEntriesPerBlock

/-! ### The bytes of a header -/

/-- The 84 bytes `write_logheader` sends out. -/
def Logheader.bytes (header : Logheader) : List UInt8 :=
  writeLittleEndian 4 logMagicNumber ++ (writeLittleEndian 4 logMajorVersion ++
  (writeLittleEndian 4 logMinorVersion ++ (writeLittleEndian 4 header.fileIdentifier ++
  (writeLittleEndian 8 header.numPuts ++ (writeLittleEndian 8 header.numDeletes ++
  (writeLittleEndian 8 header.dataEnd ++ (writeLittleEndian 8 header.maxKeyLen ++
  (writeLittleEndian 8 header.maxValueLen ++ (writeLittleEndian 8 header.deleteSize ++
  (writeLittleEndian 4 header.compressionType.toNat ++
  (writeLittleEndian 4 header.compressionBlockSize ++ (writeLittleEndian 8 header.putSize ++
  writeLittleEndian 4 header.maxEntriesPerBlock))))))))))))

@[simp] theorem Logheader.length_bytes (header : Logheader) :
    header.bytes.length = logHeaderSize := by
  simp [Logheader.bytes, logHeaderSize]

/-- The header goes out as one write of its bytes would, or as a prefix of it. -/
theorem sent_writeLogheader (header : Logheader) (f : File) :
    Sent f header.bytes ((writeLogheader header).run f) := by
  unfold writeLogheader Logheader.bytes
  repeat' refine Sent.bind (sent_fwriteLittleEndian _ _ _) (fun w => ?_)
  exact sent_fwriteLittleEndian _ _ _

theorem wrote_writeLogheader (header : Logheader) (f : File) :
    Wrote f header.bytes ((writeLogheader header).run f) :=
  (sent_writeLogheader header f).wrote

theorem sends_writeLogheader (header : Logheader) : Sends header.bytes (writeLogheader header) := by
  unfold writeLogheader Logheader.bytes
  repeat' refine (sends_fwriteLittleEndian _ _).bind ?_
  exact sends_fwriteLittleEndian _ _

structure Logheader.Fits (header : Logheader) : Prop where
  fileIdentifier : header.fileIdentifier < 2 ^ 32
  numPuts : header.numPuts < 2 ^ 64
  numDeletes : header.numDeletes < 2 ^ 64
  dataEnd : header.dataEnd < 2 ^ 64
  maxKeyLen : header.maxKeyLen < 2 ^ 64
  maxValueLen : header.maxValueLen < 2 ^ 64
  deleteSize : header.deleteSize < 2 ^ 64
  compressionBlockSize : header.compressionBlockSize < 2 ^ 32
  putSize : header.putSize < 2 ^ 64
  maxEntriesPerBlock : header.maxEntriesPerBlock < 2 ^ 32

structure Logheader.Current (header : Logheader) : Prop where
  majorVersion : header.majorVersion = logMajorVersion
  minorVersion : header.minorVersion = logMinorVersion
  headerSize : header.headerSize = logHeaderSize

/-- **The loader on a written header**: every field comes back, unless the data
are shorter than the header or than either entry count. -/
theorem loadLogheader_bytes {header : Logheader} (hf : header.Fits) (hc : header.Current)
    (rest : List UInt8) :
    loadLogheader (some (header.bytes ++ rest))
      = if header.dataEnd < logHeaderSize ∨ header.dataEnd < header.numPuts ∨
          header.dataEnd < header.numDeletes then .error .logHeaderCorrupt
        else .ok header := by
  have hread : ∀ {n value : Nat} (h : value < 256 ^ n) (tail : List UInt8) {β : Type}
      (g : Nat → EStateM Returncode (List UInt8) β),
      (freadLittleEndian n >>= g).run (writeLittleEndian n value ++ tail) = (g value).run tail := by
    intro n value h tail β g
    rw [EStateM.run_bind, run_freadLittleEndian h]
  have ht : header.compressionType.toNat < 256 ^ 4 := by
    cases header.compressionType <;> decide
  unfold loadLogheader Logheader.bytes readLogheader logheaderVersion0
  simp only [List.append_assoc]
  rw [hread (by decide), if_neg (by simp), hread (by decide), if_neg (by simp), hread (by decide),
    if_neg (by simp), hread hf.fileIdentifier, hread hf.numPuts, hread hf.numDeletes,
    hread hf.dataEnd, hread hf.maxKeyLen, hread hf.maxValueLen, hread hf.deleteSize, hread ht,
    hread hf.compressionBlockSize, hread hf.putSize, hread hf.maxEntriesPerBlock]
  rw [CompressionType.ofNat?_toNat]
  have heq : (⟨logMajorVersion, logMinorVersion, header.fileIdentifier, header.numPuts,
      header.numDeletes, header.dataEnd, header.maxKeyLen, header.maxValueLen, header.deleteSize,
      header.compressionType, header.compressionBlockSize, header.putSize, logHeaderSize,
      header.maxEntriesPerBlock⟩ : Logheader) = header := by
    rw [← hc.majorVersion, ← hc.minorVersion, ← hc.headerSize]
  by_cases h1 : header.dataEnd < logHeaderSize
  · simp [h1]
  by_cases h2 : header.dataEnd < header.numPuts
  · simp [h1, h2]
  by_cases h3 : header.dataEnd < header.numDeletes
  · simp [h1, h2, h3]
  · simp [h1, h2, h3, heq]

/-! ### Any header that is accepted -/

def Gives {ε σ α : Type} (P : α → Prop) (x : EStateM ε σ α) : Prop :=
  ∀ s a s', x.run s = .ok a s' → P a

theorem gives_bind {ε σ α β : Type} {P : β → Prop} {x : EStateM ε σ α} {f : α → EStateM ε σ β}
    (hf : ∀ a, Gives P (f a)) : Gives P (x >>= f) := by
  intro s b s' h
  rw [EStateM.run_bind] at h
  cases hx : x.run s with
  | ok a s₁ =>
    rw [hx] at h
    exact hf a s₁ b s' h
  | error e s₁ =>
    rw [hx] at h
    cases h

theorem gives_throw {ε σ α : Type} {P : α → Prop} (code : ε) : Gives P (throw code : EStateM ε σ α) := by
  intro s a s' h
  cases h

theorem gives_ite {ε σ α : Type} {P : α → Prop} {p : Prop} [Decidable p] {x y : EStateM ε σ α}
    (hx : p → Gives P x) (hy : ¬ p → Gives P y) : Gives P (if p then x else y) := by
  split_ifs with h
  · exact hx h
  · exact hy h

/-- A header that is accepted says where the data begin, and that they end behind it. -/
theorem gives_logheaderVersion0 (majorVersion minorVersion : Nat) :
    Gives (fun header => header.headerSize = logHeaderSize ∧ logHeaderSize ≤ header.dataEnd)
      (logheaderVersion0 majorVersion minorVersion) := by
  unfold logheaderVersion0
  refine gives_bind fun fileIdentifier => gives_bind fun numPuts => gives_bind fun numDeletes =>
    gives_bind fun dataEnd => gives_bind fun maxKeyLen => gives_bind fun maxValueLen =>
    gives_bind fun deleteSize => gives_bind fun compressionType => gives_bind fun blockSize =>
    gives_bind fun putSize => gives_bind fun maxEntries => ?_
  refine gives_ite (fun _ => gives_throw _) fun hend => ?_
  refine gives_ite (fun _ => gives_throw _) fun _ => ?_
  refine gives_ite (fun _ => gives_throw _) fun _ => ?_
  cases CompressionType.ofNat? compressionType with
  | none => exact gives_throw _
  | some type =>
    intro s header s' h
    cases h
    exact ⟨rfl, Nat.le_of_not_lt hend⟩

theorem gives_readLogheader :
    Gives (fun header => header.headerSize = logHeaderSize ∧ logHeaderSize ≤ header.dataEnd)
      readLogheader := by
  unfold readLogheader
  refine gives_bind fun tmp => gives_ite (fun _ => gives_throw _) fun _ => ?_
  refine gives_bind fun majorVersion => gives_ite (fun _ => gives_throw _) fun _ => ?_
  refine gives_bind fun minorVersion => gives_ite (fun _ => gives_throw _) fun _ => ?_
  exact gives_logheaderVersion0 majorVersion minorVersion

end Sparkey
