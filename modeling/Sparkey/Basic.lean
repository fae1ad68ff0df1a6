import Sparkey.Lib.Run

/-!
# Codes, types and machine words

The return codes of `sparkey.h` without `SPARKEY_SUCCESS`, which is the `ok`
result of a program, and the enumerations the log and the index share.

Numbers are `Nat`.  Where the code stores into or computes in a word whose
width can matter, `u64` and `u32` cut the result down; everywhere else the
value is a length or an offset in a file or a buffer and stays far below.
-/

namespace Sparkey

/-- `sparkey_returncode`, `SPARKEY_SUCCESS` apart. -/
inductive Returncode
  | internalError
  | fileNotFound
  | permissionDenied
  | tooManyOpenFiles
  | fileTooLarge
  | fileAlreadyExists
  | fileBusy
  | fileIsDirectory
  | fileSizeExceeded
  | fileClosed
  | outOfDisk
  | unexpectedEof
  | mmapFailed
  | wrongLogMagicNumber
  | wrongLogMajorVersion
  | unsupportedLogMinorVersion
  | logTooSmall
  | logClosed
  | logIteratorInactive
  | logIteratorMismatch
  | logIteratorClosed
  | logHeaderCorrupt
  | invalidCompressionBlockSize
  | invalidCompressionType
  | wrongHashMagicNumber
  | wrongHashMajorVersion
  | unsupportedHashMinorVersion
  | hashTooSmall
  | hashClosed
  | fileIdentifierMismatch
  | hashHeaderCorrupt
  | hashSizeInvalid
  deriving DecidableEq

/-- A program of the library: it changes `σ`, and returns a value or a code. -/
abbrev Run (σ α : Type) := Program.Run Returncode σ α

inductive CompressionType
  | none
  | snappy
  | zstd
  deriving DecidableEq

/-- The number an enumerator has in the file. -/
def CompressionType.toNat : CompressionType → Nat
  | .none => 0
  | .snappy => 1
  | .zstd => 2

def CompressionType.ofNat? : Nat → Option CompressionType
  | 0 => some .none
  | 1 => some .snappy
  | 2 => some .zstd
  | _ => Option.none

@[simp] theorem CompressionType.ofNat?_toNat (t : CompressionType) :
    CompressionType.ofNat? t.toNat = some t := by
  cases t <;> rfl

inductive EntryType
  | put
  | delete
  deriving DecidableEq

inductive IterState
  | new
  | active
  | closed
  | invalid
  deriving DecidableEq

def u64 (n : Nat) : Nat := n % 2 ^ 64

def u32 (n : Nat) : Nat := n % 2 ^ 32

theorem u64_of_lt {n : Nat} (h : n < 2 ^ 64) : u64 n = n := Nat.mod_eq_of_lt h

theorem u32_of_lt {n : Nat} (h : n < 2 ^ 32) : u32 n = n := Nat.mod_eq_of_lt h

theorem u64_lt (n : Nat) : u64 n < 2 ^ 64 := Nat.mod_lt _ (by decide)

theorem u64_add_u64 (a b : Nat) : u64 (u64 a + b) = u64 (a + b) := by
  unfold u64
  omega

theorem u32_lt (n : Nat) : u32 n < 2 ^ 32 := Nat.mod_lt _ (by decide)

/-- A C object: at most `PTRDIFF_MAX` bytes.  The keys and values that callers
hand over are such objects. -/
abbrev Blob := { bytes : List UInt8 // bytes.length < 2 ^ 63 }

end Sparkey
