import Sparkey.Logheader

/-!
# `hashheader.c` and `hashalgorithms.c`

The header of an index: eighteen little-endian fields in 112 bytes, and behind it
`hashCapacity` slots, each a hash value and an address of `hashSize` and
`addressSize` bytes.

The two hash functions are parameters, known only by the width of their values,
so whatever is proved here holds for functions that collide as much as they like.
-/

namespace Sparkey

open Program

def hashMagicNumber : Nat := 0x9a11318f

def hashMajorVersion : Nat := 1

def hashMinorVersion : Nat := 1

def hashHeaderSize : Nat := 112

/-- The function `hash` of `sparkey_get_hash_algorithm`, for each hash size. -/
class HashFunctions where
  hash : Nat → List UInt8 → Nat → Nat
  hash_lt : ∀ hashSize key hashSeed, hash hashSize key hashSeed < 256 ^ hashSize

/-- A poor hash function: the length of the key. -/
abbrev lengthHash : HashFunctions where
  hash hashSize key _ := key.length % 256 ^ hashSize
  hash_lt _ _ _ := Nat.mod_lt _ (Nat.pow_pos (by decide))

def hasHashAlgorithm (hashSize : Nat) : Bool := hashSize = 4 ∨ hashSize = 8

/-- `sparkey_hashheader`.  The field `hash_algorithm` goes by `hashSize`. -/
structure Hashheader where
  majorVersion : Nat
  minorVersion : Nat
  fileIdentifier : Nat
  hashSeed : Nat
  headerSize : Nat
  dataEnd : Nat
  maxKeyLen : Nat
  maxValueLen : Nat
  garbageSize : Nat
  numEntries : Nat
  addressSize : Nat
  hashSize : Nat
  hashCapacity : Nat
  maxDisplacement : Nat
  numPuts : Nat
  entryBlockBits : Nat
  entryBlockBitmask : Nat
  hashCollisions : Nat
  totalDisplacement : Nat
  deriving DecidableEq

/-- The mask for so many bits.  C shifts an `int`, which is undefined from 31 bits on; no index that
the library writes has more than 30 (`Hashheader.Fits`). -/
def bitmask (bits : Nat) : Nat := (1 <<< bits) - 1

/-- `hashheader_version0`: the fields behind the three version words, and the
consistency checks. -/
def hashheaderVersion0 (majorVersion minorVersion : Nat) :
    EStateM Returncode (List UInt8) Hashheader := do
  let fileIdentifier ← freadLittleEndian 4
  let hashSeed ← freadLittleEndian 4
  let dataEnd ← freadLittleEndian 8
  let maxKeyLen ← freadLittleEndian 8
  let maxValueLen ← freadLittleEndian 8
  let numPuts ← freadLittleEndian 8
  let garbageSize ← freadLittleEndian 8
  let numEntries ← freadLittleEndian 8
  let addressSize ← freadLittleEndian 4
  let hashSize ← freadLittleEndian 4
  let hashCapacity ← freadLittleEndian 8
  let maxDisplacement ← freadLittleEndian 8
  let entryBlockBits ← freadLittleEndian 4
  let entryBlockBitmask := bitmask entryBlockBits
  let hashCollisions ← freadLittleEndian 8
  let totalDisplacement ← freadLittleEndian 8
  let headerSize := hashHeaderSize
  if !hasHashAlgorithm hashSize then
    throw .hashHeaderCorrupt
  if numPuts < numEntries then
    throw .hashHeaderCorrupt
  if numEntries < maxDisplacement then
    throw .hashHeaderCorrupt
  if numEntries < hashCollisions then
    throw .hashHeaderCorrupt
  pure { majorVersion, minorVersion, fileIdentifier, hashSeed, headerSize, dataEnd, maxKeyLen,
         maxValueLen, garbageSize, numEntries, addressSize, hashSize, hashCapacity,
         maxDisplacement, numPuts, entryBlockBits, entryBlockBitmask, hashCollisions,
         totalDisplacement }

/-- The part of `sparkey_load_hashheader` that reads the stream.  Both minor versions have
the same loader. -/
def readHashheader : EStateM Returncode (List UInt8) Hashheader := do
  let tmp ← freadLittleEndian 4
  if tmp ≠ hashMagicNumber then
    throw .wrongHashMagicNumber
  let majorVersion ← freadLittleEndian 4
  if majorVersion ≠ hashMajorVersion then
    throw .wrongHashMajorVersion
  let minorVersion ← freadLittleEndian 4
  if hashMinorVersion < minorVersion then
    throw .unsupportedHashMinorVersion
  hashheaderVersion0 majorVersion minorVersion

/-- `sparkey_load_hashheader` on a file with some content, or on none. -/
def loadHashheader (file : Option (List UInt8)) : Except Returncode Hashheader :=
  match file with
  | none => .error .fileNotFound
  | some bytes =>
    match readHashheader.run bytes with
    | .ok header _ => .ok header
    | .error code _ => .error code

def writeHashheader (header : Hashheader) : Run File Unit := do
  fwriteLittleEndian 4 hashMagicNumber
  fwriteLittleEndian 4 hashMajorVersion
  fwriteLittleEndian 4 hashMinorVersion
  fwriteLittleEndian 4 header.fileIdentifier
  fwriteLittleEndian 4 header.hashSeed
  fwriteLittleEndian 8 header.dataEnd
  fwriteLittleEndian 8 header.maxKeyLen
  fwriteLittleEndian 8 header.maxValueLen
  fwriteLittleEndian 8 header.numPuts
  fwriteLittleEndian 8 header.garbageSize
  fwriteLittleEndian 8 header.numEntries
  fwriteLittleEndian 4 header.addressSize
  fwriteLittleEndian 4 header.hashSize
  fwriteLittleEndian 8 header.hashCapacity
  fwriteLittleEndian 8 header.maxDisplacement
  fwriteLittleEndian 4 header.entryBlockBits
  fwriteLittleEndian 8 header.hashCollisions
  fwriteLittleEndian 8 header.totalDisplacement

/-! ### The bytes of a header -/

/-- The 112 bytes `write_hashheader` sends out. -/
def Hashheader.bytes (header : Hashheader) : List UInt8 :=
  writeLittleEndian 4 hashMagicNumber ++ (writeLittleEndian 4 hashMajorVersion ++
  (writeLittleEndian 4 hashMinorVersion ++ (writeLittleEndian 4 header.fileIdentifier ++
  (writeLittleEndian 4 header.hashSeed ++ (writeLittleEndian 8 header.dataEnd ++
  (writeLittleEndian 8 header.maxKeyLen ++ (writeLittleEndian 8 header.maxValueLen ++
  (writeLittleEndian 8 header.numPuts ++ (writeLittleEndian 8 header.garbageSize ++
  (writeLittleEndian 8 header.numEntries ++ (writeLittleEndian 4 header.addressSize ++
  (writeLittleEndian 4 header.hashSize ++ (writeLittleEndian 8 header.hashCapacity ++
  (writeLittleEndian 8 header.maxDisplacement ++ (writeLittleEndian 4 header.entryBlockBits ++
  (writeLittleEndian 8 header.hashCollisions ++
  writeLittleEndian 8 header.totalDisplacement))))))))))))))))

@[simp] theorem Hashheader.length_bytes (header : Hashheader) :
    header.bytes.length = hashHeaderSize := by
  simp [Hashheader.bytes, hashHeaderSize]

/-- The header goes out as one write of its bytes would, or as a prefix of it. -/
theorem sent_writeHashheader (header : Hashheader) (f : File) :
    Sent f header.bytes ((writeHashheader header).run f) := by
  unfold writeHashheader Hashheader.bytes
  repeat' refine Sent.bind (sent_fwriteLittleEndian _ _ _) (fun w => ?_)
  exact sent_fwriteLittleEndian _ _ _

theorem consumes_readHashheader : Consumes hashHeaderSize readHashheader := by
  have hfields : ∀ major minor : Nat, Consumes 100 (hashheaderVersion0 major minor) := by
    intro major minor
    show Consumes (4 + (4 + (8 + (8 + (8 + (8 + (8 + (8 + (4 + (4 + (8 + (8 + (4 + (8 + (8 + 0)))))))))))))))
      _
    unfold hashheaderVersion0
    repeat' refine (consumes_freadLittleEndian _).bind fun _ => ?_
    exact .check (.check (.check (.check (consumes_pure _))))
  show Consumes (4 + (4 + (4 + 100))) _
  unfold readHashheader
  refine (consumes_freadLittleEndian _).bind fun _ => .check ?_
  refine (consumes_freadLittleEndian _).bind fun _ => .check ?_
  exact (consumes_freadLittleEndian _).bind fun _ => .check (hfields _ _)

theorem loadHashheader_of_short {bytes : List UInt8} (h : bytes.length < hashHeaderSize)
    (header : Hashheader) : loadHashheader (some bytes) ≠ .ok header := by
  intro hload
  unfold loadHashheader at hload
  cases hrun : readHashheader.run bytes with
  | ok header rest =>
    have := consumes_readHashheader _ _ _ hrun
    omega
  | error code rest =>
    simp only [hrun] at hload
    cases hload

structure Hashheader.Loaded (header : Hashheader) : Prop where
  headerSize : header.headerSize = hashHeaderSize
  hashSize : header.hashSize = 4 ∨ header.hashSize = 8
  addressSize_lt : header.addressSize < 2 ^ 32
  capacity_lt : header.hashCapacity < 2 ^ 64

theorem takes_readHashheader : Takes hashHeaderSize Hashheader.Loaded readHashheader := by
  have hfields : ∀ major minor : Nat, Takes 100 Hashheader.Loaded (hashheaderVersion0 major minor) := by
    intro major minor
    show Takes (4 + (4 + (8 + (8 + (8 + (8 + (8 + (8 + (4 + (4 + (8 + (8 + (4 + (8 + (8 + 0)))))))))))))))
      _ _
    unfold hashheaderVersion0
    repeat' refine (takes_freadLittleEndian _).bind fun _ _ => ?_
    refine .check fun hknown => .check fun _ => .check fun _ => .check fun _ => takes_pure ?_
    refine ⟨rfl, ?_, ?_, ?_⟩
    · simpa [hasHashAlgorithm, Decidable.or_iff_not_imp_left] using hknown
    · assumption
    · assumption
  show Takes (4 + (4 + (4 + 100))) _ _
  unfold readHashheader
  refine (takes_freadLittleEndian _).bind fun _ _ => .check fun _ => ?_
  refine (takes_freadLittleEndian _).bind fun _ _ => .check fun _ => ?_
  exact (takes_freadLittleEndian _).bind fun _ _ => .check fun _ => hfields _ _

/-- **The loader looks at 112 bytes**, and what it takes is one of the two hash sizes. -/
theorem loadHashheader_eq_of_take {bytes bytes' : List UInt8} {header : Hashheader}
    (h : loadHashheader (some bytes) = .ok header)
    (heq : bytes'.take hashHeaderSize = bytes.take hashHeaderSize) :
    header.Loaded ∧ loadHashheader (some bytes') = .ok header := by
  have hlen : (bytes.take hashHeaderSize).length = hashHeaderSize := by
    refine List.length_take_of_le (Nat.le_of_not_lt fun hshort => ?_)
    exact loadHashheader_of_short hshort header h
  unfold loadHashheader at h ⊢
  simp only at h ⊢
  rw [← List.take_append_drop hashHeaderSize bytes] at h
  cases hrun : readHashheader.run (bytes.take hashHeaderSize ++ bytes.drop hashHeaderSize) with
  | ok header' rest =>
    rw [hrun] at h
    cases h
    obtain ⟨hloaded, -, hall⟩ := takes_readHashheader _ _ _ _ hlen hrun
    refine ⟨hloaded, ?_⟩
    rw [← List.take_append_drop hashHeaderSize bytes', heq, hall]
  | error code rest =>
    rw [hrun] at h
    cases h

/-- The whole header goes out, if no `write` fails. -/
theorem sends_writeHashheader (header : Hashheader) : Sends header.bytes (writeHashheader header) := by
  unfold writeHashheader Hashheader.bytes
  repeat' refine (sends_fwriteLittleEndian _ _).bind ?_
  exact sends_fwriteLittleEndian _ _

/-- Every field fits the width it has in the file, and the mask is an `int`. -/
structure Hashheader.Fits (header : Hashheader) : Prop where
  fileIdentifier : header.fileIdentifier < 2 ^ 32
  hashSeed : header.hashSeed < 2 ^ 32
  dataEnd : header.dataEnd < 2 ^ 64
  maxKeyLen : header.maxKeyLen < 2 ^ 64
  maxValueLen : header.maxValueLen < 2 ^ 64
  numPuts : header.numPuts < 2 ^ 64
  garbageSize : header.garbageSize < 2 ^ 64
  numEntries : header.numEntries < 2 ^ 64
  addressSize : header.addressSize < 2 ^ 32
  hashSize : header.hashSize < 2 ^ 32
  hashCapacity : header.hashCapacity < 2 ^ 64
  maxDisplacement : header.maxDisplacement < 2 ^ 64
  entryBlockBits : header.entryBlockBits ≤ 30
  hashCollisions : header.hashCollisions < 2 ^ 64
  totalDisplacement : header.totalDisplacement < 2 ^ 64

structure Hashheader.Current (header : Hashheader) : Prop where
  majorVersion : header.majorVersion = hashMajorVersion
  minorVersion : header.minorVersion = hashMinorVersion
  headerSize : header.headerSize = hashHeaderSize
  entryBlockBitmask : header.entryBlockBitmask = bitmask header.entryBlockBits

def Hashheader.Consistent (header : Hashheader) : Prop :=
  hasHashAlgorithm header.hashSize = true ∧ header.numEntries ≤ header.numPuts ∧
    header.maxDisplacement ≤ header.numEntries ∧ header.hashCollisions ≤ header.numEntries

instance (header : Hashheader) : Decidable header.Consistent :=
  inferInstanceAs (Decidable (_ ∧ _ ∧ _ ∧ _))

/-- **The loader on a written header**: every field comes back, if the checks hold. -/
theorem loadHashheader_bytes {header : Hashheader} (hf : header.Fits) (hc : header.Current)
    (rest : List UInt8) :
    loadHashheader (some (header.bytes ++ rest))
      = if header.Consistent then .ok header else .error .hashHeaderCorrupt := by
  have hread : ∀ {n value : Nat} (h : value < 256 ^ n) (tail : List UInt8) {β : Type}
      (g : Nat → EStateM Returncode (List UInt8) β),
      (freadLittleEndian n >>= g).run (writeLittleEndian n value ++ tail) = (g value).run tail := by
    intro n value h tail β g
    rw [EStateM.run_bind, run_freadLittleEndian h]
  unfold loadHashheader Hashheader.bytes readHashheader hashheaderVersion0
  simp only [List.append_assoc]
  rw [hread (by decide), if_neg (by simp), hread (by decide), if_neg (by simp), hread (by decide),
    if_neg (by simp), hread hf.fileIdentifier, hread hf.hashSeed, hread hf.dataEnd,
    hread hf.maxKeyLen, hread hf.maxValueLen, hread hf.numPuts, hread hf.garbageSize,
    hread hf.numEntries, hread hf.addressSize, hread hf.hashSize, hread hf.hashCapacity,
    hread hf.maxDisplacement, hread (Nat.lt_of_le_of_lt hf.entryBlockBits (by decide)),
    hread hf.hashCollisions,
    hread hf.totalDisplacement, ← hc.majorVersion, ← hc.minorVersion, ← hc.headerSize,
    ← hc.entryBlockBitmask]
  unfold Hashheader.Consistent
  by_cases halg : hasHashAlgorithm header.hashSize = true
  · by_cases hputs : header.numPuts < header.numEntries
    · have : ¬ header.numEntries ≤ header.numPuts := Nat.not_le.mpr hputs
      simp [halg, hputs, this]
    by_cases hdisp : header.numEntries < header.maxDisplacement
    · have : ¬ header.maxDisplacement ≤ header.numEntries := Nat.not_le.mpr hdisp
      simp [halg, hputs, hdisp, this]
    by_cases hcoll : header.numEntries < header.hashCollisions
    · have : ¬ header.hashCollisions ≤ header.numEntries := Nat.not_le.mpr hcoll
      simp [halg, hputs, hdisp, hcoll, this]
    · simp [halg, hputs, hdisp, hcoll, Nat.le_of_not_lt]
  · simp [halg]

/-- Whatever the header was, the loader finds where the data ended, and the sizes of the table. -/
theorem sizes_of_loadHashheader {header header' : Hashheader} {rest : List UInt8}
    (h : loadHashheader (some (header.bytes ++ rest)) = .ok header') :
    header'.dataEnd = header.dataEnd % 2 ^ 64 ∧ header'.hashCapacity = header.hashCapacity % 2 ^ 64 ∧
      header'.addressSize = header.addressSize % 2 ^ 32 ∧
      header'.hashSize = header.hashSize % 2 ^ 32 ∧
      header'.entryBlockBits = header.entryBlockBits % 2 ^ 32 := by
  have hread : ∀ (n value : Nat) (tail : List UInt8) {β : Type}
      (g : Nat → EStateM Returncode (List UInt8) β),
      (freadLittleEndian n >>= g).run (writeLittleEndian n value ++ tail)
        = (g (value % 256 ^ n)).run tail := by
    intro n value tail β g
    rw [EStateM.run_bind, run_freadLittleEndian_mod]
  unfold loadHashheader Hashheader.bytes readHashheader hashheaderVersion0 at h
  simp only [List.append_assoc] at h
  rw [hread, if_neg (by decide), hread, if_neg (by decide), hread, if_neg (by decide)] at h
  simp only [hread] at h
  split at h
  · rename_i header₁ _ hrun
    cases h
    split_ifs at hrun <;> cases hrun
    exact ⟨rfl, rfl, rfl, rfl, rfl⟩
  · cases h

/-! ### Slots -/

/-- `get_displacement`, in 64-bit words. -/
def getDisplacement (capacity slot hash : Nat) : Nat :=
  let wantedSlot := hash % capacity
  u64 (capacity + u64 (slot + (2 ^ 64 - wantedSlot))) % capacity

def readAddr (hashtable : List UInt8) (pos addressSize : Nat) : Option Nat :=
  if addressSize = 4 ∨ addressSize = 8 then readLittleEndian addressSize hashtable pos
  else some (2 ^ 64 - 1)

def writeAddr (value addressSize : Nat) : List UInt8 :=
  if addressSize = 4 ∨ addressSize = 8 then writeLittleEndian addressSize value else []

namespace Hashheader

def slotSize (header : Hashheader) : Nat := header.addressSize + header.hashSize

/-- `slot_size` as it goes into 64-bit sums and products: the `int` made of a sum of two 32-bit
words, which is negative from `2 ^ 31` on. -/
def slotStep (header : Hashheader) : Nat :=
  let size := u32 header.slotSize
  if size < 2 ^ 31 then size else size + (2 ^ 64 - 2 ^ 32)

def readPos (header : Hashheader) (hashtable : List UInt8) (pos : Nat) : Option (Nat × Nat) :=
  (readLittleEndian header.hashSize hashtable pos).bind fun hash =>
    (readAddr hashtable (pos + header.hashSize) header.addressSize).map fun position =>
      (hash, position)

/-- The hash value and the address in a slot.  Where the code keeps the position of the slot in
`pos`, it is always this. -/
def readSlot (header : Hashheader) (hashtable : List UInt8) (slot : Nat) : Option (Nat × Nat) :=
  header.readPos hashtable (slot * header.slotSize)

def writeSlot (header : Hashheader) (hashtable : List UInt8) (slot hash position : Nat) :
    List UInt8 :=
  let pos := slot * header.slotSize
  splice (splice hashtable pos (writeLittleEndian header.hashSize hash)) (pos + header.hashSize)
    (writeAddr position header.addressSize)

/-- The address of an entry: its block position and its number in the block. -/
def address (header : Hashheader) (blockPosition entryCount : Nat) : Nat :=
  u64 (blockPosition <<< header.entryBlockBits) ||| entryCount

def positionOf (header : Hashheader) (address : Nat) : Nat := address >>> header.entryBlockBits

/-- The number in an address, which is made an `int` first. -/
def entryIndexOf (header : Hashheader) (address : Nat) : Nat :=
  u32 address &&& header.entryBlockBitmask

end Hashheader

/-- The slot behind a slot: `slot++; if (slot >= hash_capacity) slot = 0;`. -/
def nextSlot (capacity slot : Nat) : Nat := if capacity ≤ slot + 1 then 0 else slot + 1

end Sparkey
