import Sparkey.Hashheader
import Sparkey.Logreader

/-!
# `hashwriter.c` and `hashiter.c`

The table is built by `hash_put` and `hash_delete`, one entry of the log after the
other, perhaps behind `fill_hash`, which takes over the slots of the index that is
there already.

The probe loops have no bound in the code; here they may go round the table once and
one slot further.  Allocating memory does not fail, except that no object has more
than `PTRDIFF_MAX` bytes.
-/

namespace Sparkey

open Program

/-! ### Counting -/

def intLog2Loop : Nat → Nat → Nat → Nat
  | 0, _, count => count
  | fuel + 1, x, count => if 0 < x then intLog2Loop fuel (x >>> 1) (count + 1) else count

def intLog2 (x : Nat) : Nat := intLog2Loop 32 x 0

def putSize (keylen valuelen : Nat) : Nat :=
  keylen + valuelen + unsignedVlqSize (keylen + 1) + unsignedVlqSize valuelen

def deleteSize (keylen : Nat) : Nat := 1 + unsignedVlqSize keylen + keylen

namespace Hashheader

variable (header : Hashheader)

def addedEntry : Hashheader := { header with numEntries := u64 (header.numEntries + 1) }

def replacedEntry (keylen valuelen : Nat) : Hashheader :=
  { header with garbageSize := u64 (header.garbageSize + putSize keylen valuelen) }

def deletedEntry (keylen valuelen : Nat) : Hashheader :=
  { header with
    garbageSize := u64 (header.garbageSize + putSize keylen valuelen)
    numEntries := u64 (header.numEntries + (2 ^ 64 - 1)) }

end Hashheader

/-- The double next to a whole number, to even on a tie. -/
def roundDouble (n : Nat) : Nat :=
  let unit := 2 ^ (Nat.log2 n - 52)
  let q := n / unit
  let r := n % unit
  if unit < 2 * r ∨ unit = 2 * r ∧ q % 2 = 1 then (q + 1) * unit else q * unit

/-- `(uint64_t) (n * 1.3)`: the double next to 1.3 is this number of units `2⁻⁵²`. -/
def timesOnePointThree (n : Nat) : Nat := roundDouble (roundDouble n * 5854679515581645) / 2 ^ 52

/-! ### The state of the build -/

structure Hashing where
  hashtable : List UInt8
  hashHeader : Hashheader
  iter : Logiter
  raIter : Logiter

def onIter {α : Type} (x : Run Logiter α) : Run Hashing α := fun s =>
  match x.run s.iter with
  | .ok a iter => .ok a { s with iter }
  | .error e iter => .error e { s with iter }

def onRaIter {α : Type} (x : Run Logiter α) : Run Hashing α := fun s =>
  match x.run s.raIter with
  | .ok a raIter => .ok a { s with raIter }
  | .error e raIter => .error e { s with raIter }

def onIters {α : Type} (x : Run (Logiter × Logiter) α) : Run Hashing α := fun s =>
  match x.run (s.iter, s.raIter) with
  | .ok a its => .ok a { s with iter := its.1, raIter := its.2 }
  | .error e its => .error e { s with iter := its.1, raIter := its.2 }

def getSlot (slot : Nat) : Run Hashing (Nat × Nat) := do
  let s ← get
  match s.hashHeader.readSlot s.hashtable slot with
  | none => stuck
  | some content => pure content

def setSlot (slot hash position : Nat) : Run Hashing Unit :=
  modify fun s => { s with hashtable := s.hashHeader.writeSlot s.hashtable slot hash position }

def modifyHeader (f : Hashheader → Hashheader) : Run Hashing Unit :=
  modify fun s => { s with hashHeader := f s.hashHeader }

variable [Compressors]

/-- The part of `hash_put` and `hash_delete` behind `hash == hash2`: is the entry at the address a
put of the key `iter` is at?  If so, its two lengths come back. -/
def sameKey (log : Logreader) (position2 entryIndex2 : Nat) : Run Hashing (Option (Nat × Nat)) := do
  onRaIter (logiterSeek log position2)
  onRaIter (logiterSkip log entryIndex2)
  onRaIter (logiterNext log)
  let s ← get
  let keylen2 := s.raIter.keylen
  let valuelen2 := s.raIter.valuelen
  if s.raIter.type ≠ .put then
    fail .internalError
  if s.iter.keylen = keylen2 then
    onIter (logiterReset log)
    let cmp ← onIters (logiterKeycmp log)
    if cmp = 0 then
      return some (keylen2, valuelen2)
  return none

/-! ### `hash_put` -/

/-- The test of `hash_put` for a put of the same key; without a log there is none. -/
def collides (log : Option Logreader) (might : Bool) (hash hash2 position2 : Nat) :
    Run Hashing (Option (Nat × Nat)) := do
  let s ← get
  match log with
  | some log =>
    if might = true ∧ hash = hash2 then
      sameKey log (s.hashHeader.positionOf position2) (s.hashHeader.entryIndexOf position2)
    else pure none
  | none => pure none

def hashPutLoop (log : Option Logreader) : Nat → Bool → Nat → Nat → Nat → Nat → Run Hashing Unit
  | 0, _, _, _, _, _ => stuck
  | fuel + 1, mightBeCollision, slot, displacement, hash, position => do
    let (hash2, position2) ← getSlot slot
    if position2 = 0 then
      setSlot slot hash position
      modifyHeader Hashheader.addedEntry
      return ()
    match ← collides log mightBeCollision hash hash2 position2 with
    | some (keylen2, valuelen2) =>
      setSlot slot hash position
      modifyHeader fun header => header.replacedEntry keylen2 valuelen2
    | none =>
      let s ← get
      let capacity := s.hashHeader.hashCapacity
      let otherDisplacement := getDisplacement capacity slot hash2
      if otherDisplacement < displacement then
        -- Steal the slot, and move the other one
        setSlot slot hash position
        hashPutLoop log fuel false (nextSlot capacity slot) (otherDisplacement + 1) hash2 position2
      else
        hashPutLoop log fuel mightBeCollision (nextSlot capacity slot) (displacement + 1) hash position

/-- `hash_put`; without a log the pointers are `NULL`, and nothing is compared. -/
def hashPut (log : Option Logreader) (wantedSlot hash position : Nat) : Run Hashing Unit := do
  let s ← get
  hashPutLoop log (s.hashHeader.hashCapacity + 1) log.isSome wantedSlot 0 hash position

/-! ### `hash_delete` -/

omit [Compressors] in
/-- The loop of `hash_delete` that moves the entries behind the deleted one back. -/
def shiftLoop : Nat → Nat → Run Hashing Unit
  | 0, _ => stuck
  | fuel + 1, slot => do
    let s ← get
    let capacity := s.hashHeader.hashCapacity
    let next := (slot + 1) % capacity
    let (hash3, position3) ← getSlot next
    if position3 = 0 then
      setSlot slot 0 0
    else if hash3 % capacity = next then
      setSlot slot 0 0
    else
      setSlot slot hash3 position3
      shiftLoop fuel next

def hashDeleteLoop (log : Logreader) : Nat → Nat → Nat → Nat → Run Hashing Unit
  | 0, _, _, _ => stuck
  | fuel + 1, slot, displacement, hash => do
    let (hash2, position2) ← getSlot slot
    if position2 = 0 then
      return ()
    let s ← get
    if s.hashHeader.positionOf position2 < log.header.headerSize ∨
        log.header.dataEnd ≤ s.hashHeader.positionOf position2 then
      fail .internalError
    match ← collides (some log) true hash hash2 position2 with
    | some (keylen2, valuelen2) =>
      shiftLoop (s.hashHeader.hashCapacity + 1) slot
      modifyHeader fun header => header.deletedEntry keylen2 valuelen2
    | none =>
      let capacity := s.hashHeader.hashCapacity
      if getDisplacement capacity slot hash2 < displacement then
        return ()
      hashDeleteLoop log fuel (nextSlot capacity slot) (displacement + 1) hash

def hashDelete (log : Logreader) (wantedSlot hash : Nat) : Run Hashing Unit := do
  let s ← get
  hashDeleteLoop log (s.hashHeader.hashCapacity + 1) wantedSlot 0 hash

/-! ### `sparkey_iter_hash` -/

variable [HashFunctions]

/-- The length `1 << 31`, which is negative as an `int`, in a `uint64_t`. -/
def iterHashMaxlen : Nat := 2 ^ 64 - 2 ^ 31

/-- `sparkey_iter_hash`.  Where reading the key fails it returns 0. -/
def iterHash (hashHeader : Hashheader) (log : Logreader) : Run Logiter Nat := do
  match ← attempt (logiterKeychunk log iterHashMaxlen) with
  | .error _ => return 0
  | .ok buf =>
    let iter ← get
    if buf.length = iter.keylen then
      return HashFunctions.hash hashHeader.hashSize buf hashHeader.hashSeed
    match ← attempt (logiterFillKey log iterHashMaxlen) with
    | .error _ => return 0
    | .ok rest =>
      if buf.length + rest.length ≠ iter.keylen then
        return 0
      return HashFunctions.hash hashHeader.hashSize (buf ++ rest) hashHeader.hashSeed

/-! ### The entries of the log -/

/-- What the loop of `sparkey_hash_write` does with the entry `iter` is at. -/
def indexEntry (log : Logreader) : Run Hashing Unit := do
  let s ← get
  let iterBlockStart := s.iter.blockPosition
  let iterEntryCount := (s.iter.entryCount % 2 ^ 64).toNat
  let keyHash ← onIter (iterHash s.hashHeader log)
  let wantedSlot := keyHash % s.hashHeader.hashCapacity
  let s ← get
  match s.iter.type with
  | .put =>
    hashPut (some log) wantedSlot keyHash (s.hashHeader.address iterBlockStart iterEntryCount)
  | .delete =>
    modifyHeader fun header =>
      { header with garbageSize := u64 (header.garbageSize + deleteSize s.iter.keylen) }
    hashDelete log wantedSlot keyHash

def replayLoop (log : Logreader) : Nat → Run Hashing Unit
  | 0 => stuck
  | fuel + 1 => do
    onIter (logiterNext log)
    let s ← get
    match s.iter.state with
    | .closed => pure ()
    | .active =>
      indexEntry log
      replayLoop log fuel
    | .new => fail .internalError
    | .invalid => fail .internalError

/-- More rounds than a log has entries: each takes up at least a byte of a block. -/
def entryFuel (log : Logreader) : Nat :=
  log.dataLen * max log.dataLen log.header.compressionBlockSize + 1

/-! ### `calculate_max_displacement` -/

/-- The local variables of `calculate_max_displacement`. -/
structure Displacements where
  maxDisplacement : Nat
  numHashCollisions : Nat
  totalDisplacement : Nat
  first : Option Nat
  last : Option Nat
  prev : Option Nat

def Displacements.round (d : Displacements) (capacity slot hash position : Nat) : Displacements :=
  let d := if d.prev = some hash then { d with numHashCollisions := u64 (d.numHashCollisions + 1) }
    else d
  if position ≠ 0 then
    let displacement := getDisplacement capacity slot hash
    { d with
      prev := some hash
      totalDisplacement := u64 (d.totalDisplacement + displacement)
      maxDisplacement := max d.maxDisplacement displacement
      first := if slot = 0 then some hash else d.first
      last := if slot = capacity - 1 then some hash else d.last }
  else { d with prev := none }

def displacementsLoop (header : Hashheader) (hashtable : List UInt8) :
    Nat → Nat → Displacements → Option Displacements
  | 0, _, d => some d
  | n + 1, slot, d =>
    match header.readSlot hashtable slot with
    | none => none
    | some (hash, position) =>
      displacementsLoop header hashtable n (slot + 1) (d.round header.hashCapacity slot hash position)

def calculateMaxDisplacement : Run Hashing Unit := do
  let s ← get
  match displacementsLoop s.hashHeader s.hashtable s.hashHeader.hashCapacity 0
      ⟨0, 0, 0, none, none, none⟩ with
  | none => stuck
  | some d =>
    let numHashCollisions := if d.first.isSome ∧ d.first = d.last then u64 (d.numHashCollisions + 1)
      else d.numHashCollisions
    modifyHeader fun header => { header with
      totalDisplacement := d.totalDisplacement
      maxDisplacement := d.maxDisplacement
      hashCollisions := numHashCollisions }

/-! ### Taking over an older index -/

/-- What the system answers to one `read`: at most `n + 1` bytes, or an error. -/
inductive ReadResult
  | got (n : Nat)
  | failed
  deriving DecidableEq

/-- A file that is being read.  Past the end of the list every `read` gets all it asks for, as
far as there is any. -/
structure ReadFile where
  data : List UInt8
  offset : Nat
  reads : List ReadResult

def read (count : Nat) : Run ReadFile (Option (List UInt8)) := do
  let f ← get
  let bytes := (f.data.drop f.offset).take count
  match f.reads with
  | [] =>
    set { f with offset := f.offset + bytes.length }
    pure (some bytes)
  | .got n :: rest =>
    set { f with offset := f.offset + (bytes.take (n + 1)).length, reads := rest }
    pure (some (bytes.take (n + 1)))
  | .failed :: rest =>
    set { f with reads := rest }
    pure none

/-- The loop of `read_fully`; every `read` goes to the start of `buf`. -/
def readFullyLoop : Nat → Nat → List UInt8 → Run ReadFile (List UInt8)
  | 0, _, _ => stuck
  | fuel + 1, count, buf => do
    if count = 0 then
      return buf
    match ← read count with
    | none => fail .internalError
    | some bytes => readFullyLoop fuel (count - bytes.length) (bytes ++ buf.drop bytes.length)

/-- `read_fully`.  Once the answers are used up, a `read` gets everything or nothing more ever
comes. -/
def readFully (count : Nat) (buf : List UInt8) : Run ReadFile (List UInt8) := do
  let f ← get
  readFullyLoop (f.reads.length + 2) count buf

/-- The loop of `hash_copy`.  What `fill_hash` hands over is so short that `i`, an `unsigned int`,
does not wrap. -/
def hashCopyLoop (buf : List UInt8) (bufferSize : Nat) (oldHeader : Hashheader) :
    Nat → Nat → Run Hashing Unit
  | 0, _ => stuck
  | fuel + 1, i => do
    if i < bufferSize then
      match oldHeader.readPos buf i with
      | none => stuck
      | some (hash, address) =>
        let entryIndex := oldHeader.entryIndexOf address
        let position := oldHeader.positionOf address
        let s ← get
        let wantedSlot := hash % s.hashHeader.hashCapacity
        onlyIf (position ≠ 0)
          (hashPut none wantedSlot hash (s.hashHeader.address position entryIndex))
        hashCopyLoop buf bufferSize oldHeader fuel (i + oldHeader.slotStep)

/-- `hash_copy`.  A slot has at least a byte. -/
def hashCopy (buf : List UInt8) (bufferSize : Nat) (oldHeader : Hashheader) : Run Hashing Unit :=
  hashCopyLoop buf bufferSize oldHeader (bufferSize + 1) 0

def fillHashLoop (bufferSize : Nat) (oldHeader : Hashheader) :
    Nat → List UInt8 → Run (ReadFile × Hashing) (List UInt8)
  | 0, buf => pure buf
  | n + 1, buf => do
    let buf ← onFst (readFully bufferSize buf)
    onSnd (hashCopy buf bufferSize oldHeader)
    fillHashLoop bufferSize oldHeader n buf

/-- What the system decides for one run of `sparkey_hash_write`. -/
structure HashEnv where
  unset : Logiter
  unset' : Logiter
  unsetBuf : List UInt8
  rand32 : Option Nat
  openFails : Option Returncode
  reads : List ReadResult
  removeFails : Option Returncode
  creatFails : Bool
  writes : List WriteResult

/-- The part of `fill_hash` behind the opening of the file: `n` whole buffers, and the rest. -/
def fillHashBuffers (oldHeader : Hashheader) (bufferSize n rest : Nat) (buf : List UInt8) :
    Run (ReadFile × Hashing) Unit := do
  let buf ← fillHashLoop bufferSize oldHeader n buf
  let buf ← onFst (readFully rest buf)
  onSnd (hashCopy buf rest oldHeader)

/-- `fill_hash`.  The size of its buffer is the product of two `int`s, and a buffer of no bytes is
read for ever. -/
def fillHash (env : HashEnv) (hashFile : List UInt8) (oldHeader : Hashheader) : Run Hashing Unit :=
  match env.openFails with
  | some code => fail code
  | none => do
    let slotSize := oldHeader.slotStep
    let bufferSize := u64 (slotSize * 1024)
    if bufferSize = 0 ∨ 2 ^ 31 ≤ bufferSize ∧ bufferSize < 2 ^ 64 - 2 ^ 31 then
      stuck
    if 2 ^ 63 ≤ bufferSize then
      fail .internalError
    let remaining := u64 (oldHeader.hashCapacity * slotSize)
    let file : ReadFile :=
      { data := hashFile, offset := oldHeader.headerSize, reads := env.reads }
    onNew file
      (fillHashBuffers oldHeader bufferSize (remaining / bufferSize) (remaining % bufferSize) env.unsetBuf)

/-- The buffer of `fill_hash` has a size, and it is an `int`. -/
def Hashheader.BufferFits (oldHeader : Hashheader) : Prop :=
  0 < oldHeader.slotStep ∧ oldHeader.slotStep * 1024 < 2 ^ 31

/-- The counts `fill_hash` asks for: whole buffers of 1024 slots, and the rest. -/
def fillCounts (oldHeader : Hashheader) : List Nat :=
  let bufferSize := oldHeader.slotStep * 1024
  let remaining := u64 (oldHeader.hashCapacity * oldHeader.slotStep)
  List.replicate (remaining / bufferSize) bufferSize ++ [remaining % bufferSize]

omit [HashFunctions] in
/-- What `fill_hash` comes to when it opens the file, and its buffer fits. -/
theorem fillHash_of_fits {env : HashEnv} {hashFile : List UInt8} {oldHeader : Hashheader}
    (hopens : env.openFails = none) (hfits : oldHeader.BufferFits) :
    fillHash env hashFile oldHeader = onNew ⟨hashFile, oldHeader.headerSize, env.reads⟩
      (fillHashBuffers oldHeader (oldHeader.slotStep * 1024)
        (u64 (oldHeader.hashCapacity * oldHeader.slotStep) / (oldHeader.slotStep * 1024))
        (u64 (oldHeader.hashCapacity * oldHeader.slotStep) % (oldHeader.slotStep * 1024))
        env.unsetBuf) := by
  obtain ⟨hpos, hlt⟩ := hfits
  have hsize : u64 (oldHeader.slotStep * 1024) = oldHeader.slotStep * 1024 := u64_of_lt (by omega)
  rw [fillHash, hopens]
  simp only [hsize]
  rw [if_neg (by omega), if_neg (by omega)]

omit [HashFunctions] in
theorem fillHash_of_not_fits {env : HashEnv} {hashFile : List UInt8} {oldHeader : Hashheader}
    (hopens : env.openFails = none) (hfits : ¬ oldHeader.BufferFits) (s : Hashing) :
    (fillHash env hashFile oldHeader).run s = .error .stuck s ∨
      (fillHash env hashFile oldHeader).run s = .error (.rc .internalError) s := by
  have hstep : oldHeader.slotStep < 2 ^ 31 ∨
      2 ^ 64 - 2 ^ 31 ≤ oldHeader.slotStep ∧ oldHeader.slotStep < 2 ^ 64 := by
    have hlt := u32_lt oldHeader.slotSize
    unfold Hashheader.slotStep
    simp only
    split_ifs <;> omega
  have hsize : u64 (oldHeader.slotStep * 1024) = oldHeader.slotStep * 1024 % 2 ^ 64 := rfl
  rw [fillHash, hopens]
  simp only
  by_cases hbad : u64 (oldHeader.slotStep * 1024) = 0 ∨
      2 ^ 31 ≤ u64 (oldHeader.slotStep * 1024) ∧ u64 (oldHeader.slotStep * 1024) < 2 ^ 64 - 2 ^ 31
  · rw [if_pos hbad]
    exact Or.inl rfl
  · have hfail : 2 ^ 63 ≤ u64 (oldHeader.slotStep * 1024) := by
      unfold Hashheader.BufferFits at hfits
      omega
    rw [if_neg hbad, if_pos hfail]
    exact Or.inr rfl

/-! ### `sparkey_hash_write` -/

def usableHeader (logHeader : Logheader) (old : Except Returncode Hashheader) : Option Hashheader :=
  match old with
  | .error _ => none
  | .ok old =>
    if old.fileIdentifier = logHeader.fileIdentifier ∧ old.majorVersion = hashMajorVersion ∧
        old.minorVersion = hashMinorVersion then some old
    else none

/-- How many entries the table is made for, before the factor. -/
def expectedEntries (logHeader : Logheader) : Option Hashheader → Nat
  | some old => u64 (u64 (logHeader.numPuts + (2 ^ 64 - old.numPuts)) + old.numEntries)
  | none => logHeader.numPuts

/-- The header of the new index, before anything is in the table.  The three words that tell the
file and the version are filled in at the end in C, and `header_size` never is. -/
def newHashheader (logHeader : Logheader) (old : Option Hashheader) (hashSeed hashSize : Nat) :
    Hashheader :=
  let hashCapacity := 1 ||| timesOnePointThree (expectedEntries logHeader old)
  let entryBlockBits := intLog2 logHeader.maxEntriesPerBlock
  let chosenSize :=
    if (old.map Hashheader.hashSize).getD 0 = 8 ∨ 1 <<< 23 ≤ hashCapacity then 8 else 4
  { majorVersion := hashMajorVersion
    minorVersion := hashMinorVersion
    fileIdentifier := logHeader.fileIdentifier
    hashSeed
    headerSize := hashHeaderSize
    dataEnd := logHeader.dataEnd
    maxKeyLen := logHeader.maxKeyLen
    maxValueLen := logHeader.maxValueLen
    garbageSize := (old.map Hashheader.garbageSize).getD 0
    numEntries := 0
    addressSize := if logHeader.dataEnd < 1 <<< (32 - entryBlockBits) then 4 else 8
    hashSize := if hashSize ≠ 0 then hashSize else chosenSize
    hashCapacity
    maxDisplacement := 0
    numPuts := logHeader.numPuts
    entryBlockBits
    entryBlockBitmask := bitmask entryBlockBits
    hashCollisions := 0
    totalDisplacement := 0 }

def copiedHeader (header : Hashheader) (old : Option Hashheader) : Option Hashheader :=
  old.filter fun old => old.hashSize = header.hashSize

def buildTable (env : HashEnv) (hashFile : Option (List UInt8)) (log : Logreader)
    (copied : Option Hashheader) : Run Hashing Unit := do
  match copied with
  | some old =>
    fillHash env (hashFile.getD []) old
    onIter (logiterSeek log old.dataEnd)
  | none => pure ()
  replayLoop log (entryFuel log)
  calculateMaxDisplacement

/-- The part of `sparkey_hash_write` that puts the new file in the place of the old one. -/
def writeIndex (env : HashEnv) (header : Hashheader) (hashtable : List UInt8) :
    Run (Option (List UInt8)) Unit :=
  match env.removeFails with
  | some code => fail code
  | none =>
    if env.creatFails then do
      set (none : Option (List UInt8))
      fail .fileClosed
    else fun _ =>
      match (do writeHashheader header; writeFull hashtable : Run File Unit).run
          { data := [], offset := 0, writes := env.writes } with
      | .ok u fd => .ok u (some fd.data)
      | .error e fd => .error e (some fd.data)

/-- `sparkey_hash_write`: the state is the index file.  A negative `hash_size` is invalid like
any other.  The log file is opened twice, and may have grown in between. -/
def hashWriteOn (env : HashEnv) (headerFile logFile : Option (List UInt8)) (hashSize : Nat) :
    Run (Option (List UInt8)) Unit := do
  let logHeader ← lift (loadLogheader headerFile)
  let log ← lift (logreaderOpen logFile)
  let iter ← lift (logiterCreate env.unset log)
  let raIter ← lift (logiterCreate env.unset' log)
  let hashFile ← get
  let old := usableHeader logHeader (loadHashheader hashFile)
  let hashSeed ← lift (match old, env.rand32 with
    | some old, _ => .ok old.hashSeed
    | none, some rand => .ok (u32 rand)
    | none, none => .error .internalError)
  if hashSize ≠ 0 ∧ hashSize ≠ 4 ∧ hashSize ≠ 8 then
    fail .hashSizeInvalid
  let header := newHashheader logHeader old hashSeed hashSize
  let copied := copiedHeader header old
  let hashsize := header.slotStep * header.hashCapacity
  if 2 ^ 64 ≤ hashsize then
    stuck
  if 2 ^ 63 ≤ hashsize then
    fail .internalError
  if (copied.map Hashheader.dataEnd) = some log.header.dataEnd then
    -- Nothing needs to be done - just exit
    return ()
  let s ← final ⟨List.replicate hashsize 0, header, iter, raIter⟩
    (buildTable env hashFile log copied)
  writeIndex env s.hashHeader s.hashtable

/-- `sparkey_hash_write` on a log that stays as it is. -/
def hashWrite (env : HashEnv) (logFile : Option (List UInt8)) (hashSize : Nat) :
    Run (Option (List UInt8)) Unit :=
  hashWriteOn env logFile logFile hashSize

end Sparkey
