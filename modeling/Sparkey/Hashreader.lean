import Sparkey.Hashwriter

/-!
# `hashreader.c`

A reader is a mapped index with the reader of its log.  Looking a key up and going
to the next live entry are programs over an iterator of that log.
-/

namespace Sparkey

open Program

def magicValueHashreader : Nat := 0x75103df9

structure Hashreader where
  openStatus : Nat
  header : Hashheader
  log : Logreader
  dataLen : Nat
  data : List UInt8

def Hashheader.dataLen (header : Hashheader) : Nat :=
  u64 (header.headerSize + header.hashCapacity * u32 (header.hashSize + header.addressSize))

/-- `sparkey_hash_open` on two files with some content, or on none. -/
def hashOpen (hashFile logFile : Option (List UInt8)) : Except Returncode Hashreader :=
  match loadHashheader hashFile with
  | .error code => .error code
  | .ok header =>
    match logreaderOpen logFile with
    | .error code => .error code
    | .ok log =>
      if header.fileIdentifier ≠ log.header.fileIdentifier then .error .fileIdentifierMismatch
      else if log.header.dataEnd < header.dataEnd then .error .hashHeaderCorrupt
      else if log.header.maxKeyLen < header.maxKeyLen then .error .hashHeaderCorrupt
      else if log.header.maxValueLen < header.maxValueLen then .error .hashHeaderCorrupt
      else
        let content := hashFile.getD []
        if content.length < header.dataLen then .error .hashTooSmall
        -- `mmap` takes no empty range
        else if header.dataLen = 0 then .error .mmapFailed
        else .ok { openStatus := magicValueHashreader, header, log, dataLen := header.dataLen,
                   data := content.take header.dataLen }

def assertReaderOpen (reader : Hashreader) : Run Logiter Unit :=
  if reader.openStatus ≠ magicValueHashreader then fail .hashClosed else pure ()

def Hashreader.hashtable (reader : Hashreader) : List UInt8 :=
  reader.data.drop reader.header.headerSize

/-- The hash value and the address in a slot of the mapped table, if they are in it.  The code keeps
the position of the slot in `pos`, which is always this. -/
def Hashreader.readSlot (reader : Hashreader) (slot : Nat) : Option (Nat × Nat) :=
  reader.header.readPos reader.hashtable (u64 (slot * reader.header.slotStep))

variable [Compressors]

/-- The loop of `sparkey_hash_get` that compares the key with that of the current entry, piece by
piece. -/
def equalsLoop (log : Logreader) (key : List UInt8) : Nat → Nat → Run Logiter Bool
  | 0, _ => stuck
  | fuel + 1, pos2 => do
    if pos2 < key.length then
      let buf2 ← logiterKeychunk log key.length
      if memcmp ((key.drop pos2).take buf2.length) buf2 ≠ 0 then
        return false
      equalsLoop log key fuel (pos2 + buf2.length)
    else pure true

/-- The part of `sparkey_hash_get` behind `hash == hash2`: is the entry at the address one of the
key? -/
def isEntryOf (log : Logreader) (key : List UInt8) (position2 entryIndex2 : Nat) :
    Run Logiter Bool := do
  logiterSeek log position2
  logiterSkip log entryIndex2
  logiterNext log
  let iter ← get
  let keylen2 := iter.keylen
  if iter.type ≠ .put then
    set { iter with state := .invalid }
    fail .internalError
  if key.length = keylen2 then
    equalsLoop log key (key.length + 1) 0
  else pure false

def hashGetLoop (reader : Hashreader) (key : List UInt8) (hash : Nat) :
    Nat → Nat → Nat → Run Logiter Unit
  | 0, _, _ => stuck
  | fuel + 1, slot, displacement => do
    match reader.readSlot slot with
    | none => stuck
    | some (hash2, address2) =>
      if address2 = 0 then
        modify fun iter => { iter with state := .invalid }
        return ()
      let equals ← if hash = hash2 then
          isEntryOf reader.log key (reader.header.positionOf address2)
            (reader.header.entryIndexOf address2)
        else pure false
      if equals then
        return ()
      let capacity := reader.header.hashCapacity
      if getDisplacement capacity slot hash2 < displacement then
        modify fun iter => { iter with state := .invalid }
        return ()
      hashGetLoop reader key hash fuel (nextSlot capacity slot) (displacement + 1)

variable [HashFunctions]

def hashGet (reader : Hashreader) (key : List UInt8) : Run Logiter Unit := do
  assertReaderOpen reader
  let hash := HashFunctions.hash reader.header.hashSize key reader.header.hashSeed
  let capacity := reader.header.hashCapacity
  -- a division by zero
  if capacity = 0 then
    stuck
  hashGetLoop reader key hash (capacity + 1) (hash % capacity) 0

omit [Compressors] [HashFunctions] in
/-- The inner loop of `sparkey_logiter_hashnext`: is the address in the table? -/
def findAddressLoop (reader : Hashreader) (position : Nat) : Nat → Nat → Nat → Option Bool
  | 0, _, _ => none
  | fuel + 1, slot, displacement =>
    match reader.readSlot slot with
    | none => none
    | some (hash2, position2) =>
      if position2 = 0 then some false
      else if position = position2 then some true
      else
        let capacity := reader.header.hashCapacity
        if getDisplacement capacity slot hash2 < displacement then some false
        else findAddressLoop reader position fuel (nextSlot capacity slot) (displacement + 1)

def hashnextLoop (reader : Hashreader) : Nat → Run Logiter Unit
  | 0 => stuck
  | fuel + 1 => do
    logiterNext reader.log
    let iter ← get
    if iter.state ≠ .active then
      return ()
    if iter.type ≠ .put then
      hashnextLoop reader fuel
    else
      let position := reader.header.address iter.entryBlockPosition
        (iter.entryCount % 2 ^ 64).toNat
      let keyHash ← iterHash reader.header reader.log
      let capacity := reader.header.hashCapacity
      if capacity = 0 then
        stuck
      match findAddressLoop reader position (capacity + 1) (keyHash % capacity) 0 with
      | none => stuck
      | some true => logiterReset reader.log
      | some false => hashnextLoop reader fuel

def logiterHashnext (reader : Hashreader) : Run Logiter Unit := do
  assertReaderOpen reader
  hashnextLoop reader (entryFuel reader.log)

end Sparkey
