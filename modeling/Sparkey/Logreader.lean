import Sparkey.Compress
import Sparkey.Logheader
import Sparkey.Vlq

/-!
# `logreader.c`

A reader is the mapped log; an iterator is the record the nine iterator
functions change.  Each of these is a program over the iterator, `keycmp` one
over two of them.

Memory that `malloc` leaves unset is a parameter of `logiterCreate`.  Reading
outside the mapping or outside a buffer has no result, and neither has a loop
that goes on for ever.
-/

namespace Sparkey

open Program

def magicValueLogiter : Nat := 0xd765c8cc

def magicValueLogreader : Nat := 0xe93356c4

structure Logreader where
  openStatus : Nat
  header : Logheader
  dataLen : Nat
  data : List UInt8

/-- `sparkey_logreader_open` on a file with some content, or on none. -/
def logreaderOpen (file : Option (List UInt8)) : Except Returncode Logreader :=
  match loadLogheader file with
  | .error code => .error code
  | .ok header =>
    let content := file.getD []
    let dataLen := header.dataEnd
    if content.length < dataLen then .error .logTooSmall
    else .ok { openStatus := magicValueLogreader, header, dataLen, data := content.take dataLen }

structure Logiter where
  openStatus : Nat
  fileIdentifier : Nat
  blockPosition : Nat
  nextBlockPosition : Nat
  blockOffset : Nat
  blockLen : Nat
  entryCount : Int
  compressionBuf : List UInt8
  entryBlockPosition : Nat
  entryBlockOffset : Nat
  type : EntryType
  state : IterState
  keylen : Nat
  valuelen : Nat
  keyRemaining : Nat
  valueRemaining : Nat

def assertIterOpen (log : Logreader) : Run Logiter Unit := do
  if log.openStatus ≠ magicValueLogreader then
    fail .logClosed
  let iter ← get
  if iter.openStatus ≠ magicValueLogiter then
    fail .logIteratorClosed
  if iter.fileIdentifier ≠ log.header.fileIdentifier then
    fail .logIteratorMismatch

/-- `sparkey_logiter_create`; `unset` is what the allocated memory held. -/
def logiterCreate (unset : Logiter) (log : Logreader) : Except Returncode Logiter :=
  if log.openStatus ≠ magicValueLogreader then .error .logClosed
  else .ok { unset with
    openStatus := magicValueLogiter
    fileIdentifier := log.header.fileIdentifier
    blockPosition := 0
    nextBlockPosition := log.header.headerSize
    blockOffset := 0
    blockLen := 0
    state := .new }

variable [Compressors]

/-- `seekblock`.  A failing decompressor may have overwritten the buffer. -/
def seekblock (log : Logreader) (position : Nat) : Run Logiter Unit := do
  modify fun iter => { iter with blockOffset := 0 }
  let iter ← get
  if iter.blockPosition = position then
    return ()
  if usesCompressor log.header.compressionType then
    match readVlq log.data position with
    | none => stuck
    | some (size, pos) =>
      let compressedSize := u32 size
      let nextPos := pos + compressedSize
      if log.data.length < nextPos then
        stuck
      let input := (log.data.drop pos).take compressedSize
      match (sparkeyCompressors log.header.compressionType).decompress input
          log.header.compressionBlockSize with
      | .error spoil =>
        set { iter with compressionBuf := spoil iter.compressionBuf }
        fail .internalError
      | .ok output =>
        set { iter with
          compressionBuf := output ++ iter.compressionBuf.drop output.length
          blockPosition := position
          nextBlockPosition := nextPos
          blockLen := output.length }
  else
    if log.dataLen < position then
      stuck
    set { iter with
      compressionBuf := log.data.drop position
      blockPosition := position
      nextBlockPosition := log.header.dataEnd
      blockLen := log.dataLen - position }

def logiterSeek (log : Logreader) (position : Nat) : Run Logiter Unit := do
  assertIterOpen log
  if position = log.header.dataEnd then
    modify fun iter => { iter with state := .closed }
    return ()
  seekblock log position
  modify fun iter => { iter with entryCount := -1, state := .new }

def ensureAvailable (log : Logreader) : Run Logiter Unit := do
  let iter ← get
  if iter.blockOffset < iter.blockLen then
    return ()
  if log.header.dataEnd ≤ iter.nextBlockPosition then
    set { iter with blockPosition := 0, blockOffset := 0, blockLen := 0 }
    return ()
  seekblock log iter.nextBlockPosition
  modify fun iter => { iter with entryCount := -1 }

def skipLoop (log : Logreader) : Nat → Nat → Run Logiter Unit
  | 0, len => if len = 0 then pure () else stuck
  | fuel + 1, len => do
    if len = 0 then
      return ()
    ensureAvailable log
    let iter ← get
    let m := min len (iter.blockLen - iter.blockOffset)
    set { iter with blockOffset := iter.blockOffset + m }
    skipLoop log fuel (len - m)

/-- `skip`.  A round that consumes nothing goes to a later block or changes nothing
any more, so the loop ends within this many rounds or never. -/
def skip (log : Logreader) (len : Nat) : Run Logiter Unit :=
  skipLoop log (len + log.dataLen + 1) len

/-- The last part of `sparkey_logiter_next`: the two numbers at the offset. -/
def readHead : Run Logiter Unit := do
  modify fun iter => { iter with entryCount := iter.entryCount + 1 }
  let iter ← get
  match readVlq iter.compressionBuf iter.blockOffset with
  | none => stuck
  | some (a, offset) =>
    match readVlq iter.compressionBuf offset with
    | none => stuck
    | some (b, offset) =>
      let iter := { iter with blockOffset := offset }
      let iter :=
        if a = 0 then
          { iter with keylen := b, keyRemaining := b, valuelen := 0, valueRemaining := 0,
                      type := .delete }
        else
          { iter with keylen := a - 1, keyRemaining := a - 1, valuelen := b,
                      valueRemaining := b, type := .put }
      set { iter with
        entryBlockPosition := iter.blockPosition
        entryBlockOffset := iter.blockOffset
        state := .active }

def readEntry (log : Logreader) : Run Logiter Unit := do
  let iter ← get
  if iter.blockLen - iter.blockOffset = 0 then
    -- Reached end of data
    set { iter with state := .closed }
    return ()
  if log.header.compressionType = .none then
    set { iter with
      blockPosition := iter.blockPosition + iter.blockOffset
      blockLen := iter.blockLen - iter.blockOffset
      blockOffset := 0
      compressionBuf := log.data.drop (iter.blockPosition + iter.blockOffset)
      entryCount := -1 }
  readHead

def logiterNext (log : Logreader) : Run Logiter Unit := do
  let iter ← get
  if iter.state = .closed then
    return ()
  let keyRemaining := if iter.state = .active then iter.keyRemaining else 0
  let valueRemaining := if iter.state = .active then iter.valueRemaining else 0
  set { iter with state := .invalid, keyRemaining := 0, valueRemaining := 0, keylen := 0,
                  valuelen := 0 }
  assertIterOpen log
  skip log keyRemaining
  skip log valueRemaining
  ensureAvailable log
  readEntry log

def logiterReset (log : Logreader) : Run Logiter Unit := do
  let iter ← get
  if iter.state ≠ .active then
    fail .logIteratorInactive
  seekblock log iter.entryBlockPosition
  modify fun iter => { iter with
    keyRemaining := iter.keylen
    valueRemaining := iter.valuelen
    blockOffset := iter.entryBlockOffset }

def logiterSkip (log : Logreader) : Nat → Run Logiter Unit
  | 0 => pure ()
  | count + 1 => do
    logiterNext log
    logiterSkip log count

/-- Which remaining-byte counter `sparkey_logiter_chunk` is handed. -/
inductive Part
  | key
  | value
  deriving DecidableEq

def Logiter.remaining (iter : Logiter) : Part → Nat
  | .key => iter.keyRemaining
  | .value => iter.valueRemaining

def Logiter.setRemaining (iter : Logiter) : Part → Nat → Logiter
  | .key, n => { iter with keyRemaining := n }
  | .value, n => { iter with valueRemaining := n }

/-- `sparkey_logiter_chunk`: the bytes `res` points to, `len` of them. -/
def logiterChunk (log : Logreader) (maxlen : Nat) (var : Part) : Run Logiter (List UInt8) := do
  assertIterOpen log
  let iter ← get
  if iter.state ≠ .active then
    fail .logIteratorInactive
  if 0 < iter.remaining var then
    ensureAvailable log
    let iter ← get
    let m := min (iter.remaining var) (iter.blockLen - iter.blockOffset)
    let m := min maxlen m
    let res := (iter.compressionBuf.drop iter.blockOffset).take m
    set ({ iter with blockOffset := iter.blockOffset + m }.setRemaining var
      (iter.remaining var - m))
    return res
  pure []

def logiterKeychunk (log : Logreader) (maxlen : Nat) : Run Logiter (List UInt8) :=
  logiterChunk log maxlen .key

def logiterValuechunk (log : Logreader) (maxlen : Nat) : Run Logiter (List UInt8) := do
  let iter ← get
  skip log iter.keyRemaining
  modify fun iter => { iter with keyRemaining := 0 }
  logiterChunk log maxlen .value

/-- The loop of `sparkey_logiter_fill_key` and `sparkey_logiter_fill_value` around a
chunk function; `filled` is what `buf` holds so far. -/
def fillLoop (chunk : Nat → Run Logiter (List UInt8)) :
    Nat → Nat → List UInt8 → Run Logiter (List UInt8)
  | 0, maxlen, filled => if maxlen = 0 then pure filled else stuck
  | fuel + 1, maxlen, filled => do
    if maxlen = 0 then
      return filled
    let res ← chunk maxlen
    if res.length = 0 then
      return filled
    fillLoop chunk fuel (maxlen - res.length) (filled ++ res)

/-- `sparkey_logiter_fill_key`.  Every round but the last consumes a byte. -/
def logiterFillKey (log : Logreader) (maxlen : Nat) : Run Logiter (List UInt8) := do
  let iter ← get
  fillLoop (logiterKeychunk log) (iter.keyRemaining + 1) maxlen []

def logiterFillValue (log : Logreader) (maxlen : Nat) : Run Logiter (List UInt8) := do
  let iter ← get
  fillLoop (logiterValuechunk log) (iter.valueRemaining + 1) maxlen []

/-- `memcmp` of two pieces of one length: the sign of the first difference. -/
def memcmp : List UInt8 → List UInt8 → Int
  | a :: as, b :: bs => if a = b then memcmp as bs else (a.toNat : Int) - b.toNat
  | _, _ => 0

/-- The next chunk of a key in `sparkey_logiter_keycmp`, if the last one is used up. -/
def refill (log : Logreader) (chunk : List UInt8) : Run Logiter (List UInt8) :=
  if chunk.length = 0 then logiterKeychunk log (1 <<< 30) else pure chunk

/-- The loop of `sparkey_logiter_keycmp`, with the unread rests of the two chunks. -/
def keycmpLoop (log : Logreader) : Nat → List UInt8 → List UInt8 → Run (Logiter × Logiter) Int
  | 0, _, _ => stuck
  | fuel + 1, first, second => do
    if first.length = 0 ∧ second.length = 0 then
      return 0
    if first.length = 0 then
      return -1
    if second.length = 0 then
      return 1
    let cmpLen := min first.length second.length
    let v := memcmp (first.take cmpLen) (second.take cmpLen)
    if v ≠ 0 then
      return v
    let first ← onFst (refill log (first.drop cmpLen))
    let second ← onSnd (refill log (second.drop cmpLen))
    keycmpLoop log fuel first second

/-- `sparkey_logiter_keycmp`.  Every round but the last consumes a byte of both keys. -/
def logiterKeycmp (log : Logreader) : Run (Logiter × Logiter) Int := do
  let (iter1, _) ← get
  let first ← onFst (logiterKeychunk log (1 <<< 30))
  let second ← onSnd (logiterKeychunk log (1 <<< 30))
  keycmpLoop log (iter1.keyRemaining + 2) first second

end Sparkey
