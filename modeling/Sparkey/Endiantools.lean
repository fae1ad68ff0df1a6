import Sparkey.Basic
import Sparkey.Lib.LittleEndian

/-!
# `endiantools.c`

Fixed-width numbers in little endian, and `write_full`, which repeats `write`
until every byte is out.

An open file is its content, the offset of the descriptor, and what the system
answers to the coming `write` calls: each may take some of the bytes, be
interrupted, or fail.  Past the end of that list every call takes all it is
given.
-/

namespace Sparkey

open Program

/-! ### Numbers in bytes -/

/-- `write_little_endian32` and `write_little_endian64`, for 4 and 8 bytes:
byte `i` is `(value >> 8 * i) & 0xFF`. -/
def writeLittleEndian (n value : Nat) : List UInt8 :=
  (List.range n).map fun i => UInt8.ofNat (value >>> (8 * i))

theorem writeLittleEndian_eq (n value : Nat) :
    writeLittleEndian n value = LittleEndian.encode n value := by
  induction n generalizing value with
  | zero => rfl
  | succ n ih =>
    rw [LittleEndian.encode, ← ih, writeLittleEndian, List.range_succ_eq_map, List.map_cons,
      List.map_map]
    congr 1
    refine List.map_congr_left fun i _ => ?_
    simp only [Function.comp]
    rw [show (256 : Nat) = 2 ^ 8 from rfl, ← Nat.shiftRight_eq_div_pow, ← Nat.shiftRight_add,
      Nat.mul_succ, Nat.add_comm 8]

@[simp] theorem length_writeLittleEndian (n value : Nat) :
    (writeLittleEndian n value).length = n := by
  simp [writeLittleEndian]

/-- `read_little_endian32` and `read_little_endian64`, for 4 and 8 bytes.
Outside the array there is nothing to read. -/
def readLittleEndian (n : Nat) (array : List UInt8) (pos : Nat) : Option Nat :=
  let bytes := (array.drop pos).take n
  if bytes.length = n then some (LittleEndian.decode bytes) else none

theorem readLittleEndian_write {n value : Nat} (h : value < 256 ^ n) (pre post : List UInt8) :
    readLittleEndian n (pre ++ writeLittleEndian n value ++ post) pre.length = some value := by
  rw [writeLittleEndian_eq, readLittleEndian, List.append_assoc, List.drop_left]
  rw [List.take_append_of_le_length (by simp), List.take_of_length_le (by simp)]
  simp [LittleEndian.decode_encode_of_lt h]

/-- `fread_little_endian32` and `fread_little_endian64`: read from a stream, whose
state is the bytes still to come. -/
def freadLittleEndian (n : Nat) : EStateM Returncode (List UInt8) Nat := do
  let data ← get
  if data.length < n then
    throw .unexpectedEof
  set (data.drop n)
  pure (LittleEndian.decode (data.take n))

theorem run_freadLittleEndian_of_lt {n : Nat} {data : List UInt8} (h : data.length < n) :
    (freadLittleEndian n).run data = .error .unexpectedEof data := by
  simp only [freadLittleEndian, EStateM.run_bind, EStateM.run_get, if_pos h]
  rfl

theorem run_freadLittleEndian_of_le {n : Nat} {data : List UInt8} (h : n ≤ data.length) :
    (freadLittleEndian n).run data = .ok (LittleEndian.decode (data.take n)) (data.drop n) := by
  simp only [freadLittleEndian, EStateM.run_bind, EStateM.run_get, if_neg (Nat.not_lt.mpr h)]
  rfl

theorem run_freadLittleEndian_mod (n value : Nat) (rest : List UInt8) :
    (freadLittleEndian n).run (writeLittleEndian n value ++ rest) = .ok (value % 256 ^ n) rest := by
  have hlen := length_writeLittleEndian n value
  have hdrop : (writeLittleEndian n value ++ rest).drop n = rest := by
    rw [← hlen, hlen, List.drop_append_of_le_length (by omega), List.drop_of_length_le (by omega),
      List.nil_append]
  have htake : (writeLittleEndian n value ++ rest).take n = writeLittleEndian n value := by
    rw [List.take_append_of_le_length (by omega), List.take_of_length_le (by omega)]
  have hle : n ≤ (writeLittleEndian n value ++ rest).length := by
    rw [List.length_append]
    omega
  rw [run_freadLittleEndian_of_le hle, hdrop, htake]
  simp [writeLittleEndian_eq, LittleEndian.decode_encode]

theorem run_freadLittleEndian {n value : Nat} (h : value < 256 ^ n) (rest : List UInt8) :
    (freadLittleEndian n).run (writeLittleEndian n value ++ rest) = .ok value rest := by
  rw [run_freadLittleEndian_mod, Nat.mod_eq_of_lt h]

def Consumes {α : Type} (n : Nat) (x : EStateM Returncode (List UInt8) α) : Prop :=
  ∀ data a rest, x.run data = .ok a rest → data.length = rest.length + n

theorem consumes_pure {α : Type} (a : α) : Consumes 0 (pure a) := by
  intro data b rest h
  cases h
  rfl

theorem consumes_throw {α : Type} (n : Nat) (code : Returncode) :
    Consumes n (throw code : EStateM Returncode (List UInt8) α) := fun _ _ _ => nofun

theorem consumes_freadLittleEndian (n : Nat) : Consumes n (freadLittleEndian n) := by
  intro data value rest h
  rcases Nat.lt_or_ge data.length n with hlen | hlen
  · rw [run_freadLittleEndian_of_lt hlen] at h
    cases h
  · rw [run_freadLittleEndian_of_le hlen] at h
    cases h
    rw [List.length_drop]
    omega

theorem Consumes.bind {α β : Type} {m n : Nat} {x : EStateM Returncode (List UInt8) α}
    {f : α → EStateM Returncode (List UInt8) β} (hx : Consumes m x) (hf : ∀ a, Consumes n (f a)) :
    Consumes (m + n) (x >>= f) := by
  intro data b rest h
  rw [EStateM.run_bind] at h
  cases hrun : x.run data with
  | ok a data₁ =>
    rw [hrun] at h
    have h₁ := hx data a data₁ hrun
    have h₂ := hf a data₁ b rest h
    omega
  | error code data₁ =>
    rw [hrun] at h
    cases h

theorem Consumes.check {α : Type} {c : Prop} [Decidable c] {n : Nat} {code : Returncode}
    {x : EStateM Returncode (List UInt8) α} (hx : Consumes n x) :
    Consumes n (do
      if c then
        throw code
      x) := by
  by_cases hc : c
  · simp only [if_pos hc]
    exact consumes_throw n code
  · simp only [if_neg hc]
    exact hx

/-- The program reads so many bytes, if it succeeds on that many or more, what comes of them has the
property, and the bytes behind do not matter. -/
def Takes {α : Type} (n : Nat) (P : α → Prop) (x : EStateM Returncode (List UInt8) α) : Prop :=
  ∀ head tail a rest, head.length = n → x.run (head ++ tail) = .ok a rest →
    P a ∧ rest = tail ∧ ∀ tail', x.run (head ++ tail') = .ok a tail'

theorem takes_pure {α : Type} {P : α → Prop} {a : α} (ha : P a) : Takes 0 P (pure a) := by
  intro head tail b rest hlen h
  obtain rfl := List.length_eq_zero_iff.mp hlen
  cases h
  exact ⟨ha, rfl, fun _ => rfl⟩

theorem takes_freadLittleEndian (n : Nat) : Takes n (· < 256 ^ n) (freadLittleEndian n) := by
  intro head tail value rest hlen h
  have hrun : ∀ tail', (freadLittleEndian n).run (head ++ tail') = .ok (LittleEndian.decode head) tail' := by
    intro tail'
    have hle : n ≤ (head ++ tail').length := by
      rw [List.length_append]
      omega
    rw [run_freadLittleEndian_of_le hle, ← hlen, List.take_left, List.drop_left]
  rw [hrun] at h
  cases h
  exact ⟨hlen ▸ LittleEndian.decode_lt head, rfl, hrun⟩

theorem Takes.bind {α β : Type} {m n : Nat} {P : α → Prop} {Q : β → Prop}
    {x : EStateM Returncode (List UInt8) α} {f : α → EStateM Returncode (List UInt8) β}
    (hx : Takes m P x) (hf : ∀ a, P a → Takes n Q (f a)) : Takes (m + n) Q (x >>= f) := by
  intro head tail b rest hlen h
  have hhead : head.take m ++ head.drop m = head := List.take_append_drop m head
  have hm : (head.take m).length = m := List.length_take_of_le (by omega)
  have hn : (head.drop m).length = n := by
    rw [List.length_drop]
    omega
  rw [← hhead, List.append_assoc, EStateM.run_bind] at h
  cases hrun : x.run (head.take m ++ (head.drop m ++ tail)) with
  | ok a data₁ =>
    obtain ⟨hP, rfl, hall⟩ := hx _ _ _ _ hm hrun
    rw [hrun] at h
    obtain ⟨hQ, hrest, hall'⟩ := hf a hP _ _ _ _ hn h
    refine ⟨hQ, hrest, fun tail' => ?_⟩
    rw [← hhead, List.append_assoc, EStateM.run_bind, hall]
    exact hall' tail'
  | error code data₁ =>
    rw [hrun] at h
    cases h

theorem Takes.check {α : Type} {c : Prop} [Decidable c] {n : Nat} {P : α → Prop} {code : Returncode}
    {x : EStateM Returncode (List UInt8) α} (hx : ¬ c → Takes n P x) :
    Takes n P (do
      if c then
        throw code
      x) := by
  by_cases hc : c
  · simp only [if_pos hc]
    exact fun _ _ _ _ _ => nofun
  · simp only [if_neg hc]
    exact hx hc

/-! ### Files -/

/-- `errno` after a failed `write`. -/
inductive Errno
  | eintr
  | eagain
  | enospc
  | efbig
  | ebadf
  | other
  deriving DecidableEq

/-- What the system answers to one `write`: it takes `n + 1` bytes, or all when
fewer are asked, or none and sets `errno`. -/
inductive WriteResult
  | wrote (n : Nat)
  | failed (errno : Errno)
  deriving DecidableEq

structure File where
  data : List UInt8
  offset : Nat
  writes : List WriteResult
  deriving DecidableEq

/-- The content with `bytes` written at `offset`; a gap before it reads as zeros. -/
def splice (data : List UInt8) (offset : Nat) (bytes : List UInt8) : List UInt8 :=
  if bytes = [] then data
  else (data.take offset ++ List.replicate (offset - data.length) 0) ++ bytes
    ++ data.drop (offset + bytes.length)

@[simp] theorem splice_nil (data : List UInt8) (offset : Nat) : splice data offset [] = data := by
  simp [splice]

theorem splice_length (data bytes : List UInt8) : splice data data.length bytes = data ++ bytes := by
  unfold splice
  split_ifs with h
  · simp [h]
  · simp

theorem splice_append (pre mid post bytes : List UInt8) (h : mid.length = bytes.length) :
    splice (pre ++ mid ++ post) pre.length bytes = pre ++ bytes ++ post := by
  unfold splice
  split_ifs with hb
  · have hm : mid = [] := List.length_eq_zero_iff.mp (by rw [h, hb]; rfl)
    simp [hb, hm]
  · have hdrop : (pre ++ mid ++ post).drop (pre.length + bytes.length) = post := by
      rw [← h, ← List.length_append, List.drop_left]
    rw [hdrop, List.append_assoc pre mid, List.take_left]
    simp

theorem le_length_splice (data : List UInt8) (offset : Nat) (bytes : List UInt8) :
    data.length ≤ (splice data offset bytes).length := by
  unfold splice
  split_ifs
  · exact Nat.le_refl _
  · simp only [List.length_append, List.length_take, List.length_replicate, List.length_drop]
    omega

theorem length_splice (data : List UInt8) {offset : Nat} (bytes : List UInt8)
    (h : offset ≤ data.length) :
    (splice data offset bytes).length = max data.length (offset + bytes.length) := by
  unfold splice
  split_ifs with hb
  · subst hb
    simp [h]
  · simp only [List.length_append, List.length_take, List.length_replicate, List.length_drop]
    omega

theorem splice_splice (data : List UInt8) (offset : Nat) (a b : List UInt8) :
    splice (splice data offset a) (offset + a.length) b = splice data offset (a ++ b) := by
  by_cases ha : a = []
  · simp [ha]
  by_cases hb : b = []
  · simp [hb]
  have hhead : (data.take offset ++ List.replicate (offset - data.length) 0 ++ a).length
      = offset + a.length := by
    simp only [List.length_append, List.length_take, List.length_replicate]
    omega
  have htail : ((data.take offset ++ List.replicate (offset - data.length) 0 ++ a)
      ++ data.drop (offset + a.length)).drop (offset + a.length + b.length)
      = data.drop (offset + a.length + b.length) := by
    rw [← List.drop_drop, ← hhead, List.drop_left, hhead, List.drop_drop]
  have hlen : offset + a.length - (splice data offset a).length = 0 := by
    simp only [splice, if_neg ha, List.length_append, List.length_take, List.length_replicate,
      List.length_drop]
    omega
  have hab : a ++ b ≠ [] := by simp [ha]
  rw [splice, if_neg hb, hlen]
  rw [splice, if_neg ha, htail, ← hhead, List.take_left, splice, if_neg hab]
  simp [Nat.add_assoc]
  omega

/-- `bytes` go out at the offset, which moves behind them. -/
def File.put (f : File) (bytes : List UInt8) : File :=
  { f with data := splice f.data f.offset bytes, offset := f.offset + bytes.length }

@[simp] theorem File.put_nil (f : File) : f.put [] = f := by simp [File.put]

@[simp] theorem File.put_put (f : File) (a b : List UInt8) : (f.put a).put b = f.put (a ++ b) := by
  simp [File.put, splice_splice, Nat.add_assoc]

def File.seek (f : File) (offset : Nat) : File := { f with offset := offset }

/-- The largest size of a file: an `off_t` has 63 bits. -/
def maxFileSize : Nat := 2 ^ 63 - 1

/-- The system call: how many bytes went out, or the error.  Nothing goes beyond the
largest file size. -/
def write (buf : List UInt8) : Run File (Except Errno Nat) := do
  let f ← get
  let room := maxFileSize - f.offset
  if room = 0 then
    return .error .efbig
  let count := min room buf.length
  match f.writes with
  | [] =>
    set (f.put (buf.take count))
    pure (.ok count)
  | .wrote n :: rest =>
    let actual := min (n + 1) count
    set ({ f with writes := rest }.put (buf.take actual))
    pure (.ok actual)
  | .failed e :: rest =>
    set { f with writes := rest }
    pure (.error e)

theorem run_write_full {f : File} (hr : maxFileSize - f.offset = 0) (buf : List UInt8) :
    (write buf).run f = .ok (.error .efbig) f := by
  simp only [write, EStateM.run_bind, EStateM.run_get, if_pos hr, EStateM.run_pure]

theorem run_write_nil {f : File} (hr : maxFileSize - f.offset ≠ 0) (hw : f.writes = [])
    (buf : List UInt8) : ∃ n, n = min (maxFileSize - f.offset) buf.length ∧
      (write buf).run f = .ok (.ok n) (f.put (buf.take n)) := by
  refine ⟨_, rfl, ?_⟩
  simp only [write, EStateM.run_bind, EStateM.run_get, if_neg hr, hw, EStateM.run_set,
    EStateM.run_pure]

theorem run_write_wrote {f : File} {k : Nat} {rest : List WriteResult}
    (hr : maxFileSize - f.offset ≠ 0) (hw : f.writes = .wrote k :: rest) (buf : List UInt8) :
    ∃ n, n ≤ min (maxFileSize - f.offset) buf.length ∧
      (write buf).run f = .ok (.ok n) ({ f with writes := rest }.put (buf.take n)) := by
  refine ⟨min (k + 1) (min (maxFileSize - f.offset) buf.length), Nat.min_le_right _ _, ?_⟩
  simp only [write, EStateM.run_bind, EStateM.run_get, if_neg hr, hw, EStateM.run_set,
    EStateM.run_pure]

theorem run_write_failed {f : File} {e : Errno} {rest : List WriteResult}
    (hr : maxFileSize - f.offset ≠ 0) (hw : f.writes = .failed e :: rest) (buf : List UInt8) :
    (write buf).run f = .ok (.error e) { f with writes := rest } := by
  simp only [write, EStateM.run_bind, EStateM.run_get, if_neg hr, hw, EStateM.run_set,
    EStateM.run_pure]

/-- `_write_full`, at most `fuel` times round; each round uses up one answer. -/
def writeFullLoop : Nat → List UInt8 → Run File Unit
  | 0, _ => stuck
  | fuel + 1, buf => do
    if buf = [] then
      return ()
    match ← write buf with
    | .error .eintr => writeFullLoop fuel buf
    | .error .eagain => writeFullLoop fuel buf
    | .error .enospc => fail .outOfDisk
    | .error .efbig => fail .fileSizeExceeded
    | .error .ebadf => fail .fileClosed
    | .error .other => fail .internalError
    | .ok actual => writeFullLoop fuel (buf.drop actual)

def writeFull' (buf : List UInt8) : Run File Unit := do
  let f ← get
  writeFullLoop (f.writes.length + 2) buf

def writeBlockSize : Nat := 256 * 1024 * 1024

def writeFullruns : Nat → List UInt8 → Run File (List UInt8)
  | 0, buf => pure buf
  | fullruns + 1, buf => do
    writeFull' (buf.take writeBlockSize)
    writeFullruns fullruns (buf.drop writeBlockSize)

def writeFull (buf : List UInt8) : Run File Unit := do
  let rest ← writeFullruns (buf.length / writeBlockSize) buf
  writeFull' rest

/-- The answers `_write_full` goes on after: some bytes were taken, or it is worth another try. -/
def WriteResult.goesOn : WriteResult → Bool
  | .wrote _ => true
  | .failed .eintr => true
  | .failed .eagain => true
  | .failed _ => false

/-- **What a run that has to write `buf` leaves**: everything out, or a proper prefix and an error
code, where there was no more room or the last answer was an error that is not tried again. -/
def Sent (f : File) (buf : List UInt8) : EStateM.Result (Stop Returncode) File Unit → Prop
  | .ok _ f' => f.offset + buf.length ≤ max maxFileSize f.offset ∧
      ∃ used w, f.writes = used ++ w ∧ (∀ r ∈ used, r.goesOn) ∧ f' = { f.put buf with writes := w }
  | .error e f' => ∃ code used w k, e = .rc code ∧ k < buf.length ∧ (∀ r ∈ used, r.goesOn) ∧
      f' = { f.put (buf.take k) with writes := w } ∧
      (f.writes = used ++ w ∧ maxFileSize ≤ f.offset + k ∨
        ∃ r, f.writes = used ++ r :: w ∧ r.goesOn = false)

theorem Sent.after {f : File} {a buf : List UInt8} {used w : List WriteResult}
    {r : EStateM.Result (Stop Returncode) File Unit} (hwrites : f.writes = used ++ w)
    (hused : ∀ r ∈ used, r.goesOn) (ha : f.offset + a.length ≤ max maxFileSize f.offset)
    (h : Sent { f.put a with writes := w } buf r) : Sent f (a ++ buf) r := by
  have happend : ∀ {used' : List WriteResult}, (∀ r ∈ used', r.goesOn) → ∀ r ∈ used ++ used', r.goesOn :=
    fun hused' r hr => (List.mem_append.mp hr).elim (hused r) (hused' r)
  cases r with
  | ok u f' =>
    obtain ⟨hlen, used', w', hw, hused', rfl⟩ := h
    refine ⟨?_, used ++ used', w', ?_, happend hused', by simp [File.put, splice_splice, Nat.add_assoc]⟩
    · have hlen' : f.offset + a.length + buf.length ≤ max maxFileSize (f.offset + a.length) := hlen
      rw [List.length_append]
      omega
    · rw [hwrites, List.append_assoc]
      exact congrArg (used ++ ·) hw
  | error e f' =>
    obtain ⟨code, used', w', k, rfl, hk, hused', rfl, hstop⟩ := h
    refine ⟨code, used ++ used', w', a.length + k, rfl, by simp [hk], happend hused', ?_, ?_⟩
    · rw [List.take_length_add_append]
      simp [File.put, splice_splice, Nat.add_assoc]
    · rw [hwrites]
      rcases hstop with ⟨hw, hroom⟩ | ⟨r, hw, hr⟩
      · left
        refine ⟨?_, ?_⟩
        · rw [List.append_assoc]
          exact congrArg (used ++ ·) hw
        · have hroom' : maxFileSize ≤ f.offset + a.length + k := hroom
          omega
      · right
        refine ⟨r, ?_, hr⟩
        rw [List.append_assoc]
        exact congrArg (used ++ ·) hw

theorem sent_writeFullLoop : ∀ fuel (buf : List UInt8) (f : File), f.writes.length + 2 ≤ fuel →
    Sent f buf ((writeFullLoop fuel buf).run f) := by
  intro fuel
  induction fuel with
  | zero => intro buf f hf; omega
  | succ fuel ih =>
    intro buf f hf
    rw [writeFullLoop, run_ite]
    split_ifs with hbuf
    · exact ⟨by simp [hbuf], [], f.writes, rfl, nofun, by simp [hbuf]⟩
    have hlen : 0 < buf.length := List.length_pos_iff.mpr hbuf
    by_cases hroom : maxFileSize - f.offset = 0
    · rw [run_bind_ok (run_write_full hroom buf)]
      exact ⟨_, [], f.writes, 0, rfl, hlen, nofun, by simp, Or.inl ⟨rfl, by omega⟩⟩
    -- the bytes that were taken are out, and the rest is the business of the next rounds
    have hround : ∀ (n : Nat) (used w : List WriteResult), f.writes = used ++ w →
        (∀ r ∈ used, r.goesOn) → n ≤ min (maxFileSize - f.offset) buf.length →
        Sent { f.put (buf.take n) with writes := w } (buf.drop n)
          ((writeFullLoop fuel (buf.drop n)).run { f.put (buf.take n) with writes := w }) →
        Sent f buf ((writeFullLoop fuel (buf.drop n)).run { f.put (buf.take n) with writes := w }) := by
      intro n used w hw hused hn h
      have hafter := Sent.after hw hused (by
        rw [List.length_take_of_le (by omega)]
        omega) h
      rwa [List.take_append_drop] at hafter
    cases hw : f.writes with
    | nil =>
      -- the system takes all there is room for; one more round sees that
      obtain ⟨n, hn, hrun⟩ := run_write_nil hroom hw buf
      have hput : { f.put (buf.take n) with writes := [] } = f.put (buf.take n) := by
        rw [← hw]
        rfl
      rw [run_bind_ok hrun, ← hput]
      refine hround n [] [] hw nofun (by omega) ?_
      cases fuel with
      | zero => omega
      | succ fuel =>
        rw [writeFullLoop, run_ite]
        split_ifs with hbuf'
        · exact ⟨by simp [hbuf'], [], [], rfl, nofun, by simp [hbuf']⟩
        · have hdrop : 0 < (buf.drop n).length := List.length_pos_iff.mpr hbuf'
          rw [List.length_drop] at hdrop
          have hroom' : maxFileSize - ({ f.put (buf.take n) with writes := [] } : File).offset = 0 := by
            show maxFileSize - (f.offset + (buf.take n).length) = 0
            rw [List.length_take_of_le (by omega)]
            omega
          rw [run_bind_ok (run_write_full hroom' _)]
          exact ⟨_, [], [], 0, rfl, by rw [List.length_drop]; exact hdrop, nofun, by simp,
            Or.inl ⟨rfl, by omega⟩⟩
    | cons r rest =>
      have hrest : rest.length + 2 ≤ fuel := by
        rw [hw, List.length_cons] at hf
        omega
      have hone : r.goesOn → ∀ r' ∈ [r], r'.goesOn := fun hr r' hr' => List.mem_singleton.mp hr' ▸ hr
      cases r with
      | wrote n =>
        obtain ⟨n, hn, hrun⟩ := run_write_wrote hroom hw buf
        rw [run_bind_ok hrun]
        exact hround n _ rest hw (hone rfl) hn (ih _ _ hrest)
      | failed e =>
        rw [run_bind_ok (run_write_failed hroom hw buf)]
        have hagain : WriteResult.goesOn (.failed e) →
            Sent f buf ((writeFullLoop fuel buf).run { f with writes := rest }) := by
          intro he
          have h := ih buf { f with writes := rest } hrest
          exact Sent.after (f := f) (a := []) hw (hone he) (by simp) (by simpa using h)
        have hstop : WriteResult.goesOn (.failed e) = false →
            ∀ code, Sent f buf (.error (.rc code) { f with writes := rest }) := fun he code =>
          ⟨code, [], rest, 0, rfl, hlen, nofun, by simp, Or.inr ⟨_, hw, he⟩⟩
        cases e with
        | eintr => exact hagain rfl
        | eagain => exact hagain rfl
        | enospc => exact hstop rfl _
        | efbig => exact hstop rfl _
        | ebadf => exact hstop rfl _
        | other => exact hstop rfl _

theorem sent_writeFull' (buf : List UInt8) (f : File) : Sent f buf ((writeFull' buf).run f) := by
  simp only [writeFull', EStateM.run_bind, EStateM.run_get]
  exact sent_writeFullLoop _ _ _ (Nat.le_refl _)

theorem Sent.bind {f : File} {a b : List UInt8} {x : Run File Unit} {g : Unit → Run File Unit}
    (hx : Sent f a (x.run f)) (hg : ∀ w, Sent { f.put a with writes := w } b
      ((g ()).run { f.put a with writes := w })) :
    Sent f (a ++ b) ((x >>= g).run f) := by
  rw [EStateM.run_bind]
  cases hr : x.run f with
  | ok u f' =>
    rw [hr] at hx
    obtain ⟨hlen, used, w, hw, hused, rfl⟩ := hx
    exact (hg w).after hw hused hlen
  | error e f' =>
    rw [hr] at hx
    obtain ⟨code, used, w, k, rfl, hk, hused, rfl, hstop⟩ := hx
    refine ⟨code, used, w, k, rfl, by simp; omega, hused, ?_, hstop⟩
    rw [List.take_append_of_le_length (Nat.le_of_lt hk)]

theorem sent_writeFullruns : ∀ (n : Nat) (buf : List UInt8) (f : File),
    Sent f buf ((writeFullruns n buf >>= writeFull').run f) := by
  intro n
  induction n with
  | zero =>
    intro buf f
    exact sent_writeFull' buf f
  | succ n ih =>
    intro buf f
    rw [writeFullruns, bind_assoc]
    have := Sent.bind (sent_writeFull' (buf.take writeBlockSize) f)
      (g := fun _ => writeFullruns n (buf.drop writeBlockSize) >>= writeFull')
      (fun w => ih (buf.drop writeBlockSize) _)
    rwa [List.take_append_drop] at this

theorem sent_writeFull (buf : List UInt8) (f : File) : Sent f buf ((writeFull buf).run f) :=
  sent_writeFullruns _ buf f

/-- Everything goes out if all errors are tried again and there is room. -/
theorem Sent.ok {f : File} {buf : List UInt8} {r : EStateM.Result (Stop Returncode) File Unit}
    (h : Sent f buf r) (hwrites : ∀ r ∈ f.writes, r.goesOn) (hroom : f.offset + buf.length ≤ maxFileSize) :
    ∃ used w, f.writes = used ++ w ∧ r = .ok () { f.put buf with writes := w } := by
  cases r with
  | ok u f' =>
    obtain ⟨-, used, w, hw, -, rfl⟩ := h
    exact ⟨used, w, hw, rfl⟩
  | error e f' =>
    obtain ⟨code, used, w, k, rfl, hk, -, -, ⟨-, hfull⟩ | ⟨r, hw, hr⟩⟩ := h
    · omega
    · have hgoes := hwrites r (hw ▸ List.mem_append_right _ List.mem_cons_self)
      rw [hr] at hgoes
      cases hgoes

/-- **`write_full` writes all or a prefix**: it ends whatever the system answers, with exactly the
bytes out if no error but `EINTR` and `EAGAIN` comes up, and with a proper prefix and an error
code otherwise. -/
theorem writeFull_exact (bytes : List UInt8) (f : File) :
    Sent f bytes ((writeFull bytes).run f) ∧
      ((∀ r ∈ f.writes, r.goesOn) → f.offset + bytes.length ≤ maxFileSize →
        ∃ w, (writeFull bytes).run f = .ok () { f.put bytes with writes := w }) := by
  refine ⟨sent_writeFull bytes f, fun hwrites hroom => ?_⟩
  obtain ⟨-, w, -, hrun⟩ := (sent_writeFull bytes f).ok hwrites hroom
  exact ⟨w, hrun⟩

/-- Two bytes are taken, then there are two errors, and the rest goes out. -/
theorem writeFull_exact_sample :
    ∃ w, (writeFull [1, 2, 3, 4, 5]).run ⟨[9], 1, [.wrote 1, .failed .eintr, .failed .eagain]⟩
      = .ok () ⟨[9, 1, 2, 3, 4, 5], 6, w⟩ :=
  (writeFull_exact [1, 2, 3, 4, 5] ⟨[9], 1, [.wrote 1, .failed .eintr, .failed .eagain]⟩).2
    (by decide) (by decide)

/-! ### Files whose answers do not matter -/

/-- What a run that has to write `buf` leaves: everything out, or a proper prefix
and an error code. -/
def Wrote (f : File) (buf : List UInt8) : EStateM.Result (Stop Returncode) File Unit → Prop
  | .ok _ f' => f.offset + buf.length ≤ max maxFileSize f.offset ∧
      ∃ w, f' = { f.put buf with writes := w }
  | .error e f' => ∃ code w k, e = .rc code ∧ k < buf.length ∧
      f' = { f.put (buf.take k) with writes := w }

theorem Sent.wrote {f : File} {buf : List UInt8} {r : EStateM.Result (Stop Returncode) File Unit}
    (h : Sent f buf r) : Wrote f buf r := by
  cases r with
  | ok u f' =>
    obtain ⟨hlen, -, w, -, -, hf⟩ := h
    exact ⟨hlen, w, hf⟩
  | error e f' =>
    obtain ⟨code, -, w, k, he, hk, -, hf, -⟩ := h
    exact ⟨code, w, k, he, hk, hf⟩

/-- **`write_full` is all or a prefix**: it ends whatever the system answers, with
all of `buf` out on success, and a proper prefix of it on an error. -/
theorem wrote_writeFull (buf : List UInt8) (f : File) : Wrote f buf ((writeFull buf).run f) :=
  (sent_writeFull buf f).wrote

def fwriteLittleEndian (n value : Nat) : Run File Unit :=
  writeFull (writeLittleEndian n value)

theorem sent_fwriteLittleEndian (n value : Nat) (f : File) :
    Sent f (writeLittleEndian n value) ((fwriteLittleEndian n value).run f) :=
  sent_writeFull _ f

/-! ### Writes that do not fail -/

def Unfailing (writes : List WriteResult) : Prop := ∀ e, .failed e ∉ writes

/-- All of `buf` goes out, and no `write` that is still to come fails. -/
def Goes (f : File) (buf : List UInt8) (r : EStateM.Result (Stop Returncode) File Unit) : Prop :=
  ∃ w, r = .ok () { f.put buf with writes := w } ∧ Unfailing w

theorem Goes.after {f : File} {a buf : List UInt8} {w : List WriteResult}
    {r : EStateM.Result (Stop Returncode) File Unit}
    (h : Goes { f.put a with writes := w } buf r) : Goes f (a ++ buf) r := by
  obtain ⟨w', rfl, hw'⟩ := h
  exact ⟨w', by simp [File.put, splice_splice, Nat.add_assoc], hw'⟩

/-- The program gets `buf` out, if no `write` fails and the file does not become too long. -/
def Sends (buf : List UInt8) (x : Run File Unit) : Prop :=
  ∀ f : File, Unfailing f.writes → f.offset + buf.length ≤ maxFileSize → Goes f buf (x.run f)

theorem Sends.bind {a b : List UInt8} {x : Run File Unit} {g : Unit → Run File Unit}
    (hx : Sends a x) (hg : Sends b (g ())) : Sends (a ++ b) (x >>= g) := by
  intro f hw hroom
  rw [List.length_append] at hroom
  obtain ⟨w, hrun, hw⟩ := hx f hw (by omega)
  rw [run_bind_ok hrun]
  refine (hg _ hw ?_).after
  show f.offset + a.length + b.length ≤ maxFileSize
  omega

/-- **`write_full` gets everything out**, if no `write` fails. -/
theorem sends_writeFull (buf : List UInt8) : Sends buf (writeFull buf) := by
  intro f hw hroom
  have hgoes : ∀ r ∈ f.writes, r.goesOn := by
    intro r hr
    cases r with
    | wrote n => rfl
    | failed e => exact absurd hr (hw e)
  obtain ⟨used, w, hwrites, hrun⟩ := (sent_writeFull buf f).ok hgoes hroom
  exact ⟨w, hrun, fun e he => hw e (hwrites ▸ List.mem_append_right _ he)⟩

theorem sends_fwriteLittleEndian (n value : Nat) :
    Sends (writeLittleEndian n value) (fwriteLittleEndian n value) := sends_writeFull _

end Sparkey
