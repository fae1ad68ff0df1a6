import Sparkey.Hashwriter
import Sparkey.Roundtrip

/-!
# What `fill_hash` reads

A `read` may get less than it asks for.  `read_fully` asks for the rest then, but puts it over
what it has got, and at the end of the file it asks for ever.  So it does what it should exactly
where the first `read` gets everything, and `fill_hash`, which calls it for one buffer after the
other, where that is so for every buffer (`reads_iff_getsAll`).
-/

namespace Sparkey

open Program

/-! ### One call -/

/-- The next `read` gets all it asks for, if the file has it. -/
def GetsAll (count : Nat) : List ReadResult → Prop
  | [] => True
  | .got n :: _ => count ≤ n + 1
  | .failed :: _ => False

/-- How much the next `read` gets of what it asks for, if the file has it. -/
def readLen (count : Nat) : List ReadResult → Nat
  | .got n :: _ => min (n + 1) count
  | _ => count

/-- What `read_fully` should do: come to an end, and with success have the next bytes of the file
in front of the buffer. -/
def ReadsNext (f : ReadFile) (count : Nat) (buf : List UInt8) : Prop :=
  match (readFully count buf).run f with
  | .ok buf' _ => buf'.take count = (f.data.drop f.offset).take count ∧ count ≤ (buf'.take count).length
  | .error e _ => e ≠ .stuck

variable {data buf buf' : List UInt8} {offset count len : Nat} {reads : List ReadResult}
  {f f' : ReadFile}

theorem readLen_le (count : Nat) (reads : List ReadResult) : readLen count reads ≤ count := by
  unfold readLen
  split
  · exact Nat.min_le_right _ _
  · exact Nat.le_refl _

theorem readLen_pos (h : count ≠ 0) : 0 < readLen count reads := by
  unfold readLen
  split <;> omega

theorem getsAll_nil (count : Nat) : GetsAll count [] := trivial

theorem GetsAll.readLen_eq (h : GetsAll count reads) : readLen count reads = count := by
  cases reads with
  | nil => rfl
  | cons r reads =>
    cases r with
    | got n => exact Nat.min_eq_right h
    | failed => exact h.elim

theorem readLen_lt (hreads : .failed ∉ reads) (h : ¬ GetsAll count reads) :
    readLen count reads < count := by
  cases reads with
  | nil => exact absurd trivial h
  | cons r reads =>
    cases r with
    | got n => exact Nat.lt_of_le_of_lt (Nat.min_le_left _ _) (Nat.lt_of_not_le h)
    | failed => exact absurd List.mem_cons_self hreads

theorem run_read (hreads : reads.head? ≠ some .failed) {bytes : List UInt8}
    (hbytes : bytes = (data.drop offset).take (readLen count reads)) :
    (read count).run ⟨data, offset, reads⟩
      = .ok (some bytes) ⟨data, offset + bytes.length, reads.tail⟩ := by
  subst hbytes
  cases reads with
  | nil => rfl
  | cons r reads =>
    cases r with
    | got n =>
      rw [readLen, ← List.take_take]
      rfl
    | failed => exact absurd rfl hreads

theorem run_readFullyLoop_succ {fuel : Nat} (hreads : reads.head? ≠ some .failed) (hcount : count ≠ 0)
    {bytes : List UInt8} (hbytes : bytes = (data.drop offset).take (readLen count reads)) :
    (readFullyLoop (fuel + 1) count buf).run ⟨data, offset, reads⟩
      = (readFullyLoop fuel (count - bytes.length) (bytes ++ buf.drop bytes.length)).run
        ⟨data, offset + bytes.length, reads.tail⟩ := by
  rw [readFullyLoop, if_neg hcount, run_bind_ok (run_read hreads hbytes)]

theorem head?_ne_failed (h : .failed ∉ reads) : reads.head? ≠ some .failed :=
  fun hhead => h (List.mem_of_mem_head? hhead)

theorem failed_notMem_tail (h : .failed ∉ reads) : .failed ∉ reads.tail :=
  fun hmem => h (List.mem_of_mem_tail hmem)

/-- **A first `read` that gets everything** is the only one. -/
theorem run_readFully (h : count = 0 ∨ offset + count ≤ data.length ∧ GetsAll count reads)
    (buf : List UInt8) :
    (readFully count buf).run ⟨data, offset, reads⟩
      = .ok ((data.drop offset).take count ++ buf.drop count)
        ⟨data, offset + count, if count = 0 then reads else reads.tail⟩ := by
  rw [readFully, run_get_bind]
  by_cases h0 : count = 0
  · subst h0
    rw [readFullyLoop, if_pos rfl, List.take_zero, if_pos rfl]
    rfl
  · obtain ⟨hlen, hall⟩ := h.resolve_left h0
    have hbytes : ((data.drop offset).take count).length = count := by
      rw [List.length_take, List.length_drop]
      omega
    have hhead : reads.head? ≠ some .failed := by
      cases reads with
      | nil => nofun
      | cons r reads =>
        rintro ⟨⟩
        exact hall
    rw [run_readFullyLoop_succ hhead h0 rfl, hall.readLen_eq, hbytes, Nat.sub_self, if_neg h0,
      readFullyLoop, if_pos rfl]
    rfl

/-- **A file that is too short** is asked for ever. -/
theorem run_readFullyLoop_short : ∀ (fuel : Nat) {count offset : Nat} {buf : List UInt8}
    {reads : List ReadResult}, .failed ∉ reads → data.length < offset + count → count ≠ 0 →
    ∃ f', (readFullyLoop fuel count buf).run ⟨data, offset, reads⟩ = .error .stuck f' := by
  intro fuel
  induction fuel with
  | zero => exact fun _ _ _ => ⟨_, rfl⟩
  | succ fuel ih =>
    intro count offset buf reads hreads hlen hcount
    obtain ⟨bytes, hbytes⟩ : ∃ bytes, bytes = (data.drop offset).take (readLen count reads) := ⟨_, rfl⟩
    have hle : bytes.length ≤ data.length - offset ∧ bytes.length ≤ count := by
      have := readLen_le count reads
      rw [hbytes, List.length_take, List.length_drop]
      omega
    rw [run_readFullyLoop_succ (head?_ne_failed hreads) hcount hbytes]
    by_cases hpos : bytes.length = 0
    · exact ih (failed_notMem_tail hreads) (by omega) (by omega)
    · exact ih (failed_notMem_tail hreads) (by omega) (by omega)

theorem run_readFully_short (hreads : .failed ∉ reads) (hlen : data.length < offset + count)
    (hcount : count ≠ 0) (buf : List UInt8) :
    ∃ f', (readFully count buf).run ⟨data, offset, reads⟩ = .error .stuck f' :=
  run_readFullyLoop_short _ hreads hlen hcount

theorem head?_readFullyLoop : ∀ (fuel : Nat) {count offset : Nat} {buf : List UInt8}
    {reads : List ReadResult}, .failed ∉ reads → (∀ x ∈ data.drop offset, x = 0) → count ≠ 0 →
    (readFullyLoop fuel count buf).run ⟨data, offset, reads⟩ = .ok buf' f' → buf'.head? = some 0 := by
  intro fuel
  induction fuel with
  | zero => exact fun _ _ _ => nofun
  | succ fuel ih =>
    intro count offset buf reads hreads hzero hcount hrun
    obtain ⟨bytes, hbytes⟩ : ∃ bytes, bytes = (data.drop offset).take (readLen count reads) := ⟨_, rfl⟩
    rw [run_readFullyLoop_succ (head?_ne_failed hreads) hcount hbytes] at hrun
    by_cases hrest : count - bytes.length = 0
    · -- the last bytes are the ones in front
      have hne : bytes ≠ [] := by
        rintro rfl
        exact hcount hrest
      obtain ⟨x, tl, rfl⟩ := List.exists_cons_of_ne_nil hne
      have hx : x = 0 := hzero x (List.mem_of_mem_take (hbytes ▸ List.mem_cons_self))
      cases fuel with
      | zero => cases hrun
      | succ fuel =>
        rw [readFullyLoop, if_pos hrest] at hrun
        cases hrun
        rw [hx]
        rfl
    · refine ih (failed_notMem_tail hreads) (fun x hx => hzero x ?_) hrest hrun
      rw [← List.drop_drop] at hx
      exact List.mem_of_mem_drop hx

def markedFile (len offset : Nat) : List UInt8 :=
  List.replicate offset 0 ++ 1 :: List.replicate (len - offset - 1) 0

theorem length_markedFile (h : offset < len) : (markedFile len offset).length = len := by
  rw [markedFile, List.length_append, List.length_cons, List.length_replicate, List.length_replicate]
  omega

theorem drop_markedFile : (markedFile len offset).drop offset = 1 :: List.replicate (len - offset - 1) 0 := by
  rw [markedFile]
  exact List.drop_left' List.length_replicate

/-- **A first `read` that gets less** loses the first byte. -/
theorem ne_of_run_readFully (hreads : .failed ∉ reads) (hlen : offset + count ≤ len) (hcount : count ≠ 0)
    (hall : ¬ GetsAll count reads)
    (hrun : (readFully count buf).run ⟨markedFile len offset, offset, reads⟩ = .ok buf' f') :
    buf'.take count ≠ ((markedFile len offset).drop offset).take count := by
  obtain ⟨m, hm⟩ : ∃ m, m = readLen count reads := ⟨_, rfl⟩
  have hlt : m < count := hm ▸ readLen_lt hreads hall
  have hpos : 0 < m := hm ▸ readLen_pos hcount
  obtain ⟨n, rfl⟩ := Nat.exists_eq_succ_of_ne_zero hcount
  obtain ⟨k, rfl⟩ := Nat.exists_eq_succ_of_ne_zero (Nat.ne_of_gt hpos)
  rw [readFully, run_get_bind] at hrun
  have hbytes : (((markedFile len offset).drop offset).take (k + 1)).length = k + 1 := by
    rw [List.length_take, drop_markedFile, List.length_cons, List.length_replicate]
    omega
  rw [run_readFullyLoop_succ (head?_ne_failed hreads) hcount rfl, ← hm, hbytes] at hrun
  have hhead := head?_readFullyLoop _ (failed_notMem_tail hreads) (fun x hx => by
    rw [← List.drop_drop, drop_markedFile, List.drop_succ_cons] at hx
    exact List.eq_of_mem_replicate (List.mem_of_mem_drop hx)) (by omega) hrun
  intro heq
  have := congrArg List.head? heq
  rw [drop_markedFile, List.head?_take, if_neg hcount, hhead, List.take_succ_cons, List.head?_cons] at this
  cases this

theorem run_readFullyLoop_ok : ∀ (fuel : Nat) {count offset : Nat} {buf : List UInt8}
    {reads : List ReadResult}, .failed ∉ reads → (count = 0 ∨ offset + count ≤ data.length) →
    reads.length + 2 ≤ fuel →
    ∃ buf' f', (readFullyLoop fuel count buf).run ⟨data, offset, reads⟩ = .ok buf' f' := by
  intro fuel
  induction fuel with
  | zero => exact fun _ _ hfuel => absurd hfuel (Nat.not_succ_le_zero _)
  | succ fuel ih =>
    intro count offset buf reads hreads hlen hfuel
    by_cases h0 : count = 0
    · rw [readFullyLoop, if_pos h0]
      exact ⟨_, _, rfl⟩
    · have hlen := hlen.resolve_left h0
      obtain ⟨bytes, hbytes⟩ : ∃ bytes, bytes = (data.drop offset).take (readLen count reads) := ⟨_, rfl⟩
      have hlength : bytes.length = readLen count reads := by
        have := readLen_le count reads
        rw [hbytes, List.length_take, List.length_drop]
        omega
      rw [run_readFullyLoop_succ (head?_ne_failed hreads) h0 hbytes]
      cases reads with
      | nil =>
        have hall : bytes.length = count := hlength
        obtain ⟨fuel, rfl⟩ := Nat.exists_eq_succ_of_ne_zero (show fuel ≠ 0 by
          rw [List.length_nil] at hfuel
          omega)
        rw [hall, Nat.sub_self, readFullyLoop, if_pos rfl]
        exact ⟨_, _, rfl⟩
      | cons r reads =>
        have := readLen_le count (r :: reads)
        exact ih (failed_notMem_tail hreads) (by omega) (Nat.le_of_succ_le_succ hfuel)

/-- **When `read_fully` comes to an end**: if the file is long enough. -/
theorem returns_readFully_iff (hreads : .failed ∉ reads) :
    Returns ((readFully count buf).run ⟨data, offset, reads⟩) ↔
      count = 0 ∨ offset + count ≤ data.length := by
  constructor
  · intro h
    by_contra hshort
    have hlen : data.length < offset + count := by omega
    obtain ⟨f', hrun⟩ := run_readFully_short hreads hlen (by omega) buf
    rw [hrun] at h
    exact h
  · intro h
    obtain ⟨buf', f', hrun⟩ : ∃ buf' f', (readFully count buf).run ⟨data, offset, reads⟩ = .ok buf' f' :=
      run_readFullyLoop_ok _ hreads h (Nat.le_refl _)
    rw [hrun]
    trivial

/-! ### Several calls -/

/-- Call `read_fully` for one count after the other, and collect the buffers. -/
def readEach : List Nat → List UInt8 → Run ReadFile (List (List UInt8))
  | [], _ => pure []
  | count :: counts, buf => do
    let buf ← readFully count buf
    let bufs ← readEach counts buf
    pure (buf :: bufs)

def piecesAt (data : List UInt8) : Nat → List Nat → List (List UInt8)
  | _, [] => []
  | offset, count :: counts => (data.drop offset).take count :: piecesAt data (offset + count) counts

/-- The first `read` of every call gets all it asks for. -/
def ReadsWhole (len : Nat) : Nat → List Nat → List ReadResult → Prop
  | _, [], _ => True
  | offset, count :: counts, reads =>
    if count = 0 then ReadsWhole len offset counts reads
    else offset + count ≤ len ∧ GetsAll count reads ∧ ReadsWhole len (offset + count) counts reads.tail

/-- The calls leave one piece of the file after the other in the buffer. -/
def ReadsPieces (f : ReadFile) (counts : List Nat) (buf : List UInt8) : Prop :=
  ∃ bufs f', (readEach counts buf).run f = .ok bufs f' ∧
    List.zipWith List.take counts bufs = piecesAt f.data f.offset counts

theorem readsPieces_cons {counts : List Nat}
    (h : count = 0 ∨ offset + count ≤ data.length ∧ GetsAll count reads) :
    ReadsPieces ⟨data, offset, reads⟩ (count :: counts) buf ↔
      ReadsPieces ⟨data, offset + count, if count = 0 then reads else reads.tail⟩ counts
        ((data.drop offset).take count ++ buf.drop count) := by
  have htake : ((data.drop offset).take count ++ buf.drop count).take count
      = (data.drop offset).take count := by
    rcases h with rfl | ⟨hlen, -⟩
    · rfl
    · refine List.take_left' ?_
      rw [List.length_take, List.length_drop]
      omega
  have hrun := run_readFully h buf
  constructor
  · rintro ⟨bufs, f', heach, heq⟩
    rw [readEach, run_bind_ok hrun] at heach
    obtain ⟨bufs, f₁, heach, hpure⟩ := ok_bind heach
    cases hpure
    refine ⟨bufs, f', heach, ?_⟩
    rw [List.zipWith_cons_cons, piecesAt] at heq
    exact (List.cons.inj heq).2
  · rintro ⟨bufs, f', heach, heq⟩
    refine ⟨((data.drop offset).take count ++ buf.drop count) :: bufs, f', ?_, ?_⟩
    · rw [readEach, run_bind_ok hrun, run_bind_ok heach]
      rfl
    · rw [List.zipWith_cons_cons, piecesAt, htake]
      exact congrArg (List.cons _) heq

/-- **Several calls of `read_fully`** leave the pieces of every file of a length, whatever is in it,
if and only if each of them needs one `read` at most. -/
theorem readsPieces_iff : ∀ (counts : List Nat) {offset : Nat} {reads : List ReadResult}
    {b : List UInt8 → List UInt8}, .failed ∉ reads →
    ((∀ data, data.length = len → ReadsPieces ⟨data, offset, reads⟩ counts (b data)) ↔
      ReadsWhole len offset counts reads) := by
  intro counts
  induction counts with
  | nil => exact fun _ => ⟨fun _ => trivial, fun _ _ _ => ⟨[], _, rfl, rfl⟩⟩
  | cons count counts ih =>
    intro offset reads b hreads
    -- the calls behind one that reads its piece
    have hnext : (count = 0 ∨ offset + count ≤ len ∧ GetsAll count reads) →
        ((∀ data, data.length = len → ReadsPieces ⟨data, offset, reads⟩ (count :: counts) (b data)) ↔
          ReadsWhole len (offset + count) counts (if count = 0 then reads else reads.tail)) := by
      intro h
      have hreads' : .failed ∉ if count = 0 then reads else reads.tail := by
        split_ifs
        · exact hreads
        · exact failed_notMem_tail hreads
      refine Iff.trans ?_ (ih (b := fun data => (data.drop offset).take count ++ (b data).drop count)
        hreads')
      exact forall₂_congr fun data hdata => readsPieces_cons (hdata ▸ h)
    rw [ReadsWhole]
    by_cases h0 : count = 0
    · rw [hnext (.inl h0), if_pos h0, if_pos h0, h0, Nat.add_zero]
    rw [if_neg h0]
    constructor
    · intro h
      have hlen : offset + count ≤ len := by
        by_contra hshort
        obtain ⟨bufs, f', heach, -⟩ := h (List.replicate len 0) List.length_replicate
        have hlen : (List.replicate len (0 : UInt8)).length < offset + count := by
          rw [List.length_replicate]
          omega
        obtain ⟨f₁, hrun⟩ := run_readFully_short hreads hlen h0 (b (List.replicate len 0))
        rw [readEach, run_bind_error hrun] at heach
        cases heach
      have hall : GetsAll count reads := by
        by_contra hall
        obtain ⟨bufs, f', heach, heq⟩ := h (markedFile len offset) (length_markedFile (by omega))
        obtain ⟨buf', f₁, hrun, heach⟩ := ok_bind heach
        obtain ⟨bufs', f₂, -, hpure⟩ := ok_bind heach
        cases hpure
        rw [List.zipWith_cons_cons, piecesAt] at heq
        exact ne_of_run_readFully hreads hlen h0 hall hrun (List.cons.inj heq).1
      have hwhole := (hnext (.inr ⟨hlen, hall⟩)).mp h
      rw [if_neg h0] at hwhole
      exact ⟨hlen, hall, hwhole⟩
    · rintro ⟨hlen, hall, hwhole⟩
      refine (hnext (.inr ⟨hlen, hall⟩)).mpr ?_
      rwa [if_neg h0]

theorem readsNext_iff (hreads : .failed ∉ reads) : ReadsNext ⟨data, offset, reads⟩ count buf ↔
    ReadsPieces ⟨data, offset, reads⟩ [count] buf := by
  by_cases h : count = 0 ∨ offset + count ≤ data.length
  · obtain ⟨buf', f', hrun⟩ : ∃ buf' f', (readFully count buf).run ⟨data, offset, reads⟩ = .ok buf' f' :=
      run_readFullyLoop_ok _ hreads h (Nat.le_refl _)
    have heach : (readEach [count] buf).run ⟨data, offset, reads⟩ = .ok [buf'] f' := by
      rw [readEach, run_bind_ok hrun]
      rfl
    have hlength : ((data.drop offset).take count).length = count := by
      rw [List.length_take, List.length_drop]
      omega
    rw [ReadsNext, hrun]
    constructor
    · rintro ⟨heq, -⟩
      refine ⟨[buf'], f', heach, ?_⟩
      rw [List.zipWith_cons_cons, heq]
      rfl
    · rintro ⟨bufs, f₁, heach', heq⟩
      cases heach.symm.trans heach'
      rw [List.zipWith_cons_cons, piecesAt] at heq
      have heq := (List.cons.inj heq).1
      exact ⟨heq, Nat.le_of_eq (by rw [heq, hlength])⟩
  · obtain ⟨f', hrun⟩ := run_readFully_short hreads
      (show data.length < offset + count by omega) (by omega) buf
    rw [ReadsNext, hrun]
    refine ⟨fun h => absurd rfl h, ?_⟩
    rintro ⟨bufs, f₁, heach, -⟩
    rw [readEach, run_bind_error hrun] at heach
    cases heach

/-! ### `fill_hash` -/

section FillHash

variable [Compressors]

/-- `hash_copy` for one buffer after the other. -/
def copyEach (oldHeader : Hashheader) : List Nat → List (List UInt8) → Run Hashing Unit
  | count :: counts, buf :: bufs => do
    hashCopy buf count oldHeader
    copyEach oldHeader counts bufs
  | _, _ => pure ()

theorem fillHashBuffers_succ (oldHeader : Hashheader) (bufferSize n rest : Nat) (buf : List UInt8) :
    fillHashBuffers oldHeader bufferSize (n + 1) rest buf = (do
      let buf ← onFst (readFully bufferSize buf)
      onSnd (hashCopy buf bufferSize oldHeader)
      fillHashBuffers oldHeader bufferSize n rest buf) := by
  simp only [fillHashBuffers, fillHashLoop, bind_assoc]

/-- **`fill_hash` copies what it reads**, one buffer after the other. -/
theorem run_fillHashBuffers (oldHeader : Hashheader) (bufferSize rest : Nat) : ∀ (n : Nat)
    {buf : List UInt8} {bufs : List (List UInt8)} {f f' : ReadFile} (s : Hashing),
    (readEach (List.replicate n bufferSize ++ [rest]) buf).run f = .ok bufs f' →
    (onNew f (fillHashBuffers oldHeader bufferSize n rest buf)).run s
      = (copyEach oldHeader (List.replicate n bufferSize ++ [rest]) bufs).run s := by
  intro n
  induction n with
  | zero =>
    intro buf bufs f f' s hread
    obtain ⟨buf₁, f₁, hrun, hread⟩ := ok_bind hread
    cases hread
    rw [fillHashBuffers, fillHashLoop, pure_bind, run_onNew_onFst_ok hrun]
    have hlast : onSnd (hashCopy buf₁ rest oldHeader)
        = onSnd (hashCopy buf₁ rest oldHeader) >>= fun u => (pure u : Run (ReadFile × Hashing) Unit) :=
      (bind_pure _).symm
    rw [hlast, run_onNew_onSnd]
    rfl
  | succ n ih =>
    intro buf bufs f f' s hread
    obtain ⟨buf₁, f₁, hrun, hread⟩ := ok_bind hread
    obtain ⟨bufs, f₂, hread, hpure⟩ := ok_bind hread
    cases hpure
    rw [fillHashBuffers_succ, run_onNew_onFst_ok hrun, run_onNew_onSnd, List.replicate_succ,
      List.cons_append, copyEach]
    cases hcopy : (hashCopy buf₁ bufferSize oldHeader).run s with
    | ok u s₁ => rw [run_bind_ok hcopy, run_bind_ok hcopy, ih s₁ hread]
    | error e s₁ => rw [run_bind_error hcopy, run_bind_error hcopy]

theorem fillHashBuffers_error (oldHeader : Hashheader) (bufferSize rest : Nat) : ∀ (n : Nat)
    {buf : List UInt8} {f f' : ReadFile} {e : Stop Returncode} (s : Hashing),
    (readEach (List.replicate n bufferSize ++ [rest]) buf).run f = .error e f' →
    ∀ u s', (onNew f (fillHashBuffers oldHeader bufferSize n rest buf)).run s ≠ .ok u s' := by
  intro n
  induction n with
  | zero =>
    intro buf f f' e s hread
    rcases error_bind hread with hrun | ⟨buf₁, f₁, hrun, hread⟩
    · rw [fillHashBuffers, fillHashLoop, pure_bind, run_onNew_onFst_error hrun]
      exact fun _ _ => nofun
    · cases hread
  | succ n ih =>
    intro buf f f' e s hread
    rw [fillHashBuffers_succ]
    rcases error_bind hread with hrun | ⟨buf₁, f₁, hrun, hread⟩
    · rw [run_onNew_onFst_error hrun]
      exact fun _ _ => nofun
    · rw [run_onNew_onFst_ok hrun, run_onNew_onSnd]
      rcases error_bind hread with hread | ⟨bufs, f₂, -, hpure⟩
      · intro u s' hok
        obtain ⟨_, s₁, -, hok⟩ := ok_bind hok
        exact ih s₁ hread u s' hok
      · cases hpure

/-- **When `read_fully` reads** the bytes of every file of a length that are next, and
`fill_hash` those of the old table: where the first `read` for a buffer gets everything.  What
`fill_hash` reads it copies, and without that it does not succeed; nor does it with a header that
tells slots too large for its buffer. -/
theorem reads_iff_getsAll {reads : List ReadResult} (hreads : .failed ∉ reads) :
    (∀ len offset count buf,
      (∀ data, data.length = len → ReadsNext ⟨data, offset, reads⟩ count buf) ↔
        count = 0 ∨ offset + count ≤ len ∧ GetsAll count reads) ∧
    (∀ (data : List UInt8) (offset count : Nat) (buf : List UInt8),
      Returns ((readFully count buf).run ⟨data, offset, reads⟩) ↔
        count = 0 ∨ offset + count ≤ data.length) ∧
    ∀ (env : HashEnv) (oldHeader : Hashheader), env.reads = reads → env.openFails = none →
      (∀ len, (∀ data, data.length = len →
        ReadsPieces ⟨data, oldHeader.headerSize, reads⟩ (fillCounts oldHeader) env.unsetBuf) ↔
          ReadsWhole len oldHeader.headerSize (fillCounts oldHeader) reads) ∧
      (oldHeader.BufferFits → ∀ data s, match (readEach (fillCounts oldHeader) env.unsetBuf).run
          ⟨data, oldHeader.headerSize, reads⟩ with
        | .ok bufs _ => (fillHash env data oldHeader).run s
            = (copyEach oldHeader (fillCounts oldHeader) bufs).run s
        | .error _ _ => ∀ u s', (fillHash env data oldHeader).run s ≠ .ok u s') ∧
      (¬ oldHeader.BufferFits → ∀ data s u s', (fillHash env data oldHeader).run s ≠ .ok u s') := by
  refine ⟨fun len offset count buf => ?_, fun _ _ _ _ => returns_readFully_iff hreads, ?_⟩
  · have hone : ReadsWhole len offset [count] reads ↔
        count = 0 ∨ offset + count ≤ len ∧ GetsAll count reads := by
      rw [ReadsWhole]
      by_cases h0 : count = 0 <;> simp [h0, ReadsWhole]
    rw [← hone, ← readsPieces_iff [count] (b := fun _ => buf) hreads]
    exact forall₂_congr fun data _ => readsNext_iff hreads
  · rintro env oldHeader rfl hopens
    refine ⟨fun len => readsPieces_iff _ (b := fun _ => env.unsetBuf) hreads, fun hfits data s => ?_,
      fun hfits data s u s' hok => ?_⟩
    · rw [fillHash_of_fits hopens hfits]
      split
      · rename_i hread
        exact run_fillHashBuffers _ _ _ _ s hread
      · rename_i hread
        exact fillHashBuffers_error _ _ _ _ s hread
    · obtain hrun | hrun : (fillHash env data oldHeader).run s = .error .stuck s ∨ _ :=
        fillHash_of_not_fits hopens hfits s
      · rw [hrun] at hok
        cases hok
      · rw [hrun] at hok
        cases hok

/-- The header of an older index with one slot of twelve bytes. -/
def oneSlotHeader : Hashheader :=
  { newHashheader (newLogheader 7 .none 0) none 5 8 with headerSize := hashHeaderSize }

def twelveEnv : HashEnv where
  unset := zeroLogiter
  unset' := zeroLogiter
  unsetBuf := List.replicate 12 0
  rand32 := some 5
  openFails := none
  reads := [.got 11]
  removeFails := none
  creatFails := false
  writes := []

omit [Compressors] in
theorem reads_iff_getsAll_sample :
    ReadsNext ⟨[1, 2, 3], 1, [.got 11]⟩ 2 [0, 0] ∧
      ReadsPieces ⟨List.replicate 200 9, oneSlotHeader.headerSize, [.got 11]⟩
        (fillCounts oneSlotHeader) twelveEnv.unsetBuf := by
  let := literalCompressors
  have hreads : ReadResult.failed ∉ [ReadResult.got 11] := by decide
  obtain ⟨hnext, -, hfill⟩ := reads_iff_getsAll hreads
  obtain ⟨hpieces, -⟩ := hfill twelveEnv oneSlotHeader rfl rfl
  refine ⟨(hnext 3 1 2 [0, 0]).mpr (.inr ⟨by decide, (by decide : 2 ≤ 12)⟩) [1, 2, 3] rfl, ?_⟩
  refine (hpieces 200).mpr ?_ _ List.length_replicate
  have hcounts : fillCounts oneSlotHeader = [12] := by decide
  rw [hcounts, ReadsWhole, if_neg (by decide)]
  exact ⟨by decide, (by decide : 12 ≤ 12), trivial⟩

omit [Compressors] in
/-- A short `read`, and a file that is too short. -/
theorem readsNext_of_shortRead :
    (¬ ReadsNext ⟨[1, 2], 0, [.got 0]⟩ 2 [0, 0]) ∧ ¬ ReadsNext ⟨[], 0, []⟩ 1 [0] := by
  refine ⟨fun h => ?_, fun h => h rfl⟩
  have heq : [(2 : UInt8), 0] = [1, 2] := h.1
  exact absurd heq (by decide)

end FillHash

end Sparkey
