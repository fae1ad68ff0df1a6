import Sparkey.Compress
import Sparkey.Entry
import Sparkey.Lib.BlockDraft
import Sparkey.Logheader

/-!
# The bytes of a log

What a writer makes of the entries, apart from files and buffers for files: the
bytes behind the header, and the block that is open.  A `Packing` is a function of
the calls and of the compressor alone.

`Laid` ties a packing to a draft of the file of blocks, and the result of the
module is that every step of a packing is one of the draft, so that the entries of
the log are those that were added, in order (`Packing.Spelled`).
-/

namespace Sparkey

open BlockStream

/-- How a log is compressed. -/
structure Setting where
  compressionType : CompressionType
  compressionBlockSize : Nat

def Logheader.setting (header : Logheader) : Setting :=
  ⟨header.compressionType, header.compressionBlockSize⟩

@[ext] structure Packing where
  out : List UInt8
  block : List UInt8
  flushed : Bool
  entryCount : Nat
  maxEntriesPerBlock : Nat

def Packing.init : Packing := ⟨[], [], false, 0, 0⟩

def Packing.peak (p : Packing) : Nat := max p.maxEntriesPerBlock p.entryCount

/-- A call to a writer: `sparkey_logwriter_put` or `sparkey_logwriter_delete`,
`sparkey_logwriter_flush`, or `sparkey_logwriter_close` with
`sparkey_logwriter_append` behind it. -/
inductive Call
  | add (e : Entry)
  | flush
  | reopen

def Call.entry? : Call → Option Entry
  | .add e => some e
  | .flush => none
  | .reopen => none

def entriesOf (calls : List Call) : List Entry := calls.filterMap Call.entry?

theorem entriesOf_append (calls : List Call) (c : Call) :
    entriesOf (calls ++ [c]) = entriesOf calls ++ c.entry?.toList := by
  cases h : c.entry? <;> simp [entriesOf, List.filterMap_append, h]

theorem entriesOf_flush (calls : List Call) : entriesOf (calls ++ [.flush]) = entriesOf calls := by
  rw [entriesOf_append, Call.entry?, Option.toList_none, List.append_nil]

def frame (compressed : List UInt8) : List UInt8 := writeVlq compressed.length ++ compressed

def maxStarts : List (Item Entry) → Nat
  | [] => 0
  | it :: items => max (it.idx + 1) (maxStarts items)

theorem maxStarts_append (items : List (Item Entry)) (it : Item Entry) :
    maxStarts (items ++ [it]) = max (maxStarts items) (it.idx + 1) := by
  induction items with
  | nil => simp [maxStarts]
  | cons a items ih =>
    rw [List.cons_append, maxStarts, ih, maxStarts]
    omega

theorem idx_lt_maxStarts {items : List (Item Entry)} {it : Item Entry} (h : it ∈ items) :
    it.idx < maxStarts items := by
  induction items with
  | nil => cases h
  | cons a items ih =>
    rw [maxStarts]
    rcases List.mem_cons.mp h with rfl | h
    · omega
    · have := ih h
      omega

/-- Room for the head of an entry in a block. -/
def HeadFits (s : Setting) (e : Entry) : Prop :=
  usesCompressor s.compressionType = true → e.header.length ≤ s.compressionBlockSize

section Steps

variable [Compressors]

def Setting.compress (s : Setting) (input : List UInt8) : Option (List UInt8) :=
  (sparkeyCompressors s.compressionType).compress input
    ((sparkeyCompressors s.compressionType).maxCompressedSize s.compressionBlockSize)

namespace Packing

variable (s : Setting)

def flushBlock (p : Packing) : Option Packing :=
  (s.compress p.block).map fun compressed =>
    { out := p.out ++ frame compressed
      block := []
      flushed := true
      entryCount := 0
      maxEntriesPerBlock := max p.maxEntriesPerBlock p.entryCount }

def fillLoop : Nat → List UInt8 → Packing → Option Packing
  | 0, _, _ => none
  | fuel + 1, data, p =>
    if data.length ≤ s.compressionBlockSize - p.block.length then
      some { p with block := p.block ++ data }
    else
      let remaining := s.compressionBlockSize - p.block.length
      (flushBlock s { p with block := p.block ++ data.take remaining }).bind
        (fillLoop fuel (data.drop remaining))

def fill (data : List UInt8) (p : Packing) : Option Packing := fillLoop s (data.length + 2) data p

def makeRoom (e : Entry) (p : Packing) : Option Packing :=
  if s.compressionBlockSize - p.block.length < e.header.length ∨
      (e.bytes.length ≤ s.compressionBlockSize ∧
        s.compressionBlockSize - p.block.length < e.bytes.length) then flushBlock s p
  else some p

def enter (p : Packing) : Packing := { p with entryCount := p.entryCount + 1, flushed := false }

def endEntry (p : Packing) : Option Packing :=
  if p.flushed = true ∧ 0 < p.block.length then flushBlock s p else some p

def add (e : Entry) (p : Packing) : Option Packing :=
  if usesCompressor s.compressionType then
    (makeRoom s e p).bind fun p =>
    (fill s (writeVlq e.num1) p.enter).bind fun p =>
    (fill s (writeVlq e.num2) p).bind fun p =>
    (fill s e.data1 p).bind fun p =>
    (fill s e.data2 p).bind fun p =>
    endEntry s p
  else some { p with out := p.out ++ e.bytes }

def flush (p : Packing) : Option Packing :=
  if 0 < p.block.length then flushBlock s p else some p

def reopen (p : Packing) : Packing := { p with flushed := false, entryCount := 0 }

def call (c : Call) (p : Packing) : Option Packing :=
  match c with
  | .add e => add s e p
  | .flush => flush s p
  | .reopen => (flush s p).map reopen

end Packing

def pack (s : Setting) (calls : List Call) : Option Packing :=
  calls.foldlM (fun p c => p.call s c) Packing.init

theorem pack_append (s : Setting) (calls : List Call) (c : Call) :
    pack s (calls ++ [c]) = (pack s calls).bind (Packing.call s c) := by
  simp [pack, List.foldlM_append, Option.bind_eq_bind]

/-- What some more calls make of a packing. -/
def Packing.calls (s : Setting) (calls : List Call) (p : Packing) : Option Packing :=
  calls.foldlM (fun p c => p.call s c) p

theorem Packing.calls_append (s : Setting) (calls more : List Call) (p : Packing) :
    p.calls s (calls ++ more) = (p.calls s calls).bind (Packing.calls s more) := by
  rw [Packing.calls, List.foldlM_append]
  rfl

theorem Packing.calls_cons (s : Setting) (c : Call) (calls : List Call) (p : Packing) :
    p.calls s (c :: calls) = (p.call s c).bind (Packing.calls s calls) := by
  rw [Packing.calls, List.foldlM_cons]
  rfl

/-! ### Blocks in the bytes -/

def Framed (s : Setting) (out : List UInt8) (t : Nat × List UInt8 × Nat) : Prop :=
  ∃ pre compressed post, out = pre ++ frame compressed ++ post ∧
    s.compress t.2.1 = some compressed ∧ t.2.1.length ≤ s.compressionBlockSize ∧
    t.1 = logHeaderSize + pre.length ∧ t.2.2 = t.1 + (frame compressed).length

theorem Framed.append {s : Setting} {out : List UInt8} {t : Nat × List UInt8 × Nat}
    (h : Framed s out t) (more : List UInt8) : Framed s (out ++ more) t := by
  obtain ⟨pre, compressed, post, rfl, h⟩ := h
  exact ⟨pre, compressed, post ++ more, by rw [List.append_assoc], h⟩

structure Laid (s : Setting) (p : Packing) (d : Draft UInt8) : Prop where
  data : d.data = p.block
  idx : d.idx = p.entryCount
  next : d.last.next = logHeaderSize + p.out.length
  blocks : ∀ t ∈ d.blocks, Framed s p.out t
  room : p.block.length ≤ s.compressionBlockSize
  tidy : d.Tidy false

variable {s : Setting} {p p' : Packing} {d : Draft UInt8} {items : List (Item Entry)}
  {it : Item Entry} {done : List UInt8} {e : Entry}

abbrev Spells (moves : Bool) (d : Draft UInt8) (items : List (Item Entry)) : Prop :=
  d.Spells moves logHeaderSize Entry.header Entry.body items

abbrev Pending (d : Draft UInt8) (items : List (Item Entry)) (it : Item Entry) (done : List UInt8)
    (closed : Bool) : Prop :=
  d.Pending false logHeaderSize Entry.header Entry.body items it done closed

theorem Packing.flushBlock_eq (h : p.flushBlock s = some p') :
    ∃ compressed, s.compress p.block = some compressed ∧
      p' = ⟨p.out ++ frame compressed, [], true, 0, p.peak⟩ := by
  unfold Packing.flushBlock at h
  cases hc : s.compress p.block with
  | none => simp [hc] at h
  | some compressed =>
    simp only [hc, Option.map_some, Option.some.injEq] at h
    exact ⟨compressed, rfl, h.symm⟩

theorem Laid.flushBlock (hl : Laid s p d) (h : p.flushBlock s = some p') :
    ∃ q, Laid s p' (d.close q) := by
  obtain ⟨compressed, hc, rfl⟩ := Packing.flushBlock_eq h
  refine ⟨logHeaderSize + p.out.length + (frame compressed).length, rfl, rfl, ?_, ?_,
    Nat.zero_le _, Draft.tidy_close _ _⟩
  · show logHeaderSize + p.out.length + (frame compressed).length
      = logHeaderSize + (p.out ++ frame compressed).length
    rw [List.length_append, Nat.add_assoc]
  · intro t ht
    rcases List.mem_append.mp ht with ht | ht
    · exact (hl.blocks t ht).append _
    · obtain rfl := List.mem_singleton.mp ht
      refine ⟨p.out, compressed, [], (List.append_nil _).symm, ?_, ?_, hl.next, ?_⟩
      · show s.compress d.data = some compressed
        rw [hl.data]
        exact hc
      · show d.data.length ≤ s.compressionBlockSize
        rw [hl.data]
        exact hl.room
      · show _ = d.last.next + _
        rw [hl.next]

theorem Packing.peak_flushBlock (h : p.flushBlock s = some p') : p'.peak = p.peak := by
  obtain ⟨compressed, -, rfl⟩ := Packing.flushBlock_eq h
  exact Nat.max_zero _

/-! ### Adding bytes of a body -/

structure Filling (s : Setting) (p : Packing) (d : Draft UInt8) (items : List (Item Entry))
    (it : Item Entry) (done : List UInt8) : Prop where
  laid : Laid s p d
  pending : Pending d items it done p.flushed
  flushed : p.block = [] → p.flushed = true
  counted : 2 * p.entryCount ≤ p.block.length

theorem Filling.fillLoop (hs : 0 < s.compressionBlockSize) : ∀ (fuel : Nat) {data : List UInt8}
    {p p' : Packing} {d : Draft UInt8} {done : List UInt8}, Filling s p d items it done →
    Packing.fillLoop s fuel data p = some p' →
    ∃ d', Filling s p' d' items it (done ++ data) ∧ p'.peak = p.peak := by
  intro fuel
  induction fuel with
  | zero =>
    intro data p p' d done _ h
    cases h
  | succ fuel ih =>
    intro data p p' d done hf h
    rw [Packing.fillLoop] at h
    have hroom := hf.laid.room
    have hlen := hf.counted
    split_ifs at h with hfits
    · -- all of it goes into the open block
      cases h
      refine ⟨d.add data, ⟨⟨?_, hf.laid.idx, hf.laid.next, hf.laid.blocks, ?_, hf.laid.tidy.add _⟩,
        ?_, ?_, ?_⟩, rfl⟩
      · show d.data ++ data = p.block ++ data
        rw [hf.laid.data]
      · show (p.block ++ data).length ≤ _
        rw [List.length_append]
        omega
      · refine hf.pending.add hf.laid.tidy _ fun h0 => hf.flushed ?_
        rw [← hf.laid.data]
        exact h0
      · intro h0
        exact hf.flushed (List.append_eq_nil_iff.mp h0).1
      · show 2 * p.entryCount ≤ (p.block ++ data).length
        rw [List.length_append]
        omega
    · -- the block is filled up and closed
      obtain ⟨p₁, hp₁, h⟩ := Option.bind_eq_some_iff.mp h
      obtain ⟨r, hr⟩ : ∃ r, r = s.compressionBlockSize - p.block.length := ⟨_, rfl⟩
      rw [← hr] at hfits hp₁ h
      have htake : (data.take r).length = r := List.length_take_of_le (by omega)
      have hl₁ : Laid s { p with block := p.block ++ data.take r } (d.add (data.take r)) := by
        refine ⟨?_, hf.laid.idx, hf.laid.next, hf.laid.blocks, ?_, hf.laid.tidy.add _⟩
        · show d.data ++ _ = p.block ++ _
          rw [hf.laid.data]
        · show (p.block ++ data.take r).length ≤ _
          rw [List.length_append, htake]
          omega
      have hpend := hf.pending.add hf.laid.tidy (data.take r) (fun h0 => hf.flushed (by
        rw [← hf.laid.data]
        exact h0))
      have hne : (d.add (data.take r)).data ≠ [] := by
        rw [hl₁.data]
        intro h0
        have := congrArg List.length h0
        rw [List.length_append, htake, List.length_nil] at this
        omega
      obtain ⟨q, hl₂⟩ := hl₁.flushBlock hp₁
      have hpeak := Packing.peak_flushBlock hp₁
      obtain ⟨compressed, -, rfl⟩ := Packing.flushBlock_eq hp₁
      obtain ⟨d', hf', hpeak'⟩ := ih
        ⟨hl₂, hpend.close hne q, fun _ => rfl, Nat.zero_le _⟩ h
      rw [List.append_assoc, List.take_append_drop] at hf'
      exact ⟨d', hf', hpeak'.trans hpeak⟩

theorem Filling.fill (hs : 0 < s.compressionBlockSize) {data : List UInt8}
    (hf : Filling s p d items it done) (h : p.fill s data = some p') :
    ∃ d', Filling s p' d' items it (done ++ data) ∧ p'.peak = p.peak :=
  hf.fillLoop hs _ h

/-! ### Adding an entry -/

theorem Packing.fill_fits {data : List UInt8}
    (h : data.length ≤ s.compressionBlockSize - p.block.length) :
    p.fill s data = some { p with block := p.block ++ data } := by
  rw [Packing.fill, Packing.fillLoop, if_pos h]

/-- The head of an entry, for which there is room, goes into the open block. -/
theorem Packing.fill_header (h : e.header.length ≤ s.compressionBlockSize - p.block.length) :
    (p.fill s (writeVlq e.num1)).bind (Packing.fill s (writeVlq e.num2))
      = some { p with block := p.block ++ e.header } := by
  have hlen : e.header.length = (writeVlq e.num1).length + (writeVlq e.num2).length :=
    List.length_append
  rw [Packing.fill_fits (by omega), Option.bind_some, Packing.fill_fits, List.append_assoc]
  · rfl
  · show _ ≤ s.compressionBlockSize - (p.block ++ writeVlq e.num1).length
    rw [List.length_append]
    omega

theorem Laid.makeRoom (hh : e.header.length ≤ s.compressionBlockSize) (hl : Laid s p d)
    (hsp : Spells false d items) (hc : 2 * p.entryCount ≤ p.block.length)
    (h : p.makeRoom s e = some p') :
    ∃ d', Laid s p' d' ∧ Spells false d' items ∧ 2 * p'.entryCount ≤ p'.block.length ∧
      p'.peak = p.peak ∧ e.header.length ≤ s.compressionBlockSize - p'.block.length := by
  unfold Packing.makeRoom at h
  split_ifs at h with hroom
  · have hne : d.data ≠ [] := by
      rw [hl.data]
      intro h0
      rw [h0, List.length_nil] at hroom
      omega
    obtain ⟨q, hl'⟩ := hl.flushBlock h
    have hpeak := Packing.peak_flushBlock h
    obtain ⟨compressed, -, rfl⟩ := Packing.flushBlock_eq h
    exact ⟨d.close q, hl', hsp.close hne q, Nat.zero_le _, hpeak, hh⟩
  · cases h
    exact ⟨d, hl, hsp, hc, rfl, by omega⟩

theorem Laid.enter (hl : Laid s p d) (hsp : Spells false d items)
    (hc : 2 * p.entryCount ≤ p.block.length)
    (hfits : e.header.length ≤ s.compressionBlockSize - p.block.length) :
    Filling s { p.enter with block := p.block ++ e.header } (d.enter false e.header) items
      ⟨d.last.next, d.idx, e⟩ [] := by
  have hroom := hl.room
  have htwo := e.two_le_length_header
  have hlen : (p.block ++ e.header).length = p.block.length + e.header.length := List.length_append
  refine ⟨⟨?_, ?_, hl.next, hl.blocks, ?_, hl.tidy.enter e.header_ne_nil⟩, ?_, ?_, ?_⟩
  · show d.data ++ e.header = p.block ++ e.header
    rw [hl.data]
  · show d.idx + 1 = p.entryCount + 1
    rw [hl.idx]
  · show (p.block ++ e.header).length ≤ _
    omega
  · exact hsp.begin hl.tidy e.header_ne_nil
  · intro h0
    exact absurd (List.append_eq_nil_iff.mp h0).2 e.header_ne_nil
  · show 2 * (p.entryCount + 1) ≤ (p.block ++ e.header).length
    omega

/-- The entry is part of the log once the block it ended in is closed, too. -/
theorem Filling.endEntry (hf : Filling s p d items it it.val.body) (h : p.endEntry s = some p') :
    ∃ d', Laid s p' d' ∧ Spells false d' (items ++ [it]) ∧ 2 * p'.entryCount ≤ p'.block.length ∧
      p'.peak = p.peak := by
  unfold Packing.endEntry at h
  split_ifs at h with hclose
  · have hne : d.data ≠ [] := by
      rw [hf.laid.data]
      exact List.length_pos_iff.mp hclose.2
    obtain ⟨q, hl'⟩ := hf.laid.flushBlock h
    have hpeak := Packing.peak_flushBlock h
    obtain ⟨compressed, -, rfl⟩ := Packing.flushBlock_eq h
    exact ⟨d.close q, hl', (hf.pending.close hne q).finish (Draft.tidy_close _ _) fun _ => rfl,
      Nat.zero_le _, hpeak⟩
  · cases h
    refine ⟨d, hf.laid, hf.pending.finish hf.laid.tidy fun hfl => ?_, hf.counted, rfl⟩
    rw [hf.laid.data]
    by_contra hne
    exact hclose ⟨hfl, List.length_pos_iff.mpr hne⟩

theorem Laid.add (hu : usesCompressor s.compressionType = true)
    (hh : e.header.length ≤ s.compressionBlockSize) (hl : Laid s p d)
    (hsp : Spells false d items) (hc : 2 * p.entryCount ≤ p.block.length)
    (h : p.add s e = some p') :
    ∃ d' it, it.val = e ∧ Laid s p' d' ∧ Spells false d' (items ++ [it]) ∧
      2 * p'.entryCount ≤ p'.block.length ∧ p'.peak = max p.peak (it.idx + 1) ∧
      2 * (it.idx + 1) ≤ s.compressionBlockSize := by
  rw [Packing.add, if_pos hu] at h
  obtain ⟨p₁, h₁, hr₁⟩ := Option.bind_eq_some_iff.mp h
  obtain ⟨p₂, h₂, hr₂⟩ := Option.bind_eq_some_iff.mp hr₁
  obtain ⟨p₃, h₃, hr₃⟩ := Option.bind_eq_some_iff.mp hr₂
  obtain ⟨p₄, h₄, hr₄⟩ := Option.bind_eq_some_iff.mp hr₃
  obtain ⟨p₅, h₅, hend⟩ := Option.bind_eq_some_iff.mp hr₄
  obtain ⟨d₁, hl₁, hsp₁, hc₁, hpeak₁, hfits⟩ := hl.makeRoom hh hsp hc h₁
  -- the head goes into the open block
  have hhead := Packing.fill_header (p := p₁.enter) hfits
  rw [h₂, Option.bind_some, h₃] at hhead
  cases hhead
  have hf := hl₁.enter hsp₁ hc₁ hfits
  have hpos : 0 < s.compressionBlockSize := by
    have := e.two_le_length_header
    omega
  -- and the body behind it
  obtain ⟨d₄, hf₄, hpeak₄⟩ := hf.fill hpos h₄
  obtain ⟨d₅, hf₅, hpeak₅⟩ := hf₄.fill hpos h₅
  rw [List.nil_append, e.data1_append_data2] at hf₅
  obtain ⟨d', hl', hsp', hc', hpeak'⟩ := hf₅.endEntry hend
  refine ⟨d', _, rfl, hl', hsp', hc', ?_, ?_⟩
  · rw [hpeak', hpeak₅, hpeak₄, ← hpeak₁]
    show max p₁.maxEntriesPerBlock (p₁.entryCount + 1)
      = max (max p₁.maxEntriesPerBlock p₁.entryCount) (d₁.idx + 1)
    rw [hl₁.idx]
    omega
  · show 2 * (d₁.idx + 1) ≤ s.compressionBlockSize
    have hroom := hl₁.room
    have htwo := e.two_le_length_header
    rw [hl₁.idx]
    omega

/-! ### How many entries a block can have -/

/-- Every entry counted has a byte in the open block, up to `k` of them. -/
structure Packing.Loose (s : Setting) (k : Nat) (p : Packing) : Prop where
  entryCount_le : p.entryCount ≤ p.block.length + k
  block_le : p.block.length ≤ s.compressionBlockSize
  peak_le : p.peak ≤ s.compressionBlockSize + 1

theorem Packing.Loose.flushBlock {k : Nat} (h : p.Loose s k) (hf : p.flushBlock s = some p') :
    p'.Loose s 0 := by
  have hpeak := Packing.peak_flushBlock hf
  obtain ⟨compressed, -, rfl⟩ := Packing.flushBlock_eq hf
  exact ⟨Nat.zero_le _, Nat.zero_le _, Nat.le_trans (Nat.le_of_eq hpeak) h.peak_le⟩

theorem Packing.Loose.fillLoop : ∀ (fuel : Nat) {k : Nat} {data : List UInt8} {p p' : Packing},
    p.Loose s k → Packing.fillLoop s fuel data p = some p' → p'.Loose s (k - data.length) := by
  intro fuel
  induction fuel with
  | zero =>
    intro k data p p' _ h
    cases h
  | succ fuel ih =>
    intro k data p p' hl h
    have h1 := hl.entryCount_le
    have h2 := hl.block_le
    rw [Packing.fillLoop] at h
    split_ifs at h with hfits
    · cases h
      refine ⟨?_, ?_, hl.peak_le⟩
      · show p.entryCount ≤ (p.block ++ data).length + _
        rw [List.length_append]
        omega
      · show (p.block ++ data).length ≤ _
        rw [List.length_append]
        omega
    · obtain ⟨p₁, hp₁, h⟩ := Option.bind_eq_some_iff.mp h
      have hl₁ : p₁.Loose s 0 := by
        refine Packing.Loose.flushBlock (k := k) (p := { p with
          block := p.block ++ data.take (s.compressionBlockSize - p.block.length) })
          ⟨?_, ?_, hl.peak_le⟩ hp₁
        · show p.entryCount
            ≤ (p.block ++ data.take (s.compressionBlockSize - p.block.length)).length + k
          rw [List.length_append]
          omega
        · show (p.block ++ data.take (s.compressionBlockSize - p.block.length)).length ≤ _
          rw [List.length_append, List.length_take]
          omega
      have := ih hl₁ h
      refine ⟨Nat.le_trans this.entryCount_le ?_, this.block_le, this.peak_le⟩
      omega

theorem Packing.Loose.flushIf {k : Nat} {c : Prop} [Decidable c] (h : p.Loose s k)
    (hf : (if c then p.flushBlock s else some p) = some p') : p'.Loose s k := by
  split_ifs at hf
  · have := h.flushBlock hf
    exact ⟨Nat.le_trans this.entryCount_le (Nat.le_add_right _ _), this.block_le, this.peak_le⟩
  · cases hf
    exact h

theorem Packing.Loose.add (hl : p.Loose s 0) (h : p.add s e = some p') : p'.Loose s 0 := by
  rw [Packing.add] at h
  split_ifs at h with hu
  · obtain ⟨p₁, h₁, hr₁⟩ := Option.bind_eq_some_iff.mp h
    obtain ⟨p₂, h₂, hr₂⟩ := Option.bind_eq_some_iff.mp hr₁
    obtain ⟨p₃, h₃, hr₃⟩ := Option.bind_eq_some_iff.mp hr₂
    obtain ⟨p₄, h₄, hr₄⟩ := Option.bind_eq_some_iff.mp hr₃
    obtain ⟨p₅, h₅, hend⟩ := Option.bind_eq_some_iff.mp hr₄
    have hl₁ := hl.flushIf h₁
    have hl₁' : p₁.enter.Loose s 1 := by
      have h1 := hl₁.entryCount_le
      have h2 := hl₁.block_le
      have h3 := hl₁.peak_le
      refine ⟨Nat.succ_le_succ h1, h2, ?_⟩
      show max p₁.maxEntriesPerBlock (p₁.entryCount + 1) ≤ _
      unfold Packing.peak at h3
      omega
    have hl₂ := hl₁'.fillLoop _ h₂
    rw [Nat.sub_eq_zero_of_le (length_writeVlq_pos e.num1)] at hl₂
    have hl₃ := hl₂.fillLoop _ h₃
    rw [Nat.zero_sub] at hl₃
    have hl₄ := hl₃.fillLoop _ h₄
    rw [Nat.zero_sub] at hl₄
    have hl₅ := hl₄.fillLoop _ h₅
    rw [Nat.zero_sub] at hl₅
    exact hl₅.flushIf hend
  · cases h
    exact ⟨hl.entryCount_le, hl.block_le, hl.peak_le⟩

theorem Packing.Loose.flush (hl : p.Loose s 0) (h : p.flush s = some p') : p'.Loose s 0 :=
  hl.flushIf h

omit [Compressors] in
theorem Packing.Loose.reopen (hl : p.Loose s 0) : p.reopen.Loose s 0 := by
  refine ⟨Nat.zero_le _, hl.block_le, Nat.le_trans ?_ hl.peak_le⟩
  exact Nat.max_le.mpr ⟨Nat.le_max_left _ _, Nat.zero_le _⟩

/-! ### The entries of a packing -/

def plainDraft (out : List UInt8) : Draft UInt8 := ⟨[], .start 0 [] logHeaderSize, out, 0⟩

def Packing.Spelled (s : Setting) (p : Packing) (items : List (Item Entry)) : Prop :=
  if usesCompressor s.compressionType then
    ∃ d, Laid s p d ∧ Spells false d items ∧ 2 * p.entryCount ≤ p.block.length ∧
      p.peak = maxStarts items ∧ 2 * p.peak ≤ s.compressionBlockSize
  else p.block = [] ∧ p.peak = 0 ∧ Spells true (plainDraft p.out) items

theorem spelled_init (s : Setting) : Packing.init.Spelled s [] := by
  unfold Packing.Spelled
  split_ifs
  · exact ⟨Draft.init logHeaderSize, ⟨rfl, rfl, rfl, nofun, Nat.zero_le _, Draft.tidy_init _ _⟩,
      Draft.spells_init, Nat.zero_le _, rfl, Nat.zero_le _⟩
  · exact ⟨rfl, rfl, Draft.spells_init⟩

/-- An entry has at least two bytes in its block, so a block has not too many. -/
theorem Packing.Spelled.peak_le (h : p.Spelled s items) : 2 * p.peak ≤ s.compressionBlockSize := by
  unfold Packing.Spelled at h
  split_ifs at h
  · obtain ⟨d, -, -, -, -, hle⟩ := h
    exact hle
  · rw [h.2.1]
    exact Nat.zero_le _

/-- **Adding an entry** adds it to the entries of the log. -/
theorem Packing.Spelled.add (hh : HeadFits s e) (hsp : p.Spelled s items) (h : p.add s e = some p') :
    ∃ it, it.val = e ∧ p'.Spelled s (items ++ [it]) := by
  unfold Packing.Spelled at hsp ⊢
  by_cases hu : usesCompressor s.compressionType = true
  · simp only [if_pos hu] at hsp ⊢
    obtain ⟨d, hl, hsp, hc, hpeak, hle⟩ := hsp
    obtain ⟨d', it, hit, hl', hsp', hc', hpeak', hidx⟩ := hl.add hu (hh hu) hsp hc h
    exact ⟨it, hit, d', hl', hsp', hc', by rw [hpeak', hpeak, maxStarts_append], by omega⟩
  · simp only [if_neg hu] at hsp ⊢
    obtain ⟨hblock, hpeak, hsp⟩ := hsp
    rw [Packing.add, if_neg hu] at h
    cases h
    have htidy : (plainDraft p.out).Tidy true := ⟨rfl, fun _ => rfl, fun _ => rfl⟩
    have hpend := (hsp.begin htidy e.header_ne_nil).add
      (htidy.enter e.header_ne_nil) e.body (fun h0 => absurd (List.append_eq_nil_iff.mp h0).2 e.header_ne_nil)
    have hfin := hpend.finish ((htidy.enter e.header_ne_nil).add e.body) nofun
    have hdraft : ((plainDraft p.out).enter true e.header).add e.body
        = plainDraft (p.out ++ e.bytes) := by
      unfold plainDraft Draft.enter Draft.add Entry.bytes
      simp
    rw [hdraft] at hfin
    exact ⟨_, rfl, hblock, hpeak, hfin⟩

theorem Packing.Spelled.flush (hsp : p.Spelled s items) (h : p.flush s = some p') :
    p'.Spelled s items ∧ p'.block = [] := by
  unfold Packing.flush at h
  split_ifs at h with hused
  · unfold Packing.Spelled at hsp ⊢
    by_cases hu : usesCompressor s.compressionType = true
    · simp only [if_pos hu] at hsp ⊢
      obtain ⟨d, hl, hsp, hc, hpeak, hle⟩ := hsp
      have hne : d.data ≠ [] := by
        rw [hl.data]
        exact List.length_pos_iff.mp hused
      obtain ⟨q, hl'⟩ := hl.flushBlock h
      have hpeak' := Packing.peak_flushBlock h
      obtain ⟨compressed, -, rfl⟩ := Packing.flushBlock_eq h
      exact ⟨⟨d.close q, hl', hsp.close hne q, Nat.zero_le _, hpeak'.trans hpeak, by omega⟩, rfl⟩
    · simp only [if_neg hu] at hsp
      rw [hsp.1] at hused
      exact absurd hused (Nat.lt_irrefl 0)
  · cases h
    exact ⟨hsp, List.eq_nil_of_length_eq_zero (by omega)⟩

theorem Packing.Spelled.reopen (h : p.Spelled s items) (hb : p.block = []) :
    p.reopen.Spelled s items := by
  unfold Packing.Spelled at h ⊢
  by_cases hu : usesCompressor s.compressionType = true
  · simp only [if_pos hu] at h ⊢
    obtain ⟨d, hl, hsp, hc, hpeak, hle⟩ := h
    rw [hb, List.length_nil] at hc
    have h0 : p.entryCount = 0 := by omega
    have hpeak' : p.reopen.peak = p.peak := by
      rw [Packing.reopen, Packing.peak, Packing.peak, h0]
    exact ⟨d, ⟨hl.data, hl.idx.trans h0, hl.next, hl.blocks, hl.room, hl.tidy⟩, hsp, Nat.zero_le _,
      hpeak'.trans hpeak, by rw [hpeak']; exact hle⟩
  · simp only [if_neg hu] at h ⊢
    obtain ⟨-, hpeak, hsp⟩ := h
    refine ⟨hb, ?_, hsp⟩
    show max p.maxEntriesPerBlock 0 = 0
    unfold Packing.peak at hpeak
    omega

/-- **What a call adds** to the entries of the log. -/
theorem Packing.Spelled.call {c : Call} (hfit : ∀ e ∈ c.entry?, HeadFits s e)
    (hsp : p.Spelled s items) (h : p.call s c = some p') :
    ∃ new, p'.Spelled s (items ++ new) ∧ new.map Item.val = c.entry?.toList := by
  cases c with
  | add e =>
    obtain ⟨it, hit, hsp'⟩ := hsp.add (hfit e rfl) h
    exact ⟨[it], hsp', by rw [List.map_singleton, hit]; rfl⟩
  | flush => exact ⟨[], by rw [List.append_nil]; exact (hsp.flush h).1, rfl⟩
  | reopen =>
    obtain ⟨p₂, hp₂, rfl⟩ := Option.map_eq_some_iff.mp h
    obtain ⟨hsp', hb⟩ := hsp.flush hp₂
    exact ⟨[], by rw [List.append_nil]; exact hsp'.reopen hb, rfl⟩

/-- **More calls** add their entries, in order, behind those that are there. -/
theorem Packing.Spelled.calls : ∀ {calls : List Call} {p : Packing} {items : List (Item Entry)},
    (∀ e ∈ entriesOf calls, HeadFits s e) → p.Spelled s items → p.calls s calls = some p' →
    ∃ new, p'.Spelled s (items ++ new) ∧ new.map Item.val = entriesOf calls := by
  intro calls
  induction calls with
  | nil =>
    intro p items _ hsp h
    cases h
    exact ⟨[], by rwa [List.append_nil], rfl⟩
  | cons c calls ih =>
    intro p items hfit hsp h
    rw [Packing.calls_cons] at h
    obtain ⟨p₁, hp₁, h⟩ := Option.bind_eq_some_iff.mp h
    have hentries : entriesOf (c :: calls) = c.entry?.toList ++ entriesOf calls := by
      cases hc : c.entry? <;> simp [entriesOf, hc]
    rw [hentries] at hfit ⊢
    obtain ⟨new, hsp₁, hvals⟩ := hsp.call
      (fun e he => hfit e (List.mem_append_left _ (by simpa using he))) hp₁
    obtain ⟨new', hsp', hvals'⟩ := ih (fun e he => hfit e (List.mem_append_right _ he)) hsp₁ h
    exact ⟨new ++ new', by rwa [← List.append_assoc], by rw [List.map_append, hvals, hvals']⟩

/-- **The entries of the log** are those the calls added, in order. -/
theorem spelled_pack {calls : List Call} (hfit : ∀ e ∈ entriesOf calls, HeadFits s e)
    (h : pack s calls = some p) : ∃ items, p.Spelled s items ∧ items.map Item.val = entriesOf calls :=
  (spelled_init s).calls hfit h

/-! ### What stays -/

structure Packing.Grows (p p' : Packing) : Prop where
  out : p.out <+: p'.out
  maxEntriesPerBlock : p.maxEntriesPerBlock ≤ p'.maxEntriesPerBlock

omit [Compressors] in
theorem Packing.Grows.refl (p : Packing) : p.Grows p := ⟨List.prefix_refl _, Nat.le_refl _⟩

omit [Compressors] in
theorem Packing.Grows.trans {p'' : Packing} (h : p.Grows p') (h' : p'.Grows p'') : p.Grows p'' :=
  ⟨h.out.trans h'.out, Nat.le_trans h.maxEntriesPerBlock h'.maxEntriesPerBlock⟩

theorem Packing.grows_flushBlock (h : p.flushBlock s = some p') : p.Grows p' := by
  obtain ⟨compressed, -, rfl⟩ := Packing.flushBlock_eq h
  exact ⟨List.prefix_append _ _, Nat.le_max_left _ _⟩

theorem Packing.grows_fillLoop : ∀ (fuel : Nat) {data : List UInt8} {p p' : Packing},
    Packing.fillLoop s fuel data p = some p' → p.Grows p' := by
  intro fuel
  induction fuel with
  | zero => exact nofun
  | succ fuel ih =>
    intro data p p' h
    rw [Packing.fillLoop] at h
    split_ifs at h
    · cases h
      exact ⟨List.prefix_refl _, Nat.le_refl _⟩
    · obtain ⟨p₁, hp₁, h⟩ := Option.bind_eq_some_iff.mp h
      obtain ⟨hout, hmax⟩ := Packing.grows_flushBlock hp₁
      exact Packing.Grows.trans ⟨hout, hmax⟩ (ih h)

theorem Packing.grows_flushIf {c : Prop} [Decidable c]
    (h : (if c then p.flushBlock s else some p) = some p') : p.Grows p' := by
  split_ifs at h
  · exact Packing.grows_flushBlock h
  · cases h
    exact .refl _

theorem Packing.grows_add (h : p.add s e = some p') : p.Grows p' := by
  rw [Packing.add] at h
  split_ifs at h
  · obtain ⟨p₁, h₁, hr₁⟩ := Option.bind_eq_some_iff.mp h
    obtain ⟨p₂, h₂, hr₂⟩ := Option.bind_eq_some_iff.mp hr₁
    obtain ⟨p₃, h₃, hr₃⟩ := Option.bind_eq_some_iff.mp hr₂
    obtain ⟨p₄, h₄, hr₄⟩ := Option.bind_eq_some_iff.mp hr₃
    obtain ⟨p₅, h₅, hend⟩ := Option.bind_eq_some_iff.mp hr₄
    have henter : p₁.Grows p₁.enter := ⟨List.prefix_refl _, Nat.le_refl _⟩
    have hfill := (Packing.grows_fillLoop _ h₂).trans ((Packing.grows_fillLoop _ h₃).trans
      ((Packing.grows_fillLoop _ h₄).trans (Packing.grows_fillLoop _ h₅)))
    exact (Packing.grows_flushIf h₁).trans (henter.trans (hfill.trans (Packing.grows_flushIf hend)))
  · cases h
    exact ⟨List.prefix_append _ _, Nat.le_refl _⟩

/-- **A call leaves the bytes of the log as they are.** -/
theorem Packing.grows_call {c : Call} (h : p.call s c = some p') : p.Grows p' := by
  cases c with
  | add e => exact Packing.grows_add h
  | flush => exact Packing.grows_flushIf h
  | reopen =>
    obtain ⟨p₂, hp₂, rfl⟩ := Option.map_eq_some_iff.mp h
    obtain ⟨hout, hmax⟩ := Packing.grows_flushIf hp₂
    exact ⟨hout, hmax⟩

theorem Packing.grows_calls : ∀ {calls : List Call} {p : Packing}, p.calls s calls = some p' →
    p.Grows p' := by
  intro calls
  induction calls with
  | nil =>
    intro p h
    cases h
    exact .refl _
  | cons c calls ih =>
    intro p h
    rw [Packing.calls_cons] at h
    obtain ⟨p₁, hp₁, h⟩ := Option.bind_eq_some_iff.mp h
    exact (Packing.grows_call hp₁).trans (ih h)

end Steps

end Sparkey
