import Sparkey.Entry
import Sparkey.Lib.BlockStream
import Sparkey.Logreader

/-!
# An iterator in the blocks of its log

The mapped log is a file of blocks (`Logreader.source`), and an iterator stands at
a cursor in it: `At log iter c n`.  Its block cache, with the position that tells
whether `seekblock` has anything to do, is part of that.  The number of the entry
it keeps may be out of date while the block is going to be left anyway, within
the next `n` bytes.

`ensure_available` goes to the next block when the current one is used up, and
`skip` reads on by a number of bytes.
-/

namespace Sparkey

open Program BlockStream

/-- A reader as `sparkey_logreader_open` leaves it. -/
structure Logreader.Opened (log : Logreader) : Prop where
  openStatus : log.openStatus = magicValueLogreader
  dataLen : log.dataLen = log.header.dataEnd
  length_data : log.data.length = log.header.dataEnd
  headerSize : log.header.headerSize = logHeaderSize

theorem logreaderOpen_opened {file : Option (List UInt8)} {log : Logreader}
    (h : logreaderOpen file = .ok log) (hs : log.header.headerSize = logHeaderSize) :
    log.Opened := by
  unfold logreaderOpen at h
  cases hl : loadLogheader file with
  | error code =>
    rw [hl] at h
    cases h
  | ok header =>
    simp only [hl] at h
    split_ifs at h with hlen
    cases h
    exact ⟨rfl, rfl, List.length_take_of_le (Nat.le_of_not_lt hlen), hs⟩

structure IterOpen (log : Logreader) (iter : Logiter) : Prop where
  openStatus : iter.openStatus = magicValueLogiter
  fileIdentifier : iter.fileIdentifier = log.header.fileIdentifier

structure SameEntry (iter iter' : Logiter) : Prop where
  openStatus : iter'.openStatus = iter.openStatus
  fileIdentifier : iter'.fileIdentifier = iter.fileIdentifier
  entryBlockPosition : iter'.entryBlockPosition = iter.entryBlockPosition
  entryBlockOffset : iter'.entryBlockOffset = iter.entryBlockOffset
  type : iter'.type = iter.type
  state : iter'.state = iter.state
  keylen : iter'.keylen = iter.keylen
  valuelen : iter'.valuelen = iter.valuelen
  keyRemaining : iter'.keyRemaining = iter.keyRemaining
  valueRemaining : iter'.valueRemaining = iter.valueRemaining

theorem SameEntry.refl (iter : Logiter) : SameEntry iter iter :=
  ⟨rfl, rfl, rfl, rfl, rfl, rfl, rfl, rfl, rfl, rfl⟩

theorem SameEntry.trans {iter iter' iter'' : Logiter} (h : SameEntry iter iter')
    (h' : SameEntry iter' iter'') :
    SameEntry iter iter'' :=
  ⟨h'.openStatus.trans h.openStatus, h'.fileIdentifier.trans h.fileIdentifier,
    h'.entryBlockPosition.trans h.entryBlockPosition, h'.entryBlockOffset.trans h.entryBlockOffset,
    h'.type.trans h.type, h'.state.trans h.state, h'.keylen.trans h.keylen,
    h'.valuelen.trans h.valuelen, h'.keyRemaining.trans h.keyRemaining,
    h'.valueRemaining.trans h.valueRemaining⟩

theorem IterOpen.of_same {log : Logreader} {iter iter' : Logiter} (h : IterOpen log iter)
    (hs : SameEntry iter iter') : IterOpen log iter' :=
  ⟨hs.openStatus.trans h.openStatus, hs.fileIdentifier.trans h.fileIdentifier⟩

theorem run_assertIterOpen {log : Logreader} {iter : Logiter} (hl : log.Opened) (h : IterOpen log iter) :
    (assertIterOpen log).run iter = .ok () iter := by
  have h1 : ¬ log.openStatus ≠ magicValueLogreader := not_not_intro hl.openStatus
  have h2 : ¬ iter.openStatus ≠ magicValueLogiter := not_not_intro h.openStatus
  have h3 : ¬ iter.fileIdentifier ≠ log.header.fileIdentifier := not_not_intro h.fileIdentifier
  simp only [assertIterOpen, EStateM.run_bind, EStateM.run_get, if_neg h1, if_neg h2, if_neg h3,
    EStateM.run_pure]

variable [Compressors]

/-! ### The blocks of a log -/

def Logreader.BlockAt (log : Logreader) (p : Nat) (b : List UInt8) (q : Nat) : Prop :=
  if usesCompressor log.header.compressionType then
    ∃ size pos, readVlq log.data p = some (size, pos) ∧ q = pos + u32 size ∧
      q ≤ log.data.length ∧
      (sparkeyCompressors log.header.compressionType).decompress
        ((log.data.drop pos).take (u32 size)) log.header.compressionBlockSize = .ok b
  else p < log.data.length ∧ b = log.data.drop p ∧ q = log.data.length

theorem Logreader.blockAt_compressed {log : Logreader} {p q : Nat} {b : List UInt8}
    (hc : usesCompressor log.header.compressionType = true) :
    log.BlockAt p b q ↔ ∃ size pos, readVlq log.data p = some (size, pos) ∧ q = pos + u32 size ∧
      q ≤ log.data.length ∧
      (sparkeyCompressors log.header.compressionType).decompress
        ((log.data.drop pos).take (u32 size)) log.header.compressionBlockSize = .ok b := by
  unfold Logreader.BlockAt
  rw [if_pos hc]

theorem Logreader.blockAt_plain {log : Logreader} {p q : Nat} {b : List UInt8}
    (hc : usesCompressor log.header.compressionType = false) :
    log.BlockAt p b q ↔ p < log.data.length ∧ b = log.data.drop p ∧ q = log.data.length := by
  unfold Logreader.BlockAt
  rw [if_neg (by rw [hc]; decide)]

/-- The mapped log as a file of blocks.  Without compression it is one run of bytes. -/
def Logreader.source (log : Logreader) : Source UInt8 where
  block := log.BlockAt
  stop := log.data.length
  moves := !usesCompressor log.header.compressionType
  block_det := by
    intro p b q b' q' h h'
    cases hc : usesCompressor log.header.compressionType with
    | false =>
      obtain ⟨-, rfl, rfl⟩ := (Logreader.blockAt_plain hc).mp h
      obtain ⟨-, rfl, rfl⟩ := (Logreader.blockAt_plain hc).mp h'
      exact ⟨rfl, rfl⟩
    | true =>
      obtain ⟨size, pos, hread, rfl, -, hdec⟩ := (Logreader.blockAt_compressed hc).mp h
      obtain ⟨size', pos', hread', rfl, -, hdec'⟩ := (Logreader.blockAt_compressed hc).mp h'
      rw [hread] at hread'
      cases hread'
      rw [hdec] at hdec'
      cases hdec'
      exact ⟨rfl, rfl⟩
  block_lt := by
    intro p b q h
    cases hc : usesCompressor log.header.compressionType with
    | false =>
      obtain ⟨hlt, -, rfl⟩ := (Logreader.blockAt_plain hc).mp h
      exact hlt
    | true =>
      obtain ⟨size, pos, hread, rfl, -, -⟩ := (Logreader.blockAt_compressed hc).mp h
      exact Nat.lt_add_right _ (readVlq_lt hread)
  block_le := by
    intro p b q h
    cases hc : usesCompressor log.header.compressionType with
    | false =>
      obtain ⟨-, -, rfl⟩ := (Logreader.blockAt_plain hc).mp h
      exact Nat.le_refl _
    | true =>
      obtain ⟨size, pos, -, rfl, hle, -⟩ := (Logreader.blockAt_compressed hc).mp h
      exact hle
  block_moves := by
    intro p b q hm h
    obtain ⟨hlt, rfl, rfl⟩ := (Logreader.blockAt_plain (by simpa using hm)).mp h
    rw [List.length_drop]
    omega
  block_drop := by
    intro p b q k hm h hk
    have hc : usesCompressor log.header.compressionType = false := by simpa using hm
    obtain ⟨hlt, rfl, rfl⟩ := (Logreader.blockAt_plain hc).mp h
    rw [List.length_drop] at hk
    refine (Logreader.blockAt_plain hc).mpr ⟨by omega, ?_, rfl⟩
    rw [List.drop_drop]

@[simp] theorem Logreader.block_source {log : Logreader} {p q : Nat} {b : List UInt8} :
    log.source.block p b q ↔ log.BlockAt p b q := Iff.rfl

@[simp] theorem Logreader.stop_source {log : Logreader} : log.source.stop = log.data.length := rfl

theorem Logreader.moves_iff {log : Logreader} :
    log.source.moves = true ↔ log.header.compressionType = .none := by
  show (!usesCompressor log.header.compressionType) = true ↔ _
  cases log.header.compressionType <;> decide

/-! ### Where an iterator stands -/

/-- The block the iterator says it has, it has. -/
def Cached (log : Logreader) (iter : Logiter) : Prop :=
  iter.blockPosition = 0 ∧ iter.blockLen = 0 ∨
    iter.blockLen ≤ iter.compressionBuf.length ∧
      log.BlockAt iter.blockPosition (iter.compressionBuf.take iter.blockLen) iter.nextBlockPosition

/-- The iterator stands at `c`, and from `n` bytes on its entry number is that of `c`. -/
structure At (log : Logreader) (iter : Logiter) (c : Cursor UInt8) (n : Nat) : Prop where
  iterOpen : IterOpen log iter
  cached : Cached log iter
  offset : iter.blockOffset ≤ iter.blockLen
  cur : c.cur = (iter.compressionBuf.take iter.blockLen).drop iter.blockOffset
  next : c.next = iter.nextBlockPosition
  next_ne_zero : c.next ≠ 0
  pos_ne_zero : c.cur ≠ [] → c.pos ≠ 0
  pos : c.cur ≠ [] → c.pos = if log.source.moves then iter.blockPosition + iter.blockOffset
    else iter.blockPosition
  count : c.cur.length ≤ n ∨ if log.source.moves then c.idx = 0 else iter.entryCount + 1 = c.idx

variable {log : Logreader} {iter iter' : Logiter} {c c' : Cursor UInt8} {n : Nat}

/-- `At` speaks of the place alone, so other fields may change. -/
theorem At.congr (h : At log iter c n) (ho : iter'.openStatus = iter.openStatus)
    (hf : iter'.fileIdentifier = iter.fileIdentifier)
    (hbp : iter'.blockPosition = iter.blockPosition)
    (hnb : iter'.nextBlockPosition = iter.nextBlockPosition)
    (hbo : iter'.blockOffset = iter.blockOffset) (hbl : iter'.blockLen = iter.blockLen)
    (hec : iter'.entryCount = iter.entryCount)
    (hcb : iter'.compressionBuf = iter.compressionBuf) : At log iter' c n := by
  obtain ⟨⟨h1, h2⟩, h3, h4, h5, h6, h0, h0', h7, h8⟩ := h
  refine ⟨⟨ho.trans h1, hf.trans h2⟩, ?_, ?_, ?_, ?_, h0, h0', ?_, ?_⟩
  · unfold Cached
    rw [hbp, hbl, hcb, hnb]
    exact h3
  · rw [hbo, hbl]
    exact h4
  · rw [hcb, hbl, hbo]
    exact h5
  · rw [hnb]
    exact h6
  · rw [hbp, hbo]
    exact h7
  · rw [hec]
    exact h8

theorem Cached.le (h : Cached log iter) : iter.blockLen ≤ iter.compressionBuf.length := by
  rcases h with ⟨-, h⟩ | ⟨h, -⟩
  · rw [h]
    exact Nat.zero_le _
  · exact h

theorem At.length_cur (h : At log iter c n) : c.cur.length = iter.blockLen - iter.blockOffset := by
  rw [h.cur, List.length_drop, List.length_take_of_le h.cached.le]

theorem At.cur_eq_nil (h : At log iter c n) : c.cur = [] ↔ iter.blockLen ≤ iter.blockOffset := by
  rw [← List.length_eq_zero_iff, h.length_cur]
  omega

theorem At.loaded (h : At log iter c n) (hne : c.cur ≠ []) :
    log.BlockAt iter.blockPosition (iter.compressionBuf.take iter.blockLen)
      iter.nextBlockPosition := by
  rcases h.cached with ⟨-, h0⟩ | ⟨-, hb⟩
  · refine absurd (h.cur_eq_nil.mpr ?_) hne
    rw [h0]
    exact Nat.zero_le _
  · exact hb

theorem At.mono (h : At log iter c n) {m : Nat} (hle : n ≤ m) : At log iter c m :=
  { h with count := h.count.imp_left fun hn => Nat.le_trans hn hle }

theorem At.advance (h : At log iter c n) {k : Nat} (hk : k ≤ c.cur.length) :
    At log { iter with blockOffset := iter.blockOffset + k } (c.move log.source k) (n - k) := by
  have hlen := h.length_cur
  have hoff := h.offset
  have hne_of : (c.cur.drop k) ≠ [] → c.cur ≠ [] := by
    rintro hne h0
    rw [h0, List.drop_nil] at hne
    exact hne rfl
  refine ⟨⟨h.iterOpen.1, h.iterOpen.2⟩, h.cached, ?_, ?_, h.next, h.next_ne_zero, ?_, ?_, ?_⟩
  · show iter.blockOffset + k ≤ iter.blockLen
    omega
  · rw [cur_move, h.cur, List.drop_drop]
  · intro hne
    have hpos := h.pos_ne_zero (hne_of hne)
    show (if log.source.moves then c.pos + k else c.pos) ≠ 0
    split_ifs <;> omega
  · intro hne
    have hpos := h.pos (hne_of hne)
    show (if log.source.moves then c.pos + k else c.pos)
      = if log.source.moves then iter.blockPosition + (iter.blockOffset + k) else iter.blockPosition
    split_ifs at hpos ⊢ <;> omega
  · rw [cur_move, List.length_drop, idx_move]
    rcases h.count with hn | hm
    · left
      omega
    · exact Or.inr hm

/-! ### Loading a block -/

structure Seeked (log : Logreader) (iter iter' : Logiter) (p : Nat) (b : List UInt8) (q : Nat) :
    Prop extends SameEntry iter iter' where
  blockAt : log.BlockAt p b q
  pos_ne_zero : p ≠ 0
  blockPosition : iter'.blockPosition = p
  nextBlockPosition : iter'.nextBlockPosition = q
  blockOffset : iter'.blockOffset = 0
  blockLen : iter'.blockLen = b.length
  take : iter'.compressionBuf.take b.length = b
  length_le : b.length ≤ iter'.compressionBuf.length
  entryCount : iter'.entryCount = iter.entryCount

theorem Seeked.cached {p q : Nat} {b : List UInt8} (h : Seeked log iter iter' p b q) :
    Cached log iter' := by
  right
  rw [h.blockLen, h.take, h.blockPosition, h.nextBlockPosition]
  exact ⟨h.length_le, h.blockAt⟩

/-- **`seekblock` goes to the start of a block**, from the cache or by loading it. -/
theorem run_seekblock (hl : log.Opened) {p q : Nat} {b : List UInt8} (hb : log.BlockAt p b q)
    (hp : p ≠ 0) (hc : Cached log iter) :
    ∃ iter', (seekblock log p).run iter = .ok () iter' ∧ Seeked log iter iter' p b q := by
  simp only [seekblock, EStateM.run_bind, EStateM.run_modify, EStateM.run_get, run_ite]
  by_cases hcache : iter.blockPosition = p
  · -- the block is in the cache
    rw [if_pos hcache]
    rcases hc with ⟨h0, -⟩ | ⟨hle, hload⟩
    · exact absurd (hcache.symm.trans h0) hp
    · rw [hcache] at hload
      obtain ⟨rfl, rfl⟩ := log.source.block_det hb hload
      have hlen := List.length_take_of_le hle
      refine ⟨{ iter with blockOffset := 0 }, rfl, ⟨rfl, rfl, rfl, rfl, rfl, rfl, rfl, rfl, rfl, rfl⟩,
        hb, hp, hcache, rfl, rfl, hlen.symm, ?_, ?_, rfl⟩
      · rw [hlen]
      · rw [hlen]
        exact hle
  · rw [if_neg hcache]
    cases hu : usesCompressor log.header.compressionType with
    | true =>
      obtain ⟨size, pos, hread, rfl, hle, hdec⟩ := (Logreader.blockAt_compressed hu).mp hb
      simp only [hread, if_true, if_neg (Nat.not_lt_of_le hle), hdec,
        EStateM.run_set]
      refine ⟨_, rfl, ⟨rfl, rfl, rfl, rfl, rfl, rfl, rfl, rfl, rfl, rfl⟩, hb, hp, rfl, rfl, rfl,
        rfl, List.take_left, ?_, rfl⟩
      show b.length ≤ (b ++ iter.compressionBuf.drop b.length).length
      rw [List.length_append]
      exact Nat.le_add_right _ _
    | false =>
      obtain ⟨hlt, rfl, rfl⟩ := (Logreader.blockAt_plain hu).mp hb
      have hlen : log.data.length - p = (log.data.drop p).length := List.length_drop.symm
      have hdl := hl.dataLen.trans hl.length_data.symm
      simp only [Bool.false_eq_true, if_false, hdl, if_neg (Nat.not_lt_of_lt hlt),
        EStateM.run_set]
      exact ⟨_, rfl, ⟨rfl, rfl, rfl, rfl, rfl, rfl, rfl, rfl, rfl, rfl⟩, hb, hp, rfl,
        hl.length_data.symm, rfl, hlen, List.take_length, Nat.le_refl _, rfl⟩

/-- At the start of a block, with a number that is right or does not matter. -/
theorem Seeked.at {p q : Nat} {b : List UInt8} (h : Seeked log iter iter' p b q)
    (ho : IterOpen log iter) (hcount : b.length ≤ n ∨ log.source.moves = true ∨
      iter.entryCount = -1) : At log iter' (.start p b q) n := by
  refine ⟨ho.of_same h.toSameEntry, h.cached, ?_, ?_, ?_, ?_, fun _ => h.pos_ne_zero, ?_, ?_⟩
  · rw [h.blockOffset]
    exact Nat.zero_le _
  · rw [h.blockLen, h.blockOffset, h.take, List.drop_zero]
  · exact h.nextBlockPosition.symm
  · exact Nat.ne_zero_of_lt (log.source.block_lt h.blockAt)
  · intro _
    rw [h.blockPosition, h.blockOffset, Nat.add_zero, ite_self]
  · rw [h.entryCount]
    rcases hcount with hle | hm | hec
    · exact Or.inl hle
    · right
      rw [if_pos hm]
    · right
      rw [hec]
      split_ifs <;> rfl

/-! ### `ensure_available` and `skip` -/

theorem run_ensureAvailable_here (h : At log iter c n) (hne : c.cur ≠ []) :
    (ensureAvailable log).run iter = .ok () iter := by
  have hlt : iter.blockOffset < iter.blockLen := by
    rw [Ne, h.cur_eq_nil] at hne
    omega
  simp only [ensureAvailable, EStateM.run_bind, EStateM.run_get, run_ite]
  rw [if_pos hlt]
  rfl

theorem run_ensureAvailable_block (hl : log.Opened) (h : At log iter c n) (hc : c.cur = [])
    {q : Nat} {b : List UInt8} (hb : log.BlockAt c.next b q) :
    ∃ iter', (ensureAvailable log).run iter = .ok () iter' ∧ At log iter' (.start c.next b q) 0 ∧
      SameEntry iter iter' := by
  have hnot : ¬ iter.blockOffset < iter.blockLen := Nat.not_lt_of_le (h.cur_eq_nil.mp hc)
  have hlt : ¬ log.header.dataEnd ≤ iter.nextBlockPosition := by
    have h1 := log.source.block_lt hb
    have h2 : _ ≤ log.data.length := log.source.block_le hb
    rw [hl.length_data] at h2
    rw [← h.next]
    omega
  have hnext := h.next_ne_zero
  rw [h.next] at hb hnext ⊢
  obtain ⟨iter₁, hrun, hs⟩ := run_seekblock hl hb hnext h.cached
  simp only [ensureAvailable, EStateM.run_bind, EStateM.run_get, if_neg hnot, if_neg hlt,
    hrun, EStateM.run_modify]
  refine ⟨_, rfl, ?_, ?_⟩
  · have hat : At log iter₁ (.start iter.nextBlockPosition b q) b.length :=
      hs.at h.iterOpen (Or.inl (Nat.le_refl _))
    exact ⟨⟨hat.iterOpen.1, hat.iterOpen.2⟩, hat.cached, hat.offset, hat.cur, hat.next, hat.next_ne_zero,
      hat.pos_ne_zero, hat.pos, by simp⟩
  · exact ⟨hs.openStatus, hs.fileIdentifier, hs.entryBlockPosition, hs.entryBlockOffset, hs.type,
      hs.state, hs.keylen, hs.valuelen, hs.keyRemaining, hs.valueRemaining⟩

theorem run_ensureAvailable_end (hl : log.Opened) (h : At log iter c n) (hc : c.cur = [])
    (hend : c.next = log.source.stop) :
    ∃ iter', (ensureAvailable log).run iter = .ok () iter' ∧ At log iter' c n ∧
      SameEntry iter iter' ∧ iter'.blockLen - iter'.blockOffset = 0 := by
  have hnot : ¬ iter.blockOffset < iter.blockLen := Nat.not_lt_of_le (h.cur_eq_nil.mp hc)
  have hle : log.header.dataEnd ≤ iter.nextBlockPosition := by
    rw [← h.next, hend, Logreader.stop_source, hl.length_data]
  simp only [ensureAvailable, EStateM.run_bind, EStateM.run_get, if_neg hnot, if_pos hle,
    EStateM.run_set]
  refine ⟨_, rfl, ⟨⟨h.iterOpen.1, h.iterOpen.2⟩, Or.inl ⟨rfl, rfl⟩, Nat.le_refl _, ?_, h.next,
    h.next_ne_zero, h.pos_ne_zero, ?_, ?_⟩,
    ⟨rfl, rfl, rfl, rfl, rfl, rfl, rfl, rfl, rfl, rfl⟩, rfl⟩
  · simpa using hc
  · intro hne
    exact absurd hc hne
  · left
    simp [hc]

/-- A round of the loop of `skip` in a block with something left. -/
theorem run_skipLoop_round {fuel len : Nat} (h : At log iter c n) (hne : c.cur ≠ [])
    (hlen : len ≠ 0) :
    (skipLoop log (fuel + 1) len).run iter
      = (skipLoop log fuel (len - min len c.cur.length)).run
          { iter with blockOffset := iter.blockOffset + min len c.cur.length } := by
  rw [h.length_cur]
  simp only [skipLoop, EStateM.run_bind, EStateM.run_get, if_neg hlen,
    run_ensureAvailable_here h hne, EStateM.run_set]

theorem run_skipLoop (hl : log.Opened) : ∀ (fuel : Nat) {xs : List UInt8} {c c' : Cursor UInt8}
    {n : Nat} {iter : Logiter}, xs.length ≤ fuel → xs.length ≤ n → At log iter c n →
    Reads log.source c xs c' →
    ∃ iter', (skipLoop log fuel xs.length).run iter = .ok () iter' ∧
      At log iter' c' (n - xs.length) ∧ SameEntry iter iter' := by
  intro fuel
  induction fuel with
  | zero =>
    intro xs c c' n iter hf hn hat hr
    obtain rfl : xs = [] := List.length_eq_zero_iff.mp (Nat.le_zero.mp hf)
    cases hr
    exact ⟨iter, rfl, hat, .refl iter⟩
  | succ fuel ih =>
    intro xs c c' n iter hf hn hat hr
    by_cases hxs : xs = []
    · subst hxs
      cases hr
      exact ⟨iter, rfl, hat, .refl iter⟩
    have hlen : xs.length ≠ 0 := fun h0 => hxs (List.length_eq_zero_iff.mp h0)
    -- a round in a block with something left
    have hround : ∀ {c : Cursor UInt8} {iter : Logiter}, c.cur ≠ [] →
        At log iter c n → Reads log.source c xs c' →
        ∃ iter', (skipLoop log (fuel + 1) xs.length).run iter = .ok () iter' ∧
          At log iter' c' (n - xs.length) ∧ SameEntry iter iter' := by
      intro c iter hne hat hr
      rw [run_skipLoop_round hat hne hlen]
      have hpos : 0 < c.cur.length := List.length_pos_iff.mpr hne
      have hm : min xs.length c.cur.length ≤ c.cur.length := Nat.min_le_right _ _
      obtain ⟨-, hr'⟩ := hr.split hm (Nat.min_le_left _ _)
      have hdrop : (xs.drop (min xs.length c.cur.length)).length
          = xs.length - min xs.length c.cur.length := List.length_drop
      have hfuel : (xs.drop (min xs.length c.cur.length)).length ≤ fuel := by omega
      have hn' : (xs.drop (min xs.length c.cur.length)).length
          ≤ n - min xs.length c.cur.length := by omega
      obtain ⟨iter', hrun, hat', hsame⟩ := ih (c := c.move log.source _) hfuel hn'
        (hat.advance hm) hr'
      rw [hdrop] at hrun hat'
      refine ⟨iter', hrun, ?_, ?_⟩
      · have : n - min xs.length c.cur.length - (xs.length - min xs.length c.cur.length)
            = n - xs.length := by omega
        rwa [this] at hat'
      · exact ⟨hsame.1, hsame.2, hsame.3, hsame.4, hsame.5, hsame.6, hsame.7, hsame.8, hsame.9,
          hsame.10⟩
    by_cases hne : c.cur = []
    · -- the block is used up: the round starts in the next one
      obtain ⟨b, q, hb, hbne, hr'⟩ := hr.cross hne hxs
      obtain ⟨iter₁, hrun₁, hat₁, hsame₁⟩ := run_ensureAvailable_block hl hat hne hb
      obtain ⟨iter', hrun', hat', hsame'⟩ := hround (c := .start c.next b q) hbne
        (hat₁.mono (Nat.zero_le _)) hr'
      refine ⟨iter', ?_, hat', hsame₁.trans hsame'⟩
      rw [← hrun']
      have hhere : (ensureAvailable log).run iter₁ = .ok () iter₁ :=
        run_ensureAvailable_here hat₁ hbne
      simp only [skipLoop, EStateM.run_bind, EStateM.run_get, if_neg hlen, hrun₁, hhere]
    · exact hround hne hat hr

/-- **`skip` reads on** by as many bytes as it is told. -/
theorem run_skip (hl : log.Opened) {xs : List UInt8} (hn : xs.length ≤ n)
    (hat : At log iter c n) (hr : Reads log.source c xs c') :
    ∃ iter', (skip log xs.length).run iter = .ok () iter' ∧ At log iter' c' (n - xs.length) ∧
      SameEntry iter iter' :=
  run_skipLoop hl _ (by omega) hn hat hr

end Sparkey
