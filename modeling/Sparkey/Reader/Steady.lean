import Sparkey.Reader.Seek

/-!
# Iterators after any calls

Whatever functions an iterator has been through, and whatever they answered, as long as
`seek` was told starts of blocks its cache holds a block of the log, and the blocks
behind that are all right (`Steady`).  So it can still be sent to any entry.
-/

namespace Sparkey

open Program BlockStream

variable [Compressors]

/-! ### Starts of blocks -/

/-- From `p` on there are blocks up to the end of the data. -/
inductive Logreader.Chain (log : Logreader) : Nat → Prop
  | stop {p : Nat} : log.header.dataEnd ≤ p → log.Chain p
  | block {p q : Nat} {b : List UInt8} : p ≠ 0 → log.BlockAt p b q → log.Chain q → log.Chain p

/-- A block starts at `p`, and behind it there are blocks up to the end. -/
def Logreader.StartsBlock (log : Logreader) (p : Nat) : Prop :=
  ∃ b q, p ≠ 0 ∧ log.BlockAt p b q ∧ log.Chain q

variable {log : Logreader} {iter iter' : Logiter} {item : Item Entry} {items : List (Item Entry)}
  {c c' c₀ : Cursor UInt8} {key value : List UInt8}

theorem Logreader.Chain.startsBlock {p : Nat} (h : log.Chain p) (hlt : p < log.header.dataEnd) :
    log.StartsBlock p := by
  cases h with
  | stop hle => omega
  | block hp hb hq => exact ⟨_, _, hp, hb, hq⟩

theorem chain_of_reads {xs : List UInt8} (h : Reads log.source c xs c') (h0 : c.next ≠ 0)
    (hc : log.Chain c'.next) : log.Chain c.next := by
  induction h with
  | nil => exact hc
  | cur _ _ ih => exact ih h0 hc
  | block _ hb _ _ ih =>
    exact .block h0 hb (ih (Nat.ne_zero_of_lt (log.source.block_lt hb)) hc)

theorem chain_of_entries (hl : log.Opened) (h : log.Entries c items) (h0 : c.next ≠ 0) :
    log.Chain c.next := by
  induction h with
  | @done c _ hnext =>
    refine .stop ?_
    rw [hnext, Logreader.stop_source, hl.length_data]
  | @cons c c₀ c₁ e tl items ho _ hr _ _ ih =>
    have hopen : c₀.next ≠ 0 → log.Chain c₀.next := fun h0' => by
      have hle : c₀.next ≤ c₁.next := hr.next_le
      exact chain_of_reads (c := c₀.enter log.source e.header.length) hr h0' (ih (by omega))
    cases ho with
    | here _ => exact hopen h0
    | block _ hb _ => exact .block h0 hb (hopen (Nat.ne_zero_of_lt (log.source.block_lt hb)))

theorem Logreader.Holds.startsBlock (hl : log.Holds items) (hit : item ∈ items) :
    log.StartsBlock item.pos := by
  obtain ⟨n, hn⟩ := List.mem_iff_getElem?.mp hit
  obtain ⟨b, q, hb, -, hi⟩ := hl.entries.seek rfl hn
  have hle := hl.le_pos hit
  have h84 : logHeaderSize = 84 := rfl
  exact ⟨b, q, by omega, hb, chain_of_entries hl.toOpened hi (Nat.ne_zero_of_lt (log.source.block_lt hb))⟩

theorem Logreader.Holds.chain (hl : log.Holds items) : log.Chain logHeaderSize :=
  chain_of_entries hl.toOpened hl.entries (show logHeaderSize ≠ 0 by decide)

/-! ### The invariant -/

/-- The cache holds a block of the log, and the blocks that follow are all right. -/
structure Steady (log : Logreader) (iter : Logiter) : Prop extends Usable log iter where
  next : log.Chain iter.nextBlockPosition
  loaded : iter.blockLen ≠ 0 → iter.blockPosition ≠ 0
  entry : iter.state = .active → log.StartsBlock iter.entryBlockPosition

theorem Steady.congr (h : Steady log iter) (ho : iter'.openStatus = iter.openStatus)
    (hf : iter'.fileIdentifier = iter.fileIdentifier)
    (hbp : iter'.blockPosition = iter.blockPosition)
    (hnb : iter'.nextBlockPosition = iter.nextBlockPosition) (hbl : iter'.blockLen = iter.blockLen)
    (hcb : iter'.compressionBuf = iter.compressionBuf)
    (he : iter'.state = .active →
      iter.state = .active ∧ iter'.entryBlockPosition = iter.entryBlockPosition) :
    Steady log iter' := by
  refine ⟨⟨⟨ho.trans h.iterOpen.1, hf.trans h.iterOpen.2⟩, ?_⟩, hnb ▸ h.next, ?_, fun hs => ?_⟩
  · have hc := h.cached
    unfold Cached at hc ⊢
    rwa [hbp, hbl, hcb, hnb]
  · rw [hbl, hbp]
    exact h.loaded
  · rw [(he hs).2]
    exact h.entry (he hs).1

theorem Steady.startsBlock (h : Steady log iter) (hne : iter.blockLen ≠ 0) :
    log.StartsBlock iter.blockPosition := by
  rcases h.cached with ⟨-, h0⟩ | ⟨-, hb⟩
  · exact absurd h0 hne
  · exact ⟨_, _, h.loaded hne, hb, h.next⟩

theorem logiterCreate_steady {unset : Logiter} (hl : log.Opened) (hc : log.Chain logHeaderSize)
    (h : logiterCreate unset log = .ok iter) : Steady log iter := by
  unfold logiterCreate at h
  rw [if_neg (not_not_intro hl.openStatus)] at h
  cases h
  refine ⟨⟨⟨rfl, rfl⟩, Or.inl ⟨rfl, rfl⟩⟩, ?_, fun h => absurd rfl h, nofun⟩
  show log.Chain log.header.headerSize
  rw [hl.headerSize]
  exact hc

/-! ### The functions of the iterator -/

theorem run_assertIterOpen_steady (hl : log.Opened) (h : Steady log iter) :
    (assertIterOpen log).run iter = .ok () iter :=
  run_assertIterOpen hl h.iterOpen

theorem run_seekblock_steady (hl : log.Opened) {p : Nat} (hp : log.StartsBlock p)
    (h : Steady log iter) : ∃ iter', (seekblock log p).run iter = .ok () iter' ∧
      Steady log iter' ∧ SameEntry iter iter' := by
  obtain ⟨b, q, hp0, hb, hq⟩ := hp
  obtain ⟨iter', hrun, hs⟩ := run_seekblock hl hb hp0 h.cached
  refine ⟨iter', hrun, ⟨⟨h.iterOpen.of_same hs.toSameEntry, hs.cached⟩, ?_, ?_, ?_⟩, hs.toSameEntry⟩
  · rw [hs.nextBlockPosition]
    exact hq
  · rw [hs.blockPosition]
    exact fun _ => hp0
  · rw [hs.state, hs.entryBlockPosition]
    exact h.entry

/-- `seek` to the start of a block, or to the end of the data. -/
theorem preserves_logiterSeek (hl : log.Opened) {p : Nat}
    (hp : p = log.header.dataEnd ∨ log.StartsBlock p) :
    Preserves (Steady log) (logiterSeek log p) := by
  intro iter h
  rw [logiterSeek, run_bind_ok (run_assertIterOpen_steady hl h)]
  by_cases hend : p = log.header.dataEnd
  · rw [if_pos hend]
    exact h.congr rfl rfl rfl rfl rfl rfl fun hs => by cases hs
  · rw [if_neg hend]
    obtain ⟨iter₁, hrun, h₁, -⟩ := run_seekblock_steady hl (hp.resolve_left hend) h
    rw [run_bind_ok hrun]
    exact h₁.congr rfl rfl rfl rfl rfl rfl fun hs => by cases hs

theorem run_ensureAvailable_steady (hl : log.Opened) (h : Steady log iter) :
    ∃ iter', (ensureAvailable log).run iter = .ok () iter' ∧ Steady log iter' := by
  rw [ensureAvailable, run_get_bind]
  by_cases hhere : iter.blockOffset < iter.blockLen
  · rw [if_pos hhere]
    exact ⟨iter, rfl, h⟩
  rw [if_neg hhere]
  by_cases hend : log.header.dataEnd ≤ iter.nextBlockPosition
  · rw [if_pos hend]
    exact ⟨_, rfl, ⟨⟨⟨h.iterOpen.1, h.iterOpen.2⟩, Or.inl ⟨rfl, rfl⟩⟩, h.next,
      fun h0 => absurd rfl h0, h.entry⟩⟩
  · rw [if_neg hend]
    obtain ⟨iter₁, hrun, h₁, -⟩ :=
      run_seekblock_steady hl (h.next.startsBlock (Nat.lt_of_not_le hend)) h
    rw [run_bind_ok hrun]
    exact ⟨_, rfl, h₁.congr rfl rfl rfl rfl rfl rfl fun hs => ⟨hs, rfl⟩⟩

theorem preserves_skipLoop (hl : log.Opened) : ∀ fuel len : Nat,
    Preserves (Steady log) (skipLoop log fuel len) := by
  intro fuel
  induction fuel with
  | zero => exact fun len => .ite (preserves_pure _) preserves_stuck
  | succ fuel ih =>
    intro len iter h
    rw [skipLoop]
    by_cases h0 : len = 0
    · rw [if_pos h0]
      exact h
    · obtain ⟨iter₁, hrun, h₁⟩ := run_ensureAvailable_steady hl h
      rw [if_neg h0, run_bind_ok hrun, run_get_bind]
      exact ih _ _ (h₁.congr rfl rfl rfl rfl rfl rfl fun hs => ⟨hs, rfl⟩)

theorem preserves_skip (hl : log.Opened) (len : Nat) : Preserves (Steady log) (skip log len) :=
  preserves_skipLoop hl _ _

theorem leaves_readHead (h : Steady log iter) (hne : iter.blockLen ≠ 0) :
    Leaves (Steady log) (readHead.run iter) := by
  have hstart := h.startsBlock hne
  rw [readHead, run_modify_bind, run_get_bind]
  simp only
  split
  · trivial
  split
  · trivial
  split_ifs
  · exact ⟨⟨⟨h.iterOpen.1, h.iterOpen.2⟩, h.cached⟩, h.next, h.loaded, fun _ => hstart⟩
  · exact ⟨⟨⟨h.iterOpen.1, h.iterOpen.2⟩, h.cached⟩, h.next, h.loaded, fun _ => hstart⟩

theorem Steady.rebase (h : Steady log iter) (hlt : iter.blockOffset < iter.blockLen)
    (hc : log.header.compressionType = .none) :
    Steady log { iter with
      blockPosition := iter.blockPosition + iter.blockOffset
      blockLen := iter.blockLen - iter.blockOffset
      blockOffset := 0
      compressionBuf := log.data.drop (iter.blockPosition + iter.blockOffset)
      entryCount := -1 } := by
  have hplain : usesCompressor log.header.compressionType = false := by
    rw [hc]
    rfl
  obtain ⟨hle, hb⟩ := h.cached.resolve_left fun h0 => by omega
  obtain ⟨hpos, htake, hnext⟩ := (Logreader.blockAt_plain hplain).mp hb
  have hlen := congrArg List.length htake
  rw [List.length_take_of_le hle, List.length_drop] at hlen
  have hbuf : (log.data.drop (iter.blockPosition + iter.blockOffset)).length
      = iter.blockLen - iter.blockOffset := by
    rw [List.length_drop]
    omega
  have hloaded := h.loaded (by omega)
  refine ⟨⟨⟨h.iterOpen.1, h.iterOpen.2⟩, Or.inr ⟨Nat.le_of_eq hbuf.symm, ?_⟩⟩, h.next, ?_, h.entry⟩
  · refine (Logreader.blockAt_plain hplain).mpr ⟨?_, List.take_of_length_le (Nat.le_of_eq hbuf), hnext⟩
    show iter.blockPosition + iter.blockOffset < _
    omega
  · intro _
    show iter.blockPosition + iter.blockOffset ≠ 0
    omega

theorem preserves_readEntry : Preserves (Steady log) (readEntry log) := by
  intro iter h
  rw [readEntry, run_get_bind]
  by_cases hend : iter.blockLen - iter.blockOffset = 0
  · rw [if_pos hend]
    exact h.congr rfl rfl rfl rfl rfl rfl fun hs => by cases hs
  rw [if_neg hend]
  by_cases hc : log.header.compressionType = .none
  · rw [if_pos hc, run_set_bind]
    exact leaves_readHead (h.rebase (by omega) hc) hend
  · rw [if_neg hc]
    exact leaves_readHead h (by omega)

theorem preserves_logiterNext (hl : log.Opened) : Preserves (Steady log) (logiterNext log) := by
  intro iter h
  rw [logiterNext, run_get_bind]
  by_cases hclosed : iter.state = .closed
  · rw [if_pos hclosed]
    exact h
  rw [if_neg hclosed, run_set_bind]
  have h₁ : Steady log { iter with
      state := .invalid, keyRemaining := 0, valueRemaining := 0, keylen := 0, valuelen := 0 } :=
    h.congr rfl rfl rfl rfl rfl rfl fun hs => by cases hs
  rw [run_bind_ok (run_assertIterOpen_steady hl h₁)]
  refine ((preserves_skip hl _).bind fun _ => (preserves_skip hl _).bind fun _ =>
    Preserves.bind (fun iter h => ?_) fun _ => preserves_readEntry) _ h₁
  obtain ⟨iter', hrun, h'⟩ := run_ensureAvailable_steady hl h
  rw [hrun]
  exact h'

theorem preserves_logiterSkip (hl : log.Opened) : ∀ count : Nat,
    Preserves (Steady log) (logiterSkip log count) := by
  intro count
  induction count with
  | zero => exact preserves_pure _
  | succ count ih => exact (preserves_logiterNext hl).bind fun _ => ih

theorem preserves_logiterReset (hl : log.Opened) : Preserves (Steady log) (logiterReset log) := by
  intro iter h
  by_cases hs : iter.state = .active
  · obtain ⟨iter₁, hrun, h₁, -⟩ := run_seekblock_steady hl (h.entry hs) h
    rw [logiterReset, run_get_bind, if_neg (not_not_intro hs), run_bind_ok hrun]
    exact h₁.congr rfl rfl rfl rfl rfl rfl fun hs => ⟨hs, rfl⟩
  · rw [run_logiterReset_inactive hs]
    exact h

theorem preserves_logiterChunk (hl : log.Opened) (maxlen : Nat) (var : Part) :
    Preserves (Steady log) (logiterChunk log maxlen var) := by
  intro iter h
  rw [logiterChunk, run_bind_ok (run_assertIterOpen_steady hl h), run_get_bind]
  by_cases hs : iter.state = .active
  · rw [if_neg (not_not_intro hs)]
    by_cases hrem : 0 < iter.remaining var
    · obtain ⟨iter₁, hrun, h₁⟩ := run_ensureAvailable_steady hl h
      rw [if_pos hrem, run_bind_ok hrun, run_get_bind]
      cases var <;> exact h₁.congr rfl rfl rfl rfl rfl rfl fun hs => ⟨hs, rfl⟩
    · rw [if_neg hrem]
      exact h
  · rw [if_pos hs]
    exact h

theorem preserves_logiterKeychunk (hl : log.Opened) (maxlen : Nat) :
    Preserves (Steady log) (logiterKeychunk log maxlen) :=
  preserves_logiterChunk hl maxlen .key

theorem preserves_logiterValuechunk (hl : log.Opened) (maxlen : Nat) :
    Preserves (Steady log) (logiterValuechunk log maxlen) :=
  .get_bind fun iter h => ((preserves_skip hl iter.keyRemaining).bind fun _ =>
    (preserves_modify fun _ h => h.congr rfl rfl rfl rfl rfl rfl fun hs => ⟨hs, rfl⟩).bind fun _ =>
      preserves_logiterChunk hl maxlen .value) iter h

theorem preserves_fillLoop {chunk : Nat → Run Logiter (List UInt8)}
    (hchunk : ∀ maxlen, Preserves (Steady log) (chunk maxlen)) : ∀ (fuel maxlen : Nat)
    (filled : List UInt8), Preserves (Steady log) (fillLoop chunk fuel maxlen filled) := by
  intro fuel
  induction fuel with
  | zero => exact fun _ _ => .ite (preserves_pure _) preserves_stuck
  | succ fuel ih =>
    intro maxlen filled
    refine .ite (preserves_pure _) ((hchunk maxlen).bind fun res => ?_)
    exact .ite (preserves_pure _) (ih _ _)

theorem preserves_logiterFillKey (hl : log.Opened) (maxlen : Nat) :
    Preserves (Steady log) (logiterFillKey log maxlen) :=
  .get_bind fun iter h => preserves_fillLoop (preserves_logiterKeychunk hl) _ _ _ iter h

theorem preserves_logiterFillValue (hl : log.Opened) (maxlen : Nat) :
    Preserves (Steady log) (logiterFillValue log maxlen) :=
  .get_bind fun iter h => preserves_fillLoop (preserves_logiterValuechunk hl) _ _ _ iter h

/-! ### `sparkey_logiter_keycmp` -/

theorem preserves_refill (hl : log.Opened) (chunk : List UInt8) :
    Preserves (Steady log) (refill log chunk) :=
  .ite (preserves_logiterKeychunk hl _) (preserves_pure _)

abbrev BothSteady (log : Logreader) (iters : Logiter × Logiter) : Prop :=
  Steady log iters.1 ∧ Steady log iters.2

theorem preserves_keycmpLoop (hl : log.Opened) : ∀ (fuel : Nat) (first second : List UInt8),
    Preserves (BothSteady log) (keycmpLoop log fuel first second) := by
  intro fuel
  induction fuel with
  | zero => exact fun _ _ => preserves_stuck
  | succ fuel ih =>
    intro first second
    refine .ite (preserves_pure _) (.ite (preserves_pure _) (.ite (preserves_pure _)
      (.ite (preserves_pure _) ?_)))
    exact (preserves_refill hl _).onFst.bind fun first =>
      (preserves_refill hl _).onSnd.bind fun second => ih first second

theorem preserves_logiterKeycmp (hl : log.Opened) :
    Preserves (BothSteady log) (logiterKeycmp log) :=
  .get_bind fun iters h => ((preserves_logiterKeychunk hl _).onFst.bind fun _ =>
    (preserves_logiterKeychunk hl _).onSnd.bind fun _ => preserves_keycmpLoop hl _ _ _) iters h

/-! ### Any calls -/

omit [Compressors] in
inductive LogCall
  | next
  | skip (count : Nat)
  | seek (position : Nat)
  | reset
  | keychunk (maxlen : Nat)
  | valuechunk (maxlen : Nat)
  | fillKey (maxlen : Nat)
  | fillValue (maxlen : Nat)

def LogCall.program (log : Logreader) : LogCall → Run Logiter (List UInt8)
  | next => do
    logiterNext log
    pure []
  | skip count => do
    logiterSkip log count
    pure []
  | seek position => do
    logiterSeek log position
    pure []
  | reset => do
    logiterReset log
    pure []
  | keychunk maxlen => logiterKeychunk log maxlen
  | valuechunk maxlen => logiterValuechunk log maxlen
  | fillKey maxlen => logiterFillKey log maxlen
  | fillValue maxlen => logiterFillValue log maxlen

/-- The position for `seek` must be the start of a block, or the end of the data. -/
def LogCall.Allowed (log : Logreader) : LogCall → Prop
  | seek position => position = log.header.dataEnd ∨ log.StartsBlock position
  | _ => True

/-- An iterator after any calls, whatever they answered, on which `seek` was told starts of
blocks. -/
inductive Handled (log : Logreader) : Logiter → Prop
  | create {unset iter : Logiter} : logiterCreate unset log = .ok iter → Handled log iter
  | call {iter iter' : Logiter} (c : LogCall) : c.Allowed log → Handled log iter →
      LeadsTo (c.program log) iter iter' → Handled log iter'
  | keycmp₁ {iter₁ iter₂ : Logiter} {iters : Logiter × Logiter} : Handled log iter₁ →
      Handled log iter₂ → LeadsTo (logiterKeycmp log) (iter₁, iter₂) iters → Handled log iters.1
  | keycmp₂ {iter₁ iter₂ : Logiter} {iters : Logiter × Logiter} : Handled log iter₁ →
      Handled log iter₂ → LeadsTo (logiterKeycmp log) (iter₁, iter₂) iters → Handled log iters.2
  /-- `sparkey_hash_get` has not found its key. -/
  | miss {iter : Logiter} : Handled log iter → Handled log { iter with state := .invalid }

theorem LogCall.preserves (hl : log.Opened) (c : LogCall) (hc : c.Allowed log) :
    Preserves (Steady log) (c.program log) := by
  cases c with
  | next => exact (preserves_logiterNext hl).bind fun _ => preserves_pure _
  | skip count => exact (preserves_logiterSkip hl count).bind fun _ => preserves_pure _
  | seek position => exact (preserves_logiterSeek hl hc).bind fun _ => preserves_pure _
  | reset => exact (preserves_logiterReset hl).bind fun _ => preserves_pure _
  | keychunk maxlen => exact preserves_logiterKeychunk hl maxlen
  | valuechunk maxlen => exact preserves_logiterValuechunk hl maxlen
  | fillKey maxlen => exact preserves_logiterFillKey hl maxlen
  | fillValue maxlen => exact preserves_logiterFillValue hl maxlen

/-- **Any calls leave the iterator steady.** -/
theorem Handled.steady (hl : log.Opened) (hchain : log.Chain logHeaderSize) (h : Handled log iter) :
    Steady log iter := by
  induction h with
  | create hcreate => exact logiterCreate_steady hl hchain hcreate
  | call c hc _ hrun ih => exact (c.preserves hl hc).of_leadsTo ih hrun
  | keycmp₁ _ _ hrun ih₁ ih₂ => exact ((preserves_logiterKeycmp hl).of_leadsTo ⟨ih₁, ih₂⟩ hrun).1
  | keycmp₂ _ _ hrun ih₁ ih₂ => exact ((preserves_logiterKeycmp hl).of_leadsTo ⟨ih₁, ih₂⟩ hrun).2
  | miss _ ih => exact ih.congr rfl rfl rfl rfl rfl rfl nofun

theorem handles_next : Preserves (Handled log) (logiterNext log) :=
  preserves_of_leadsTo fun _ _ h hrun => .call .next trivial h (hrun.bind_pure _)

theorem handles_skip (count : Nat) : Preserves (Handled log) (logiterSkip log count) :=
  preserves_of_leadsTo fun _ _ h hrun => .call (.skip count) trivial h (hrun.bind_pure _)

theorem handles_seek {p : Nat} (hp : p = log.header.dataEnd ∨ log.StartsBlock p) :
    Preserves (Handled log) (logiterSeek log p) :=
  preserves_of_leadsTo fun _ _ h hrun => .call (.seek p) hp h (hrun.bind_pure _)

theorem handles_reset : Preserves (Handled log) (logiterReset log) :=
  preserves_of_leadsTo fun _ _ h hrun => .call .reset trivial h (hrun.bind_pure _)

theorem handles_keychunk (maxlen : Nat) : Preserves (Handled log) (logiterKeychunk log maxlen) :=
  preserves_of_leadsTo fun _ _ h hrun => .call (.keychunk maxlen) trivial h hrun

theorem handles_valuechunk (maxlen : Nat) :
    Preserves (Handled log) (logiterValuechunk log maxlen) :=
  preserves_of_leadsTo fun _ _ h hrun => .call (.valuechunk maxlen) trivial h hrun

theorem handles_fillKey (maxlen : Nat) : Preserves (Handled log) (logiterFillKey log maxlen) :=
  preserves_of_leadsTo fun _ _ h hrun => .call (.fillKey maxlen) trivial h hrun

theorem handles_fillValue (maxlen : Nat) :
    Preserves (Handled log) (logiterFillValue log maxlen) :=
  preserves_of_leadsTo fun _ _ h hrun => .call (.fillValue maxlen) trivial h hrun

end Sparkey
