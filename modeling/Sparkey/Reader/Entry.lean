import Sparkey.Reader.Block

/-!
# An iterator at the entries of its log

Between entries an iterator is `Before` the entries still to come; at an entry it
is `Active`, with rests of the key and of the value unread.  Each function of the
iterator has one lemma on each of the two: `next` goes to the next entry or ends,
`reset` makes the entry unread again, and the chunk functions hand out the bytes
of the key and of the value in order.
-/

namespace Sparkey

open Program BlockStream

/-- Filling a buffer from chunks: `P rest` says what is still to come. -/
theorem run_fillLoop {chunk : Nat → Run Logiter (List UInt8)} {P : List UInt8 → Logiter → Prop}
    (hchunk : ∀ rest iter maxlen, P rest iter → ∃ m iter',
      (chunk maxlen).run iter = .ok (rest.take m) iter' ∧ m ≤ maxlen ∧ m ≤ rest.length ∧
        (rest ≠ [] → 0 < maxlen → 0 < m) ∧ P (rest.drop m) iter') :
    ∀ (fuel : Nat) (rest : List UInt8) (iter : Logiter) (maxlen : Nat) (filled : List UInt8),
      rest.length < fuel → P rest iter →
      ∃ iter', (fillLoop chunk fuel maxlen filled).run iter = .ok (filled ++ rest.take maxlen) iter' ∧
        P (rest.drop maxlen) iter' := by
  intro fuel
  induction fuel with
  | zero =>
    intro rest iter maxlen filled hf
    exact absurd hf (Nat.not_lt_zero _)
  | succ fuel ih =>
    intro rest iter maxlen filled hf h
    by_cases hmax : maxlen = 0
    · subst hmax
      exact ⟨iter, by simp [fillLoop], h⟩
    obtain ⟨m, iter₁, hrun, hm, hm', hpos, h₁⟩ := hchunk rest iter maxlen h
    by_cases hrest : rest = []
    · subst hrest
      simp only [List.take_nil, List.drop_nil, List.append_nil] at hrun h₁ ⊢
      refine ⟨iter₁, ?_, h₁⟩
      simp only [fillLoop, if_neg hmax, EStateM.run_bind, hrun, List.length_nil, if_true,
        EStateM.run_pure]
    · have hmpos := hpos hrest (Nat.pos_of_ne_zero hmax)
      have hlen : (rest.take m).length = m := List.length_take_of_le hm'
      have hne : ¬ (rest.take m).length = 0 := by omega
      have hf' : (rest.drop m).length < fuel := by
        rw [List.length_drop]
        omega
      obtain ⟨iter', hrun', h'⟩ := ih (rest.drop m) iter₁ (maxlen - m) (filled ++ rest.take m) hf' h₁
      refine ⟨iter', ?_, ?_⟩
      · simp only [fillLoop, if_neg hmax, EStateM.run_bind, hrun, if_neg hne]
        rw [hlen, hrun', List.append_assoc, ← List.take_add, Nat.add_sub_cancel' hm]
      · rwa [List.drop_drop, Nat.add_sub_cancel' hm] at h'

variable [Compressors]

abbrev Logreader.Entries (log : Logreader) (c : Cursor UInt8) (items : List (Item Entry)) : Prop :=
  Items log.source Entry.header Entry.body c items

def Logiter.pending (iter : Logiter) : Nat :=
  if iter.state = .active then iter.keyRemaining + iter.valueRemaining else 0

def Before (log : Logreader) (iter : Logiter) (items : List (Item Entry)) : Prop :=
  iter.state ≠ .closed ∧ ∃ c xs c', At log iter c xs.length ∧ xs.length = iter.pending ∧
    Reads log.source c xs c' ∧ log.Entries c' items

/-- The place of an entry that is being read: its block holds `b`, `after` is unread of
its body, and behind it are `items`. -/
structure Placed (log : Logreader) (iter : Logiter) (item : Item Entry) (items : List (Item Entry))
    (after b : List UInt8) (q : Nat) (c c' : Cursor UInt8) : Prop where
  at_cursor : At log iter c after.length
  blockAt : log.BlockAt item.pos b q
  pos_ne_zero : item.pos ≠ 0
  offset : iter.entryBlockOffset ≤ b.length
  reads_body : Reads log.source
    (Cursor.enter log.source ⟨item.pos, item.idx, b, q⟩ iter.entryBlockOffset) item.val.body c'
  reads_after : Reads log.source c after c'
  inside : b.length - iter.entryBlockOffset + after.length ≤ item.val.body.length ∨
    c.cur.length + item.val.body.length = b.length - iter.entryBlockOffset + after.length ∧
      c.idx = if log.source.moves then 0 else item.idx + 1
  ends : item.val.body.length ≤ b.length - iter.entryBlockOffset ∨ c'.cur = []
  entries : log.Entries c' items

/-- The iterator is at `item`, with `key` and `value` unread of it, and `items` behind it. -/
structure Active (log : Logreader) (iter : Logiter) (item : Item Entry) (items : List (Item Entry))
    (key value : List UInt8) : Prop where
  state : iter.state = .active
  type : iter.type = item.val.type
  keylen : iter.keylen = item.val.key.length
  valuelen : iter.valuelen = item.val.value.length
  keyRemaining : iter.keyRemaining = key.length
  valueRemaining : iter.valueRemaining = value.length
  entryBlockPosition : iter.entryBlockPosition = item.pos
  key_suffix : key <:+ item.val.key
  value_suffix : value <:+ item.val.value
  key_first : key = [] ∨ value = item.val.value
  place : ∃ b q c c', Placed log iter item items (key ++ value) b q c c'

variable {log : Logreader} {iter iter' : Logiter} {c c' c₀ : Cursor UInt8} {n : Nat}
  {item : Item Entry} {items : List (Item Entry)} {key value : List UInt8}

theorem Active.pending (h : Active log iter item items key value) :
    iter.pending = (key ++ value).length := by
  unfold Logiter.pending
  rw [if_pos h.state, h.keyRemaining, h.valueRemaining, List.length_append]

theorem Active.before (h : Active log iter item items key value) : Before log iter items := by
  obtain ⟨_, _, c, c', hp⟩ := h.place
  refine ⟨?_, c, key ++ value, c', hp.at_cursor, h.pending.symm, hp.reads_after, hp.entries⟩
  rw [h.state]
  decide

theorem Active.iterOpen (h : Active log iter item items key value) : IterOpen log iter := by
  obtain ⟨_, _, c, c', hp⟩ := h.place
  exact hp.at_cursor.iterOpen

theorem Active.cached (h : Active log iter item items key value) : Cached log iter := by
  obtain ⟨_, _, c, c', hp⟩ := h.place
  exact hp.at_cursor.cached

/-! ### `sparkey_logiter_next` -/

theorem run_ensureAvailable_opens (hl : log.Opened) (h : At log iter c 0)
    (ho : Opens log.source c c₀) :
    ∃ iter', (ensureAvailable log).run iter = .ok () iter' ∧ At log iter' c₀ 0 ∧
      SameEntry iter iter' := by
  cases ho with
  | here hne => exact ⟨iter, run_ensureAvailable_here h hne, h, .refl iter⟩
  | block hc hb _ => exact run_ensureAvailable_block hl h hc hb

theorem At.rebase (h : At log iter c n) (hne : c.cur ≠ [])
    (hm : log.source.moves = true) :
    At log { iter with
      blockPosition := iter.blockPosition + iter.blockOffset
      blockLen := iter.blockLen - iter.blockOffset
      blockOffset := 0
      compressionBuf := log.data.drop (iter.blockPosition + iter.blockOffset)
      entryCount := -1 } c n := by
  have hlen := h.length_cur
  have hpos : 0 < c.cur.length := List.length_pos_iff.mpr hne
  have hload := h.loaded hne
  have hplain : usesCompressor log.header.compressionType = false := by
    simpa [Logreader.source] using hm
  obtain ⟨hlt, htake, hq⟩ := (Logreader.blockAt_plain hplain).mp hload
  have hbl : iter.blockLen = log.data.length - iter.blockPosition := by
    rw [← List.length_drop, ← htake, List.length_take_of_le h.cached.le]
  have hdrop : (log.data.drop (iter.blockPosition + iter.blockOffset)).length
      = iter.blockLen - iter.blockOffset := by
    rw [List.length_drop]
    omega
  refine ⟨⟨h.iterOpen.1, h.iterOpen.2⟩, Or.inr ⟨?_, ?_⟩, Nat.zero_le _, ?_, h.next, h.next_ne_zero,
    h.pos_ne_zero, ?_, ?_⟩
  · show iter.blockLen - iter.blockOffset
      ≤ (log.data.drop (iter.blockPosition + iter.blockOffset)).length
    rw [hdrop]
  · refine (Logreader.blockAt_plain hplain).mpr ⟨?_, ?_, hq⟩
    · show iter.blockPosition + iter.blockOffset < log.data.length
      omega
    · show (log.data.drop (iter.blockPosition + iter.blockOffset)).take
        (iter.blockLen - iter.blockOffset) = _
      exact List.take_of_length_le (Nat.le_of_eq hdrop)
  · show c.cur = ((log.data.drop (iter.blockPosition + iter.blockOffset)).take
      (iter.blockLen - iter.blockOffset)).drop 0
    rw [List.drop_zero, List.take_of_length_le (Nat.le_of_eq hdrop), h.cur, htake, List.drop_drop]
  · intro hne
    have hp := h.pos hne
    rw [if_pos hm] at hp ⊢
    exact hp
  · refine h.count.imp_right fun hidx => ?_
    rw [if_pos hm] at hidx ⊢
    exact hidx

theorem At.drop_buf (h : At log iter c n) :
    iter.compressionBuf.drop iter.blockOffset = c.cur ++ iter.compressionBuf.drop iter.blockLen := by
  have hle : iter.blockOffset ≤ (iter.compressionBuf.take iter.blockLen).length := by
    rw [List.length_take_of_le h.cached.le]
    exact h.offset
  rw [h.cur, ← List.drop_append_of_le_length hle, List.take_append_drop]

def Logiter.entered (iter : Logiter) (e : Entry) : Logiter :=
  { iter with
    entryCount := iter.entryCount + 1
    blockOffset := iter.blockOffset + e.header.length
    keylen := e.key.length
    keyRemaining := e.key.length
    valuelen := e.value.length
    valueRemaining := e.value.length
    type := e.type
    entryBlockPosition := iter.blockPosition
    entryBlockOffset := iter.blockOffset + e.header.length
    state := .active }

omit [Compressors] in
theorem run_readHead_entered {e : Entry} {tl : List UInt8}
    (h : iter.compressionBuf.drop iter.blockOffset = e.header ++ tl)
    (hle : iter.blockOffset ≤ iter.compressionBuf.length) :
    readHead.run iter = .ok () (iter.entered e) := by
  obtain ⟨hv1, hv2⟩ := readVlq_header e h hle
  simp only [readHead, EStateM.run_bind, EStateM.run_modify, EStateM.run_get, hv1, hv2,
    EStateM.run_set]
  cases e <;> rfl

/-- **Reading a head** makes the iterator active at the entry. -/
theorem run_readHead {e : Entry} {tl : List UInt8} (h : At log iter c 0)
    (hcur : c.cur = e.header ++ tl) (hpos : iter.blockPosition = c.pos)
    (hmoves : log.source.moves = true → iter.blockOffset = 0)
    (hcount : iter.entryCount + 1 = c.idx)
    (hr : Reads log.source (c.enter log.source e.header.length) e.body c')
    (hend : e.body.length ≤ tl.length ∨ c'.cur = []) (hi : log.Entries c' items) :
    ∃ iter', readHead.run iter = .ok () iter' ∧
      Active log iter' ⟨c.pos, c.idx, e⟩ items e.key e.value ∧
      iter'.entryCount = c.idx ∧ iter'.blockPosition = c.pos := by
  have hhead : e.header.length ≤ c.cur.length := by
    rw [hcur, List.length_append]
    exact Nat.le_add_right _ _
  have hne : c.cur ≠ [] := by
    rw [hcur]
    simp [e.header_ne_nil]
  have hload := h.loaded hne
  have hlen := h.length_cur
  have hoffset := h.offset
  have hble := h.cached.le
  have htake := List.length_take_of_le hble
  have hdrop := h.drop_buf
  rw [hcur, List.append_assoc] at hdrop
  -- the place behind the head
  have hcursor : Cursor.enter log.source
      ⟨c.pos, c.idx, iter.compressionBuf.take iter.blockLen, iter.nextBlockPosition⟩
        (iter.blockOffset + e.header.length) = c.enter log.source e.header.length := by
    ext1
    · show (if log.source.moves then c.pos + (iter.blockOffset + e.header.length) else c.pos)
        = if log.source.moves then c.pos + e.header.length else c.pos
      split_ifs with hm
      · rw [hmoves hm, Nat.zero_add]
      · rfl
    · rfl
    · show (iter.compressionBuf.take iter.blockLen).drop (iter.blockOffset + e.header.length)
        = c.cur.drop e.header.length
      rw [h.cur, List.drop_drop]
    · exact h.next.symm
  have hadv := h.advance hhead
  -- the iterator stands behind the head
  have hmove : At log { iter.entered e with entryCount := iter.entryCount }
      (c.move log.source e.header.length) (0 - e.header.length) :=
    hadv.congr rfl rfl rfl rfl rfl rfl rfl rfl
  have hat : At log (iter.entered e) (c.enter log.source e.header.length) e.body.length := by
    refine ⟨⟨hmove.iterOpen.1, hmove.iterOpen.2⟩, hmove.cached, hmove.offset, hmove.cur, hmove.next,
      hmove.next_ne_zero, hmove.pos_ne_zero, hmove.pos, Or.inr ?_⟩
    show if log.source.moves then (if log.source.moves then 0 else c.idx + 1) = 0
      else iter.entryCount + 1 + 1 = ((if log.source.moves then 0 else c.idx + 1 : Nat) : Int)
    split_ifs
    · rfl
    · rw [hcount]
      rfl
  have hoff : (iter.entered e).entryBlockOffset = iter.blockOffset + e.header.length := rfl
  have hplace : Placed log (iter.entered e) ⟨c.pos, c.idx, e⟩ items e.body
      (iter.compressionBuf.take iter.blockLen) iter.nextBlockPosition
      (c.enter log.source e.header.length) c' := by
    refine ⟨hat, hpos ▸ hload, h.pos_ne_zero hne, ?_, ?_, hr, Or.inr ⟨?_, rfl⟩, ?_, hi⟩
    · rw [hoff, htake]
      omega
    · rw [hoff, hcursor]
      exact hr
    · show (c.cur.drop e.header.length).length + e.body.length = _
      rw [hoff, htake, List.length_drop]
      omega
    · refine hend.imp_left fun hle => ?_
      show e.body.length ≤ _
      rw [hoff, htake]
      rw [hcur, List.length_append] at hlen
      omega
  exact ⟨iter.entered e, run_readHead_entered hdrop (Nat.le_trans h.offset hble),
    ⟨rfl, rfl, rfl, rfl, rfl, rfl, hpos, List.suffix_refl _, List.suffix_refl _, Or.inr rfl, _, _, _,
      _, hplace⟩, hcount, hpos⟩

/-- `next` at a block with something left reads the entry there. -/
theorem run_readEntry {e : Entry} {tl : List UInt8} (h : At log iter c 0)
    (hcur : c.cur = e.header ++ tl)
    (hr : Reads log.source (c.enter log.source e.header.length) e.body c')
    (hend : e.body.length ≤ tl.length ∨ c'.cur = []) (hi : log.Entries c' items) :
    ∃ iter', (readEntry log).run iter = .ok () iter' ∧
      Active log iter' ⟨c.pos, c.idx, e⟩ items e.key e.value ∧
      iter'.entryCount = c.idx ∧ iter'.blockPosition = c.pos := by
  have hne : c.cur ≠ [] := by
    rw [hcur]
    simp [e.header_ne_nil]
  have hlen : iter.blockLen - iter.blockOffset ≠ 0 := by
    rw [← h.length_cur]
    exact Nat.ne_of_gt (List.length_pos_iff.mpr hne)
  have hcount := h.count.resolve_left fun h0 => hne (List.length_eq_zero_iff.mp (Nat.le_zero.mp h0))
  have hpos := h.pos hne
  simp only [readEntry, EStateM.run_bind, EStateM.run_get, if_neg hlen]
  by_cases hm : log.source.moves = true
  · rw [if_pos hm] at hcount hpos
    rw [if_pos (Logreader.moves_iff.mp hm), EStateM.run_bind, EStateM.run_set]
    refine run_readHead (h.rebase hne hm) hcur hpos.symm (fun _ => rfl) ?_ hr hend hi
    show (-1 : Int) + 1 = c.idx
    rw [hcount]
    rfl
  · rw [if_neg hm] at hcount hpos
    rw [if_neg (mt Logreader.moves_iff.mpr hm)]
    exact run_readHead h hcur hpos.symm (fun h' => absurd h' hm) hcount hr hend hi

/-- **The skips of `next`** lead behind the current entry. -/
theorem At.run_logiterNext (hl : log.Opened) {xs : List UInt8} (hs : iter.state ≠ .closed)
    (hat : At log iter c n) (hn : xs.length ≤ n) (hlen : xs.length = iter.pending)
    (hr : Reads log.source c xs c') :
    ∃ iter₁, At log iter₁ c' (n - xs.length) ∧
      (logiterNext log).run iter = (do ensureAvailable log; readEntry log : Run _ _).run iter₁ := by
  obtain ⟨kr, vr, hkr, hvr, hsum⟩ : ∃ kr vr,
      (if iter.state = .active then iter.keyRemaining else 0) = kr ∧
      (if iter.state = .active then iter.valueRemaining else 0) = vr ∧ xs.length = kr + vr := by
    refine ⟨_, _, rfl, rfl, ?_⟩
    rw [hlen, Logiter.pending]
    split_ifs <;> rfl
  rw [← List.take_append_drop kr xs] at hr
  obtain ⟨c₁, hr₁, hr₂⟩ := hr.of_append
  have hlen₁ : (xs.take kr).length = kr := List.length_take_of_le (by omega)
  have hlen₂ : (xs.drop kr).length = vr := by
    rw [List.length_drop]
    omega
  have hat₀ : At log { iter with
      state := .invalid, keyRemaining := 0, valueRemaining := 0, keylen := 0, valuelen := 0 } c n :=
    hat.congr rfl rfl rfl rfl rfl rfl rfl rfl
  obtain ⟨iter₁, hrun₁, hat₁, -⟩ := run_skip hl (by omega) hat₀ hr₁
  obtain ⟨iter₂, hrun₂, hat₂, -⟩ := run_skip hl (by omega) hat₁ hr₂
  rw [hlen₁] at hrun₁ hat₂
  rw [hlen₂] at hrun₂ hat₂
  have hassert := run_assertIterOpen hl hat₀.iterOpen
  refine ⟨iter₂, ?_, ?_⟩
  · rwa [hsum, Nat.sub_add_eq]
  · simp only [logiterNext, EStateM.run_bind, EStateM.run_get, if_neg hs, EStateM.run_set,
      hassert, hkr, hvr, hrun₁, hrun₂]

theorem run_logiterNext_skips (hl : log.Opened) (hb : Before log iter items) :
    ∃ iter₁ c', At log iter₁ c' 0 ∧ log.Entries c' items ∧
      (logiterNext log).run iter = (do ensureAvailable log; readEntry log : Run _ _).run iter₁ := by
  obtain ⟨hstate, c, xs, c', hat, hlen, hr, hi⟩ := hb
  obtain ⟨iter₁, hat₁, hrun⟩ := hat.run_logiterNext hl hstate (Nat.le_refl _) hlen hr
  rw [Nat.sub_self] at hat₁
  exact ⟨iter₁, c', hat₁, hi, hrun⟩

/-- **`next` goes to the next entry**, all of it unread. -/
theorem run_logiterNext_item (hl : log.Opened) (hb : Before log iter (item :: items)) :
    ∃ iter', (logiterNext log).run iter = .ok () iter' ∧
      Active log iter' item items item.val.key item.val.value ∧
      iter'.entryCount = item.idx ∧ iter'.blockPosition = item.pos := by
  obtain ⟨iter₁, c', hat, hi, hrun⟩ := run_logiterNext_skips hl hb
  cases hi with
  | cons ho hcur hr hend hi =>
    obtain ⟨iter₂, hrun₂, hat₂, -⟩ := run_ensureAvailable_opens hl hat ho
    obtain ⟨iter', hrun', hactive⟩ := run_readEntry hat₂ hcur hr hend hi
    refine ⟨iter', ?_, hactive⟩
    rw [hrun]
    simp only [EStateM.run_bind, hrun₂, hrun']

/-- **`next` behind the last entry** closes the iterator. -/
theorem run_logiterNext_end (hl : log.Opened) (hb : Before log iter []) :
    ∃ iter', (logiterNext log).run iter = .ok () iter' ∧ iter'.state = .closed ∧
      IterOpen log iter' ∧ Cached log iter' := by
  obtain ⟨iter₁, c', hat, hi, hrun⟩ := run_logiterNext_skips hl hb
  cases hi with
  | done hc hn =>
    obtain ⟨iter₂, hrun₂, hat₂, -, h0⟩ := run_ensureAvailable_end hl hat hc hn
    refine ⟨{ iter₂ with state := .closed }, ?_, rfl, ⟨hat₂.iterOpen.1, hat₂.iterOpen.2⟩,
      hat₂.cached⟩
    rw [hrun]
    simp only [EStateM.run_bind, hrun₂, readEntry, EStateM.run_get, if_pos h0, EStateM.run_set,
      EStateM.run_pure]

theorem run_logiterNext_closed (hc : iter.state = .closed) :
    (logiterNext log).run iter = .ok () iter := by
  simp only [logiterNext, EStateM.run_bind, EStateM.run_get, if_pos hc, EStateM.run_pure]

/-! ### The bytes of an entry -/

theorem Placed.run_ensureAvailable (hl : log.Opened) {after b : List UInt8} {q : Nat}
    (h : Placed log iter item items after b q c c') (hne : after ≠ []) :
    ∃ iter' c₁, (ensureAvailable log).run iter = .ok () iter' ∧ c₁.cur ≠ [] ∧
      Placed log iter' item items after b q c₁ c' ∧ SameEntry iter iter' := by
  by_cases hc : c.cur = []
  · -- into the next block, so the entry leaves its own
    obtain ⟨b₁, q₁, hb₁, hbne, hr⟩ := h.reads_after.cross hc hne
    obtain ⟨iter', hrun, hat, hsame⟩ := run_ensureAvailable_block hl h.at_cursor hc hb₁
    refine ⟨iter', _, hrun, hbne, ⟨hat.mono (Nat.zero_le _), h.blockAt, h.pos_ne_zero, ?_, ?_, hr,
      Or.inl ?_, ?_, h.entries⟩, hsame⟩
    · rw [hsame.entryBlockOffset]
      exact h.offset
    · rw [hsame.entryBlockOffset]
      exact h.reads_body
    · rw [hsame.entryBlockOffset]
      rcases h.inside with hin | ⟨hin, -⟩
      · exact hin
      · rw [hc, List.length_nil] at hin
        omega
    · rw [hsame.entryBlockOffset]
      exact h.ends
  · exact ⟨iter, c, run_ensureAvailable_here h.at_cursor hc, hc, h, .refl iter⟩

theorem Placed.advance {after b : List UInt8} {q m : Nat}
    (h : Placed log iter item items after b q c c') (hm : m ≤ c.cur.length) (hm' : m ≤ after.length) :
    after.take m = c.cur.take m ∧
      Placed log { iter with blockOffset := iter.blockOffset + m } item items (after.drop m) b q
        (c.move log.source m) c' := by
  obtain ⟨htake, hr⟩ := h.reads_after.split hm hm'
  have hlen : (after.drop m).length = after.length - m := List.length_drop
  refine ⟨htake, ⟨?_, h.blockAt, h.pos_ne_zero, h.offset, h.reads_body, hr, ?_, h.ends, h.entries⟩⟩
  · rw [hlen]
    exact h.at_cursor.advance hm
  · rw [hlen, cur_move, List.length_drop]
    rcases h.inside with hin | ⟨hin, hidx⟩
    · left
      show b.length - iter.entryBlockOffset + _ ≤ _
      omega
    · right
      refine ⟨?_, hidx⟩
      show _ = b.length - iter.entryBlockOffset + _
      omega

/-- The place does not depend on what is kept of the entry otherwise. -/
theorem Placed.congr {after b : List UInt8} {q : Nat} (h : Placed log iter item items after b q c c')
    (ho : iter'.openStatus = iter.openStatus)
    (hf : iter'.fileIdentifier = iter.fileIdentifier)
    (hbp : iter'.blockPosition = iter.blockPosition)
    (hnb : iter'.nextBlockPosition = iter.nextBlockPosition)
    (hbo : iter'.blockOffset = iter.blockOffset) (hbl : iter'.blockLen = iter.blockLen)
    (hec : iter'.entryCount = iter.entryCount)
    (hcb : iter'.compressionBuf = iter.compressionBuf)
    (heo : iter'.entryBlockOffset = iter.entryBlockOffset) :
    Placed log iter' item items after b q c c' := by
  refine ⟨h.at_cursor.congr ho hf hbp hnb hbo hbl hec hcb, h.blockAt, h.pos_ne_zero, ?_, ?_,
    h.reads_after, ?_, ?_, h.entries⟩
  · rw [heo]
    exact h.offset
  · rw [heo]
    exact h.reads_body
  · rw [heo]
    exact h.inside
  · rw [heo]
    exact h.ends

theorem Placed.run_skip (hl : log.Opened) {part rest b : List UInt8} {q : Nat}
    (h : Placed log iter item items (part ++ rest) b q c c') :
    ∃ iter' c₁, (skip log part.length).run iter = .ok () iter' ∧
      Placed log iter' item items rest b q c₁ c' ∧ SameEntry iter iter' := by
  obtain ⟨c₁, hr₁, hr₂⟩ := h.reads_after.of_append
  have hlen : (part ++ rest).length = part.length + rest.length := List.length_append
  obtain ⟨iter', hrun, hat, hsame⟩ := Sparkey.run_skip hl (by omega) h.at_cursor hr₁
  rw [hlen, Nat.add_sub_cancel_left] at hat
  refine ⟨iter', c₁, hrun, ⟨hat, h.blockAt, h.pos_ne_zero, ?_, ?_, hr₂, ?_, ?_, h.entries⟩, hsame⟩
  · rw [hsame.entryBlockOffset]
    exact h.offset
  · rw [hsame.entryBlockOffset]
    exact h.reads_body
  · rw [hsame.entryBlockOffset]
    rcases h.inside with hin | ⟨hin, hidx⟩
    · left
      omega
    · rcases Nat.lt_or_ge c.cur.length part.length with hlt | hge
      · left
        omega
      · right
        rw [hr₁.eq_move hge, cur_move, idx_move, List.length_drop]
        exact ⟨by omega, hidx⟩
  · rw [hsame.entryBlockOffset]
    exact h.ends

theorem run_logiterChunk_inactive (hl : log.Opened) (ho : IterOpen log iter)
    (hs : iter.state ≠ .active) (maxlen : Nat) (var : Part) :
    (logiterChunk log maxlen var).run iter = .error (.rc .logIteratorInactive) iter := by
  simp only [logiterChunk, EStateM.run_bind, run_assertIterOpen hl ho, EStateM.run_get, if_pos hs,
    run_fail]

theorem run_logiterChunk_done (hl : log.Opened) (ho : IterOpen log iter) (hs : iter.state = .active)
    (maxlen : Nat) {var : Part} (h0 : iter.remaining var = 0) :
    (logiterChunk log maxlen var).run iter = .ok [] iter := by
  have hs' : ¬ iter.state ≠ .active := not_not_intro hs
  have h0' : ¬ 0 < iter.remaining var := by omega
  simp only [logiterChunk, EStateM.run_bind, run_assertIterOpen hl ho, EStateM.run_get, if_neg hs',
    if_neg h0', EStateM.run_pure]

/-- `sparkey_logiter_chunk` where the next bytes of the entry are those it is asked for. -/
theorem run_logiterChunk (var : Part) {part rest b : List UInt8} {q : Nat} (hl : log.Opened)
    (hs : iter.state = .active) (hp : Placed log iter item items (part ++ rest) b q c c')
    (hrem : iter.remaining var = part.length) (hne : part ≠ []) (maxlen : Nat) :
    ∃ m iter' c₁, (logiterChunk log maxlen var).run iter = .ok (part.take m) iter' ∧
      m ≤ maxlen ∧ m ≤ part.length ∧ (0 < maxlen → 0 < m) ∧
      Placed log iter' item items (part.drop m ++ rest) b q c₁ c' ∧
      ∃ iter₁, SameEntry iter iter₁ ∧ iter' =
        { iter₁ with blockOffset := iter₁.blockOffset + m }.setRemaining var (part.length - m) := by
  have hne' : part ++ rest ≠ [] := by simp [hne]
  obtain ⟨iter₁, c₁, hrun, hc₁, hp₁, hsame⟩ := hp.run_ensureAvailable hl hne'
  have hlen := hp₁.at_cursor.length_cur
  have hpos : 0 < c₁.cur.length := List.length_pos_iff.mpr hc₁
  have hppos : 0 < part.length := List.length_pos_iff.mpr hne
  have hrem₁ : iter₁.remaining var = part.length := by
    rw [← hrem]
    cases var
    · exact hsame.keyRemaining
    · exact hsame.valueRemaining
  obtain ⟨m, hm⟩ : ∃ m, m = min maxlen (min part.length (iter₁.blockLen - iter₁.blockOffset)) :=
    ⟨_, rfl⟩
  obtain ⟨htake, hp₂⟩ := hp₁.advance (m := m) (by omega) (by rw [List.length_append]; omega)
  rw [List.take_append_of_le_length (by omega)] at htake
  rw [List.drop_append_of_le_length (by omega)] at hp₂
  refine ⟨m, _, c₁.move log.source m, ?_, by omega, by omega, by omega, ?_, iter₁, hsame, rfl⟩
  · have hs' : ¬ iter.state ≠ .active := not_not_intro hs
    have hrem' : 0 < iter.remaining var := by omega
    have hres : (iter₁.compressionBuf.drop iter₁.blockOffset).take m = part.take m := by
      rw [htake, hp₁.at_cursor.drop_buf, List.take_append_of_le_length (by omega)]
    simp only [logiterChunk, EStateM.run_bind, run_assertIterOpen hl hp.at_cursor.iterOpen,
      EStateM.run_get, if_neg hs', if_pos hrem', hrun, hrem₁, ← hm, EStateM.run_set, hres,
      EStateM.run_pure]
  · cases var <;> exact hp₂.congr rfl rfl rfl rfl rfl rfl rfl rfl rfl

/-- **`keychunk` hands out the next bytes of the key.** -/
theorem run_logiterKeychunk (hl : log.Opened) (h : Active log iter item items key value)
    (maxlen : Nat) :
    ∃ m iter', (logiterKeychunk log maxlen).run iter = .ok (key.take m) iter' ∧ m ≤ maxlen ∧
      m ≤ key.length ∧ (key ≠ [] → 0 < maxlen → 0 < m) ∧
      Active log iter' item items (key.drop m) value := by
  by_cases hkey : key = []
  · subst hkey
    refine ⟨0, iter, ?_, Nat.zero_le _, Nat.le_refl _, fun hne => absurd rfl hne, h⟩
    exact run_logiterChunk_done hl h.iterOpen h.state maxlen h.keyRemaining
  · obtain ⟨b, q, c, c', hp⟩ := h.place
    obtain ⟨m, iter', c₁, hrun, hm, hm', hpos, hp', iter₁, hsame, rfl⟩ :=
      run_logiterChunk .key hl h.state hp h.keyRemaining hkey maxlen
    refine ⟨m, _, hrun, hm, hm', fun _ => hpos, ⟨hsame.state.trans h.state,
      hsame.type.trans h.type, hsame.keylen.trans h.keylen, hsame.valuelen.trans h.valuelen,
      List.length_drop.symm, hsame.valueRemaining.trans h.valueRemaining,
      hsame.entryBlockPosition.trans h.entryBlockPosition,
      (List.drop_suffix m key).trans h.key_suffix, h.value_suffix, ?_, b, q, c₁, c', hp'⟩⟩
    exact h.key_first.imp_left fun h0 => absurd h0 hkey

/-- The part of `valuechunk` that passes over the rest of the key. -/
theorem Active.skip_key (hl : log.Opened) (h : Active log iter item items key value) :
    ∃ iter', (do skip log iter.keyRemaining
                 modify fun iter => { iter with keyRemaining := 0 } : Run _ _).run iter
        = .ok () iter' ∧ Active log iter' item items [] value := by
  obtain ⟨b, q, c, c', hp⟩ := h.place
  obtain ⟨iter₁, c₁, hrun, hp₁, hsame⟩ := hp.run_skip hl
  refine ⟨{ iter₁ with keyRemaining := 0 }, ?_, ⟨hsame.state.trans h.state,
    hsame.type.trans h.type, hsame.keylen.trans h.keylen, hsame.valuelen.trans h.valuelen, rfl,
    hsame.valueRemaining.trans h.valueRemaining,
    hsame.entryBlockPosition.trans h.entryBlockPosition, List.nil_suffix, h.value_suffix,
    Or.inl rfl, b, q, c₁, c', hp₁.congr rfl rfl rfl rfl rfl rfl rfl rfl rfl⟩⟩
  rw [h.keyRemaining]
  simp only [EStateM.run_bind, hrun, EStateM.run_modify]

/-- **`valuechunk` hands out the next bytes of the value**, and drops the key. -/
theorem run_logiterValuechunk (hl : log.Opened) (h : Active log iter item items key value)
    (maxlen : Nat) :
    ∃ m iter', (logiterValuechunk log maxlen).run iter = .ok (value.take m) iter' ∧ m ≤ maxlen ∧
      m ≤ value.length ∧ (value ≠ [] → 0 < maxlen → 0 < m) ∧
      Active log iter' item items [] (value.drop m) := by
  obtain ⟨iter₁, hrun₁, h₁⟩ := h.skip_key hl
  have hrun : (logiterValuechunk log maxlen).run iter = (logiterChunk log maxlen .value).run iter₁ := by
    rw [EStateM.run_bind] at hrun₁
    simp only [logiterValuechunk, EStateM.run_bind, EStateM.run_get]
    cases hs : (skip log iter.keyRemaining).run iter with
    | error e s => simp [hs] at hrun₁
    | ok u s =>
      simp only [hs, EStateM.run_modify] at hrun₁ ⊢
      cases hrun₁
      rfl
  rw [hrun]
  by_cases hvalue : value = []
  · subst hvalue
    refine ⟨0, iter₁, ?_, Nat.zero_le _, Nat.le_refl _, fun hne => absurd rfl hne, h₁⟩
    exact run_logiterChunk_done hl h₁.iterOpen h₁.state maxlen h₁.valueRemaining
  · obtain ⟨b, q, c, c', hp⟩ := h₁.place
    rw [List.nil_append, ← List.append_nil value] at hp
    obtain ⟨m, iter', c₁, hrun, hm, hm', hpos, hp', iter₂, hsame, rfl⟩ :=
      run_logiterChunk .value hl h₁.state hp h₁.valueRemaining hvalue maxlen
    rw [List.append_nil] at hp'
    exact ⟨m, _, hrun, hm, hm', fun _ => hpos, ⟨hsame.state.trans h₁.state,
      hsame.type.trans h₁.type, hsame.keylen.trans h₁.keylen, hsame.valuelen.trans h₁.valuelen,
      hsame.keyRemaining.trans h₁.keyRemaining, List.length_drop.symm,
      hsame.entryBlockPosition.trans h₁.entryBlockPosition,
      List.nil_suffix, (List.drop_suffix m value).trans h₁.value_suffix, Or.inl rfl,
      b, q, c₁, c', hp'⟩⟩

/-- **`fill_key` hands out as much of the key as there is room for.** -/
theorem run_logiterFillKey (hl : log.Opened) (h : Active log iter item items key value)
    (maxlen : Nat) :
    ∃ iter', (logiterFillKey log maxlen).run iter = .ok (key.take maxlen) iter' ∧
      Active log iter' item items (key.drop maxlen) value := by
  obtain ⟨iter', hrun, h'⟩ := run_fillLoop (P := fun key iter => Active log iter item items key value)
    (fun _ _ maxlen h => run_logiterKeychunk hl h maxlen) (key.length + 1) key iter maxlen []
    (Nat.lt_succ_self _) h
  refine ⟨iter', ?_, h'⟩
  simp only [logiterFillKey, EStateM.run_bind, EStateM.run_get, h.keyRemaining, hrun,
    List.nil_append]

/-- **`fill_value` hands out as much of the value as there is room for.** -/
theorem run_logiterFillValue (hl : log.Opened) (h : Active log iter item items key value)
    (maxlen : Nat) :
    ∃ iter' key', (logiterFillValue log maxlen).run iter = .ok (value.take maxlen) iter' ∧
      Active log iter' item items key' (value.drop maxlen) := by
  obtain ⟨iter', hrun, key', h'⟩ := run_fillLoop
    (P := fun value iter => ∃ key, Active log iter item items key value)
    (fun _ _ maxlen h => by
      obtain ⟨key, h⟩ := h
      obtain ⟨m, iter', hrun, hm, hm', hpos, h'⟩ := run_logiterValuechunk hl h maxlen
      exact ⟨m, iter', hrun, hm, hm', hpos, [], h'⟩)
    (value.length + 1) value iter maxlen [] (Nat.lt_succ_self _) ⟨key, h⟩
  refine ⟨iter', key', ?_, h'⟩
  simp only [logiterFillValue, EStateM.run_bind, EStateM.run_get, h.valueRemaining, hrun,
    List.nil_append]

/-! ### `sparkey_logiter_reset` -/

/-- **`reset` makes the whole entry unread again.** -/
theorem run_logiterReset (hl : log.Opened) (h : Active log iter item items key value) :
    ∃ iter', (logiterReset log).run iter = .ok () iter' ∧
      Active log iter' item items item.val.key item.val.value := by
  obtain ⟨b, q, c, c', hp⟩ := h.place
  have hs : ¬ iter.state ≠ .active := not_not_intro h.state
  have hoffset := hp.offset
  obtain ⟨iter₁, hrun, hseek⟩ := run_seekblock hl hp.blockAt hp.pos_ne_zero hp.at_cursor.cached
  simp only [logiterReset, EStateM.run_bind, EStateM.run_get, if_neg hs, h.entryBlockPosition, hrun,
    EStateM.run_modify]
  have hcur : (Cursor.enter log.source ⟨item.pos, item.idx, b, q⟩ iter.entryBlockOffset).cur
      = b.drop iter.entryBlockOffset := rfl
  have hat : At log { iter₁ with
      keyRemaining := iter₁.keylen
      valueRemaining := iter₁.valuelen
      blockOffset := iter₁.entryBlockOffset }
      (Cursor.enter log.source ⟨item.pos, item.idx, b, q⟩ iter.entryBlockOffset)
      item.val.body.length := by
    refine ⟨⟨hseek.openStatus.trans hp.at_cursor.iterOpen.1,
      hseek.fileIdentifier.trans hp.at_cursor.iterOpen.2⟩, hseek.cached, ?_, ?_,
      hseek.nextBlockPosition.symm, Nat.ne_zero_of_lt (log.source.block_lt hp.blockAt), ?_, ?_, ?_⟩
    · show iter₁.entryBlockOffset ≤ iter₁.blockLen
      rw [hseek.entryBlockOffset, hseek.blockLen]
      exact hoffset
    · show _ = (iter₁.compressionBuf.take iter₁.blockLen).drop iter₁.entryBlockOffset
      rw [hcur, hseek.blockLen, hseek.take, hseek.entryBlockOffset]
    · intro _
      show (if log.source.moves then item.pos + iter.entryBlockOffset else item.pos) ≠ 0
      have := hp.pos_ne_zero
      split_ifs <;> omega
    · intro _
      show (if log.source.moves then item.pos + iter.entryBlockOffset else item.pos)
        = if log.source.moves then iter₁.blockPosition + iter₁.entryBlockOffset
          else iter₁.blockPosition
      rw [hseek.blockPosition, hseek.entryBlockOffset]
    · -- the number is right, or the entry leaves its block
      rw [hcur, List.length_drop]
      show _ ∨ if log.source.moves then (if log.source.moves then 0 else item.idx + 1) = 0
        else iter₁.entryCount + 1 = ((if log.source.moves then 0 else item.idx + 1 : Nat) : Int)
      rw [hseek.entryCount]
      rcases hp.inside with hin | ⟨hin, hidx⟩
      · left
        omega
      · rcases hp.at_cursor.count with hle | hcount
        · left
          omega
        · right
          rw [hidx] at hcount
          exact hcount
  refine ⟨_, rfl, ⟨hseek.state.trans h.state, hseek.type.trans h.type, hseek.keylen.trans h.keylen,
    hseek.valuelen.trans h.valuelen, hseek.keylen.trans h.keylen, hseek.valuelen.trans h.valuelen,
    hseek.entryBlockPosition.trans h.entryBlockPosition, List.suffix_refl _, List.suffix_refl _,
    Or.inr rfl, b, q, _, c', ⟨hat, hp.blockAt, hp.pos_ne_zero, ?_, ?_, ?_, Or.inr ⟨?_, rfl⟩, ?_,
      hp.entries⟩⟩⟩
  · show iter₁.entryBlockOffset ≤ _
    rw [hseek.entryBlockOffset]
    exact hoffset
  · show Reads log.source (Cursor.enter log.source ⟨item.pos, item.idx, b, q⟩ iter₁.entryBlockOffset) _ _
    rw [hseek.entryBlockOffset]
    exact hp.reads_body
  · exact hp.reads_body
  · show (b.drop iter.entryBlockOffset).length + item.val.body.length
      = b.length - iter₁.entryBlockOffset + item.val.body.length
    rw [hseek.entryBlockOffset, List.length_drop]
  · show item.val.body.length ≤ b.length - iter₁.entryBlockOffset ∨ _
    rw [hseek.entryBlockOffset]
    exact hp.ends

theorem run_logiterReset_inactive (hs : iter.state ≠ .active) :
    (logiterReset log).run iter = .error (.rc .logIteratorInactive) iter := by
  simp only [logiterReset, EStateM.run_bind, EStateM.run_get, if_pos hs, run_fail]

end Sparkey
