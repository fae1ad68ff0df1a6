import Sparkey.Reader.Entry

/-!
# The bytes an iterator reads next

What the chunk functions hand out is decided by the bytes in front of the iterator,
whatever the rest of the log is like.  `Facing` says which they are, and `Partway` that
an active iterator has the rests of a key and of a value in front of it.
-/

namespace Sparkey

open Program BlockStream

variable [Compressors]

/-- The bytes `xs` come next, and behind them the iterator is at `c'`. -/
def Facing (log : Logreader) (iter : Logiter) (xs : List UInt8) (c' : Cursor UInt8) : Prop :=
  ∃ c n, xs.length ≤ n ∧ At log iter c n ∧ Reads log.source c xs c'

/-- The iterator is active, and has `key` and `value` in front of it. -/
structure Partway (log : Logreader) (iter : Logiter) (key value : List UInt8) (c' : Cursor UInt8) :
    Prop where
  state : iter.state = .active
  keyRemaining : iter.keyRemaining = key.length
  valueRemaining : iter.valueRemaining = value.length
  facing : Facing log iter (key ++ value) c'

/-- The same entry, of which more may have been read. -/
structure SameHead (iter iter' : Logiter) : Prop where
  entryBlockPosition : iter'.entryBlockPosition = iter.entryBlockPosition
  entryBlockOffset : iter'.entryBlockOffset = iter.entryBlockOffset
  type : iter'.type = iter.type
  keylen : iter'.keylen = iter.keylen
  valuelen : iter'.valuelen = iter.valuelen

omit [Compressors] in
theorem SameHead.refl (iter : Logiter) : SameHead iter iter := ⟨rfl, rfl, rfl, rfl, rfl⟩

omit [Compressors] in
theorem SameHead.trans {iter iter' iter'' : Logiter} (h : SameHead iter iter')
    (h' : SameHead iter' iter'') : SameHead iter iter'' :=
  ⟨h'.1.trans h.1, h'.2.trans h.2, h'.3.trans h.3, h'.4.trans h.4, h'.5.trans h.5⟩

omit [Compressors] in
theorem SameEntry.sameHead {iter iter' : Logiter} (h : SameEntry iter iter') : SameHead iter iter' :=
  ⟨h.entryBlockPosition, h.entryBlockOffset, h.type, h.keylen, h.valuelen⟩

variable {log : Logreader} {iter iter' : Logiter} {c' : Cursor UInt8}
  {xs part rest key value : List UInt8}

theorem Facing.iterOpen (h : Facing log iter xs c') : IterOpen log iter := by
  obtain ⟨c, n, -, hat, -⟩ := h
  exact hat.iterOpen

theorem Facing.congr (h : Facing log iter xs c') (ho : iter'.openStatus = iter.openStatus)
    (hf : iter'.fileIdentifier = iter.fileIdentifier)
    (hbp : iter'.blockPosition = iter.blockPosition)
    (hnb : iter'.nextBlockPosition = iter.nextBlockPosition)
    (hbo : iter'.blockOffset = iter.blockOffset) (hbl : iter'.blockLen = iter.blockLen)
    (hec : iter'.entryCount = iter.entryCount)
    (hcb : iter'.compressionBuf = iter.compressionBuf) : Facing log iter' xs c' := by
  obtain ⟨c, n, hn, hat, hr⟩ := h
  exact ⟨c, n, hn, hat.congr ho hf hbp hnb hbo hbl hec hcb, hr⟩

theorem Facing.run_skip (hl : log.Opened) (h : Facing log iter (part ++ rest) c') :
    ∃ iter', (skip log part.length).run iter = .ok () iter' ∧ Facing log iter' rest c' ∧
      SameEntry iter iter' := by
  obtain ⟨c, n, hn, hat, hr⟩ := h
  obtain ⟨c₁, hr₁, hr₂⟩ := hr.of_append
  rw [List.length_append] at hn
  obtain ⟨iter', hrun, hat', hsame⟩ := Sparkey.run_skip hl (by omega) hat hr₁
  exact ⟨iter', hrun, ⟨c₁, _, by omega, hat', hr₂⟩, hsame⟩

theorem Facing.run_ensureAvailable (hl : log.Opened) (h : Facing log iter xs c') (hne : xs ≠ []) :
    ∃ iter' c n, (ensureAvailable log).run iter = .ok () iter' ∧ c.cur ≠ [] ∧ xs.length ≤ n ∧
      At log iter' c n ∧ Reads log.source c xs c' ∧ SameEntry iter iter' := by
  obtain ⟨c, n, hn, hat, hr⟩ := h
  by_cases hc : c.cur = []
  · obtain ⟨b, q, hb, hbne, hr'⟩ := hr.cross hc hne
    obtain ⟨iter', hrun, hat', hsame⟩ := run_ensureAvailable_block hl hat hc hb
    exact ⟨iter', _, n, hrun, hbne, hn, hat'.mono (Nat.zero_le _), hr', hsame⟩
  · exact ⟨iter, c, n, run_ensureAvailable_here hat hc, hc, hn, hat, hr, .refl iter⟩

/-- `sparkey_logiter_chunk` where the next bytes are those it is asked for. -/
theorem Facing.run_logiterChunk (var : Part) (hl : log.Opened) (hs : iter.state = .active)
    (h : Facing log iter (part ++ rest) c') (hrem : iter.remaining var = part.length)
    (hne : part ≠ []) (maxlen : Nat) :
    ∃ m iter', (logiterChunk log maxlen var).run iter = .ok (part.take m) iter' ∧
      m ≤ maxlen ∧ m ≤ part.length ∧ (0 < maxlen → 0 < m) ∧
      Facing log iter' (part.drop m ++ rest) c' ∧
      ∃ iter₁, SameEntry iter iter₁ ∧ iter' =
        { iter₁ with blockOffset := iter₁.blockOffset + m }.setRemaining var (part.length - m) := by
  have hne' : part ++ rest ≠ [] := fun h0 => hne (List.append_eq_nil_iff.mp h0).1
  obtain ⟨iter₁, c, n, hrun, hc, hn, hat, hr, hsame⟩ := h.run_ensureAvailable hl hne'
  have hlen := hat.length_cur
  have hpos : 0 < c.cur.length := List.length_pos_iff.mpr hc
  have hppos : 0 < part.length := List.length_pos_iff.mpr hne
  have hrem₁ : iter₁.remaining var = part.length := by
    rw [← hrem]
    cases var
    · exact hsame.keyRemaining
    · exact hsame.valueRemaining
  rw [List.length_append] at hn
  obtain ⟨m, hm⟩ : ∃ m, m = min maxlen (min part.length (iter₁.blockLen - iter₁.blockOffset)) :=
    ⟨_, rfl⟩
  obtain ⟨htake, hr'⟩ := hr.split (k := m) (by omega) (by rw [List.length_append]; omega)
  rw [List.take_append_of_le_length (by omega)] at htake
  rw [List.drop_append_of_le_length (by omega)] at hr'
  have hfacing : Facing log { iter₁ with blockOffset := iter₁.blockOffset + m }
      (part.drop m ++ rest) c' := by
    refine ⟨_, _, ?_, hat.advance (k := m) (by omega), hr'⟩
    rw [List.length_append, List.length_drop]
    omega
  refine ⟨m, _, ?_, by omega, by omega, by omega, ?_, iter₁, hsame, rfl⟩
  · have hs' : ¬ iter.state ≠ .active := not_not_intro hs
    have hrem' : 0 < iter.remaining var := by omega
    have hres : (iter₁.compressionBuf.drop iter₁.blockOffset).take m = part.take m := by
      rw [htake, hat.drop_buf, List.take_append_of_le_length (by omega)]
    simp only [logiterChunk, EStateM.run_bind, run_assertIterOpen hl h.iterOpen, EStateM.run_get,
      if_neg hs', if_pos hrem', hrun, hrem₁, ← hm, EStateM.run_set, hres, EStateM.run_pure]
  · cases var <;> exact hfacing.congr rfl rfl rfl rfl rfl rfl rfl rfl

/-! ### An entry -/

theorem Partway.run_logiterKeychunk (hl : log.Opened) (h : Partway log iter key value c')
    (maxlen : Nat) :
    ∃ m iter', (logiterKeychunk log maxlen).run iter = .ok (key.take m) iter' ∧ m ≤ maxlen ∧
      m ≤ key.length ∧ (key ≠ [] → 0 < maxlen → 0 < m) ∧
      Partway log iter' (key.drop m) value c' ∧ SameHead iter iter' := by
  by_cases hkey : key = []
  · subst hkey
    exact ⟨0, iter, run_logiterChunk_done hl h.facing.iterOpen h.state maxlen h.keyRemaining,
      Nat.zero_le _, Nat.le_refl _, fun hne => absurd rfl hne, h, .refl iter⟩
  · obtain ⟨m, iter', hrun, hm, hm', hpos, hf, iter₁, hsame, rfl⟩ :=
      h.facing.run_logiterChunk .key hl h.state h.keyRemaining hkey maxlen
    exact ⟨m, _, hrun, hm, hm', fun _ => hpos, ⟨hsame.state.trans h.state, List.length_drop.symm,
      hsame.valueRemaining.trans h.valueRemaining, hf⟩,
      ⟨hsame.entryBlockPosition, hsame.entryBlockOffset, hsame.type, hsame.keylen, hsame.valuelen⟩⟩

/-- The part of `valuechunk` that passes over the rest of the key. -/
theorem Partway.skip_key (hl : log.Opened) (h : Partway log iter key value c') :
    ∃ iter', (skip log iter.keyRemaining).run iter = .ok () iter' ∧
      Partway log { iter' with keyRemaining := 0 } [] value c' ∧ SameHead iter iter' := by
  obtain ⟨iter₁, hrun, hf, hsame⟩ := h.facing.run_skip hl
  rw [h.keyRemaining]
  exact ⟨iter₁, hrun, ⟨hsame.state.trans h.state, rfl, hsame.valueRemaining.trans h.valueRemaining,
    hf.congr rfl rfl rfl rfl rfl rfl rfl rfl⟩, hsame.sameHead⟩

/-- `valuechunk` hands out the next bytes of the value, and drops the key. -/
theorem Partway.run_logiterValuechunk (hl : log.Opened) (h : Partway log iter key value c')
    (maxlen : Nat) :
    ∃ m iter', (logiterValuechunk log maxlen).run iter = .ok (value.take m) iter' ∧ m ≤ maxlen ∧
      m ≤ value.length ∧ (value ≠ [] → 0 < maxlen → 0 < m) ∧
      Partway log iter' [] (value.drop m) c' ∧ SameHead iter iter' := by
  obtain ⟨iter₁, hrun₁, h₁, hhead⟩ := h.skip_key hl
  have hrun : (logiterValuechunk log maxlen).run iter
      = (logiterChunk log maxlen .value).run { iter₁ with keyRemaining := 0 } := by
    rw [logiterValuechunk, run_get_bind, run_bind_ok hrun₁, run_modify_bind]
  rw [hrun]
  have hhead₁ : SameHead iter { iter₁ with keyRemaining := 0 } :=
    ⟨hhead.1, hhead.2, hhead.3, hhead.4, hhead.5⟩
  by_cases hvalue : value = []
  · subst hvalue
    exact ⟨0, _, run_logiterChunk_done hl h₁.facing.iterOpen h₁.state maxlen h₁.valueRemaining,
      Nat.zero_le _, Nat.le_refl _, fun hne => absurd rfl hne, h₁, hhead₁⟩
  · have hf₁ := h₁.facing
    rw [List.nil_append, ← List.append_nil value] at hf₁
    obtain ⟨m, iter', hrun', hm, hm', hpos, hf, iter₂, hsame, rfl⟩ :=
      hf₁.run_logiterChunk .value hl h₁.state h₁.valueRemaining hvalue maxlen
    rw [List.append_nil] at hf
    exact ⟨m, _, hrun', hm, hm', fun _ => hpos, ⟨hsame.state.trans h₁.state,
      hsame.keyRemaining.trans h₁.keyRemaining, List.length_drop.symm, hf⟩, hhead₁.trans
      ⟨hsame.entryBlockPosition, hsame.entryBlockOffset, hsame.type, hsame.keylen, hsame.valuelen⟩⟩

/-- `fill_key` hands out as much of the key as there is room for. -/
theorem Partway.run_logiterFillKey (hl : log.Opened) (h : Partway log iter key value c')
    (maxlen : Nat) :
    ∃ iter', (logiterFillKey log maxlen).run iter = .ok (key.take maxlen) iter' ∧
      Partway log iter' (key.drop maxlen) value c' ∧ SameHead iter iter' := by
  obtain ⟨iter', hrun, h'⟩ := run_fillLoop
    (P := fun key iter' => Partway log iter' key value c' ∧ SameHead iter iter')
    (fun _ _ maxlen h => by
      obtain ⟨m, iter', hrun, hm, hm', hpos, h', hhead⟩ := h.1.run_logiterKeychunk hl maxlen
      exact ⟨m, iter', hrun, hm, hm', hpos, h', h.2.trans hhead⟩)
    (key.length + 1) key iter maxlen [] (Nat.lt_succ_self _) ⟨h, .refl iter⟩
  refine ⟨iter', ?_, h'⟩
  rw [logiterFillKey, run_get_bind, h.keyRemaining, hrun, List.nil_append]

/-- `fill_value` hands out as much of the value as there is room for. -/
theorem Partway.run_logiterFillValue (hl : log.Opened) (h : Partway log iter key value c')
    (maxlen : Nat) :
    ∃ iter' key', (logiterFillValue log maxlen).run iter = .ok (value.take maxlen) iter' ∧
      Partway log iter' key' (value.drop maxlen) c' ∧ SameHead iter iter' := by
  obtain ⟨iter', hrun, ⟨key', h'⟩, hhead⟩ := run_fillLoop
    (P := fun value iter' => (∃ key', Partway log iter' key' value c') ∧ SameHead iter iter')
    (fun _ _ maxlen h => by
      obtain ⟨⟨key', h'⟩, hhead⟩ := h
      obtain ⟨m, iter', hrun, hm, hm', hpos, h'', hhead'⟩ := h'.run_logiterValuechunk hl maxlen
      exact ⟨m, iter', hrun, hm, hm', hpos, ⟨[], h''⟩, hhead.trans hhead'⟩)
    (value.length + 1) value iter maxlen [] (Nat.lt_succ_self _) ⟨⟨key, h⟩, .refl iter⟩
  refine ⟨iter', key', ?_, h', hhead⟩
  rw [logiterFillValue, run_get_bind, h.valueRemaining, hrun, List.nil_append]

end Sparkey
