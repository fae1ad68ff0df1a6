import Sparkey.Chunks
import Sparkey.Hashreader
import Sparkey.Reader.Alike

/-!
# Going back to the start of an entry

`reset` loads the block of the entry again and puts the offsets back, but not the number of
the entry, and what is left in the buffer of other blocks stays.  No later call can tell:
an entry that leaves its block is the last one in it, so the number is set anew before it
is used again (`reset_of_writing`).
-/

namespace Sparkey

open Program BlockStream

variable [Compressors] {log : Logreader} {blocks : List (List UInt8)} {es before after : List Entry}
  {e : Entry} {iter other iter' other' : Logiter} {loose : Prop} {c c' : Cursor UInt8} {j n : Nat}

/-! ### Iterators that cannot be told apart -/

def Overflows (log : Logreader) (iter : Logiter) : Prop :=
  ∀ b q, log.BlockAt iter.entryBlockPosition b q →
    b.length - iter.entryBlockOffset < iter.keylen + iter.valuelen

theorem Overflows.congr (h : Overflows log iter) (hs : SameHead iter iter') : Overflows log iter' := by
  intro b q hb
  rw [hs.entryBlockPosition] at hb
  rw [hs.entryBlockOffset, hs.keylen, hs.valuelen]
  exact h b q hb

/-- Two iterators that are the same, or at an end, or at one entry. -/
inductive Twin (log : Logreader) (blocks : List (List UInt8)) : Logiter → Logiter → Prop
  | refl (iter : Logiter) : Twin log blocks iter iter
  | closed {iter other : Logiter} : Near log False 0 iter other → iter.state = .closed →
      iter.keyRemaining = 0 → Twin log blocks iter other
  | inside {before es : List Entry} {e : Entry} {iter other : Logiter} :
      log.Carries blocks (before ++ e :: es) → Inside log blocks iter e es →
      Near log (Overflows log iter) (iter.keyRemaining + iter.valueRemaining) iter other →
      Twin log blocks iter other

theorem Twin.sameEntry (h : Twin log blocks iter other) : SameEntry iter other := by
  cases h with
  | refl => exact .refl iter
  | closed hnear => exact hnear.sameEntry
  | inside _ _ hnear => exact hnear.sameEntry

theorem StandsAt.loaded (h : StandsAt log iter e es) (hu : Usable log iter) :
    iter.blockLen ≤ iter.compressionBuf.length ∧ log.BlockAt iter.entryBlockPosition
      (iter.compressionBuf.take iter.blockLen) iter.nextBlockPosition ∧ iter.blockOffset ≤ iter.blockLen := by
  obtain ⟨hp, -, b, q, cs, hb, ho, -, -⟩ := h.unread
  obtain ⟨hle, hload⟩ := hu.cached.resolve_left fun h0 => hp (h.blockPosition ▸ h0.1)
  rw [h.blockPosition] at hload
  obtain ⟨rfl, -⟩ := log.source.block_det hb hload
  rw [List.length_take_of_le hle] at ho
  exact ⟨hle, hload, h.blockOffset ▸ ho⟩

theorem StandsAt.overflows (h : StandsAt log iter e es) (hu : Usable log iter)
    (ho : Overflows log iter) :
    iter.blockLen - iter.blockOffset < iter.keyRemaining + iter.valueRemaining := by
  obtain ⟨hle, hb, -⟩ := h.loaded hu
  have hlt := ho _ _ hb
  rw [List.length_take_of_le hle] at hlt
  rwa [h.blockOffset, h.keyRemaining, h.valueRemaining]

theorem StandsAt.within_or (h : StandsAt log iter e es) (hu : Usable log iter) :
    iter.blockOffset + (iter.keyRemaining + iter.valueRemaining) ≤ iter.blockLen ∨
      Overflows log iter := by
  obtain ⟨hle, hb, ho⟩ := h.loaded hu
  rcases Nat.lt_or_ge iter.blockLen (iter.blockOffset + (iter.keyRemaining + iter.valueRemaining)) with
    hlt | hge
  · right
    intro b q hb'
    obtain ⟨rfl, -⟩ := log.source.block_det hb hb'
    rw [List.length_take_of_le hle, ← h.blockOffset, ← h.keyRemaining, ← h.valueRemaining]
    omega
  · exact Or.inl hge

theorem Twin.reset (h : Twin log blocks iter other) :
    Accord (Twin log blocks) (Twin log blocks) ((logiterReset log).run iter)
      ((logiterReset log).run other) := by
  cases h with
  | refl => exact agree_refl (.refl ·) (.refl ·) _
  | closed hnear hs hk =>
    have hna : iter.state ≠ .active := by
      rw [hs]
      decide
    rw [run_logiterReset_inactive hna, run_logiterReset_inactive (hnear.sameEntry.state ▸ hna)]
    exact ⟨rfl, .closed hnear hs hk⟩
  | inside hc hin hnear =>
    obtain ⟨k, l, halike, hcount⟩ := hnear
    obtain ⟨s, hrun, hstands, hu⟩ := hin.run_logiterReset hc.toOpened
    obtain ⟨t, hrun', halike', hhead⟩ := halike.reset.ok hrun
    rw [hrun, hrun']
    refine ⟨rfl, .inside hc (hstands.inside hc hu) ⟨k, l, halike', hcount.imp_right ?_⟩⟩
    rintro ⟨ho, -⟩
    have ho' := ho.congr hhead
    exact ⟨ho', hstands.overflows hu ho'⟩

/-- A call that fails, or hands out nothing, and leaves the iterator as it is. -/
theorem agree_chunk_idle {E : Logiter → Logiter → Prop} (hE : E iter other)
    (hsame : SameEntry iter other) (hs : iter.state ≠ .active) (maxlen : Nat) (var : Part) :
    Accord E (fun s t => s = iter ∧ t = other) ((logiterChunk log maxlen var).run iter)
      ((logiterChunk log maxlen var).run other) := by
  rw [logiterChunk]
  refine (agree_assertIterOpen (E := E) (Q := fun s t => s = iter ∧ t = other) hE ⟨rfl, rfl⟩
    hsame.openStatus hsame.fileIdentifier).bind ?_
  rintro - s t - ⟨rfl, rfl⟩
  rw [run_get_bind, run_get_bind, hsame.state, if_pos hs, if_pos hs]
  exact ⟨rfl, hE⟩

theorem agree_valuechunk_idle {E : Logiter → Logiter → Prop} (hE : E iter other)
    (hsame : SameEntry iter other) (hs : iter.state ≠ .active) (hk : iter.keyRemaining = 0)
    (maxlen : Nat) :
    Accord E (fun s t => s = iter ∧ t = other) ((logiterValuechunk log maxlen).run iter)
      ((logiterValuechunk log maxlen).run other) := by
  have hrun : ∀ it : Logiter, it.keyRemaining = 0 →
      (logiterValuechunk log maxlen).run it = (logiterChunk log maxlen .value).run it := by
    intro it h0
    have hit : { it with keyRemaining := 0 } = it := by
      rw [← h0]
    rw [logiterValuechunk, run_get_bind, h0, skip, skipLoop, if_pos rfl]
    show (logiterChunk log maxlen .value).run { it with keyRemaining := 0 } = _
    rw [hit]
  rw [hrun iter hk, hrun other (hsame.keyRemaining.trans hk)]
  exact agree_chunk_idle hE hsame hs maxlen .value

theorem Twin.stay_closed (h : Twin log blocks iter other) (hs : iter.state = .closed)
    (hk : iter.keyRemaining = 0) {c : LogCall} (hc : c.Stays) :
    Accord (Twin log blocks) (Twin log blocks) ((c.program log).run iter) ((c.program log).run other) := by
  have hsame := h.sameEntry
  have hna : iter.state ≠ .active := by
    rw [hs]
    decide
  have hstay : ∀ s t, s = iter ∧ t = other → Twin log blocks s t := by
    rintro s t ⟨rfl, rfl⟩
    exact h
  cases c with
  | next => exact hc.elim
  | skip count => exact hc.elim
  | seek position => exact hc.elim
  | reset => exact h.reset.bind fun _ _ _ _ hst => ⟨rfl, hst⟩
  | keychunk maxlen => exact (agree_chunk_idle h hsame hna maxlen .key).mono (fun _ _ h => h) hstay
  | valuechunk maxlen =>
    exact (agree_valuechunk_idle h hsame hna hk maxlen).mono (fun _ _ h => h) hstay
  | fillKey maxlen =>
    rw [LogCall.program, logiterFillKey, run_get_bind, run_get_bind, hsame.keyRemaining]
    refine (agree_fillLoop ?_ _ _ _ ⟨rfl, rfl⟩).mono (fun _ _ h => h) hstay
    rintro maxlen s t ⟨rfl, rfl⟩
    exact agree_chunk_idle h hsame hna maxlen .key
  | fillValue maxlen =>
    rw [LogCall.program, logiterFillValue, run_get_bind, run_get_bind, hsame.valueRemaining]
    refine (agree_fillLoop ?_ _ _ _ ⟨rfl, rfl⟩).mono (fun _ _ h => h) hstay
    rintro maxlen s t ⟨rfl, rfl⟩
    exact agree_valuechunk_idle h hsame hna hk maxlen

/-- **Calls for pieces of the entry**, and `reset`, cannot tell twins apart. -/
theorem Twin.stay (h : Twin log blocks iter other) {c : LogCall} (hs : c.Stays) :
    Accord (Twin log blocks) (Twin log blocks) ((c.program log).run iter) ((c.program log).run other) := by
  cases h with
  | refl => exact agree_refl (.refl ·) (.refl ·) _
  | closed hnear hstate hk => exact (Twin.closed hnear hstate hk).stay_closed hstate hk hs
  | inside hc hin hnear =>
    obtain ⟨bytes, s, hrun, hin'⟩ := hin.stay hc hs
    have hread : Accord (fun _ _ => True) (Kin log (Overflows log iter) iter) ((c.program log).run iter)
        ((c.program log).run other) → Accord (Twin log blocks) (Twin log blocks)
          ((c.program log).run iter) ((c.program log).run other) := by
      intro hagree
      obtain ⟨t, hrun', hkin⟩ := hagree.ok hrun
      rw [hrun, hrun']
      exact ⟨rfl, .inside hc hin' (hkin.near.imp fun ho => ho.congr hkin.head)⟩
    have hkin : Kin log (Overflows log iter) iter iter other := ⟨hnear, rfl, .refl iter⟩
    cases c with
    | next => exact hs.elim
    | skip count => exact hs.elim
    | seek position => exact hs.elim
    | keychunk maxlen => exact hread (hkin.chunk maxlen .key)
    | valuechunk maxlen => exact hread (hkin.valuechunk maxlen)
    | fillKey maxlen => exact hread (hkin.fillKey maxlen)
    | fillValue maxlen => exact hread (hkin.fillValue maxlen)
    | reset => exact (Twin.inside hc hin hnear).reset.bind fun _ _ _ _ hst => ⟨rfl, hst⟩

/-! ### `next` -/

theorem Logreader.Ahead.full (hc : log.Carries blocks (before ++ e :: after))
    (ha : log.Ahead blocks c (e :: after) j) (hat : At log iter c n) (hne : c.cur ≠ [])
    (hlarge : ¬ HeadFits log.header.setting e) :
    iter.blockLen = log.header.compressionBlockSize := by
  obtain ⟨hcomp, hlt⟩ : usesCompressor log.header.compressionType = true ∧
      log.header.compressionBlockSize < e.header.length := by
    simpa [HeadFits, Logheader.setting] using hlarge
  have hm : log.source.moves = false := by
    show (!usesCompressor log.header.compressionType) = false
    rw [hcomp]
    rfl
  -- the block of the place
  obtain ⟨b, hj, hget, -, hpos⟩ := ha.inside.resolve_left hne
  obtain ⟨i, rfl⟩ := Nat.exists_eq_add_of_le' hj
  rw [Nat.add_sub_cancel] at hget hpos
  have hp := hat.pos hne
  rw [if_neg (by rw [hm]; decide)] at hp
  have hpre := hpos hm
  have hchain := ha.chain
  rw [hp] at hpre
  rw [hat.next] at hchain
  have hblocks := hc.eq_append hpre (hat.loaded hne) hchain
  have hi : blocks[i]? = some (iter.compressionBuf.take iter.blockLen) := by
    have hile : i ≤ blocks.length := Nat.le_of_lt (List.getElem?_eq_some_iff.mp hget).1
    have hlen : (blocks.take i).length = i := List.length_take_of_le hile
    rw [hblocks, List.getElem?_append_right (Nat.le_of_eq hlen), hlen, Nat.sub_self]
    rfl
  -- where the head begins
  have hhead : (before ++ e :: after)[before.length]? = some e := by
    rw [List.getElem?_append_right (Nat.le_refl _), Nat.sub_self]
    rfl
  obtain ⟨k, b', u, hk, hu, hb'⟩ := hc.cut.head hhead
  have hle : ∀ d ∈ blocks, d.length ≤ log.header.compressionBlockSize := hc.length_le hcomp
  obtain ⟨-, rfl, hfull⟩ := hb'.resolve_left fun hpre => by
    have := hpre.length_le
    rw [List.length_append] at this
    have := hle b' (List.mem_of_getElem? hk)
    omega
  rw [List.append_nil, List.take_left] at hu
  -- no other block can be the one that is full there
  have hstart : Tiling.start blocks k = (pieces before).flatten.length := congrArg List.length hu
  have hplace := congrArg List.length (ha.flatten_take hc)
  rw [List.length_append, hat.length_cur] at hplace
  have hcurpos := List.length_pos_iff.mpr hne
  rw [hat.length_cur] at hcurpos
  have hsucc := Tiling.start_succ hi
  have hsucc' := Tiling.start_succ hk
  rw [List.length_take_of_le hat.cached.le] at hsucc
  have hlen := hle _ (List.mem_of_getElem? hi)
  rw [List.length_take_of_le hat.cached.le] at hlen
  have hplace' : Tiling.start blocks (i + 1)
      = (pieces before).flatten.length + (iter.blockLen - iter.blockOffset) := hplace
  rcases Nat.lt_trichotomy k i with hlt | rfl | hgt
  · have : Tiling.start blocks (k + 1) ≤ Tiling.start blocks i := Tiling.start_mono hlt
    omega
  · rw [hk] at hi
    rw [← hfull, Option.some.inj hi, List.length_take_of_le hat.cached.le]
  · have : Tiling.start blocks (i + 1) ≤ Tiling.start blocks k := Tiling.start_mono hgt
    omega

theorem Near.at_cursor (h : Near log loose 0 iter other) (hat : At log iter c n) : At log other c n := by
  have hcount := h.entryCount_eq
  obtain ⟨k, l, ⟨same, -, take, -⟩, -⟩ := h
  generalize other.compressionBuf = buf at same take
  subst same
  obtain ⟨hopen, hcached, hoffset, hcur, hnext, hnz, hpz, hpos, hnum⟩ := hat
  refine ⟨⟨hopen.1, hopen.2⟩, hcached.imp_right ?_, hoffset, ?_, hnext, hnz, hpz, hpos, ?_⟩
  · rintro ⟨hle, hb⟩
    have hlen := congrArg List.length take
    rw [List.length_take, List.length_take_of_le hle] at hlen
    refine ⟨?_, ?_⟩
    · show iter.blockLen ≤ buf.length
      omega
    · show log.BlockAt iter.blockPosition (buf.take iter.blockLen) iter.nextBlockPosition
      rwa [take]
  · show c.cur = (buf.take iter.blockLen).drop iter.blockOffset
    rwa [take]
  · rwa [hcount]

omit [Compressors] in
theorem Near.entered (h : Near log loose 0 iter other) (loose' : Prop) (e : Entry) (m : Nat) :
    Near log loose' m (iter.entered e) (other.entered e) := by
  have hcount := h.entryCount_eq
  obtain ⟨k, l, ⟨same, hk, take, drop⟩, -⟩ := h
  generalize other.compressionBuf = buf at same take drop
  subst same
  exact ⟨_, _, ⟨rfl, rfl, take, drop⟩, Or.inl (congrArg (· + 1) hcount.symm)⟩

theorem agree_readHead (hc : log.Carries blocks (before ++ e :: after))
    (ha : log.Ahead blocks c (e :: after) j) (hat : At log iter c n) (hne : c.cur ≠ [])
    (hm : log.source.moves = false) (h : Near log loose 0 iter other) :
    Accord (Twin log blocks) (fun s t => Twin log blocks s t ∧ t.entryCount = s.entryCount)
      (readHead.run iter) (readHead.run other) := by
  by_cases hfit : HeadFits log.header.setting e
  · -- the head is in the part of the buffer that is the same
    obtain ⟨tl, hopens⟩ := ha.opens hc hfit
    have hcur : c.cur = e.header ++ tl := hopens.resolve_right fun h0 => hne h0.1
    have hread : ∀ {it : Logiter}, At log it c n → readHead.run it = .ok () (it.entered e) := by
      intro it hat
      have hdrop := hat.drop_buf
      rw [hcur, List.append_assoc] at hdrop
      exact run_readHead_entered hdrop (Nat.le_trans hat.offset hat.cached.le)
    have hpos := hat.pos hne
    rw [if_neg (by rw [hm]; decide)] at hpos
    have hrest := ha.rest
    rw [hcur, flatten_pieces_cons, Entry.bytes, List.append_assoc, List.append_assoc,
      List.append_cancel_left_eq] at hrest
    obtain ⟨hstands, hu⟩ := standsAt_entered hat (ha.inChain hat hne) hpos.symm hcur ha.chain hrest
    rw [hread hat, hread (h.at_cursor hat)]
    exact ⟨rfl, .inside hc (hstands.inside hc hu) (h.entered _ e _),
      congrArg (· + 1) h.entryCount_eq⟩
  · -- the block is as long as a block can be, so all of the buffer is the same
    have hlen := ha.full hc hat hne hfit
    have hcomp : usesCompressor log.header.compressionType = true := by
      simpa [Logreader.source] using hm
    have heq : other = iter := by
      have hcount := h.entryCount_eq
      obtain ⟨k, l, halike, -⟩ := h
      have hbuf : other.compressionBuf = iter.compressionBuf := by
        have htake := halike.take
        rw [hlen] at htake
        rw [← List.take_append_drop log.header.compressionBlockSize other.compressionBuf, htake,
          halike.drop hcomp, List.take_append_drop]
      have hl : l = iter.entryCount := by
        rw [← hcount, halike.same]
      rw [halike.same, hbuf, hl]
    rw [heq]
    exact agree_refl (.refl ·) (fun s => ⟨.refl s, rfl⟩) _

theorem agree_readEntry (hc : log.Carries blocks (before ++ es)) (ha : log.Ahead blocks c es j)
    (hat : At log iter c n) (hk : iter.keyRemaining = 0) (h : Near log loose 0 iter other) :
    Accord (Twin log blocks) (fun s t => Twin log blocks s t ∧ t.entryCount = s.entryCount)
      ((readEntry log).run iter) ((readEntry log).run other) := by
  rw [readEntry, run_get_bind, run_get_bind, h.blockLen, h.blockOffset]
  by_cases h0 : iter.blockLen - iter.blockOffset = 0
  · -- the end
    have hclosed : Near log False 0 { iter with state := .closed } { other with state := .closed } := by
      refine Near.map ?_ (fun it => { it with state := .closed }) (fun _ _ _ => rfl) rfl rfl rfl rfl
      obtain ⟨k, l, halike, hkl⟩ := h
      exact ⟨k, l, halike, Or.inl (hkl.resolve_right fun h => Nat.not_lt_zero _ h.2)⟩
    rw [h.blockLen, h.blockOffset] at hclosed
    rw [if_pos h0, if_pos h0]
    exact ⟨rfl, .closed hclosed rfl hk, h.entryCount_eq⟩
  have hne : c.cur ≠ [] := by
    rw [← List.length_pos_iff, hat.length_cur]
    omega
  obtain ⟨e, after, rfl⟩ : ∃ e after, es = e :: after := by
    cases es with
    | nil => exact absurd (ha.ends hc).1 hne
    | cons e after => exact ⟨e, after, rfl⟩
  rw [if_neg h0, if_neg h0]
  by_cases hm : log.source.moves = true
  · -- the buffer is set anew
    have heq : ∀ p o l : Nat, { other with
          blockPosition := p, blockOffset := o, blockLen := l, entryCount := -1,
          compressionBuf := log.data.drop p } = { iter with
          blockPosition := p, blockOffset := o, blockLen := l, entryCount := -1,
          compressionBuf := log.data.drop p } := by
      intro p o l
      obtain ⟨k, l, halike, -⟩ := h
      rw [halike.same]
    rw [if_pos (Logreader.moves_iff.mp hm), if_pos (Logreader.moves_iff.mp hm), run_set_bind, run_set_bind,
      h.blockPosition, heq]
    exact agree_refl (.refl ·) (fun s => ⟨.refl s, rfl⟩) _
  · rw [if_neg (mt Logreader.moves_iff.mpr hm), if_neg (mt Logreader.moves_iff.mpr hm)]
    exact agree_readHead hc ha hat hne (Bool.eq_false_of_not_eq_true hm) h

omit [Compressors] in
def Logiter.cleared (iter : Logiter) : Logiter :=
  { iter with state := .invalid, keyRemaining := 0, valueRemaining := 0, keylen := 0, valuelen := 0 }

theorem run_logiterNext_active (hl : log.Opened) (hs : iter.state = .active) (ho : IterOpen log iter) :
    (logiterNext log).run iter = (do
      skip log iter.keyRemaining
      skip log iter.valueRemaining
      ensureAvailable log
      readEntry log : Run Logiter Unit).run iter.cleared := by
  have hne : iter.state ≠ .closed := by
    rw [hs]
    decide
  have hopen : IterOpen log iter.cleared := ⟨ho.1, ho.2⟩
  rw [logiterNext, run_get_bind, if_neg hne, run_set_bind, if_pos hs, if_pos hs]
  exact run_bind_ok (run_assertIterOpen hl hopen)

/-- **`next` takes twins to twins**, with the same number of the entry. -/
theorem Twin.next (h : Twin log blocks iter other) :
    Accord (Twin log blocks) (fun s t => Twin log blocks s t ∧ t.entryCount = s.entryCount)
      ((logiterNext log).run iter) ((logiterNext log).run other) := by
  cases h with
  | refl => exact agree_refl (.refl ·) (fun s => ⟨.refl s, rfl⟩) _
  | closed hnear hs hk =>
    rw [run_logiterNext_closed hs, run_logiterNext_closed (hnear.sameEntry.state.trans hs)]
    exact ⟨rfl, .closed hnear hs hk, hnear.entryCount_eq⟩
  | @inside before es e _ _ hc hin hnear =>
    have hl := hc.toOpened
    obtain ⟨key, value, c', j, hp, ha⟩ := hin.partway
    have hsame := hnear.sameEntry
    rw [run_logiterNext_active hl hp.state hp.facing.iterOpen, run_logiterNext_active hl
      (hsame.state.trans hp.state) (hp.facing.iterOpen.of_same hsame), hsame.keyRemaining,
      hsame.valueRemaining, hp.keyRemaining, hp.valueRemaining]
    -- both pass over what is left of the entry
    have hnear₀ : Near log (Overflows log iter) (key.length + value.length) iter.cleared other.cleared := by
      rw [hp.keyRemaining, hp.valueRemaining] at hnear
      exact hnear.map Logiter.cleared (fun _ _ _ => rfl) rfl rfl rfl rfl
    have hfacing : Facing log iter.cleared (key ++ (value ++ [])) c' := by
      rw [List.append_nil]
      exact hp.facing.congr rfl rfl rfl rfl rfl rfl rfl rfl
    obtain ⟨s₁, hrun₁, hf₁, hsame₁⟩ := hfacing.run_skip hl
    obtain ⟨t₁, hrun₁', hnear₁, -⟩ := (hnear₀.skip (Nat.le_add_right _ _)).ok hrun₁
    obtain ⟨s₂, hrun₂, ⟨c, n, -, hat₂, hr₂⟩, hsame₂⟩ := hf₁.run_skip hl
    obtain ⟨t₂, hrun₂', hnear₂, -⟩ := (hnear₁.skip (Nat.le_sub_of_add_le' (Nat.le_refl _))).ok hrun₂
    rw [run_bind_ok hrun₁, run_bind_ok hrun₁', run_bind_ok hrun₂, run_bind_ok hrun₂']
    rw [Nat.add_sub_cancel_left, Nat.sub_self] at hnear₂
    cases hr₂
    -- and go to the block of the next head
    obtain ⟨s₃, c₃, j₃, hrun₃, hsame₃, hat₃, ha₃, -⟩ := ha.run_ensureAvailable hl hat₂
    obtain ⟨t₃, hrun₃', hnear₃, -⟩ := hnear₂.ensureAvailable.ok hrun₃
    rw [run_bind_ok hrun₃, run_bind_ok hrun₃']
    have hk : s₃.keyRemaining = 0 := by
      rw [hsame₃.keyRemaining, hsame₂.keyRemaining, hsame₁.keyRemaining]
      rfl
    have hc' : log.Carries blocks ((before ++ [e]) ++ es) := by
      rwa [List.append_assoc]
    exact agree_readEntry hc' ha₃ hat₃ hk hnear₃

theorem Twin.skip (h : Twin log blocks iter other) (count : Nat) :
    Accord (Twin log blocks) (Twin log blocks) ((logiterSkip log count).run iter)
      ((logiterSkip log count).run other) := by
  induction count generalizing iter other with
  | zero => exact ⟨rfl, h⟩
  | succ count ih => exact h.next.bind fun _ _ _ _ hst => ih hst.1

/-! ### `sparkey_logiter_hashnext` -/

section Hashnext

variable [HashFunctions] {reader : Hashreader}

theorem Twin.iterHash (h : Twin log blocks iter other) (hashHeader : Hashheader) :
    Accord (Twin log blocks) (Twin log blocks) ((iterHash hashHeader log).run iter)
      ((iterHash hashHeader log).run other) := by
  rw [Sparkey.iterHash]
  refine (h.stay (c := .keychunk iterHashMaxlen) trivial).attempt.bind ?_
  rintro first s t - hst
  have h₁ : Twin log blocks s t := hst.elim id id
  cases first with
  | error code => exact ⟨rfl, h₁⟩
  | ok buf =>
    simp only
    rw [run_get_bind, run_get_bind, h₁.sameEntry.keylen]
    by_cases hlen : buf.length = s.keylen
    · rw [if_pos hlen]
      exact ⟨rfl, h₁⟩
    rw [if_neg hlen]
    refine (h₁.stay (c := .fillKey iterHashMaxlen) trivial).attempt.bind ?_
    rintro rest s' t' - hst'
    have h₂ : Twin log blocks s' t' := hst'.elim id id
    cases rest with
    | error code => exact ⟨rfl, h₂⟩
    | ok rest =>
      simp only
      split_ifs <;> exact ⟨rfl, h₂⟩

theorem Twin.hashnextLoop (hlog : reader.log = log) : ∀ (fuel : Nat) {iter other : Logiter},
    Twin log blocks iter other → Accord (Twin log blocks) (Twin log blocks)
      ((hashnextLoop reader fuel).run iter) ((hashnextLoop reader fuel).run other) := by
  intro fuel
  induction fuel with
  | zero => exact fun _ => trivial
  | succ fuel ih =>
    intro iter other h
    rw [Sparkey.hashnextLoop, hlog]
    refine h.next.bind ?_
    rintro - s t - ⟨hst, hcount⟩
    have hsame := hst.sameEntry
    rw [run_get_bind, run_get_bind, hsame.state, hsame.type, hsame.entryBlockPosition, hcount]
    by_cases hs : s.state ≠ .active
    · rw [if_pos hs]
      exact ⟨rfl, hst⟩
    rw [if_neg hs]
    by_cases htype : s.type ≠ .put
    · rw [if_pos htype]
      exact ih hst
    rw [if_neg htype]
    refine (hst.iterHash reader.header).bind ?_
    rintro keyHash s' t' - hst'
    simp only
    by_cases hc : reader.header.hashCapacity = 0
    · rw [if_pos hc]
      trivial
    rw [if_neg hc]
    split
    · trivial
    · exact hst'.reset
    · exact ih hst'

/-- **`hashnext` takes twins to twins.** -/
theorem Twin.hashnext (h : Twin log blocks iter other) (hlog : reader.log = log) :
    Accord (Twin log blocks) (Twin log blocks) ((logiterHashnext reader).run iter)
      ((logiterHashnext reader).run other) := by
  rw [logiterHashnext, assertReaderOpen]
  by_cases ho : reader.openStatus ≠ magicValueHashreader
  · rw [if_pos ho]
    exact ⟨rfl, h⟩
  · rw [if_neg ho]
    exact h.hashnextLoop hlog _

end Hashnext

/-! ### What reading leaves alone -/

omit [Compressors] in
theorem ok_assertIterOpen (h : (assertIterOpen log).run iter = .ok () iter') : iter' = iter := by
  have hagree : Accord (fun _ _ => True) (fun s _ => s = iter) ((assertIterOpen log).run iter)
      ((assertIterOpen log).run iter) := agree_assertIterOpen trivial rfl rfl rfl
  obtain ⟨-, -, hs⟩ := hagree.ok h
  exact hs

/-- An iterator after some calls for pieces of the entry that `iter` is at. -/
structure Onward (log : Logreader) (iter iter' : Logiter) : Prop extends SameHead iter iter' where
  state : iter'.state = iter.state
  drop : SameTail log iter iter'
  /-- An entry that ends in its block is read there. -/
  within : iter.blockOffset + (iter.keyRemaining + iter.valueRemaining) ≤ iter.blockLen →
    iter'.blockLen = iter.blockLen ∧ iter'.entryCount = iter.entryCount ∧
      iter'.blockOffset + (iter'.keyRemaining + iter'.valueRemaining) ≤ iter'.blockLen

omit [Compressors] in
theorem Onward.refl (iter : Logiter) : Onward log iter iter :=
  ⟨.refl iter, rfl, fun _ => rfl, fun h => ⟨rfl, rfl, h⟩⟩

omit [Compressors] in
theorem Onward.trans {iter'' : Logiter} (h : Onward log iter iter') (h' : Onward log iter' iter'') :
    Onward log iter iter'' := by
  refine ⟨h.toSameHead.trans h'.toSameHead, h'.state.trans h.state,
    fun hu => (h'.drop hu).trans (h.drop hu), fun hw => ?_⟩
  obtain ⟨hlen, hcount, hw'⟩ := h.within hw
  obtain ⟨hlen', hcount', hw''⟩ := h'.within hw'
  exact ⟨hlen'.trans hlen, hcount'.trans hcount, hw''⟩

theorem ok_seekblock {p : Nat} (h : (seekblock log p).run iter = .ok () iter') :
    SameEntry iter iter' ∧ SameTail log iter iter' ∧ iter'.entryCount = iter.entryCount := by
  simp only [seekblock, run_modify_bind, run_get_bind] at h
  by_cases hcache : iter.blockPosition = p
  · rw [if_pos hcache] at h
    cases h
    exact ⟨⟨rfl, rfl, rfl, rfl, rfl, rfl, rfl, rfl, rfl, rfl⟩, fun _ => rfl, rfl⟩
  rw [if_neg hcache] at h
  by_cases hu : usesCompressor log.header.compressionType = true
  · rw [if_pos hu] at h
    cases hread : readVlq log.data p with
    | none =>
      rw [hread] at h
      cases h
    | some v =>
      simp only [hread] at h
      by_cases hlt : log.data.length < v.2 + u32 v.1
      · rw [if_pos hlt] at h
        cases h
      rw [if_neg hlt] at h
      cases hdec : (sparkeyCompressors log.header.compressionType).decompress
          ((log.data.drop v.2).take (u32 v.1)) log.header.compressionBlockSize with
      | error spoil =>
        simp only [hdec] at h
        cases h
      | ok output =>
        have hle := (sparkeyCompressors log.header.compressionType).decompress_le hdec
        simp only [hdec] at h
        cases h
        refine ⟨⟨rfl, rfl, rfl, rfl, rfl, rfl, rfl, rfl, rfl, rfl⟩, fun _ => ?_, rfl⟩
        rw [List.drop_append, List.drop_eq_nil_of_le hle, List.nil_append, List.drop_drop,
          Nat.add_sub_cancel' hle]
  · rw [if_neg hu] at h
    by_cases hlt : log.dataLen < p
    · rw [if_pos hlt] at h
      cases h
    rw [if_neg hlt] at h
    cases h
    exact ⟨⟨rfl, rfl, rfl, rfl, rfl, rfl, rfl, rfl, rfl, rfl⟩, fun hu' => absurd hu' hu, rfl⟩

theorem ok_logiterReset (h : (logiterReset log).run iter = .ok () iter') :
    SameHead iter iter' ∧ SameTail log iter iter' ∧ iter'.entryCount = iter.entryCount := by
  rw [logiterReset, run_get_bind] at h
  by_cases hs : iter.state = .active
  case neg =>
    rw [if_pos hs] at h
    cases h
  rw [if_neg (not_not_intro hs)] at h
  obtain ⟨_, iter₁, hrun, h⟩ := ok_bind h
  obtain ⟨hsame, htail, hcount⟩ := ok_seekblock hrun
  simp only [EStateM.run_modify] at h
  cases h
  have hhead := hsame.sameHead
  exact ⟨⟨hhead.1, hhead.2, hhead.3, hhead.4, hhead.5⟩, htail, hcount⟩

theorem ok_ensureAvailable (h : (ensureAvailable log).run iter = .ok () iter') :
    SameEntry iter iter' ∧ SameTail log iter iter' ∧
      (iter.blockOffset < iter.blockLen → iter' = iter) := by
  rw [ensureAvailable, run_get_bind] at h
  by_cases hhere : iter.blockOffset < iter.blockLen
  · rw [if_pos hhere] at h
    cases h
    exact ⟨.refl iter, fun _ => rfl, fun _ => rfl⟩
  rw [if_neg hhere] at h
  by_cases hend : log.header.dataEnd ≤ iter.nextBlockPosition
  · rw [if_pos hend] at h
    cases h
    exact ⟨⟨rfl, rfl, rfl, rfl, rfl, rfl, rfl, rfl, rfl, rfl⟩, fun _ => rfl, fun hlt => absurd hlt hhere⟩
  · rw [if_neg hend] at h
    obtain ⟨_, iter₁, hrun, h⟩ := ok_bind h
    obtain ⟨hsame, hdrop, -⟩ := ok_seekblock hrun
    simp only [EStateM.run_modify] at h
    cases h
    exact ⟨⟨hsame.1, hsame.2, hsame.3, hsame.4, hsame.5, hsame.6, hsame.7, hsame.8, hsame.9, hsame.10⟩,
      hdrop, fun hlt => absurd hlt hhere⟩

theorem ok_skipLoop : ∀ (fuel : Nat) {len : Nat} {iter iter' : Logiter},
    (skipLoop log fuel len).run iter = .ok () iter' →
    SameEntry iter iter' ∧ SameTail log iter iter' ∧
      (iter.blockOffset + len ≤ iter.blockLen →
        iter' = { iter with blockOffset := iter.blockOffset + len }) := by
  intro fuel
  induction fuel with
  | zero =>
    intro len iter iter' h
    rw [skipLoop] at h
    by_cases h0 : len = 0
    · rw [if_pos h0] at h
      cases h
      exact ⟨.refl iter, fun _ => rfl, fun _ => by rw [h0]; rfl⟩
    · rw [if_neg h0] at h
      cases h
  | succ fuel ih =>
    intro len iter iter' h
    rw [skipLoop] at h
    by_cases h0 : len = 0
    · rw [if_pos h0] at h
      cases h
      exact ⟨.refl iter, fun _ => rfl, fun _ => by rw [h0]; rfl⟩
    rw [if_neg h0] at h
    obtain ⟨_, iter₁, hrun, h⟩ := ok_bind h
    obtain ⟨hsame, hdrop, hhere⟩ := ok_ensureAvailable hrun
    rw [run_get_bind, run_set_bind] at h
    obtain ⟨hsame', hdrop', hwithin⟩ := ih h
    refine ⟨hsame.trans ⟨hsame'.1, hsame'.2, hsame'.3, hsame'.4, hsame'.5, hsame'.6, hsame'.7, hsame'.8,
      hsame'.9, hsame'.10⟩, fun hu => (hdrop' hu).trans (hdrop hu), fun hle => ?_⟩
    obtain rfl := hhere (by omega)
    have hmin : min len (iter₁.blockLen - iter₁.blockOffset) = len := by omega
    rw [hmin, Nat.sub_self] at hwithin
    exact hwithin hle

theorem Onward.chunk {maxlen : Nat} {var : Part} {bytes : List UInt8}
    (h : (logiterChunk log maxlen var).run iter = .ok bytes iter') : Onward log iter iter' := by
  rw [logiterChunk] at h
  obtain ⟨_, s, hopen, h₁⟩ := ok_bind h
  obtain rfl := ok_assertIterOpen hopen
  rw [run_get_bind] at h₁
  by_cases hs : s.state = .active
  case neg =>
    rw [if_pos hs] at h₁
    cases h₁
  rw [if_neg (not_not_intro hs)] at h₁
  by_cases hpos : 0 < s.remaining var
  case neg =>
    rw [if_neg hpos] at h₁
    cases h₁
    exact .refl _
  rw [if_pos hpos] at h₁
  obtain ⟨_, iter₁, hrun, h₂⟩ := ok_bind h₁
  obtain ⟨hsame, htail, hhere⟩ := ok_ensureAvailable hrun
  rw [run_get_bind, run_set_bind] at h₂
  obtain ⟨m, hm⟩ : ∃ m, m = min maxlen (min (iter₁.remaining var) (iter₁.blockLen - iter₁.blockOffset)) :=
    ⟨_, rfl⟩
  rw [← hm] at h₂
  cases h₂
  have hhead := hsame.sameHead
  have hle : m ≤ iter₁.remaining var := by
    rw [hm]
    exact Nat.le_trans (Nat.min_le_right _ _) (Nat.min_le_left _ _)
  refine ⟨?_, ?_, ?_, fun hw => ?_⟩
  · cases var <;> exact ⟨hhead.1, hhead.2, hhead.3, hhead.4, hhead.5⟩
  · cases var <;> exact hsame.state
  · cases var <;> exact htail
  · have hlt : s.blockOffset < s.blockLen := by
      have : 0 < s.keyRemaining + s.valueRemaining := by
        cases var with
        | key => exact Nat.lt_of_lt_of_le hpos (Nat.le_add_right _ _)
        | value => exact Nat.lt_of_lt_of_le hpos (Nat.le_add_left _ _)
      omega
    obtain rfl := hhere hlt
    cases var with
    | key =>
      refine ⟨rfl, rfl, ?_⟩
      show iter₁.blockOffset + m + (iter₁.keyRemaining - m + iter₁.valueRemaining) ≤ iter₁.blockLen
      have : m ≤ iter₁.keyRemaining := hle
      omega
    | value =>
      refine ⟨rfl, rfl, ?_⟩
      show iter₁.blockOffset + m + (iter₁.keyRemaining + (iter₁.valueRemaining - m)) ≤ iter₁.blockLen
      have : m ≤ iter₁.valueRemaining := hle
      omega

theorem Onward.valuechunk {maxlen : Nat} {bytes : List UInt8}
    (h : (logiterValuechunk log maxlen).run iter = .ok bytes iter') : Onward log iter iter' := by
  rw [logiterValuechunk, run_get_bind] at h
  obtain ⟨_, iter₁, hrun, h⟩ := ok_bind h
  obtain ⟨hsame, htail, hwithin⟩ := ok_skipLoop _ hrun
  rw [run_modify_bind] at h
  refine Onward.trans ?_ (Onward.chunk h)
  have hhead := hsame.sameHead
  refine ⟨⟨hhead.1, hhead.2, hhead.3, hhead.4, hhead.5⟩, hsame.state, htail, fun hw => ?_⟩
  obtain rfl := hwithin (by omega)
  refine ⟨rfl, rfl, ?_⟩
  show iter.blockOffset + iter.keyRemaining + (0 + iter.valueRemaining) ≤ iter.blockLen
  omega

omit [Compressors] in
theorem Onward.fillLoop {chunk : Nat → Run Logiter (List UInt8)}
    (hchunk : ∀ maxlen bytes iter iter', (chunk maxlen).run iter = .ok bytes iter' →
      Onward log iter iter') :
    ∀ (fuel maxlen : Nat) (filled : List UInt8) {bytes : List UInt8} {iter iter' : Logiter},
      (fillLoop chunk fuel maxlen filled).run iter = .ok bytes iter' → Onward log iter iter' := by
  intro fuel
  induction fuel with
  | zero =>
    intro maxlen filled bytes iter iter' h
    rw [Sparkey.fillLoop] at h
    split_ifs at h
    · cases h
      exact .refl iter
    · cases h
  | succ fuel ih =>
    intro maxlen filled bytes iter iter' h
    rw [Sparkey.fillLoop] at h
    by_cases h0 : maxlen = 0
    · rw [if_pos h0] at h
      cases h
      exact .refl iter
    rw [if_neg h0] at h
    obtain ⟨res, iter₁, hrun, h⟩ := ok_bind h
    refine (hchunk _ _ _ _ hrun).trans ?_
    split_ifs at h
    · cases h
      exact .refl _
    · exact ih _ _ h

omit [Compressors] in
theorem PartCall.stays (var : Part) (call : PartCall) : (call.logCall var).Stays := by
  cases var <;> cases call <;> trivial

theorem Onward.logCall {var : Part} {call : PartCall} {bytes : List UInt8}
    (h : ((call.logCall var).program log).run iter = .ok bytes iter') : Onward log iter iter' := by
  have hkey : ∀ maxlen bytes iter iter', (logiterKeychunk log maxlen).run iter = .ok bytes iter' →
      Onward log iter iter' := fun _ _ _ _ h => Onward.chunk h
  have hvalue : ∀ maxlen bytes iter iter', (logiterValuechunk log maxlen).run iter = .ok bytes iter' →
      Onward log iter iter' := fun _ _ _ _ h => Onward.valuechunk h
  cases var with
  | key =>
    cases call with
    | chunk maxlen => exact hkey _ _ _ _ h
    | fill maxlen => exact Onward.fillLoop hkey _ _ _ h
  | value =>
    cases call with
    | chunk maxlen => exact hvalue _ _ _ _ h
    | fill maxlen => exact Onward.fillLoop hvalue _ _ _ h

/-- Calls for pieces of the key and of the value, in any order. -/
def readAll (log : Logreader) : List (Part × PartCall) → Run Logiter Unit
  | [] => pure ()
  | (var, call) :: calls => do
    let _ ← (call.logCall var).program log
    readAll log calls

theorem Inside.run_readAll (hc : log.Carries blocks (before ++ e :: after))
    (h : Inside log blocks iter e after) (calls : List (Part × PartCall)) :
    ∃ iter', (readAll log calls).run iter = .ok () iter' ∧ Inside log blocks iter' e after ∧
      Onward log iter iter' := by
  induction calls generalizing iter with
  | nil => exact ⟨iter, rfl, h, .refl iter⟩
  | cons call calls ih =>
    obtain ⟨var, call⟩ := call
    obtain ⟨bytes, iter₁, hrun, h₁⟩ := h.stay hc (call.stays var)
    obtain ⟨iter', hrun', h', honward⟩ := ih h₁
    refine ⟨iter', ?_, h', (Onward.logCall hrun).trans honward⟩
    rw [readAll, run_bind_ok hrun, hrun']

theorem StandsAt.near (h : StandsAt log iter e es) (hu : Usable log iter) (h' : StandsAt log iter' e es)
    (hu' : Usable log iter') (hhead : SameHead iter iter') (htail : SameTail log iter iter')
    (hcount : iter'.entryCount = iter.entryCount ∨
      loose ∧ iter.blockLen - iter.blockOffset < iter.keyRemaining + iter.valueRemaining) :
    Near log loose (iter.keyRemaining + iter.valueRemaining) iter iter' := by
  obtain ⟨hle, hb, -⟩ := h.loaded hu
  obtain ⟨hle', hb', -⟩ := h'.loaded hu'
  rw [hhead.entryBlockPosition] at hb'
  obtain ⟨htake, hnext⟩ := log.source.block_det hb hb'
  have hlen := congrArg List.length htake
  rw [List.length_take_of_le hle, List.length_take_of_le hle'] at hlen
  refine ⟨iter.entryCount, iter'.entryCount, ⟨?_, rfl, ?_, htail⟩, hcount.imp_left Eq.symm⟩
  · have hopen := hu'.iterOpen.1.trans hu.iterOpen.1.symm
    have hfile := hu'.iterOpen.2.trans hu.iterOpen.2.symm
    have hpos := h'.blockPosition.trans (hhead.entryBlockPosition.trans h.blockPosition.symm)
    have hoff := h'.blockOffset.trans (hhead.entryBlockOffset.trans h.blockOffset.symm)
    have hkey := h'.keyRemaining.trans (hhead.keylen.trans h.keyRemaining.symm)
    have hvalue := h'.valueRemaining.trans (hhead.valuelen.trans h.valueRemaining.symm)
    cases iter'
    simp only [Logiter.mk.injEq, true_and]
    exact ⟨hopen, hfile, hpos, hnext.symm, hoff, hlen.symm, hhead.entryBlockPosition,
      hhead.entryBlockOffset, hhead.type, h'.state.trans h.state.symm, hhead.keylen, hhead.valuelen,
      hkey, hvalue⟩
  · rw [hlen]
    exact (hlen ▸ htake).symm

/-! ### What can be seen -/

omit [Compressors] in
/-- What the functions that only look at an iterator show. -/
structure View where
  state : IterState
  type : EntryType
  keylen : Nat
  valuelen : Nat

omit [Compressors] in
def Logiter.view (iter : Logiter) : View := ⟨iter.state, iter.type, iter.keylen, iter.valuelen⟩

omit [Compressors] in
inductive Answer
  | success (bytes : List UInt8) (view : View)
  | failure (code : Returncode) (view : View)
  | stuck

omit [Compressors] in
/-- A later call on an iterator of the log, with an index of it or without. -/
inductive LaterCall (log : Logreader)
  | logCall (call : LogCall) (h : ∀ position, call ≠ .seek position)
  | hashnext (reader : Hashreader) (h : reader.log = log)

section Answers

variable [HashFunctions]

def LaterCall.program : LaterCall log → Run Logiter (List UInt8)
  | logCall call _ => call.program log
  | hashnext reader _ => do
    logiterHashnext reader
    pure []

/-- What some calls answer, one after the other, until one of them has no result. -/
def answers : List (LaterCall log) → Logiter → List Answer
  | [], _ => []
  | call :: calls, iter =>
    match call.program.run iter with
    | .ok bytes iter' => .success bytes iter'.view :: answers calls iter'
    | .error (.rc code) iter' => .failure code iter'.view :: answers calls iter'
    | .error .stuck _ => [.stuck]

omit [HashFunctions] in
theorem Twin.view (h : Twin log blocks iter other) : other.view = iter.view := by
  have hsame := h.sameEntry
  rw [Logiter.view, hsame.state, hsame.type, hsame.keylen, hsame.valuelen, Logiter.view]

theorem Twin.laterCall (h : Twin log blocks iter other) (call : LaterCall log) :
    Accord (Twin log blocks) (Twin log blocks) (call.program.run iter) (call.program.run other) := by
  cases call with
  | hashnext reader hlog => exact (h.hashnext hlog).bind fun _ _ _ _ hst => ⟨rfl, hst⟩
  | logCall call hseek =>
    cases call with
    | next => exact h.next.bind fun _ _ _ _ hst => ⟨rfl, hst.1⟩
    | skip count => exact (h.skip count).bind fun _ _ _ _ hst => ⟨rfl, hst⟩
    | seek position => exact absurd rfl (hseek position)
    | reset => exact h.stay (c := .reset) trivial
    | keychunk maxlen => exact h.stay (c := .keychunk maxlen) trivial
    | valuechunk maxlen => exact h.stay (c := .valuechunk maxlen) trivial
    | fillKey maxlen => exact h.stay (c := .fillKey maxlen) trivial
    | fillValue maxlen => exact h.stay (c := .fillValue maxlen) trivial

/-- **Twins cannot be told apart.** -/
theorem Twin.answers (h : Twin log blocks iter other) (calls : List (LaterCall log)) :
    answers calls other = answers calls iter := by
  induction calls generalizing iter other with
  | nil => rfl
  | cons call calls ih =>
    rw [Sparkey.answers, Sparkey.answers]
    rcases (h.laterCall call).cases with ⟨bytes, s, t, hs, ht, h'⟩ | ⟨code, s, t, hs, ht, h'⟩ |
      ⟨s, t, hs, ht⟩
    · rw [hs, ht]
      simp only [h'.view, ih h']
    · rw [hs, ht]
      simp only [h'.view, ih h']
    · rw [hs, ht]

/-- **`reset` goes back to where `next` stopped**, whatever has been read of the entry: no later call
can tell the difference. -/
theorem reset_of_writing {t : CompressionType} {n : Nat} {calls : List Call} {w w' : Logwriter}
    (hw : Writing t n calls w) (hz : (Setting.of t n).Lossless)
    (hfl : logwriterFlush.run w = .ok () w') (hopen : logreaderOpen (some w'.fd.data) = .ok log)
    (hes : entriesOf calls = before ++ e :: after) (h : Handled log iter)
    (hs : StandsAt log iter e after) (reads : List (Part × PartCall)) :
    ∃ iter₁ iter₂, (readAll log reads).run iter = .ok () iter₁ ∧
      (logiterReset log).run iter₁ = .ok () iter₂ ∧ iter₂.view = iter.view ∧
      ∀ later : List (LaterCall log), answers later iter₂ = answers later iter := by
  obtain ⟨blocks, hc⟩ := carries_of_flush hw hz hfl hopen
  rw [hes] at hc
  have hu := h.usable hc
  have hin := hs.inside hc hu
  obtain ⟨iter₁, hrun₁, hin₁, honward⟩ := hin.run_readAll hc reads
  obtain ⟨iter₂, hrun₂, hs₂, hu₂⟩ := hin₁.run_logiterReset hc.toOpened
  obtain ⟨hhead, htail, hcount⟩ := ok_logiterReset hrun₂
  refine ⟨iter₁, iter₂, hrun₁, hrun₂, ?_⟩
  have htwin : Twin log blocks iter iter₂ := by
    refine .inside hc hin (hs.near hu hs₂ hu₂ (honward.toSameHead.trans hhead) ?_ ?_)
    · exact fun hcomp => (htail hcomp).trans (honward.drop hcomp)
    · rw [hcount]
      rcases hs.within_or hu with hw | ho
      · exact Or.inl (honward.within hw).2.1
      · exact Or.inr ⟨ho, hs.overflows hu ho⟩
  exact ⟨htwin.view, htwin.answers⟩

omit [Compressors] [HashFunctions] in
theorem reset_of_writing_sample :
    letI := literalCompressors
    letI := lengthHash
    ∃ (log : Logreader) (iter : Logiter), Stop log 1 iter ∧
      ∃ iter₁ iter₂, (readAll log [(.key, .chunk 1), (.value, .fill 100)]).run iter = .ok () iter₁ ∧
        (logiterReset log).run iter₁ = .ok () iter₂ ∧ iter₂.view = iter.view ∧
        ∀ later : List (LaterCall log), answers later iter₂ = answers later iter := by
  let := literalCompressors
  let := lengthHash
  obtain ⟨w, w', log, hw, hfl, hopen, hstops⟩ := exists_sampleLog
  have hz : (Setting.of .snappy 10).Lossless := fun _ => lossless_snappyLiteral
  obtain ⟨iter, e, hstop, he, hs⟩ := hstops 1 (by decide)
  exact ⟨log, iter, hstop, reset_of_writing hw hz hfl hopen (eq_take_append he) hstop.handled hs
    [(.key, .chunk 1), (.value, .fill 100)]⟩

end Answers

end Sparkey
