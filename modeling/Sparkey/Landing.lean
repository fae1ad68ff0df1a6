import Sparkey.Stream

/-!
# Where `next` lands

Behind the body of an entry there is the head of the next one.  A head that is not too
large lies in one block, and `next` stops behind it (`Logreader.Ahead.lands`).  A head
that the writer had to split is where the reader goes wrong: it never stands at that
entry (`Logreader.Ahead.headFits`).
-/

namespace Sparkey

open Program BlockStream

variable [Compressors] {log : Logreader} {blocks cs : List (List UInt8)} {b tl : List UInt8}
  {es before after : List Entry} {e : Entry} {iter iter' : Logiter} {j n p q : Nat}
  {c c' : Cursor UInt8}

omit [Compressors] in
theorem flatten_pieces_cons (e : Entry) (es : List Entry) :
    (pieces (e :: es)).flatten = e.bytes ++ (pieces es).flatten := by
  rw [pieces, List.map_cons, List.flatten_cons]

omit [Compressors] in
theorem flatten_pieces_add (es fs : List Entry) :
    (pieces (es ++ fs)).flatten = (pieces es).flatten ++ (pieces fs).flatten := by
  rw [pieces, List.map_append, List.flatten_append]

/-! ### The next head -/

theorem Logreader.Carries.length_le_one (hc : log.Carries blocks es)
    (hm : log.source.moves = true) : blocks.length ≤ 1 := by
  have hplain : usesCompressor log.header.compressionType = false := by
    simpa [Logreader.source] using hm
  have hchain := hc.chain
  cases hblocks : blocks with
  | nil => exact Nat.zero_le 1
  | cons d ds =>
    rw [hblocks] at hchain
    cases hchain with
    | cons hd hds =>
      obtain ⟨-, -, rfl⟩ := (Logreader.blockAt_plain hplain).mp hd
      rw [hc.length_data] at hds
      obtain rfl : ds = [] := hds.det (.nil _)
      exact Nat.le_refl 1

theorem Logreader.Ahead.flatten_take (hc : log.Carries blocks (before ++ es))
    (ha : log.Ahead blocks c es j) :
    (blocks.take j).flatten = (pieces before).flatten ++ c.cur := by
  have hflat := hc.cut.flatten
  rw [flatten_pieces_add, ← ha.rest, ← List.append_assoc, ← List.take_append_drop j blocks,
    List.flatten_append, List.take_append_drop] at hflat
  exact List.append_cancel_right hflat

theorem Logreader.Ahead.gap (hc : log.Carries blocks (before ++ es))
    (ha : log.Ahead blocks c es j) (hcur : c.cur = []) (hj : blocks[j]? = some []) :
    ∃ e after, es = e :: after ∧ log.header.compressionBlockSize < e.header.length := by
  obtain ⟨i, e, hi, hlarge, hflat⟩ := hc.gaps j hj
  rw [ha.flatten_take hc, hcur, List.append_nil] at hflat
  have hne : ∀ p ∈ pieces (before ++ es), p ≠ [] := by
    intro p hp
    obtain ⟨e, -, rfl⟩ := List.mem_map.mp hp
    exact bytes_ne_nil e
  have hlen : (pieces (before ++ es)).length = before.length + es.length := by
    rw [pieces, List.length_map, List.length_append]
  have hstart : Tiling.start (pieces (before ++ es)) before.length
      = Tiling.start (pieces (before ++ es)) i := by
    rw [start_pieces_append, hflat, length_pieces_take]
  have hilt : i < before.length + es.length := by
    rw [← List.length_append]
    exact (List.getElem?_eq_some_iff.mp hi).1
  obtain rfl : i = before.length := by
    rcases Nat.lt_trichotomy i before.length with hlt | heq | hgt
    · have := Tiling.start_lt_start hne hlt (by omega)
      omega
    · exact heq
    · have := Tiling.start_lt_start hne hgt (by omega)
      omega
  rw [List.getElem?_append_right (Nat.le_refl _), Nat.sub_self] at hi
  cases es with
  | nil => cases hi
  | cons e' after =>
    cases hi
    exact ⟨_, _, rfl, hlarge⟩

/-- **The next head lies in one block**, here or at the start of the next. -/
theorem Logreader.Ahead.opens (hc : log.Carries blocks (before ++ e :: after))
    (ha : log.Ahead blocks c (e :: after) j) (hfit : HeadFits log.header.setting e) :
    ∃ tl, c.cur = e.header ++ tl ∨
      c.cur = [] ∧ ∃ rest, blocks.drop j = (e.header ++ tl) :: rest := by
  have hbytes : (pieces (e :: after)).flatten = e.header ++ (e.body ++ (pieces after).flatten) := by
    rw [flatten_pieces_cons, Entry.bytes, List.append_assoc]
  have hrest := ha.rest
  rw [hbytes] at hrest
  by_cases hm : log.source.moves = true
  · -- one run of bytes
    have hle := hc.length_le_one hm
    rcases ha.inside with hnil | ⟨b, hj, -, -, -⟩
    · rw [hnil, List.nil_append] at hrest
      cases hdrop : blocks.drop j with
      | nil =>
        rw [hdrop, List.flatten_nil] at hrest
        exact absurd (List.append_eq_nil_iff.mp hrest.symm).1 e.header_ne_nil
      | cons d ds =>
        have hlen := congrArg List.length hdrop
        rw [List.length_drop, List.length_cons] at hlen
        obtain rfl : ds = [] := List.length_eq_zero_iff.mp (by omega)
        rw [hdrop, List.flatten_singleton] at hrest
        exact ⟨_, Or.inr ⟨hnil, [], by rw [hrest]⟩⟩
    · rw [List.drop_eq_nil_of_le (by omega), List.flatten_nil, List.append_nil] at hrest
      exact ⟨_, Or.inl hrest⟩
  · have hcomp : usesCompressor log.header.compressionType = true := by
      simpa [Logreader.source] using hm
    have hle : e.header.length ≤ log.header.compressionBlockSize := hfit hcomp
    have htake := ha.flatten_take hc
    have hi : (before ++ e :: after)[before.length]? = some e := by
      rw [List.getElem?_append_right (Nat.le_refl _), Nat.sub_self]
      rfl
    obtain ⟨k, b, u, hk, hu, hb⟩ := hc.cut.head hi
    rw [List.take_left] at hu
    obtain ⟨tl, rfl⟩ := hb.resolve_right fun hlarge => Nat.not_lt_of_le hle hlarge.1
    rcases Nat.lt_or_ge k j with hlt | hge
    · -- in the block of the place
      have hsplit : blocks.take j = blocks.take k ++ ((u ++ e.header ++ tl) ::
          (blocks.take j).drop (k + 1)) := by
        have hk' : (blocks.take j)[k]? = some (u ++ e.header ++ tl) := by
          rwa [List.getElem?_take_of_lt hlt]
        obtain ⟨hlen, hget⟩ := List.getElem?_eq_some_iff.mp hk'
        have hpre : (blocks.take j).take k = blocks.take k := by
          rw [List.take_take, Nat.min_eq_left (Nat.le_of_lt hlt)]
        rw [← hget, ← List.drop_eq_getElem_cons hlen, ← hpre, List.take_append_drop]
      rw [hsplit, ← hu, List.flatten_append, List.flatten_cons] at htake
      simp only [List.append_assoc, List.append_cancel_left_eq] at htake
      exact ⟨_, Or.inl htake.symm⟩
    · -- at the start of a later one
      have hsplit : blocks.take k = blocks.take j ++ (blocks.drop j).take (k - j) := by
        rw [← List.take_add, Nat.add_sub_cancel' hge]
      rw [hsplit, List.flatten_append, htake] at hu
      simp only [List.append_assoc, List.append_right_eq_self, List.append_eq_nil_iff] at hu
      obtain ⟨hcur, hmid, rfl⟩ := hu
      have hdrop : (blocks.drop j)[k - j]? = some (e.header ++ tl) := by
        rw [List.getElem?_drop, Nat.add_sub_cancel' hge, hk, List.nil_append]
      have heq : k = j := by
        by_contra hne
        have h0 : blocks[j]? = some [] := by
          cases hd : blocks.drop j with
          | nil =>
            rw [hd] at hdrop
            cases hdrop
          | cons d ds =>
            obtain ⟨m, hm'⟩ := Nat.exists_eq_succ_of_ne_zero (show k - j ≠ 0 by omega)
            rw [hd, hm', List.take_succ_cons, List.flatten_cons] at hmid
            rw [← (List.append_eq_nil_iff.mp hmid).1, ← List.getElem?_cons_zero (l := ds), ← hd,
              List.getElem?_drop, Nat.add_zero]
        obtain ⟨e', after', heq, hlarge⟩ := ha.gap hc hcur h0
        cases heq
        omega
      rw [heq, Nat.sub_self] at hdrop
      refine ⟨tl, Or.inr ⟨hcur, (blocks.drop j).tail, ?_⟩⟩
      cases hd : blocks.drop j with
      | nil =>
        rw [hd] at hdrop
        cases hdrop
      | cons d ds =>
        rw [hd] at hdrop
        cases hdrop
        rfl

theorem Logreader.Ahead.ends (hc : log.Carries blocks es) (ha : log.Ahead blocks c [] j) :
    c.cur = [] ∧ c.next = log.header.dataEnd := by
  have hrest := ha.rest
  rw [pieces, List.map_nil, List.flatten_nil, List.append_eq_nil_iff] at hrest
  obtain ⟨hcur, hflat⟩ := hrest
  refine ⟨hcur, ?_⟩
  have hchain := ha.chain
  cases hdrop : blocks.drop j with
  | nil =>
    rw [hdrop] at hchain
    exact hchain.eq_of_nil
  | cons d ds =>
    rw [hdrop, List.flatten_cons, List.append_eq_nil_iff] at hflat
    have h0 : blocks[j]? = some [] := by
      rw [← hflat.1, ← List.getElem?_cons_zero (l := ds), ← hdrop, List.getElem?_drop, Nat.add_zero]
    rw [← List.append_nil es] at hc
    obtain ⟨e, after, heq, -⟩ := ha.gap hc hcur h0
    cases heq

/-! ### Landing -/

theorem Logreader.Ahead.inChain (ha : log.Ahead blocks c es j) (hat : At log iter c n)
    (hne : c.cur ≠ []) : log.InChain iter.blockPosition := by
  by_cases hm : log.source.moves = true
  · exact Or.inl hm
  · obtain ⟨b, -, -, -, hpos⟩ := ha.inside.resolve_left hne
    have hp := hat.pos hne
    rw [if_neg hm] at hp
    exact Or.inr ⟨_, hp ▸ hpos (Bool.eq_false_of_not_eq_true hm)⟩

/-- `ensure_available` goes on to the next block, if there is one. -/
theorem Logreader.Ahead.run_ensureAvailable (hl : log.Opened) (ha : log.Ahead blocks c es j)
    (hat : At log iter c n) :
    ∃ iter' c' j', (ensureAvailable log).run iter = .ok () iter' ∧ SameEntry iter iter' ∧
      At log iter' c' n ∧ log.Ahead blocks c' es j' ∧
      (c' = c ∧ (c.cur ≠ [] ∨ blocks.drop j = []) ∨
        c.cur = [] ∧ ∃ rest, blocks.drop j = c'.cur :: rest) := by
  by_cases hcur : c.cur = []
  · have hchain := ha.chain
    cases hdrop : blocks.drop j with
    | nil =>
      rw [hdrop] at hchain
      have hend : c.next = log.source.stop := by
        rw [hchain.eq_of_nil, Logreader.stop_source, hl.length_data]
      obtain ⟨iter', hrun, hat', hsame, -⟩ := run_ensureAvailable_end hl hat hcur hend
      exact ⟨iter', c, j, hrun, hsame, hat', ha, Or.inl ⟨rfl, Or.inr rfl⟩⟩
    | cons b rest =>
      rw [hdrop] at hchain
      cases hchain with
      | @cons _ q _ _ _ hb hrest =>
        obtain ⟨iter', hrun, hat', hsame⟩ := run_ensureAvailable_block hl hat hcur hb
        have hj : blocks[j]? = some b := by
          rw [← List.getElem?_cons_zero (l := rest), ← hdrop, List.getElem?_drop, Nat.add_zero]
        have hsucc : blocks.drop (j + 1) = rest := by
          rw [← List.drop_drop, hdrop]
          rfl
        have htake : blocks.take (j + 1) = blocks.take j ++ [b] := by
          rw [List.take_add_one, hj, Option.toList_some]
        have hflat := ha.rest
        rw [hcur, hdrop, List.nil_append, List.flatten_cons] at hflat
        refine ⟨iter', _, j + 1, hrun, hsame, hat'.mono (Nat.zero_le _),
          ⟨by rwa [hsucc], by rwa [hsucc], fun hm => ?_, Or.inr ⟨b, Nat.succ_pos j, hj, ?_, ha.next⟩⟩,
          Or.inr ⟨hcur, rest, rfl⟩⟩
        · rw [htake]
          exact (ha.next hm).append (.cons hb (.nil _))
        · exact List.suffix_refl b
  · exact ⟨iter, c, j, run_ensureAvailable_here hat hcur, .refl iter, hat, ha,
      Or.inl ⟨rfl, Or.inl hcur⟩⟩

theorem standsAt_entered (hat : At log iter c n) (hin : log.InChain iter.blockPosition)
    (hpos : iter.blockPosition = c.pos) (hcur : c.cur = e.header ++ tl)
    (hchain : log.Blocks c.next cs log.header.dataEnd)
    (hrest : tl ++ cs.flatten = e.body ++ (pieces es).flatten) :
    StandsAt log (iter.entered e) e es ∧ Usable log (iter.entered e) := by
  have hne : c.cur ≠ [] := by
    rw [hcur]
    intro h0
    exact e.header_ne_nil (List.append_eq_nil_iff.mp h0).1
  have hlen := hat.length_cur
  have hoffset := hat.offset
  rw [hcur, List.length_append] at hlen
  have hblock := hat.loaded hne
  rw [hat.next] at hchain
  have hp : iter.blockPosition ≠ 0 := hpos ▸ hat.pos_ne_zero hne
  refine ⟨⟨rfl, rfl, rfl, rfl, rfl, rfl, rfl, rfl, hp, hin, _, _, cs, hblock, ?_, hchain, ?_⟩,
    ⟨hat.iterOpen.1, hat.iterOpen.2⟩, hat.cached⟩
  · rw [List.length_take_of_le hat.cached.le]
    show iter.blockOffset + e.header.length ≤ _
    omega
  · show (iter.compressionBuf.take iter.blockLen).drop (iter.blockOffset + e.header.length) ++ _ = _
    rw [← List.drop_drop, ← hat.cur, hcur, List.drop_left, hrest]

/-- `next` at a block with something left reads the head there. -/
theorem run_readEntry_entered (hat : At log iter c n) (hin : log.InChain iter.blockPosition)
    (hcur : c.cur = e.header ++ tl) (hchain : log.Blocks c.next cs log.header.dataEnd)
    (hrest : tl ++ cs.flatten = e.body ++ (pieces es).flatten) :
    ∃ iter', (readEntry log).run iter = .ok () iter' ∧ StandsAt log iter' e es ∧
      Usable log iter' := by
  have hne : c.cur ≠ [] := by
    rw [hcur]
    intro h0
    exact e.header_ne_nil (List.append_eq_nil_iff.mp h0).1
  have hlen : iter.blockLen - iter.blockOffset ≠ 0 := by
    rw [← hat.length_cur]
    exact Nat.ne_of_gt (List.length_pos_iff.mpr hne)
  have hpos := hat.pos hne
  have hhead : ∀ {iter : Logiter}, At log iter c n → log.InChain iter.blockPosition →
      iter.blockPosition = c.pos → readHead.run iter = .ok () (iter.entered e) ∧
        StandsAt log (iter.entered e) e es ∧ Usable log (iter.entered e) := by
    intro iter hat hin hpos
    have hdrop := hat.drop_buf
    rw [hcur, List.append_assoc] at hdrop
    exact ⟨run_readHead_entered hdrop (Nat.le_trans hat.offset hat.cached.le),
      standsAt_entered hat hin hpos hcur hchain hrest⟩
  rw [readEntry, run_get_bind, if_neg hlen]
  by_cases hm : log.source.moves = true
  · rw [if_pos hm] at hpos
    rw [if_pos (Logreader.moves_iff.mp hm), run_set_bind]
    exact ⟨_, hhead (hat.rebase hne hm) (Or.inl hm) hpos.symm⟩
  · rw [if_neg hm] at hpos
    rw [if_neg (mt Logreader.moves_iff.mpr hm)]
    exact ⟨_, hhead hat hin hpos.symm⟩

/-- **`next` lands on the next entry**, if its head is not too large. -/
theorem Logreader.Ahead.lands (hc : log.Carries blocks (before ++ e :: after))
    (ha : log.Ahead blocks c (e :: after) j) (hat : At log iter c n)
    (hfit : HeadFits log.header.setting e) :
    ∃ iter', (do ensureAvailable log; readEntry log : Run Logiter Unit).run iter = .ok () iter' ∧
      StandsAt log iter' e after ∧ Usable log iter' := by
  obtain ⟨tl, hopens⟩ := ha.opens hc hfit
  obtain ⟨iter₁, c₁, j₁, hrun, -, hat₁, ha₁, hplace⟩ := ha.run_ensureAvailable hc.toOpened hat
  have hcur : c₁.cur = e.header ++ tl := by
    rcases hplace with ⟨rfl, hstay⟩ | ⟨hcur, rest, hdrop⟩
    · rcases hopens with hcur | ⟨hcur, rest, hdrop⟩
      · exact hcur
      · rcases hstay with hne | hnil
        · exact absurd hcur hne
        · rw [hnil] at hdrop
          cases hdrop
    · rcases hopens with hcur' | ⟨-, rest', hdrop'⟩
      · rw [hcur] at hcur'
        exact absurd (List.append_eq_nil_iff.mp hcur'.symm).1 e.header_ne_nil
      · rw [hdrop] at hdrop'
        exact (List.cons.inj hdrop').1
  have hne : c₁.cur ≠ [] := by
    rw [hcur]
    intro h0
    exact e.header_ne_nil (List.append_eq_nil_iff.mp h0).1
  have hrest := ha₁.rest
  rw [hcur, flatten_pieces_cons, Entry.bytes, List.append_assoc, List.append_assoc,
    List.append_cancel_left_eq] at hrest
  obtain ⟨iter', hrun', hs⟩ :=
    run_readEntry_entered hat₁ (ha₁.inChain hat₁ hne) hcur ha₁.chain hrest
  exact ⟨iter', by rw [run_bind_ok hrun, hrun'], hs⟩

/-- **`next` behind the last entry** closes the iterator. -/
theorem Logreader.Ahead.closes (hc : log.Carries blocks es) (ha : log.Ahead blocks c [] j)
    (hat : At log iter c n) :
    ∃ iter', (do ensureAvailable log; readEntry log : Run Logiter Unit).run iter = .ok () iter' ∧
      iter'.state = .closed ∧ Usable log iter' := by
  obtain ⟨hcur, hnext⟩ := ha.ends hc
  have hend : c.next = log.source.stop := by
    rw [hnext, Logreader.stop_source, hc.length_data]
  obtain ⟨iter₁, hrun, hat₁, -, h0⟩ := run_ensureAvailable_end hc.toOpened hat hcur hend
  refine ⟨{ iter₁ with state := .closed }, ?_, rfl, ⟨hat₁.iterOpen.1, hat₁.iterOpen.2⟩, hat₁.cached⟩
  rw [run_bind_ok hrun, readEntry, run_get_bind, if_pos h0]
  rfl

omit [Compressors] in
theorem ok_readHead {u : Unit} (h : readHead.run iter = .ok u iter') :
    iter'.entryBlockPosition = iter.blockPosition := by
  rw [readHead, run_modify_bind, run_get_bind] at h
  simp only at h
  split at h
  · cases h
  split at h
  · cases h
  split_ifs at h <;> · cases h; rfl

/-- **A head that is too large** is never read. -/
theorem Logreader.Ahead.headFits (hc : log.Carries blocks (before ++ e :: after))
    (ha : log.Ahead blocks c (e :: after) j) (hat : At log iter c n) {u : Unit}
    (hrun : (do ensureAvailable log; readEntry log : Run Logiter Unit).run iter = .ok u iter')
    (hs : StandsAt log iter' e after) : HeadFits log.header.setting e := by
  intro hcomp
  have hm : log.source.moves = false := by
    show (!usesCompressor log.header.compressionType) = false
    rw [show usesCompressor log.header.compressionType = true from hcomp]
    rfl
  obtain ⟨iter₁, c₁, j₁, hrun₁, -, hat₁, ha₁, -⟩ := ha.run_ensureAvailable hc.toOpened hat
  rw [run_bind_ok hrun₁, readEntry, run_get_bind] at hrun
  by_cases h0 : iter₁.blockLen - iter₁.blockOffset = 0
  · rw [if_pos h0] at hrun
    cases hrun
    cases hs.state
  have hne : c₁.cur ≠ [] := by
    rw [← List.length_pos_iff, hat₁.length_cur]
    omega
  rw [if_neg h0, if_neg (mt Logreader.moves_iff.mpr (Bool.eq_false_iff.mp hm))] at hrun
  -- the block the head was read in is the one that the body goes on in
  obtain ⟨-, hin, b, q, cs, hb, ho, hcs, hrest⟩ := hs.unread
  rw [ok_readHead hrun] at hin hb
  obtain ⟨rfl, rfl⟩ := log.source.block_det (hat₁.loaded hne) hb
  have hchain := ha₁.chain
  rw [hat₁.next] at hchain
  obtain rfl := hcs.det hchain
  obtain ⟨pre, hpre⟩ := hin.resolve_left (Bool.eq_false_iff.mp hm)
  have hmem := hc.eq_append hpre hb hcs
  have hle := hc.length_le hcomp (iter₁.compressionBuf.take iter₁.blockLen)
    (hmem ▸ List.mem_append_right _ (List.mem_cons_self ..))
  have hall := congrArg List.length ha₁.rest
  have hbody := congrArg List.length hrest
  rw [flatten_pieces_cons, Entry.bytes] at hall
  simp only [List.length_append, List.length_drop] at hall hbody
  have hcur := hat₁.length_cur
  rw [List.length_take_of_le hat₁.cached.le] at hle ho hbody
  show e.header.length ≤ log.header.compressionBlockSize
  omega

/-! ### The functions of an iterator -/

def Approaches (log : Logreader) (blocks : List (List UInt8)) (iter : Logiter) (es : List Entry) :
    Prop :=
  iter.state ≠ .closed ∧ ∃ xs c' j, xs.length = iter.pending ∧ Facing log iter xs c' ∧
    log.Ahead blocks c' es j

/-- What `next` should do in front of these entries: stop at the first, or close the iterator. -/
def LandsOn (log : Logreader) (iter : Logiter) : List Entry → Prop
  | [] => iter.state = .closed
  | e :: es => StandsAt log iter e es

/-- The iterator is at `e`, some of which may have been read, and has `es` behind it. -/
structure Inside (log : Logreader) (blocks : List (List UInt8)) (iter : Logiter) (e : Entry)
    (es : List Entry) : Prop where
  type : iter.type = e.type
  keylen : iter.keylen = e.key.length
  valuelen : iter.valuelen = e.value.length
  unread : log.Unread iter.entryBlockPosition iter.entryBlockOffset (e.body ++ (pieces es).flatten)
  partway : ∃ key value c' j, Partway log iter key value c' ∧ log.Ahead blocks c' es j

theorem StandsAt.inside (hc : log.Carries blocks (before ++ e :: after)) (hu : Usable log iter)
    (h : StandsAt log iter e after) : Inside log blocks iter e after := by
  obtain ⟨c', j, hp, ha⟩ := h.partway hc hu
  exact ⟨h.type, h.keylen, h.valuelen, h.unread, _, _, c', j, hp, ha⟩

theorem Partway.approaches {key value : List UInt8} (h : Partway log iter key value c')
    (ha : log.Ahead blocks c' es j) : Approaches log blocks iter es := by
  refine ⟨?_, key ++ value, c', j, ?_, h.facing, ha⟩
  · rw [h.state]
    decide
  · rw [Logiter.pending, if_pos h.state, h.keyRemaining, h.valueRemaining, List.length_append]

theorem Inside.approaches (h : Inside log blocks iter e es) : Approaches log blocks iter es := by
  obtain ⟨key, value, c', j, hp, ha⟩ := h.partway
  exact hp.approaches ha

theorem logiterCreate_approaches {unset : Logiter} (hc : log.Carries blocks es)
    (h : logiterCreate unset log = .ok iter) : Approaches log blocks iter es := by
  rw [logiterCreate, if_neg (not_not_intro hc.openStatus)] at h
  cases h
  refine ⟨nofun, [], firstCursor, 0, rfl, ⟨firstCursor, 0, Nat.le_refl _, ⟨⟨rfl, rfl⟩, Or.inl ⟨rfl, rfl⟩,
    Nat.le_refl _, rfl, hc.headerSize.symm, show logHeaderSize ≠ 0 by decide, fun hne => absurd rfl hne,
    fun hne => absurd rfl hne, Or.inl (Nat.le_refl _)⟩, .nil _⟩, hc.chain, hc.cut.flatten, fun _ => .nil _,
    Or.inl rfl⟩

theorem Approaches.run_logiterNext (hl : log.Opened) (h : Approaches log blocks iter es) :
    ∃ iter₁ c' n j, At log iter₁ c' n ∧ log.Ahead blocks c' es j ∧
      (logiterNext log).run iter = (do ensureAvailable log; readEntry log : Run _ _).run iter₁ := by
  obtain ⟨hs, xs, c', j, hlen, ⟨c, n, hn, hat, hr⟩, ha⟩ := h
  obtain ⟨iter₁, hat₁, hrun⟩ := hat.run_logiterNext hl hs hn hlen hr
  exact ⟨iter₁, c', _, j, hat₁, ha, hrun⟩

/-- **`next` goes to the next entry**, or closes the iterator. -/
theorem Approaches.lands (hc : log.Carries blocks (before ++ es)) (h : Approaches log blocks iter es)
    (hfit : ∀ e ∈ es.head?, HeadFits log.header.setting e) :
    ∃ iter', (logiterNext log).run iter = .ok () iter' ∧ LandsOn log iter' es ∧ Usable log iter' := by
  obtain ⟨iter₁, c', n, j, hat, ha, hrun⟩ := h.run_logiterNext hc.toOpened
  rw [hrun]
  cases es with
  | nil => exact ha.closes hc hat
  | cons e es => exact ha.lands hc hat (hfit e rfl)

/-- **Where `next` goes**: it depends on the next head alone. -/
theorem Approaches.lands_iff (hc : log.Carries blocks (before ++ es))
    (h : Approaches log blocks iter es) :
    (∃ iter', (logiterNext log).run iter = .ok () iter' ∧ LandsOn log iter' es) ↔
      ∀ e ∈ es.head?, HeadFits log.header.setting e := by
  constructor
  · rintro ⟨iter', hrun, hland⟩ e he
    cases es with
    | nil => cases he
    | cons e' es =>
      cases he
      obtain ⟨iter₁, c', n, j, hat, ha, hrun'⟩ := h.run_logiterNext hc.toOpened
      rw [hrun'] at hrun
      exact ha.headFits hc hat hrun hland
  · intro hfit
    obtain ⟨iter', hrun, hland, -⟩ := h.lands hc hfit
    exact ⟨iter', hrun, hland⟩

/-- **`reset` makes the entry unread.** -/
theorem Inside.run_logiterReset (hl : log.Opened) (h : Inside log blocks iter e es) :
    ∃ iter', (logiterReset log).run iter = .ok () iter' ∧ StandsAt log iter' e es ∧
      Usable log iter' := by
  obtain ⟨key, value, c', j, hp, -⟩ := h.partway
  obtain ⟨c, n, -, hat, -⟩ := hp.facing
  obtain ⟨hne, hin, b, q, cs, hb, ho, hcs, hrest⟩ := h.unread
  obtain ⟨iter₁, hrun, hs⟩ := run_seekblock hl hb hne hat.cached
  have hiter := hat.iterOpen.of_same hs.toSameEntry
  refine ⟨{ iter₁ with
      keyRemaining := iter₁.keylen
      valueRemaining := iter₁.valuelen
      blockOffset := iter₁.entryBlockOffset },
    ?_, ⟨hs.state.trans hp.state, hs.type.trans h.type, hs.keylen.trans h.keylen,
    hs.valuelen.trans h.valuelen, rfl, rfl, hs.blockPosition.trans hs.entryBlockPosition.symm, rfl, ?_⟩,
    ⟨hiter.1, hiter.2⟩, hs.cached⟩
  · rw [logiterReset, run_get_bind, if_neg (not_not_intro hp.state), run_bind_ok hrun]
    rfl
  · show log.Unread iter₁.entryBlockPosition iter₁.entryBlockOffset _
    rw [hs.entryBlockPosition, hs.entryBlockOffset]
    exact h.unread

end Sparkey
