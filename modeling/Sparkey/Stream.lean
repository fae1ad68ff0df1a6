import Sparkey.Reader.Facing
import Sparkey.Reader.Steady
import Sparkey.Writer.Cut

/-!
# The bytes of a log from a place on

The blocks of a log that was written carry the bytes of its entries (`Carries`), with
heads of any size.  `Unread` says what a reader comes by from a byte of a block on, and
`StandsAt` that an iterator is where `next` stops: behind the head of an entry, all of
which is unread.  The body of such an entry can always be read (`StandsAt.partway`).
-/

namespace Sparkey

open Program BlockStream

variable [Compressors]

/-- The blocks of a log, and the entries whose bytes they carry. -/
structure Logreader.Carries (log : Logreader) (blocks : List (List UInt8)) (es : List Entry) : Prop
    extends log.Opened where
  chain : log.Blocks logHeaderSize blocks log.header.dataEnd
  cut : Cut log.header.compressionBlockSize blocks es
  gaps : Gaps log.header.compressionBlockSize blocks es
  length_le : usesCompressor log.header.compressionType = true →
    ∀ b ∈ blocks, b.length ≤ log.header.compressionBlockSize

/-- The block at `p` is one of those that follow each other from the header on.  Without compression
every byte begins one. -/
def Logreader.InChain (log : Logreader) (p : Nat) : Prop :=
  log.source.moves = true ∨ ∃ pre, log.Blocks logHeaderSize pre p

/-- From the byte `o` of the block at `p` on, the log has the bytes `xs`. -/
def Logreader.Unread (log : Logreader) (p o : Nat) (xs : List UInt8) : Prop :=
  p ≠ 0 ∧ log.InChain p ∧ ∃ b q cs, log.BlockAt p b q ∧ o ≤ b.length ∧
    log.Blocks q cs log.header.dataEnd ∧ b.drop o ++ cs.flatten = xs

/-- The iterator is active at the entry `e`, of which it has read nothing but the head, and has `es`
behind it. -/
structure StandsAt (log : Logreader) (iter : Logiter) (e : Entry) (es : List Entry) : Prop where
  state : iter.state = .active
  type : iter.type = e.type
  keylen : iter.keylen = e.key.length
  valuelen : iter.valuelen = e.value.length
  keyRemaining : iter.keyRemaining = iter.keylen
  valueRemaining : iter.valueRemaining = iter.valuelen
  blockPosition : iter.blockPosition = iter.entryBlockPosition
  blockOffset : iter.blockOffset = iter.entryBlockOffset
  unread : log.Unread iter.entryBlockPosition iter.entryBlockOffset (e.body ++ (pieces es).flatten)

variable {log : Logreader} {blocks bs cs : List (List UInt8)} {b xs rest : List UInt8}
  {es before after : List Entry} {e : Entry} {iter iter' : Logiter} {p q r o : Nat}
  {c c' : Cursor UInt8}

/-! ### Chains of blocks -/

theorem Logreader.Blocks.append (h : log.Blocks p bs q) (h' : log.Blocks q cs r) :
    log.Blocks p (bs ++ cs) r := by
  induction h with
  | nil => exact h'
  | cons hb _ ih => exact .cons hb (ih h')

theorem Logreader.Blocks.le (h : log.Blocks p bs q) : p ≤ q := by
  induction h with
  | nil => exact Nat.le_refl _
  | cons hb _ ih => exact Nat.le_trans (Nat.le_of_lt (log.source.block_lt hb)) ih

theorem Logreader.Blocks.eq_of_nil (h : log.Blocks p [] q) : p = q := by
  cases h
  rfl

theorem Logreader.Blocks.det (h : log.Blocks p bs r) (h' : log.Blocks p cs r) : bs = cs := by
  induction h generalizing cs with
  | nil p =>
    cases h' with
    | nil => rfl
    | cons hb hrest =>
      have := log.source.block_lt hb
      have := hrest.le
      omega
  | cons hb hrest ih =>
    cases h' with
    | nil =>
      have := log.source.block_lt hb
      have := hrest.le
      omega
    | cons hb' hrest' =>
      obtain ⟨rfl, rfl⟩ := log.source.block_det hb hb'
      rw [ih hrest']

theorem Logreader.Blocks.chain (h : log.Blocks p bs log.header.dataEnd) (hp : p ≠ 0) :
    log.Chain p := by
  generalize hr : log.header.dataEnd = r at h
  induction h with
  | nil p => exact .stop (Nat.le_of_eq hr)
  | cons hb _ ih => exact .block hp hb (ih (Nat.ne_zero_of_lt (log.source.block_lt hb)) hr)

/-! ### Reading along a chain -/

/-- The place `c'`, to which reading from `c` along the blocks `cs` leads, is in the block with
number `j`, counted from the one `c` is in. -/
structure Logreader.Along (log : Logreader) (cs : List (List UInt8)) (c c' : Cursor UInt8) (j : Nat) :
    Prop where
  next : log.Blocks c.next (cs.take j) c'.next
  inside : j = 0 ∧ c'.cur <:+ c.cur ∧ (log.source.moves = false → c'.pos = c.pos) ∨
    ∃ b, 0 < j ∧ cs[j - 1]? = some b ∧ c'.cur <:+ b ∧
      (log.source.moves = false → log.Blocks c.next (cs.take (j - 1)) c'.pos)

theorem Logreader.along_move (log : Logreader) (cs : List (List UInt8)) (c : Cursor UInt8) (k : Nat) :
    log.Along cs c (c.move log.source k) 0 := by
  refine ⟨?_, Or.inl ⟨rfl, List.drop_suffix _ _, fun hm => ?_⟩⟩
  · rw [List.take_zero, next_move]
    exact .nil _
  · show (if log.source.moves then c.pos + k else c.pos) = c.pos
    rw [hm, if_neg Bool.false_ne_true]

/-- **What a chain of blocks holds can be read**, up to an empty block. -/
theorem reads_of_blocks : ∀ {cs : List (List UInt8)} {c : Cursor UInt8} {xs rest : List UInt8},
    log.Blocks c.next cs log.header.dataEnd → xs ++ rest = c.cur ++ cs.flatten →
    (∀ j, cs[j]? = some [] → xs.length ≤ c.cur.length + (cs.take j).flatten.length) →
    ∃ c' j, Reads log.source c xs c' ∧ log.Blocks c'.next (cs.drop j) log.header.dataEnd ∧
      c'.cur ++ (cs.drop j).flatten = rest ∧ log.Along cs c c' j := by
  intro cs
  induction cs with
  | nil =>
    intro c xs rest hchain hsplit _
    rw [List.flatten_nil, List.append_nil] at hsplit
    refine ⟨_, 0, Reads.of_cur hsplit.symm, hchain, ?_, log.along_move _ _ _⟩
    rw [cur_move, ← hsplit, List.drop_left, List.drop_nil, List.flatten_nil, List.append_nil]
  | cons b cs ih =>
    intro c xs rest hchain hsplit hempty
    rcases Nat.lt_or_ge c.cur.length xs.length with hlt | hge
    · -- on into the next block
      obtain ⟨ys, rfl⟩ : c.cur <+: xs := List.prefix_of_prefix_length_le (List.prefix_append _ _)
        (hsplit ▸ List.prefix_append xs rest) (Nat.le_of_lt hlt)
      have hne : ys ≠ [] := by
        rintro rfl
        rw [List.append_nil] at hlt
        exact Nat.lt_irrefl _ hlt
      have hb : b ≠ [] := by
        rintro rfl
        have := hempty 0 rfl
        rw [List.take_zero, List.flatten_nil, List.length_nil] at this
        omega
      cases hchain with
      | @cons _ q _ _ _ hat hrest =>
        have hsplit' : ys ++ rest = (Cursor.start c.next b q : Cursor UInt8).cur ++ cs.flatten := by
          rw [List.append_assoc, List.append_cancel_left_eq] at hsplit
          exact hsplit
        obtain ⟨c', j, hr, hchain', hrest', halong⟩ := ih hrest hsplit' fun j hj => by
          have := hempty (j + 1) hj
          rw [List.take_succ_cons, List.flatten_cons] at this
          simp only [List.length_append] at this
          show _ ≤ b.length + _
          omega
        have hr₀ : Reads log.source c c.cur (c.move log.source c.cur.length) :=
          Reads.of_cur (List.append_nil _).symm
        obtain ⟨y, ys, rfl⟩ := List.exists_cons_of_ne_nil hne
        have hr₁ : Reads log.source (c.move log.source c.cur.length) (y :: ys) c' := by
          refine .block ?_ hat hb hr
          rw [cur_move, List.drop_length]
        refine ⟨c', j + 1, hr₀.append hr₁, hchain', hrest', .cons hat halong.next, Or.inr ?_⟩
        rcases halong.inside with ⟨rfl, hsuff, hpos⟩ | ⟨d, hj, hd, hsuff, hpos⟩
        · refine ⟨b, Nat.succ_pos _, rfl, hsuff, fun hm => ?_⟩
          rw [hpos hm]
          exact .nil _
        · obtain ⟨j, rfl⟩ := Nat.exists_eq_succ_of_ne_zero (Nat.ne_of_gt hj)
          exact ⟨d, Nat.succ_pos _, hd, hsuff, fun hm => .cons hat (hpos hm)⟩
    · -- within the block
      obtain ⟨tl, htl⟩ : xs <+: c.cur := List.prefix_of_prefix_length_le (List.prefix_append xs rest)
        (hsplit ▸ List.prefix_append _ _) hge
      refine ⟨_, 0, Reads.of_cur htl.symm, hchain, ?_, log.along_move _ _ _⟩
      rw [← htl, List.append_assoc, List.append_cancel_left_eq] at hsplit
      rw [cur_move, ← htl, List.drop_left, hsplit]
      rfl

/-! ### The body of an entry -/

/-- The place `c` is in front of the entries `es`, and the blocks from number `j` on come behind
the one it is in. -/
structure Logreader.Ahead (log : Logreader) (blocks : List (List UInt8)) (c : Cursor UInt8)
    (es : List Entry) (j : Nat) : Prop where
  chain : log.Blocks c.next (blocks.drop j) log.header.dataEnd
  rest : c.cur ++ (blocks.drop j).flatten = (pieces es).flatten
  next : log.source.moves = false → log.Blocks logHeaderSize (blocks.take j) c.next
  inside : c.cur = [] ∨ ∃ b, 0 < j ∧ blocks[j - 1]? = some b ∧ c.cur <:+ b ∧
    (log.source.moves = false → log.Blocks logHeaderSize (blocks.take (j - 1)) c.pos)

omit [Compressors] in
theorem length_pieces_take (es : List Entry) (i : Nat) :
    (pieces (es.take i)).flatten.length = Tiling.start (pieces es) i := by
  rw [Tiling.start, pieces, List.map_take]

omit [Compressors] in
theorem start_pieces_append (before after : List Entry) :
    Tiling.start (pieces (before ++ after)) before.length = (pieces before).flatten.length := by
  rw [← length_pieces_take, List.take_left]

omit [Compressors] in
theorem length_pieces_cons (e : Entry) (es : List Entry) :
    (pieces (e :: es)).flatten.length = e.bytes.length + (pieces es).flatten.length := by
  rw [pieces, List.map_cons, List.flatten_cons, List.length_append]

omit [Compressors] in
theorem length_pieces_append (es fs : List Entry) : (pieces (es ++ fs)).flatten.length
    = (pieces es).flatten.length + (pieces fs).flatten.length := by
  rw [pieces, List.map_append, List.flatten_append, List.length_append]

theorem Logreader.Carries.eq_append (hc : log.Carries blocks es) {pre : List (List UInt8)}
    (hpre : log.Blocks logHeaderSize pre p) (hb : log.BlockAt p b q)
    (hcs : log.Blocks q cs log.header.dataEnd) : blocks = pre ++ b :: cs :=
  hc.chain.det (hpre.append (.cons hb hcs))

theorem Logreader.Carries.gaps_body (hc : log.Carries blocks (before ++ e :: after))
    {pre : List (List UInt8)} (hblocks : blocks = pre ++ b :: cs)
    (hrest : b.drop o ++ cs.flatten = e.body ++ (pieces after).flatten) {k : Nat}
    (hk : cs[k]? = some []) : e.body.length ≤ (b.drop o).length + (cs.take k).flatten.length := by
  have hbytes : e.bytes.length = e.header.length + e.body.length := List.length_append
  have htwo := e.two_le_length_header
  have hlen := congrArg List.length hrest
  have htotal := congrArg List.length hc.cut.flatten
  have hat : blocks[pre.length + (k + 1)]? = some [] := by
    rw [hblocks, List.getElem?_append_right (by omega), Nat.add_sub_cancel_left]
    exact hk
  obtain ⟨i, e', -, -, hi⟩ := hc.gaps _ hat
  have hstart := congrArg List.length hi
  rw [length_pieces_take, hblocks, List.take_length_add_append, List.take_succ_cons,
    List.flatten_append, List.flatten_cons] at hstart
  rw [hblocks, length_pieces_append, length_pieces_cons] at htotal
  simp only [List.length_append, List.flatten_append, List.flatten_cons, List.length_drop]
    at hstart htotal hlen ⊢
  -- the entry that the block is in front of comes behind this one
  have hbehind : before.length + 1 ≤ i := by
    by_contra hle
    have hmono : Tiling.start (pieces (before ++ e :: after)) i
        ≤ Tiling.start (pieces (before ++ e :: after)) before.length :=
      Tiling.start_mono (by omega)
    rw [start_pieces_append] at hmono
    omega
  have hmono : Tiling.start (pieces (before ++ e :: after)) (before.length + 1)
      ≤ Tiling.start (pieces (before ++ e :: after)) i := Tiling.start_mono hbehind
  have hsucc : Tiling.start (pieces (before ++ e :: after)) (before.length + 1)
      = Tiling.start (pieces (before ++ e :: after)) before.length + e.bytes.length := by
    apply start_pieces_succ
    rw [List.getElem?_append_right (Nat.le_refl _), Nat.sub_self]
    rfl
  rw [start_pieces_append] at hsucc
  omega

/-- **The body of an entry can be read** where it is in front. -/
theorem Logreader.Carries.reads_body (hc : log.Carries blocks (before ++ e :: after))
    (h : log.Unread p o (e.body ++ (pieces after).flatten)) {pos : Nat} (idx : Nat)
    (hpos : log.source.moves = false → pos = p) :
    ∃ b q c' j, log.BlockAt p b q ∧ o ≤ b.length ∧ Reads log.source ⟨pos, idx, b.drop o, q⟩ e.body c' ∧
      log.Ahead blocks c' after j := by
  obtain ⟨-, hin, b, q, cs, hb, ho, hcs, hrest⟩ := h
  rcases hin with hm | ⟨pre, hpre⟩
  · -- one run of bytes
    have hplain : usesCompressor log.header.compressionType = false := by
      simpa [Logreader.source] using hm
    obtain ⟨-, rfl, rfl⟩ := (Logreader.blockAt_plain hplain).mp hb
    obtain rfl : cs = [] := by
      rw [hc.length_data] at hcs
      exact hcs.det (.nil _)
    rw [List.flatten_nil, List.append_nil] at hrest
    refine ⟨_, _, _, blocks.length, hb, ho, Reads.of_cur hrest, ?_, ?_,
      fun hm' => Bool.noConfusion (hm.symm.trans hm'), Or.inr ?_⟩
    · rw [List.drop_length, next_move]
      show log.Blocks log.data.length [] _
      rw [hc.length_data]
      exact .nil _
    · rw [cur_move, hrest, List.drop_left, List.drop_length, List.flatten_nil, List.append_nil]
    · -- the only block is all of the data
      have hflat := hc.cut.flatten
      have hchain := hc.chain
      cases hblocks : blocks with
      | nil =>
        rw [hblocks, List.flatten_nil] at hflat
        have := congrArg List.length hflat
        rw [length_pieces_append, length_pieces_cons, List.length_nil] at this
        have := List.length_pos_iff.mpr (bytes_ne_nil e)
        omega
      | cons d ds =>
        rw [hblocks] at hchain hflat
        cases hchain with
        | cons hd hds =>
          obtain ⟨-, rfl, rfl⟩ := (Logreader.blockAt_plain hplain).mp hd
          obtain rfl : ds = [] := by
            rw [hc.length_data] at hds
            exact hds.det (.nil _)
          refine ⟨_, Nat.succ_pos _, rfl, ?_, fun hm' => Bool.noConfusion (hm.symm.trans hm')⟩
          rw [List.flatten_singleton] at hflat
          have hsuff : (pieces after).flatten <:+ log.data.drop logHeaderSize := by
            have hpieces : (pieces (before ++ e :: after)).flatten
                = (pieces before).flatten ++ (e.bytes ++ (pieces after).flatten) := by
              rw [pieces, List.map_append, List.flatten_append, List.map_cons, List.flatten_cons]
            rw [hflat, hpieces]
            exact (List.suffix_append _ _).trans (List.suffix_append _ _)
          rw [cur_move, hrest, List.drop_left]
          exact hsuff
  · have hblocks := hc.eq_append hpre hb hcs
    obtain ⟨c', j, hr, hchain, hrest', halong⟩ := reads_of_blocks (c := ⟨pos, idx, b.drop o, q⟩) hcs
      hrest.symm fun k hk => hc.gaps_body hblocks hrest hk
    have hdrop : blocks.drop (pre.length + (1 + j)) = cs.drop j := by
      rw [hblocks, List.drop_length_add_append, Nat.add_comm 1 j, List.drop_succ_cons]
    have htake : ∀ k, blocks.take (pre.length + (k + 1)) = pre ++ b :: cs.take k := by
      intro k
      rw [hblocks, List.take_length_add_append, List.take_succ_cons]
    refine ⟨b, q, c', pre.length + (1 + j), hb, ho, hr, by rwa [hdrop], by rwa [hdrop], fun _ => ?_,
      Or.inr ?_⟩
    · rw [Nat.add_comm 1 j, htake]
      exact hpre.append (.cons hb halong.next)
    · rcases halong.inside with ⟨rfl, hsuff, hsame⟩ | ⟨d, hj, hd, hsuff, hposn⟩
      · refine ⟨b, by omega, ?_, hsuff.trans (List.drop_suffix o b), fun hm => ?_⟩
        · rw [hblocks, Nat.add_zero, Nat.add_sub_cancel, List.getElem?_append_right (Nat.le_refl _),
            Nat.sub_self]
          rfl
        · rw [Nat.add_zero, Nat.add_sub_cancel, hblocks, List.take_left, hsame hm]
          show log.Blocks logHeaderSize pre pos
          rw [hpos hm]
          exact hpre
      · obtain ⟨j, rfl⟩ := Nat.exists_eq_succ_of_ne_zero (Nat.ne_of_gt hj)
        have hidx : pre.length + (1 + (j + 1)) - 1 = pre.length + (j + 1) := by omega
        refine ⟨d, by omega, ?_, hsuff, fun hm => ?_⟩
        · rw [hblocks, hidx, List.getElem?_append_right (by omega), Nat.add_sub_cancel_left]
          exact hd
        · rw [hidx, htake]
          exact hpre.append (.cons hb (hposn hm))

theorem StandsAt.partway (hc : log.Carries blocks (before ++ e :: after)) (hu : Usable log iter)
    (h : StandsAt log iter e after) :
    ∃ c' j, Partway log iter e.key e.value c' ∧ log.Ahead blocks c' after j := by
  obtain ⟨pos, hpos⟩ : ∃ pos, pos = if log.source.moves then iter.blockPosition + iter.blockOffset
    else iter.blockPosition := ⟨_, rfl⟩
  have hsame : log.source.moves = false → pos = iter.entryBlockPosition := fun hm => by
    rw [hpos, hm, if_neg Bool.false_ne_true, h.blockPosition]
  obtain ⟨b, q, c', j, hb, ho, hr, ha⟩ := hc.reads_body h.unread 0 hsame
  have hp := h.unread.1
  rw [← h.blockPosition] at hb hp
  rw [← h.blockOffset] at ho hr
  obtain ⟨hle, hload⟩ := hu.cached.resolve_left fun h0 => hp h0.1
  obtain ⟨rfl, rfl⟩ := log.source.block_det hb hload
  rw [List.length_take_of_le hle] at ho
  have hnext : iter.nextBlockPosition ≠ 0 := Nat.ne_zero_of_lt (log.source.block_lt hload)
  have hat : At log iter
      ⟨pos, 0, (iter.compressionBuf.take iter.blockLen).drop iter.blockOffset, iter.nextBlockPosition⟩
      (e.body.length + iter.blockLen) := by
    refine ⟨hu.iterOpen, hu.cached, ho, rfl, rfl, hnext, fun _ => ?_, fun _ => hpos, Or.inl ?_⟩
    · show pos ≠ 0
      rw [hpos]
      split_ifs <;> omega
    · show ((iter.compressionBuf.take iter.blockLen).drop iter.blockOffset).length ≤ _
      rw [List.length_drop, List.length_take_of_le hle]
      omega
  exact ⟨c', j, ⟨h.state, h.keyRemaining.trans h.keylen, h.valueRemaining.trans h.valuelen, _, _,
    Nat.le_add_right _ _, hat, hr⟩, ha⟩

/-! ### Logs that were written -/

theorem setting_of_flush {t : CompressionType} {n : Nat} {calls : List Call} {w w' : Logwriter}
    (hw : Writing t n calls w) (hfl : logwriterFlush.run w = .ok () w')
    (hopen : logreaderOpen (some w'.fd.data) = .ok log) : log.header.setting = Setting.of t n := by
  obtain ⟨hk', hf, -⟩ := (kept_of_writing hw).1.flush hfl
  rw [(hk'.open hf hopen).2.1]
  exact hk'.setting

/-- **A log that was written carries the entries that were added**, also where its header is refused. -/
theorem carries_reader {t : CompressionType} {n : Nat} {calls : List Call} {w w' : Logwriter}
    (hw : Writing t n calls w) (hz : (Setting.of t n).Lossless)
    (hfl : logwriterFlush.run w = .ok () w') : ∃ blocks, w'.reader.Carries blocks (entriesOf calls) := by
  obtain ⟨hk, hp⟩ := kept_of_writing hw
  obtain ⟨hk', hf, hp'⟩ := hk.flush hfl
  obtain ⟨log, hlog⟩ : ∃ log, log = w'.reader := ⟨_, rfl⟩
  rw [← hlog]
  have hopened : log.Opened := hlog ▸ hk'.opened_reader hf
  have hheader : log.header = w'.header := congrArg Logreader.header hlog
  have hdata : log.data = w'.fd.data := congrArg Logreader.data hlog
  have hset : log.header.setting = Setting.of t n := by
    rw [hheader]
    exact hk'.setting
  have hpack : pack (Setting.of t n) (calls ++ [.flush]) = some w'.packing := by
    rw [pack_append, hp]
    exact hp'
  have htype : log.header.compressionType = t := congrArg Setting.compressionType hset
  have hsize : log.header.compressionBlockSize = (Setting.of t n).compressionBlockSize :=
    congrArg Setting.compressionBlockSize hset
  have hend : log.header.dataEnd = logHeaderSize + w'.packing.out.length := by
    rw [hheader, hf.dataEnd, hf.data, List.length_append, Logheader.length_bytes]
  rw [← entriesOf_flush calls]
  by_cases hu : usesCompressor t = true
  · -- compressed blocks
    have hs : 0 < (Setting.of t n).compressionBlockSize := by
      have hn : (Setting.of t n).compressionBlockSize = n := if_pos hu
      have := hw.le_blockSize hu
      omega
    obtain ⟨blocks, hcuts, hgaps⟩ := cuts_pack hu hs hpack
    have hcut := hcuts.cut
    rw [hf.block] at hcut
    have hbytes : log.data = w'.header.bytes ++ ([] ++ w'.packing.out ++ []) := by
      rw [hdata, hf.data, List.nil_append, List.append_nil]
    refine ⟨blocks, hopened, ?_, ?_, ?_, fun _ => ?_⟩
    · rw [hend]
      exact hcuts.frames.blocks hcuts.length_le hset hbytes hu (hz hu)
    · rw [hsize]
      exact hcut.of_snoc_nil hs
    · rw [hsize]
      exact hgaps
    · rw [hsize]
      exact hcuts.length_le
  · -- one run of bytes
    have hplain : usesCompressor t = false := Bool.eq_false_of_not_eq_true hu
    have hplain' : usesCompressor log.header.compressionType = false := htype ▸ hplain
    obtain ⟨-, hout⟩ := out_pack hplain hpack
    have hdrop : log.data.drop logHeaderSize = (pieces (entriesOf (calls ++ [.flush]))).flatten := by
      rw [hdata, hf.data, ← Logheader.length_bytes w'.header, List.drop_left, hout]
    by_cases hnil : w'.packing.out = []
    · have hes : entriesOf (calls ++ [.flush]) = [] := by
        rw [hout, List.flatten_eq_nil_iff] at hnil
        rw [List.eq_nil_iff_forall_not_mem]
        intro e he
        exact bytes_ne_nil e (hnil _ (List.mem_map_of_mem he))
      refine ⟨[], hopened, ?_, ?_, nofun, fun hu' => absurd (htype ▸ hu') hu⟩
      · rw [hend, hnil]
        exact .nil _
      · rw [hes]
        exact ⟨rfl, nofun⟩
    · have hpos : 0 < w'.packing.out.length := List.length_pos_iff.mpr hnil
      have hlen : log.data.length = log.header.dataEnd := hopened.length_data
      have hne : (pieces (entriesOf (calls ++ [.flush]))).flatten ≠ [] := hout ▸ hnil
      refine ⟨[(pieces (entriesOf (calls ++ [.flush]))).flatten], hopened, ?_, cut_single _ _,
        gaps_single hne, fun hu' => absurd (htype ▸ hu') hu⟩
      refine .cons ((Logreader.blockAt_plain hplain').mpr ⟨by omega, hdrop.symm, rfl⟩) ?_
      rw [hlen]
      exact .nil _

theorem carries_of_flush {t : CompressionType} {n : Nat} {calls : List Call} {w w' : Logwriter}
    (hw : Writing t n calls w) (hz : (Setting.of t n).Lossless)
    (hfl : logwriterFlush.run w = .ok () w') (hopen : logreaderOpen (some w'.fd.data) = .ok log) :
    ∃ blocks, log.Carries blocks (entriesOf calls) := by
  obtain ⟨hk, hf, -⟩ := (kept_of_writing hw).1.flush hfl
  rw [hk.eq_reader hf hopen]
  exact carries_reader hw hz hfl

/-- **Any calls leave the iterator usable.** -/
theorem Handled.usable (hc : log.Carries blocks es) (h : Handled log iter) : Usable log iter :=
  (h.steady hc.toOpened (hc.chain.chain (by decide))).toUsable

theorem Partway.handsOut (hl : log.Opened) (value : List UInt8) (c' : Cursor UInt8) :
    HandsOut log fun key iter => Partway log iter key value c' := by
  intro key iter h
  obtain ⟨m, iter', hrun, -, hm', hpos, h', -⟩ := h.run_logiterKeychunk hl (1 <<< 30)
  exact ⟨m, iter', hrun, hm', fun hkey => hpos hkey (by decide), h'⟩

end Sparkey
