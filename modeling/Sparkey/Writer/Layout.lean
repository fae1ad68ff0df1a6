import Sparkey.Lib.Tiling
import Sparkey.Roundtrip

/-!
# How entries lie in the blocks

A compressed log is cut twice, into blocks and into entries, and readers rely on how
the two cuts lie to each other.  `Layout` says it: no block is too large, the head of
an entry lies in one block, an entry that fits a block lies in one, behind one that
does not a new block is begun, and not too many entries begin in a block.

The writer closes a block or, with a large entry, some blocks at a time, and what it
closes then is laid out by itself (`Layout.group`, `Layout.append`).  The blocks of a
packing become those of a reader by `Frames.blocks`.
-/

namespace Sparkey

open BlockStream Tiling

abbrev pieces (es : List Entry) : List (List UInt8) := es.map Entry.bytes

/-- How some entries lie in some blocks of at most `n` bytes. -/
structure Layout (n maxEntriesPerBlock : Nat) (blocks : List (List UInt8)) (es : List Entry) :
    Prop where
  flatten : blocks.flatten = (pieces es).flatten
  /-- No block is empty, or larger than the block size. -/
  block : ∀ b ∈ blocks, b ≠ [] ∧ b.length ≤ n
  /-- Both numbers in front of an entry lie in one block. -/
  head : ∀ {i e}, es[i]? = some e →
    Within blocks (start (pieces es) i) (start (pieces es) i + e.header.length)
  /-- An entry that is not larger than a block lies in one. -/
  whole : ∀ {i e}, es[i]? = some e → e.bytes.length ≤ n →
    Within blocks (start (pieces es) i) (start (pieces es) (i + 1))
  /-- Behind an entry that does not lie in one block a new block is begun. -/
  behind : ∀ {i}, i + 1 < es.length →
    Within blocks (start (pieces es) i) (start (pieces es) (i + 1)) ∨
      ∃ j < blocks.length, start (pieces es) (i + 1) = start blocks j
  /-- Not too many entries begin in a block. -/
  few : ∀ j, startsIn blocks (pieces es) j ≤ maxEntriesPerBlock

section Lists

variable {n m m' : Nat} {blocks cs : List (List UInt8)} {b : List UInt8} {es fs : List Entry}
  {e : Entry} {i : Nat}

theorem bytes_ne_nil (e : Entry) : e.bytes ≠ [] :=
  fun h => e.header_ne_nil (List.append_eq_nil_iff.mp h).1

theorem pieces_ne_nil : ∀ p ∈ pieces es, p ≠ [] := by
  intro p hp
  obtain ⟨e, -, rfl⟩ := List.mem_map.mp hp
  exact bytes_ne_nil e

theorem flatten_pieces_append (es : List Entry) (e : Entry) :
    (pieces (es ++ [e])).flatten = (pieces es).flatten ++ e.bytes := by
  rw [pieces, List.map_append, List.flatten_append, List.map_singleton, List.flatten_singleton]

theorem start_pieces_succ (h : es[i]? = some e) :
    start (pieces es) (i + 1) = start (pieces es) i + e.bytes.length := by
  apply start_succ
  rw [List.getElem?_map, h]
  rfl

theorem layout_nil : Layout n m [] [] :=
  ⟨rfl, nofun, nofun, nofun, nofun, fun _ => Nat.zero_le _⟩

theorem Layout.mono (h : Layout n m blocks es) (hm : m ≤ m') : Layout n m' blocks es :=
  ⟨h.flatten, h.block, h.head, h.whole, h.behind, fun j => Nat.le_trans (h.few j) hm⟩

/-- **Blocks behind blocks.** -/
theorem Layout.append (h : Layout n m blocks es) (h' : Layout n m cs fs) :
    Layout n m (blocks ++ cs) (es ++ fs) := by
  have hlen : (pieces es).length = es.length := List.length_map _
  have hpieces : pieces (es ++ fs) = pieces es ++ pieces fs := List.map_append
  have hleft : ∀ {i}, i ≤ es.length → start (pieces (es ++ fs)) i = start (pieces es) i := by
    intro i hi
    rw [hpieces, start_append_left (hlen ▸ hi)]
  have hright : ∀ i, start (pieces (es ++ fs)) (es.length + i)
      = blocks.flatten.length + start (pieces fs) i := by
    intro i
    rw [hpieces, ← hlen, start_append_right, h.flatten]
  -- an entry is one of those before, or one of those behind
  have hcase : ∀ {i e}, (es ++ fs)[i]? = some e →
      i < es.length ∧ es[i]? = some e ∨ ∃ k, i = es.length + k ∧ fs[k]? = some e := by
    intro i e hi
    rcases Nat.lt_or_ge i es.length with hlt | hge
    · exact Or.inl ⟨hlt, by rwa [List.getElem?_append_left hlt] at hi⟩
    · refine Or.inr ⟨i - es.length, by omega, ?_⟩
      rwa [List.getElem?_append_right hge] at hi
  refine ⟨?_, ?_, ?_, ?_, ?_, ?_⟩
  · rw [hpieces, List.flatten_append, List.flatten_append, h.flatten, h'.flatten]
  · intro b hb
    rcases List.mem_append.mp hb with hb | hb
    · exact h.block b hb
    · exact h'.block b hb
  · intro i e hi
    rcases hcase hi with ⟨hlt, hi⟩ | ⟨k, rfl, hk⟩
    · rw [hleft (Nat.le_of_lt hlt)]
      exact (h.head hi).append_left
    · rw [hright, Nat.add_assoc]
      exact (h'.head hk).append_right
  · intro i e hi hle
    rcases hcase hi with ⟨hlt, hi⟩ | ⟨k, rfl, hk⟩
    · rw [hleft (Nat.le_of_lt hlt), hleft hlt]
      exact (h.whole hi hle).append_left
    · rw [Nat.add_assoc, hright, hright]
      exact (h'.whole hk hle).append_right
  · intro i hi
    rw [List.length_append] at hi
    rcases Nat.lt_trichotomy (i + 1) es.length with hlt | heq | hgt
    · rw [hleft (by omega), hleft (by omega)]
      rcases h.behind hlt with hw | ⟨j, hj, heq⟩
      · exact Or.inl hw.append_left
      · refine Or.inr ⟨j, by rw [List.length_append]; omega, ?_⟩
        rw [heq, start_append_left (Nat.le_of_lt hj)]
    · -- the first of those behind
      have hcs : 0 < cs.length := by
        rw [List.length_pos_iff]
        rintro rfl
        have hfs : 0 < fs.length := by omega
        have hmem : fs[0].bytes ∈ pieces fs := List.mem_map_of_mem (List.getElem_mem hfs)
        have hnil := List.flatten_eq_nil_iff.mp h'.flatten.symm _ hmem
        exact bytes_ne_nil _ hnil
      refine Or.inr ⟨blocks.length, by rw [List.length_append]; omega, ?_⟩
      have h0 := hright 0
      rw [Nat.add_zero] at h0
      rw [heq, h0, start_zero, start_append_left (Nat.le_refl _), start_length]
      rfl
    · obtain ⟨k, rfl⟩ : ∃ k, i = es.length + k := ⟨i - es.length, by omega⟩
      rw [Nat.add_assoc, hright, hright]
      rcases h'.behind (i := k) (by omega) with hw | ⟨j, hj, heq⟩
      · exact Or.inl hw.append_right
      · refine Or.inr ⟨blocks.length + j, by rw [List.length_append]; omega, ?_⟩
        rw [heq, start_append_right]
  · intro j
    rw [hpieces]
    rcases Nat.lt_or_ge j blocks.length with hlt | hge
    · rw [startsIn_append_left h.flatten hlt]
      exact h.few j
    · obtain ⟨k, rfl⟩ : ∃ k, j = blocks.length + k := ⟨j - blocks.length, by omega⟩
      rw [startsIn_append_right h.flatten pieces_ne_nil]
      exact h'.few k

/-- **What is closed at a time**: all but the last entry lie in the first block, and so does the
head of the last one, which is too large for a block if it goes on behind the first. -/
theorem Layout.group (hflat : (b :: cs).flatten = (pieces es).flatten)
    (hblock : ∀ b' ∈ b :: cs, b' ≠ [] ∧ b'.length ≤ n)
    (hhead : ∀ {i e}, es[i]? = some e → start (pieces es) i + e.header.length ≤ b.length)
    (hfirst : ∀ {i e}, es[i]? = some e →
      start (pieces es) (i + 1) ≤ b.length ∨ n < e.bytes.length ∧ i + 1 = es.length) :
    Layout n es.length (b :: cs) es := by
  have hone : start (b :: cs) (0 + 1) = b.length := by
    rw [start_succ rfl, start_zero, Nat.zero_add]
  have hin : ∀ {x y}, y ≤ b.length → Within (b :: cs) x y := fun hy =>
    ⟨0, Nat.succ_pos _, Nat.zero_le _, by rwa [hone]⟩
  refine ⟨hflat, hblock, fun hi => hin (hhead hi), ?_, ?_, ?_⟩
  · intro i e hi hle
    rcases hfirst hi with h | ⟨h, -⟩
    · exact hin h
    · omega
  · intro i hi
    rcases hfirst (List.getElem?_eq_getElem (Nat.lt_of_succ_lt hi)) with h | ⟨-, h⟩
    · exact Or.inl (hin h)
    · omega
  · intro j
    have hle : startsIn (b :: cs) (pieces es) j ≤ (pieces es).length := startsIn_le
    rwa [List.length_map] at hle

theorem Layout.single {n : Nat} {pend : List Entry} (hne : (pieces pend).flatten ≠ [])
    (hle : (pieces pend).flatten.length ≤ n) : Layout n pend.length [(pieces pend).flatten] pend := by
  have hin : ∀ {i}, start (pieces pend) i ≤ (pieces pend).flatten.length := start_le_length
  refine Layout.group List.flatten_singleton ?_ ?_ (fun _ => Or.inl hin)
  · intro b hb
    rw [List.mem_singleton.mp hb]
    exact ⟨hne, hle⟩
  · intro i e hi
    have hend : start (pieces pend) (i + 1) ≤ (pieces pend).flatten.length := hin
    have hsucc := start_pieces_succ hi
    rw [Entry.bytes, List.length_append] at hsucc
    omega

/-- **The blocks a large entry fills up** are those it began in and new ones. -/
theorem Layout.span {n : Nat} {pend : List Entry} {b : List UInt8}
    (hflat : (b :: cs).flatten = (pieces pend).flatten ++ e.bytes)
    (hblock : ∀ b' ∈ b :: cs, b' ≠ [] ∧ b'.length ≤ n) (hlarge : n < e.bytes.length)
    (hhead : (pieces pend).flatten.length + e.header.length ≤ b.length) :
    Layout n (pend.length + 1) (b :: cs) (pend ++ [e]) := by
  have hlen : (pieces pend).length = pend.length := List.length_map _
  have hpieces : pieces (pend ++ [e]) = pieces pend ++ [e.bytes] := List.map_append
  have hstart : ∀ {i}, i ≤ pend.length →
      start (pieces (pend ++ [e])) i ≤ (pieces pend).flatten.length := by
    intro i hi
    rw [hpieces, start_append_left (hlen ▸ hi)]
    exact start_le_length
  -- an entry is one of those before, or the large one
  have hcase : ∀ {i e'}, (pend ++ [e])[i]? = some e' → i < pend.length ∨ i = pend.length ∧ e' = e := by
    intro i e' hi
    rcases Nat.lt_or_ge i pend.length with hlt | hge
    · exact Or.inl hlt
    · rw [List.getElem?_append_right hge, List.getElem?_singleton] at hi
      split_ifs at hi with h0
      cases hi
      exact Or.inr ⟨by omega, rfl⟩
  have hgroup : Layout n (pend ++ [e]).length (b :: cs) (pend ++ [e]) := by
    refine Layout.group ?_ hblock ?_ ?_
    · rw [hflat, flatten_pieces_append]
    · intro i e' hi
      rcases hcase hi with hlt | ⟨rfl, rfl⟩
      · have hnext : start (pieces (pend ++ [e])) (i + 1) ≤ (pieces pend).flatten.length := hstart hlt
        have hsucc := start_pieces_succ hi
        rw [Entry.bytes, List.length_append] at hsucc
        omega
      · have := hstart (Nat.le_refl _)
        omega
    · intro i e' hi
      rcases hcase hi with hlt | ⟨rfl, rfl⟩
      · have hnext := hstart hlt
        exact Or.inl (Nat.le_trans hnext (by omega))
      · refine Or.inr ⟨hlarge, ?_⟩
        rw [List.length_append]
        rfl
  rwa [List.length_append] at hgroup

end Lists

/-! ### The blocks a packing closes -/

section Steps

variable [Compressors] {s : Setting} {p p' p'' : Packing} {bs cs : List (List UInt8)}
  {out more data : List UInt8} {es : List Entry} {e : Entry}

def Frames (s : Setting) (bs : List (List UInt8)) (out : List UInt8) : Prop :=
  ∃ compressed, List.Forall₂ (fun b c => s.compress b = some c) bs compressed ∧
    out = (compressed.map frame).flatten

theorem frames_nil : Frames s [] [] := ⟨[], .nil, rfl⟩

theorem Frames.append (h : Frames s bs out) (h' : Frames s cs more) :
    Frames s (bs ++ cs) (out ++ more) := by
  obtain ⟨xs, hxs, rfl⟩ := h
  obtain ⟨ys, hys, rfl⟩ := h'
  refine ⟨xs ++ ys, List.rel_append hxs hys, ?_⟩
  rw [List.map_append, List.flatten_append]

theorem Frames.flushBlock (h : p.flushBlock s = some p') :
    ∃ more, Frames s [p.block] more ∧ p' = ⟨p.out ++ more, [], true, 0, p.peak⟩ := by
  obtain ⟨compressed, hc, rfl⟩ := Packing.flushBlock_eq h
  refine ⟨frame compressed, ⟨[compressed], .cons hc .nil, ?_⟩, rfl⟩
  rw [List.map_singleton, List.flatten_singleton]

/-- What adding bytes comes to: some blocks are filled up and closed. -/
structure Fills (s : Setting) (data : List UInt8) (p p' : Packing) (bs : List (List UInt8)) :
    Prop where
  flatten : p.block ++ data = bs.flatten ++ p'.block
  full : ∀ b ∈ bs, b.length = s.compressionBlockSize
  frames : ∃ more, Frames s bs more ∧ p'.out = p.out ++ more
  room : p'.block.length ≤ s.compressionBlockSize
  stays : bs = [] → p' = { p with block := p.block ++ data }
  closes : bs ≠ [] → p'.flushed = true ∧ p'.entryCount = 0 ∧ p'.maxEntriesPerBlock = p.peak

theorem Fills.peak (h : Fills s data p p' bs) : p'.peak = p.peak := by
  by_cases hbs : bs = []
  · rw [h.stays hbs]
    rfl
  · obtain ⟨-, hcount, hmax⟩ := h.closes hbs
    rw [Packing.peak, hcount, hmax]
    exact Nat.max_zero _

theorem Fills.trans {data' : List UInt8} (h : Fills s data p p' bs) (h' : Fills s data' p' p'' cs) :
    Fills s (data ++ data') p p'' (bs ++ cs) := by
  obtain ⟨out, hout, hp'⟩ := h.frames
  obtain ⟨more, hmore, hp''⟩ := h'.frames
  refine ⟨?_, ?_, ⟨out ++ more, hout.append hmore, ?_⟩, h'.room, ?_, ?_⟩
  · rw [← List.append_assoc, h.flatten, List.append_assoc, h'.flatten, ← List.append_assoc,
      List.flatten_append]
  · intro b hb
    rcases List.mem_append.mp hb with hb | hb
    · exact h.full b hb
    · exact h'.full b hb
  · rw [hp'', hp', List.append_assoc]
  · intro hnil
    obtain ⟨hbs, hcs⟩ := List.append_eq_nil_iff.mp hnil
    rw [h'.stays hcs, h.stays hbs, List.append_assoc]
  · intro hne
    by_cases hcs : cs = []
    · have hbs : bs ≠ [] := fun hbs => hne (by rw [hbs, hcs, List.append_nil])
      rw [h'.stays hcs]
      exact h.closes hbs
    · obtain ⟨hflushed, hcount, hmax⟩ := h'.closes hcs
      exact ⟨hflushed, hcount, hmax.trans h.peak⟩

theorem fills_fillLoop : ∀ (fuel : Nat) {data : List UInt8} {p p' : Packing},
    p.block.length ≤ s.compressionBlockSize → Packing.fillLoop s fuel data p = some p' →
    ∃ bs, Fills s data p p' bs := by
  intro fuel
  induction fuel with
  | zero =>
    intro data p p' _ h
    cases h
  | succ fuel ih =>
    intro data p p' hroom h
    rw [Packing.fillLoop] at h
    split_ifs at h with hfits
    · cases h
      refine ⟨[], rfl, fun _ hb => absurd hb List.not_mem_nil,
        ⟨[], frames_nil, (List.append_nil _).symm⟩, ?_, fun _ => rfl, absurd rfl⟩
      show (p.block ++ data).length ≤ _
      rw [List.length_append]
      omega
    · obtain ⟨p₁, hp₁, h⟩ := Option.bind_eq_some_iff.mp h
      obtain ⟨r, hr⟩ : ∃ r, r = s.compressionBlockSize - p.block.length := ⟨_, rfl⟩
      rw [← hr] at hfits hp₁ h
      have hfull : (p.block ++ data.take r).length = s.compressionBlockSize := by
        rw [List.length_append, List.length_take_of_le (by omega)]
        omega
      obtain ⟨more, hmore, rfl⟩ := Frames.flushBlock hp₁
      -- the bytes that go into the block, and the block is closed
      have hfirst : Fills s (data.take r) p ⟨p.out ++ more, [], true, 0, p.peak⟩
          [p.block ++ data.take r] := by
        refine ⟨?_, ?_, ⟨more, hmore, rfl⟩, Nat.zero_le _, fun h => absurd h (List.cons_ne_nil _ _),
          fun _ => ⟨rfl, rfl, rfl⟩⟩
        · rw [List.flatten_singleton, List.append_nil]
        · intro b hb
          rw [List.mem_singleton.mp hb]
          exact hfull
      obtain ⟨bs, hbs⟩ := ih (Nat.zero_le _) h
      have hfills := hfirst.trans hbs
      rw [List.take_append_drop] at hfills
      exact ⟨_, hfills⟩

/-! ### What a writer has closed -/

/-- The closed blocks of a packing and the entries in the open one. -/
structure Packing.Tiled (s : Setting) (p : Packing) (bs : List (List UInt8)) (es pend : List Entry) :
    Prop where
  frames : Frames s bs p.out
  layout : Layout s.compressionBlockSize p.peak bs es
  block : p.block = (pieces pend).flatten
  entryCount : p.entryCount = pend.length
  room : p.block.length ≤ s.compressionBlockSize

theorem tiled_init : Packing.init.Tiled s [] [] [] :=
  ⟨frames_nil, layout_nil, rfl, rfl, Nat.zero_le _⟩

/-- **Closing the open block.** -/
theorem Packing.Tiled.flushBlock {pend : List Entry} (h : p.Tiled s bs es pend) (hne : p.block ≠ [])
    (hf : p.flushBlock s = some p') : p'.Tiled s (bs ++ [p.block]) (es ++ pend) [] := by
  have hpeak := Packing.peak_flushBlock hf
  obtain ⟨more, hmore, rfl⟩ := Frames.flushBlock hf
  have hsingle : Layout s.compressionBlockSize pend.length [p.block] pend := by
    rw [h.block]
    exact Layout.single (h.block ▸ hne) (h.block ▸ h.room)
  have hcount : pend.length ≤ p.peak := by
    rw [← h.entryCount]
    exact Nat.le_max_right _ _
  refine ⟨h.frames.append hmore, ?_, rfl, rfl, Nat.zero_le _⟩
  rw [hpeak]
  exact h.layout.append (hsingle.mono hcount)

theorem Packing.Tiled.flush {pend : List Entry} (h : p.Tiled s bs es pend)
    (hf : p.flush s = some p') :
    ∃ cs, p'.Tiled s cs (es ++ pend) [] := by
  rw [Packing.flush] at hf
  split_ifs at hf with hused
  · exact ⟨_, h.flushBlock (List.length_pos_iff.mp hused) hf⟩
  · cases hf
    have hpend : pend = [] := by
      have hnil : p.block = [] := List.eq_nil_of_length_eq_zero (by omega)
      rw [h.block, List.flatten_eq_nil_iff] at hnil
      rw [List.eq_nil_iff_forall_not_mem]
      intro e he
      exact bytes_ne_nil e (hnil _ (List.mem_map_of_mem he))
    subst hpend
    exact ⟨bs, by rwa [List.append_nil]⟩

theorem Packing.Tiled.makeRoom {pend : List Entry} (h : p.Tiled s bs es pend)
    (hh : e.header.length ≤ s.compressionBlockSize) (hm : p.makeRoom s e = some p') :
    ∃ cs fs pend', p'.Tiled s cs fs pend' ∧ fs ++ pend' = es ++ pend ∧
      e.header.length ≤ s.compressionBlockSize - p'.block.length ∧
      (e.bytes.length ≤ s.compressionBlockSize →
        e.bytes.length ≤ s.compressionBlockSize - p'.block.length) := by
  rw [Packing.makeRoom] at hm
  split_ifs at hm with hroom
  · have hne : p.block ≠ [] := by
      intro h0
      rw [h0, List.length_nil] at hroom
      omega
    have ht := h.flushBlock hne hm
    obtain ⟨more, -, rfl⟩ := Frames.flushBlock hm
    exact ⟨_, _, [], ht, List.append_nil _, hh, fun hle => hle⟩
  · cases hm
    exact ⟨bs, es, pend, h, rfl, by omega, fun hle => by omega⟩

theorem Packing.Tiled.stay {pend : List Entry} (h : p.Tiled s bs es pend)
    (hle : e.bytes.length ≤ s.compressionBlockSize - p.block.length) :
    Packing.Tiled s { p.enter with block := p.block ++ e.bytes } bs es (pend ++ [e]) := by
  have hroom := h.room
  refine ⟨h.frames, h.layout.mono ?_, ?_, ?_, ?_⟩
  · show max p.maxEntriesPerBlock p.entryCount ≤ max p.maxEntriesPerBlock (p.entryCount + 1)
    omega
  · show p.block ++ e.bytes = (pieces (pend ++ [e])).flatten
    rw [h.block, flatten_pieces_append]
  · show p.entryCount + 1 = (pend ++ [e]).length
    rw [List.length_append, h.entryCount]
    rfl
  · show (p.block ++ e.bytes).length ≤ _
    rw [List.length_append]
    omega

/-- The block an entry ended in is closed if it is not the one it began in. -/
theorem Frames.endEntry (hroom : p.block.length ≤ s.compressionBlockSize) (hfl : p.flushed = true)
    (hcount : p.entryCount = 0) (h : p.endEntry s = some p') :
    ∃ cs more, Frames s cs more ∧ p'.out = p.out ++ more ∧ cs.flatten = p.block ∧
      (∀ b ∈ cs, b ≠ [] ∧ b.length ≤ s.compressionBlockSize) ∧
      p'.block = [] ∧ p'.entryCount = 0 ∧ p'.peak = p.peak := by
  rw [Packing.endEntry] at h
  split_ifs at h with hused
  · have hpeak := Packing.peak_flushBlock h
    obtain ⟨more, hmore, rfl⟩ := Frames.flushBlock h
    refine ⟨[p.block], more, hmore, rfl, List.flatten_singleton, ?_, rfl, rfl, hpeak⟩
    intro b hb
    rw [List.mem_singleton.mp hb]
    exact ⟨List.length_pos_iff.mp hused.2, hroom⟩
  · cases h
    have hnil : p.block = [] := by
      by_contra hne
      exact hused ⟨hfl, List.length_pos_iff.mpr hne⟩
    exact ⟨[], [], frames_nil, (List.append_nil _).symm, hnil.symm, nofun, hnil, hcount, rfl⟩

theorem Packing.Tiled.span {pend : List Entry} (h : p.Tiled s bs es pend)
    (hhead : e.header.length ≤ s.compressionBlockSize - p.block.length)
    (hlarge : s.compressionBlockSize < e.bytes.length)
    (hf : Fills s e.body { p.enter with block := p.block ++ e.header } p' cs)
    (hend : p'.endEntry s = some p'') : ∃ bs', p''.Tiled s bs' (es ++ (pend ++ [e])) [] := by
  have hroom := h.room
  have htwo := e.two_le_length_header
  have hbytes : e.bytes.length = e.header.length + e.body.length := List.length_append
  -- not all of it is in the open block
  have hne : cs ≠ [] := by
    intro hnil
    have hlen := hf.room
    rw [hf.stays hnil, List.length_append, List.length_append] at hlen
    omega
  obtain ⟨b, cs, rfl⟩ := List.exists_cons_of_ne_nil hne
  obtain ⟨hfl, hcount, -⟩ := hf.closes hne
  obtain ⟨out, hout, hp'⟩ := hf.frames
  obtain ⟨rest, more, hmore, hp'', hrest, hblock, hnil, hcount', hpeak'⟩ :=
    Frames.endEntry hf.room hfl hcount hend
  have hpeak : p''.peak = max p.maxEntriesPerBlock (p.entryCount + 1) := by
    rw [hpeak', hf.peak]
    rfl
  have hspan : Layout s.compressionBlockSize (pend.length + 1) (b :: (cs ++ rest)) (pend ++ [e]) := by
    refine Layout.span ?_ ?_ hlarge ?_
    · rw [← List.cons_append, List.flatten_append, hrest, ← hf.flatten, h.block, List.append_assoc]
      rfl
    · intro b' hb'
      rw [← List.cons_append] at hb'
      rcases List.mem_append.mp hb' with hb' | hb'
      · have hfull := hf.full b' hb'
        refine ⟨?_, Nat.le_of_eq hfull⟩
        rw [← List.length_pos_iff]
        omega
      · exact hblock b' hb'
    · rw [← h.block, hf.full b (List.mem_cons_self ..)]
      omega
  refine ⟨bs ++ (b :: (cs ++ rest)), ?_, ?_, hnil, hcount', ?_⟩
  · rw [hp'', hp']
    show Frames s _ (p.out ++ out ++ more)
    rw [List.append_assoc]
    exact h.frames.append (hout.append hmore)
  · rw [hpeak, h.entryCount]
    refine (h.layout.mono ?_).append (hspan.mono (Nat.le_max_right _ _))
    show max p.maxEntriesPerBlock p.entryCount ≤ _
    rw [h.entryCount]
    omega
  · rw [hnil]
    exact Nat.zero_le _

/-- **Adding an entry.** -/
theorem Packing.Tiled.add {pend : List Entry} (hu : usesCompressor s.compressionType = true)
    (hh : e.header.length ≤ s.compressionBlockSize) (h : p.Tiled s bs es pend)
    (hadd : p.add s e = some p') :
    ∃ cs fs pend', p'.Tiled s cs fs pend' ∧ fs ++ pend' = es ++ pend ++ [e] := by
  rw [Packing.add, if_pos hu] at hadd
  obtain ⟨p₁, h₁, hr₁⟩ := Option.bind_eq_some_iff.mp hadd
  obtain ⟨p₂, h₂, hr₂⟩ := Option.bind_eq_some_iff.mp hr₁
  obtain ⟨p₃, h₃, hr₃⟩ := Option.bind_eq_some_iff.mp hr₂
  obtain ⟨p₄, h₄, hr₄⟩ := Option.bind_eq_some_iff.mp hr₃
  obtain ⟨p₅, h₅, hend⟩ := Option.bind_eq_some_iff.mp hr₄
  obtain ⟨cs, fs, pend', ht, hes, hhead, hfits⟩ := h.makeRoom hh h₁
  -- the head goes into the open block
  have hhead' := Packing.fill_header (p := p₁.enter) hhead
  rw [h₂, Option.bind_some, h₃] at hhead'
  cases hhead'
  have hbytes : e.bytes.length = e.header.length + e.body.length := List.length_append
  have hbody : e.body.length = e.data1.length + e.data2.length := by
    rw [← e.data1_append_data2, List.length_append]
  have hblock : (p₁.block ++ e.header).length = p₁.block.length + e.header.length :=
    List.length_append
  have hroom := ht.room
  have htwo := e.two_le_length_header
  rcases Nat.lt_or_ge s.compressionBlockSize e.bytes.length with hlarge | hle
  · obtain ⟨bs₁, hf₁⟩ := fills_fillLoop _ (show (p₁.block ++ e.header).length ≤ _ by omega) h₄
    obtain ⟨bs₂, hf₂⟩ := fills_fillLoop _ hf₁.room h₅
    have hf := hf₁.trans hf₂
    rw [e.data1_append_data2] at hf
    obtain ⟨bs', ht'⟩ := ht.span hhead hlarge hf hend
    refine ⟨bs', _, [], ht', ?_⟩
    rw [List.append_nil, ← List.append_assoc, hes]
  · -- and the body behind it
    have hroom' := hfits hle
    rw [Packing.fill_fits (show _ ≤ _ - (p₁.block ++ e.header).length by omega)] at h₄
    cases h₄
    rw [Packing.fill_fits (show _ ≤ _ - (p₁.block ++ e.header ++ e.data1).length by
      rw [List.length_append]
      omega)] at h₅
    cases h₅
    have hsame : p₁.block ++ e.header ++ e.data1 ++ e.data2 = p₁.block ++ e.bytes := by
      rw [Entry.bytes, ← e.data1_append_data2, ← List.append_assoc, ← List.append_assoc]
    rw [Packing.endEntry, if_neg (fun hc => Bool.false_ne_true hc.1)] at hend
    cases hend
    have ht' := ht.stay hroom'
    rw [← hsame] at ht'
    exact ⟨cs, fs, _, ht', by rw [← List.append_assoc, hes]⟩

/-- **What a call does** to the blocks. -/
theorem Packing.Tiled.call {pend : List Entry} {c : Call}
    (hu : usesCompressor s.compressionType = true) (hfit : ∀ e ∈ c.entry?, HeadFits s e)
    (h : p.Tiled s bs es pend) (hc : p.call s c = some p') :
    ∃ cs fs pend', p'.Tiled s cs fs pend' ∧ fs ++ pend' = es ++ pend ++ c.entry?.toList := by
  cases c with
  | add e => exact h.add hu (hfit e rfl hu) hc
  | flush =>
    obtain ⟨cs, ht⟩ := h.flush hc
    exact ⟨cs, _, [], ht, rfl⟩
  | reopen =>
    obtain ⟨p₂, hp₂, rfl⟩ := Option.map_eq_some_iff.mp hc
    obtain ⟨cs, ht⟩ := h.flush hp₂
    refine ⟨cs, _, [], ⟨ht.frames, ht.layout.mono ?_, ht.block, rfl, ht.room⟩, rfl⟩
    show max p₂.maxEntriesPerBlock p₂.entryCount ≤ max p₂.maxEntriesPerBlock 0
    rw [ht.entryCount]
    exact Nat.le_refl _

/-- **The blocks of a packing** hold the entries the calls added. -/
theorem tiled_pack (hu : usesCompressor s.compressionType = true) {calls : List Call}
    (hfit : ∀ e ∈ entriesOf calls, HeadFits s e) (h : pack s calls = some p) :
    ∃ bs es pend, p.Tiled s bs es pend ∧ es ++ pend = entriesOf calls := by
  induction calls using List.reverseRecOn generalizing p with
  | nil =>
    cases h
    exact ⟨[], [], [], tiled_init, rfl⟩
  | append_singleton calls c ih =>
    rw [pack_append] at h
    obtain ⟨p₁, hp₁, hc⟩ := Option.bind_eq_some_iff.mp h
    rw [entriesOf_append] at hfit ⊢
    obtain ⟨bs, es, pend, ht, hes⟩ := ih (fun e he => hfit e (List.mem_append_left _ he)) hp₁
    obtain ⟨cs, fs, pend', ht', hfs⟩ := ht.call hu
      (fun e he => hfit e (List.mem_append_right _ (by simpa using he))) hc
    exact ⟨cs, fs, pend', ht', by rw [hfs, hes]⟩

/-! ### The blocks of a reader -/

/-- From `p` to `q` there are some blocks, one behind the other. -/
inductive Logreader.Blocks (log : Logreader) : Nat → List (List UInt8) → Nat → Prop
  | nil (p : Nat) : log.Blocks p [] p
  | cons {p q r : Nat} {b : List UInt8} {bs : List (List UInt8)} :
      log.BlockAt p b q → log.Blocks q bs r → log.Blocks p (b :: bs) r

theorem Frames.blocks {log : Logreader} {header : Logheader} {pre post : List UInt8}
    (h : Frames s bs out) (hle : ∀ b ∈ bs, b.length ≤ s.compressionBlockSize)
    (hset : log.header.setting = s) (hdata : log.data = header.bytes ++ (pre ++ out ++ post))
    (hu : usesCompressor s.compressionType = true)
    (hz : (sparkeyCompressors s.compressionType).Lossless) :
    log.Blocks (logHeaderSize + pre.length) bs (logHeaderSize + pre.length + out.length) := by
  obtain ⟨compressed, hc, rfl⟩ := h
  induction hc generalizing pre with
  | nil => exact .nil _
  | @cons b c bs cs hc _ ih =>
    have hsplit : (List.map frame (c :: cs)).flatten = frame c ++ (List.map frame cs).flatten := rfl
    have hframed : Framed s (pre ++ (List.map frame (c :: cs)).flatten ++ post)
        (logHeaderSize + pre.length, b, logHeaderSize + pre.length + (frame c).length) := by
      refine ⟨pre, c, (List.map frame cs).flatten ++ post, ?_, hc, hle b (List.mem_cons_self ..),
        rfl, rfl⟩
      rw [hsplit]
      simp only [List.append_assoc]
    have hdata' : log.data
        = header.bytes ++ (pre ++ frame c ++ (List.map frame cs).flatten ++ post) := by
      rw [hdata, hsplit]
      simp only [List.append_assoc]
    have hrest := ih (fun b hb => hle b (List.mem_cons_of_mem _ hb)) hdata'
    rw [List.length_append] at hrest
    refine .cons (hframed.blockAt hset hdata hu hz) ?_
    rw [hsplit, List.length_append, ← Nat.add_assoc]
    rwa [← Nat.add_assoc] at hrest

/-- **The layout of a compressed log.**  Behind the header of a log that was flushed there are
blocks up to the end of the data, and the entries that were added lie in them as `Layout` says.
They are those of the reader that is opened, if the loader takes the header. -/
theorem layout_of_flush {t : CompressionType} {n : Nat} {calls : List Call} {w w' : Logwriter}
    (hw : Writing t n calls w) (hu : usesCompressor t = true)
    (hfit : ∀ e ∈ entriesOf calls, HeadFits (.of t n) e) (hz : (Setting.of t n).Lossless)
    (hfl : logwriterFlush.run w = .ok () w') :
    ∃ blocks, w'.reader.Blocks logHeaderSize blocks w'.header.dataEnd ∧
      Layout w'.header.compressionBlockSize w'.header.maxEntriesPerBlock blocks (entriesOf calls) ∧
      ∀ log, logreaderOpen (some w'.fd.data) = .ok log →
        log.Blocks logHeaderSize blocks log.header.dataEnd ∧
          Layout log.header.compressionBlockSize log.header.maxEntriesPerBlock blocks
            (entriesOf calls) := by
  obtain ⟨hk, hp⟩ := kept_of_writing hw
  obtain ⟨hk', hf, hp'⟩ := hk.flush hfl
  suffices h : ∃ blocks, w'.reader.Blocks logHeaderSize blocks w'.header.dataEnd ∧
      Layout w'.header.compressionBlockSize w'.header.maxEntriesPerBlock blocks (entriesOf calls) by
    obtain ⟨blocks, hblocks, hlayout⟩ := h
    refine ⟨blocks, hblocks, hlayout, fun log hopen => ?_⟩
    rw [hk'.eq_reader hf hopen]
    exact ⟨hblocks, hlayout⟩
  obtain ⟨bs, es, pend, ht, hes⟩ := tiled_pack hu hfit hp
  obtain ⟨blocks, ht'⟩ := ht.flush hp'
  rw [hes] at ht'
  have hset : w'.reader.header.setting = Setting.of t n := hk'.setting
  have hpeak : w'.packing.peak = w'.header.maxEntriesPerBlock := by
    rw [Packing.peak, ht'.entryCount]
    exact Nat.max_zero _
  have hsize : w'.header.compressionBlockSize = (Setting.of t n).compressionBlockSize := by
    rw [← hset]
    rfl
  have hend : w'.header.dataEnd = logHeaderSize + w'.packing.out.length := by
    rw [hf.dataEnd, hf.data, List.length_append, Logheader.length_bytes]
  have hbytes : w'.reader.data = w'.header.bytes ++ ([] ++ w'.packing.out ++ []) := by
    rw [List.nil_append, List.append_nil]
    exact hf.data
  refine ⟨blocks, ?_, ?_⟩
  · rw [hend]
    exact ht'.frames.blocks (fun b hb => (ht'.layout.block b hb).2) hset hbytes hu (hz hu)
  · rw [hsize, ← hpeak]
    exact ht'.layout

end Steps

theorem layout_of_flush_sample :
    letI := literalCompressors
    ∃ log : Logreader, ∃ blocks, log.Blocks logHeaderSize blocks log.header.dataEnd ∧
      Layout log.header.compressionBlockSize log.header.maxEntriesPerBlock blocks
        (entriesOf sampleCalls) := by
  let := literalCompressors
  obtain ⟨w, w', log, hw, hclose, hopen, -⟩ := exists_of_writeAndOpen sampleEnv .snappy 10
    sampleCalls (by decide) (by decide +kernel)
  obtain ⟨w₁, hfl, rfl⟩ := ok_logwriterClose (kept_of_writing hw).1.writable hclose
  obtain ⟨blocks, -, -, hopened⟩ :=
    layout_of_flush hw rfl headFits_sampleCalls (fun _ => lossless_snappyLiteral) hfl
  exact ⟨log, blocks, hopened log hopen⟩

end Sparkey
