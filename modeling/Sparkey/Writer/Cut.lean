import Sparkey.Writer.Layout

/-!
# Logs with heads of any size

The two numbers in front of an entry can take more bytes than a block has.  The writer
splits such a head, and closes the block in front of it even if it is empty.  `Cut` says
how the entries lie in the blocks whatever their heads are: a head that is not too large
lies in one block, one that is too large begins a full one, and the only empty blocks are
those in front of such heads (`Gaps`).
-/

namespace Sparkey

open BlockStream

structure Cut (n : Nat) (blocks : List (List UInt8)) (es : List Entry) : Prop where
  flatten : blocks.flatten = (pieces es).flatten
  /-- Where the head of an entry is, behind `u` in the block with number `j`. -/
  head : ∀ {i e}, es[i]? = some e → ∃ j b u, blocks[j]? = some b ∧
    (blocks.take j).flatten ++ u = (pieces (es.take i)).flatten ∧
    (u ++ e.header <+: b ∨ n < e.header.length ∧ u = [] ∧ b.length = n)

def Gaps (n : Nat) (blocks : List (List UInt8)) (es : List Entry) : Prop :=
  ∀ j, blocks[j]? = some [] → ∃ i e, es[i]? = some e ∧ n < e.header.length ∧
    (blocks.take j).flatten = (pieces (es.take i)).flatten

section Lists

variable {n : Nat} {bs cs : List (List UInt8)} {b b' : List UInt8} {es fs : List Entry} {e : Entry}

theorem gaps_nil : Gaps n [] es := nofun

theorem Gaps.append (h : Gaps n bs es) (fs : List Entry) : Gaps n bs (es ++ fs) := by
  intro j hj
  obtain ⟨i, e, hi, hlarge, hflat⟩ := h j hj
  have hlt : i < es.length := (List.getElem?_eq_some_iff.mp hi).1
  refine ⟨i, e, ?_, hlarge, ?_⟩
  · rwa [List.getElem?_append_left hlt]
  · rwa [List.take_append_of_le_length (Nat.le_of_lt hlt)]

theorem Gaps.snoc (h : Gaps n bs es) (hb : b ≠ []) : Gaps n (bs ++ [b]) es := by
  intro j hj
  have hlt : j < bs.length := by
    by_contra hge
    rw [List.getElem?_append_right (by omega), List.getElem?_singleton] at hj
    split_ifs at hj
    exact hb (Option.some.inj hj)
  rw [List.getElem?_append_left hlt] at hj
  rw [List.take_append_of_le_length (Nat.le_of_lt hlt)]
  exact h j hj

theorem Gaps.full (h : Gaps n bs es) (hn : 0 < n) (hfull : ∀ c ∈ cs, c.length = n) :
    Gaps n (bs ++ cs) es := by
  induction cs using List.reverseRecOn with
  | nil => rwa [List.append_nil]
  | append_singleton cs c ih =>
    rw [← List.append_assoc]
    apply (ih fun d hd => hfull d (List.mem_append_left _ hd)).snoc
    rw [← List.length_pos_iff, hfull c (List.mem_append_right _ (List.mem_singleton_self c))]
    exact hn

theorem cut_nil : Cut n [[]] [] := ⟨rfl, nofun⟩

theorem cut_single (n : Nat) (es : List Entry) : Cut n [(pieces es).flatten] es := by
  refine ⟨List.flatten_singleton, fun {i e} hi => ⟨0, _, _, rfl, rfl, Or.inl ?_⟩⟩
  obtain ⟨hlt, rfl⟩ := List.getElem?_eq_some_iff.mp hi
  have hsplit : (pieces es).flatten = (pieces (es.take i)).flatten
      ++ (es[i].header ++ (es[i].body ++ (pieces (es.drop (i + 1))).flatten)) := by
    conv_lhs => rw [← List.take_append_drop i es, List.drop_eq_getElem_cons hlt]
    rw [pieces, List.map_append, List.flatten_append, List.map_cons, List.flatten_cons, Entry.bytes,
      List.append_assoc]
  rw [hsplit, List.prefix_append_right_inj]
  exact List.prefix_append _ _

theorem gaps_single (h : b ≠ []) : Gaps n [b] es := gaps_nil.snoc h

theorem Cut.snoc_nil (h : Cut n bs es) : Cut n (bs ++ [[]]) es := by
  refine ⟨?_, fun hi => ?_⟩
  · rw [List.flatten_append, h.flatten, List.flatten_singleton, List.append_nil]
  · obtain ⟨j, b, u, hj, hu, hb⟩ := h.head hi
    have hlt : j < bs.length := (List.getElem?_eq_some_iff.mp hj).1
    refine ⟨j, b, u, ?_, ?_, hb⟩
    · rwa [List.getElem?_append_left hlt]
    · rwa [List.take_append_of_le_length (Nat.le_of_lt hlt)]

theorem Cut.of_snoc_nil (h : Cut n (bs ++ [[]]) es) (hn : 0 < n) : Cut n bs es := by
  refine ⟨?_, fun {i e} hi => ?_⟩
  · rw [← h.flatten, List.flatten_append, List.flatten_singleton, List.append_nil]
  · obtain ⟨j, b, u, hj, hu, hb⟩ := h.head hi
    have hlt : j < bs.length := by
      by_contra hge
      rw [List.getElem?_append_right (by omega), List.getElem?_singleton] at hj
      split_ifs at hj
      obtain rfl : [] = b := Option.some.inj hj
      rcases hb with hb | ⟨-, -, hb⟩
      · exact e.header_ne_nil (List.append_eq_nil_iff.mp (List.prefix_nil.mp hb)).2
      · rw [← hb] at hn
        exact Nat.lt_irrefl 0 hn
    rw [List.getElem?_append_left hlt] at hj
    rw [List.take_append_of_le_length (Nat.le_of_lt hlt)] at hu
    exact ⟨j, b, u, hj, hu, hb⟩

/-- **An entry is added to the open block** `b`, which may be filled up some times. -/
theorem Cut.fill (h : Cut n (bs ++ [b]) es) (hflat : b ++ e.bytes = cs.flatten ++ b')
    (hfull : ∀ c ∈ cs, c.length = n) (hb : b.length ≤ n) (hb' : b'.length ≤ n)
    (hroom : e.header.length ≤ n - b.length ∨ n < e.header.length ∧ b = []) :
    Cut n (bs ++ (cs ++ [b'])) (es ++ [e]) := by
  have hbytes : e.bytes.length = e.header.length + e.body.length := List.length_append
  have htwo := e.two_le_length_header
  have hlen := congrArg List.length hflat
  rw [List.length_append, List.length_append] at hlen
  -- the block that was open, as it is now
  obtain ⟨f, more, hcs, hpre, hf⟩ : ∃ f more, cs ++ [b'] = f :: more ∧ f <+: b ++ e.bytes ∧
      (cs ≠ [] ∧ f.length = n ∨ f = b ++ e.bytes ∧ cs = []) := by
    cases cs with
    | nil =>
      rw [List.flatten_nil, List.nil_append] at hflat
      exact ⟨b', [], rfl, hflat ▸ List.prefix_refl _, Or.inr ⟨hflat.symm, rfl⟩⟩
    | cons c cs =>
      refine ⟨c, cs ++ [b'], rfl, ⟨cs.flatten ++ b', ?_⟩,
        Or.inl ⟨List.cons_ne_nil _ _, hfull c (List.mem_cons_self ..)⟩⟩
      rw [hflat, List.flatten_cons, List.append_assoc]
  have hgrown : ∀ {x}, x <+: b ++ e.bytes → x.length ≤ n → (x.length ≤ b.length + e.bytes.length) →
      x <+: f := by
    intro x hx hxn hxl
    apply List.prefix_of_prefix_length_le hx hpre
    rcases hf with ⟨-, hfn⟩ | ⟨rfl, -⟩
    · omega
    · rw [List.length_append]
      exact hxl
  have hopen : (bs ++ (cs ++ [b']))[bs.length]? = some f := by
    rw [hcs, List.getElem?_append_right (Nat.le_refl _), Nat.sub_self]
    rfl
  refine ⟨?_, fun {i e'} hi => ?_⟩
  · rw [flatten_pieces_append, ← h.flatten]
    simp only [List.flatten_append, List.flatten_singleton, List.append_assoc, hflat]
  · rcases Nat.lt_or_ge i es.length with hlt | hge
    · -- an entry that was there
      rw [List.getElem?_append_left hlt] at hi
      rw [List.take_append_of_le_length (Nat.le_of_lt hlt)]
      obtain ⟨j, d, u, hj, hu, hd⟩ := h.head hi
      rcases Nat.lt_or_ge j bs.length with hjlt | hjge
      · refine ⟨j, d, u, ?_, ?_, hd⟩
        · rw [List.getElem?_append_left hjlt] at hj ⊢
          exact hj
        · rw [List.take_append_of_le_length (Nat.le_of_lt hjlt)] at hu ⊢
          exact hu
      · rw [List.getElem?_append_right hjge, List.getElem?_singleton] at hj
        split_ifs at hj with h0
        obtain rfl : b = d := Option.some.inj hj
        obtain rfl : j = bs.length := by omega
        refine ⟨bs.length, f, u, hopen, ?_, ?_⟩
        · rw [List.take_append_of_le_length (Nat.le_refl _)] at hu ⊢
          exact hu
        · rcases hd with hd | ⟨hlarge, hnil, hn⟩
          · refine Or.inl (hgrown (hd.trans (List.prefix_append _ _)) ?_ ?_) <;>
              have := hd.length_le <;> omega
          · refine Or.inr ⟨hlarge, hnil, ?_⟩
            rcases hf with ⟨-, hfn⟩ | ⟨rfl, rfl⟩
            · exact hfn
            · rw [List.flatten_nil, List.length_nil] at hlen
              omega
    · -- the one that is added
      rw [List.getElem?_append_right hge, List.getElem?_singleton] at hi
      split_ifs at hi with h0
      obtain rfl : e = e' := Option.some.inj hi
      obtain rfl : i = es.length := by omega
      refine ⟨bs.length, f, b, hopen, ?_, ?_⟩
      · rw [List.take_append_of_le_length (Nat.le_refl _), List.take_length,
          List.take_append_of_le_length (Nat.le_refl _), List.take_length, ← h.flatten,
          List.flatten_append, List.flatten_singleton]
      · rcases hroom with hroom | ⟨hlarge, hnil⟩
        · refine Or.inl (hgrown ⟨e.body, by rw [List.append_assoc]; rfl⟩ ?_ ?_) <;>
            rw [List.length_append] <;> omega
        · refine Or.inr ⟨hlarge, hnil, ?_⟩
          rcases hf with ⟨-, hfn⟩ | ⟨rfl, rfl⟩
          · exact hfn
          · rw [List.flatten_nil, List.length_nil] at hlen
            omega

/-- The block in front of a head that is too large is closed, though it is empty. -/
theorem Gaps.snoc_nil (h : Gaps n bs es) (hcut : Cut n (bs ++ [[]]) es) (hlarge : n < e.header.length) :
    Gaps n (bs ++ [[]]) (es ++ [e]) := by
  intro j hj
  rcases Nat.lt_or_ge j bs.length with hlt | hge
  · rw [List.getElem?_append_left hlt] at hj
    rw [List.take_append_of_le_length (Nat.le_of_lt hlt)]
    exact h.append [e] j hj
  · rw [List.getElem?_append_right hge, List.getElem?_singleton] at hj
    split_ifs at hj with h0
    obtain rfl : j = bs.length := by omega
    refine ⟨es.length, e, ?_, hlarge, ?_⟩
    · rw [List.getElem?_append_right (Nat.le_refl _), Nat.sub_self]
      rfl
    · rw [List.take_append_of_le_length (Nat.le_refl _), List.take_length,
        List.take_append_of_le_length (Nat.le_refl _), List.take_length, ← hcut.flatten,
        List.flatten_append, List.flatten_singleton, List.append_nil]

end Lists

/-! ### Every writer -/

section Steps

variable [Compressors] {s : Setting} {p p' : Packing} {bs : List (List UInt8)} {es : List Entry}
  {e : Entry}

structure Packing.Cuts (s : Setting) (p : Packing) (bs : List (List UInt8)) (es : List Entry) :
    Prop where
  frames : Frames s bs p.out
  cut : Cut s.compressionBlockSize (bs ++ [p.block]) es
  length_le : ∀ b ∈ bs, b.length ≤ s.compressionBlockSize
  room : p.block.length ≤ s.compressionBlockSize

theorem cuts_init : Packing.init.Cuts s [] [] := ⟨frames_nil, cut_nil, nofun, Nat.zero_le _⟩

theorem Packing.Cuts.flushBlock (h : p.Cuts s bs es) (hf : p.flushBlock s = some p') :
    p'.Cuts s (bs ++ [p.block]) es := by
  obtain ⟨more, hmore, rfl⟩ := Frames.flushBlock hf
  refine ⟨h.frames.append hmore, h.cut.snoc_nil, fun b hb => ?_, Nat.zero_le _⟩
  rcases List.mem_append.mp hb with hb | hb
  · exact h.length_le b hb
  · rw [List.mem_singleton.mp hb]
    exact h.room

theorem Packing.Cuts.flushIf {c : Prop} [Decidable c] (hc : c → p.block ≠ [])
    (h : p.Cuts s bs es) (hg : Gaps s.compressionBlockSize bs es)
    (hf : (if c then p.flushBlock s else some p) = some p') :
    ∃ cs, p'.Cuts s cs es ∧ Gaps s.compressionBlockSize cs es := by
  split_ifs at hf with hif
  · exact ⟨_, h.flushBlock hf, hg.snoc (hc hif)⟩
  · cases hf
    exact ⟨bs, h, hg⟩

theorem Packing.Cuts.makeRoom (h : p.Cuts s bs es) (hg : Gaps s.compressionBlockSize bs es)
    (hm : p.makeRoom s e = some p') :
    ∃ cs, p'.Cuts s cs es ∧ Gaps s.compressionBlockSize cs (es ++ [e]) ∧
      (e.header.length ≤ s.compressionBlockSize - p'.block.length ∨
        s.compressionBlockSize < e.header.length ∧ p'.block = []) := by
  have hbytes : e.bytes.length = e.header.length + e.body.length := List.length_append
  rw [Packing.makeRoom] at hm
  split_ifs at hm with hroom
  · have h' := h.flushBlock hm
    have hnil : p'.block = [] := by
      obtain ⟨more, -, rfl⟩ := Frames.flushBlock hm
      rfl
    refine ⟨_, h', ?_, ?_⟩
    · by_cases hblock : p.block = []
      · have hcut := h.cut
        rw [hblock, List.length_nil] at hroom
        rw [hblock] at hcut ⊢
        exact hg.snoc_nil hcut (by omega)
      · exact (hg.append [e]).snoc hblock
    · rw [hnil, List.length_nil]
      rcases Nat.lt_or_ge s.compressionBlockSize e.header.length with hlarge | hle
      · exact Or.inr ⟨hlarge, rfl⟩
      · exact Or.inl hle
  · cases hm
    exact ⟨bs, h, hg.append [e], Or.inl (by omega)⟩

/-- **Adding an entry**, whatever its head is. -/
theorem Packing.Cuts.add (hu : usesCompressor s.compressionType = true)
    (hs : 0 < s.compressionBlockSize) (h : p.Cuts s bs es)
    (hg : Gaps s.compressionBlockSize bs es) (hadd : p.add s e = some p') :
    ∃ cs, p'.Cuts s cs (es ++ [e]) ∧ Gaps s.compressionBlockSize cs (es ++ [e]) := by
  rw [Packing.add, if_pos hu] at hadd
  obtain ⟨p₁, h₁, hr₁⟩ := Option.bind_eq_some_iff.mp hadd
  obtain ⟨p₂, h₂, hr₂⟩ := Option.bind_eq_some_iff.mp hr₁
  obtain ⟨p₃, h₃, hr₃⟩ := Option.bind_eq_some_iff.mp hr₂
  obtain ⟨p₄, h₄, hr₄⟩ := Option.bind_eq_some_iff.mp hr₃
  obtain ⟨p₅, h₅, hend⟩ := Option.bind_eq_some_iff.mp hr₄
  obtain ⟨cs, hc₁, hg₁, hroom⟩ := h.makeRoom hg h₁
  -- the four pieces of the entry
  obtain ⟨bs₁, hf₁⟩ := fills_fillLoop _ (show p₁.enter.block.length ≤ _ from hc₁.room) h₂
  obtain ⟨bs₂, hf₂⟩ := fills_fillLoop _ hf₁.room h₃
  obtain ⟨bs₃, hf₃⟩ := fills_fillLoop _ hf₂.room h₄
  obtain ⟨bs₄, hf₄⟩ := fills_fillLoop _ hf₃.room h₅
  have hf := ((hf₁.trans hf₂).trans hf₃).trans hf₄
  have hbytes : writeVlq e.num1 ++ writeVlq e.num2 ++ e.data1 ++ e.data2 = e.bytes := by
    rw [List.append_assoc _ e.data1, e.data1_append_data2]
    rfl
  rw [hbytes] at hf
  obtain ⟨ds, hds⟩ : ∃ ds, ds = bs₁ ++ bs₂ ++ bs₃ ++ bs₄ := ⟨_, rfl⟩
  rw [← hds] at hf
  obtain ⟨more, hmore, hout⟩ := hf.frames
  have hc₅ : p₅.Cuts s (cs ++ ds) (es ++ [e]) := by
    refine ⟨?_, ?_, ?_, hf.room⟩
    · rw [hout]
      exact hc₁.frames.append hmore
    · rw [List.append_assoc]
      exact hc₁.cut.fill hf.flatten hf.full hc₁.room hf.room hroom
    · intro b hb
      rcases List.mem_append.mp hb with hb | hb
      · exact hc₁.length_le b hb
      · exact Nat.le_of_eq (hf.full b hb)
  exact hc₅.flushIf (fun hc => List.length_pos_iff.mp hc.2) (hg₁.full hs hf.full) hend

/-- **What a call does.** -/
theorem Packing.Cuts.call {c : Call} (hu : usesCompressor s.compressionType = true)
    (hs : 0 < s.compressionBlockSize) (h : p.Cuts s bs es)
    (hg : Gaps s.compressionBlockSize bs es) (hc : p.call s c = some p') :
    ∃ cs, p'.Cuts s cs (es ++ c.entry?.toList) ∧
      Gaps s.compressionBlockSize cs (es ++ c.entry?.toList) := by
  cases c with
  | add e => exact h.add hu hs hg hc
  | flush =>
    rw [Call.entry?, Option.toList_none, List.append_nil]
    exact h.flushIf List.length_pos_iff.mp hg hc
  | reopen =>
    rw [Call.entry?, Option.toList_none, List.append_nil]
    obtain ⟨p₂, hp₂, rfl⟩ := Option.map_eq_some_iff.mp hc
    obtain ⟨cs, h', hg'⟩ := h.flushIf List.length_pos_iff.mp hg hp₂
    exact ⟨cs, ⟨h'.frames, h'.cut, h'.length_le, h'.room⟩, hg'⟩

/-- **The blocks of every packing.** -/
theorem cuts_pack (hu : usesCompressor s.compressionType = true) (hs : 0 < s.compressionBlockSize)
    {calls : List Call} (h : pack s calls = some p) :
    ∃ bs, p.Cuts s bs (entriesOf calls) ∧ Gaps s.compressionBlockSize bs (entriesOf calls) := by
  induction calls using List.reverseRecOn generalizing p with
  | nil =>
    cases h
    exact ⟨[], cuts_init, gaps_nil⟩
  | append_singleton calls c ih =>
    rw [pack_append] at h
    obtain ⟨p₁, hp₁, hc⟩ := Option.bind_eq_some_iff.mp h
    obtain ⟨bs, h₁, hg₁⟩ := ih hp₁
    rw [entriesOf_append]
    exact h₁.call hu hs hg₁ hc

theorem Writing.le_blockSize {t : CompressionType} {n : Nat} {calls : List Call} {w : Logwriter}
    (h : Writing t n calls w) (hu : usesCompressor t = true) : 10 ≤ n := by
  induction h with
  | create _ h =>
    rw [logwriterCreate] at h
    by_contra hlt
    rw [if_pos ⟨hu, Nat.lt_of_not_le hlt⟩] at h
    cases h
  | add _ _ _ ih => exact ih
  | flush _ _ ih => exact ih
  | reopen _ _ _ ih => exact ih

theorem out_pack (hu : usesCompressor s.compressionType = false) {calls : List Call}
    (h : pack s calls = some p) : p.block = [] ∧ p.out = (pieces (entriesOf calls)).flatten := by
  induction calls using List.reverseRecOn generalizing p with
  | nil =>
    cases h
    exact ⟨rfl, rfl⟩
  | append_singleton calls c ih =>
    rw [pack_append] at h
    obtain ⟨p₁, hp₁, hc⟩ := Option.bind_eq_some_iff.mp h
    obtain ⟨hblock, hout⟩ := ih hp₁
    have hflush : p₁.flush s = some p₁ := by
      rw [Packing.flush, hblock, List.length_nil, if_neg (Nat.lt_irrefl 0)]
    rw [entriesOf_append]
    cases c with
    | add e =>
      rw [Packing.call, Packing.add, hu, if_neg Bool.false_ne_true] at hc
      cases hc
      refine ⟨hblock, ?_⟩
      rw [Call.entry?, Option.toList_some, flatten_pieces_append, ← hout]
    | flush =>
      rw [Packing.call, hflush] at hc
      cases hc
      rw [Call.entry?, Option.toList_none, List.append_nil]
      exact ⟨hblock, hout⟩
    | reopen =>
      rw [Packing.call, hflush] at hc
      cases hc
      rw [Call.entry?, Option.toList_none, List.append_nil]
      exact ⟨hblock, hout⟩

end Steps

end Sparkey
