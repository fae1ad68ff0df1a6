import Sparkey.Lib.BlockStream

/-!
# Writing a stream cut into blocks

A `Draft` is what has been written of a file of blocks: the closed blocks, and the
content of the block that is still open.  What it says about the items is put in
terms of every file it may become: `Spells d items` says that in each file that has
the closed blocks, and whose block in place of the open one starts with what is
there, reading from the first block on passes over `items`.

An item is added head first (`Spells.begin`), then body piece by piece
(`Pending.add`), with blocks closed in between (`Pending.close`), and is part of the
stream once a block it left its own for is closed, too (`Pending.finish`).
-/

namespace BlockStream

variable {α ι : Type*}

structure Draft (α : Type*) where
  blocks : List (Nat × List α × Nat)
  last : Cursor α
  data : List α
  idx : Nat

namespace Draft

def init (start : Nat) : Draft α := ⟨[], .start 0 [] start, [], 0⟩

def add (d : Draft α) (xs : List α) : Draft α := { d with data := d.data ++ xs }

def enter (d : Draft α) (moves : Bool) (xs : List α) : Draft α :=
  { d with data := d.data ++ xs, idx := if moves then 0 else d.idx + 1 }

def close (d : Draft α) (q : Nat) : Draft α :=
  ⟨d.blocks ++ [(d.last.next, d.data, q)], ⟨d.last.next, d.idx, [], q⟩, [], 0⟩

def Covers (S : Source α) (d : Draft α) : Prop := ∀ t ∈ d.blocks, S.block t.1 t.2.1 t.2.2

def Ends (S : Source α) (d : Draft α) (c : Cursor α) : Prop :=
  d.data = [] ∧ c = d.last ∨
    d.data ≠ [] ∧ ∃ more q, S.block d.last.next (d.data ++ more) q ∧
      c = Cursor.move S ⟨d.last.next, d.idx, d.data ++ more, q⟩ d.data.length

/-- No closed block is ahead, and an empty block has no items. -/
structure Tidy (moves : Bool) (d : Draft α) : Prop where
  last_cur : d.last.cur = []
  idx_of_nil : d.data = [] → d.idx = 0
  idx_of_moves : moves = true → d.idx = 0

theorem tidy_init (moves : Bool) (start : Nat) : (init start : Draft α).Tidy moves :=
  ⟨rfl, fun _ => rfl, fun _ => rfl⟩

theorem Tidy.add {moves : Bool} {d : Draft α} (h : d.Tidy moves) (xs : List α) :
    (d.add xs).Tidy moves := by
  refine ⟨h.last_cur, fun h0 => h.idx_of_nil ?_, h.idx_of_moves⟩
  exact (List.append_eq_nil_iff.mp h0).1

theorem Tidy.enter {moves : Bool} {d : Draft α} (h : d.Tidy moves) {xs : List α} (hxs : xs ≠ []) :
    (d.enter moves xs).Tidy moves := by
  refine ⟨h.last_cur, fun h0 => absurd (List.append_eq_nil_iff.mp h0).2 hxs, fun hm => ?_⟩
  show (if moves then 0 else d.idx + 1) = 0
  rw [if_pos hm]

theorem tidy_close {moves : Bool} (d : Draft α) (q : Nat) : (d.close q).Tidy moves :=
  ⟨rfl, fun _ => rfl, fun _ => rfl⟩

section Ends

variable {S : Source α} {d : Draft α} {c : Cursor α} {xs : List α} {q : Nat}

theorem Covers.of_close (h : (d.close q).Covers S) :
    d.Covers S ∧ S.block d.last.next d.data q :=
  ⟨fun t ht => h t (List.mem_append_left _ ht),
    h _ (List.mem_append_right _ (List.mem_singleton_self _))⟩

/-- Where an addition ends, it was read from where the draft ended before. -/
theorem Ends.of_add (ht : d.Tidy S.moves) (h : (d.add xs).Ends S c) :
    ∃ c₀, d.Ends S c₀ ∧ Reads S c₀ xs c ∧ (d.data ≠ [] → xs <+: c₀.cur) := by
  rcases h with ⟨h0, rfl⟩ | ⟨hne, more, q, hb, rfl⟩
  · obtain ⟨hd, rfl⟩ := List.append_eq_nil_iff.mp h0
    exact ⟨d.last, Or.inl ⟨hd, rfl⟩, .nil _, fun hne => absurd hd hne⟩
  have hb' : S.block d.last.next (d.data ++ xs ++ more) q := hb
  by_cases hd : d.data = []
  · -- the addition opens the block
    rw [hd, List.nil_append] at hb'
    have hxs : xs ≠ [] := by
      rintro rfl
      exact hne (by rw [add, hd]; rfl)
    refine ⟨d.last, Or.inl ⟨hd, rfl⟩, ?_, fun hne => absurd hd hne⟩
    obtain ⟨x, tl, rfl⟩ := List.exists_cons_of_ne_nil hxs
    refine .block ht.last_cur hb' (by simp) ?_
    have hr : Reads S (.start d.last.next (x :: tl ++ more) q) (x :: tl) _ := Reads.of_cur rfl
    rw [add, hd, List.nil_append, ht.idx_of_nil hd]
    exact hr
  · have hcur : (d.data ++ xs ++ more).drop d.data.length = xs ++ more := by
      rw [List.append_assoc, List.drop_left]
    have hcur' : (Cursor.move S ⟨d.last.next, d.idx, d.data ++ xs ++ more, q⟩ d.data.length).cur
        = xs ++ more := hcur
    refine ⟨Cursor.move S ⟨d.last.next, d.idx, d.data ++ xs ++ more, q⟩ d.data.length,
      Or.inr ⟨hd, xs ++ more, q, ?_, ?_⟩, ?_, fun _ => ⟨more, hcur'.symm⟩⟩
    · rw [← List.append_assoc]
      exact hb'
    · rw [List.append_assoc]
    · have hr := Reads.of_cur (S := S) hcur'
      rw [move_move, ← List.length_append] at hr
      exact hr

theorem Ends.of_enter (ht : d.Tidy S.moves) (hxs : xs ≠ []) (h : (d.enter S.moves xs).Ends S c) :
    ∃ c₁ c₀ tl, d.Ends S c₁ ∧ Opens S c₁ c₀ ∧ c₀.cur = xs ++ tl ∧
      c₀.pos = (if S.moves then d.last.next + d.data.length else d.last.next) ∧ c₀.idx = d.idx ∧
      c = c₀.enter S xs.length := by
  rcases h with ⟨h0, -⟩ | ⟨-, more, q, hb, rfl⟩
  · exact absurd (List.append_eq_nil_iff.mp h0).2 hxs
  have hb' : S.block d.last.next (d.data ++ xs ++ more) q := hb
  have hcur : (d.data ++ xs ++ more).drop d.data.length = xs ++ more := by
    rw [List.append_assoc, List.drop_left]
  have hidx : ∀ hm : S.moves = true, d.idx = 0 := ht.idx_of_moves
  by_cases hd : d.data = []
  · rw [hd, List.nil_append] at hb'
    refine ⟨d.last, .start d.last.next (xs ++ more) q, more, Or.inl ⟨hd, rfl⟩,
      .block ht.last_cur hb' (by simp [hxs]), rfl, ?_, (ht.idx_of_nil hd).symm, ?_⟩
    · rw [hd, List.length_nil, Nat.add_zero, ite_self]
    · have h0 := ht.idx_of_nil hd
      unfold enter Cursor.enter Cursor.move
      simp [hd, h0]
  · refine ⟨_, Cursor.move S ⟨d.last.next, d.idx, d.data ++ xs ++ more, q⟩ d.data.length, more,
      Or.inr ⟨hd, xs ++ more, q, ?_, rfl⟩, ?_, hcur, rfl, rfl, ?_⟩
    · rw [← List.append_assoc]
      exact hb'
    · rw [← List.append_assoc]
      refine .here ?_
      show (d.data ++ xs ++ more).drop d.data.length ≠ []
      rw [hcur]
      simp [hxs]
    · unfold enter Cursor.enter Cursor.move
      by_cases hm : S.moves = true
      · simp [hm, Nat.add_assoc]
      · simp [hm]

theorem Ends.of_close (hm : S.moves = false) (hb : S.block d.last.next d.data q)
    (hne : d.data ≠ []) (h : (d.close q).Ends S c) : d.Ends S c := by
  rcases h with ⟨-, rfl⟩ | ⟨h0, -⟩
  · refine Or.inr ⟨hne, [], q, by rwa [List.append_nil], ?_⟩
    unfold close Cursor.move
    simp [hm]
  · exact absurd rfl h0

end Ends

/-! ### The items a draft spells -/

variable (moves : Bool) (start : Nat) (head body : ι → List α)

def Spells (d : Draft α) (items : List (Item ι)) : Prop :=
  ∀ S : Source α, S.moves = moves → d.Covers S → ∀ c, d.Ends S c →
    Path S head body (.start 0 [] start) items c

/-- The item `it` has been begun behind `items`, and `done` of its body is there.  Unless
blocks were closed in between, all of it is in one. -/
def Pending (d : Draft α) (items : List (Item ι)) (it : Item ι) (done : List α) (closed : Bool) :
    Prop :=
  ∀ S : Source α, S.moves = moves → d.Covers S → ∀ c, d.Ends S c →
    ∃ c₁ c₀ tl, Path S head body (.start 0 [] start) items c₁ ∧ Opens S c₁ c₀ ∧
      c₀.cur = head it.val ++ tl ∧ it = ⟨c₀.pos, c₀.idx, it.val⟩ ∧
      Reads S (c₀.enter S (head it.val).length) done c ∧ (closed = true ∨ done.length ≤ tl.length)

variable {moves start head body} {d : Draft α} {items : List (Item ι)} {it : Item ι}
  {done xs : List α} {closed : Bool} {q : Nat}

theorem spells_init : (init start : Draft α).Spells moves start head body [] := by
  intro S _ _ c hc
  rcases hc with ⟨-, rfl⟩ | ⟨h0, -⟩
  · exact .nil _
  · exact absurd rfl h0

theorem Spells.close (h : d.Spells false start head body items) (hne : d.data ≠ []) (q : Nat) :
    (d.close q).Spells false start head body items := by
  intro S hm hcov c hc
  obtain ⟨hcov', hb⟩ := hcov.of_close
  exact h S hm hcov' c (hc.of_close hm hb hne)

theorem Spells.begin {e : ι} (ht : d.Tidy moves) (hhead : head e ≠ [])
    (h : d.Spells moves start head body items) :
    (d.enter moves (head e)).Pending moves start head body items
      ⟨if moves then d.last.next + d.data.length else d.last.next, d.idx, e⟩ [] false := by
  rintro S rfl hcov c hc
  obtain ⟨c₁, c₀, tl, hend, ho, hcur, hpos, hidx, rfl⟩ := hc.of_enter ht hhead
  exact ⟨c₁, c₀, tl, h S rfl hcov c₁ hend, ho, hcur, by rw [hpos, hidx], .nil _,
    Or.inr (Nat.zero_le _)⟩

theorem Pending.add (ht : d.Tidy moves) (xs : List α)
    (h : d.Pending moves start head body items it done closed)
    (hclosed : d.data = [] → closed = true) :
    (d.add xs).Pending moves start head body items it (done ++ xs) closed := by
  rintro S rfl hcov c hc
  obtain ⟨c', hend, hr, hpre⟩ := hc.of_add ht
  obtain ⟨c₁, c₀, tl, hp, ho, hcur, hit, hr', hlen⟩ := h S rfl hcov c' hend
  refine ⟨c₁, c₀, tl, hp, ho, hcur, hit, hr'.append hr, ?_⟩
  rcases hlen with hlen | hlen
  · exact Or.inl hlen
  · by_cases hd : d.data = []
    · exact Or.inl (hclosed hd)
    · right
      -- what was added lies in the block the body began in
      have heq := hr'.eq_move (by rw [cur_enter, hcur, List.drop_left]; exact hlen)
      have := (hpre hd).length_le
      rw [heq, cur_move, cur_enter, hcur, List.drop_left, List.length_drop] at this
      rw [List.length_append]
      omega

theorem Pending.close (h : d.Pending false start head body items it done closed)
    (hne : d.data ≠ []) (q : Nat) :
    (d.close q).Pending false start head body items it done true := by
  intro S hm hcov c hc
  obtain ⟨hcov', hb⟩ := hcov.of_close
  obtain ⟨c₁, c₀, tl, hp, ho, hcur, hit, hr, -⟩ := h S hm hcov' c (hc.of_close hm hb hne)
  exact ⟨c₁, c₀, tl, hp, ho, hcur, hit, hr, Or.inl rfl⟩

/-- **The item is written** once its body is, and the last block it is in is closed if
it is not in one. -/
theorem Pending.finish (ht : d.Tidy moves)
    (h : d.Pending moves start head body items it (body it.val) closed)
    (hclosed : closed = true → d.data = []) :
    d.Spells moves start head body (items ++ [it]) := by
  rintro S rfl hcov c hc
  obtain ⟨c₁, c₀, tl, hp, ho, hcur, hit, hr, hlen⟩ := h S rfl hcov c hc
  rw [hit]
  refine hp.snoc ho hcur hr (hlen.symm.imp_right fun hcl => ?_)
  rcases hc with ⟨-, rfl⟩ | ⟨hne, -⟩
  · exact ht.last_cur
  · exact absurd (hclosed hcl) hne

end Draft

end BlockStream
