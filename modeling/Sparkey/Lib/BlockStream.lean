import Mathlib

/-!
# Streams cut into blocks

A `Source` is a file of blocks: `block p b q` says that the block at `p` has
content `b` and that the next one is at `q`, and the blocks end at `stop`.  A
`Cursor` stands in a block with `cur` of it unread, and `Reads c xs c'` says that
reading `xs` leads from `c` to `c'`, going to the next block whenever one more
element is wanted and the current block is used up.

The stream carries items, each a head, which lies in one block, and a body,
which may run over many.  `Items c items` says that the items from `c` on are
`items`, each with its address: the block it starts in and its number among the
items starting there.  An item that leaves its block ends the block it ends in,
so that every block in which an item starts at all starts with one.

With `moves` the file is one unbroken run: a position is then that of an element,
every tail of a block is a block, and every item has number 0.

The main results: the addresses grow (`Items.pairwise`), those of an unbroken run
leave no gap (`Items.pos_eq`), an item is reached by going to its block and passing
over as many items as its number says (`Items.seek`), and a file of bounded blocks
has boundedly many items (`Items.length_le`).
-/

namespace BlockStream

variable {α ι : Type*}

structure Source (α : Type*) where
  block : Nat → List α → Nat → Prop
  stop : Nat
  moves : Bool
  block_det : ∀ {p b q b' q'}, block p b q → block p b' q' → b = b' ∧ q = q'
  block_lt : ∀ {p b q}, block p b q → p < q
  block_le : ∀ {p b q}, block p b q → q ≤ stop
  block_moves : ∀ {p b q}, moves = true → block p b q → p + b.length = q
  block_drop : ∀ {p b q k}, moves = true → block p b q → k < b.length →
    block (p + k) (b.drop k) q

@[ext] structure Cursor (α : Type*) where
  pos : Nat
  idx : Nat
  cur : List α
  next : Nat

variable (S : Source α)

def Cursor.move (c : Cursor α) (k : Nat) : Cursor α :=
  { c with pos := if S.moves then c.pos + k else c.pos, cur := c.cur.drop k }

/-- Go over a head of `k` elements: one more item has started in the block. -/
def Cursor.enter (c : Cursor α) (k : Nat) : Cursor α :=
  { c.move S k with idx := if S.moves then 0 else c.idx + 1 }

abbrev Cursor.start (p : Nat) (b : List α) (q : Nat) : Cursor α := ⟨p, 0, b, q⟩

section Move

variable {S} {c : Cursor α} {j k : Nat}

@[simp] theorem cur_move : (c.move S k).cur = c.cur.drop k := rfl
@[simp] theorem next_move : (c.move S k).next = c.next := rfl
@[simp] theorem idx_move : (c.move S k).idx = c.idx := rfl
@[simp] theorem cur_enter : (c.enter S k).cur = c.cur.drop k := rfl
@[simp] theorem next_enter : (c.enter S k).next = c.next := rfl

@[simp] theorem move_zero : c.move S 0 = c := by
  unfold Cursor.move
  split_ifs <;> simp

@[simp] theorem move_move : (c.move S j).move S k = c.move S (j + k) := by
  unfold Cursor.move
  split_ifs <;> simp [Nat.add_assoc]

end Move

inductive Reads : Cursor α → List α → Cursor α → Prop
  | nil (c : Cursor α) : Reads c [] c
  | cur {c c' : Cursor α} {x : α} {xs tl : List α} :
      c.cur = x :: tl → Reads (c.move S 1) xs c' → Reads c (x :: xs) c'
  | block {c c' : Cursor α} {x : α} {xs b : List α} {q : Nat} :
      c.cur = [] → S.block c.next b q → b ≠ [] → Reads (.start c.next b q) (x :: xs) c' →
      Reads c (x :: xs) c'

section Reads

variable {S} {c c' c₁ c₂ : Cursor α} {xs ys : List α} {k : Nat}

theorem Reads.append (h₁ : Reads S c xs c₁) (h₂ : Reads S c₁ ys c₂) :
    Reads S c (xs ++ ys) c₂ := by
  induction h₁ with
  | nil c => exact h₂
  | cur hc _ ih => exact .cur hc (ih h₂)
  | block hc hb hne _ ih => exact .block hc hb hne (ih h₂)

theorem Reads.of_append : ∀ {xs ys : List α} {c c₂ : Cursor α}, Reads S c (xs ++ ys) c₂ →
    ∃ c₁, Reads S c xs c₁ ∧ Reads S c₁ ys c₂ := by
  intro xs ys c c₂ h
  generalize hzs : xs ++ ys = zs at h
  induction h generalizing xs with
  | nil c =>
    obtain ⟨rfl, rfl⟩ := List.append_eq_nil_iff.mp hzs
    exact ⟨c, .nil c, .nil c⟩
  | @cur c c₂ x zs tl hc h ih =>
    cases xs with
    | nil =>
      rw [List.nil_append] at hzs
      subst hzs
      exact ⟨c, .nil c, .cur hc h⟩
    | cons y xs =>
      obtain ⟨rfl, htl⟩ := List.cons.inj hzs
      obtain ⟨c₁, h₁, h₂⟩ := ih htl
      exact ⟨c₁, .cur hc h₁, h₂⟩
  | @block c c₂ x zs b q hc hb hne h ih =>
    cases xs with
    | nil =>
      rw [List.nil_append] at hzs
      subst hzs
      exact ⟨c, .nil c, .block hc hb hne h⟩
    | cons y xs =>
      obtain ⟨c₁, h₁, h₂⟩ := ih hzs
      obtain ⟨rfl, -⟩ := List.cons.inj hzs
      exact ⟨c₁, .block hc hb hne h₁, h₂⟩

/-- What a number of elements is, and where reading them leads, is determined. -/
theorem Reads.det : ∀ {xs ys : List α} {c c₁ c₂ : Cursor α}, Reads S c xs c₁ → Reads S c ys c₂ →
    xs.length = ys.length → xs = ys ∧ c₁ = c₂ := by
  intro xs ys c c₁ c₂ h₁
  induction h₁ generalizing ys with
  | nil c =>
    intro h₂ hlen
    obtain rfl : ys = [] := List.length_eq_zero_iff.mp hlen.symm
    cases h₂
    exact ⟨rfl, rfl⟩
  | cur hc _ ih =>
    intro h₂ hlen
    cases h₂ with
    | nil => simp at hlen
    | cur hc' h' =>
      rw [hc] at hc'
      obtain ⟨rfl, rfl⟩ := List.cons.inj hc'
      obtain ⟨rfl, rfl⟩ := ih h' (by simpa using hlen)
      exact ⟨rfl, rfl⟩
    | block hc' _ _ _ =>
      rw [hc] at hc'
      cases hc'
  | block hc hb _ _ ih =>
    intro h₂ hlen
    cases h₂ with
    | nil => simp at hlen
    | cur hc' _ =>
      rw [hc] at hc'
      cases hc'
    | block hc' hb' _ h' =>
      obtain ⟨rfl, rfl⟩ := S.block_det hb hb'
      exact ih h' hlen

theorem Reads.of_cur : ∀ {xs tl : List α} {c : Cursor α}, c.cur = xs ++ tl →
    Reads S c xs (c.move S xs.length) := by
  intro xs
  induction xs with
  | nil =>
    intro tl c _
    rw [List.length_nil, move_zero]
    exact .nil c
  | cons x xs ih =>
    intro tl c hc
    refine .cur hc ?_
    have hcur : (c.move S 1).cur = xs ++ tl := by
      rw [cur_move, hc]
      rfl
    have := ih hcur
    rwa [move_move, Nat.add_comm] at this

theorem Reads.split (h : Reads S c xs c') (hk : k ≤ c.cur.length) (hk' : k ≤ xs.length) :
    xs.take k = c.cur.take k ∧ Reads S (c.move S k) (xs.drop k) c' := by
  rw [← List.take_append_drop k xs] at h
  obtain ⟨c₁, h₁, h₂⟩ := h.of_append
  have hcur : Reads S c (c.cur.take k) (c.move S k) := by
    have := Reads.of_cur (S := S) (List.take_append_drop k c.cur).symm
    rwa [List.length_take_of_le hk] at this
  obtain ⟨hxs, rfl⟩ := h₁.det hcur (by rw [List.length_take_of_le hk, List.length_take_of_le hk'])
  exact ⟨hxs, h₂⟩

theorem Reads.cross (h : Reads S c xs c') (hc : c.cur = []) (hxs : xs ≠ []) :
    ∃ b q, S.block c.next b q ∧ b ≠ [] ∧ Reads S (.start c.next b q) xs c' := by
  cases h with
  | nil => exact absurd rfl hxs
  | cur hc' _ =>
    rw [hc] at hc'
    cases hc'
  | block _ hb hne h => exact ⟨_, _, hb, hne, h⟩

theorem Reads.eq_move (h : Reads S c xs c') (hlen : xs.length ≤ c.cur.length) :
    c' = c.move S xs.length := by
  have hs := (h.split hlen (Nat.le_refl _)).2
  rw [List.drop_length] at hs
  cases hs
  rfl

theorem Reads.idx_of_zero (h : Reads S c xs c') (h0 : c.idx = 0) : c'.idx = 0 := by
  induction h with
  | nil => exact h0
  | cur _ _ ih => exact ih h0
  | block _ _ _ _ ih => exact ih rfl

theorem Reads.next_le (h : Reads S c xs c') : c.next ≤ c'.next := by
  induction h with
  | nil => exact Nat.le_refl _
  | cur _ _ ih => exact ih
  | block _ hb _ _ ih => exact Nat.le_trans (Nat.le_of_lt (S.block_lt hb)) ih

end Reads

/-! ### Items -/

/-- An item and its address: the position of its block, and its number in it. -/
@[ext] structure Item (ι : Type*) where
  pos : Nat
  idx : Nat
  val : ι
  deriving DecidableEq

def Item.Before (a b : Item ι) : Prop := a.pos < b.pos ∨ a.pos = b.pos ∧ a.idx < b.idx

inductive Opens : Cursor α → Cursor α → Prop
  | here {c : Cursor α} : c.cur ≠ [] → Opens c c
  | block {c : Cursor α} {b : List α} {q : Nat} : c.cur = [] → S.block c.next b q → b ≠ [] →
      Opens c (.start c.next b q)

variable (head body : ι → List α)

inductive Items : Cursor α → List (Item ι) → Prop
  | done {c : Cursor α} : c.cur = [] → c.next = S.stop → Items c []
  | cons {c c₀ c₁ : Cursor α} {e : ι} {tl : List α} {items : List (Item ι)} :
      Opens S c c₀ → c₀.cur = head e ++ tl →
      Reads S (c₀.enter S (head e).length) (body e) c₁ →
      ((body e).length ≤ tl.length ∨ c₁.cur = []) →
      Items c₁ items → Items c (⟨c₀.pos, c₀.idx, e⟩ :: items)

section Items

variable {S head body} {c c' c₀ c₁ : Cursor α} {items pre : List (Item ι)} {it : Item ι}

theorem Opens.cur_ne_nil (h : Opens S c c₀) : c₀.cur ≠ [] := by
  cases h with
  | here h => exact h
  | block _ _ h => exact h

theorem Opens.refl (h : Opens S c c₀) : Opens S c₀ c₀ := .here h.cur_ne_nil

theorem Items.of_opens (h : Items S head body c items) (ho : Opens S c c₀) :
    Items S head body c₀ items := by
  cases h with
  | done hc hn =>
    cases ho with
    | here h => exact absurd hc h
    | block _ hb _ =>
      have h1 := S.block_lt hb
      have h2 := S.block_le hb
      rw [hn] at h1
      exact absurd h2 (Nat.not_le_of_lt h1)
  | @cons _ c₀' c₁ e tl items ho' hcur hr hend hi =>
    have : c₀' = c₀ := by
      cases ho with
      | here h =>
        cases ho' with
        | here _ => rfl
        | block hc _ _ => exact absurd hc h
      | block hc hb _ =>
        cases ho' with
        | here h => exact absurd hc h
        | block _ hb' _ =>
          obtain ⟨rfl, rfl⟩ := S.block_det hb hb'
          rfl
    subst this
    exact .cons ho.refl hcur hr hend hi

inductive Path (S : Source α) (head body : ι → List α) : Cursor α → List (Item ι) → Cursor α → Prop
  | nil (c : Cursor α) : Path S head body c [] c
  | cons {c c₀ c₁ c' : Cursor α} {e : ι} {tl : List α} {items : List (Item ι)} :
      Opens S c c₀ → c₀.cur = head e ++ tl →
      Reads S (c₀.enter S (head e).length) (body e) c₁ →
      ((body e).length ≤ tl.length ∨ c₁.cur = []) →
      Path S head body c₁ items c' → Path S head body c (⟨c₀.pos, c₀.idx, e⟩ :: items) c'

theorem Path.snoc {e : ι} {tl : List α} {c' : Cursor α} (h : Path S head body c items c')
    (ho : Opens S c' c₀) (hcur : c₀.cur = head e ++ tl)
    (hr : Reads S (c₀.enter S (head e).length) (body e) c₁)
    (hend : (body e).length ≤ tl.length ∨ c₁.cur = []) :
    Path S head body c (items ++ [⟨c₀.pos, c₀.idx, e⟩]) c₁ := by
  induction h with
  | nil c => exact .cons ho hcur hr hend (.nil c₁)
  | cons ho' hcur' hr' hend' _ ih => exact .cons ho' hcur' hr' hend' (ih ho)

theorem Path.to_items {c' : Cursor α} (h : Path S head body c items c') (hc : c'.cur = [])
    (hn : c'.next = S.stop) : Items S head body c items := by
  induction h with
  | nil c => exact .done hc hn
  | cons ho hcur hr hend _ ih => exact .cons ho hcur hr hend (ih hc hn)

theorem Opens.det {c₀' : Cursor α} (h : Opens S c c₀) (h' : Opens S c c₀') : c₀ = c₀' := by
  cases h with
  | here hne =>
    cases h' with
    | here _ => rfl
    | block hc _ _ => exact absurd hc hne
  | block hc hb _ =>
    cases h' with
    | here hne => exact absurd hc hne
    | block _ hb' _ =>
      obtain ⟨rfl, rfl⟩ := S.block_det hb hb'
      rfl

/-- **Going on behind some items** with those that follow them. -/
theorem Items.resume {c' : Cursor α} {more : List (Item ι)} (hp : Path S head body c items c') :
    Items S head body c (items ++ more) → Items S head body c' more := by
  induction hp with
  | nil c => exact fun h => h
  | @cons c c₀ c₁ c' e tl items ho hcur hr _ _ ih =>
    intro h
    rw [List.cons_append] at h
    generalize hit : (⟨c₀.pos, c₀.idx, e⟩ : Item ι) = it at h
    cases h with
    | cons ho' hcur' hr' _ hi' =>
      obtain ⟨-, -, rfl⟩ := Item.mk.inj hit
      obtain rfl := ho.det ho'
      obtain ⟨-, rfl⟩ := hr.det hr' rfl
      exact ih hi'

theorem Items.idx_eq_zero (h : Items S head body c items) (hm : S.moves = true) (h0 : c.idx = 0) :
    ∀ it ∈ items, it.idx = 0 := by
  induction h with
  | done _ _ => exact nofun
  | @cons c c₀ c₁ e tl items ho hcur hr hend hi ih =>
    have h₀ : c₀.idx = 0 := by
      cases ho with
      | here _ => exact h0
      | block _ _ _ => rfl
    intro it hit
    rcases List.mem_cons.mp hit with rfl | hit
    · exact h₀
    · refine ih (hr.idx_of_zero ?_) it hit
      show (if S.moves then 0 else c₀.idx + 1) = 0
      rw [if_pos hm]

/-! ### The addresses grow -/

def Cursor.address (c : Cursor α) (e : ι) : Item ι :=
  if c.cur = [] then ⟨c.next, 0, e⟩ else ⟨c.pos, c.idx, e⟩

def Cursor.Inside (S : Source α) (c : Cursor α) : Prop :=
  c.cur ≠ [] → c.pos < c.next ∧ (S.moves = true → c.pos + c.cur.length = c.next)

theorem inside_start {p q : Nat} {b : List α} (hb : S.block p b q) :
    (Cursor.start p b q).Inside S := fun _ =>
  ⟨S.block_lt hb, fun hm => S.block_moves hm hb⟩

theorem Opens.inside (ho : Opens S c c₀) (hc : c.Inside S) : c₀.Inside S := by
  cases ho with
  | here _ => exact hc
  | block _ hb _ => exact inside_start hb

theorem Opens.address_eq (ho : Opens S c c₀) (e : ι) : (⟨c₀.pos, c₀.idx, e⟩ : Item ι) = c.address e := by
  unfold Cursor.address
  cases ho with
  | here h => rw [if_neg h]
  | block h _ _ => rw [if_pos h]

theorem Cursor.Inside.move (hc : c.Inside S) {k : Nat} (hk : k ≤ c.cur.length) :
    (c.move S k).Inside S := by
  intro hne
  have hpos : 0 < (c.cur.drop k).length := List.length_pos_iff.mpr hne
  rw [List.length_drop] at hpos
  obtain ⟨hlt, hlen⟩ := hc (by rintro h; simp [h] at hpos)
  refine ⟨?_, fun hm => ?_⟩
  · show (if S.moves then c.pos + k else c.pos) < c.next
    split_ifs with hm
    · have := hlen hm
      omega
    · exact hlt
  · show (if S.moves then c.pos + k else c.pos) + (c.cur.drop k).length = c.next
    rw [if_pos hm, List.length_drop]
    have := hlen hm
    omega

theorem Reads.inside {xs : List α} (h : Reads S c xs c') (hc : c.Inside S) : c'.Inside S := by
  induction h with
  | nil => exact hc
  | cur hcur _ ih => exact ih (hc.move (by rw [hcur]; simp))
  | block _ hb _ _ ih => exact ih (inside_start hb)

theorem Cursor.Inside.enter (hc : c.Inside S) {k : Nat} (hk : k ≤ c.cur.length) :
    (c.enter S k).Inside S := hc.move hk

theorem address_lt {e e' : ι} {tl : List α} (hc : c₀.Inside S) (hne : c₀.cur ≠ [])
    (hhead : head e ≠ []) (hcur : c₀.cur = head e ++ tl)
    (hr : Reads S (c₀.enter S (head e).length) (body e) c₁)
    (hend : (body e).length ≤ tl.length ∨ c₁.cur = []) :
    (⟨c₀.pos, c₀.idx, e⟩ : Item ι).Before (c₁.address e') := by
  have hlt := (hc hne).1
  have hnext := hr.next_le
  unfold Cursor.address
  split_ifs with h1
  · exact Or.inl (Nat.lt_of_lt_of_le hlt hnext)
  · have hle : (body e).length ≤ tl.length := hend.resolve_right h1
    have heq := hr.eq_move (by rw [cur_enter, hcur, List.drop_left]; exact hle)
    have hlen : 0 < (head e).length := List.length_pos_iff.mpr hhead
    rw [heq]
    unfold Item.Before Cursor.move Cursor.enter Cursor.move
    by_cases hm : S.moves = true
    · simp only [hm, if_true]
      left
      omega
    · simp only [hm, Bool.false_eq_true, if_false]
      right
      exact ⟨trivial, Nat.lt_succ_self _⟩

theorem Item.Before.trans {a b d : Item ι} (h₁ : a.Before b) (h₂ : b.Before d) : a.Before d := by
  unfold Item.Before at *
  omega

theorem Items.pairwise_aux (hhead : ∀ e, head e ≠ []) (h : Items S head body c items)
    (hc : c.Inside S) : items.Pairwise Item.Before ∧ ∀ it ∈ items,
      it = c.address it.val ∨ (c.address it.val).Before it := by
  induction h with
  | done _ _ => exact ⟨List.Pairwise.nil, by simp⟩
  | @cons c c₀ c₁ e tl items ho hcur hr hend hi ih =>
    have hc₀ := ho.inside hc
    have hlen : (head e).length ≤ c₀.cur.length := by rw [hcur]; simp
    obtain ⟨hp, hall⟩ := ih (hr.inside (hc₀.enter hlen))
    have hlt : ∀ e' : ι, (⟨c₀.pos, c₀.idx, e⟩ : Item ι).Before (c₁.address e') := fun e' =>
      address_lt hc₀ ho.cur_ne_nil (hhead e) hcur hr hend
    have hafter : ∀ it ∈ items, (⟨c₀.pos, c₀.idx, e⟩ : Item ι).Before it := by
      intro it hit
      rcases hall it hit with heq | hbef
      · exact heq ▸ hlt it.val
      · exact (hlt it.val).trans hbef
    refine ⟨List.Pairwise.cons hafter hp, ?_⟩
    intro it hit
    rcases List.mem_cons.mp hit with rfl | hmem
    · exact Or.inl (ho.address_eq e)
    · right
      have hb := hafter it hmem
      have ha := ho.address_eq it.val
      rw [← ha]
      exact hb

/-- **The addresses grow** along the items. -/
theorem Items.pairwise (hhead : ∀ e, head e ≠ []) (h : Items S head body c items)
    (hc : c.Inside S) : items.Pairwise Item.Before := (h.pairwise_aux hhead hc).1

theorem Items.eq_of_address (hhead : ∀ e, head e ≠ []) (h : Items S head body c items)
    (hc : c.cur = []) {it' : Item ι} (hit : it ∈ items) (hit' : it' ∈ items)
    (hpos : it.pos = it'.pos) (hidx : it.idx = it'.idx) : it = it' := by
  have hnodup : (items.map fun it => (it.pos, it.idx)).Nodup := by
    refine List.Pairwise.map _ (fun a b hab => ?_) (h.pairwise hhead fun hne => absurd hc hne)
    intro heq
    have h1 := congrArg Prod.fst heq
    have h2 := congrArg Prod.snd heq
    unfold Item.Before at hab
    simp only at h1 h2
    omega
  exact List.inj_on_of_nodup_map hnodup hit hit' (by rw [hpos, hidx])

theorem Items.next_le_pos (hhead : ∀ e, head e ≠ []) (h : Items S head body c items)
    (hc : c.cur = []) (hit : it ∈ items) : c.next ≤ it.pos := by
  have haddr : c.address it.val = ⟨c.next, 0, it.val⟩ := if_pos hc
  rcases (h.pairwise_aux hhead fun hne => absurd hc hne).2 it hit with heq | hbef
  · rw [heq, haddr]
  · rw [haddr] at hbef
    rcases hbef with hlt | ⟨heq, -⟩
    · exact Nat.le_of_lt hlt
    · exact Nat.le_of_eq heq

theorem Items.start_le_pos (hhead : ∀ e, head e ≠ []) {p q : Nat} {b : List α} (hb : S.block p b q)
    (h : Items S head body (.start p b q) items) (hit : it ∈ items) : p ≤ it.pos := by
  have hle : p ≤ ((Cursor.start p b q).address it.val).pos := by
    unfold Cursor.address
    split_ifs
    · exact Nat.le_of_lt (S.block_lt hb)
    · exact Nat.le_refl _
  rcases (h.pairwise_aux hhead (inside_start hb)).2 it hit with heq | hbef
  · rw [heq]
    exact hle
  · unfold Item.Before at hbef
    omega

/-! ### Unbroken runs -/

def Cursor.place (c : Cursor α) : Nat := c.next - c.cur.length

theorem place_start (hm : S.moves = true) {p q : Nat} {b : List α} (hb : S.block p b q) :
    (Cursor.start p b q).place = p := by
  have hlen := S.block_moves hm hb
  show q - b.length = p
  omega

theorem Cursor.Inside.place_move (hm : S.moves = true) (hc : c.Inside S) {k : Nat}
    (hk : k ≤ c.cur.length) : (c.move S k).place = c.place + k := by
  by_cases hne : c.cur = []
  · rw [hne, List.length_nil] at hk
    rw [Nat.le_zero.mp hk, move_zero, Nat.add_zero]
  · have hlen := (hc hne).2 hm
    show c.next - (c.cur.drop k).length = c.next - c.cur.length + k
    rw [List.length_drop]
    omega

theorem Opens.place (hm : S.moves = true) (ho : Opens S c c₀) : c₀.place = c.place := by
  cases ho with
  | here _ => rfl
  | block hc hb _ =>
    rw [place_start hm hb, Cursor.place, hc]
    rfl

theorem Reads.place (hm : S.moves = true) {xs : List α} (h : Reads S c xs c') (hc : c.Inside S) :
    c'.place = c.place + xs.length := by
  induction h with
  | nil => rfl
  | cur hcur _ ih =>
    have hle : 1 ≤ _ := List.length_pos_iff.mpr (List.ne_nil_of_mem (hcur ▸ List.mem_cons_self))
    rw [ih (hc.move hle), hc.place_move hm hle, List.length_cons]
    omega
  | block hcur hb hne _ ih => rw [ih (inside_start hb), Opens.place hm (.block hcur hb hne)]

/-- **The items of an unbroken run** follow each other without a gap. -/
theorem Items.pos_eq (hm : S.moves = true) (h : Items S head body c items) (hc : c.Inside S) :
    ∀ {k : Nat} {it : Item ι}, items[k]? = some it → it.pos = c.place
      + ((items.take k).map fun it => head it.val ++ body it.val).flatten.length := by
  induction h with
  | done _ _ => exact nofun
  | @cons c c₀ c₁ e tl items ho hcur hr _ _ ih =>
    intro k it hit
    have hc₀ := ho.inside hc
    cases k with
    | zero =>
      cases hit
      have hlen := (hc₀ ho.cur_ne_nil).2 hm
      rw [← ho.place hm, Cursor.place, List.take_zero]
      show c₀.pos = c₀.next - c₀.cur.length + 0
      omega
    | succ k =>
      have hle : (head e).length ≤ c₀.cur.length := by
        rw [hcur, List.length_append]
        exact Nat.le_add_right _ _
      have hplace := hr.place hm (hc₀.enter hle)
      have henter : (c₀.enter S (head e).length).place = c₀.place + (head e).length :=
        hc₀.place_move hm hle
      rw [ih (hr.inside (hc₀.enter hle)) hit, hplace, henter, ho.place hm, List.take_succ_cons,
        List.map_cons, List.flatten_cons, List.length_append, List.length_append, Nat.add_assoc,
        Nat.add_assoc, Nat.add_assoc]

/-! ### Reaching an item by its address -/

/-- The items `pre` lie between the start of the block of `c` and `c`. -/
def Anchored (S : Source α) (head body : ι → List α) (c : Cursor α) (pre items : List (Item ι)) :
    Prop :=
  c.cur ≠ [] → ∃ b, S.block c.pos b c.next ∧ c.idx ≤ pre.length ∧
    Items S head body (.start c.pos b c.next) ((pre ++ items).drop (pre.length - c.idx))

theorem anchored_next {e : ι} {tl : List α} (hne : c₀.cur ≠ [])
    (hcur : c₀.cur = head e ++ tl)
    (hr : Reads S (c₀.enter S (head e).length) (body e) c₁)
    (hend : (body e).length ≤ tl.length ∨ c₁.cur = []) (hi : Items S head body c₁ items)
    (ha : Anchored S head body c₀ pre (⟨c₀.pos, c₀.idx, e⟩ :: items))
    (hmoves : S.moves = true → S.block c₀.pos c₀.cur c₀.next) :
    Anchored S head body c₁ (pre ++ [⟨c₀.pos, c₀.idx, e⟩]) items := by
  intro hne₁
  have hle : (body e).length ≤ tl.length := hend.resolve_right hne₁
  have heq := hr.eq_move (by rw [cur_enter, hcur, List.drop_left]; exact hle)
  rw [heq] at hne₁ hi ⊢
  by_cases hm : S.moves = true
  · -- every tail of the run is a block
    have hk : (head e).length + (body e).length < c₀.cur.length := by
      have : 0 < ((c₀.enter S (head e).length).move S (body e).length).cur.length :=
        List.length_pos_iff.mpr hne₁
      simp only [cur_move, cur_enter, List.length_drop] at this
      omega
    have hb := S.block_drop hm (hmoves hm) hk
    have hc₁ : (c₀.enter S (head e).length).move S (body e).length
        = .start (c₀.pos + ((head e).length + (body e).length))
          (c₀.cur.drop ((head e).length + (body e).length)) c₀.next := by
      unfold Cursor.move Cursor.enter Cursor.move
      simp [hm, Nat.add_assoc]
    rw [hc₁] at hi ⊢
    exact ⟨_, hb, Nat.zero_le _, by simpa using hi⟩
  · obtain ⟨b, hb, hidx, hi₀⟩ := ha hne
    have hpos : ((c₀.enter S (head e).length).move S (body e).length).pos = c₀.pos := by
      unfold Cursor.move Cursor.enter Cursor.move
      simp [hm]
    have hidx' : ((c₀.enter S (head e).length).move S (body e).length).idx = c₀.idx + 1 := by
      unfold Cursor.move Cursor.enter Cursor.move
      simp [hm]
    refine ⟨b, by rw [hpos]; exact hb, by rw [hidx']; simpa using hidx, ?_⟩
    rw [hpos, hidx']
    have hlen : (pre ++ [(⟨c₀.pos, c₀.idx, e⟩ : Item ι)]).length - (c₀.idx + 1)
        = pre.length - c₀.idx := by
      simp
    rw [hlen, List.append_assoc]
    exact hi₀

/-- **Reaching an item**: from the start of its block, as many items come before it
as its number says. -/
theorem Items.seek_aux (h : Items S head body c items) :
    ∀ pre, Anchored S head body c pre items →
      (S.moves = true → c.cur ≠ [] → S.block c.pos c.cur c.next ∧ c.idx = 0) →
      ∀ n it, items[n]? = some it → ∃ b q, S.block it.pos b q ∧ it.idx ≤ pre.length + n ∧
        Items S head body (.start it.pos b q) ((pre ++ items).drop (pre.length + n - it.idx)) := by
  induction h with
  | done _ _ =>
    intro pre _ _ n it hit
    simp at hit
  | @cons c c₀ c₁ e tl items ho hcur hr hend hi ih =>
    intro pre ha hmoves n it hit
    have hall : Items S head body c (⟨c₀.pos, c₀.idx, e⟩ :: items) := .cons ho hcur hr hend hi
    -- the cursor the item is read at is anchored, too
    have ha₀ : Anchored S head body c₀ pre (⟨c₀.pos, c₀.idx, e⟩ :: items) := by
      cases ho with
      | here _ => exact ha
      | @block b q hc hb hbne =>
        intro _
        exact ⟨b, hb, Nat.zero_le _, by
          simpa using hall.of_opens (.block hc hb hbne)⟩
    have hmoves₀ : S.moves = true → S.block c₀.pos c₀.cur c₀.next ∧ c₀.idx = 0 := by
      intro hm
      cases ho with
      | here hne => exact hmoves hm hne
      | block _ hb _ => exact ⟨hb, rfl⟩
    cases n with
    | zero =>
      simp only [List.getElem?_cons_zero, Option.some.injEq] at hit
      subst hit
      obtain ⟨b, hb, hidx, hi₀⟩ := ha₀ ho.cur_ne_nil
      exact ⟨b, c₀.next, hb, by simpa using hidx, by simpa using hi₀⟩
    | succ n =>
      rw [List.getElem?_cons_succ] at hit
      have ha₁ := anchored_next ho.cur_ne_nil hcur hr hend hi ha₀ fun hm => (hmoves₀ hm).1
      obtain ⟨b, q, hb, hidx, hi₁⟩ := ih (pre ++ [⟨c₀.pos, c₀.idx, e⟩]) ha₁ (by
        intro hm hne
        have hle : (body e).length ≤ tl.length := hend.resolve_right hne
        have heq := hr.eq_move (by rw [cur_enter, hcur, List.drop_left]; exact hle)
        rw [heq] at hne ⊢
        have hk : (head e).length + (body e).length < c₀.cur.length := by
          have : 0 < ((c₀.enter S (head e).length).move S (body e).length).cur.length :=
            List.length_pos_iff.mpr hne
          simp only [cur_move, cur_enter, List.length_drop] at this
          omega
        have hb := S.block_drop hm (hmoves₀ hm).1 hk
        unfold Cursor.move Cursor.enter Cursor.move
        simp only [hm, if_true, List.drop_drop]
        exact ⟨by rw [Nat.add_assoc]; exact hb, trivial⟩) n it hit
      have hlen : (pre ++ [(⟨c₀.pos, c₀.idx, e⟩ : Item ι)]).length = pre.length + 1 := by simp
      refine ⟨b, q, hb, by omega, ?_⟩
      rw [List.append_assoc] at hi₁
      have : (pre ++ [(⟨c₀.pos, c₀.idx, e⟩ : Item ι)]).length + n = pre.length + (n + 1) := by
        omega
      rwa [this] at hi₁

theorem Items.seek (h : Items S head body c items) (hc : c.cur = []) {n : Nat}
    (hit : items[n]? = some it) :
    ∃ b q, S.block it.pos b q ∧ it.idx ≤ n ∧
      Items S head body (.start it.pos b q) (items.drop (n - it.idx)) := by
  obtain ⟨b, q, hb, hidx, hi⟩ := h.seek_aux [] (fun hne => absurd hc hne)
    (fun _ hne => absurd hc hne) n it hit
  exact ⟨b, q, hb, by simpa using hidx, by simpa using hi⟩

/-! ### How many items there can be -/

/-- The elements still to be read, at most, in blocks of at most `B`. -/
def Cursor.potential (S : Source α) (B : Nat) (c : Cursor α) : Nat :=
  c.cur.length + (S.stop - c.next) * B

theorem potential_start {B p q : Nat} {b : List α} (hb : S.block p b q) (hB : b.length ≤ B) :
    (Cursor.start p b q).potential S B ≤ (S.stop - p) * B := by
  have h1 := S.block_lt hb
  have h2 := S.block_le hb
  have h3 : (S.stop - q + 1) * B ≤ (S.stop - p) * B := Nat.mul_le_mul_right _ (by omega)
  rw [Nat.add_mul, Nat.one_mul] at h3
  show b.length + (S.stop - q) * B ≤ (S.stop - p) * B
  omega

theorem Reads.potential_le {B : Nat} (hB : ∀ {p b q}, S.block p b q → b.length ≤ B)
    {xs : List α} (h : Reads S c xs c') : c'.potential S B + xs.length ≤ c.potential S B := by
  induction h with
  | nil => exact Nat.le_refl _
  | @cur c c' x xs tl hc _ ih =>
    have : (c.move S 1).potential S B + 1 = c.potential S B := by
      unfold Cursor.potential
      rw [cur_move, next_move, hc]
      simp only [List.drop_succ_cons, List.drop_zero, List.length_cons]
      omega
    rw [List.length_cons]
    omega
  | @block c c' x xs b q hc hb _ _ ih =>
    have hs := potential_start hb (hB hb)
    have : c.potential S B = (S.stop - c.next) * B := by
      unfold Cursor.potential
      rw [hc]
      simp
    omega

theorem Opens.potential_le {B : Nat} (hB : ∀ {p b q}, S.block p b q → b.length ≤ B)
    (ho : Opens S c c₀) : c₀.potential S B ≤ c.potential S B := by
  cases ho with
  | here _ => exact Nat.le_refl _
  | block hc hb _ =>
    have hs := potential_start hb (hB hb)
    have : c.potential S B = (S.stop - c.next) * B := by
      unfold Cursor.potential
      rw [hc]
      simp
    omega

/-- **Boundedly many items.** -/
theorem Items.length_le {B : Nat} (hB : ∀ {p b q}, S.block p b q → b.length ≤ B)
    (hhead : ∀ e, head e ≠ []) (h : Items S head body c items) :
    items.length ≤ c.potential S B := by
  induction h with
  | done _ _ => exact Nat.zero_le _
  | @cons c c₀ c₁ e tl items ho hcur hr hend hi ih =>
    have h1 := ho.potential_le hB
    have h2 := hr.potential_le hB
    have h3 : (c₀.enter S (head e).length).potential S B + 1 ≤ c₀.potential S B := by
      have : 0 < (head e).length := List.length_pos_iff.mpr (hhead e)
      unfold Cursor.potential
      rw [cur_enter, next_enter, hcur, List.drop_left, List.length_append]
      omega
    rw [List.length_cons]
    omega

end Items

end BlockStream
