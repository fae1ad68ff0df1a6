import Sparkey.Reader.Entry

/-!
# Random access to the entries of a log

An entry is reached through its address (`run_fetch`): seek to the block, skip as
many entries as the number says, and go to the next.  `keycmp` then compares two
keys as lists of bytes.
-/

namespace Sparkey

open Program BlockStream

abbrev firstCursor : Cursor UInt8 := .start 0 [] logHeaderSize

theorem memcmp_eq_zero : ∀ {a b : List UInt8}, a.length = b.length → (memcmp a b = 0 ↔ a = b) := by
  intro a
  induction a with
  | nil =>
    intro b h
    obtain rfl : b = [] := List.length_eq_zero_iff.mp h.symm
    exact ⟨fun _ => rfl, fun _ => rfl⟩
  | cons x a ih =>
    intro b h
    cases b with
    | nil => cases h
    | cons y b =>
      rw [memcmp]
      by_cases hxy : x = y
      · subst hxy
        rw [if_pos rfl, ih (Nat.succ.inj h), List.cons.injEq]
        exact ⟨fun hab => ⟨rfl, hab⟩, fun hab => hab.2⟩
      · rw [if_neg hxy]
        refine ⟨fun h0 => absurd ?_ hxy, fun heq => absurd (List.cons.inj heq).1 hxy⟩
        exact UInt8.toNat_inj.mp (by omega)

theorem logiterCreate_ok {log : Logreader} (hl : log.Opened) (unset : Logiter) :
    ∃ iter, logiterCreate unset log = .ok iter := by
  unfold logiterCreate
  rw [if_neg (not_not_intro hl.openStatus)]
  exact ⟨_, rfl⟩

variable [Compressors]

/-- A log whose entries are `items`. -/
structure Logreader.Holds (log : Logreader) (items : List (Item Entry)) : Prop
    extends log.Opened where
  entries : log.Entries firstCursor items

/-- What every call that succeeds keeps: the iterator is open, its block cache is right, and
the block of its entry is one of the log. -/
structure Usable (log : Logreader) (iter : Logiter) : Prop where
  iterOpen : IterOpen log iter
  cached : Cached log iter

variable {log : Logreader} {iter iter' : Logiter} {item : Item Entry}
  {items : List (Item Entry)} {key value : List UInt8} {n : Nat}

theorem Active.usable (h : Active log iter item items key value) : Usable log iter :=
  ⟨h.iterOpen, h.cached⟩

theorem Before.usable (h : Before log iter items) : Usable log iter := by
  obtain ⟨-, c, xs, c', hat, -⟩ := h
  exact ⟨hat.iterOpen, hat.cached⟩

theorem logiterCreate_before (hl : log.Holds items) {unset : Logiter}
    (h : logiterCreate unset log = .ok iter) : Before log iter items := by
  unfold logiterCreate at h
  rw [if_neg (not_not_intro hl.openStatus)] at h
  cases h
  refine ⟨nofun, firstCursor, [], firstCursor, ⟨⟨rfl, rfl⟩, Or.inl ⟨rfl, rfl⟩, Nat.le_refl _, ?_, ?_, ?_,
    fun hne => absurd rfl hne, fun hne => absurd rfl hne, Or.inl (Nat.le_refl _)⟩, rfl, .nil _,
    hl.entries⟩
  · rfl
  · exact hl.headerSize.symm
  · show logHeaderSize ≠ 0
    decide

/-- **`skip` passes over entries.** -/
theorem run_logiterSkip (hl : log.Opened) : ∀ (count : Nat) {items : List (Item Entry)}
    {iter : Logiter}, count ≤ items.length → Before log iter items →
    ∃ iter', (logiterSkip log count).run iter = .ok () iter' ∧
      Before log iter' (items.drop count) := by
  intro count
  induction count with
  | zero =>
    intro items iter _ hb
    exact ⟨iter, rfl, hb⟩
  | succ count ih =>
    intro items iter hle hb
    cases items with
    | nil => exact absurd hle (Nat.not_succ_le_zero _)
    | cons item items =>
      obtain ⟨iter₁, hrun₁, hactive, -⟩ := run_logiterNext_item hl hb
      obtain ⟨iter', hrun', hb'⟩ := ih (Nat.le_of_succ_le_succ hle) hactive.before
      refine ⟨iter', ?_, hb'⟩
      simp only [logiterSkip, EStateM.run_bind, hrun₁, hrun']

theorem run_logiterSeek (hl : log.Opened) (hu : Usable log iter) {p q : Nat} {b : List UInt8}
    (hb : log.BlockAt p b q) (hp : p ≠ 0) (hi : log.Entries (.start p b q) items) :
    ∃ iter', (logiterSeek log p).run iter = .ok () iter' ∧ Before log iter' items := by
  have hne : ¬ p = log.header.dataEnd := by
    have h1 := log.source.block_lt hb
    have h2 : _ ≤ log.data.length := log.source.block_le hb
    rw [hl.length_data] at h2
    omega
  obtain ⟨iter₁, hrun, hseek⟩ := run_seekblock hl hb hp hu.cached
  simp only [logiterSeek, EStateM.run_bind, run_assertIterOpen hl hu.iterOpen, if_neg hne, hrun,
    EStateM.run_modify]
  refine ⟨_, rfl, nofun, .start p b q, [], .start p b q, ?_, rfl, .nil _, hi⟩
  have hat : At log iter₁ (.start p b q) b.length := hseek.at hu.iterOpen (Or.inl (Nat.le_refl _))
  refine ⟨⟨hat.iterOpen.1, hat.iterOpen.2⟩, hat.cached, hat.offset, hat.cur, hat.next,
    hat.next_ne_zero, hat.pos_ne_zero, hat.pos, Or.inr ?_⟩
  show if log.source.moves then (0 : Nat) = 0 else (-1 : Int) + 1 = (0 : Nat)
  split_ifs <;> rfl

theorem Logreader.Holds.le_pos (hl : log.Holds items) (hit : item ∈ items) :
    logHeaderSize ≤ item.pos :=
  hl.entries.next_le_pos Entry.header_ne_nil rfl hit

/-- **Fetching an entry by its address**, from wherever the iterator is. -/
theorem run_fetch (hl : log.Holds items) (hu : Usable log iter) (hn : items[n]? = some item) :
    ∃ iter', (do logiterSeek log item.pos; logiterSkip log item.idx; logiterNext log :
        Run Logiter Unit).run iter = .ok () iter' ∧
      Active log iter' item (items.drop (n + 1)) item.val.key item.val.value ∧
      iter'.entryCount = item.idx ∧ iter'.blockPosition = item.pos := by
  obtain ⟨b, q, hb, hidx, hi⟩ := hl.entries.seek rfl hn
  have hmem : item ∈ items := List.mem_of_getElem? hn
  have hlen : n < items.length := (List.getElem?_eq_some_iff.mp hn).1
  have hpos : item.pos ≠ 0 := by
    have := hl.le_pos hmem
    have : logHeaderSize = 84 := rfl
    omega
  obtain ⟨iter₁, hrun₁, hb₁⟩ := run_logiterSeek hl.toOpened hu hb hpos hi
  obtain ⟨iter₂, hrun₂, hb₂⟩ := run_logiterSkip hl.toOpened item.idx
    (by rw [List.length_drop]; omega) hb₁
  rw [List.drop_drop, Nat.sub_add_cancel hidx] at hb₂
  have hdrop : items.drop n = item :: items.drop (n + 1) := by
    rw [List.drop_eq_getElem_cons hlen, (List.getElem?_eq_some_iff.mp hn).2]
  rw [hdrop] at hb₂
  obtain ⟨iter', hrun', hactive⟩ := run_logiterNext_item hl.toOpened hb₂
  refine ⟨iter', ?_, hactive⟩
  simp only [EStateM.run_bind, hrun₁, hrun₂, hrun']

theorem Logreader.Holds.pos_lt (hl : log.Holds items) (hn : items[n]? = some item) :
    item.pos < log.header.dataEnd := by
  obtain ⟨b, q, hb, -, -⟩ := hl.entries.seek rfl hn
  have h2 : _ ≤ log.data.length := log.source.block_le hb
  rw [hl.length_data] at h2
  exact Nat.lt_of_lt_of_le (log.source.block_lt hb) h2

/-! ### `sparkey_logiter_keycmp` -/

/-- `res` tells the order of two keys: a proper prefix comes first, and otherwise the one with the
smaller byte where they first differ. -/
structure Orders (res : Int) (key₁ key₂ : List UInt8) : Prop where
  eq_iff : res = 0 ↔ key₁ = key₂
  lt_iff : res < 0 ↔ key₁ < key₂
  gt_iff : 0 < res ↔ key₂ < key₁

omit [Compressors] in
theorem Orders.cons {res : Int} {key₁ key₂ : List UInt8} (h : Orders res key₁ key₂) (x : UInt8) :
    Orders res (x :: key₁) (x :: key₂) := by
  have hirr : ¬ x < x := by
    rw [UInt8.lt_iff_toNat_lt]
    exact Nat.lt_irrefl _
  refine ⟨?_, ?_, ?_⟩
  · rw [h.eq_iff, List.cons.injEq]
    exact ⟨fun heq => ⟨rfl, heq⟩, fun heq => heq.2⟩
  · rw [h.lt_iff, List.cons_lt_cons_iff]
    exact ⟨fun hlt => Or.inr ⟨rfl, hlt⟩, fun hlt => (hlt.resolve_left hirr).2⟩
  · rw [h.gt_iff, List.cons_lt_cons_iff]
    exact ⟨fun hlt => Or.inr ⟨rfl, hlt⟩, fun hlt => (hlt.resolve_left hirr).2⟩

omit [Compressors] in
theorem Orders.append {res : Int} {key₁ key₂ : List UInt8} (h : Orders res key₁ key₂)
    (part : List UInt8) : Orders res (part ++ key₁) (part ++ key₂) := by
  induction part with
  | nil => exact h
  | cons x part ih => exact ih.cons x

omit [Compressors] in
theorem orders_memcmp : ∀ {a b : List UInt8}, a.length = b.length → memcmp a b ≠ 0 →
    ∀ rest₁ rest₂, Orders (memcmp a b) (a ++ rest₁) (b ++ rest₂) := by
  intro a
  induction a with
  | nil =>
    intro b hlen hne
    obtain rfl : b = [] := List.length_eq_zero_iff.mp hlen.symm
    exact absurd rfl hne
  | cons x a ih =>
    intro b hlen hne rest₁ rest₂
    cases b with
    | nil => cases hlen
    | cons y b =>
      rw [memcmp] at hne ⊢
      by_cases hxy : x = y
      · subst hxy
        rw [if_pos rfl] at hne ⊢
        exact (ih (Nat.succ.inj hlen) hne rest₁ rest₂).cons x
      · rw [if_neg hxy] at hne ⊢
        rw [List.cons_append, List.cons_append]
        have hnat : x.toNat ≠ y.toNat := fun h => hxy (UInt8.toNat_inj.mp h)
        refine ⟨?_, ?_, ?_⟩
        · exact ⟨fun h => absurd h hne, fun h => absurd (List.cons.inj h).1 hxy⟩
        · rw [List.cons_lt_cons_iff, UInt8.lt_iff_toNat_lt]
          exact ⟨fun h => Or.inl (by omega), fun h => by
            have := h.resolve_right fun h => hxy h.1
            omega⟩
        · rw [List.cons_lt_cons_iff, UInt8.lt_iff_toNat_lt]
          exact ⟨fun h => Or.inl (by omega), fun h => by
            have := h.resolve_right fun h => hxy h.1.symm
            omega⟩

/-- What `keychunk` does to iterators that have a rest of a key to hand out. -/
def HandsOut (log : Logreader) (P : List UInt8 → Logiter → Prop) : Prop :=
  ∀ key iter, P key iter → ∃ m iter', (logiterKeychunk log (1 <<< 30)).run iter
    = .ok (key.take m) iter' ∧ m ≤ key.length ∧ (key ≠ [] → 0 < m) ∧ P (key.drop m) iter'

theorem Active.handsOut (hl : log.Opened) :
    HandsOut log fun key iter => Active log iter item items key value := by
  intro key iter h
  obtain ⟨m, iter', hrun, -, hm', hpos, h'⟩ := run_logiterKeychunk hl h (1 <<< 30)
  exact ⟨m, iter', hrun, hm', fun hkey => hpos hkey (by decide), h'⟩

variable {P P₁ P₂ : List UInt8 → Logiter → Prop} {iter₁ iter₂ : Logiter}
  {item₁ item₂ : Item Entry} {items₁ items₂ : List (Item Entry)} {value₁ value₂ : List UInt8}

theorem run_refill (hP : HandsOut log P) (h : P key iter) (chunk : List UInt8) :
    ∃ chunk' key' iter', (refill log chunk).run iter = .ok chunk' iter' ∧ P key' iter' ∧
      chunk ++ key = chunk' ++ key' ∧ (chunk' = [] → key' = []) := by
  by_cases hchunk : chunk.length = 0
  · obtain ⟨m, iter', hrun, hm', hpos, h'⟩ := hP key iter h
    refine ⟨_, _, iter', by rw [refill, if_pos hchunk]; exact hrun, h', ?_, ?_⟩
    · rw [List.length_eq_zero_iff.mp hchunk, List.nil_append, List.take_append_drop]
    · intro h0
      by_cases hkey : key = []
      · rw [hkey, List.drop_nil]
      · have h1 := hpos hkey
        have h2 := congrArg List.length h0
        rw [List.length_take_of_le hm', List.length_nil] at h2
        omega
  · refine ⟨chunk, key, iter, by rw [refill, if_neg hchunk]; rfl, h, rfl, fun h0 => absurd ?_ hchunk⟩
    rw [h0]
    rfl

theorem run_keycmpLoop (hP₁ : HandsOut log P₁) (hP₂ : HandsOut log P₂) : ∀ (fuel : Nat)
    {first second key₁ key₂ : List UInt8} {iter₁ iter₂ : Logiter},
    first.length + key₁.length < fuel → P₁ key₁ iter₁ → P₂ key₂ iter₂ →
    (first = [] → key₁ = []) → (second = [] → key₂ = []) →
    ∃ res iter₁' iter₂' key₁' key₂',
      (keycmpLoop log fuel first second).run (iter₁, iter₂) = .ok res (iter₁', iter₂') ∧
      Orders res (first ++ key₁) (second ++ key₂) ∧ P₁ key₁' iter₁' ∧ P₂ key₂' iter₂' := by
  intro fuel
  induction fuel with
  | zero =>
    intro first second key₁ key₂ iter₁ iter₂ hf
    exact absurd hf (Nat.not_lt_zero _)
  | succ fuel ih =>
    intro first second key₁ key₂ iter₁ iter₂ hf h₁ h₂ hfirst hsecond
    by_cases h1 : first = []
    · have hk₁ := hfirst h1
      subst h1 hk₁
      by_cases h2 : second = []
      · have hk₂ := hsecond h2
        subst h2 hk₂
        refine ⟨0, iter₁, iter₂, [], [], by simp [keycmpLoop], ⟨by simp, ?_, ?_⟩, h₁, h₂⟩ <;>
          exact ⟨fun h => absurd h (by decide), fun h => absurd h (List.not_lt_nil _)⟩
      · obtain ⟨y, second, rfl⟩ := List.exists_cons_of_ne_nil h2
        refine ⟨-1, iter₁, iter₂, [], key₂, by simp [keycmpLoop], ⟨by simp, ?_, ?_⟩, h₁, h₂⟩
        · exact ⟨fun _ => List.nil_lt_cons _ _, fun _ => by decide⟩
        · exact ⟨fun h => absurd h (by decide), fun h => absurd h (List.not_lt_nil _)⟩
    by_cases h2 : second = []
    · have hk₂ := hsecond h2
      subst h2 hk₂
      obtain ⟨x, first, rfl⟩ := List.exists_cons_of_ne_nil h1
      refine ⟨1, iter₁, iter₂, key₁, [], by simp [keycmpLoop], ⟨by simp, ?_, ?_⟩, h₁, h₂⟩
      · exact ⟨fun h => absurd h (by decide), fun h => absurd h (List.not_lt_nil _)⟩
      · exact ⟨fun _ => List.nil_lt_cons _ _, fun _ => by decide⟩
    have hlen₁ : 0 < first.length := List.length_pos_iff.mpr h1
    have hlen₂ : 0 < second.length := List.length_pos_iff.mpr h2
    obtain ⟨m, hm⟩ : ∃ m, m = min first.length second.length := ⟨_, rfl⟩
    have htake₁ : (first.take m).length = m := List.length_take_of_le (by omega)
    have htake₂ : (second.take m).length = m := List.length_take_of_le (by omega)
    have hl1 : ¬ first.length = 0 := by omega
    have hl2 : ¬ second.length = 0 := by omega
    have hl12 : ¬ (first.length = 0 ∧ second.length = 0) := by omega
    have hsplit₁ : first ++ key₁ = first.take m ++ (first.drop m ++ key₁) := by
      rw [← List.append_assoc, List.take_append_drop]
    have hsplit₂ : second ++ key₂ = second.take m ++ (second.drop m ++ key₂) := by
      rw [← List.append_assoc, List.take_append_drop]
    by_cases hv : memcmp (first.take m) (second.take m) = 0
    · -- equal so far: both chunks are refilled where they are used up
      have htake := (memcmp_eq_zero (htake₁.trans htake₂.symm)).mp hv
      obtain ⟨first', key₁', iter₁', hrun₁, h₁', heq₁, hfirst'⟩ := run_refill hP₁ h₁ (first.drop m)
      obtain ⟨second', key₂', iter₂', hrun₂, h₂', heq₂, hsecond'⟩ :=
        run_refill hP₂ h₂ (second.drop m)
      have hlen := congrArg List.length heq₁
      rw [List.length_append, List.length_append, List.length_drop] at hlen
      obtain ⟨res, it₁, it₂, k₁, k₂, hrun, hres, hit₁, hit₂⟩ :=
        ih (by omega) h₁' h₂' hfirst' hsecond'
      refine ⟨res, it₁, it₂, k₁, k₂, ?_, ?_, hit₁, hit₂⟩
      · have hv' : ¬ memcmp (first.take m) (second.take m) ≠ 0 := not_not_intro hv
        simp only [keycmpLoop, if_neg hl12, if_neg hl1, if_neg hl2, ← hm, if_neg hv',
          EStateM.run_bind, run_onFst_ok hrun₁, run_onSnd_ok hrun₂, hrun]
      · rw [hsplit₁, hsplit₂, htake, heq₁, heq₂]
        exact hres.append _
    · refine ⟨memcmp (first.take m) (second.take m), iter₁, iter₂, key₁, key₂, ?_, ?_, h₁, h₂⟩
      · simp only [keycmpLoop, if_neg hl12, if_neg hl1, if_neg hl2, ← hm, if_pos hv,
          EStateM.run_pure]
      · rw [hsplit₁, hsplit₂]
        exact orders_memcmp (htake₁.trans htake₂.symm) hv _ _

/-- **`keycmp` tells the order of two keys**, however they are cut into chunks. -/
theorem run_logiterKeycmp_of {key₁ key₂ : List UInt8} (hP₁ : HandsOut log P₁)
    (hP₂ : HandsOut log P₂) (h₁ : P₁ key₁ iter₁) (h₂ : P₂ key₂ iter₂)
    (hrem : iter₁.keyRemaining = key₁.length) :
    ∃ res iter₁' iter₂' key₁' key₂', (logiterKeycmp log).run (iter₁, iter₂)
        = .ok res (iter₁', iter₂') ∧ Orders res key₁ key₂ ∧ P₁ key₁' iter₁' ∧ P₂ key₂' iter₂' := by
  obtain ⟨first, key₁', iter₁', hrun₁, h₁', heq₁, hfirst⟩ := run_refill hP₁ h₁ []
  obtain ⟨second, key₂', iter₂', hrun₂, h₂', heq₂, hsecond⟩ := run_refill hP₂ h₂ []
  rw [List.nil_append] at heq₁ heq₂
  have hlen := congrArg List.length heq₁
  rw [List.length_append] at hlen
  obtain ⟨res, it₁, it₂, k₁, k₂, hrun, hres, hit₁, hit₂⟩ :=
    run_keycmpLoop hP₁ hP₂ (key₁.length + 2) (by omega) h₁' h₂' hfirst hsecond
  rw [← heq₁, ← heq₂] at hres
  refine ⟨res, it₁, it₂, k₁, k₂, ?_, hres, hit₁, hit₂⟩
  rw [refill, List.length_nil, if_pos rfl] at hrun₁ hrun₂
  simp only [logiterKeycmp, EStateM.run_bind, EStateM.run_get, run_onFst_ok hrun₁,
    run_onSnd_ok hrun₂, hrem, hrun]

theorem run_logiterKeycmp (hl : log.Opened) {key₁ key₂ : List UInt8}
    (h₁ : Active log iter₁ item₁ items₁ key₁ value₁)
    (h₂ : Active log iter₂ item₂ items₂ key₂ value₂) :
    ∃ res iter₁' iter₂' key₁' key₂', (logiterKeycmp log).run (iter₁, iter₂)
        = .ok res (iter₁', iter₂') ∧ (res = 0 ↔ key₁ = key₂) ∧
      Active log iter₁' item₁ items₁ key₁' value₁ ∧
      Active log iter₂' item₂ items₂ key₂' value₂ := by
  obtain ⟨res, it₁, it₂, k₁, k₂, hrun, hres, hit⟩ :=
    run_logiterKeycmp_of (Active.handsOut hl) (Active.handsOut hl) h₁ h₂ h₁.keyRemaining
  exact ⟨res, it₁, it₂, k₁, k₂, hrun, hres.eq_iff, hit⟩

end Sparkey
