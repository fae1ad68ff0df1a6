import Mathlib

/-!
# The last write of each key

Items with keys are written one after the other, and some of them (the deletes)
only end the life of what was written under their key before.  `Contents.write` is
one step: it keeps the list of the items that are live, the latest first, and adds
up the size of those that are not.

The live items have different keys (`nodup_live`), and the one of a key is the last
item with that key, if that is no delete (`find_live`).
-/

namespace LastWrite

variable {ι κ : Type*} [DecidableEq κ]

structure Contents (ι : Type*) where
  live : List ι
  garbage : Nat

structure Kind (ι κ : Type*) where
  key : ι → κ
  isPut : ι → Bool
  size : ι → Nat

variable (K : Kind ι κ)

def Kind.others (k : κ) (items : List ι) : List ι := items.filter fun it => K.key it ≠ k

def Kind.those (k : κ) (items : List ι) : List ι := items.filter fun it => K.key it = k

def Kind.get? (k : κ) (items : List ι) : Option ι := items.find? fun it => K.key it = k

def Contents.write (c : Contents ι) (it : ι) : Contents ι where
  live := if K.isPut it then it :: K.others (K.key it) c.live else K.others (K.key it) c.live
  garbage := c.garbage + ((K.those (K.key it) c.live).map K.size).sum
    + if K.isPut it then 0 else K.size it

def Contents.writes (c : Contents ι) (items : List ι) : Contents ι := items.foldl (Contents.write K) c

def contents (items : List ι) : Contents ι := (⟨[], 0⟩ : Contents ι).writes K items

variable {K} {c : Contents ι} {it old : ι} {items more : List ι} {k : κ}

theorem Contents.writes_append (c : Contents ι) (items more : List ι) :
    c.writes K (items ++ more) = (c.writes K items).writes K more := List.foldl_append

theorem Contents.writes_cons (c : Contents ι) (it : ι) (items : List ι) :
    c.writes K (it :: items) = (c.write K it).writes K items := rfl

theorem contents_append (items more : List ι) :
    contents K (items ++ more) = (contents K items).writes K more := Contents.writes_append _ _ _

theorem contents_concat (items : List ι) (it : ι) :
    contents K (items ++ [it]) = (contents K items).write K it := contents_append _ _

theorem mem_others : it ∈ K.others k items ↔ it ∈ items ∧ K.key it ≠ k := by
  simp [Kind.others]

theorem mem_those : it ∈ K.those k items ↔ it ∈ items ∧ K.key it = k := by
  simp [Kind.those]

/-! ### One item a key -/

def Kind.Distinct (K : Kind ι κ) (items : List ι) : Prop := (items.map K.key).Nodup

theorem Kind.Distinct.others (h : K.Distinct items) (k : κ) : K.Distinct (K.others k items) :=
  List.Nodup.sublist (List.filter_sublist.map _) h

theorem Kind.Distinct.cons_others (h : K.Distinct items) (it : ι) :
    K.Distinct (it :: K.others (K.key it) items) := by
  refine List.nodup_cons.mpr ⟨fun hmem => ?_, h.others _⟩
  obtain ⟨x, hx, hkey⟩ := List.mem_map.mp hmem
  exact (mem_others.mp hx).2 hkey

omit [DecidableEq κ] in
theorem Kind.Distinct.eq_of_key (h : K.Distinct items) (hit : it ∈ items) (hold : old ∈ items)
    (hkey : K.key it = K.key old) : it = old :=
  List.inj_on_of_nodup_map h hit hold hkey

theorem Kind.Distinct.split (h : K.Distinct items) (hold : old ∈ items) (hk : K.key old = k) :
    K.those k items = [old] ∧ items.Perm (old :: K.others k items) := by
  have hthose : K.those k items = [old] := by
    have hnodup : (K.those k items).Nodup := (List.Nodup.of_map _ h).filter _
    have hmem : old ∈ K.those k items := mem_those.mpr ⟨hold, hk⟩
    have hall : ∀ x ∈ K.those k items, x = old := fun x hx => by
      obtain ⟨hx, hxk⟩ := mem_those.mp hx
      exact h.eq_of_key hx hold (hxk.trans hk.symm)
    rw [List.eq_replicate_of_mem hall] at hnodup hmem ⊢
    have hlen := List.nodup_replicate.mp hnodup
    have hpos : (K.those k items).length ≠ 0 := fun h0 => by
      rw [h0] at hmem
      cases hmem
    rw [show (K.those k items).length = 1 by omega]
    rfl
  refine ⟨hthose, ?_⟩
  have hperm := List.filter_append_perm (fun it => decide (K.key it = k)) items
  have hnot : items.filter (fun it => !decide (K.key it = k)) = K.others k items := by
    refine List.filter_congr fun x _ => ?_
    rw [← decide_not]
  rw [hnot] at hperm
  change (K.those k items ++ K.others k items).Perm items at hperm
  rw [hthose] at hperm
  exact hperm.symm

theorem others_eq_self (h : ∀ it ∈ items, K.key it ≠ k) :
    K.those k items = [] ∧ K.others k items = items := by
  refine ⟨List.filter_eq_nil_iff.mpr fun x hx => ?_, List.filter_eq_self.mpr fun x hx => ?_⟩
  · simpa using h x hx
  · simpa using h x hx

/-! ### What is live -/

theorem get?_eq_some (h : K.get? k items = some it) : it ∈ items ∧ K.key it = k :=
  ⟨List.mem_of_find?_eq_some h, by simpa using List.find?_some h⟩

theorem get?_eq_none (h : K.get? k items = none) (hit : it ∈ items) : K.key it ≠ k := by
  simpa using List.find?_eq_none.mp h it hit

theorem get?_others (it : ι) (h : k ≠ K.key it) (items : List ι) :
    K.get? k (K.others (K.key it) items) = K.get? k items := by
  unfold Kind.others Kind.get?
  rw [List.find?_filter]
  congr 1
  funext x
  by_cases hx : K.key x = k
  · simp [hx, h]
  · simp [hx]

/-- **The last write counts**: what is live under a key is the last item with it, if it is a
put. -/
theorem find_live (items : List ι) (k : κ) :
    K.get? k (contents K items).live = (K.those k items).getLast?.filter K.isPut := by
  induction items using List.reverseRecOn with
  | nil => rfl
  | append_singleton items it ih =>
    rw [contents_concat]
    have hthose : K.those k (items ++ [it])
        = K.those k items ++ if K.key it = k then [it] else [] := by
      simp [Kind.those, List.filter_cons]
    rw [hthose]
    unfold Contents.write
    simp only
    by_cases hk : K.key it = k
    · -- the item decides
      rw [if_pos hk, List.getLast?_concat]
      have hnone : K.get? k (K.others (K.key it) (contents K items).live) = none := by
        refine List.find?_eq_none.mpr fun x hx => ?_
        have := (mem_others.mp hx).2
        rw [hk] at this
        simpa using this
      by_cases hput : K.isPut it = true
      · rw [if_pos hput, Kind.get?, List.find?_cons_of_pos (by simpa using hk)]
        simp [Option.filter, hput]
      · rw [if_neg hput, hnone]
        simp [Option.filter, hput]
    · rw [if_neg hk, List.append_nil, ← ih]
      have hrest := get?_others (K := K) it (Ne.symm hk) (contents K items).live
      by_cases hput : K.isPut it = true
      · rw [if_pos hput, Kind.get?, List.find?_cons_of_neg (by simpa using hk)]
        exact hrest
      · rw [if_neg hput, hrest]

/-! ### How many items are live at a time -/

variable (K) in
def peakLive : Contents ι → List ι → Nat
  | c, [] => c.live.length
  | c, it :: items => max c.live.length (peakLive (c.write K it) items)

theorem length_live_le_peakLive (c : Contents ι) (items : List ι) :
    c.live.length ≤ peakLive K c items := by
  cases items with
  | nil => exact Nat.le_refl _
  | cons it items => exact Nat.le_max_left _ _

theorem length_live_writes_le_peakLive : ∀ (items : List ι) (c : Contents ι),
    (c.writes K items).live.length ≤ peakLive K c items := by
  intro items
  induction items with
  | nil => exact fun c => Nat.le_refl _
  | cons it items ih => exact fun c => Nat.le_trans (ih _) (Nat.le_max_right _ _)

theorem Contents.length_live_write_le (c : Contents ι) (it : ι) :
    (c.write K it).live.length ≤ c.live.length + if K.isPut it then 1 else 0 := by
  have hle : (K.others (K.key it) c.live).length ≤ c.live.length := List.length_filter_le _ _
  unfold Contents.write
  simp only
  split_ifs
  · rw [List.length_cons]
    omega
  · omega

theorem peakLive_le : ∀ (items : List ι) (c : Contents ι),
    peakLive K c items ≤ c.live.length + items.countP K.isPut := by
  intro items
  induction items with
  | nil => exact fun c => Nat.le_refl _
  | cons it items ih =>
    intro c
    have h₁ := ih (c.write K it)
    have h₂ := c.length_live_write_le (K := K) it
    rw [peakLive, List.countP_cons]
    split_ifs at * <;> omega

/-- What is live depends on what was live before, and the garbage adds up. -/
theorem Contents.live_writes_congr : ∀ (items : List ι) {c d : Contents ι}, c.live = d.live →
    (c.writes K items).live = (d.writes K items).live ∧
      (c.writes K items).garbage + d.garbage = (d.writes K items).garbage + c.garbage := by
  intro items
  induction items with
  | nil => exact fun h => ⟨h, Nat.add_comm _ _⟩
  | cons it items ih =>
    intro c d h
    have hlive : (c.write K it).live = (d.write K it).live := by
      unfold Contents.write
      rw [h]
    obtain ⟨h₁, h₂⟩ := ih hlive
    refine ⟨h₁, ?_⟩
    have hg : (c.write K it).garbage + d.garbage = (d.write K it).garbage + c.garbage := by
      unfold Contents.write
      simp only [h]
      omega
    rw [Contents.writes_cons, Contents.writes_cons]
    omega

theorem Contents.write_perm {c d : Contents ι} (h : c.live.Perm d.live) (it : ι) :
    (c.write K it).live.Perm (d.write K it).live ∧
      (c.write K it).garbage + d.garbage = (d.write K it).garbage + c.garbage := by
  have hothers : (K.others (K.key it) c.live).Perm (K.others (K.key it) d.live) := h.filter _
  have hthose : ((K.those (K.key it) c.live).map K.size).sum
      = ((K.those (K.key it) d.live).map K.size).sum := ((h.filter _).map _).sum_nat
  unfold Contents.write
  simp only
  refine ⟨?_, by omega⟩
  split_ifs
  · exact hothers.cons _
  · exact hothers

theorem Contents.writes_perm : ∀ (items : List ι) {c d : Contents ι}, c.live.Perm d.live →
    (c.writes K items).live.Perm (d.writes K items).live ∧
      (c.writes K items).garbage + d.garbage = (d.writes K items).garbage + c.garbage := by
  intro items
  induction items with
  | nil => exact fun h => ⟨h, Nat.add_comm _ _⟩
  | cons it items ih =>
    intro c d h
    obtain ⟨hlive, hgarbage⟩ := Contents.write_perm (K := K) h it
    obtain ⟨h₁, h₂⟩ := ih hlive
    refine ⟨h₁, ?_⟩
    rw [Contents.writes_cons, Contents.writes_cons]
    omega

theorem peakLive_perm : ∀ (items : List ι) {c d : Contents ι}, c.live.Perm d.live →
    peakLive K c items = peakLive K d items := by
  intro items
  induction items with
  | nil => exact fun h => h.length_eq
  | cons it items ih =>
    intro c d h
    rw [peakLive, peakLive, h.length_eq, ih (Contents.write_perm (K := K) h it).1]

theorem peakLive_congr : ∀ (items : List ι) {c d : Contents ι}, c.live = d.live →
    peakLive K c items = peakLive K d items := by
  intro items
  induction items with
  | nil => exact fun h => congrArg List.length h
  | cons it items ih =>
    intro c d h
    have hlive : (c.write K it).live = (d.write K it).live := by
      unfold Contents.write
      rw [h]
    rw [peakLive, peakLive, h, ih hlive]

theorem peakLive_map {ι' : Type*} {K' : Kind ι' κ} (f : ι → ι')
    (hkey : ∀ it, K'.key (f it) = K.key it) (hput : ∀ it, K'.isPut (f it) = K.isPut it) :
    ∀ (items : List ι) (c : Contents ι) (g : Nat),
    peakLive K' ⟨c.live.map f, g⟩ (items.map f) = peakLive K c items := by
  intro items
  induction items with
  | nil => exact fun c g => List.length_map _
  | cons it items ih =>
    intro c g
    have hothers : K'.others (K'.key (f it)) (c.live.map f) = (K.others (K.key it) c.live).map f := by
      unfold Kind.others
      rw [List.filter_map, hkey]
      congr 1
      refine List.filter_congr fun x _ => ?_
      simp only [Function.comp_apply, hkey]
    have hwrite : ((⟨c.live.map f, g⟩ : Contents ι').write K' (f it)).live
        = (c.write K it).live.map f := by
      unfold Contents.write
      simp only [hput, hothers]
      split_ifs
      · rw [List.map_cons]
      · rfl
    have := ih (c.write K it) ((⟨c.live.map f, g⟩ : Contents ι').write K' (f it)).garbage
    rw [← hwrite] at this
    rw [List.map_cons, peakLive, peakLive, this, List.length_map]

/-! ### What is live, in the order it was written -/

/-- An item outlives those that come behind it: it is a put, and none of them has its key. -/
def Kind.Outlives (K : Kind ι κ) (it : ι) (later : List ι) : Prop :=
  K.isPut it = true ∧ ∀ x ∈ later, K.key x ≠ K.key it

instance (it : ι) (later : List ι) : Decidable (K.Outlives it later) :=
  inferInstanceAs (Decidable (_ ∧ _))

/-- The items that outlive those behind them. -/
def Kind.survivors (K : Kind ι κ) : List ι → List ι
  | [] => []
  | it :: items => if K.Outlives it items then it :: K.survivors items else K.survivors items

theorem Kind.survivors_append (items more : List ι) : ∃ before, (∀ it ∈ before, it ∈ items) ∧
    K.survivors (items ++ more) = before ++ K.survivors more := by
  induction items with
  | nil => exact ⟨[], fun _ h => h, rfl⟩
  | cons it items ih =>
    obtain ⟨before, hmem, hbefore⟩ := ih
    rw [List.cons_append, Kind.survivors, hbefore]
    split_ifs
    · exact ⟨it :: before, List.cons_subset_cons it hmem, rfl⟩
    · exact ⟨before, fun x hx => List.mem_cons_of_mem _ (hmem x hx), rfl⟩

theorem Kind.mem_of_mem_survivors (h : it ∈ K.survivors items) : it ∈ items := by
  induction items with
  | nil => cases h
  | cons x items ih =>
    rw [Kind.survivors] at h
    split_ifs at h
    · rcases List.mem_cons.mp h with rfl | h
      · exact List.mem_cons_self
      · exact List.mem_cons_of_mem _ (ih h)
    · exact List.mem_cons_of_mem _ (ih h)

theorem Kind.Outlives.mem_survivors (h : K.Outlives it more) (items : List ι) :
    it ∈ K.survivors (items ++ it :: more) := by
  obtain ⟨before, -, hbefore⟩ := Kind.survivors_append (K := K) items (it :: more)
  rw [hbefore, Kind.survivors, if_pos h]
  exact List.mem_append_right _ List.mem_cons_self

theorem Kind.mem_survivors_append (hnodup : (items ++ more).Nodup) (hit : it ∈ more) :
    it ∈ K.survivors (items ++ more) ↔ it ∈ K.survivors more := by
  obtain ⟨before, hmem, hbefore⟩ := Kind.survivors_append (K := K) items more
  rw [hbefore, List.mem_append]
  refine or_iff_right fun h => ?_
  exact (List.nodup_append.mp hnodup).2.2 it (hmem it h) it hit rfl

theorem Kind.survivors_map {ι' : Type*} {K' : Kind ι' κ} (f : ι → ι')
    (hkey : ∀ it, K'.key (f it) = K.key it) (hput : ∀ it, K'.isPut (f it) = K.isPut it)
    (items : List ι) : K'.survivors (items.map f) = (K.survivors items).map f := by
  induction items with
  | nil => rfl
  | cons it items ih =>
    have houtlives : K'.Outlives (f it) (items.map f) ↔ K.Outlives it items := by
      simp only [Kind.Outlives, hput, hkey, List.forall_mem_map]
    rw [List.map_cons, Kind.survivors, Kind.survivors, ih]
    simp only [houtlives]
    split_ifs
    · rw [List.map_cons]
    · rfl

/-- What is live is what survives, and what was live before as far as its key is not written. -/
theorem Contents.live_writes_perm : ∀ (items : List ι) (c : Contents ι), (c.writes K items).live.Perm
    (K.survivors items ++ c.live.filter fun x => ∀ y ∈ items, K.key y ≠ K.key x) := by
  intro items
  induction items with
  | nil =>
    intro c
    have hall : c.live.filter (fun x => ∀ y ∈ ([] : List ι), K.key y ≠ K.key x) = c.live := by simp
    rw [hall]
    exact .refl _
  | cons it items ih =>
    intro c
    have hothers : (K.others (K.key it) c.live).filter (fun x => ∀ y ∈ items, K.key y ≠ K.key x)
        = c.live.filter fun x => ∀ y ∈ it :: items, K.key y ≠ K.key x := by
      unfold Kind.others
      rw [List.filter_filter]
      refine List.filter_congr fun x _ => ?_
      by_cases hx : K.key x = K.key it
      · simp [hx]
      · simp [hx, Ne.symm hx]
    have hlive : (c.write K it).live = if K.isPut it then it :: K.others (K.key it) c.live
        else K.others (K.key it) c.live := rfl
    have hstep := ih (c.write K it)
    rw [Contents.writes_cons, ← hothers, Kind.survivors]
    rw [hlive] at hstep
    by_cases hput : K.isPut it = true
    · rw [if_pos hput] at hstep
      by_cases hlater : ∀ x ∈ items, K.key x ≠ K.key it
      · rw [List.filter_cons_of_pos (by simpa using hlater)] at hstep
        rw [if_pos ⟨hput, hlater⟩]
        exact hstep.trans List.perm_middle
      · rw [List.filter_cons_of_neg (by simpa using hlater)] at hstep
        rw [if_neg fun h => hlater h.2]
        exact hstep
    · rw [if_neg hput] at hstep
      rw [if_neg fun h => hput h.1]
      exact hstep

/-- **The live items** are those that survive. -/
theorem live_perm_survivors (items : List ι) : (contents K items).live.Perm (K.survivors items) := by
  have h := Contents.live_writes_perm (K := K) items ⟨[], 0⟩
  rwa [List.filter_nil, List.append_nil] at h

theorem filter_eq_survivors {p : ι → Bool} : ∀ {items : List ι}, items.Nodup →
    (∀ it ∈ items, p it = true ↔ it ∈ K.survivors items) → items.filter p = K.survivors items := by
  intro items
  induction items with
  | nil => exact fun _ _ => rfl
  | cons it items ih =>
    intro hnodup hp
    obtain ⟨hnotin, hnodup⟩ := List.nodup_cons.mp hnodup
    have hhead := hp it List.mem_cons_self
    have hrest : items.filter p = K.survivors items := by
      refine ih hnodup fun x hx => (hp x (List.mem_cons_of_mem _ hx)).trans ?_
      have hne : x ≠ it := fun h => hnotin (h ▸ hx)
      rw [Kind.survivors]
      split_ifs
      · simp [hne]
      · exact Iff.rfl
    rw [Kind.survivors] at hhead ⊢
    by_cases houtlives : K.Outlives it items
    · rw [if_pos houtlives] at hhead ⊢
      rw [List.filter_cons_of_pos (hhead.mpr List.mem_cons_self), hrest]
    · rw [if_neg houtlives] at hhead ⊢
      rw [List.filter_cons_of_neg fun h => hnotin (Kind.mem_of_mem_survivors (hhead.mp h)), hrest]

theorem Kind.Distinct.get?_perm (h : K.Distinct items) (hperm : items.Perm more) (k : κ) :
    K.get? k items = K.get? k more := by
  cases hget : K.get? k items with
  | none =>
    exact (List.find?_eq_none.mpr fun x hx => by
      simpa using get?_eq_none hget (hperm.mem_iff.mpr hx)).symm
  | some it =>
    obtain ⟨hit, hkey⟩ := get?_eq_some hget
    have hmore : K.Distinct more := ((hperm.map _).nodup_iff).mp h
    cases hget' : K.get? k more with
    | none => exact absurd hkey (get?_eq_none hget' (hperm.mem_iff.mp hit))
    | some it' =>
      obtain ⟨hit', hkey'⟩ := get?_eq_some hget'
      rw [hmore.eq_of_key (hperm.mem_iff.mp hit) hit' (hkey.trans hkey'.symm)]

/-! ### The size of what is not live -/

/-- The size of the items that do not outlive those behind them. -/
def Kind.deadSize (K : Kind ι κ) : List ι → Nat
  | [] => 0
  | it :: items => (if K.Outlives it items then 0 else K.size it) + K.deadSize items

/-- The size of the items that outlive those behind them. -/
def Kind.liveSize (K : Kind ι κ) : List ι → Nat
  | [] => 0
  | it :: items => (if K.Outlives it items then K.size it else 0) + K.liveSize items

theorem Kind.liveSize_add_deadSize : ∀ items : List ι,
    K.liveSize items + K.deadSize items = (items.map K.size).sum := by
  intro items
  induction items with
  | nil => rfl
  | cons it items ih =>
    rw [Kind.liveSize, Kind.deadSize, List.map_cons, List.sum_cons, ← ih]
    split_ifs <;> omega

def Kind.replacedSize (K : Kind ι κ) (live items : List ι) : Nat :=
  ((live.filter fun x => ∃ y ∈ items, K.key y = K.key x).map K.size).sum

theorem Kind.replacedSize_cons (live : List ι) (it : ι) (items : List ι) :
    K.replacedSize live (it :: items) = ((K.those (K.key it) live).map K.size).sum
      + K.replacedSize (K.others (K.key it) live) items := by
  unfold Kind.replacedSize Kind.those Kind.others
  induction live with
  | nil => rfl
  | cons x live ih =>
    by_cases hx : K.key x = K.key it
    · have hmem : ∃ y ∈ it :: items, K.key y = K.key x := ⟨it, List.mem_cons_self, hx.symm⟩
      rw [List.filter_cons_of_pos (by simpa using hmem),
        List.filter_cons_of_pos (by simpa using hx),
        List.filter_cons_of_neg (by simpa using hx)]
      simp only [List.map_cons, List.sum_cons, ih]
      omega
    · have hiff : (∃ y ∈ it :: items, K.key y = K.key x) ↔ ∃ y ∈ items, K.key y = K.key x := by
        simp [Ne.symm hx]
      rw [List.filter_cons, List.filter_cons_of_neg (by simpa using hx),
        List.filter_cons_of_pos (by simpa using hx), List.filter_cons]
      simp only [hiff, decide_eq_true_eq]
      split_ifs
      · simp only [List.map_cons, List.sum_cons, ih]
        omega
      · exact ih

/-- **Garbage** is what was live and is written once more, and what does not outlive the items
behind it. -/
theorem garbage_writes : ∀ (items : List ι) (c : Contents ι),
    (c.writes K items).garbage = c.garbage + K.replacedSize c.live items + K.deadSize items := by
  intro items
  induction items with
  | nil =>
    intro c
    have hnone : K.replacedSize c.live [] = 0 := by simp [Kind.replacedSize]
    rw [hnone]
    rfl
  | cons it items ih =>
    intro c
    rw [Contents.writes_cons, ih, Kind.replacedSize_cons, Kind.deadSize]
    unfold Contents.write
    simp only
    by_cases hput : K.isPut it = true
    · rw [if_pos hput, if_pos hput]
      by_cases hlater : ∀ x ∈ items, K.key x ≠ K.key it
      · have hnot : ¬ ∃ y ∈ items, K.key y = K.key it := by
          rintro ⟨y, hy, hkey⟩
          exact hlater y hy hkey
        rw [if_pos ⟨hput, hlater⟩, Kind.replacedSize, List.filter_cons_of_neg (by simpa using hnot)]
        unfold Kind.replacedSize
        omega
      · have hex : ∃ y ∈ items, K.key y = K.key it := by simpa using hlater
        rw [if_neg (fun h => hlater h.2), Kind.replacedSize,
          List.filter_cons_of_pos (by simpa using hex), List.map_cons, List.sum_cons]
        unfold Kind.replacedSize
        omega
    · rw [if_neg hput, if_neg hput, if_neg (fun h => hput h.1)]
      omega

/-- **The garbage of some items** is the size of those that are not live. -/
theorem garbage_contents (items : List ι) : (contents K items).garbage = K.deadSize items := by
  have hnone : K.replacedSize [] items = 0 := rfl
  rw [contents, garbage_writes, hnone, Nat.zero_add]

end LastWrite
