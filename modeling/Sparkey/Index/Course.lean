import Sparkey.Cache
import Sparkey.Index.Answers

/-!
# An iterator on its course

Ten functions work on an iterator, and none asks what the ones before have done.  There are two ways
to make an iterator read an entry where there is none.  One is to go on behind a lookup that has
missed, which may leave it in the middle of an entry.  The other is to ask for a value behind `seek`:
`valuechunk` passes over what was left of a key before it looks whether there is an entry at all.

In every other run an iterator that is active is at an entry of the log (`readsEntry_of_indexing`).
-/

namespace Sparkey

open Program BlockStream LastWrite

variable [Compressors] {log : Logreader} {items : List (Item Entry)} {it : Item Entry}
  {iter iter' : Logiter} {key value : List UInt8} {n : Nat}

/-! ### On course -/

/-- An iterator that is active is at an entry, and a new one is before one or behind all. -/
structure OnCourse (log : Logreader) (items : List (Item Entry)) (iter : Logiter) : Prop where
  active : iter.state = .active → ∃ n it key value, items[n]? = some it ∧
    Active log iter it (items.drop (n + 1)) key value
  new : iter.state = .new → ∃ n, Before log iter (items.drop n)

omit [Compressors] in
def Parked (iter : Logiter) : Prop := iter.state = .closed ∨ iter.state = .invalid

theorem Parked.onCourse (h : Parked iter) : OnCourse log items iter := by
  constructor
  · intro hs
    rcases h with h | h <;> cases hs.symm.trans h
  · intro hs
    rcases h with h | h <;> cases hs.symm.trans h

theorem Active.onCourse (h : Active log iter it (items.drop (n + 1)) key value)
    (hn : items[n]? = some it) : OnCourse log items iter := by
  constructor
  · intro _
    exact ⟨n, it, key, value, hn, h⟩
  · intro hs
    cases hs.symm.trans h.state

/-- Wherever the iterator is on its course, `next` comes to an entry or to the end. -/
theorem OnCourse.before (h : OnCourse log items iter) (hs : ¬ Parked iter) :
    ∃ n, Before log iter (items.drop n) := by
  cases hstate : iter.state with
  | new => exact h.new hstate
  | active =>
    obtain ⟨n, it, key, value, -, hactive⟩ := h.active hstate
    exact ⟨n + 1, hactive.before⟩
  | closed => exact absurd (Or.inl hstate) hs
  | invalid => exact absurd (Or.inr hstate) hs

/-! ### Going on -/

/-- **`next`** stays on course where it does not begin behind a miss. -/
theorem OnCourse.next (hl : log.Opened) (h : OnCourse log items iter) (hs : iter.state ≠ .invalid) :
    ∃ iter', (logiterNext log).run iter = .ok () iter' ∧ OnCourse log items iter' ∧
      iter'.state ≠ .invalid := by
  by_cases hclosed : iter.state = .closed
  · exact ⟨iter, run_logiterNext_closed hclosed, h, hs⟩
  obtain ⟨n, hb⟩ := h.before (fun hp => hp.elim hclosed hs)
  cases hdrop : items.drop n with
  | nil =>
    rw [hdrop] at hb
    obtain ⟨iter', hrun, hstate, -⟩ := run_logiterNext_end hl hb
    refine ⟨iter', hrun, Parked.onCourse (Or.inl hstate), ?_⟩
    rw [hstate]
    decide
  | cons it rest =>
    rw [hdrop] at hb
    obtain ⟨iter', hrun, hactive, -⟩ := run_logiterNext_item hl hb
    obtain ⟨hn, hrest⟩ : items[n]? = some it ∧ items.drop (n + 1) = rest := by
      have h0 := congrArg (fun l => l[0]?) hdrop
      have h1 := congrArg (fun l => l.drop 1) hdrop
      simp only [List.getElem?_drop, List.drop_drop] at h0 h1
      exact ⟨h0, h1⟩
    rw [← hrest] at hactive
    refine ⟨iter', hrun, hactive.onCourse hn, ?_⟩
    rw [hactive.state]
    decide

theorem OnCourse.skip (hl : log.Opened) : ∀ (count : Nat) {iter : Logiter}, OnCourse log items iter →
    iter.state ≠ .invalid →
    ∃ iter', (logiterSkip log count).run iter = .ok () iter' ∧ OnCourse log items iter' := by
  intro count
  induction count with
  | zero =>
    intro iter h _
    exact ⟨iter, rfl, h⟩
  | succ count ih =>
    intro iter h hs
    obtain ⟨iter₁, hrun₁, h₁, hs₁⟩ := h.next hl hs
    obtain ⟨iter', hrun, h'⟩ := ih h₁ hs₁
    refine ⟨iter', ?_, h'⟩
    rw [logiterSkip, run_bind_ok hrun₁, hrun]

/-- **`seek`** to the block of an entry, or to the end. -/
theorem onCourse_seek (hl : log.Holds items) (hu : Usable log iter) {position : Nat}
    (hp : position = log.header.dataEnd ∨ ∃ it ∈ items, position = it.pos) :
    ∃ iter', (logiterSeek log position).run iter = .ok () iter' ∧ OnCourse log items iter' := by
  rcases hp with rfl | ⟨it, hit, rfl⟩
  · refine ⟨{ iter with state := .closed }, ?_, Parked.onCourse (Or.inl rfl)⟩
    rw [logiterSeek, run_bind_ok (run_assertIterOpen hl.toOpened hu.iterOpen), if_pos rfl]
    rfl
  · obtain ⟨n, hn⟩ := List.mem_iff_getElem?.mp hit
    obtain ⟨b, q, hb, -, hi⟩ := hl.entries.seek rfl hn
    have hpos : it.pos ≠ 0 := by
      have hle := hl.le_pos hit
      have h84 : logHeaderSize = 84 := rfl
      omega
    obtain ⟨iter', hrun, hbefore⟩ := run_logiterSeek hl.toOpened hu hb hpos hi
    refine ⟨iter', hrun, fun hs => ?_, fun _ => ⟨_, hbefore⟩⟩
    -- `seek` makes the iterator a new one
    rw [logiterSeek, run_bind_ok (run_assertIterOpen hl.toOpened hu.iterOpen)] at hrun
    split_ifs at hrun
    · cases hrun
      cases hs
    · obtain ⟨_, iter₁, -, hmodify⟩ := ok_bind hrun
      cases hmodify
      cases hs

/-! ### Reading an entry -/

section Reading

omit [Compressors] in
theorem eq_of_leadsTo_ok {σ α : Type} {x : Run σ α} {s s₁ s' : σ} {a : α} (hrun : x.run s = .ok a s₁)
    (h : LeadsTo x s s') : s' = s₁ := by
  rcases h with ⟨a', h⟩ | ⟨code, h⟩
  · cases hrun.symm.trans h
    rfl
  · cases hrun.symm.trans h

omit [Compressors] in
theorem eq_of_leadsTo_error {σ α : Type} {x : Run σ α} {s s₁ s' : σ} {code : Returncode}
    (hrun : x.run s = .error (.rc code) s₁) (h : LeadsTo x s s') : s' = s₁ := by
  rcases h with ⟨a', h⟩ | ⟨code', h⟩
  · cases hrun.symm.trans h
  · cases hrun.symm.trans h
    rfl

omit [Compressors] in
theorem preserves_fillLoop_of {I : Logiter → Prop} {chunk : Nat → Run Logiter (List UInt8)}
    (hchunk : ∀ maxlen, Preserves I (chunk maxlen)) : ∀ (fuel maxlen : Nat) (filled : List UInt8),
    Preserves I (fillLoop chunk fuel maxlen filled) := by
  intro fuel
  induction fuel with
  | zero => exact fun _ _ => .ite (preserves_pure _) preserves_stuck
  | succ fuel ih =>
    intro maxlen filled
    refine .ite (preserves_pure _) ((hchunk maxlen).bind fun res => ?_)
    exact .ite (preserves_pure _) (ih _ _)

theorem parked_seekblock (p : Nat) : Preserves Parked (seekblock log p) := by
  refine Preserves.bind (preserves_modify ?_) fun _ => .get_bind fun iter h => ?_
  · exact fun _ h => h
  by_cases hp : iter.blockPosition = p
  · rw [if_pos hp]
    exact h
  rw [if_neg hp]
  by_cases hc : usesCompressor log.header.compressionType = true
  · rw [if_pos hc]
    cases readVlq log.data p with
    | none => trivial
    | some sizePos =>
      simp only
      split_ifs
      · trivial
      · cases (sparkeyCompressors log.header.compressionType).decompress _ _ with
        | error spoil => exact h
        | ok output => exact h
  · rw [if_neg hc]
    split_ifs
    · trivial
    · exact h

theorem parked_ensureAvailable : Preserves Parked (ensureAvailable log) := by
  refine .get_bind fun iter h => ?_
  split_ifs
  · exact h
  · exact h
  · refine Preserves.bind (parked_seekblock _) (fun _ => preserves_modify ?_) iter h
    exact fun _ h => h

theorem parked_skip (len : Nat) : Preserves Parked (skip log len) := by
  suffices hloop : ∀ fuel len : Nat, Preserves Parked (skipLoop log fuel len) from hloop _ _
  intro fuel
  induction fuel with
  | zero => exact fun len => .ite (preserves_pure _) preserves_stuck
  | succ fuel ih =>
    intro len
    refine .ite (preserves_pure _) (parked_ensureAvailable.bind fun _ => .get_bind fun iter h => ?_)
    exact ih _ _ h

/-- Away from an entry a chunk function only fails. -/
theorem leaves_logiterChunk_idle {I : Logiter → Prop} (h : I iter) (hs : iter.state ≠ .active)
    (maxlen : Nat) (var : Part) : Leaves I ((logiterChunk log maxlen var).run iter) := by
  refine leaves_bind (preserves_assertIterOpen iter h) (fun _ h => h) fun _ iter₁ hrun h₁ => ?_
  obtain rfl := eq_of_assertIterOpen hrun
  rw [run_get_bind, if_pos hs]
  exact h₁

theorem parked_logiterChunk (maxlen : Nat) (var : Part) :
    Preserves Parked (logiterChunk log maxlen var) := by
  intro iter h
  refine leaves_logiterChunk_idle h (fun hs => ?_) maxlen var
  rcases h with h | h <;> cases hs.symm.trans h

theorem parked_logiterValuechunk (maxlen : Nat) :
    Preserves Parked (logiterValuechunk log maxlen) := by
  refine .get_bind fun iter h => Preserves.bind (parked_skip _) (fun _ => ?_) iter h
  refine Preserves.bind (preserves_modify ?_) fun _ => parked_logiterChunk maxlen .value
  exact fun _ h => h

theorem new_logiterValuechunk (hs : iter.state = .new) (hk : iter.keyRemaining = 0) (maxlen : Nat) :
    Preserves (· = iter) (logiterValuechunk log maxlen) := by
  rintro _ rfl
  rename_i iter
  have hskip : (skip log 0).run iter = .ok () iter := by
    rw [skip, skipLoop, if_pos rfl]
    rfl
  have hsame : { iter with keyRemaining := 0 } = iter := by
    rw [← hk]
  rw [logiterValuechunk, run_get_bind, hk, run_bind_ok hskip, run_modify_bind, hsame]
  refine leaves_logiterChunk_idle (I := (· = iter)) rfl ?_ maxlen .value
  rw [hs]
  decide

theorem OnCourse.keychunk (hl : log.Opened) (h : OnCourse log items iter) (ho : IterOpen log iter)
    (maxlen : Nat) (hrun : LeadsTo (logiterKeychunk log maxlen) iter iter') :
    OnCourse log items iter' := by
  by_cases hs : iter.state = .active
  · obtain ⟨n, it, key, value, hn, hactive⟩ := h.active hs
    obtain ⟨m, iter₁, hrun₁, -, -, -, h₁⟩ := run_logiterKeychunk hl hactive maxlen
    rw [eq_of_leadsTo_ok hrun₁ hrun]
    exact h₁.onCourse hn
  · rw [eq_of_leadsTo_error (run_logiterChunk_inactive hl ho hs maxlen .key) hrun]
    exact h

theorem OnCourse.fillKey (hl : log.Opened) (h : OnCourse log items iter) (maxlen : Nat)
    (hrun : LeadsTo (logiterFillKey log maxlen) iter iter') : OnCourse log items iter' := by
  by_cases hs : iter.state = .active
  · obtain ⟨n, it, key, value, hn, hactive⟩ := h.active hs
    obtain ⟨iter₁, hrun₁, h₁⟩ := run_logiterFillKey hl hactive maxlen
    rw [eq_of_leadsTo_ok hrun₁ hrun]
    exact h₁.onCourse hn
  · have hstays : Preserves (· = iter) (logiterFillKey log maxlen) := by
      refine .get_bind fun iter₀ h₀ => preserves_fillLoop_of (fun maxlen iter₁ h₁ => ?_) _ _ _ iter₀ h₀
      subst h₁
      exact leaves_logiterChunk_idle (I := (· = iter₁)) rfl hs maxlen .key
    rw [hstays.of_leadsTo rfl hrun]
    exact h

theorem OnCourse.idle (h : OnCourse log items iter) (hs : iter.state ≠ .active)
    {x : Run Logiter (List UInt8)} (hparked : Preserves Parked x)
    (hstays : iter.state = .new → Preserves (· = iter) x)
    (hrun : LeadsTo x iter iter') : OnCourse log items iter' := by
  cases hstate : iter.state with
  | new =>
    rw [(hstays hstate).of_leadsTo rfl hrun]
    exact h
  | active => exact absurd hstate hs
  | closed => exact (hparked.of_leadsTo (Or.inl hstate) hrun).onCourse
  | invalid => exact (hparked.of_leadsTo (Or.inr hstate) hrun).onCourse

theorem OnCourse.valuechunk (hl : log.Opened) (h : OnCourse log items iter)
    (hk : iter.state = .new → iter.keyRemaining = 0) (maxlen : Nat)
    (hrun : LeadsTo (logiterValuechunk log maxlen) iter iter') : OnCourse log items iter' := by
  by_cases hs : iter.state = .active
  · obtain ⟨n, it, key, value, hn, hactive⟩ := h.active hs
    obtain ⟨m, iter₁, hrun₁, -, -, -, h₁⟩ := run_logiterValuechunk hl hactive maxlen
    rw [eq_of_leadsTo_ok hrun₁ hrun]
    exact h₁.onCourse hn
  · exact h.idle hs (parked_logiterValuechunk maxlen)
      (fun hnew => new_logiterValuechunk hnew (hk hnew) maxlen) hrun

theorem OnCourse.fillValue (hl : log.Opened) (h : OnCourse log items iter)
    (hk : iter.state = .new → iter.keyRemaining = 0) (maxlen : Nat)
    (hrun : LeadsTo (logiterFillValue log maxlen) iter iter') : OnCourse log items iter' := by
  by_cases hs : iter.state = .active
  · obtain ⟨n, it, key, value, hn, hactive⟩ := h.active hs
    obtain ⟨iter₁, key', hrun₁, h₁⟩ := run_logiterFillValue hl hactive maxlen
    rw [eq_of_leadsTo_ok hrun₁ hrun]
    exact h₁.onCourse hn
  · refine h.idle hs ?_ (fun hnew => ?_) hrun
    · exact .get_bind fun iter h => preserves_fillLoop_of parked_logiterValuechunk _ _ _ iter h
    · exact .get_bind fun iter h => preserves_fillLoop_of
        (fun maxlen => new_logiterValuechunk hnew (hk hnew) maxlen) _ _ _ iter h

/-- `reset` goes back to the start of the entry, or there is none. -/
theorem OnCourse.reset (hl : log.Opened) (h : OnCourse log items iter)
    (hrun : LeadsTo (logiterReset log) iter iter') : OnCourse log items iter' := by
  by_cases hs : iter.state = .active
  · obtain ⟨n, it, key, value, hn, hactive⟩ := h.active hs
    obtain ⟨iter₁, hrun₁, h₁⟩ := run_logiterReset hl hactive
    rw [eq_of_leadsTo_ok hrun₁ hrun]
    exact h₁.onCourse hn
  · rw [eq_of_leadsTo_error (run_logiterReset_inactive hs) hrun]
    exact h

end Reading

/-! ### Using an index -/

variable [HashFunctions] {log₀ : Logreader} {reader : Hashreader} {more live : List (Item Entry)}

theorem onCourse_hashGet (h : Reading log₀ reader items more live) (hu : Usable reader.log iter)
    (key : List UInt8) : ∃ iter', (hashGet reader key).run iter = .ok () iter' ∧
      OnCourse reader.log (items ++ more) iter' := by
  obtain ⟨iter', hrun, hget⟩ := run_hashGet h hu key
  refine ⟨iter', hrun, ?_⟩
  cases hlive : itemKind.get? key live with
  | none =>
    rw [hlive] at hget
    exact Parked.onCourse (Or.inr hget.1)
  | some it =>
    rw [hlive] at hget
    obtain ⟨n, hfound⟩ := hget
    exact hfound.active.onCourse hfound.getElem

/-- **`hashnext`** stays on course where it does not begin behind a miss. -/
theorem OnCourse.hashnext (h : Reading log₀ reader items more live)
    (hc : OnCourse reader.log (items ++ more) iter) (hs : iter.state ≠ .invalid) :
    ∃ iter', (logiterHashnext reader).run iter = .ok () iter' ∧
      OnCourse reader.log (items ++ more) iter' := by
  by_cases hclosed : iter.state = .closed
  · refine ⟨iter, ?_, hc⟩
    have hstart : (logiterHashnext reader).run iter
        = (hashnextLoop reader (entryFuel reader.log)).run iter := by
      rw [logiterHashnext, assertReaderOpen, if_neg (not_not_intro h.openStatus)]
      rfl
    rw [hstart, entryFuel, hashnextLoop, run_bind_ok (run_logiterNext_closed hclosed), run_get_bind,
      hclosed, if_pos (by decide)]
    rfl
  obtain ⟨n, hb⟩ := hc.before (fun hp => hp.elim hclosed hs)
  obtain ⟨iter', hrun, hnext⟩ := run_logiterHashnext h (fun x hx => List.mem_of_mem_drop hx)
    (List.drop_sublist _ _).length_le hb
  refine ⟨iter', hrun, ?_⟩
  rcases nextLive_eq live ((items ++ more).drop n) with ⟨hnone, -⟩ | ⟨skipped, it, behind, hsome, hdrop, -⟩
  · rw [hnone] at hnext
    exact Parked.onCourse (Or.inl hnext)
  · rw [hsome] at hnext
    have hn : (items ++ more)[n + skipped.length]? = some it := by
      have h0 := congrArg (fun l => l[skipped.length]?) hdrop
      simpa using h0
    have hrest : behind = (items ++ more).drop (n + skipped.length + 1) := by
      have h1 := congrArg (fun l => l.drop (skipped.length + 1)) hdrop
      simp only [List.drop_drop] at h1
      rw [← Nat.add_assoc] at h1
      rw [h1, ← List.drop_drop, List.drop_left]
      rfl
    rw [hrest] at hnext
    exact Active.onCourse hnext hn

/-! ### Any calls -/

/-- The calls that keep an iterator on its course: none goes on behind a miss, none asks for a value
in front of an entry while there is some of a key left, and `seek` is told the block of an entry
or the end of the data. -/
def IterCall.Fair (log : Logreader) (items : List (Item Entry)) (iter : Logiter) : IterCall → Prop
  | next | skip _ | hashnext => iter.state ≠ .invalid
  | valuechunk _ | fillValue _ => iter.state = .new → iter.keyRemaining = 0
  | seek position => position = log.header.dataEnd ∨ ∃ it ∈ items, position = it.pos
  | reset | keychunk _ | fillKey _ | get _ => True

/-- An iterator after any such calls, whatever they answered. -/
inductive Steered (reader : Hashreader) (items : List (Item Entry)) : Logiter → Prop
  | create {unset iter : Logiter} : logiterCreate unset reader.log = .ok iter →
      Steered reader items iter
  | call {iter iter' : Logiter} (c : IterCall) : Steered reader items iter →
      c.Fair reader.log items iter → LeadsTo (c.program reader) iter iter' → Steered reader items iter'

omit [Compressors] [HashFunctions] in
theorem leadsTo_of_drop {σ α : Type} {x : Run σ α} {s s' : σ}
    (h : LeadsTo (x >>= fun _ => pure ()) s s') : LeadsTo x s s' := by
  rcases h with ⟨u, h⟩ | ⟨code, h⟩
  · obtain ⟨a, s₁, hrun, hpure⟩ := ok_bind h
    cases hpure
    exact Or.inl ⟨a, hrun⟩
  · rcases error_bind h with hrun | ⟨a, s₁, -, hpure⟩
    · exact Or.inr ⟨code, hrun⟩
    · cases hpure

/-- **A call keeps the iterator on its course.** -/
theorem OnCourse.call (h : Reading log₀ reader items more live) (hu : Usable reader.log iter)
    (hc : OnCourse reader.log (items ++ more) iter) (c : IterCall)
    (hfair : c.Fair reader.log (items ++ more) iter) (hrun : LeadsTo (c.program reader) iter iter') :
    OnCourse reader.log (items ++ more) iter' := by
  have hl := h.holds.toOpened
  cases c with
  | next =>
    obtain ⟨iter₁, hrun₁, h₁, -⟩ := hc.next hl hfair
    rw [eq_of_leadsTo_ok hrun₁ hrun]
    exact h₁
  | skip count =>
    obtain ⟨iter₁, hrun₁, h₁⟩ := hc.skip hl count hfair
    rw [eq_of_leadsTo_ok hrun₁ hrun]
    exact h₁
  | seek position =>
    obtain ⟨iter₁, hrun₁, h₁⟩ := onCourse_seek h.holds hu hfair
    rw [eq_of_leadsTo_ok hrun₁ hrun]
    exact h₁
  | reset => exact hc.reset hl hrun
  | keychunk maxlen => exact hc.keychunk hl hu.iterOpen maxlen (leadsTo_of_drop hrun)
  | valuechunk maxlen => exact hc.valuechunk hl hfair maxlen (leadsTo_of_drop hrun)
  | fillKey maxlen => exact hc.fillKey hl maxlen (leadsTo_of_drop hrun)
  | fillValue maxlen => exact hc.fillValue hl hfair maxlen (leadsTo_of_drop hrun)
  | get key =>
    obtain ⟨iter₁, hrun₁, h₁⟩ := onCourse_hashGet h hu key
    rw [eq_of_leadsTo_ok hrun₁ hrun]
    exact h₁
  | hashnext =>
    obtain ⟨iter₁, hrun₁, h₁⟩ := hc.hashnext h hfair
    rw [eq_of_leadsTo_ok hrun₁ hrun]
    exact h₁

theorem Steered.used (hl : reader.log.Holds items) (h : Steered reader items iter) :
    Used reader iter := by
  induction h with
  | create hcreate => exact .create hcreate
  | call c _ hfair hrun ih =>
    refine .call c ih ?_ hrun
    cases c with
    | seek position =>
      rcases hfair with hend | ⟨it, hit, rfl⟩
      · exact Or.inl hend
      · exact Or.inr (hl.startsBlock hit)
    | _ => trivial

theorem Steered.onCourse (h : Reading log₀ reader items more live)
    (hs : Steered reader (items ++ more) iter) : OnCourse reader.log (items ++ more) iter := by
  induction hs with
  | @create unset iter hcreate =>
    have hb := logiterCreate_before h.holds hcreate
    constructor
    · intro hs
      unfold logiterCreate at hcreate
      split_ifs at hcreate
      cases hcreate
      cases hs
    · exact fun _ => ⟨0, hb⟩
  | call c hs hfair hrun ih =>
    exact ih.call h ((hs.used h.holds).steady h).toUsable c hfair hrun

/-! ### What an active iterator shows -/

/-- The iterator is at the entry with the number `n`: it shows that one, hands out what is left of it,
and goes on with the next. -/
structure ReadsEntry (log : Logreader) (items : List (Item Entry)) (iter : Logiter) (n : Nat)
    (it : Item Entry) : Prop where
  getElem : items[n]? = some it
  type : iter.type = it.val.type
  keylen : iter.keylen = it.val.key.length
  valuelen : iter.valuelen = it.val.value.length
  entryBlockPosition : iter.entryBlockPosition = it.pos
  keyRemaining_le : iter.keyRemaining ≤ iter.keylen
  valueRemaining_le : iter.valueRemaining ≤ iter.valuelen
  left : ∃ iter₁ iter₂, (logiterFillKey log iter.keyRemaining).run iter
      = .ok (it.val.key.drop (iter.keylen - iter.keyRemaining)) iter₁ ∧
    (logiterFillValue log iter.valueRemaining).run iter₁
      = .ok (it.val.value.drop (iter.valuelen - iter.valueRemaining)) iter₂
  goesOn : ∃ iter', (logiterNext log).run iter = .ok () iter' ∧
    match items[n + 1]? with
    | some it' => Unread log iter' it'
    | none => iter'.state = .closed

omit [Compressors] [HashFunctions] in
theorem drop_of_suffix {part bytes : List UInt8} (h : part <:+ bytes) :
    bytes.drop (bytes.length - part.length) = part := by
  obtain ⟨front, rfl⟩ := h
  rw [List.length_append, Nat.add_sub_cancel, List.drop_left]

omit [HashFunctions] in
theorem Active.readsEntry (hl : log.Opened) (h : Active log iter it (items.drop (n + 1)) key value)
    (hn : items[n]? = some it) : ReadsEntry log items iter n it := by
  refine ⟨hn, h.type, h.keylen, h.valuelen, h.entryBlockPosition, ?_, ?_, ?_, ?_⟩
  · rw [h.keyRemaining, h.keylen]
    exact h.key_suffix.length_le
  · rw [h.valueRemaining, h.valuelen]
    exact h.value_suffix.length_le
  · obtain ⟨iter₁, hrun₁, h₁⟩ := run_logiterFillKey hl h key.length
    obtain ⟨iter₂, key', hrun₂, -⟩ := run_logiterFillValue hl h₁ value.length
    rw [List.take_length] at hrun₁ hrun₂
    refine ⟨iter₁, iter₂, ?_, ?_⟩
    · rw [h.keylen, h.keyRemaining, drop_of_suffix h.key_suffix]
      exact hrun₁
    · rw [h.valuelen, h.valueRemaining, drop_of_suffix h.value_suffix]
      exact hrun₂
  · have hb := h.before
    cases hnext : items[n + 1]? with
    | none =>
      rw [List.drop_eq_nil_of_le (List.getElem?_eq_none_iff.mp hnext)] at hb
      obtain ⟨iter', hrun, hstate, -⟩ := run_logiterNext_end hl hb
      exact ⟨iter', hrun, hstate⟩
    | some it' =>
      obtain ⟨hlt, hget⟩ := List.getElem?_eq_some_iff.mp hnext
      rw [List.drop_eq_getElem_cons hlt, hget] at hb
      obtain ⟨iter', hrun, hactive, -⟩ := run_logiterNext_item hl hb
      exact ⟨iter', hrun, hactive.unread hl⟩

/-- **An iterator that is active is at an entry of the log**, whatever calls there have been, if they
were fair. -/
theorem readsEntry_of_indexing {t : CompressionType} {blockSize hashSize : Nat} {calls : List Call}
    {w w' : Logwriter} {index index' : Option (List UInt8)} {env : HashEnv}
    (h : Indexing t blockSize wholeReads calls w index)
    (hfit : ∀ e ∈ entriesOf calls, HeadFits (.of t blockSize) e) (hz : (Setting.of t blockSize).Lossless)
    (hflush : logwriterFlush.run w = .ok () w') (hopen : logreaderOpen (some w'.fd.data) = .ok log)
    (hwhole : WholeReads env log.header (oldHeader? log.header index))
    (hrun : (hashWrite env (some w'.fd.data) hashSize).run index = .ok () index')
    (hreader : hashOpen index' (some w'.fd.data) = .ok reader) :
    ∃ items, items.map Item.val = entriesOf calls ∧ reader.log.Holds items ∧
      ∀ iter, Steered reader items iter → iter.state = .active →
        ∃ n it, ReadsEntry reader.log items iter n it := by
  have hkeeps := keeps_true wholeReads
  obtain ⟨items, live, hvals, -, hreading⟩ := (h.follows hkeeps (fun h => h) hfit hz).reading_of_run
    hkeeps hfit hz hflush hopen hwhole hwhole hrun hreader
  have hholds := hreading.holds
  rw [← List.append_nil items] at hvals
  refine ⟨items ++ [], hvals, hholds, fun iter hs hactive => ?_⟩
  obtain ⟨n, it, key, value, hn, hat⟩ := (hs.onCourse hreading).active hactive
  exact ⟨n, it, hat.readsEntry hholds.toOpened hn⟩

/-! ### Runs to look at -/

def left? (reader : Hashreader) (iter : Logiter) (c : IterCall) : Option Logiter :=
  match (c.program reader).run iter with
  | .ok _ iter' => some iter'
  | .error (.rc _) iter' => some iter'
  | .error .stuck _ => none

/-- The call is surely fair: a `seek` goes to the block of the entry that the iterator is at. -/
def IterCall.fair? (iter : Logiter) : IterCall → Bool
  | next | skip _ | hashnext => iter.state ≠ .invalid
  | valuechunk _ | fillValue _ => iter.state ≠ .new ∨ iter.keyRemaining = 0
  | seek position => iter.state = .active ∧ position = iter.entryBlockPosition
  | reset | keychunk _ | fillKey _ | get _ => true

def steer? (reader : Hashreader) (iter : Logiter) (c : IterCall) : Option Logiter :=
  if c.fair? iter then left? reader iter c else none

theorem leadsTo_of_left? {c : IterCall} (h : left? reader iter c = some iter') :
    LeadsTo (c.program reader) iter iter' := by
  unfold left? at h
  split at h
  · rename_i u _ hrun
    cases h
    exact Or.inl ⟨u, hrun⟩
  · rename_i code _ hrun
    cases h
    exact Or.inr ⟨code, hrun⟩
  · cases h

theorem Steered.steer (h : Steered reader items iter) {c : IterCall}
    (hreads : iter.state = .active → ∃ n it, ReadsEntry reader.log items iter n it)
    (hc : steer? reader iter c = some iter') : Steered reader items iter' := by
  unfold steer? at hc
  split_ifs at hc with hfair
  refine .call c h ?_ (leadsTo_of_left? hc)
  cases c with
  | seek position =>
    obtain ⟨hactive, rfl⟩ := of_decide_eq_true hfair
    obtain ⟨n, it, hread⟩ := hreads hactive
    exact Or.inr ⟨it, List.mem_of_getElem? hread.getElem, hread.entryBlockPosition⟩
  | next => exact (of_decide_eq_true hfair : iter.state ≠ .invalid)
  | skip count => exact (of_decide_eq_true hfair : iter.state ≠ .invalid)
  | hashnext => exact (of_decide_eq_true hfair : iter.state ≠ .invalid)
  | valuechunk maxlen => exact fun hnew => (of_decide_eq_true hfair).resolve_left (not_not_intro hnew)
  | fillValue maxlen => exact fun hnew => (of_decide_eq_true hfair).resolve_left (not_not_intro hnew)
  | _ => trivial

/-- Fair calls one after the other steer an iterator, where every iterator so steered is at an entry
when it is active. -/
theorem Steered.steers (hreads : ∀ iter, Steered reader items iter → iter.state = .active →
      ∃ n it, ReadsEntry reader.log items iter n it) : ∀ (cs : List IterCall) {iter : Logiter},
    Steered reader items iter → cs.foldlM (steer? reader) iter = some iter' →
    Steered reader items iter' := by
  intro cs
  induction cs with
  | nil =>
    intro iter h hcs
    cases hcs
    exact h
  | cons c cs ih =>
    intro iter h hcs
    obtain ⟨iter₁, hc, hcs⟩ := Option.bind_eq_some_iff.mp hcs
    exact ih (h.steer (hreads iter h) hc) hcs

def courseLog : List Call :=
  [.add (.put (.of [1]) (.of [])), .add (.put (.of [2]) (.of [7, 8, 9])), .add (.delete (.of [1]))]

/-- A lookup that misses, a `reset` that fails behind it, a hit, a part of the value, a `reset` that
succeeds, a longer part, and back to the block of the entry. -/
def courseRun : List IterCall :=
  [.next, .keychunk 1, .get [3], .reset, .get [2], .valuechunk 1, .reset, .valuechunk 2, .seek 87, .next,
    .valuechunk 1]

omit [Compressors] [HashFunctions] in
theorem readsEntry_of_indexing_sample :
    letI := literalCompressors
    letI := lengthHash
    ∃ (reader : Hashreader) (items : List (Item Entry)) (iter iter' : Logiter) (n : Nat) (it : Item Entry),
      items.map Item.val = entriesOf courseLog ∧ logiterCreate zeroLogiter reader.log = .ok iter ∧
      courseRun.foldlM (steer? reader) iter = some iter' ∧ Steered reader items iter' ∧
      iter'.keyRemaining = 0 ∧ iter'.valueRemaining = 2 ∧ ReadsEntry reader.log items iter' n it := by
  let := literalCompressors
  let := lengthHash
  have hfacts : (twoRuns calmEnv calmEnv courseLog [] 4 4).map (fun r => (decide r.log.header.Small,
      (hashOpen r.index (some r.log.data)).toOption.bind fun reader =>
        (logiterCreate zeroLogiter reader.log).toOption.bind fun iter =>
          (courseRun.foldlM (steer? reader) iter).map fun iter =>
            (iter.state, iter.keyRemaining, iter.valueRemaining)))
      = some (true, some (.active, 0, 2)) := by
    decide +kernel
  obtain ⟨r, hr, hfacts⟩ := Option.map_eq_some_iff.mp hfacts
  obtain ⟨hsmall, hcourse⟩ := Prod.mk.inj hfacts
  have horderly : Orderly calmEnv r.log.header := (of_decide_eq_true hsmall).orderly rfl
  obtain ⟨w', _, hran⟩ := exists_of_twoRuns hr
  obtain ⟨w, hw, hflush⟩ := hran.first
  obtain ⟨hk, hf, -⟩ := (kept_of_writing hw).1.flush hflush
  rw [(hk.open hf hran.opened).2.2] at hcourse
  obtain ⟨reader, hreader, hcourse⟩ := Option.bind_eq_some_iff.mp hcourse
  obtain ⟨iter, hiter, hcourse⟩ := Option.bind_eq_some_iff.mp hcourse
  obtain ⟨iter', hcourse, hshown⟩ := Option.map_eq_some_iff.mp hcourse
  simp only [Prod.mk.injEq] at hshown
  obtain ⟨hactive, hkey, hvalue⟩ := hshown
  obtain ⟨items, hvals, -, hreads⟩ := readsEntry_of_indexing (.start hw) (fun _ _ => nofun) nofun
    hflush hran.opened (horderly.wholeReads _) hran.made (ok_of_toOption hreader)
  have hsteered := Steered.steers hreads courseRun (.create (ok_of_toOption hiter)) hcourse
  obtain ⟨n, it, hread⟩ := hreads iter' hsteered hactive
  exact ⟨reader, items, iter, iter', n, it, hvals, ok_of_toOption hiter, hcourse, hsteered, hkey, hvalue,
    hread⟩

/-! ### Off course -/

/-- The state and the two lengths after these calls, in a log with one put of one byte and two. -/
def lengthsAfter (cs : List IterCall) : Option (IterState × Nat × Nat) := do
  let r ← twoRuns calmEnv calmEnv [.add (.put (.of [1]) (.of [2, 0]))] [] 4 4
  let w ← (writeLog sampleEnv .none 0 [.add (.put (.of [1]) (.of [2, 0])), .flush])
  let reader ← (hashOpen r.index (some w.fd.data)).toOption
  let iter ← (logiterCreate zeroLogiter reader.log).toOption
  let last ← cs.foldlM (left? reader) iter
  pure (last.state, last.keylen, last.valuelen)

-- behind a miss the value is taken for an entry
example : @lengthsAfter literalCompressors lengthHash [.next, .get [3], .next]
    = some (.active, 1, 0) := by
  decide +kernel

-- so is half of the head behind a value asked for too early
example : @lengthsAfter literalCompressors lengthHash [.next, .seek 84, .valuechunk 9, .next]
    = some (.active, 1, 1) := by
  decide +kernel

end Sparkey
