import Sparkey.Landing
import Sparkey.Roundtrip

/-!
# Entries by their address

Going through a log from the start, an iterator shows an address at every entry: the
position of the block and the number of the entry.  The address leads any other
iterator to the same entry, whatever has been done with it (`fetch_of_writing`).
-/

namespace Sparkey

open Program BlockStream

variable [Compressors]

omit [Compressors] in
def LogCall.Stays : LogCall → Prop
  | keychunk _ | valuechunk _ | fillKey _ | fillValue _ | reset => True
  | _ => False

/-- An iterator that has gone to `k` entries from the start of the log. -/
inductive Walk (log : Logreader) : Nat → Logiter → Prop
  | create {unset iter : Logiter} : logiterCreate unset log = .ok iter → Walk log 0 iter
  | next {k : Nat} {iter iter' : Logiter} : Walk log k iter →
      (logiterNext log).run iter = .ok () iter' → iter'.state = .active → Walk log (k + 1) iter'
  | stay {k : Nat} {iter iter' : Logiter} {bytes : List UInt8} (c : LogCall) : c.Stays →
      Walk log k iter → iter.state = .active → (c.program log).run iter = .ok bytes iter' →
      Walk log k iter'

/-- An iterator that `next` has just taken to the entry with number `k`. -/
def Stop (log : Logreader) (k : Nat) (iter : Logiter) : Prop :=
  ∃ before, Walk log k before ∧ (logiterNext log).run before = .ok () iter ∧ iter.state = .active

def showEntry (log : Logreader) : Run Logiter Shown := do
  let iter ← get
  let key ← logiterFillKey log iter.keylen
  let value ← logiterFillValue log iter.valuelen
  pure ⟨iter.type, iter.keylen, iter.valuelen, key, value⟩

/-- The iterator is active at the entry `e`, and goes on with `es`. -/
structure Presents (log : Logreader) (iter : Logiter) (e : Entry) (es : List Entry) : Prop where
  state : iter.state = .active
  type : iter.type = e.type
  keylen : iter.keylen = e.key.length
  valuelen : iter.valuelen = e.value.length
  shown : ∃ iter', (showEntry log).run iter = .ok e.shown iter' ∧ ∀ fuel, es.length < fuel →
    ∃ iter'', (dump log fuel).run iter' = .ok (es.map Entry.shown) iter'' ∧ iter''.state = .closed

variable {log : Logreader} {iter iter' other : Logiter} {item : Item Entry}
  {items : List (Item Entry)} {key value : List UInt8} {k : Nat} {blocks : List (List UInt8)}
  {es : List Entry}

theorem Active.presents (hl : log.Opened)
    (h : Active log iter item items item.val.key item.val.value) :
    Presents log iter item.val (items.map Item.val) := by
  obtain ⟨iter₁, hrun₁, h₁⟩ := run_logiterFillKey hl h item.val.key.length
  obtain ⟨iter₂, key, hrun₂, h₂⟩ := run_logiterFillValue hl h₁ item.val.value.length
  rw [List.take_length] at hrun₁ hrun₂
  refine ⟨h.state, h.type, h.keylen, h.valuelen, iter₂, ?_, fun fuel hfuel => ?_⟩
  · simp only [showEntry, EStateM.run_bind, EStateM.run_get, h.keylen, h.valuelen, h.type, hrun₁,
      hrun₂, EStateM.run_pure, Entry.shown]
  · rw [List.length_map] at hfuel
    obtain ⟨iter', hrun, hs, -⟩ := run_dump hl items hfuel h₂.before
    refine ⟨iter', ?_, hs⟩
    rw [hrun, List.map_map]
    rfl

theorem Active.stay (hl : log.Opened) (h : Active log iter item items key value) {c : LogCall}
    (hc : c.Stays) {bytes : List UInt8} (hrun : (c.program log).run iter = .ok bytes iter') :
    ∃ key' value', Active log iter' item items key' value' := by
  cases c with
  | next => exact hc.elim
  | skip count => exact hc.elim
  | seek position => exact hc.elim
  | reset =>
    obtain ⟨iter₁, hrun₁, h₁⟩ := run_logiterReset hl h
    rw [LogCall.program, run_bind_ok hrun₁] at hrun
    cases hrun
    exact ⟨_, _, h₁⟩
  | keychunk maxlen =>
    obtain ⟨m, iter₁, hrun₁, -, -, -, h₁⟩ := run_logiterKeychunk hl h maxlen
    cases hrun₁.symm.trans hrun
    exact ⟨_, _, h₁⟩
  | valuechunk maxlen =>
    obtain ⟨m, iter₁, hrun₁, -, -, -, h₁⟩ := run_logiterValuechunk hl h maxlen
    cases hrun₁.symm.trans hrun
    exact ⟨_, _, h₁⟩
  | fillKey maxlen =>
    obtain ⟨iter₁, hrun₁, h₁⟩ := run_logiterFillKey hl h maxlen
    cases hrun₁.symm.trans hrun
    exact ⟨_, _, h₁⟩
  | fillValue maxlen =>
    obtain ⟨iter₁, key', hrun₁, h₁⟩ := run_logiterFillValue hl h maxlen
    cases hrun₁.symm.trans hrun
    exact ⟨_, _, h₁⟩

theorem Before.stop (hl : log.Opened) (h : Before log iter (items.drop k))
    (hrun : (logiterNext log).run iter = .ok () iter') (hs : iter'.state = .active) :
    ∃ item, items[k]? = some item ∧
      Active log iter' item (items.drop (k + 1)) item.val.key item.val.value ∧
      iter'.entryCount = item.idx ∧ iter'.blockPosition = item.pos := by
  cases hrest : items.drop k with
  | nil =>
    rw [hrest] at h
    obtain ⟨iter₁, hrun₁, hclosed, -⟩ := run_logiterNext_end hl h
    cases hrun₁.symm.trans hrun
    rw [hs] at hclosed
    cases hclosed
  | cons item rest =>
    rw [hrest] at h
    obtain ⟨iter₁, hrun₁, h₁⟩ := run_logiterNext_item hl h
    cases hrun₁.symm.trans hrun
    have hdrop : items.drop (k + 1) = rest := by
      rw [← List.drop_drop, hrest]
      rfl
    rw [hdrop]
    refine ⟨item, ?_, h₁⟩
    have hget := congrArg (fun l => l[0]?) hrest
    rwa [List.getElem?_drop, Nat.add_zero, List.getElem?_cons_zero] at hget

/-- **Where a walk is**: before the entries it has not gone to, and at the last one it has. -/
theorem Walk.place (hl : log.Holds items) (h : Walk log k iter) :
    Before log iter (items.drop k) ∧ (iter.state = .active → ∃ item key value,
      Active log iter item (items.drop k) key value) := by
  induction h with
  | create hcreate =>
    refine ⟨logiterCreate_before hl hcreate, fun hs => ?_⟩
    unfold logiterCreate at hcreate
    rw [if_neg (not_not_intro hl.openStatus)] at hcreate
    cases hcreate
    cases hs
  | next _ hrun hs ih =>
    obtain ⟨item, -, h, -⟩ := ih.1.stop hl.toOpened hrun hs
    exact ⟨h.before, fun _ => ⟨_, _, _, h⟩⟩
  | stay c hc _ hs hrun ih =>
    obtain ⟨item, key, value, h⟩ := ih.2 hs
    obtain ⟨key', value', h'⟩ := h.stay hl.toOpened hc hrun
    exact ⟨h'.before, fun _ => ⟨_, _, _, h'⟩⟩

/-- **What an iterator shows** where `next` has stopped. -/
theorem Stop.active (hl : log.Holds items) (h : Stop log k iter) : ∃ item, items[k]? = some item ∧
    Active log iter item (items.drop (k + 1)) item.val.key item.val.value ∧
    iter.entryCount = item.idx ∧ iter.blockPosition = item.pos := by
  obtain ⟨before, hwalk, hrun, hs⟩ := h
  exact (hwalk.place hl).1.stop hl.toOpened hrun hs

/-! ### Heads of any size -/

theorem Inside.stay {before after : List Entry} {e : Entry}
    (hc : log.Carries blocks (before ++ e :: after)) (h : Inside log blocks iter e after)
    {c : LogCall} (hs : c.Stays) :
    ∃ bytes iter', (c.program log).run iter = .ok bytes iter' ∧ Inside log blocks iter' e after := by
  obtain ⟨key, value, c', j, hp, ha⟩ := h.partway
  have hsame : ∀ {iter' : Logiter} {key' value' : List UInt8}, SameHead iter iter' →
      Partway log iter' key' value' c' → Inside log blocks iter' e after := by
    intro iter' key' value' hh hp'
    refine ⟨hh.type.trans h.type, hh.keylen.trans h.keylen, hh.valuelen.trans h.valuelen, ?_, _, _, c', j,
      hp', ha⟩
    rw [hh.entryBlockPosition, hh.entryBlockOffset]
    exact h.unread
  cases c with
  | next => exact hs.elim
  | skip count => exact hs.elim
  | seek position => exact hs.elim
  | reset =>
    obtain ⟨iter', hrun, h', hu⟩ := h.run_logiterReset hc.toOpened
    exact ⟨[], iter', by rw [LogCall.program, run_bind_ok hrun]; rfl, h'.inside hc hu⟩
  | keychunk maxlen =>
    obtain ⟨m, iter', hrun, -, -, -, hp', hh⟩ := hp.run_logiterKeychunk hc.toOpened maxlen
    exact ⟨_, iter', hrun, hsame hh hp'⟩
  | valuechunk maxlen =>
    obtain ⟨m, iter', hrun, -, -, -, hp', hh⟩ := hp.run_logiterValuechunk hc.toOpened maxlen
    exact ⟨_, iter', hrun, hsame hh hp'⟩
  | fillKey maxlen =>
    obtain ⟨iter', hrun, hp', hh⟩ := hp.run_logiterFillKey hc.toOpened maxlen
    exact ⟨_, iter', hrun, hsame hh hp'⟩
  | fillValue maxlen =>
    obtain ⟨iter', key', hrun, hp', hh⟩ := hp.run_logiterFillValue hc.toOpened maxlen
    exact ⟨_, iter', hrun, hsame hh hp'⟩

omit [Compressors] in
theorem eq_take_append {e : Entry} (he : es[k]? = some e) :
    es = es.take k ++ e :: es.drop (k + 1) := by
  obtain ⟨hlt, rfl⟩ := List.getElem?_eq_some_iff.mp he
  rw [← List.drop_eq_getElem_cons hlt, List.take_append_drop]

omit [Compressors] in
theorem mem_take_succ {e : Entry} (he : es[k]? = some e) : e ∈ es.take (k + 1) := by
  rw [List.take_add_one, he]
  exact List.mem_append_right _ (List.mem_singleton_self e)

theorem Approaches.next (hc : log.Carries blocks es) (h : Approaches log blocks iter (es.drop k))
    {e : Entry} (he : es[k]? = some e) (hfit : HeadFits log.header.setting e) :
    ∃ iter', (logiterNext log).run iter = .ok () iter' ∧ StandsAt log iter' e (es.drop (k + 1)) ∧
      Usable log iter' := by
  obtain ⟨hlt, rfl⟩ := List.getElem?_eq_some_iff.mp he
  rw [List.drop_eq_getElem_cons hlt] at h
  rw [eq_take_append he] at hc
  exact h.lands hc fun e' he' => by
    cases he'
    exact hfit

theorem Approaches.stop (hc : log.Carries blocks es) (h : Approaches log blocks iter (es.drop k))
    (hfit : ∀ e ∈ es.take (k + 1), HeadFits log.header.setting e)
    (hrun : (logiterNext log).run iter = .ok () iter') (hs : iter'.state = .active) :
    ∃ e, es[k]? = some e ∧ StandsAt log iter' e (es.drop (k + 1)) ∧ Usable log iter' := by
  cases he : es[k]? with
  | none =>
    rw [List.drop_eq_nil_of_le (List.getElem?_eq_none_iff.mp he)] at h
    rw [← List.append_nil es] at hc
    obtain ⟨iter₁, hrun₁, hclosed, -⟩ := h.lands hc nofun
    cases hrun₁.symm.trans hrun
    cases hs.symm.trans hclosed
  | some e =>
    obtain ⟨iter₁, hrun₁, hstands⟩ := h.next hc he (hfit e (mem_take_succ he))
    cases hrun₁.symm.trans hrun
    exact ⟨e, rfl, hstands⟩

/-- **Where a walk is**, if the heads it has read are not too large. -/
theorem Walk.approaches (hc : log.Carries blocks es) (h : Walk log k iter)
    (hfit : ∀ e ∈ es.take k, HeadFits log.header.setting e) :
    Approaches log blocks iter (es.drop k) ∧ (iter.state = .active →
      ∃ before e, es = before ++ e :: es.drop k ∧ Inside log blocks iter e (es.drop k)) := by
  induction h with
  | create hcreate =>
    refine ⟨logiterCreate_approaches hc hcreate, fun hs => ?_⟩
    rw [logiterCreate, if_neg (not_not_intro hc.openStatus)] at hcreate
    cases hcreate
    cases hs
  | @next k iter iter' _ hrun hs ih =>
    obtain ⟨happ, -⟩ := ih fun e he => hfit e (List.take_subset_take_left _ (Nat.le_succ k) he)
    obtain ⟨e, he, hstands, hu⟩ := happ.stop hc hfit hrun hs
    have heq := eq_take_append he
    rw [heq] at hc
    have hin := hstands.inside hc hu
    exact ⟨hin.approaches, fun _ => ⟨_, e, heq, hin⟩⟩
  | stay c hstay _ hs hrun ih =>
    obtain ⟨before, e, heq, hin⟩ := (ih hfit).2 hs
    rw [heq] at hc
    obtain ⟨bytes, iter₁, hrun₁, hin'⟩ := hin.stay hc hstay
    cases hrun₁.symm.trans hrun
    exact ⟨hin'.approaches, fun _ => ⟨before, e, heq, hin'⟩⟩

/-- **An iterator that `next` has just taken to an entry** stands at it. -/
theorem Stop.standsAt (hc : log.Carries blocks es) (h : Stop log k iter)
    (hfit : ∀ e ∈ es.take (k + 1), HeadFits log.header.setting e) :
    ∃ e, es[k]? = some e ∧ StandsAt log iter e (es.drop (k + 1)) ∧ Usable log iter := by
  obtain ⟨before, hwalk, hrun, hs⟩ := h
  obtain ⟨happ, -⟩ := hwalk.approaches hc fun e he =>
    hfit e (List.take_subset_take_left _ (Nat.le_succ k) he)
  exact happ.stop hc hfit hrun hs

theorem exists_stop (hc : log.Carries blocks es) (hk : k < es.length)
    (hfit : ∀ e ∈ es.take (k + 1), HeadFits log.header.setting e) : ∃ iter, Stop log k iter := by
  -- a walk that only calls `next`
  have hwalk : ∀ j, j ≤ k → ∃ iter, Walk log j iter := by
    intro j
    induction j with
    | zero =>
      intro _
      obtain ⟨iter, hiter⟩ := logiterCreate_ok hc.toOpened zeroLogiter
      exact ⟨iter, .create hiter⟩
    | succ j ih =>
      intro hj
      obtain ⟨iter, hiter⟩ := ih (Nat.le_of_succ_le hj)
      have hfit' : ∀ e ∈ es.take (j + 1), HeadFits log.header.setting e := fun e he =>
        hfit e (List.take_subset_take_left _ (by omega) he)
      obtain ⟨happ, -⟩ := hiter.approaches hc fun e he =>
        hfit' e (List.take_subset_take_left _ (Nat.le_succ j) he)
      have hlt : j < es.length := by omega
      have he : es[j]? = some es[j] := List.getElem?_eq_getElem hlt
      obtain ⟨iter', hrun, hstands, -⟩ := happ.next hc he (hfit' _ (mem_take_succ he))
      exact ⟨iter', hiter.next hrun hstands.state⟩
  obtain ⟨before, hbefore⟩ := hwalk k (Nat.le_refl k)
  obtain ⟨happ, -⟩ := hbefore.approaches hc fun e he =>
    hfit e (List.take_subset_take_left _ (Nat.le_succ k) he)
  have he : es[k]? = some es[k] := List.getElem?_eq_getElem hk
  obtain ⟨iter, hrun, hstands, -⟩ := happ.next hc he (hfit _ (mem_take_succ he))
  exact ⟨iter, before, hbefore, hrun, hstands.state⟩

theorem Walk.handled (h : Walk log k iter) : Handled log iter := by
  induction h with
  | create hcreate => exact .create hcreate
  | next _ hrun _ ih =>
    exact .call .next trivial ih (Or.inl ⟨[], by rw [LogCall.program, run_bind_ok hrun]; rfl⟩)
  | stay c hc _ _ hrun ih =>
    have hallowed : c.Allowed log := by
      cases c with
      | seek position => exact hc.elim
      | _ => trivial
    exact .call c hallowed ih (Or.inl ⟨_, hrun⟩)

theorem Stop.handled (h : Stop log k iter) : Handled log iter := by
  obtain ⟨before, hwalk, hrun, hs⟩ := h
  exact (hwalk.next hrun hs).handled

/-- **The address of an entry leads to it.**  What an iterator shows as `block_position` and
`entry_count` when `next` stops at an entry takes every other iterator there by `seek`, `skip`
and `next`, and both go on alike. -/
theorem fetch_of_writing {t : CompressionType} {n : Nat} {calls : List Call} {w w' : Logwriter}
    (hw : Writing t n calls w) (hfit : ∀ e ∈ entriesOf calls, HeadFits (.of t n) e)
    (hz : (Setting.of t n).Lossless) (hfl : logwriterFlush.run w = .ok () w')
    (hopen : logreaderOpen (some w'.fd.data) = .ok log) (hstop : Stop log k iter)
    (hother : Handled log other) :
    ∃ e other', (entriesOf calls)[k]? = some e ∧ 0 ≤ iter.entryCount ∧
      (do logiterSeek log iter.blockPosition
          logiterSkip log iter.entryCount.toNat
          logiterNext log : Run Logiter Unit).run other = .ok () other' ∧
      other'.blockPosition = iter.blockPosition ∧ other'.entryCount = iter.entryCount ∧
      Presents log iter e ((entriesOf calls).drop (k + 1)) ∧
      Presents log other' e ((entriesOf calls).drop (k + 1)) := by
  obtain ⟨items, hl, hvals, -⟩ := holds_of_flush hw hfit hz hfl hopen
  obtain ⟨item, hitem, hactive, hcount, hpos⟩ := hstop.active hl
  obtain ⟨other', hrun, hactive', hcount', hpos'⟩ :=
    run_fetch hl (hother.steady hl.toOpened hl.chain).toUsable hitem
  rw [← hvals, ← List.map_drop, hcount, hpos]
  refine ⟨item.val, other', ?_, Int.natCast_nonneg _, hrun, hpos', hcount',
    hactive.presents hl.toOpened, hactive'.presents hl.toOpened⟩
  rw [List.getElem?_map, hitem]
  rfl

omit [Compressors] in
theorem exists_sampleLog :
    letI := literalCompressors
    ∃ w w' log, Writing .snappy 10 sampleCalls w ∧ logwriterFlush.run w = .ok () w' ∧
      logreaderOpen (some w'.fd.data) = .ok log ∧ ∀ k < 4, ∃ iter e, Stop log k iter ∧
        (entriesOf sampleCalls)[k]? = some e ∧
        StandsAt log iter e ((entriesOf sampleCalls).drop (k + 1)) := by
  let := literalCompressors
  obtain ⟨w, w', log, hw, hclose, hopen, -⟩ := exists_of_writeAndOpen sampleEnv .snappy 10
    sampleCalls (by decide) (by decide +kernel)
  obtain ⟨w₁, hfl, rfl⟩ := ok_logwriterClose (kept_of_writing hw).1.writable hclose
  obtain ⟨blocks, hc⟩ := carries_of_flush hw (fun _ => lossless_snappyLiteral) hfl hopen
  refine ⟨w, w₁, log, hw, hfl, hopen, fun k hk => ?_⟩
  have hfit : ∀ e ∈ (entriesOf sampleCalls).take (k + 1), HeadFits log.header.setting e := by
    intro e he
    rw [setting_of_flush hw hfl hopen]
    exact headFits_sampleCalls e (List.mem_of_mem_take he)
  obtain ⟨iter, hstop⟩ := exists_stop hc hk hfit
  obtain ⟨e, he, hstands, -⟩ := hstop.standsAt hc hfit
  exact ⟨iter, e, hstop, he, hstands⟩

omit [Compressors] in
theorem fetch_of_writing_sample :
    letI := literalCompressors
    ∃ (log : Logreader) (iter other : Logiter), Stop log 2 iter ∧ logiterCreate zeroLogiter log = .ok other ∧
      ∃ e other', (entriesOf sampleCalls)[2]? = some e ∧ 0 ≤ iter.entryCount ∧
        (do logiterSeek log iter.blockPosition
            logiterSkip log iter.entryCount.toNat
            logiterNext log : Run Logiter Unit).run other = .ok () other' ∧
        other'.blockPosition = iter.blockPosition ∧ other'.entryCount = iter.entryCount ∧
        Presents log iter e ((entriesOf sampleCalls).drop 3) ∧
        Presents log other' e ((entriesOf sampleCalls).drop 3) := by
  let := literalCompressors
  obtain ⟨w, w', log, hw, hfl, hopen, hstops⟩ := exists_sampleLog
  have hz : (Setting.of .snappy 10).Lossless := fun _ => lossless_snappyLiteral
  obtain ⟨iter, e, hstop, -⟩ := hstops 2 (by decide)
  obtain ⟨blocks, hc⟩ := carries_of_flush hw hz hfl hopen
  obtain ⟨other, hother⟩ := logiterCreate_ok hc.toOpened zeroLogiter
  exact ⟨log, iter, other, hstop, hother,
    fetch_of_writing hw headFits_sampleCalls hz hfl hopen hstop (.create hother)⟩

end Sparkey
