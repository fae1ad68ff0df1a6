import Sparkey.Crash
import Sparkey.Promises

/-!
# What a header tells at any moment

The fields of a header are written one after the other, the entry counts first, then the end
of the data, then everything else.  A header that is read in between is right about the end
that it tells.  It is wrong about the counts if these are written and the end is not, and about
the maxima if it is the other way round, unless there is nothing to change
(`right_iff_of_stopped`).
-/

namespace Sparkey

open Program BlockStream

variable [Compressors] {t : CompressionType} {n : Nat} {calls : List Call} {shown added : List Entry}
  {w : Logwriter} {file : List UInt8} {log : Logreader}

/-! ### The maxima are lengths -/

def Logheader.AttainsValue (header : Logheader) (es : List Entry) : Prop :=
  header.maxValueLen = 0 ∨ ∃ e ∈ es, e.type = .put ∧ e.value.length = header.maxValueLen

omit [Compressors] in
theorem Logheader.AttainsValue.count {header : Logheader} {es : List Entry}
    (h : header.AttainsValue es) (e : Entry) (m : Nat) :
    (header.count e m).AttainsValue (es ++ [e]) := by
  rcases e with ⟨key, value⟩ | key
  · exact attained_max (f := fun e => e.value.length) (e := .put key value) h rfl
  · exact attained_append h (.delete key)

theorem attainsValue_of_writing (hw : Writing t n calls w) : w.header.AttainsValue (entriesOf calls) :=
  header_of_writing (fun _ _ _ _ h => Or.inl h) (fun _ _ e h => h.count e _) (fun _ _ _ _ h => h) hw

/-! ### Sessions that were not cut off -/

/-- What a header tells of the entries is right. -/
structure Logheader.Right (header : Logheader) (es : List Entry) : Prop where
  counts : header.Counts es
  attains : header.Attains es
  attainsValue : header.AttainsValue es

theorem right_of_writing (hw : Writing t n calls w) : w.header.Right (entriesOf calls) :=
  ⟨(kept_of_writing hw).1.counts, attains_of_writing hw, attainsValue_of_writing hw⟩

omit [Compressors] in
theorem Logheader.Right.next {header new : Logheader} {es : List Entry} (h : header.Right es)
    (hnext : header.Next new) : new.Right es := by
  refine ⟨h.counts.congr ?_ ?_ ?_ ?_ ?_ ?_, ?_, ?_⟩
  any_goals rw [hnext]
  · have := h.attains
    rwa [hnext]
  · have := h.attainsValue
    rwa [hnext]

theorem writing_of_sessions {cut : Bool} (h : Sessions t n cut shown added w) (hcut : cut = false) :
    ∃ (calls : List Call) (old : Logheader), Writing t n calls w ∧ entriesOf calls = shown ++ added ∧
      Lasting (.of t n) old shown added w ∧ old.Right shown := by
  induction h with
  | create hlt hwhole h =>
    have hs := underway_of_logwriterCreate hlt hwhole h
    exact ⟨[], _, .create hlt h, rfl, ⟨_, hs.behind.weaken List.nil_prefix (Nat.le_refl _), hs⟩,
      right_of_writing (.create hlt h)⟩
  | add e hfit _ h ih =>
    obtain ⟨calls, old, hw, hentries, ⟨v, hb, hs⟩, hright⟩ := ih hcut
    obtain ⟨v', hrun, hb'⟩ := (respects_logwriterAdd e).ok_left hb h
    refine ⟨calls ++ [.add e], old, .add e hw h, ?_, ⟨v', hb', hs.add hfit hrun⟩, hright⟩
    rw [entriesOf_append, hentries, List.append_assoc]
    rfl
  | @flush _ _ _ w w' _ h ih =>
    obtain ⟨calls, old, hw, hentries, ⟨v, hb, hs⟩, -⟩ := ih hcut
    obtain ⟨v', hrun, fd, hfd, rfl⟩ := respects_logwriterFlush.ok_left hb h
    have hright := right_of_writing (.flush hw h)
    rw [entriesOf_flush, hentries] at hright
    refine ⟨calls ++ [.flush], v'.header, .flush hw h, ?_, ⟨v', ⟨fd, hfd, rfl⟩, hs.flush hrun⟩, hright⟩
    rw [entriesOf_flush, hentries, List.append_nil]
  | @close _ _ _ _ _ w' _ _ hclose hwhole happend ih =>
    obtain ⟨calls, old, hw, hentries, ⟨v, hb, hs⟩, -⟩ := ih hcut
    have hlt := (kept_of_writing hw).1.blockSize_lt
    obtain ⟨v', hrun, fd, hfd, rfl⟩ := respects_logwriterClose.ok_left hb hclose
    obtain ⟨hheader, hlasting⟩ := ((hs.close hrun).mono hfd.data).append hlt
      (Setting.plain_of t n) hwhole happend
    have hright := right_of_writing (.reopen hw hclose happend)
    have hall : entriesOf (calls ++ [.reopen]) = entriesOf calls := by
      rw [entriesOf_append, Call.entry?, Option.toList_none, List.append_nil]
    rw [hall, hentries, hheader] at hright
    refine ⟨calls ++ [.reopen], _, .reopen hw hclose happend, ?_, hlasting, hright⟩
    rw [hall, hentries, List.append_nil]
  | stop => cases hcut

/-! ### The windows -/

section Windows

omit [Compressors]

variable {old new : Logheader} (hold : old.Right shown) (hnew : new.Right (shown ++ added))

include hold hnew

theorem numPuts_torn_iff (j : Nat) :
    (new.torn old j).numPuts = u64 (countPuts (if 6 < j then shown ++ added else shown)) ↔
      (j = 5 ∨ j = 6 → new.numPuts = old.numPuts) := by
  have h1 := hold.counts.numPuts
  have h2 := hnew.counts.numPuts
  show (if 4 < j then new.numPuts else old.numPuts) = _ ↔ _
  by_cases h6 : 6 < j
  · rw [if_pos h6, if_pos (by omega)]
    exact iff_of_true h2 (by omega)
  · rw [if_neg h6, ← h1]
    by_cases h4 : 4 < j
    · rw [if_pos h4]
      exact ⟨fun h _ => h, fun h => h (by omega)⟩
    · rw [if_neg h4]
      exact iff_of_true rfl (by omega)

theorem numDeletes_torn_iff (j : Nat) :
    (new.torn old j).numDeletes = u64 (countDeletes (if 6 < j then shown ++ added else shown)) ↔
      (j = 6 → new.numDeletes = old.numDeletes) := by
  have h1 := hold.counts.numDeletes
  have h2 := hnew.counts.numDeletes
  show (if 5 < j then new.numDeletes else old.numDeletes) = _ ↔ _
  by_cases h6 : 6 < j
  · rw [if_pos h6, if_pos (by omega)]
    exact iff_of_true h2 (by omega)
  · rw [if_neg h6, ← h1]
    by_cases h5 : 5 < j
    · rw [if_pos h5]
      exact ⟨fun h _ => h, fun h => h (by omega)⟩
    · rw [if_neg h5]
      exact iff_of_true rfl (by omega)

/-- An old maximum bounds all the keys if and only if it is the new one. -/
theorem key_le_iff : (∀ e ∈ shown ++ added, e.type = .put → e.key.length ≤ old.maxKeyLen) ↔
    new.maxKeyLen = old.maxKeyLen := by
  constructor
  · intro h
    have hle : old.maxKeyLen ≤ new.maxKeyLen := by
      rcases hold.attains with h0 | ⟨e, he, hput, hlen⟩
      · omega
      · rw [← hlen]
        exact hnew.counts.key_le e (List.mem_append_left _ he) hput
    rcases hnew.attains with h0 | ⟨e, he, hput, hlen⟩
    · omega
    · have := h e he hput
      omega
  · intro h e he hput
    rw [← h]
    exact hnew.counts.key_le e he hput

theorem value_le_iff : (∀ e ∈ shown ++ added, e.type = .put → e.value.length ≤ old.maxValueLen) ↔
    new.maxValueLen = old.maxValueLen := by
  constructor
  · intro h
    have hle : old.maxValueLen ≤ new.maxValueLen := by
      rcases hold.attainsValue with h0 | ⟨e, he, hput, hlen⟩
      · omega
      · rw [← hlen]
        exact hnew.counts.value_le e (List.mem_append_left _ he) hput
    rcases hnew.attainsValue with h0 | ⟨e, he, hput, hlen⟩
    · omega
    · have := h e he hput
      omega
  · intro h e he hput
    rw [← h]
    exact hnew.counts.value_le e he hput

theorem maxKeyLen_torn_iff (j : Nat) :
    (∀ e ∈ (if 6 < j then shown ++ added else shown), e.type = .put →
      e.key.length ≤ (new.torn old j).maxKeyLen) ↔ (j = 7 → new.maxKeyLen = old.maxKeyLen) := by
  have hmax : (new.torn old j).maxKeyLen = if 7 < j then new.maxKeyLen else old.maxKeyLen := rfl
  rw [hmax]
  by_cases h6 : 6 < j
  · rw [if_pos h6]
    by_cases h7 : 7 < j
    · rw [if_pos h7]
      exact iff_of_true hnew.counts.key_le (by omega)
    · rw [if_neg h7, key_le_iff hold hnew]
      exact ⟨fun h _ => h, fun h => h (by omega)⟩
  · rw [if_neg h6, if_neg (by omega)]
    exact iff_of_true hold.counts.key_le (by omega)

theorem maxValueLen_torn_iff (j : Nat) :
    (∀ e ∈ (if 6 < j then shown ++ added else shown), e.type = .put →
      e.value.length ≤ (new.torn old j).maxValueLen) ↔
    (j = 7 ∨ j = 8 → new.maxValueLen = old.maxValueLen) := by
  have hmax : (new.torn old j).maxValueLen = if 8 < j then new.maxValueLen else old.maxValueLen := rfl
  rw [hmax]
  by_cases h6 : 6 < j
  · rw [if_pos h6]
    by_cases h8 : 8 < j
    · rw [if_pos h8]
      exact iff_of_true hnew.counts.value_le (by omega)
    · rw [if_neg h8, value_le_iff hold hnew]
      exact ⟨fun h _ => h, fun h => h (by omega)⟩
  · rw [if_neg h6, if_neg (by omega)]
    exact iff_of_true hold.counts.value_le (by omega)

end Windows

/-- **What a header tells at any moment**, of which `j` fields are new.  It tells the old end as long
as `j ≤ 6`.  Then the counts are wrong from the fifth and the sixth field on, unless there is nothing to
count; and behind the new end the maxima are too small up to the eighth and the ninth field, unless
they are as they were.  If the counts are above the end, the log cannot be opened. -/
theorem right_iff_of_stopped (h : Sessions t n false shown added w) (hz : (Setting.of t n).Lossless)
    (hstop : Stopped w file) : ∃ old new : Logheader, ∃ j < 14, old.dataEnd = w.header.dataEnd ∧
      w.header.Next new ∧ old.Right shown ∧ new.Right (shown ++ added) ∧
      loadLogheader (some file) = (if (new.torn old j).dataEnd < (new.torn old j).numPuts ∨
        (new.torn old j).dataEnd < (new.torn old j).numDeletes then .error .logHeaderCorrupt
        else .ok (new.torn old j)) ∧
      ∀ log, logreaderOpen (some file) = .ok log → log.header = new.torn old j ∧
        ∃ items es, log.Holds items ∧
        items.map Item.val = es ∧ es = (if 6 < j then shown ++ added else shown) ∧
        (log.header.numPuts = u64 (countPuts es) ↔ (j = 5 ∨ j = 6 → new.numPuts = old.numPuts)) ∧
        (log.header.numDeletes = u64 (countDeletes es) ↔ (j = 6 → new.numDeletes = old.numDeletes)) ∧
        ((∀ e ∈ es, e.type = .put → e.key.length ≤ log.header.maxKeyLen) ↔
          (j = 7 → new.maxKeyLen = old.maxKeyLen)) ∧
        ((∀ e ∈ es, e.type = .put → e.value.length ≤ log.header.maxValueLen) ↔
          (j = 7 ∨ j = 8 → new.maxValueLen = old.maxValueLen)) := by
  obtain ⟨calls, old, hw, hentries, hl, hold⟩ := writing_of_sessions h rfl
  obtain ⟨new, j, hj, hnext, hearly, hlate⟩ := hl.holding hstop
  have hnew : new.Right (shown ++ added) := by
    rw [← hentries]
    exact (right_of_writing hw).next hnext
  have hend : old.dataEnd = w.header.dataEnd := by
    obtain ⟨v, ⟨fd, hfd, rfl⟩, hs⟩ := hl
    exact hs.dataEnd_eq
  have hholding : Holding (.of t n) (if 6 < j then shown ++ added else shown) (new.torn old j) file := by
    by_cases hj6 : 6 < j
    · rw [if_pos hj6]
      exact hlate hj6
    · rw [if_neg hj6]
      exact hearly ((if_neg hj6).trans hend)
  refine ⟨old, new, j, hj, hend, hnext, hold, hnew, hholding.loadLogheader, fun log hopen => ?_⟩
  obtain ⟨hheader, items, hitems, hvals⟩ := hholding.holds hz hopen
  refine ⟨hheader, items, _, hitems, hvals, rfl, ?_⟩
  rw [hheader]
  exact ⟨numPuts_torn_iff hold hnew j, numDeletes_torn_iff hold hnew j, maxKeyLen_torn_iff hold hnew j,
    maxValueLen_torn_iff hold hnew j⟩

def cutFlush (env : WriterEnv) : Option (Logwriter × (Returncode × Logwriter)) :=
  (logwriterCreate env .none 0).toOption.bind fun w₀ =>
  (success? ((logwriterAdd (.put (.of [1]) (.of [2, 3]))).run w₀)).bind fun w₁ =>
  (stopped? (logwriterFlush.run w₁)).map fun w₂ => (w₁, w₂)

omit [Compressors] in
/-- Behind the end of the data, the header still promises keys without a byte. -/
theorem right_iff_of_stopped_sample :
    letI := literalCompressors
    ∃ (log : Logreader) (items : List (Item Entry)), log.Holds items ∧
      items.map Item.val = [.put (.of [1]) (.of [2, 3])] ∧ log.header.numPuts = 1 ∧
      log.header.maxKeyLen = 0 := by
  let := literalCompressors
  have hfacts : (cutFlush ⟨some 7, List.replicate 22 (.wrote 99) ++ [.failed .enospc], []⟩).map (fun r =>
      (logreaderOpen (some r.2.2.fd.data)).toOption.map fun log =>
        (decide (log.header.dataEnd = r.1.header.dataEnd), log.header.maxKeyLen))
      = some (some (false, 0)) := by
    decide +kernel
  obtain ⟨r, hr, hopen⟩ := Option.map_eq_some_iff.mp hfacts
  obtain ⟨log, hlog, hfacts⟩ := Option.map_eq_some_iff.mp hopen
  simp only [Prod.mk.injEq] at hfacts
  simp only [cutFlush, Option.bind_eq_some_iff, Option.map_eq_some_iff] at hr
  obtain ⟨w₀, h₀, w₁, h₁, ⟨code, w₂⟩, h₂, rfl⟩ := hr
  have hs := Sessions.add _ (fun h => absurd h (by decide)) (.create (t := .none) (by decide) (by decide)
    (ok_of_toOption h₀)) (success?_eq_some h₁)
  have hplain : (Setting.of .none 0).Lossless := fun h => absurd h (by decide)
  obtain ⟨old, new, j, hj, hend, -, hold, -, -, hall⟩ := right_iff_of_stopped hs hplain
    (.within (c := .flush) (stopped?_eq_some h₂))
  obtain ⟨hheader, items, es, hitems, hvals, hes, hputs, -⟩ := hall log (ok_of_toOption hlog)
  -- the end is new
  have hj6 : 6 < j := by
    by_contra h6
    refine of_decide_eq_false hfacts.1 ?_
    rw [hheader, ← hend]
    exact if_neg h6
  rw [if_pos hj6] at hes
  refine ⟨log, items, hitems, hvals.trans hes, ?_, hfacts.2⟩
  rw [hputs.mpr (by omega), hes]
  rfl

end Sparkey
