import Sparkey.Writer.History

/-!
# A log that grows

`Going log calls log'` says that the calls all succeeded and led from one writer to
the other.  The bytes that were in the log stay where they are, and what the header
tells of the log only grows.
-/

namespace Sparkey

open Program BlockStream

variable [Compressors] {log log' log'' : Logwriter} {s : Setting} {es : List Entry}
  {calls more : List Call} {c : Call} {t : CompressionType} {n : Nat}

inductive Done : Call → Logwriter → Logwriter → Prop
  | add {log log' : Logwriter} (e : Entry) : (logwriterAdd e).run log = .ok () log' →
      Done (.add e) log log'
  | flush {log log' : Logwriter} : logwriterFlush.run log = .ok () log' → Done .flush log log'
  | reopen {log log' log'' : Logwriter} {env : WriterEnv} : logwriterClose.run log = .ok () log' →
      logwriterAppend env (some log'.fd.data) = .ok log'' → Done .reopen log log''

/-- Calls that all succeeded, one after the other. -/
inductive Going (log : Logwriter) : List Call → Logwriter → Prop
  | refl : Going log [] log
  | call {calls : List Call} {c : Call} {log₁ log₂ : Logwriter} : Going log calls log₁ →
      Done c log₁ log₂ → Going log (calls ++ [c]) log₂

theorem Going.one (h : Done c log log') : Going log [c] log' := Going.refl.call h

theorem Going.trans (h : Going log calls log') (h' : Going log' more log'') :
    Going log (calls ++ more) log'' := by
  induction h' with
  | refl => rwa [List.append_nil]
  | call _ hc ih =>
    rw [← List.append_assoc]
    exact ih.call hc

theorem Writing.done (hw : Writing t n calls log) (h : Done c log log') :
    Writing t n (calls ++ [c]) log' := by
  cases h with
  | add e h => exact .add e hw h
  | flush h => exact .flush hw h
  | reopen hclose happend => exact .reopen hw hclose happend

theorem Writing.going (hw : Writing t n calls log) (h : Going log more log') :
    Writing t n (calls ++ more) log' := by
  induction h with
  | refl => rwa [List.append_nil]
  | call _ hc ih =>
    rw [← List.append_assoc]
    exact ih.done hc

theorem done_of_perform {env : WriterEnv} (h : log.perform env c = some log') : Done c log log' := by
  cases c <;> simp only [Logwriter.perform] at h <;> split at h <;> try cases h
  · rename_i hr
    exact .add _ hr
  · rename_i hr
    exact .flush hr
  · rename_i hr
    exact .reopen hr (ok_of_toOption h)

theorem going_of_perform {env : WriterEnv} : ∀ {calls : List Call} {log : Logwriter},
    calls.foldlM (Logwriter.perform env) log = some log' → Going log calls log' := by
  intro calls
  induction calls with
  | nil =>
    intro log h
    cases h
    exact .refl
  | cons c calls ih =>
    intro log h
    rw [List.foldlM_cons] at h
    obtain ⟨log₁, h₁, h⟩ := Option.bind_eq_some_iff.mp h
    exact (Going.one (done_of_perform h₁)).trans (ih h)

omit [Compressors] in
theorem entriesOf_append_calls (calls more : List Call) :
    entriesOf (calls ++ more) = entriesOf calls ++ entriesOf more := List.filterMap_append ..

/-! ### The header -/

omit [Compressors] in
structure Logheader.Grows (header header' : Logheader) : Prop where
  fileIdentifier : header'.fileIdentifier = header.fileIdentifier
  maxKeyLen : header.maxKeyLen ≤ header'.maxKeyLen
  maxValueLen : header.maxValueLen ≤ header'.maxValueLen

omit [Compressors] in
theorem Logheader.Grows.refl (header : Logheader) : header.Grows header :=
  ⟨rfl, Nat.le_refl _, Nat.le_refl _⟩

omit [Compressors] in
theorem Logheader.Grows.trans {header header' header'' : Logheader} (h : header.Grows header')
    (h' : header'.Grows header'') : header.Grows header'' :=
  ⟨h'.fileIdentifier.trans h.fileIdentifier, Nat.le_trans h.maxKeyLen h'.maxKeyLen,
    Nat.le_trans h.maxValueLen h'.maxValueLen⟩

omit [Compressors] in
theorem Logheader.grows_count (header : Logheader) (e : Entry) (m : Nat) :
    header.Grows (header.count e m) := by
  cases e with
  | put key value => exact ⟨rfl, Nat.le_max_left _ _, Nat.le_max_left _ _⟩
  | delete key => exact ⟨rfl, Nat.le_refl _, Nat.le_refl _⟩

/-- **A call keeps what holds of a writer**, and does to the packing what it says. -/
theorem Kept.done (hk : Kept s es log) (h : Done c log log') :
    Kept s (es ++ c.entry?.toList) log' ∧ log.packing.call s c = some log'.packing ∧
      log.header.Grows log'.header := by
  cases h with
  | add e h =>
    obtain ⟨hk', hp⟩ := hk.add h
    obtain ⟨p, log₁, -, hs, rfl⟩ := ok_logwriterAdd hk.writable h
    refine ⟨hk', hp, Logheader.Grows.trans ?_ (Logheader.grows_count _ e _)⟩
    rw [hs.header]
    exact ⟨rfl, Nat.le_refl _, Nat.le_refl _⟩
  | flush h =>
    obtain ⟨hk', -, hp⟩ := hk.flush h
    obtain ⟨-, -, -, -, hheader, -⟩ := ok_logwriterFlush hk.writable h
    refine ⟨by rwa [Call.entry?, Option.toList_none, List.append_nil], hp, ?_⟩
    rw [hheader]
    exact ⟨rfl, Nat.le_refl _, Nat.le_refl _⟩
  | reopen hclose happend =>
    obtain ⟨log₁, hflush, rfl⟩ := ok_logwriterClose hk.writable hclose
    obtain ⟨hk₁, hf₁, hp₁⟩ := hk.flush hflush
    obtain ⟨-, -, -, -, hheader, -⟩ := ok_logwriterFlush hk.writable hflush
    obtain ⟨hk', hp'⟩ := ok_logwriterAppend hk₁ hf₁ happend
    refine ⟨by rwa [Call.entry?, Option.toList_none, List.append_nil], ?_, ?_⟩
    · rw [Packing.call, hp₁, Option.map_some, hp']
    · cases logwriterAppend_eq hk₁ hf₁ happend
      show log.header.Grows log₁.header
      rw [hheader]
      exact ⟨rfl, Nat.le_refl _, Nat.le_refl _⟩

theorem Kept.going (hk : Kept s es log) (h : Going log calls log') :
    Kept s (es ++ entriesOf calls) log' ∧ log.packing.calls s calls = some log'.packing ∧
      log.header.Grows log'.header := by
  induction h with
  | refl => exact ⟨by rwa [entriesOf, List.filterMap_nil, List.append_nil], rfl, .refl _⟩
  | call _ hc ih =>
    obtain ⟨hk₁, hp₁, hg₁⟩ := ih
    obtain ⟨hk₂, hp₂, hg₂⟩ := hk₁.done hc
    refine ⟨?_, ?_, hg₁.trans hg₂⟩
    · rwa [entriesOf_append, ← List.append_assoc]
    · rw [Packing.calls_append, hp₁, Option.bind_some, Packing.calls_cons, hp₂]
      rfl

/-! ### Nothing new -/

/-- **A flush with nothing new** leaves the header as it is. -/
theorem Flushed.header_flush (hk : Kept s es log) (hf : Flushed log)
    (h : logwriterFlush.run log = .ok () log') : log'.header = log.header := by
  obtain ⟨p, hp, -, hpack, hheader, hdata, hend, -⟩ := ok_logwriterFlush hk.writable h
  have hsame : p = log.packing := by
    rw [Packing.flush, hf.block, List.length_nil, if_neg (Nat.lt_irrefl 0)] at hp
    exact (Option.some.inj hp).symm
  have hpack : log'.packing = log.packing := hpack.trans hsame
  have hmax : log'.header.maxEntriesPerBlock = log.header.maxEntriesPerBlock :=
    congrArg Packing.maxEntriesPerBlock hpack
  have hlen : log'.header.dataEnd = log.header.dataEnd := by
    rw [hend, hf.dataEnd, hdata, hf.data, hpack, List.length_append, List.length_append,
      Logheader.length_bytes, Logheader.length_bytes]
  rw [hheader, hmax, hlen]

/-- **Calls that add no entry** leave the header as it is, too. -/
theorem Kept.idle (hk : Kept s es log) (hf : Flushed log) (h : Going log calls log')
    (hidle : entriesOf calls = []) : Flushed log' ∧ log'.header = log.header := by
  induction h with
  | refl => exact ⟨hf, rfl⟩
  | call hgo hdone ih =>
    rename_i calls c log₁ log₂
    rw [entriesOf_append, List.append_eq_nil_iff] at hidle
    obtain ⟨hf₁, hheader₁⟩ := ih hidle.1
    have hk₁ := (hk.going hgo).1
    cases hdone with
    | add e h => cases hidle.2
    | flush h =>
      exact ⟨(hk₁.flush h).2.1, (hf₁.header_flush hk₁ h).trans hheader₁⟩
    | reopen hclose happend =>
      obtain ⟨log₃, hflush, rfl⟩ := ok_logwriterClose hk₁.writable hclose
      obtain ⟨hk₃, hf₃, -⟩ := hk₁.flush hflush
      have hheader := (hf₁.header_flush hk₁ hflush).trans hheader₁
      cases logwriterAppend_eq hk₃ hf₃ happend
      refine ⟨⟨?_, rfl, hf₃.dataEnd, hf₃.dataEnd_lt⟩, hheader⟩
      have hbuf : log₃.fd.data.drop logHeaderSize = log₃.packing.out := by
        rw [hf₃.data, ← log₃.header.length_bytes, List.drop_left]
      show log₃.fd.data = log₃.header.bytes ++ (log₃.fd.data ++ ([] : List UInt8)).drop logHeaderSize
      rw [List.append_nil, hbuf]
      exact hf₃.data

end Sparkey
