import Sparkey.Writer.Behind

/-!
# A header that is written over

`write_logheader` has a `write` for each of the fourteen fields.  A flush that is cut off
between two of them leaves a header whose first fields are new and whose last ones are
old (`Logheader.torn`).  The place where the data end is the seventh field: the entry
counts are in front of it, everything else is behind.
-/

namespace Sparkey

open Program

/-! ### The fields -/

def Logheader.fields (header : Logheader) : List (List UInt8) :=
  [writeLittleEndian 4 logMagicNumber, writeLittleEndian 4 logMajorVersion,
    writeLittleEndian 4 logMinorVersion, writeLittleEndian 4 header.fileIdentifier,
    writeLittleEndian 8 header.numPuts, writeLittleEndian 8 header.numDeletes,
    writeLittleEndian 8 header.dataEnd, writeLittleEndian 8 header.maxKeyLen,
    writeLittleEndian 8 header.maxValueLen, writeLittleEndian 8 header.deleteSize,
    writeLittleEndian 4 header.compressionType.toNat,
    writeLittleEndian 4 header.compressionBlockSize, writeLittleEndian 8 header.putSize,
    writeLittleEndian 4 header.maxEntriesPerBlock]

def fieldLengths : List Nat := [4, 4, 4, 4, 8, 8, 8, 8, 8, 8, 4, 4, 8, 4]

theorem Logheader.flatten_fields (header : Logheader) : header.fields.flatten = header.bytes := by
  simp only [fields, bytes, List.flatten_cons, List.flatten_nil, List.append_nil]

theorem Logheader.length_fields (header : Logheader) : header.fields.map List.length = fieldLengths := by
  simp only [fields, fieldLengths, List.map_cons, List.map_nil, length_writeLittleEndian]

theorem Logheader.length_le_of_mem_fields {header : Logheader} {field : List UInt8}
    (h : field ∈ header.fields) : field.length ≤ 8 := by
  have hmem : field.length ∈ fieldLengths := by
    rw [← header.length_fields]
    exact List.mem_map_of_mem h
  have hall : ∀ n ∈ fieldLengths, n ≤ 8 := by decide
  exact hall _ hmem

theorem Logheader.length_take_fields (header header' : Logheader) (j : Nat) :
    (header.fields.take j).flatten.length = (header'.fields.take j).flatten.length := by
  rw [List.length_flatten, List.length_flatten, List.map_take, List.map_take, header.length_fields,
    header'.length_fields]

/-! ### Torn headers -/

/-- The header with the first `j` fields of `new` and the others of `old`. -/
def Logheader.torn (new old : Logheader) (j : Nat) : Logheader where
  majorVersion := if 1 < j then new.majorVersion else old.majorVersion
  minorVersion := if 2 < j then new.minorVersion else old.minorVersion
  fileIdentifier := if 3 < j then new.fileIdentifier else old.fileIdentifier
  numPuts := if 4 < j then new.numPuts else old.numPuts
  numDeletes := if 5 < j then new.numDeletes else old.numDeletes
  dataEnd := if 6 < j then new.dataEnd else old.dataEnd
  maxKeyLen := if 7 < j then new.maxKeyLen else old.maxKeyLen
  maxValueLen := if 8 < j then new.maxValueLen else old.maxValueLen
  deleteSize := if 9 < j then new.deleteSize else old.deleteSize
  compressionType := if 10 < j then new.compressionType else old.compressionType
  compressionBlockSize := if 11 < j then new.compressionBlockSize else old.compressionBlockSize
  putSize := if 12 < j then new.putSize else old.putSize
  headerSize := old.headerSize
  maxEntriesPerBlock := if 13 < j then new.maxEntriesPerBlock else old.maxEntriesPerBlock

variable {new old : Logheader}

theorem Logheader.fields_torn (new old : Logheader) {j : Nat} (hj : j ≤ 14) :
    (new.torn old j).fields = new.fields.take j ++ old.fields.drop j := by
  interval_cases j <;> rfl

theorem splice_fields (new old : Logheader) {j : Nat} (hj : j ≤ 14) (rest : List UInt8) :
    splice (old.bytes ++ rest) 0 (new.fields.take j).flatten = (new.torn old j).bytes ++ rest := by
  have hold : old.bytes = (old.fields.take j).flatten ++ (old.fields.drop j).flatten := by
    rw [← List.flatten_append, List.take_append_drop, old.flatten_fields]
  have htorn : (new.torn old j).bytes = (new.fields.take j).flatten ++ (old.fields.drop j).flatten := by
    rw [← Logheader.flatten_fields, Logheader.fields_torn new old hj, List.flatten_append]
  rw [hold, htorn]
  have hsplice := splice_append [] (old.fields.take j).flatten ((old.fields.drop j).flatten ++ rest)
    (new.fields.take j).flatten (Logheader.length_take_fields old new j)
  simpa only [List.nil_append, List.append_assoc, List.length_nil] using hsplice

theorem Logheader.Fits.torn (hnew : new.Fits) (hold : old.Fits) (j : Nat) : (new.torn old j).Fits := by
  have hite : ∀ {c : Prop} [Decidable c] {a b m : Nat}, a < m → b < m → (if c then a else b) < m := by
    intro c _ a b m ha hb
    split_ifs
    · exact ha
    · exact hb
  exact ⟨hite hnew.1 hold.1, hite hnew.2 hold.2, hite hnew.3 hold.3, hite hnew.4 hold.4,
    hite hnew.5 hold.5, hite hnew.6 hold.6, hite hnew.7 hold.7, hite hnew.8 hold.8,
    hite hnew.9 hold.9, hite hnew.10 hold.10⟩

theorem Logheader.Current.torn (hnew : new.Current) (hold : old.Current) (j : Nat) :
    (new.torn old j).Current := by
  refine ⟨?_, ?_, hold.headerSize⟩
  · show (if _ then _ else _) = _
    rw [hnew.majorVersion, hold.majorVersion, ite_self]
  · show (if _ then _ else _) = _
    rw [hnew.minorVersion, hold.minorVersion, ite_self]

theorem Logheader.setting_torn (h : new.setting = old.setting) (j : Nat) :
    (new.torn old j).setting = old.setting := by
  have ht : new.compressionType = old.compressionType := congrArg Setting.compressionType h
  have hn : new.compressionBlockSize = old.compressionBlockSize :=
    congrArg Setting.compressionBlockSize h
  simp only [setting, torn, ht, hn, ite_self]

/-! ### Writing field by field -/

def writeAll : List (List UInt8) → Run File Unit
  | [] => pure ()
  | part :: parts => do
    writeFull part
    writeAll parts

theorem writeLogheader_eq (header : Logheader) : writeLogheader header = writeAll header.fields := by
  simp only [writeLogheader, fwriteLittleEndian, writeAll, Logheader.fields, bind_pure_unit]

def PutWhole (f : File) (part : List UInt8) : EStateM.Result (Program.Stop Returncode) File Unit → Prop
  | .ok _ f' => ∃ w, f' = { f.put part with writes := w } ∧ ∀ r ∈ w, r.Whole
  | .error e f' => ∃ code w, e = .rc code ∧ f' = { f with writes := w }

theorem putWhole_writeFullLoop {part : List UInt8} (hlen : part.length ≤ 8) : ∀ (fuel : Nat) {f : File},
    f.writes.length + 2 ≤ fuel → f.offset + part.length ≤ maxFileSize → (∀ r ∈ f.writes, r.Whole) →
    PutWhole f part ((writeFullLoop fuel part).run f) := by
  intro fuel
  induction fuel with
  | zero =>
    intro f hf
    omega
  | succ fuel ih =>
    intro f hf hroom hwhole
    rw [writeFullLoop, run_ite]
    by_cases hpart : part = []
    · rw [if_pos hpart, hpart]
      exact ⟨f.writes, by rw [File.put_nil], hwhole⟩
    rw [if_neg hpart]
    have hpos : 0 < part.length := List.length_pos_iff.mpr hpart
    have hne : maxFileSize - f.offset ≠ 0 := by omega
    -- a round that takes everything is the last but one
    have hdone : ∀ (w : List WriteResult), (∀ r ∈ w, r.Whole) → w.length + 1 ≤ fuel →
        PutWhole f part
          ((writeFullLoop fuel (part.drop part.length)).run { f.put part with writes := w }) := by
      intro w hw hfuel
      obtain ⟨fuel, rfl⟩ := Nat.exists_eq_succ_of_ne_zero (by omega : fuel ≠ 0)
      rw [List.drop_length, writeFullLoop, run_ite, if_pos rfl]
      exact ⟨w, rfl, hw⟩
    have hmin : min (maxFileSize - f.offset) part.length = part.length := by omega
    cases hw : f.writes with
    | nil =>
      obtain ⟨n, hn, hrun⟩ := run_write_nil hne hw part
      rw [hmin] at hn
      rw [run_bind_ok hrun, hn, List.take_length]
      have := hdone [] (List.forall_mem_nil _) (by simp; omega)
      rwa [← hw] at this
    | cons r rest =>
      rw [hw] at hf hwhole
      have hrest : ∀ r ∈ rest, r.Whole := fun r hr => hwhole r (List.mem_cons_of_mem _ hr)
      rw [List.length_cons] at hf
      cases r with
      | wrote k =>
        have hk : 8 ≤ k + 1 := hwhole _ List.mem_cons_self
        have hrun : (write part).run f = .ok (.ok part.length) { f.put part with writes := rest } := by
          simp only [write, EStateM.run_bind, EStateM.run_get, if_neg hne, hw, EStateM.run_set,
            EStateM.run_pure]
          rw [hmin, Nat.min_eq_right (by omega), List.take_length]
          rfl
        rw [run_bind_ok hrun]
        exact hdone rest hrest (by omega)
      | failed e =>
        rw [run_bind_ok (run_write_failed hne hw part)]
        have hagain : PutWhole f part ((writeFullLoop fuel part).run { f with writes := rest }) := by
          have h := ih (f := { f with writes := rest }) (by show rest.length + 2 ≤ fuel; omega) hroom hrest
          revert h
          generalize (writeFullLoop fuel part).run { f with writes := rest } = r
          intro h
          cases r with
          | ok u f' => exact h
          | error e f' => exact h
        cases e with
        | eintr => exact hagain
        | eagain => exact hagain
        | enospc => exact ⟨_, rest, rfl, rfl⟩
        | efbig => exact ⟨_, rest, rfl, rfl⟩
        | ebadf => exact ⟨_, rest, rfl, rfl⟩
        | other => exact ⟨_, rest, rfl, rfl⟩

theorem putWhole_writeFull {part : List UInt8} {f : File} (hlen : part.length ≤ 8)
    (hroom : f.offset + part.length ≤ maxFileSize) (hwhole : ∀ r ∈ f.writes, r.Whole) :
    PutWhole f part ((writeFull part).run f) := by
  have hruns : part.length / writeBlockSize = 0 :=
    Nat.div_eq_of_lt (Nat.lt_of_le_of_lt hlen (by decide))
  rw [writeFull, hruns]
  exact putWhole_writeFullLoop hlen _ (Nat.le_refl _) hroom hwhole

/-- **Writing part by part** is cut off between two parts. -/
theorem error_writeAll : ∀ {parts : List (List UInt8)} {f f' : File} {e : Program.Stop Returncode},
    (∀ part ∈ parts, part.length ≤ 8) → f.offset + parts.flatten.length ≤ maxFileSize →
    (∀ r ∈ f.writes, r.Whole) → (writeAll parts).run f = .error e f' →
    ∃ j code w, j < parts.length ∧ e = .rc code ∧
      f' = { f.put (parts.take j).flatten with writes := w } := by
  intro parts
  induction parts with
  | nil =>
    intro f f' e _ _ _ h
    cases h
  | cons part parts ih =>
    intro f f' e hlen hroom hwhole h
    rw [List.flatten_cons, List.length_append] at hroom
    have hpart := putWhole_writeFull (hlen part List.mem_cons_self) (by omega) hwhole
    rcases error_bind h with h | ⟨_, f₁, h₁, h⟩
    · rw [h] at hpart
      obtain ⟨code, w, rfl, rfl⟩ := hpart
      exact ⟨0, code, w, Nat.succ_pos _, rfl, by rw [List.take_zero, List.flatten_nil, File.put_nil]⟩
    · rw [h₁] at hpart
      obtain ⟨w, rfl, hw⟩ := hpart
      obtain ⟨j, code, w', hj, rfl, rfl⟩ := ih (fun p hp => hlen p (List.mem_cons_of_mem _ hp))
        (by show f.offset + part.length + parts.flatten.length ≤ maxFileSize; omega) hw h
      refine ⟨j + 1, code, w', Nat.succ_lt_succ hj, rfl, ?_⟩
      rw [List.take_succ_cons, List.flatten_cons, ← File.put_put]
      rfl

/-- **A header that is cut off** while it is written over another one. -/
theorem error_writeLogheader {f f' : File} {e : Program.Stop Returncode} {rest : List UInt8}
    (hdata : f.data = old.bytes ++ rest) (hoff : f.offset = 0) (hwhole : ∀ r ∈ f.writes, r.Whole)
    (h : (writeLogheader new).run f = .error e f') :
    ∃ j code, j < 14 ∧ e = .rc code ∧ f'.data = (new.torn old j).bytes ++ rest := by
  rw [writeLogheader_eq] at h
  obtain ⟨j, code, w, hj, rfl, rfl⟩ := error_writeAll (fun _ => Logheader.length_le_of_mem_fields)
    (by rw [hoff, new.flatten_fields, new.length_bytes]; decide) hwhole h
  have hj' : j < 14 := hj
  refine ⟨j, code, hj', rfl, ?_⟩
  show splice f.data f.offset _ = _
  rw [hdata, hoff, splice_fields new old (Nat.le_of_lt hj')]

end Sparkey
