import Sparkey.Writer.History

/-!
# What lies behind the end

A session that was cut off leaves bytes behind the end that the header tells, and the
next session writes over them.  A writer never looks at what is there: its calls do the
same as on a file that ends where the writer does (`respects_logwriterAdd`,
`respects_logwriterFlush`).

The relation tells two more things that every call keeps.  What is in `front` of the
offset stays in the file, and no answer of the system cuts a field of a header.
-/

namespace Sparkey

open Program

/-- A `write` that takes anything takes eight bytes, or all it is given. -/
def WriteResult.Whole : WriteResult → Prop
  | .wrote n => 8 ≤ n + 1
  | .failed _ => True

instance (r : WriteResult) : Decidable r.Whole := by
  unfold WriteResult.Whole
  cases r <;> infer_instance

/-- The file `g` is the file `f` with more bytes behind.  Both go on with the same answers at the
same place, in front of which there are the bytes `front`, and the file has `n` bytes or more. -/
structure File.Behind (front : List UInt8) (n : Nat) (f g : File) : Prop where
  data : f.data <+: g.data
  offset : g.offset = f.offset
  writes : g.writes = f.writes
  offset_le : f.offset ≤ f.data.length
  prefix_data : front <+: f.data
  front_le : front.length ≤ f.offset
  length : n ≤ f.data.length
  whole : ∀ r ∈ f.writes, r.Whole

variable {front : List UInt8} {n : Nat} {f g : File}

theorem AtEnd.behind (h : AtEnd f) (hfront : front <+: f.data) (hn : n ≤ f.data.length)
    (hwhole : ∀ r ∈ f.writes, r.Whole) : f.Behind front n f :=
  ⟨List.prefix_refl _, rfl, rfl, Nat.le_of_eq h.offset, hfront, h.offset ▸ hfront.length_le, hn, hwhole⟩

/-- Bytes that are written inside a file do not depend on what is behind it. -/
theorem prefix_splice {data more : List UInt8} (h : data <+: more) {offset : Nat}
    (hle : offset ≤ data.length) (bytes : List UInt8) :
    splice data offset bytes <+: splice more offset bytes := by
  obtain ⟨rest, rfl⟩ := h
  unfold splice
  split_ifs with hb
  · exact List.prefix_append _ _
  · have hmore : offset - (data ++ rest).length = 0 := by
      rw [List.length_append]
      omega
    rw [List.take_append_of_le_length hle, Nat.sub_eq_zero_of_le hle, hmore,
      List.prefix_append_right_inj]
    exact (List.prefix_append data rest).drop _

theorem prefix_splice_of_le {data : List UInt8} (hfront : front <+: data) {offset : Nat}
    (hle : front.length ≤ offset) (bytes : List UInt8) : front <+: splice data offset bytes := by
  obtain ⟨rest, rfl⟩ := hfront
  unfold splice
  split_ifs with hb
  · exact List.prefix_append _ _
  · rw [List.take_append, List.take_of_length_le hle, List.append_assoc, List.append_assoc,
      List.append_assoc]
    exact List.prefix_append _ _

theorem File.Behind.put (h : f.Behind front n g) (buf : List UInt8) {w : List WriteResult}
    (hw : ∀ r ∈ w, r.Whole) :
    File.Behind front n { f.put buf with writes := w } { g.put buf with writes := w } := by
  have hlen := length_splice f.data buf h.offset_le
  have hle := h.length
  have hfront := h.front_le
  refine ⟨?_, ?_, rfl, ?_, prefix_splice_of_le h.prefix_data h.front_le buf, ?_, ?_, hw⟩
  · show splice f.data f.offset buf <+: splice g.data g.offset buf
    rw [h.offset]
    exact prefix_splice h.data h.offset_le buf
  · show g.offset + _ = f.offset + _
    rw [h.offset]
  · show f.offset + buf.length ≤ (splice f.data f.offset buf).length
    omega
  · show front.length ≤ f.offset + buf.length
    omega
  · show n ≤ (splice f.data f.offset buf).length
    omega

theorem File.Behind.seek (h : f.Behind front n g) {offset : Nat} {front' : List UInt8}
    (hle : offset ≤ n) (hfront : front' <+: front) (hle' : front'.length ≤ offset) :
    (f.seek offset).Behind front' n (g.seek offset) :=
  ⟨h.data, rfl, h.writes, Nat.le_trans hle h.length, hfront.trans h.prefix_data, hle', h.length, h.whole⟩

/-! ### Writing -/

theorem respects_write (buf : List UInt8) : Respects (File.Behind front n) (write buf) := by
  rintro ⟨data, offset, writes⟩ ⟨more, offset', writes'⟩ h
  obtain rfl : offset' = offset := h.offset
  obtain rfl : writes' = writes := h.writes
  simp only [write, EStateM.run_bind, EStateM.run_get]
  by_cases hroom : maxFileSize - offset' = 0
  · simp only [if_pos hroom]
    exact ⟨rfl, h⟩
  · simp only [if_neg hroom]
    have hwhole := h.whole
    cases writes' with
    | nil => exact ⟨rfl, h.put _ hwhole⟩
    | cons r rest =>
      have hrest : ∀ r ∈ rest, r.Whole := fun r hr => hwhole r (List.mem_cons_of_mem _ hr)
      cases r with
      | wrote k => exact ⟨rfl, h.put _ hrest⟩
      | failed e =>
        have hput := h.put [] hrest
        rw [File.put_nil, File.put_nil] at hput
        exact ⟨rfl, hput⟩

theorem respects_writeFullLoop : ∀ (fuel : Nat) (buf : List UInt8),
    Respects (File.Behind front n) (writeFullLoop fuel buf) := by
  intro fuel
  induction fuel with
  | zero => exact fun _ => respects_stuck
  | succ fuel ih =>
    intro buf
    rw [writeFullLoop]
    refine (respects_pure _).ite ((respects_write buf).bind fun r => ?_)
    cases r with
    | ok count => exact ih _
    | error e =>
      cases e with
      | eintr => exact ih _
      | eagain => exact ih _
      | enospc => exact respects_fail _
      | efbig => exact respects_fail _
      | ebadf => exact respects_fail _
      | other => exact respects_fail _

theorem respects_writeFull' (buf : List UInt8) : Respects (File.Behind front n) (writeFull' buf) := by
  intro f g h
  rw [writeFull', run_get_bind, run_get_bind, h.writes]
  exact respects_writeFullLoop _ buf f g h

theorem respects_writeFullruns : ∀ (runs : Nat) (buf : List UInt8),
    Respects (File.Behind front n) (writeFullruns runs buf) := by
  intro runs
  induction runs with
  | zero => exact fun _ => respects_pure _
  | succ runs ih => exact fun buf => (respects_writeFull' _).bind fun _ => ih _

theorem respects_writeFull (buf : List UInt8) : Respects (File.Behind front n) (writeFull buf) :=
  (respects_writeFullruns _ buf).bind respects_writeFull'

theorem respects_writeLogheader (header : Logheader) :
    Respects (File.Behind front n) (writeLogheader header) := by
  unfold writeLogheader
  repeat' refine Respects.bind (respects_writeFull _) fun _ => ?_
  exact respects_writeFull _

/-! ### The file buffer -/

abbrev BufBehind (front : List UInt8) (n : Nat) (s t : Buf × File) : Prop :=
  s.1 = t.1 ∧ s.2.Behind front n t.2

theorem respects_bufFlushfile : Respects (BufBehind front n) bufFlushfile := by
  rintro ⟨buf, f⟩ ⟨_, g⟩ ⟨rfl, h⟩
  rw [bufFlushfile, run_get_bind, run_get_bind]
  refine (respects_writeFull buf.data).onSnd.bind (fun _ => respects_modify ?_) (buf, f) (buf, g) ⟨rfl, h⟩
  rintro ⟨buf, f⟩ ⟨_, g⟩ ⟨rfl, h⟩
  exact ⟨rfl, h⟩

theorem respects_bufAddLoop : ∀ (fuel : Nat) (data : List UInt8),
    Respects (BufBehind front n) (bufAddLoop fuel data) := by
  intro fuel
  induction fuel with
  | zero => exact fun _ => respects_stuck
  | succ fuel ih =>
    rintro data ⟨buf, f⟩ ⟨_, g⟩ ⟨rfl, h⟩
    rw [bufAddLoop, run_get_bind, run_get_bind]
    by_cases hfits : data.length ≤ buf.remaining
    · simp only [dif_pos hfits]
      exact ⟨rfl, rfl, h⟩
    · simp only [dif_neg hfits]
      rw [run_set_bind, run_set_bind]
      exact respects_bufFlushfile.bind (fun _ => ih _) (buf.fill data, f) (buf.fill data, g) ⟨rfl, h⟩

theorem respects_bufAdd (data : List UInt8) : Respects (BufBehind front n) (bufAdd data) :=
  respects_bufAddLoop _ data

/-! ### The writer -/

def Logwriter.Behind (front : List UInt8) (n : Nat) (v w : Logwriter) : Prop :=
  ∃ fd, v.fd.Behind front n fd ∧ w = { v with fd := fd }

theorem Logwriter.Behind.weaken {v w : Logwriter} {front' : List UInt8} {n' : Nat}
    (h : v.Behind front n w) (hfront : front' <+: front) (hn : n' ≤ n) : v.Behind front' n' w := by
  obtain ⟨fd, h, rfl⟩ := h
  exact ⟨fd, ⟨h.data, h.offset, h.writes, h.offset_le, hfront.trans h.prefix_data,
    Nat.le_trans hfront.length_le h.front_le, Nat.le_trans hn h.length, h.whole⟩, rfl⟩

theorem respects_onFileBuf {x : Run (Buf × File) Unit} (hx : Respects (BufBehind front n) x) :
    Respects (Logwriter.Behind front n) (onFileBuf x) := by
  rintro v _ ⟨fd, h, rfl⟩
  have hacc := hx (v.fileBuf, v.fd) (v.fileBuf, fd) ⟨rfl, h⟩
  simp only [Sparkey.onFileBuf, EStateM.run] at hacc ⊢
  rcases hacc.cases with ⟨a, s', t', hs, ht, hb, hf⟩ | ⟨code, s', t', hs, ht, hb, hf⟩ | ⟨s', t', hs, ht⟩
  · rw [hs, ht]
    refine ⟨rfl, t'.2, hf, ?_⟩
    rw [hb]
  · rw [hs, ht]
    refine ⟨rfl, t'.2, hf, ?_⟩
    rw [hb]
  · rw [hs, ht]
    trivial

theorem respects_assertWriterOpen : Respects (Logwriter.Behind front n) assertWriterOpen := by
  rintro v _ ⟨fd, h, rfl⟩
  rw [assertWriterOpen, run_get_bind, run_get_bind]
  exact ((respects_fail _).ite (respects_pure _)) v { v with fd := fd } ⟨fd, h, rfl⟩

/-- The header goes out at the start of the file, and the writer back to where it was. -/
theorem respects_rewriteHeader (header : Logheader) {pos : Nat} {v w : Logwriter}
    (h : v.Behind [] n w) (hpos : pos ≤ v.fd.data.length) :
    Accord (Logwriter.Behind [] n) (Logwriter.Behind [] n)
      ((onFileBuf (onSnd (writeLogheader header)) >>= fun _ =>
        modify fun log => { log with fd := log.fd.seek pos }).run v)
      ((onFileBuf (onSnd (writeLogheader header)) >>= fun _ =>
        modify fun log => { log with fd := log.fd.seek pos }).run w) := by
  obtain ⟨fd, h, rfl⟩ := h
  -- while the header goes out the file keeps its length
  have hlong : v.Behind [] (max n v.fd.data.length) { v with fd := fd } :=
    ⟨fd, ⟨h.data, h.offset, h.writes, h.offset_le, List.nil_prefix, Nat.zero_le _,
      max_le h.length (Nat.le_refl _), h.whole⟩, rfl⟩
  have hwrite := respects_onFileBuf (respects_writeLogheader header).onSnd _ _ hlong
  refine (hwrite.mono (fun v w h => h.weaken (List.prefix_refl _) (Nat.le_max_left _ _))
    fun _ _ h => h).bind fun _ v' w' _ h' => ?_
  obtain ⟨fd', h', rfl⟩ := h'
  refine ⟨rfl, fd'.seek pos, ⟨h'.data, rfl, h'.writes, ?_, List.nil_prefix, Nat.zero_le _, ?_,
    h'.whole⟩, rfl⟩
  · exact Nat.le_trans hpos (Nat.le_trans (Nat.le_max_right _ _) h'.length)
  · exact Nat.le_trans (Nat.le_max_left _ _) h'.length

section Writer

variable [Compressors]

theorem respects_compress (input : List UInt8) :
    Respects (Logwriter.Behind front n) (compress input) := by
  rintro v _ ⟨fd, h, rfl⟩
  rw [compress, run_get_bind, run_set_bind, run_get_bind, run_set_bind]
  have hset : Logwriter.Behind front n { v with compressFails := v.compressFails.tail }
      { v with fd := fd, compressFails := v.compressFails.tail } := ⟨fd, h, rfl⟩
  by_cases hfails : v.compressFails.head? = some true
  · simp only [if_pos hfails]
    exact ⟨rfl, hset⟩
  · simp only [if_neg hfails]
    cases (sparkeyCompressors v.header.compressionType).compress input v.maxCompressedSize with
    | none => exact ⟨rfl, hset⟩
    | some compressed => exact ⟨rfl, hset⟩

theorem respects_flushCompressed : Respects (Logwriter.Behind front n) flushCompressed := by
  rintro v _ ⟨fd, h, rfl⟩
  rw [flushCompressed, run_modify_bind, run_get_bind, run_modify_bind, run_get_bind]
  refine ((respects_compress v.blockBuf.data).bind fun compressed => ?_) v.countBlock
    { v.countBlock with fd := fd } ⟨fd, h, rfl⟩
  refine (respects_onFileBuf (respects_bufAdd _)).bind fun _ =>
    (respects_onFileBuf (respects_bufAdd _)).bind fun _ => ?_
  refine respects_modify ?_
  rintro v _ ⟨fd, h, rfl⟩
  exact ⟨fd, h, rfl⟩

theorem respects_compressedAddLoop : ∀ (fuel : Nat) (data : List UInt8),
    Respects (Logwriter.Behind front n) (compressedAddLoop fuel data) := by
  intro fuel
  induction fuel with
  | zero => exact fun _ => respects_stuck
  | succ fuel ih =>
    rintro data v _ ⟨fd, h, rfl⟩
    rw [compressedAddLoop, run_get_bind, run_get_bind]
    by_cases hfits : data.length ≤ v.blockBuf.remaining
    · simp only [dif_pos hfits]
      exact ⟨rfl, fd, h, rfl⟩
    · simp only [dif_neg hfits]
      rw [run_set_bind, run_set_bind]
      exact respects_flushCompressed.bind (fun _ => ih _) { v with blockBuf := v.blockBuf.fill data }
        { v with fd := fd, blockBuf := v.blockBuf.fill data } ⟨fd, h, rfl⟩

theorem respects_logAdd (num1 num2 : Nat) (data1 data2 : List UInt8) :
    Respects (Logwriter.Behind front n) (logAdd num1 num2 data1 data2) := by
  rintro v _ ⟨fd, h, rfl⟩
  rw [logAdd, run_get_bind, run_get_bind]
  by_cases hu : usesCompressor v.header.compressionType = true
  · simp only [if_pos hu]
    refine (respects_flushCompressed.onlyIf.bind fun _ => ?_) v { v with fd := fd } ⟨fd, h, rfl⟩
    refine Respects.bind (respects_modify ?_) fun _ => ?_
    · rintro v _ ⟨fd, h, rfl⟩
      exact ⟨fd, h, rfl⟩
    refine (respects_compressedAddLoop _ _).bind fun _ => (respects_compressedAddLoop _ _).bind fun _ =>
      (respects_compressedAddLoop _ _).bind fun _ => (respects_compressedAddLoop _ _).bind fun _ => ?_
    rintro v _ ⟨fd, h, rfl⟩
    rw [run_get_bind, run_get_bind]
    exact (respects_flushCompressed.onlyIf.bind fun _ => respects_pure _) v { v with fd := fd }
      ⟨fd, h, rfl⟩
  · simp only [if_neg hu]
    exact ((respects_onFileBuf (respects_bufAdd _)).bind fun _ =>
      (respects_onFileBuf (respects_bufAdd _)).bind fun _ =>
      (respects_onFileBuf (respects_bufAdd _)).bind fun _ =>
      (respects_onFileBuf (respects_bufAdd _)).bind fun _ => respects_pure _) v { v with fd := fd }
        ⟨fd, h, rfl⟩

/-- **Adding an entry** does not depend on what lies behind the end. -/
theorem respects_logwriterAdd (e : Entry) :
    Respects (Logwriter.Behind front n) (logwriterAdd e) := by
  rcases e with ⟨k, v⟩ | k
  · refine respects_assertWriterOpen.bind fun _ => (respects_logAdd _ _ _ _).bind fun _ =>
      respects_modify ?_
    rintro v _ ⟨fd, h, rfl⟩
    exact ⟨fd, h, rfl⟩
  · refine respects_assertWriterOpen.bind fun _ => (respects_logAdd _ _ _ _).bind fun _ =>
      respects_modify ?_
    rintro v _ ⟨fd, h, rfl⟩
    exact ⟨fd, h, rfl⟩

/-- **A flush** does not depend on what lies behind the end. -/
theorem respects_logwriterFlush : Respects (Logwriter.Behind [] n) logwriterFlush := by
  refine respects_assertWriterOpen.bind fun _ => ?_
  rintro v _ ⟨fd, h, rfl⟩
  rw [run_get_bind, run_get_bind]
  refine (respects_flushCompressed.onlyIf.bind fun _ => ?_) v { v with fd := fd } ⟨fd, h, rfl⟩
  rintro v _ ⟨fd, h, rfl⟩
  rw [run_get_bind, run_get_bind]
  refine ((respects_onFileBuf respects_bufFlushfile).onlyIf.bind fun _ => ?_) v { v with fd := fd }
    ⟨fd, h, rfl⟩
  rintro v _ ⟨fd, h, rfl⟩
  rw [run_get_bind, run_set_bind, run_get_bind, run_get_bind, run_set_bind, run_get_bind]
  simp only [h.offset]
  exact respects_rewriteHeader _ (v := { v with
    header := { v.header with dataEnd := u64 v.fd.offset }, fd := v.fd.seek 0 })
    ⟨fd.seek 0, h.seek (Nat.zero_le _) (List.prefix_refl _) (Nat.zero_le _), rfl⟩ h.offset_le

theorem respects_logwriterClose : Respects (Logwriter.Behind [] n) logwriterClose := by
  rintro v _ ⟨fd, h, rfl⟩
  rw [logwriterClose, run_get_bind, run_get_bind]
  refine ((respects_pure _).ite (respects_logwriterFlush.bind fun _ => respects_modify ?_)) v
    { v with fd := fd } ⟨fd, h, rfl⟩
  rintro v _ ⟨fd, h, rfl⟩
  exact ⟨fd, h, rfl⟩

end Writer

end Sparkey
