import Sparkey.Lib.CString
import Sparkey.Main.Get

/-!
# The command `rewrite`

`rewrite` of `main.c` copies a log to a new one, with another compression perhaps, and indexes that.
It goes through the log by `sparkey_logiter_next` and makes a put of every entry, so nothing is
trimmed away, and a delete becomes a put of the empty value (`rewrite_of_writing`).  The new pair
answers like the old one for exactly the keys whose last operation was no delete
(`rewrite_agrees`).
-/

namespace Sparkey

open Program BlockStream LastWrite CString

variable [Compressors]

def fillBuf {σ : Type} (buf bytes : List UInt8) : Run σ (List UInt8) :=
  if buf.length < bytes.length then stuck else pure (store buf 0 bytes)

def readBuf {σ : Type} (buf : List UInt8) (len : Nat) : Run σ (List UInt8) :=
  if buf.length < len then stuck else pure (buf.take len)

def rewriteLoop (log : Logreader) : Nat → List UInt8 → List UInt8 → Run (Logiter × Logwriter) Unit
  | 0, _, _ => stuck
  | fuel + 1, keybuf, valuebuf => do
    onFst (logiterNext log)
    let (iter, _) ← get
    if iter.state ≠ .active then
      return ()
    let wantedKeylen := iter.keylen
    let key ← onFst (logiterFillKey log wantedKeylen)
    let keybuf ← fillBuf keybuf key
    let (iter, _) ← get
    let wantedValuelen := iter.valuelen
    let value ← onFst (logiterFillValue log wantedValuelen)
    let valuebuf ← fillBuf valuebuf value
    let key ← readBuf keybuf wantedKeylen
    let value ← readBuf valuebuf wantedValuelen
    onSnd (logwriterPut key value)
    rewriteLoop log fuel keybuf valuebuf

/-- What the system does in `rewrite`, and what the memory it allocates holds. -/
structure RewriteEnv where
  unset : Logiter
  keybuf : Nat → UInt8
  valuebuf : Nat → UInt8
  writer : WriterEnv
  hash : HashEnv

def malloc (unset : Nat → UInt8) (size : Nat) : List UInt8 := (List.range size).map unset

/-- `sparkey_logreader_get_compression_blocksize`, an `int`.  No block size below 10 can be used, and
a negative one is as good as 0. -/
def getCompressionBlocksize (log : Logreader) : Nat :=
  if log.header.compressionBlockSize < 2 ^ 31 then log.header.compressionBlockSize else 0

/-- The part of `main` for `rewrite`.  The state is the index file to write, the log file to write
comes back.  Where `assert` ends the process with 1, this is an error. -/
def rewriteCommand [HashFunctions] (env : RewriteEnv) (compressionType : Option CompressionType)
    (blockSize : Option Nat) (inputIndex inputLog : Option (List UInt8)) :
    Run (Option (List UInt8)) (List UInt8) := do
  let reader ← lift (hashOpen inputIndex inputLog)
  let log := reader.log
  let compressionType := compressionType.getD log.header.compressionType
  let blockSize := blockSize.getD (getCompressionBlocksize log)
  let writer ← ofExcept (logwriterCreate env.writer compressionType blockSize)
  let iter ← lift (logiterCreate env.unset log)
  let writer ← final writer do
    onNew iter (rewriteLoop log (entryFuel log) (malloc env.keybuf log.header.maxKeyLen)
      (malloc env.valuebuf log.header.maxValueLen))
    logwriterClose
  hashWrite env.hash (some writer.fd.data) 0
  pure writer.fd.data

/-! ### Entry by entry -/

/-- The put that `rewrite` makes of an entry. -/
def Entry.asPut : Entry → Entry
  | .put key value => .put key value
  | .delete key => .put key ⟨[], by decide⟩

def rewriteEntries (keySize valueSize : Nat) : List Entry → Run Logwriter Unit
  | [] => pure ()
  | e :: es => do
    if keySize < e.key.length ∨ valueSize < e.value.length then
      stuck
    logwriterAdd e.asPut
    rewriteEntries keySize valueSize es

omit [Compressors] in
theorem logwriterAdd_asPut [Compressors] (e : Entry) :
    logwriterAdd e.asPut = logwriterPut e.key e.value := by
  cases e <;> rfl

variable {log : Logreader} {item : Item Entry} {items : List (Item Entry)}

section Buffers

omit [Compressors]

variable {σ : Type} {buf bytes : List UInt8}

theorem fillBuf_of_le (h : bytes.length ≤ buf.length) :
    (fillBuf buf bytes : Run σ (List UInt8)) = pure (bytes ++ buf.drop bytes.length) := by
  rw [fillBuf, if_neg (Nat.not_lt.mpr h), store, List.take_zero, List.nil_append, Nat.zero_add]

theorem fillBuf_of_lt (h : buf.length < bytes.length) :
    (fillBuf buf bytes : Run σ (List UInt8)) = stuck := by
  rw [fillBuf, if_pos h]

theorem readBuf_filled (buf bytes : List UInt8) :
    (readBuf (bytes ++ buf.drop bytes.length) bytes.length : Run σ (List UInt8)) = pure bytes := by
  rw [readBuf, if_neg (by simp), List.take_left]

theorem length_filled (h : bytes.length ≤ buf.length) :
    (bytes ++ buf.drop bytes.length).length = buf.length := by
  rw [List.length_append, List.length_drop]
  omega

end Buffers

omit [Compressors] in
theorem run_onNew_get {σ τ α : Type} (s : σ) (f : σ × τ → Run (σ × τ) α) (t : τ) :
    (onNew s (get >>= f)).run t = (onNew s (f (s, t))).run t := rfl

/-- **The loop of `rewrite`** makes a put of every entry. -/
theorem run_rewriteLoop (hl : log.Opened) (items : List (Item Entry)) {fuel : Nat} {iter : Logiter}
    (hfuel : items.length < fuel) (hb : Before log iter items) (keybuf valuebuf : List UInt8)
    (w : Logwriter) : (onNew iter (rewriteLoop log fuel keybuf valuebuf)).run w =
      (rewriteEntries keybuf.length valuebuf.length (items.map Item.val)).run w := by
  induction items generalizing fuel iter keybuf valuebuf w with
  | nil =>
    obtain ⟨fuel, rfl⟩ := Nat.exists_eq_succ_of_ne_zero (Nat.ne_zero_of_lt hfuel)
    obtain ⟨iter', hrun, hs, -, -⟩ := run_logiterNext_end hl hb
    have hne : iter'.state ≠ .active := by
      rw [hs]
      decide
    rw [rewriteLoop, run_onNew_onFst_ok hrun]
    apply run_onNew_ok
    rw [run_get_bind]
    simp only [if_pos hne]
    rfl
  | cons item items ih =>
    obtain ⟨fuel, rfl⟩ := Nat.exists_eq_succ_of_ne_zero (Nat.ne_zero_of_lt hfuel)
    obtain ⟨iter₁, hrun₁, h₁, -⟩ := run_logiterNext_item hl hb
    have hstate : ¬ iter₁.state ≠ .active := not_not_intro h₁.state
    obtain ⟨iter₂, hrun₂, h₂⟩ := run_logiterFillKey hl h₁ item.val.key.length
    obtain ⟨iter₃, key, hrun₃, h₃⟩ := run_logiterFillValue hl h₂ item.val.value.length
    rw [List.take_length] at hrun₂ hrun₃
    rw [rewriteLoop, run_onNew_onFst_ok hrun₁, run_onNew_get]
    simp only [if_neg hstate, h₁.keylen]
    rw [run_onNew_onFst_ok hrun₂, List.map_cons, rewriteEntries]
    by_cases hkey : keybuf.length < item.val.key.length
    · rw [fillBuf_of_lt hkey, if_pos (Or.inl hkey)]
      rfl
    rw [fillBuf_of_le (Nat.not_lt.mp hkey), pure_bind, run_onNew_get]
    simp only [h₂.valuelen]
    rw [run_onNew_onFst_ok hrun₃]
    by_cases hvalue : valuebuf.length < item.val.value.length
    · rw [fillBuf_of_lt hvalue, if_pos (Or.inr hvalue)]
      rfl
    rw [fillBuf_of_le (Nat.not_lt.mp hvalue), pure_bind, readBuf_filled, pure_bind, readBuf_filled,
      pure_bind, run_onNew_onSnd, if_neg (not_or.mpr ⟨hkey, hvalue⟩), logwriterAdd_asPut]
    cases hput : (logwriterPut item.val.key item.val.value).run w with
    | ok u w₁ =>
      rw [run_bind_ok hput, run_bind_ok hput, ih (Nat.lt_of_succ_lt_succ hfuel) h₃.before,
        length_filled (Nat.not_lt.mp hkey), length_filled (Nat.not_lt.mp hvalue)]
    | error e w₁ => rw [run_bind_error hput, run_bind_error hput]

theorem going_of_rewriteEntries {keySize valueSize : Nat} (es : List Entry) {w w' : Logwriter}
    (h : (rewriteEntries keySize valueSize es).run w = .ok () w') :
    Going w (es.map fun e => .add e.asPut) w' := by
  induction es generalizing w with
  | nil =>
    cases h
    exact .refl
  | cons e es ih =>
    rw [rewriteEntries] at h
    split_ifs at h with hsize
    · cases h
    · obtain ⟨u, w₁, hadd, h⟩ := ok_bind h
      exact (Going.one (.add _ hadd)).trans (ih h)

omit [Compressors] in
theorem ok_of_final {σ τ : Type} {x : Run σ Unit} {s s' : σ} {t t' : τ}
    (h : (final s x : Run τ σ).run t = .ok s' t') : x.run s = .ok () s' ∧ t' = t := by
  simp only [final, EStateM.run] at h ⊢
  cases hx : x s with
  | ok u s₁ =>
    rw [hx] at h
    cases h
    exact ⟨rfl, rfl⟩
  | error e s₁ =>
    rw [hx] at h
    cases h

/-! ### The new log -/

variable [HashFunctions] {t : CompressionType} {n : Nat} {calls : List Call} {w w' : Logwriter}
  {env : RewriteEnv} {t? : Option CompressionType} {n? : Option Nat}
  {index out out' : Option (List UInt8)} {bytes : List UInt8}

/-- What a rewrite has left: a log with a put for every entry, and what `sparkey_hash_write` makes of
it. -/
structure Rewritten (env : RewriteEnv) (t : CompressionType) (n : Nat) (es : List Entry)
    (out : Option (List UInt8)) (bytes : List UInt8) (out' : Option (List UInt8)) : Prop where
  writing : ∃ w w', Writing t n (es.map fun e => .add e.asPut) w ∧ logwriterClose.run w = .ok () w' ∧
    bytes = w'.fd.data
  index : (hashWrite env.hash (some bytes) 0).run out = .ok () out'

/-- **`rewrite` puts every entry again**, whatever it was, and with the compression that is asked for
or the one of the old log. -/
theorem rewritten_of_writing (hw : Writing t n calls w)
    (hfit : ∀ e ∈ entriesOf calls, HeadFits (.of t n) e) (hz : (Setting.of t n).Lossless)
    (hflush : logwriterFlush.run w = .ok () w') (hn : ∀ n ∈ n?, n < 2 ^ 31)
    (hrun : (rewriteCommand env t? n? index (some w'.fd.data)).run out = .ok bytes out') :
    Rewritten env (t?.getD t) (n?.getD (Setting.of t n).compressionBlockSize) (entriesOf calls) out
      bytes out' := by
  rw [rewriteCommand] at hrun
  cases hopen : hashOpen index (some w'.fd.data) with
  | error code =>
    rw [hopen] at hrun
    cases hrun
  | ok reader =>
    rw [hopen, run_bind_ok (run_lift_ok _ _)] at hrun
    have hlog := logreaderOpen_of_hashOpen hopen
    obtain ⟨items, hl, hvals⟩ := logged_of_flush hw hfit hz hflush hlog
    obtain ⟨hk, hf, -⟩ := (kept_of_writing hw).1.flush hflush
    have hsetting : reader.log.header.setting = .of t n := by
      rw [(hk.open hf hlog).2.1]
      exact hk.setting
    have htype : reader.log.header.compressionType = t := congrArg Setting.compressionType hsetting
    have hsize : getCompressionBlocksize reader.log = (Setting.of t n).compressionBlockSize := by
      have hsize := congrArg Setting.compressionBlockSize hsetting
      have hlt := hk.blockSize_lt
      rw [← hsize] at hlt ⊢
      exact if_pos hlt
    have hlt : n?.getD (Setting.of t n).compressionBlockSize < 2 ^ 31 := by
      cases n? with
      | none => exact hk.blockSize_lt
      | some n => exact hn n rfl
    simp only [htype, hsize] at hrun
    obtain ⟨iter, hcreate⟩ := logiterCreate_ok hl.toOpened env.unset
    cases hwriter : logwriterCreate env.writer (t?.getD t)
      (n?.getD (Setting.of t n).compressionBlockSize) with
    | error e =>
      rw [hwriter] at hrun
      cases hrun
    | ok x =>
      rw [hwriter, show (ofExcept (.ok x) : Run (Option (List UInt8)) Logwriter) = pure x from rfl,
        pure_bind, hcreate, run_bind_ok (run_lift_ok _ _)] at hrun
      obtain ⟨x', out₁, hfinal, hrun⟩ := ok_bind hrun
      obtain ⟨u, out₂, hindex, hrun⟩ := ok_bind hrun
      cases hrun
      obtain ⟨hrewrite, rfl⟩ := ok_of_final hfinal
      obtain ⟨u, y, hloop, hclose⟩ := ok_bind hrewrite
      rw [run_rewriteLoop hl.toOpened items (length_lt_entryFuel hl.toHolds)
        (logiterCreate_before hl.toHolds hcreate), hvals] at hloop
      have hwriting := (Writing.create hlt hwriter).going (going_of_rewriteEntries _ hloop)
      exact ⟨⟨y, x', hwriting, hclose, rfl⟩, hindex⟩

/-! ### What the new pair answers -/

section AsPut

omit [Compressors] [HashFunctions]

theorem key_asPut (e : Entry) : e.asPut.key = e.key := by
  cases e <;> rfl

theorem lastWith?_asPut (key : List UInt8) (es : List Entry) :
    lastWith? key (es.map Entry.asPut) = (lastWith? key es).map Entry.asPut := by
  have hthose : entryKind.those key (es.map Entry.asPut) = (entryKind.those key es).map Entry.asPut := by
    rw [Kind.those, Kind.those, List.filter_map]
    congr 1
    refine List.filter_congr fun e _ => ?_
    simp only [Function.comp_apply]
    rw [show entryKind.key e.asPut = entryKind.key e from key_asPut e]
  rw [lastWith?, lastWith?, hthose, List.getLast?_map]

theorem answer?_asPut (key : List UInt8) (es : List Entry) :
    answer? key (es.map Entry.asPut) = (lastWith? key es).map Entry.value := by
  rw [answer?, lastWith?_asPut]
  cases lastWith? key es with
  | none => rfl
  | some e => cases e <;> rfl

theorem entriesOf_asPuts (es : List Entry) :
    entriesOf (es.map fun e => .add e.asPut) = es.map Entry.asPut := by
  rw [entriesOf, List.filterMap_map, ← List.filterMap_eq_map]
  rfl

end AsPut

/-- The last operation on a key is a delete. -/
def Deleted (key : List UInt8) (es : List Entry) : Prop := ∃ k, lastWith? key es = some (.delete k)

variable {log : Logreader} {hashEnv : HashEnv} {hashSize : Nat} {index' : Option (List UInt8)}
  {reader : Hashreader}

/-- **The new pair** answers with what was put last, and a delete is a put of nothing. -/
theorem Rewritten.gets {es : List Entry} (h : Rewritten env t n es none bytes out')
    (hfit : ∀ e ∈ es, HeadFits (.of t n) e.asPut) (hz : (Setting.of t n).Lossless)
    (hopen : hashOpen out' (some bytes) = .ok reader)
    (hend : reader.log.header.dataEnd < 2 ^ (64 - intLog2 reader.log.header.maxEntriesPerBlock))
    (key : List UInt8) : Gets out' (some bytes) key ((lastWith? key es).map Entry.value) := by
  obtain ⟨x, x', hw, hclose, rfl⟩ := h.writing
  obtain ⟨x₁, hflush, rfl⟩ := ok_logwriterClose (kept_of_writing hw).1.writable hclose
  have hlog := logreaderOpen_of_hashOpen hopen
  have hfit' : ∀ e ∈ entriesOf (es.map fun e => .add e.asPut), HeadFits (.of t n) e := by
    rw [entriesOf_asPuts]
    exact List.forall_mem_map.mpr hfit
  have hkeeps := keeps_true wholeReads
  have hwhole : WholeReads env.hash reader.log.header (oldHeader? reader.log.header none) :=
    ⟨Or.inl rfl, hend⟩
  obtain ⟨items, live, hvals, hperm, hreading⟩ :=
    (Follows.absent hw).reading_of_run hkeeps hfit' hz hflush hlog hwhole hwhole h.index hopen
  rw [← answer?_asPut, ← entriesOf_asPuts, ← hvals]
  exact hreading.prints hperm hopen key

omit [Compressors] in
theorem exists_hashOpen_of_rewriteCommand [Compressors] {logFile : Option (List UInt8)}
    (h : (rewriteCommand env t? n? index logFile).run out = .ok bytes out') :
    ∃ reader, hashOpen index logFile = .ok reader := by
  cases hopen : hashOpen index logFile with
  | error code =>
    rw [rewriteCommand, hopen] at h
    cases h
  | ok reader => exact ⟨reader, rfl⟩

/-- **`rewrite` answers the old questions**, but for those about deleted keys: there the old pair says
that there is no value, and the new one that it is empty. -/
theorem rewrite_agrees (h : Indexing t n wholeReads calls w index)
    (hfit : ∀ e ∈ entriesOf calls, HeadFits (.of t n) e) (hz : (Setting.of t n).Lossless)
    (hflush : logwriterFlush.run w = .ok () w') (hopen : logreaderOpen (some w'.fd.data) = .ok log)
    (hwhole : WholeReads hashEnv log.header (oldHeader? log.header index))
    (hindex : (hashWrite hashEnv (some w'.fd.data) hashSize).run index = .ok () index')
    (hn : ∀ n ∈ n?, n < 2 ^ 31)
    (hrun : (rewriteCommand env t? n? index' (some w'.fd.data)).run none = .ok bytes out')
    {t' : CompressionType} {n' : Nat} (ht' : t' = t?.getD t)
    (hn' : n' = n?.getD (Setting.of t n).compressionBlockSize)
    (hfit' : ∀ e ∈ entriesOf calls, HeadFits (.of t' n') e.asPut) (hz' : (Setting.of t' n').Lossless)
    (hreader : hashOpen out' (some bytes) = .ok reader)
    (hend : reader.log.header.dataEnd < 2 ^ (64 - intLog2 reader.log.header.maxEntriesPerBlock)) :
    Rewritten env t' n' (entriesOf calls) none bytes out' ∧
      ∀ key, ∃ old new, Gets index' (some w'.fd.data) key old ∧ Gets out' (some bytes) key new ∧
        (old = new ↔ ¬ Deleted key (entriesOf calls)) ∧
        (Deleted key (entriesOf calls) → old = none ∧ new = some []) := by
  have hkeeps := keeps_true wholeReads
  have hfollows := h.follows hkeeps (fun h => h) hfit hz
  have hrewritten := rewritten_of_writing hfollows.writing hfit hz hflush hn hrun
  rw [← ht', ← hn'] at hrewritten
  refine ⟨hrewritten, fun key => ?_⟩
  obtain ⟨oldReader, holdReader⟩ := exists_hashOpen_of_rewriteCommand hrun
  obtain ⟨items, live, hvals, hperm, hreading⟩ := hfollows.reading_of_run hkeeps hfit hz hflush hopen
    hwhole hwhole hindex holdReader
  refine ⟨answer? key (entriesOf calls), (lastWith? key (entriesOf calls)).map Entry.value, ?_,
    hrewritten.gets hfit' hz' hreader hend key, ?_, ?_⟩
  · rw [← hvals]
    exact hreading.prints hperm holdReader key
  · rw [answer?, Deleted]
    rcases lastWith? key (entriesOf calls) with _ | ⟨k, v⟩ | k
    · exact iff_of_true rfl fun h => by cases h.choose_spec
    · exact iff_of_true rfl fun h => by cases h.choose_spec
    · exact iff_of_false (fun h => by cases h) fun h => h ⟨k, rfl⟩
  · rintro ⟨k, hk⟩
    rw [answer?, hk]
    exact ⟨rfl, rfl⟩

omit [Compressors] [HashFunctions] in
def calmRewrite : RewriteEnv := ⟨zeroLogiter, fun _ => 0, fun _ => 0, ⟨some 9, [], []⟩, calmEnv⟩

omit [Compressors] [HashFunctions] in
/-- A deleted key has an empty value in the new pair. -/
theorem rewrite_agrees_sample :
    letI := literalCompressors
    letI := lengthHash
    ∃ (w : Logwriter) (index out : Option (List UInt8)) (bytes : List UInt8),
      (hashWrite calmEnv (some w.fd.data) 4).run none = .ok () index ∧
      (rewriteCommand calmRewrite none none index (some w.fd.data)).run none = .ok bytes out ∧
      Gets index (some w.fd.data) [1] none ∧ Gets out (some bytes) [1] (some []) := by
  let := literalCompressors
  let := lengthHash
  have hfacts : (twoRuns calmEnv calmEnv putPutDelete [] 4 4).map (fun r =>
      (decide r.log.header.Small,
        match (rewriteCommand calmRewrite none none r.index (some r.log.data)).run none with
        | .ok bytes out => (hashOpen out (some bytes)).toOption.map fun reader =>
            decide reader.log.header.Small
        | .error _ _ => none)) = some (true, some true) := by
    decide +kernel
  obtain ⟨r, hr, hfacts⟩ := Option.map_eq_some_iff.mp hfacts
  simp only [Prod.mk.injEq, decide_eq_true_eq] at hfacts
  obtain ⟨hsmall, hnew⟩ := hfacts
  obtain ⟨w', _, hran⟩ := exists_of_twoRuns hr
  obtain ⟨w, hw, hflush⟩ := hran.first
  obtain ⟨hk, hf, -⟩ := (kept_of_writing hw).1.flush hflush
  rw [(hk.open hf hran.opened).2.2] at hnew
  split at hnew
  · rename_i bytes out hrun
    obtain ⟨reader, hreader, hsmall'⟩ := Option.map_eq_some_iff.mp hnew
    have horderly : Orderly calmEnv r.log.header := hsmall.orderly rfl
    have hend : Orderly calmEnv reader.log.header := (of_decide_eq_true hsmall').orderly rfl
    obtain ⟨-, hgets⟩ := rewrite_agrees (.start hw) (fun _ _ => nofun) nofun hflush hran.opened
      (horderly.wholeReads _) hran.made (by simp) hrun rfl rfl (fun _ _ => nofun) nofun
      (ok_of_toOption hreader) hend.dataEnd_lt
    obtain ⟨old, new, hold, hnew, -, hdeleted⟩ := hgets [1]
    obtain ⟨rfl, rfl⟩ := hdeleted ⟨.of [1], by decide⟩
    exact ⟨w', _, _, _, hran.made, hrun, hold, hnew⟩
  · cases hnew

end Sparkey
