import Sparkey.Main.Appendlog
import Sparkey.Main.Get

/-!
# The commands together

A log that `createlog` has made and `appendlog` has added to, an index that `writehash` makes of it,
and `get`: each command is a process of its own, and what one leaves in the files is all that the
next one knows.  Together they are a map from keys to values, of which the last line for a key
counts (`get_of_tool`).
-/

namespace Sparkey

open Program BlockStream LastWrite

variable [Compressors] {t : CompressionType} {n : Nat}

/-- The log files that `createlog` and `appendlog` leave, and what has been put there. -/
inductive Tool (t : CompressionType) (n : Nat) : List Entry → List UInt8 → Prop
  /-- The block size is an `int`. -/
  | createlog {env : WriterEnv} {w w' : Logwriter} : n < 2 ^ 31 → logwriterCreate env t n = .ok w →
      logwriterClose.run w = .ok () w' → Tool t n [] w'.fd.data
  | appendlog {env : WriterEnv} {unset : Nat → UInt8} {delimiter : UInt8} {file input : List UInt8}
      {es new : List Entry} {w w' w'' : Logwriter} : Tool t n es file →
      logwriterAppend env (some file) = .ok w → Stream unset input → delimiter ≠ newline →
      (append unset [] delimiter input).run w = .ok 0 w' → logwriterClose.run w' = .ok () w'' →
      List.Forall₂ (Splits delimiter) (taken (streamLines input).1) new →
      Tool t n (es ++ new) w''.fd.data

omit [Compressors] in
theorem Splits.det {delimiter : UInt8} {text : List UInt8} {e e' : Entry}
    (h : Splits delimiter text e) (h' : Splits delimiter text e') : e = e' := by
  obtain ⟨key, value, rfl, hsplit⟩ := h
  obtain ⟨key', value', rfl, hsplit'⟩ := h'
  have heq := Option.some.inj (hsplit.symm.trans hsplit')
  rw [Subtype.ext (congrArg Prod.fst heq), Subtype.ext (congrArg Prod.snd heq)]

omit [Compressors] in
theorem splits_det {delimiter : UInt8} {texts : List (List UInt8)} {es es' : List Entry}
    (h : List.Forall₂ (Splits delimiter) texts es) (h' : List.Forall₂ (Splits delimiter) texts es') :
    es = es' := by
  induction h generalizing es' with
  | nil =>
    cases h'
    rfl
  | cons he _ ih =>
    cases h' with
    | cons he' h' => rw [he.det he', ih h']

/-- **The log of the commands** is one that a writer has made. -/
theorem Tool.writing {es : List Entry} {file : List UInt8} (h : Tool t n es file) :
    ∃ calls w w', Writing t n calls w ∧ logwriterClose.run w = .ok () w' ∧ file = w'.fd.data ∧
      entriesOf calls = es := by
  induction h with
  | createlog hn hcreate hclose => exact ⟨[], _, _, .create hn hcreate, hclose, rfl, rfl⟩
  | appendlog _ hopen hstream hd hrun hclose hsplits ih =>
    obtain ⟨calls, w₀, w₀', hw, hclose₀, rfl, rfl⟩ := ih
    rw [run_append hstream hd] at hrun
    obtain ⟨new', hsplits', hw'⟩ := writing_of_appendLines (hw.reopen hclose₀ hopen)
      (fun text htext => Nat.lt_trans (hstream.text_lt text htext) (by norm_num)) hrun
    refine ⟨_, _, _, hw', hclose, rfl, ?_⟩
    rw [splits_det hsplits hsplits', entriesOf_append_calls, entriesOf_append]
    simp [entriesOf, List.filterMap_map, Function.comp_def, Call.entry?]

variable [HashFunctions] {es : List Entry} {file : List UInt8} {index : Option (List UInt8)}
  {env : HashEnv} {log : Logreader} {reader : Hashreader}

/-- **`get` prints what the last line for the key says**, once `writehash` has run. -/
theorem get_of_tool (h : Tool t n es file) (hfit : ∀ e ∈ es, HeadFits (.of t n) e)
    (hz : (Setting.of t n).Lossless) (hrun : (hashWrite env (some file) 0).run none = .ok () index)
    (hopen : hashOpen index (some file) = .ok reader)
    (hend : reader.log.header.dataEnd < 2 ^ (64 - intLog2 reader.log.header.maxEntriesPerBlock))
    (key : List UInt8) : Gets index (some file) key (answer? key es) := by
  obtain ⟨calls, w, w', hw, hclose, rfl, rfl⟩ := h.writing
  obtain ⟨w₁, hflush, rfl⟩ := ok_logwriterClose (kept_of_writing hw).1.writable hclose
  have hkeeps := keeps_true wholeReads
  have hwhole : WholeReads env reader.log.header (oldHeader? reader.log.header none) :=
    ⟨Or.inl rfl, hend⟩
  obtain ⟨items, live, hvals, hperm, hreading⟩ := (Follows.absent hw).reading_of_run hkeeps hfit hz hflush
    (logreaderOpen_of_hashOpen hopen) hwhole hwhole hrun hopen
  rw [← hvals]
  exact hreading.prints hperm hopen key

def threeLines : List UInt8 := [97, 9, 49, 10, 98, 9, 50, 10, 97, 9, 51, 10]

def toolSample : Option (List UInt8 × Option (List UInt8) × Hashreader) := do
  let w ← (logwriterCreate ⟨some 7, [], []⟩ .none 0).toOption
  let w ← success? (logwriterClose.run w)
  let x ← (logwriterAppend ⟨none, [], []⟩ (some w.fd.data)).toOption
  let x ← returnedZero? ((append (fun _ => 0) [] 9 threeLines).run x)
  let x ← success? (logwriterClose.run x)
  let index ← success? ((hashWrite calmEnv (some x.fd.data) 0).run none)
  let reader ← (hashOpen index (some x.fd.data)).toOption
  if reader.log.header.Small then some (x.fd.data, index, reader) else none

omit [Compressors] [HashFunctions] in
/-- The third line is the last one for its key. -/
theorem get_of_tool_sample :
    letI := literalCompressors
    letI := lengthHash
    ∃ (file : List UInt8) (index : Option (List UInt8)),
      (hashWrite calmEnv (some file) 0).run none = .ok () index ∧
      Gets index (some file) [97] (some [51]) ∧ Gets index (some file) [99] none := by
  have hsome : (@toolSample literalCompressors lengthHash).isSome = true := by decide +kernel
  let := literalCompressors
  let := lengthHash
  obtain ⟨⟨file, index, reader⟩, hsample⟩ := Option.isSome_iff_exists.mp hsome
  simp only [toolSample, Option.bind_eq_bind, Option.bind_eq_some_iff] at hsample
  obtain ⟨w, hcreate, w', hclose, x, hopen, x₁, happend, x₂, hclose', index', hindex, reader', hreader,
    hsample⟩ := hsample
  split_ifs at hsample with hsmall
  cases hsample
  have hempty := Tool.createlog (by decide) (ok_of_toOption hcreate) (success?_eq_some hclose)
  have hstream : Stream (fun _ => 0) threeLines :=
    ⟨by decide +kernel, by decide +kernel, by decide +kernel, fun _ => by decide⟩
  have hsplits : List.Forall₂ (Splits 9) (taken (streamLines threeLines).1)
      [.put (.of [97]) (.of [49]), .put (.of [98]) (.of [50]), .put (.of [97]) (.of [51])] :=
    .cons ⟨_, _, rfl, rfl⟩ (.cons ⟨_, _, rfl, rfl⟩ (.cons ⟨_, _, rfl, rfl⟩ .nil))
  have htool := Tool.appendlog hempty (ok_of_toOption hopen) hstream (by decide)
    (returnedZero?_eq_some happend) (success?_eq_some hclose') hsplits
  have hindex := success?_eq_some hindex
  have horderly : Orderly calmEnv reader.log.header := hsmall.orderly rfl
  have hgets := get_of_tool htool (fun _ _ => nofun) nofun hindex (ok_of_toOption hreader)
    horderly.dataEnd_lt
  exact ⟨_, index, hindex, hgets [97], hgets [99]⟩

end Sparkey
