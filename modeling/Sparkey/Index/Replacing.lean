import Sparkey.Index.Agreement
import Sparkey.Index.Meanwhile

/-!
# An index that is replaced while it is opened

`sparkey_hash_write` removes the old file and writes a new one of the same name, so what
a reader has mapped stays as it is.  But `sparkey_hash_open` goes to the name three times:
for the header, for the file it maps, and for the size of the file.  As long as the name is
not given to another file between the first two, a reader that gets through is one of
the old index or of the new one, both complete (`hashOpen_of_replacing`).  Otherwise the
header and the table may be of different files.
-/

namespace Sparkey

open Program

/-! ### The two files -/

/-- The two files that have the name, one after the other. -/
inductive Generation
  | old
  | new
  deriving DecidableEq

/-- The file that has the name, and what is in the two. -/
structure Disk where
  name : Option Generation
  old : List UInt8
  new : List UInt8

def Disk.file (disk : Disk) : Generation → List UInt8
  | .old => disk.old
  | .new => disk.new

def Disk.content (disk : Disk) : Option (List UInt8) := disk.name.map disk.file

/-- The disk before the run, where an index may be. -/
def Disk.of (index : Option (List UInt8)) : Disk := ⟨index.map fun _ => .old, index.getD [], []⟩

/-- The next step of the run: remove the old file, create the new one, or write the next `n` of its
bytes. -/
def Disk.writeStep (bytes : List UInt8) (n : Nat) (disk : Disk) : Disk :=
  match disk.name with
  | some .old => { disk with name := none }
  | none => { disk with name := some .new }
  | some .new => { disk with new := bytes.take (disk.new.length + n) }

/-! ### Opening step by step -/

/-- `sparkey_hash_open` up to where it opens the index for the second time. -/
def hashOpenChecks (hashFile logFile : Option (List UInt8)) :
    Except Returncode (Hashheader × Logreader) :=
  match loadHashheader hashFile with
  | .error code => .error code
  | .ok header =>
    match logreaderOpen logFile with
    | .error code => .error code
    | .ok log =>
      if header.fileIdentifier ≠ log.header.fileIdentifier then .error .fileIdentifierMismatch
      else if log.header.dataEnd < header.dataEnd then .error .hashHeaderCorrupt
      else if log.header.maxKeyLen < header.maxKeyLen then .error .hashHeaderCorrupt
      else if log.header.maxValueLen < header.maxValueLen then .error .hashHeaderCorrupt
      else .ok (header, log)

/-- The reader that has mapped a file.  What is not in the file cannot be read. -/
def mappedReader (header : Hashheader) (log : Logreader) (content : List UInt8) : Hashreader where
  openStatus := magicValueHashreader
  header := header
  log := log
  dataLen := header.dataLen
  data := content.take header.dataLen

/-- On a file that stays as it is, the steps are `sparkey_hash_open`. -/
theorem hashOpen_eq (hashFile logFile : Option (List UInt8)) :
    hashOpen hashFile logFile = (hashOpenChecks hashFile logFile).bind fun (header, log) =>
      if (hashFile.getD []).length < header.dataLen then .error .hashTooSmall
      else if header.dataLen = 0 then .error .mmapFailed
      else .ok (mappedReader header log (hashFile.getD [])) := by
  rw [hashOpen, hashOpenChecks]
  cases loadHashheader hashFile with
  | error code => rfl
  | ok header =>
    cases logreaderOpen logFile with
    | error code => rfl
    | ok log =>
      have hcheck : ∀ {c : Prop} [Decidable c] {code : Returncode} {x : Except Returncode Hashreader}
          {y : Except Returncode (Hashheader × Logreader)}
      {f : Hashheader × Logreader → Except Returncode Hashreader},
          x = y.bind f → (if c then .error code else x) = (if c then .error code else y).bind f := by
        intro c _ code x y f hxy
        split_ifs
        · rfl
        · exact hxy
      exact hcheck (hcheck (hcheck (hcheck rfl)))

inductive Opening
  | begun
  | checked (header : Hashheader) (log : Logreader)
  | opened (header : Hashheader) (log : Logreader) (file : Generation)
  | sized (header : Hashheader) (log : Logreader) (file : Generation)
  | mapped (header : Hashheader) (log : Logreader) (file : Generation)
  | failed (code : Returncode)

/-- The next step of `sparkey_hash_open`.  The result of `stat` is not looked at: where there is no
file, `st_size` is what was in memory. -/
def Opening.step (logFile : Option (List UInt8)) (unset : Nat) (disk : Disk) : Opening → Opening
  | .begun =>
    match hashOpenChecks disk.content logFile with
    | .error code => .failed code
    | .ok (header, log) => .checked header log
  | .checked header log =>
    match disk.name with
    | none => .failed .fileNotFound
    | some file => .opened header log file
  | .opened header log file =>
    let size := (disk.content.map List.length).getD unset
    if size < header.dataLen then .failed .hashTooSmall else .sized header log file
  | .sized header log file =>
    if header.dataLen = 0 then .failed .mmapFailed else .mapped header log file
  | .mapped header log file => .mapped header log file
  | .failed code => .failed code

/-- A run of `sparkey_hash_write` that replaces the index, and one of `sparkey_hash_open`. -/
structure Replacement where
  disk : Disk
  opening : Opening

/-- One of the two takes a step, the writer only where the rule allows it. -/
inductive Turn (rule : Replacement → Prop) (logFile : Option (List UInt8)) (bytes : List UInt8) :
    Replacement → Replacement → Prop
  | write {s : Replacement} (n : Nat) : rule s →
      Turn rule logFile bytes s { s with disk := s.disk.writeStep bytes n }
  | read {s : Replacement} (unset : Nat) :
      Turn rule logFile bytes s { s with opening := s.opening.step logFile unset s.disk }

abbrev Replaces (rule : Replacement → Prop) (logFile index : Option (List UInt8)) (bytes : List UInt8) :
    Replacement → Prop :=
  Relation.ReflTransGen (Turn rule logFile bytes) ⟨.of index, .begun⟩

def Opening.isChecked : Opening → Bool
  | .checked _ _ => true
  | _ => false

/-- **The name stays with its file** between the two times it is opened. -/
def NameKept (s : Replacement) : Prop := s.opening.isChecked = true → s.disk.name = some .new

instance (s : Replacement) : Decidable (NameKept s) := inferInstanceAs (Decidable (_ → _))

/-! ### What is kept -/

/-- What the program has read, it reads just so when more bytes follow. -/
def Extends {α : Type} (x : EStateM Returncode (List UInt8) α) : Prop :=
  ∀ data a rest more, x.run data = .ok a rest → x.run (data ++ more) = .ok a (rest ++ more)

theorem extends_pure {α : Type} (a : α) : Extends (pure a) := by
  intro data b rest more h
  cases h
  rfl

theorem extends_freadLittleEndian (n : Nat) : Extends (freadLittleEndian n) := by
  intro data value rest more h
  rcases Nat.lt_or_ge data.length n with hlen | hlen
  · rw [run_freadLittleEndian_of_lt hlen] at h
    cases h
  · have hlen' : n ≤ (data ++ more).length := by
      rw [List.length_append]
      omega
    rw [run_freadLittleEndian_of_le hlen] at h
    rw [run_freadLittleEndian_of_le hlen']
    cases h
    rw [List.take_append_of_le_length (by omega), ← List.drop_append_of_le_length (by omega)]

theorem Extends.bind {α β : Type} {x : EStateM Returncode (List UInt8) α}
    {f : α → EStateM Returncode (List UInt8) β} (hx : Extends x) (hf : ∀ a, Extends (f a)) :
    Extends (x >>= f) := by
  intro data b rest more h
  rw [EStateM.run_bind] at h ⊢
  cases hrun : x.run data with
  | ok a data₁ =>
    rw [hrun] at h
    rw [hx data a data₁ more hrun]
    exact hf a data₁ b rest more h
  | error code data₁ =>
    rw [hrun] at h
    cases h

theorem Extends.check {α : Type} {c : Prop} [Decidable c] {code : Returncode}
    {x : EStateM Returncode (List UInt8) α} (hx : Extends x) :
    Extends (do
      if c then
        throw code
      x) := by
  by_cases hc : c
  · simp only [if_pos hc]
    exact fun _ _ _ _ => nofun
  · simp only [if_neg hc]
    exact hx

theorem extends_readHashheader : Extends readHashheader := by
  have hfields : ∀ major minor : Nat, Extends (hashheaderVersion0 major minor) := by
    intro major minor
    unfold hashheaderVersion0
    repeat' refine (extends_freadLittleEndian _).bind fun _ => ?_
    exact .check (.check (.check (.check (extends_pure _))))
  unfold readHashheader
  refine (extends_freadLittleEndian _).bind fun _ => .check ?_
  refine (extends_freadLittleEndian _).bind fun _ => .check ?_
  exact (extends_freadLittleEndian _).bind fun _ => .check (hfields _ _)

/-- A header that has been read does not change while the file becomes longer. -/
theorem loadHashheader_append {bytes : List UInt8} {header : Hashheader} (more : List UInt8)
    (h : loadHashheader (some bytes) = .ok header) :
    loadHashheader (some (bytes ++ more)) = .ok header := by
  rw [loadHashheader] at h ⊢
  cases hrun : readHashheader.run bytes with
  | ok header' rest =>
    rw [extends_readHashheader _ _ _ more hrun]
    simp only [hrun] at h ⊢
    exact h
  | error code rest =>
    simp only [hrun] at h
    cases h

theorem hashOpenChecks_append {bytes : List UInt8} {logFile : Option (List UInt8)}
    {x : Hashheader × Logreader}
    (more : List UInt8) (h : hashOpenChecks (some bytes) logFile = .ok x) :
    hashOpenChecks (some (bytes ++ more)) logFile = .ok x := by
  rw [hashOpenChecks] at h ⊢
  cases hload : loadHashheader (some bytes) with
  | error code =>
    rw [hload] at h
    cases h
  | ok header =>
    rw [hload] at h
    rw [loadHashheader_append more hload]
    exact h

variable {logFile index : Option (List UInt8)} {bytes : List UInt8} {disk : Disk} {s s' : Replacement}
  {header : Hashheader} {log : Logreader} {file : Generation} {rule : Replacement → Prop}

/-- The old file is the old index, if there is one, and the new one has some of the bytes. -/
structure Disk.Sound (index : Option (List UInt8)) (bytes : List UInt8) (disk : Disk) : Prop where
  old : disk.old = index.getD []
  new : disk.new = bytes.take disk.new.length
  name : disk.name = some .old → index.isSome

theorem Disk.sound_of (index : Option (List UInt8)) (bytes : List UInt8) :
    (Disk.of index).Sound index bytes := by
  refine ⟨rfl, rfl, fun h => ?_⟩
  cases index with
  | none => cases h
  | some file => rfl

/-- **A step of the run** keeps the old file, and adds to the new one. -/
theorem Disk.Sound.writeStep (h : disk.Sound index bytes) (n : Nat) :
    (disk.writeStep bytes n).Sound index bytes ∧
      (∀ file, ∃ more, (disk.writeStep bytes n).file file = disk.file file ++ more) ∧
      (disk.name = some .new → (disk.writeStep bytes n).name = some .new) := by
  have hsame : ∀ file, ∃ more, disk.file file = disk.file file ++ more := fun file =>
    ⟨[], (List.append_nil _).symm⟩
  rw [Disk.writeStep]
  split
  · rename_i hname
    refine ⟨⟨h.old, h.new, nofun⟩, hsame, fun hnew => ?_⟩
    rw [hname] at hnew
    cases hnew
  · exact ⟨⟨h.old, h.new, nofun⟩, hsame, fun _ => rfl⟩
  · rename_i hname
    refine ⟨⟨h.old, ?_, fun hold => ?_⟩, ?_, fun _ => hname⟩
    · rw [List.length_take, List.take_eq_take_min]
    · rw [hname] at hold
      cases hold
    · intro file
      cases file with
      | old => exact hsame .old
      | new =>
        refine ⟨(bytes.drop disk.new.length).take n, ?_⟩
        show bytes.take (disk.new.length + n) = disk.new ++ _
        rw [List.take_add, ← h.new]

/-- **The header that was read is that of the file**, and the file is long enough when its size has
been looked at. -/
def Replacement.Fits (logFile index : Option (List UInt8)) (s : Replacement) : Prop :=
  match s.opening with
  | .begun => True
  | .checked header log =>
    ∃ file, s.disk.name = some file ∧ hashOpenChecks (some (s.disk.file file)) logFile = .ok (header, log)
  | .opened header log file =>
    hashOpenChecks (some (s.disk.file file)) logFile = .ok (header, log) ∧ (file = .old → index.isSome) ∧
      (file = .new → s.disk.name = some .new)
  | .sized header log file =>
    hashOpenChecks (some (s.disk.file file)) logFile = .ok (header, log) ∧ (file = .old → index.isSome) ∧
      (file = .new → header.dataLen ≤ s.disk.new.length)
  | .mapped header log file =>
    hashOpenChecks (some (s.disk.file file)) logFile = .ok (header, log) ∧ (file = .old → index.isSome) ∧
      (file = .new → header.dataLen ≤ s.disk.new.length) ∧ header.dataLen ≠ 0
  | .failed _ => True

/-- **A step of the writer.** -/
theorem Replacement.Fits.write (h : s.Fits logFile index) (hd : s.disk.Sound index bytes)
    (hkept : NameKept s) (n : Nat) :
    Replacement.Fits logFile index { s with disk := s.disk.writeStep bytes n } := by
  obtain ⟨-, hgrows, hname⟩ := hd.writeStep n
  have hchecks : ∀ {file header log}, hashOpenChecks (some (s.disk.file file)) logFile = .ok (header, log) →
      hashOpenChecks (some ((s.disk.writeStep bytes n).file file)) logFile = .ok (header, log) := by
    intro file header log hchecks
    obtain ⟨more, hmore⟩ := hgrows file
    rw [hmore]
    exact hashOpenChecks_append more hchecks
  have hlonger : s.disk.new.length ≤ (s.disk.writeStep bytes n).new.length := by
    obtain ⟨more, hmore⟩ := hgrows .new
    have : (s.disk.writeStep bytes n).new = s.disk.new ++ more := hmore
    rw [this, List.length_append]
    omega
  obtain ⟨disk, opening⟩ := s
  cases opening with
  | begun => trivial
  | checked header log =>
    obtain ⟨file, hfile, hheader⟩ := h
    have hnew := hkept rfl
    cases hfile.symm.trans hnew
    exact ⟨.new, hname hnew, hchecks hheader⟩
  | opened header log file =>
    obtain ⟨hheader, hold, hnew⟩ := h
    exact ⟨hchecks hheader, hold, fun hfile => hname (hnew hfile)⟩
  | sized header log file =>
    obtain ⟨hheader, hold, hnew⟩ := h
    exact ⟨hchecks hheader, hold, fun hfile => Nat.le_trans (hnew hfile) hlonger⟩
  | mapped header log file =>
    obtain ⟨hheader, hold, hnew, hne⟩ := h
    exact ⟨hchecks hheader, hold, fun hfile => Nat.le_trans (hnew hfile) hlonger, hne⟩
  | failed code => trivial

/-- **A step of the reader.** -/
theorem Replacement.Fits.read (h : s.Fits logFile index) (hd : s.disk.Sound index bytes) (unset : Nat) :
    Replacement.Fits logFile index { s with opening := s.opening.step logFile unset s.disk } := by
  obtain ⟨disk, opening⟩ := s
  cases opening with
  | begun =>
    show Replacement.Fits _ _ ⟨disk, Opening.step logFile unset disk .begun⟩
    rw [Opening.step]
    cases hchecks : hashOpenChecks disk.content logFile with
    | error code => trivial
    | ok x =>
      cases hname : disk.name with
      | none =>
        rw [Disk.content, hname] at hchecks
        cases hchecks
      | some file =>
        rw [Disk.content, hname] at hchecks
        exact ⟨file, hname, hchecks⟩
  | checked header log =>
    obtain ⟨file, hfile, hheader⟩ := h
    show Replacement.Fits _ _ ⟨disk, Opening.step logFile unset disk (.checked header log)⟩
    have hfile : disk.name = some file := hfile
    rw [Opening.step, hfile]
    refine ⟨hheader, ?_, ?_⟩
    · rintro rfl
      exact hd.name hfile
    · rintro rfl
      exact hfile
  | opened header log file =>
    obtain ⟨hheader, hold, hnew⟩ := h
    show Replacement.Fits _ _ ⟨disk, Opening.step logFile unset disk (.opened header log file)⟩
    rw [Opening.step]
    by_cases hshort : (disk.content.map List.length).getD unset < header.dataLen
    · rw [if_pos hshort]
      trivial
    · rw [if_neg hshort]
      refine ⟨hheader, hold, fun hfile => ?_⟩
      have hname : disk.name = some .new := hnew hfile
      rw [Disk.content, hname] at hshort
      exact Nat.le_of_not_lt hshort
  | sized header log file =>
    obtain ⟨hheader, hold, hnew⟩ := h
    show Replacement.Fits _ _ ⟨disk, Opening.step logFile unset disk (.sized header log file)⟩
    rw [Opening.step]
    by_cases hempty : header.dataLen = 0
    · rw [if_pos hempty]
      trivial
    · rw [if_neg hempty]
      exact ⟨hheader, hold, hnew, hempty⟩
  | mapped header log file => exact h
  | failed code => trivial

/-- **What holds in every state**, as long as the name stays with its file. -/
theorem fits_of_replaces (h : Replaces NameKept logFile index bytes s) :
    s.disk.Sound index bytes ∧ s.Fits logFile index := by
  induction h with
  | refl => exact ⟨Disk.sound_of index bytes, trivial⟩
  | tail _ hturn ih =>
    obtain ⟨hd, hfits⟩ := ih
    cases hturn with
    | write n hkept => exact ⟨(hd.writeStep n).1, hfits.write hd hkept n⟩
    | read unset => exact ⟨hd, hfits.read hd unset⟩

/-- **A reader that gets through** is one of the old index or of the new one. -/
theorem hashOpen_of_replaces (hwhole : ∀ header log, hashOpenChecks index logFile = .ok (header, log) →
      header.dataLen ≤ (index.getD []).length)
    (h : Replaces NameKept logFile index bytes s) (hmapped : s.opening = .mapped header log file) :
    ∃ complete, (complete = index ∨ complete = some bytes) ∧
      hashOpen complete logFile = .ok (mappedReader header log (s.disk.file file)) := by
  obtain ⟨hd, hfits⟩ := fits_of_replaces h
  rw [Replacement.Fits, hmapped] at hfits
  obtain ⟨hheader, hold, hnew, hne⟩ := hfits
  cases file with
  | old =>
    obtain ⟨content, rfl⟩ := Option.isSome_iff_exists.mp (hold rfl)
    have holdFile : s.disk.file .old = content := hd.old
    rw [holdFile] at hheader ⊢
    refine ⟨some content, Or.inl rfl, ?_⟩
    rw [hashOpen_eq, hheader]
    exact (if_neg (Nat.not_lt.mpr (hwhole header log hheader))).trans (if_neg hne)
  | new =>
    have hlen : header.dataLen ≤ s.disk.new.length := hnew rfl
    have hnewFile : s.disk.file .new = bytes.take s.disk.new.length := hd.new
    rw [hnewFile] at hheader ⊢
    have hall := hashOpenChecks_append (bytes.drop s.disk.new.length) hheader
    rw [List.take_append_drop] at hall
    have hbytes : header.dataLen ≤ bytes.length := by
      have := congrArg List.length hd.new
      rw [List.length_take] at this
      omega
    refine ⟨some bytes, Or.inr rfl, ?_⟩
    rw [hashOpen_eq, hall]
    refine ((if_neg (Nat.not_lt.mpr hbytes)).trans (if_neg hne)).trans ?_
    show Except.ok (mappedReader header log bytes) = .ok (mappedReader header log (bytes.take _))
    rw [mappedReader, mappedReader, List.take_take, Nat.min_eq_left hlen]

section Runs

open BlockStream RobinHood LastWrite

variable [Compressors] [HashFunctions] {t : CompressionType} {n : Nat} {calls : List Call}
  {w w' : Logwriter} {env : HashEnv} {hashSize : Nat}

/-- **Opening an index that is being replaced**: as long as the name stays with its file between the
two times it is opened, a reader that gets through is that of the old index or of the new one,
in every state from then on. -/
theorem hashOpen_of_replacing {runs : Rule} (h : Indexing t n runs calls w index)
    (_hrun : (hashWrite env logFile hashSize).run index = .ok () (some bytes))
    (hreplaces : Replaces NameKept logFile index bytes s) (hmapped : s.opening = .mapped header log file) :
    ∃ complete, (complete = index ∨ complete = some bytes) ∧
      hashOpen complete logFile = .ok (mappedReader header log (s.disk.file file)) := by
  refine hashOpen_of_replaces (fun header' log' hchecks => h.dataLen_le header' ?_) hreplaces hmapped
  unfold hashOpenChecks at hchecks
  cases hload : loadHashheader index with
  | error code =>
    rw [hload] at hchecks
    cases hchecks
  | ok header =>
    rw [hload] at hchecks
    cases hlog : logreaderOpen logFile with
    | error code =>
      simp only [hlog] at hchecks
      cases hchecks
    | ok log =>
      simp only [hlog] at hchecks
      split_ifs at hchecks
      cases hchecks
      rfl

inductive Move
  | write (n : Nat)
  | read (unset : Nat)

omit [Compressors] [HashFunctions] in
def Replacement.moves (rule : Replacement → Prop) [DecidablePred rule] (logFile : Option (List UInt8))
    (bytes : List UInt8) : List Move → Replacement → Option Replacement
  | [], s => some s
  | .write n :: rest, s =>
    if rule s then Replacement.moves rule logFile bytes rest { s with disk := s.disk.writeStep bytes n }
    else none
  | .read unset :: rest, s =>
    Replacement.moves rule logFile bytes rest { s with opening := s.opening.step logFile unset s.disk }

omit [Compressors] [HashFunctions] in
theorem turns_of_moves [DecidablePred rule] : ∀ {moves : List Move} {s s' : Replacement},
    Replacement.moves rule logFile bytes moves s = some s' →
    Relation.ReflTransGen (Turn rule logFile bytes) s s' := by
  intro moves
  induction moves with
  | nil =>
    intro s s' h
    cases h
    exact .refl
  | cons move rest ih =>
    intro s s' h
    cases move with
    | write n =>
      rw [Replacement.moves] at h
      split_ifs at h with hrule
      exact .head (.write n hrule) (ih h)
    | read unset => exact .head (.read unset) (ih h)

def lookUp (reader : Hashreader) (key : List UInt8) : Option IterState :=
  match logiterCreate zeroLogiter reader.log with
  | .error _ => none
  | .ok iter =>
    match (hashGet reader key).run iter with
    | .ok _ iter' => some iter'.state
    | .error _ _ => none

def lookUpIn (index logFile : Option (List UInt8)) (key : List UInt8) : Option IterState :=
  match hashOpen index logFile with
  | .error _ => none
  | .ok reader => lookUp reader key

/-- What looking a key up comes to when `sparkey_hash_open` has mapped a file. -/
def Replacement.lookUp (s : Replacement) (key : List UInt8) : Option IterState :=
  match s.opening with
  | .mapped header log file => Sparkey.lookUp (mappedReader header log (s.disk.file file)) key
  | _ => none

def TwoRuns.replaced (r : TwoRuns) (rule : Replacement → Prop) [DecidablePred rule] (moves : List Move) :
    Option Replacement :=
  match r.result with
  | .ok _ (some bytes) => Replacement.moves rule (some r.log'.data) bytes moves ⟨.of r.index, .begun⟩
  | _ => none

def Opening.isMapped : Opening → Bool
  | .mapped _ _ _ => true
  | _ => false

omit [Compressors] [HashFunctions] in
theorem TwoRuns.exists_of_replaced {r : TwoRuns} [DecidablePred rule] {moves : List Move}
    (h : r.replaced rule moves = some s) : ∃ bytes, r.result = .ok () (some bytes) ∧
      Replaces rule (some r.log'.data) r.index bytes s := by
  rw [TwoRuns.replaced] at h
  split at h
  · rename_i _ bytes hresult
    exact ⟨bytes, hresult, turns_of_moves h⟩
  · cases h

omit [Compressors] [HashFunctions] in
theorem hashOpen_of_replacing_sample :
    letI := literalCompressors
    letI := lengthHash
    ∃ w index bytes logFile s header log file complete,
      Indexing .none 0 wholeReads (fourPuts ++ [.flush] ++ fifthPut) w index ∧
      (hashWrite calmEnv logFile 4).run index = .ok () (some bytes) ∧
      Replaces NameKept logFile index bytes s ∧ s.opening = .mapped header log file ∧
      (complete = index ∨ complete = some bytes) ∧
      hashOpen complete logFile = .ok (mappedReader header log (s.disk.file file)) := by
  let := literalCompressors
  let := lengthHash
  -- the old file is opened before it is removed, and its size is taken from the new one
  have hfacts : (twoRuns calmEnv calmEnv fourPuts fifthPut 4 4).bind (fun r =>
      (r.replaced NameKept [.read 0, .read 0, .write 0, .write 0, .write 1000, .read 0, .read 0]).map fun s =>
        (decide r.log.header.Small, s.opening.isMapped)) = some (true, true) := by
    decide +kernel
  obtain ⟨r, hr, hfacts⟩ := Option.bind_eq_some_iff.mp hfacts
  obtain ⟨s, hreplaced, hfacts⟩ := Option.map_eq_some_iff.mp hfacts
  simp only [Prod.mk.injEq, decide_eq_true_eq] at hfacts
  obtain ⟨hsmall, hmapped⟩ := hfacts
  obtain ⟨w, w', hran⟩ := exists_of_twoRuns hr
  obtain ⟨w₁, hindexing, -⟩ := hran.indexing wholeReads ((hsmall.orderly rfl).wholeReads _)
  obtain ⟨bytes, hresult, hreplaces⟩ := r.exists_of_replaced hreplaced
  have hrun := hran.result.trans hresult
  rw [← hran.data] at hrun
  cases hopening : s.opening with
  | mapped header log file =>
    obtain ⟨complete, hcomplete, hopen⟩ :=
      hashOpen_of_replacing hindexing hrun hreplaces hopening
    exact ⟨w₁, _, bytes, _, s, header, log, file, complete, hindexing, hrun, hreplaces, hopening, hcomplete,
      hopen⟩
  | _ =>
    rw [hopening] at hmapped
    cases hmapped

omit [Compressors] [HashFunctions] in
/-- Between the two times the name is opened it goes from a table of one slot to one of three: a key
that either index finds is not found. -/
theorem lookUp_of_replacing :
    letI := literalCompressors
    letI := lengthHash
    ∃ w index bytes logFile s header log file,
      Indexing .none 0 wholeReads
        ([.add (.put (.of [1]) (.of []))] ++ [.flush] ++
          [.add (.put (.of [2]) (.of [])), .add (.put (.of [3]) (.of []))]) w index ∧
      (hashWrite calmEnv logFile 4).run index = .ok () (some bytes) ∧
      Replaces (fun _ => True) logFile index bytes s ∧ s.opening = .mapped header log file ∧
      lookUp (mappedReader header log (s.disk.file file)) [1] = some .invalid ∧
      lookUpIn index logFile [1] = some .active ∧ lookUpIn (some bytes) logFile [1] = some .active := by
  let := literalCompressors
  let := lengthHash
  have hfacts : (twoRuns calmEnv calmEnv [.add (.put (.of [1]) (.of []))]
      [.add (.put (.of [2]) (.of [])), .add (.put (.of [3]) (.of []))] 4 4).bind (fun r =>
      (r.replaced (fun _ => True)
        [.read 0, .write 0, .write 0, .write 1000, .read 0, .read 0, .read 0]).map fun s =>
        (decide r.log.header.Small, s.lookUp [1], lookUpIn r.index (some r.log'.data) [1],
          (success? r.result).bind fun index' => lookUpIn index' (some r.log'.data) [1]))
        = some (true, some .invalid, some .active, some .active) := by
    decide +kernel
  obtain ⟨r, hr, hfacts⟩ := Option.bind_eq_some_iff.mp hfacts
  obtain ⟨s, hreplaced, hfacts⟩ := Option.map_eq_some_iff.mp hfacts
  simp only [Prod.mk.injEq, decide_eq_true_eq] at hfacts
  obtain ⟨hsmall, hmapped, hold, hnew⟩ := hfacts
  obtain ⟨w, w', hran⟩ := exists_of_twoRuns hr
  obtain ⟨w₁, hindexing, -⟩ := hran.indexing wholeReads ((hsmall.orderly rfl).wholeReads _)
  obtain ⟨bytes, hresult, hreplaces⟩ := r.exists_of_replaced hreplaced
  have hrun := hran.result.trans hresult
  rw [← hran.data] at hrun
  rw [hresult] at hnew
  rw [Replacement.lookUp] at hmapped
  split at hmapped
  · rename_i header log file hopening
    exact ⟨w₁, _, bytes, _, s, header, log, file, hindexing, hrun, hreplaces, hopening, hmapped, hold, hnew⟩
  · cases hmapped

end Runs

end Sparkey
