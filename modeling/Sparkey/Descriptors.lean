import Sparkey.Index.Probing

/-!
# Descriptors, streams and mappings

`sparkey_hash_open` opens each file twice, as a stream for the header and as a descriptor to map,
and has to give back what it holds on every way out.  Here the system answers as it likes, and what
the process holds is the state.  A success is balanced by `sparkey_hash_close`.  An error is, too,
except at four exits: a stream that ends within the first words of either header, a log that cannot
be mapped under descriptor 0, and an index that is too small or cannot be mapped
(`balanced_iff`).
-/

namespace Sparkey

open Program

/-! ### What a process holds -/

inductive Resource
  | descriptor (fd : Nat)
  | stream (fp : Nat)
  | mapping (address len : Nat)
  deriving DecidableEq

abbrev Held := Multiset Resource

def acquire (r : Resource) : Run Held Unit := modify fun held => r ::ₘ held

def release (r : Resource) : Run Held Unit := modify fun held => held.erase r

/-- A call that answers with the number of a stream or a descriptor, or with the code made of
`errno`. -/
def acquired (make : Nat → Resource) (answer : Except Returncode Nat) : Run Held Nat :=
  match answer with
  | .error code => fail code
  | .ok n => do
    acquire (make n)
    pure n

abbrev Address := { address : Nat // address ≠ 0 }

/-- `fread_little_endian32` and `fread_little_endian64` on a stream with some bytes still to come. -/
def freadFrom (n : Nat) (bytes : List UInt8) : Run Held (Nat × List UInt8) :=
  match (freadLittleEndian n).run bytes with
  | .ok value rest => pure (value, rest)
  | .error code _ => fail code

/-! ### The headers -/

/-- What the system answers while a header is loaded: to `fopen`, and the bytes that can be read
before the file ends or fails. -/
structure LoadEnv where
  fopen : Except Returncode Nat
  bytes : List UInt8

/-- The numbers and codes that tell the two header loaders apart. -/
structure HeaderKind (α : Type) where
  magicNumber : Nat
  majorVersion : Nat
  minorVersion : Nat
  wrongMagicNumber : Returncode
  wrongMajorVersion : Returncode
  unsupportedMinorVersion : Returncode
  loader : Nat → Nat → EStateM Returncode (List UInt8) α

variable {α : Type}

/-- `sparkey_load_hashheader` and `sparkey_load_logheader`.  No entry of `loaders` is `NULL`. -/
def loadHeader (kind : HeaderKind α) (env : LoadEnv) : Run Held α := do
  let fp ← acquired .stream env.fopen
  let (tmp, bytes) ← freadFrom 4 env.bytes
  if tmp ≠ kind.magicNumber then
    release (.stream fp)
    fail kind.wrongMagicNumber
  let (majorVersion, bytes) ← freadFrom 4 bytes
  if majorVersion ≠ kind.majorVersion then
    release (.stream fp)
    fail kind.wrongMajorVersion
  let (minorVersion, bytes) ← freadFrom 4 bytes
  if kind.minorVersion < minorVersion then
    release (.stream fp)
    fail kind.unsupportedMinorVersion
  let x := (kind.loader majorVersion minorVersion).run bytes
  release (.stream fp)
  match x with
  | .ok header _ => pure header
  | .error code _ => fail code

def hashheaderKind : HeaderKind Hashheader where
  magicNumber := hashMagicNumber
  majorVersion := hashMajorVersion
  minorVersion := hashMinorVersion
  wrongMagicNumber := .wrongHashMagicNumber
  wrongMajorVersion := .wrongHashMajorVersion
  unsupportedMinorVersion := .unsupportedHashMinorVersion
  loader := hashheaderVersion0

def logheaderKind : HeaderKind Logheader where
  magicNumber := logMagicNumber
  majorVersion := logMajorVersion
  minorVersion := logMinorVersion
  wrongMagicNumber := .wrongLogMagicNumber
  wrongMajorVersion := .wrongLogMajorVersion
  unsupportedMinorVersion := .unsupportedLogMinorVersion
  loader := logheaderVersion0

def sparkeyLoadHashheader (env : LoadEnv) : Run Held Hashheader := loadHeader hashheaderKind env

def sparkeyLoadLogheader (env : LoadEnv) : Run Held Logheader := loadHeader logheaderKind env

/-! ### The readers -/

/-- `sparkey_logreader`, as far as it holds something. -/
structure LogHandle where
  openStatus : Nat
  header : Logheader
  dataLen : Nat
  fd : Nat
  data : Nat

/-- `sparkey_hashreader`, as far as it holds something. -/
structure HashHandle where
  openStatus : Nat
  header : Hashheader
  log : LogHandle
  dataLen : Nat
  fd : Nat
  data : Nat

def LogHandle.holds (log : LogHandle) : Held :=
  {.mapping log.data log.dataLen, .descriptor log.fd}

def HashHandle.holds (reader : HashHandle) : Held :=
  reader.log.holds + {.mapping reader.data reader.dataLen, .descriptor reader.fd}

/-- What the system answers during one call of `sparkey_hash_open`.  The sizes are what `stat` left in
`st_size`, and `malloc` answers with memory that holds anything, or with `NULL`. -/
structure OpenEnv where
  malloc : Option HashHandle
  hashLoad : LoadEnv
  logLoad : LoadEnv
  logSize : Nat
  logOpen : Except Returncode Nat
  logMmap : Option Address
  hashOpen : Except Returncode Nat
  hashSize : Nat
  hashMmap : Option Address

def logreaderOpenNoalloc (env : OpenEnv) : Run Held LogHandle := do
  let header ← sparkeyLoadLogheader env.logLoad
  let dataLen := header.dataEnd
  if env.logSize < dataLen then
    fail .logTooSmall
  let fd ← acquired .descriptor env.logOpen
  match env.logMmap with
  | none =>
    onlyIf (0 < fd) (release (.descriptor fd))
    fail .mmapFailed
  | some data =>
    acquire (.mapping data dataLen)
    pure { openStatus := magicValueLogreader, header, dataLen, fd, data }

def logreaderCloseNodealloc (log : LogHandle) : Run Held Unit := do
  if log.openStatus ≠ magicValueLogreader then
    return ()
  onlyIf (log.data ≠ 0) (release (.mapping log.data log.dataLen))
  release (.descriptor log.fd)

def hashClose (reader : HashHandle) : Run Held Unit := do
  logreaderCloseNodealloc reader.log
  if reader.openStatus = magicValueHashreader then
    onlyIf (reader.data ≠ 0) (release (.mapping reader.data reader.dataLen))
    release (.descriptor reader.fd)

/-- The checks of `sparkey_hash_open` of one header against the other. -/
def checkHeaders (header : Hashheader) (logHeader : Logheader) : Except Returncode Unit :=
  if header.fileIdentifier ≠ logHeader.fileIdentifier then .error .fileIdentifierMismatch
  else if logHeader.dataEnd < header.dataEnd then .error .hashHeaderCorrupt
  else if logHeader.maxKeyLen < header.maxKeyLen then .error .hashHeaderCorrupt
  else if logHeader.maxValueLen < header.maxValueLen then .error .hashHeaderCorrupt
  else .ok ()

def closeReader (reader : HashHandle) (code : Returncode) : Run Held HashHandle := do
  hashClose reader
  fail code

/-- `sparkey_hash_open`.  The reader is marked as open at the end. -/
def sparkeyHashOpen (env : OpenEnv) : Run Held HashHandle :=
  match env.malloc with
  | none => fail .internalError
  | some unset => do
    let reader := { unset with openStatus := 0 }
    let header ← sparkeyLoadHashheader env.hashLoad
    let log ← logreaderOpenNoalloc env
    let reader := { reader with header, log }
    match checkHeaders header log.header with
    | .error code => closeReader reader code
    | .ok _ =>
      match env.hashOpen with
      | .error code => closeReader reader code
      | .ok fd =>
        acquire (.descriptor fd)
        let reader := { reader with fd, dataLen := header.dataLen }
        if env.hashSize < reader.dataLen then
          closeReader reader .hashTooSmall
        else
          match env.hashMmap with
          | none => closeReader reader .mmapFailed
          | some data =>
            acquire (.mapping data reader.dataLen)
            pure { reader with data, openStatus := magicValueHashreader }

/-! ### The exits that lose something -/

/-- The stream ends within the first three words, those in front being right. -/
def HeaderKind.CutOff (kind : HeaderKind α) (bytes : List UInt8) : Prop :=
  bytes.length < 4 ∨ LittleEndian.decode (bytes.take 4) = kind.magicNumber ∧
    (bytes.length < 8 ∨ LittleEndian.decode ((bytes.drop 4).take 4) = kind.majorVersion ∧
      bytes.length < 12)

def HeaderKind.read (kind : HeaderKind α) : EStateM Returncode (List UInt8) α := do
  let tmp ← freadLittleEndian 4
  if tmp ≠ kind.magicNumber then
    throw kind.wrongMagicNumber
  let majorVersion ← freadLittleEndian 4
  if majorVersion ≠ kind.majorVersion then
    throw kind.wrongMajorVersion
  let minorVersion ← freadLittleEndian 4
  if kind.minorVersion < minorVersion then
    throw kind.unsupportedMinorVersion
  kind.loader majorVersion minorVersion

theorem read_hashheaderKind : hashheaderKind.read = readHashheader := rfl

theorem read_logheaderKind : logheaderKind.read = readLogheader := rfl

def LoadEnv.Loads (env : LoadEnv) (kind : HeaderKind α) (header : α) : Prop :=
  (∃ fp, env.fopen = .ok fp) ∧ ∃ rest, kind.read.run env.bytes = .ok header rest

/-- The file is opened, and ends too early. -/
def LoadEnv.Leaks (env : LoadEnv) (kind : HeaderKind α) : Prop :=
  (∃ fp, env.fopen = .ok fp) ∧ kind.CutOff env.bytes

/-- A log that cannot be mapped, and has descriptor 0. -/
def OpenEnv.LogLeaks (env : OpenEnv) (logHeader : Logheader) : Prop :=
  logHeader.dataEnd ≤ env.logSize ∧ env.logOpen = .ok 0 ∧ env.logMmap = none

def OpenEnv.LogOpens (env : OpenEnv) (logHeader : Logheader) (log : LogHandle) : Prop :=
  logHeader.dataEnd ≤ env.logSize ∧ ∃ (fd : Nat) (data : Address),
    env.logOpen = .ok fd ∧ env.logMmap = some data ∧
    log = { openStatus := magicValueLogreader, header := logHeader, dataLen := logHeader.dataEnd,
            fd, data }

def OpenEnv.IndexOpens (env : OpenEnv) (header : Hashheader) (log : LogHandle)
    (reader : HashHandle) : Prop :=
  checkHeaders header log.header = .ok () ∧ header.dataLen ≤ env.hashSize ∧
    ∃ (fd : Nat) (data : Address), env.hashOpen = .ok fd ∧ env.hashMmap = some data ∧
    reader = { openStatus := magicValueHashreader, header, log, dataLen := header.dataLen, fd, data }

/-- An index that fits the log, is opened, and is too small or cannot be mapped. -/
def OpenEnv.IndexLeaks (env : OpenEnv) (header : Hashheader) (logHeader : Logheader) : Prop :=
  checkHeaders header logHeader = .ok () ∧ (∃ fd, env.hashOpen = .ok fd) ∧
    (env.hashSize < header.dataLen ∨ env.hashMmap = none)

def OpenEnv.OpenLogLeaks (env : OpenEnv) : Prop :=
  env.logLoad.Leaks logheaderKind ∨
    ∃ logHeader, env.logLoad.Loads logheaderKind logHeader ∧ env.LogLeaks logHeader

def OpenEnv.OpensLog (env : OpenEnv) (log : LogHandle) : Prop :=
  ∃ logHeader, env.logLoad.Loads logheaderKind logHeader ∧ env.LogOpens logHeader log

def OpenEnv.Leaks (env : OpenEnv) : Prop :=
  env.malloc ≠ none ∧ (env.hashLoad.Leaks hashheaderKind ∨
    ∃ header, env.hashLoad.Loads hashheaderKind header ∧ (env.OpenLogLeaks ∨
      ∃ log, env.OpensLog log ∧ env.IndexLeaks header log.header))

/-! ### Accounts -/

/-- What becomes of what was held: an error gives all of it back unless something is lost, and a
success adds what its one result holds. -/
def Accounts (held : Held) (leaks : Prop) (opens : α → Prop) (holds : α → Held) :
    EStateM.Result (Stop Returncode) Held α → Prop
  | .ok a held' => ¬ leaks ∧ held' = holds a + held ∧ ∀ b, opens b ↔ b = a
  | .error (.rc _) held' => (held' = held ↔ ¬ leaks) ∧ ∀ b, ¬ opens b
  | .error .stuck _ => False

section Accounts

variable {β : Type} {held : Held} {leaks : Prop} {opens : α → Prop} {holds : α → Held}

theorem Accounts.bind {x : Run Held α} {f : α → Run Held β} {leaks' : α → Prop}
    {opens' : α → β → Prop} {holds' : β → Held} (hx : Accounts held leaks opens holds (x.run held))
    (hf : ∀ a, opens a → Accounts held (leaks' a) (opens' a) holds' ((f a).run (holds a + held))) :
    Accounts held (leaks ∨ ∃ a, opens a ∧ leaks' a) (fun b => ∃ a, opens a ∧ opens' a b) holds'
      ((x >>= f).run held) := by
  cases hrun : x.run held with
  | ok a held₁ =>
    rw [hrun] at hx
    obtain ⟨hleaks, rfl, hopens⟩ := hx
    rw [run_bind_ok hrun]
    simp only [hopens, exists_eq_left, hleaks, false_or]
    exact hf a ((hopens a).mpr rfl)
  | error e held₁ =>
    rw [hrun] at hx
    rw [run_bind_error hrun]
    cases e with
    | stuck => exact hx
    | rc code =>
      simp only [hx.2, false_and, exists_false, or_false]
      exact ⟨hx.1, fun _ h => h⟩

theorem accounts_error {code : Returncode} (hleaks : ¬ leaks) (hopens : ∀ a, ¬ opens a) :
    Accounts held leaks opens holds (.error (.rc code) held) :=
  ⟨iff_of_true rfl hleaks, hopens⟩

theorem accounts_lost {code : Returncode} {r : Resource} (hleaks : leaks) (hopens : ∀ a, ¬ opens a) :
    Accounts held leaks opens holds (.error (.rc code) (r ::ₘ held)) := by
  have hmore : r ::ₘ held ≠ held := by
    intro h
    have hcard := congrArg Multiset.card h
    rw [Multiset.card_cons] at hcard
    omega
  exact ⟨iff_of_false hmore (not_not.mpr hleaks), hopens⟩

end Accounts

/-! ### Loading a header -/

theorem run_freadFrom_of_lt {n : Nat} {bytes : List UInt8} (h : bytes.length < n) (held : Held) :
    (freadFrom n bytes).run held = .error (.rc .unexpectedEof) held := by
  rw [freadFrom, run_freadLittleEndian_of_lt h]
  rfl

theorem run_freadFrom_of_le {n : Nat} {bytes : List UInt8} (h : n ≤ bytes.length) (held : Held) :
    (freadFrom n bytes).run held =
      .ok (LittleEndian.decode (bytes.take n), bytes.drop n) held := by
  rw [freadFrom, run_freadLittleEndian_of_le h]
  rfl

section LoadHeader

variable {kind : HeaderKind α} {env : LoadEnv} {fp : Nat}

theorem run_release_fail (code : Returncode) (f : β → Run Held α) (held : Held) :
    ((release (.stream fp) >>= fun _ => fail code >>= f) : Run Held α).run (.stream fp ::ₘ held) =
      .error (.rc code) held := by
  rw [release, run_modify_bind, Multiset.erase_cons_head]
  rfl

theorem run_loadHeader_of_cutOff (hopen : env.fopen = .ok fp) (hcut : kind.CutOff env.bytes)
    (held : Held) :
    (loadHeader kind env).run held = .error (.rc .unexpectedEof) (.stream fp ::ₘ held) := by
  simp only [loadHeader, acquired, acquire, hopen, bind_assoc, run_modify_bind, pure_bind]
  rcases hcut with h₄ | ⟨hmagic, hcut⟩
  · rw [run_bind_error (run_freadFrom_of_lt h₄ _)]
  by_cases h₄ : env.bytes.length < 4
  · rw [run_bind_error (run_freadFrom_of_lt h₄ _)]
  rw [run_bind_ok (run_freadFrom_of_le (Nat.not_lt.mp h₄) _)]
  simp only [hmagic, ne_eq, not_true_eq_false, if_false]
  by_cases h₈ : (env.bytes.drop 4).length < 4
  · rw [run_bind_error (run_freadFrom_of_lt h₈ _)]
  rw [run_bind_ok (run_freadFrom_of_le (Nat.not_lt.mp h₈) _)]
  rcases hcut with h | ⟨hmajor, h⟩
  · rw [List.length_drop] at h₈
    omega
  simp only [hmajor, not_true_eq_false, if_false]
  have h₁₂ : ((env.bytes.drop 4).drop 4).length < 4 := by
    rw [List.length_drop] at h₈ ⊢
    rw [List.length_drop]
    omega
  rw [run_bind_error (run_freadFrom_of_lt h₁₂ _)]

theorem run_loadHeader_of_not_cutOff (hopen : env.fopen = .ok fp) (h : ¬ kind.CutOff env.bytes)
    (held : Held) :
    (loadHeader kind env).run held = match kind.read.run env.bytes with
      | .ok header _ => .ok header held
      | .error code _ => .error (.rc code) held := by
  simp only [HeaderKind.CutOff, not_or, not_and, not_lt] at h
  obtain ⟨h₄, h⟩ := h
  simp only [loadHeader, acquired, acquire, hopen, bind_assoc, run_modify_bind, pure_bind]
  rw [run_bind_ok (run_freadFrom_of_le h₄ _)]
  rw [HeaderKind.read, EStateM.run_bind, run_freadLittleEndian_of_le h₄]
  by_cases hmagic : LittleEndian.decode (env.bytes.take 4) ≠ kind.magicNumber
  · simp only [if_pos hmagic]
    exact run_release_fail _ _ held
  obtain ⟨h₈, h⟩ := h (not_not.mp hmagic)
  have h₈' : 4 ≤ (env.bytes.drop 4).length := by
    rw [List.length_drop]
    omega
  simp only [if_neg hmagic]
  rw [run_bind_ok (run_freadFrom_of_le h₈' _)]
  rw [EStateM.run_bind, run_freadLittleEndian_of_le h₈']
  by_cases hmajor : LittleEndian.decode ((env.bytes.drop 4).take 4) ≠ kind.majorVersion
  · simp only [if_pos hmajor]
    exact run_release_fail _ _ held
  have h₁₂ : 4 ≤ ((env.bytes.drop 4).drop 4).length := by
    have := h (not_not.mp hmajor)
    rw [List.length_drop, List.length_drop]
    omega
  simp only [if_neg hmajor]
  rw [run_bind_ok (run_freadFrom_of_le h₁₂ _)]
  rw [EStateM.run_bind, run_freadLittleEndian_of_le h₁₂]
  by_cases hminor : kind.minorVersion < LittleEndian.decode (((env.bytes.drop 4).drop 4).take 4)
  · simp only [if_pos hminor]
    exact run_release_fail _ _ held
  simp only [if_neg hminor]
  rw [release, run_modify_bind, Multiset.erase_cons_head]
  cases hload : (kind.loader (LittleEndian.decode ((env.bytes.drop 4).take 4))
      (LittleEndian.decode (((env.bytes.drop 4).drop 4).take 4))).run
        (((env.bytes.drop 4).drop 4).drop 4) with
  | ok header rest => rfl
  | error code rest => rfl

theorem read_of_cutOff {bytes : List UInt8} (h : kind.CutOff bytes) :
    ∃ rest, kind.read.run bytes = .error .unexpectedEof rest := by
  rw [HeaderKind.read, EStateM.run_bind]
  rcases Nat.lt_or_ge bytes.length 4 with h₄ | h₄
  · rw [run_freadLittleEndian_of_lt h₄]
    exact ⟨bytes, rfl⟩
  rcases h with h | ⟨hmagic, h⟩
  · omega
  rw [run_freadLittleEndian_of_le h₄]
  simp only [hmagic, ne_eq, not_true_eq_false, if_false]
  rw [EStateM.run_bind]
  rcases Nat.lt_or_ge (bytes.drop 4).length 4 with h₈ | h₈
  · rw [run_freadLittleEndian_of_lt h₈]
    exact ⟨_, rfl⟩
  rcases h with h | ⟨hmajor, h⟩
  · rw [List.length_drop] at h₈
    omega
  rw [run_freadLittleEndian_of_le h₈]
  simp only [hmajor, not_true_eq_false, if_false]
  have h₁₂ : ((bytes.drop 4).drop 4).length < 4 := by
    rw [List.length_drop] at h₈ ⊢
    rw [List.length_drop]
    omega
  rw [EStateM.run_bind, run_freadLittleEndian_of_lt h₁₂]
  exact ⟨_, rfl⟩

theorem LoadEnv.not_loads {env : LoadEnv} {code : Returncode} {rest : List UInt8}
    (h : kind.read.run env.bytes = .error code rest) (header : α) : ¬ env.Loads kind header := by
  rintro ⟨-, rest', hrun⟩
  rw [h] at hrun
  cases hrun

/-- A header is loaded, and the stream closed, unless it ends too early. -/
theorem accounts_loadHeader (kind : HeaderKind α) (env : LoadEnv) (held : Held) :
    Accounts held (env.Leaks kind) (env.Loads kind) (fun _ => 0) ((loadHeader kind env).run held) := by
  cases hopen : env.fopen with
  | error code =>
    have hnone : ¬ ∃ fp, env.fopen = .ok fp := by
      rintro ⟨fp, h⟩
      rw [hopen] at h
      cases h
    have hrun : (loadHeader kind env).run held = .error (.rc code) held := by
      rw [loadHeader, hopen]
      rfl
    rw [hrun]
    exact accounts_error (fun h => hnone h.1) fun header h => hnone h.1
  | ok fp =>
    by_cases hcut : kind.CutOff env.bytes
    · rw [run_loadHeader_of_cutOff hopen hcut]
      obtain ⟨rest, hread⟩ := read_of_cutOff hcut
      exact accounts_lost ⟨⟨fp, hopen⟩, hcut⟩ (LoadEnv.not_loads hread)
    · rw [run_loadHeader_of_not_cutOff hopen hcut]
      have hkeeps : ¬ env.Leaks kind := fun h => hcut h.2
      cases hread : kind.read.run env.bytes with
      | ok header rest =>
        refine ⟨hkeeps, (Multiset.zero_add held).symm, fun header' => ?_⟩
        constructor
        · rintro ⟨-, rest', hrun⟩
          rw [hread] at hrun
          cases hrun
          rfl
        · rintro rfl
          exact ⟨⟨fp, hopen⟩, rest, hread⟩
      | error code rest =>
        exact accounts_error hkeeps (LoadEnv.not_loads hread)

end LoadHeader

/-! ### Opening and closing the log -/

section Open

variable {env : OpenEnv}

/-- A log is opened, or nothing is kept of it, unless it has descriptor 0 and cannot be mapped. -/
theorem accounts_logreaderOpenNoalloc (env : OpenEnv) (held : Held) :
    Accounts held env.OpenLogLeaks env.OpensLog LogHandle.holds
      ((logreaderOpenNoalloc env).run held) := by
  refine (accounts_loadHeader logheaderKind env.logLoad held).bind fun header hheader => ?_
  rw [Multiset.zero_add]
  by_cases hsize : env.logSize < header.dataEnd
  · simp only [if_pos hsize]
    refine accounts_error (fun h => ?_) fun log h => ?_
    · exact absurd h.1 (Nat.not_le.mpr hsize)
    · exact absurd h.1 (Nat.not_le.mpr hsize)
  simp only [if_neg hsize]
  have hle : header.dataEnd ≤ env.logSize := Nat.not_lt.mp hsize
  cases hopen : env.logOpen with
  | error code =>
    refine accounts_error (fun h => ?_) fun log h => ?_
    · cases hopen.symm.trans h.2.1
    · obtain ⟨-, fd, data, hfd, -⟩ := h
      cases hopen.symm.trans hfd
  | ok fd =>
    simp only [acquired, acquire, bind_assoc, run_modify_bind, pure_bind]
    cases hmmap : env.logMmap with
    | none =>
      have hnone : ∀ log, ¬ env.LogOpens header log := by
        rintro log ⟨-, fd', data, -, hdata, -⟩
        cases hmmap.symm.trans hdata
      by_cases hfd : 0 < fd
      · rw [onlyIf, if_pos hfd, release, run_modify_bind, Multiset.erase_cons_head]
        refine accounts_error (fun h => ?_) hnone
        cases hopen.symm.trans h.2.1
        omega
      · obtain rfl : fd = 0 := by omega
        rw [onlyIf, if_neg hfd, pure_bind]
        exact accounts_lost ⟨hle, hopen, hmmap⟩ hnone
    | some data =>
      refine ⟨fun h => ?_, ?_, fun log => ?_⟩
      · cases hmmap.symm.trans h.2.2
      · simp [LogHandle.holds]
      · constructor
        · rintro ⟨-, fd', data', hfd', hdata', rfl⟩
          cases hopen.symm.trans hfd'
          cases hmmap.symm.trans hdata'
          rfl
        · rintro rfl
          exact ⟨hle, fd, data, hopen, hmmap, rfl⟩

theorem run_logreaderCloseNodealloc {log : LogHandle} (h : env.OpensLog log) (later : Held) :
    (logreaderCloseNodealloc log).run (log.holds + later) = .ok () later := by
  obtain ⟨header, -, -, fd, data, -, -, rfl⟩ := h
  simp [logreaderCloseNodealloc, LogHandle.holds, onlyIf, data.2, release]

/-! ### Opening and closing the index -/

theorem run_closeReader {reader : HashHandle} (hlog : env.OpensLog reader.log)
    (hstatus : reader.openStatus = 0) (code : Returncode) (later : Held) :
    (closeReader reader code).run (reader.log.holds + later) = .error (.rc code) later := by
  have hclose : (hashClose reader).run (reader.log.holds + later) = .ok () later := by
    rw [hashClose, run_bind_ok (run_logreaderCloseNodealloc hlog later), hstatus]
    rfl
  rw [closeReader, run_bind_ok hclose]
  rfl

theorem run_hashClose {header : Hashheader} {log : LogHandle} {reader : HashHandle}
    (hlog : env.OpensLog log) (h : env.IndexOpens header log reader) (later : Held) :
    (hashClose reader).run (reader.holds + later) = .ok () later := by
  obtain ⟨-, -, fd, data, -, -, rfl⟩ := h
  rw [hashClose, HashHandle.holds, Multiset.add_assoc,
    run_bind_ok (run_logreaderCloseNodealloc hlog _)]
  simp [onlyIf, data.2, release]

/-- An index is opened, or nothing is kept of the reader, its log included, unless the index is
open and too small or cannot be mapped. -/
theorem accounts_sparkeyHashOpen (env : OpenEnv) (held : Held) :
    Accounts held env.Leaks
      (fun reader => env.malloc ≠ none ∧ ∃ header, env.hashLoad.Loads hashheaderKind header ∧
        ∃ log, env.OpensLog log ∧ env.IndexOpens header log reader)
      HashHandle.holds ((sparkeyHashOpen env).run held) := by
  cases hmalloc : env.malloc with
  | none =>
    rw [sparkeyHashOpen, hmalloc]
    refine accounts_error (fun h => h.1 hmalloc) fun reader h => h.1 rfl
  | some unset =>
    rw [sparkeyHashOpen, hmalloc]
    simp only [OpenEnv.Leaks, hmalloc, ne_eq, reduceCtorEq, not_false_eq_true, true_and]
    refine (accounts_loadHeader hashheaderKind env.hashLoad held).bind fun header hheader => ?_
    rw [Multiset.zero_add]
    refine (accounts_logreaderOpenNoalloc env held).bind fun log hlog => ?_
    cases hcheck : checkHeaders header log.header with
    | error code =>
      simp only
      rw [run_closeReader hlog rfl]
      refine accounts_error (fun h => ?_) fun reader h => ?_
      · cases hcheck.symm.trans h.1
      · cases hcheck.symm.trans h.1
    | ok u =>
      cases hopen : env.hashOpen with
      | error code =>
        simp only
        rw [run_closeReader hlog rfl]
        refine accounts_error (fun h => ?_) fun reader h => ?_
        · obtain ⟨-, ⟨fd, hfd⟩, -⟩ := h
          cases hopen.symm.trans hfd
        · obtain ⟨-, -, fd, data, hfd, -⟩ := h
          cases hopen.symm.trans hfd
      | ok fd =>
        simp only [acquire, run_modify_bind]
        -- closing the reader leaves the descriptor of the index open
        have hswap : Resource.descriptor fd ::ₘ (log.holds + held) =
            log.holds + (Resource.descriptor fd ::ₘ held) := (Multiset.add_cons _ _ _).symm
        by_cases hsize : env.hashSize < header.dataLen
        · rw [if_pos hsize, hswap, run_closeReader hlog rfl]
          refine accounts_lost ⟨hcheck, ⟨fd, hopen⟩, Or.inl hsize⟩ fun reader h => ?_
          exact absurd h.2.1 (Nat.not_le.mpr hsize)
        rw [if_neg hsize]
        cases hmmap : env.hashMmap with
        | none =>
          simp only
          rw [hswap, run_closeReader hlog rfl]
          refine accounts_lost ⟨hcheck, ⟨fd, hopen⟩, Or.inr hmmap⟩ fun reader h => ?_
          obtain ⟨-, -, fd', data, -, hdata, -⟩ := h
          cases hmmap.symm.trans hdata
        | some data =>
          refine ⟨fun h => ?_, ?_, fun reader => ?_⟩
          · rcases h.2.2 with h | h
            · exact hsize h
            · cases hmmap.symm.trans h
          · simp [HashHandle.holds, Multiset.add_assoc]
          · constructor
            · rintro ⟨-, -, fd', data', hfd', hdata', rfl⟩
              cases hopen.symm.trans hfd'
              cases hmmap.symm.trans hdata'
              rfl
            · rintro rfl
              exact ⟨hcheck, Nat.not_lt.mp hsize, fd, data, hopen, hmmap, rfl⟩

/-- What the call leaves open is what a later `sparkey_hash_close` removes, after a success, and
what was open before, after an error. -/
def Balanced (env : OpenEnv) (held : Held) : Prop :=
  match (sparkeyHashOpen env).run held with
  | .ok reader held' => ∃ added, held' = added + held ∧
      ∀ later, (hashClose reader).run (added + later) = .ok () later
  | .error (.rc _) held' => held' = held
  | .error .stuck _ => False

/-- **The balance of `sparkey_hash_open`.**  Whatever the files are and the system answers, nothing
is lost exactly if none of the four exits is taken. -/
theorem balanced_iff (env : OpenEnv) (held : Held) : Balanced env held ↔ ¬ env.Leaks := by
  have haccounts := accounts_sparkeyHashOpen env held
  rw [Balanced]
  cases hrun : (sparkeyHashOpen env).run held with
  | ok reader held' =>
    rw [hrun] at haccounts
    obtain ⟨hleaks, rfl, hopens⟩ := haccounts
    obtain ⟨-, header, -, log, hlog, hindex⟩ := (hopens reader).mpr rfl
    exact iff_of_true ⟨reader.holds, rfl, run_hashClose hlog hindex⟩ hleaks
  | error e held' =>
    rw [hrun] at haccounts
    cases e with
    | rc code => exact haccounts.1
    | stuck => exact haccounts.elim

end Open

/-! ### The index that is opened

On a system where nothing fails, the call answers what `hashOpen` makes of the contents of the
files. -/

/-- `sparkey_load_hashheader` and `sparkey_load_logheader` on a file with some content, or on
none. -/
def HeaderKind.load (kind : HeaderKind α) (file : Option (List UInt8)) : Except Returncode α :=
  match file with
  | none => .error .fileNotFound
  | some bytes =>
    match kind.read.run bytes with
    | .ok header _ => .ok header
    | .error code _ => .error code

theorem load_hashheaderKind (file : Option (List UInt8)) :
    hashheaderKind.load file = loadHashheader file := by
  cases file with
  | none => rfl
  | some bytes =>
    simp only [HeaderKind.load, loadHashheader, read_hashheaderKind]
    cases readHashheader.run bytes <;> rfl

theorem load_logheaderKind (file : Option (List UInt8)) :
    logheaderKind.load file = loadLogheader file := by
  cases file with
  | none => rfl
  | some bytes =>
    simp only [HeaderKind.load, loadLogheader, read_logheaderKind]
    cases readLogheader.run bytes <;> rfl

/-- A file that can be opened and read if it is there. -/
def LoadEnv.Orderly (env : LoadEnv) : Option (List UInt8) → Prop
  | none => env.fopen = .error .fileNotFound
  | some bytes => (∃ fp, env.fopen = .ok fp) ∧ env.bytes = bytes

/-- Two files that can be opened, read and mapped if they are there.  There is no mapping of
nothing. -/
structure OpenEnv.Orderly (env : OpenEnv) (hashFile logFile : Option (List UInt8)) : Prop where
  malloc : env.malloc ≠ none
  hashLoad : env.hashLoad.Orderly hashFile
  logLoad : env.logLoad.Orderly logFile
  logSize : env.logSize = (logFile.getD []).length
  logOpen : ∃ fd, env.logOpen = .ok fd
  logMmap : env.logMmap ≠ none
  hashOpen : ∃ fd, env.hashOpen = .ok fd
  hashSize : env.hashSize = (hashFile.getD []).length
  hashMmap : ∀ header, loadHashheader hashFile = .ok header →
    (env.hashMmap = none ↔ header.dataLen = 0)

/-- A handle on what a reader has mapped. -/
structure HashHandle.On (handle : HashHandle) (reader : Hashreader) : Prop where
  openStatus : handle.openStatus = reader.openStatus
  header : handle.header = reader.header
  dataLen : handle.dataLen = reader.dataLen
  logOpenStatus : handle.log.openStatus = reader.log.openStatus
  logHeader : handle.log.header = reader.log.header
  logDataLen : handle.log.dataLen = reader.log.dataLen

section Orderly

variable {kind : HeaderKind α} {hashFile logFile : Option (List UInt8)} {held : Held}

theorem LoadEnv.Orderly.run_ok {env : LoadEnv} {file : Option (List UInt8)} {header : α}
    (h : env.Orderly file) (hload : kind.load file = .ok header) :
    (loadHeader kind env).run held = .ok header held := by
  cases file with
  | none => cases hload
  | some bytes =>
    obtain ⟨⟨fp, hopen⟩, rfl⟩ := h
    simp only [HeaderKind.load] at hload
    by_cases hcut : kind.CutOff env.bytes
    · obtain ⟨rest, hread⟩ := read_of_cutOff hcut
      rw [hread] at hload
      cases hload
    · rw [run_loadHeader_of_not_cutOff hopen hcut]
      cases hread : kind.read.run env.bytes with
      | ok header' rest =>
        rw [hread] at hload
        cases hload
        rfl
      | error code rest =>
        rw [hread] at hload
        cases hload

theorem LoadEnv.Orderly.run_error {env : LoadEnv} {file : Option (List UInt8)} {code : Returncode}
    (h : env.Orderly file) (hload : kind.load file = .error code) (held : Held) :
    ∃ held', (loadHeader kind env).run held = .error (.rc code) held' := by
  cases file with
  | none =>
    cases hload
    refine ⟨held, ?_⟩
    rw [loadHeader, show env.fopen = .error .fileNotFound from h]
    rfl
  | some bytes =>
    obtain ⟨⟨fp, hopen⟩, rfl⟩ := h
    simp only [HeaderKind.load] at hload
    by_cases hcut : kind.CutOff env.bytes
    · obtain ⟨rest, hread⟩ := read_of_cutOff hcut
      rw [hread] at hload
      cases hload
      exact ⟨_, run_loadHeader_of_cutOff hopen hcut held⟩
    · refine ⟨held, ?_⟩
      rw [run_loadHeader_of_not_cutOff hopen hcut]
      cases hread : kind.read.run env.bytes with
      | ok header' rest =>
        rw [hread] at hload
        cases hload
      | error code' rest =>
        rw [hread] at hload
        cases hload
        rfl

variable {env : OpenEnv}

theorem OpenEnv.Orderly.run_log_ok {log : Logreader} (h : env.Orderly hashFile logFile)
    (hlog : logreaderOpen logFile = .ok log) (held : Held) :
    ∃ handle held', (logreaderOpenNoalloc env).run held = .ok handle held' ∧
      handle.openStatus = log.openStatus ∧ handle.header = log.header ∧
      handle.dataLen = log.dataLen := by
  rw [logreaderOpen] at hlog
  rw [← load_logheaderKind] at hlog
  cases hload : logheaderKind.load logFile with
  | error code =>
    rw [hload] at hlog
    cases hlog
  | ok header =>
    simp only [hload] at hlog
    obtain ⟨fd, hfd⟩ := h.logOpen
    obtain ⟨data, hdata⟩ := Option.ne_none_iff_exists'.mp h.logMmap
    split_ifs at hlog with hsize
    cases hlog
    rw [← h.logSize] at hsize
    rw [logreaderOpenNoalloc, sparkeyLoadLogheader, run_bind_ok (h.logLoad.run_ok hload),
      if_neg hsize, hfd]
    simp only [acquired, acquire, bind_assoc, run_modify_bind, pure_bind, hdata]
    exact ⟨_, _, rfl, rfl, rfl, rfl⟩

theorem OpenEnv.Orderly.run_log_error {code : Returncode} (h : env.Orderly hashFile logFile)
    (hlog : logreaderOpen logFile = .error code) (held : Held) :
    ∃ held', (logreaderOpenNoalloc env).run held = .error (.rc code) held' := by
  rw [logreaderOpen] at hlog
  rw [← load_logheaderKind] at hlog
  cases hload : logheaderKind.load logFile with
  | error code' =>
    rw [hload] at hlog
    cases hlog
    obtain ⟨held', hrun⟩ := h.logLoad.run_error hload held
    exact ⟨held', run_bind_error hrun⟩
  | ok header =>
    simp only [hload] at hlog
    split_ifs at hlog with hsize
    cases hlog
    rw [← h.logSize] at hsize
    rw [logreaderOpenNoalloc, sparkeyLoadLogheader, run_bind_ok (h.logLoad.run_ok hload),
      if_pos hsize]
    exact ⟨held, rfl⟩

theorem hashOpen_of_loads {header : Hashheader} {log : Logreader}
    (hload : loadHashheader hashFile = .ok header) (hlog : logreaderOpen logFile = .ok log) :
    hashOpen hashFile logFile = (checkHeaders header log.header).bind fun _ =>
      if (hashFile.getD []).length < header.dataLen then .error .hashTooSmall
      else if header.dataLen = 0 then .error .mmapFailed
      else .ok { openStatus := magicValueHashreader, header, log, dataLen := header.dataLen,
                 data := (hashFile.getD []).take header.dataLen } := by
  simp only [hashOpen, hload, hlog, checkHeaders]
  split_ifs <;> rfl

theorem exists_run_closeReader (handle : HashHandle) (code : Returncode) (held : Held) :
    ∃ held', (closeReader handle code).run held = .error (.rc code) held' := by
  unfold closeReader hashClose logreaderCloseNodealloc onlyIf
  split_ifs <;> exact ⟨_, rfl⟩

/-- The call answers what was made of the files. -/
def Echoes (r : Except Returncode Hashreader) :
    EStateM.Result (Stop Returncode) Held HashHandle → Prop
  | .ok handle _ => ∃ reader, r = .ok reader ∧ handle.On reader
  | .error (.rc code) _ => r = .error code
  | .error .stuck _ => False

theorem echoes_closeReader {r : Except Returncode Hashreader} {code : Returncode}
    (h : r = .error code) (handle : HashHandle) :
    Echoes r ((closeReader handle code).run held) := by
  obtain ⟨held', hrun⟩ := exists_run_closeReader handle code held
  rw [hrun]
  exact h

/-- **The index that is opened** is the one that `hashOpen` makes of the files, and the code of one
that is not is that of `hashOpen`. -/
theorem echoes_sparkeyHashOpen (h : env.Orderly hashFile logFile) (held : Held) :
    Echoes (hashOpen hashFile logFile) ((sparkeyHashOpen env).run held) := by
  obtain ⟨unset, hmalloc⟩ := Option.ne_none_iff_exists'.mp h.malloc
  rw [sparkeyHashOpen, hmalloc]
  simp only
  cases hload : loadHashheader hashFile with
  | error code =>
    have hmade : hashOpen hashFile logFile = .error code := by rw [hashOpen, hload]
    rw [← load_hashheaderKind] at hload
    obtain ⟨held₁, hrun⟩ := h.hashLoad.run_error hload held
    rw [sparkeyLoadHashheader, run_bind_error hrun]
    exact hmade
  | ok header =>
    have hmmap := h.hashMmap header hload
    have hrun : (sparkeyLoadHashheader env.hashLoad).run held = .ok header held := by
      rw [← load_hashheaderKind] at hload
      exact h.hashLoad.run_ok hload
    rw [run_bind_ok hrun]
    cases hlog : logreaderOpen logFile with
    | error code =>
      obtain ⟨held₁, hrun⟩ := h.run_log_error hlog held
      rw [run_bind_error hrun]
      show hashOpen hashFile logFile = .error code
      rw [hashOpen, hload, hlog]
    | ok log =>
      obtain ⟨handle, held₁, hopen, hstatus, hheader, hlen⟩ := h.run_log_ok hlog held
      rw [run_bind_ok hopen, hheader, hashOpen_of_loads hload hlog]
      cases hcheck : checkHeaders header log.header with
      | error code => exact echoes_closeReader rfl _
      | ok u =>
        obtain ⟨fd, hfd⟩ := h.hashOpen
        simp only [hfd, acquire, run_modify_bind, Except.bind, ← h.hashSize]
        by_cases hsize : env.hashSize < header.dataLen
        · rw [if_pos hsize, if_pos hsize]
          exact echoes_closeReader rfl _
        · rw [if_neg hsize, if_neg hsize]
          cases hmap : env.hashMmap with
          | none =>
            rw [if_pos (hmmap.mp hmap)]
            exact echoes_closeReader rfl _
          | some data =>
            have hne : header.dataLen ≠ 0 := fun hzero => by
              cases hmap.symm.trans (hmmap.mpr hzero)
            rw [if_neg hne]
            exact ⟨_, rfl, rfl, rfl, rfl, hstatus, hheader, hlen⟩

end Orderly

def sampleIndex : List UInt8 := (bareHeader 1).bytes ++ List.replicate 8 0

def unsetHandle : HashHandle := ⟨0, bareHeader 1, ⟨0, bareLogheader, 0, 0, 0⟩, 0, 0, 0⟩

def sampleOpenEnv : OpenEnv where
  malloc := some unsetHandle
  hashLoad := ⟨.ok 3, sampleIndex⟩
  logLoad := ⟨.ok 4, bareLogheader.bytes⟩
  logSize := bareLogheader.bytes.length
  logOpen := .ok 5
  logMmap := some ⟨4096, by decide⟩
  hashOpen := .ok 6
  hashSize := sampleIndex.length
  hashMmap := some ⟨8192, by decide⟩

/-- The index is opened, and the handle is on what was made of the files. -/
theorem echoes_sparkeyHashOpen_sample : ∃ reader handle held,
    hashOpen (some sampleIndex) (some bareLogheader.bytes) = .ok reader ∧
      (sparkeyHashOpen sampleOpenEnv).run 0 = .ok handle held ∧ handle.On reader := by
  obtain ⟨reader, hopen, hheader⟩ : ∃ reader,
      hashOpen (some sampleIndex) (some bareLogheader.bytes) = .ok reader ∧ reader.header = bareHeader 1 :=
    exists_bareReader 1 (List.replicate 8 0) (by decide +kernel)
  have horderly : sampleOpenEnv.Orderly (some sampleIndex) (some bareLogheader.bytes) := by
    refine ⟨Option.some_ne_none _, ⟨⟨3, rfl⟩, rfl⟩, ⟨⟨4, rfl⟩, rfl⟩, rfl, ⟨5, rfl⟩, Option.some_ne_none _,
      ⟨6, rfl⟩, rfl, fun header hload => ?_⟩
    obtain ⟨-, -, hload'⟩ := mapped_of_hashOpen hopen
    have heq : header = bareHeader 1 := (Except.ok.inj (hload.symm.trans hload')).trans hheader
    rw [heq]
    exact iff_of_false (Option.some_ne_none _) (by decide)
  -- nothing is to be evaluated below
  generalize sampleOpenEnv = env at horderly ⊢
  generalize some sampleIndex = hashFile at hopen horderly ⊢
  have hechoes := echoes_sparkeyHashOpen horderly 0
  rw [hopen] at hechoes
  cases hrun : (sparkeyHashOpen env).run 0 with
  | ok handle held =>
    rw [hrun] at hechoes
    obtain ⟨reader', hreader, hon⟩ := hechoes
    rw [← Except.ok.inj hreader] at hon
    exact ⟨reader, handle, held, hopen, rfl, hon⟩
  | error e held =>
    rw [hrun] at hechoes
    cases e <;> cases hechoes

end Sparkey
