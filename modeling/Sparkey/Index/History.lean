import Sparkey.Hashreader
import Sparkey.Index.Refresh

/-!
# A log and its index over time

`Indexing` are the states of a log and its index: the log is written on, and now and
then `sparkey_hash_write` runs on what a flush has published.  As long as the runs are
`Orderly`, the index is at all times that of an earlier state of the log
(`Indexing.follows`), so it can be opened (`hashOpen_of_indexing`).
-/

namespace Sparkey

open Program BlockStream RobinHood LastWrite

/-! ### Opening an index -/

structure OpenedIndex (reader : Hashreader) (log : Logreader) (header : Hashheader)
    (hashtable : List UInt8) : Prop where
  openStatus : reader.openStatus = magicValueHashreader
  header : reader.header = header
  log : reader.log = log
  hashtable : reader.hashtable = hashtable

variable [Compressors] [HashFunctions] {log log₀ : Logreader} {items more : List (Item Entry)}
  {header old : Hashheader} {hashtable : List UInt8} {logFile index index' : Option (List UInt8)}

omit [Compressors] in
/-- The index of an earlier state of the log is as long as its header says. -/
theorem IndexOf.dataLen_eq (hi : IndexOf log₀ items header hashtable) :
    header.dataLen = (header.bytes ++ hashtable).length := by
  have hlen := hi.sized.length
  have hlt := hi.length_lt
  have hsize : hashHeaderSize = 112 := rfl
  have hwidth : u32 (header.hashSize + header.addressSize) = header.slotSize := by
    rw [Nat.add_comm]
    exact u32_of_lt (Nat.lt_of_le_of_lt hi.sized.slotSize_le (by decide))
  rw [Hashheader.dataLen, hi.current.headerSize, hwidth, Nat.mul_comm, List.length_append,
    header.length_bytes, hlen, u64_of_lt (by omega)]

omit [Compressors] in
/-- **The index of an earlier state of the log** passes all checks of `sparkey_hash_open`, if the
loader takes its header. -/
theorem IndexOf.hashOpen (hi : IndexOf log₀ items header hashtable)
    (hload : loadHashheader (some (header.bytes ++ hashtable)) = .ok header)
    (hgrows : log₀.header.Grows log.header) (hle : log₀.header.dataEnd ≤ log.header.dataEnd)
    (hopen : logreaderOpen logFile = .ok log) :
    ∃ reader, hashOpen (some (header.bytes ++ hashtable)) logFile = .ok reader ∧
      OpenedIndex reader log header hashtable := by
  have hc := hi.covers
  have hdataLen := hi.dataLen_eq
  have hne : (header.bytes ++ hashtable).length ≠ 0 := by
    rw [List.length_append, header.length_bytes, hashHeaderSize]
    omega
  rw [Sparkey.hashOpen, hload]
  simp only [hopen]
  rw [if_neg (not_not_intro (hc.fileIdentifier.trans hgrows.fileIdentifier.symm)),
    if_neg (Nat.not_lt.mpr (hc.dataEnd ▸ hle)),
    if_neg (Nat.not_lt.mpr (Nat.le_trans hc.maxKeyLen_le hgrows.maxKeyLen)),
    if_neg (Nat.not_lt.mpr (Nat.le_trans hc.maxValueLen_le hgrows.maxValueLen)), hdataLen,
    Option.getD_some, if_neg (Nat.lt_irrefl _), if_neg hne]
  refine ⟨_, rfl, rfl, rfl, rfl, ?_⟩
  show ((header.bytes ++ hashtable).take (header.bytes ++ hashtable).length).drop header.headerSize = _
  rw [List.take_length, hi.current.headerSize, ← header.length_bytes, List.drop_left]

omit [Compressors] in
theorem IndexOf.load_of_hashOpen (hi : IndexOf log₀ items header hashtable) {reader : Hashreader}
    (h : Sparkey.hashOpen (some (header.bytes ++ hashtable)) logFile = .ok reader) :
    loadHashheader (some (header.bytes ++ hashtable)) = .ok header := by
  rw [Sparkey.hashOpen, loadHashheader_bytes hi.fits hi.current] at h
  rw [loadHashheader_bytes hi.fits hi.current]
  by_cases hconsistent : header.Consistent
  · rw [if_pos hconsistent]
  · rw [if_neg hconsistent] at h
    cases h

/-! ### The states of a log and its index -/

omit [Compressors] [HashFunctions] in
/-- A run whose reads get all they ask for, on a log whose positions leave room for the numbers of
the entries in an address. -/
structure Orderly (env : HashEnv) (logHeader : Logheader) : Prop where
  reads : env.reads = []
  dataEnd_lt : logHeader.dataEnd < 2 ^ (64 - intLog2 logHeader.maxEntriesPerBlock)

/-- What is asked of a run: of the system, the header of the log, the old header and the
argument. -/
abbrev Rule := HashEnv → Logheader → Option Hashheader → Nat → Prop

omit [Compressors] [HashFunctions] in
/-- What every run needs: its reads of an old index, if there is one, get all they ask for, and
the positions leave room for the numbers of the entries. -/
structure WholeReads (env : HashEnv) (logHeader : Logheader) (old : Option Hashheader) : Prop where
  reads : old = none ∨ env.reads = []
  dataEnd_lt : logHeader.dataEnd < 2 ^ (64 - intLog2 logHeader.maxEntriesPerBlock)

omit [Compressors] [HashFunctions] in
theorem Orderly.wholeReads {env : HashEnv} {logHeader : Logheader} (h : Orderly env logHeader)
    (old : Option Hashheader) : WholeReads env logHeader old :=
  ⟨Or.inr h.reads, h.dataEnd_lt⟩

omit [Compressors] [HashFunctions] in
def wholeReads : Rule := fun env logHeader old _ => WholeReads env logHeader old

/-- The states of a log and its index, where every run was by the rule. -/
inductive Indexing (t : CompressionType) (n : Nat) (rule : Rule) :
    List Call → Logwriter → Option (List UInt8) → Prop
  | start {calls : List Call} {w : Logwriter} : Writing t n calls w → Indexing t n rule calls w none
  | call {calls : List Call} {c : Call} {w w' : Logwriter} {index : Option (List UInt8)} :
      Indexing t n rule calls w index → Done c w w' → Indexing t n rule (calls ++ [c]) w' index
  | run {calls : List Call} {w w' : Logwriter} {index index' : Option (List UInt8)} {env : HashEnv}
      {log : Logreader} {hashSize : Nat} : Indexing t n rule calls w index →
      logwriterFlush.run w = .ok () w' → logreaderOpen (some w'.fd.data) = .ok log →
      rule env log.header (oldHeader? log.header index) hashSize →
      (hashWrite env (some w'.fd.data) hashSize).run index = .ok () index' →
      Indexing t n rule (calls ++ [.flush]) w' index'

variable {t : CompressionType} {n : Nat} {rule : Rule} {calls : List Call} {w w' : Logwriter}
  {env : HashEnv} {hashSize : Nat}

theorem Indexing.going {more : List Call} (h : Indexing t n rule calls w index)
    (hgo : Going w more w') : Indexing t n rule (calls ++ more) w' index := by
  induction hgo with
  | refl => rwa [List.append_nil]
  | call _ hdone ih =>
    rw [← List.append_assoc]
    exact ih.call hdone

abbrev Known := List (Item Entry) → Hashheader → Prop

/-- The index, if there is one, is that of an earlier state of the log. -/
inductive Follows (t : CompressionType) (n : Nat) (known : Known) :
    List Call → Logwriter → Option (List UInt8) → Prop
  | absent {calls : List Call} {w : Logwriter} : Writing t n calls w → Follows t n known calls w none
  | present {calls more : List Call} {w w' : Logwriter} {log : Logreader} {items : List (Item Entry)}
      {header : Hashheader} {hashtable : List UInt8} : Published t n calls w log items →
      Going w more w' → IndexOf log items header hashtable → known items header →
      Follows t n known (calls ++ more) w' (some (header.bytes ++ hashtable))

variable {known : Known}

theorem Follows.writing (h : Follows t n known calls w index) : Writing t n calls w := by
  cases h with
  | absent hw => exact hw
  | present hp hgo _ _ => exact hp.writing.going hgo

theorem Follows.done {c : Call} (h : Follows t n known calls w index) (hdone : Done c w w') :
    Follows t n known (calls ++ [c]) w' index := by
  cases h with
  | absent hw => exact .absent (hw.done hdone)
  | present hp hgo hi hknown =>
    rw [List.append_assoc]
    exact .present hp (hgo.call hdone) hi hknown

/-- **What is known of an index** is known of the next one. -/
structure Rule.Keeps (rule : Rule) (known : Known) : Prop where
  fresh : ∀ {items : List (Item Entry)} {header : Hashheader},
    header.garbageSize = u64 (contents itemKind items).garbage → known items header
  grown : ∀ {env : HashEnv} {logHeader : Logheader} {hashSize : Nat} {items more : List (Item Entry)}
    {old header : Hashheader}, rule env logHeader (some old) hashSize → known items old →
    Refreshed items more old header logHeader hashSize → known (items ++ more) header

/-- **A run** makes the index of the log that is there. -/
theorem Follows.run (h : Follows t n known calls w index) (hkeeps : rule.Keeps known)
    (hfit : ∀ e ∈ entriesOf calls, HeadFits (.of t n) e) (hz : (Setting.of t n).Lossless)
    (hflush : logwriterFlush.run w = .ok () w')
    (hopen : logreaderOpen (some w'.fd.data) = .ok log)
    (hwhole : WholeReads env log.header (oldHeader? log.header index))
    (hrule : rule env log.header (oldHeader? log.header index) hashSize)
    (hrun : (hashWrite env (some w'.fd.data) hashSize).run index = .ok () index') :
    ∃ items header hashtable, Published t n (calls ++ [.flush]) w' log items ∧
      index' = some (header.bytes ++ hashtable) ∧ IndexOf log items header hashtable ∧
      known items header := by
  cases h with
  | absent hw =>
    obtain ⟨items, hp⟩ := published_of_flush hw hfit hz hflush hopen
    obtain ⟨header, hashtable, hindex, hi, hgarbage⟩ := indexOf_of_fresh (hp.logged hz)
      (hp.fileIdentifier_lt hz) hwhole.dataEnd_lt hopen hrun
    exact ⟨items, header, hashtable, hp, hindex, hi, hkeeps.fresh hgarbage⟩
  | present hp hgo hi hknown =>
    rename_i calls more w₀ log₀ items old hashtable
    have hentries := entriesOf_append_calls calls more
    obtain ⟨new, hgrown, hp'⟩ := hp.grown hgo hflush hopen
      (fun e he => hfit e (hentries ▸ List.mem_append_right _ he)) hz
    obtain ⟨header, hashtable', hindex, hi', hold⟩ := indexOf_of_grown hgrown hi
      (hp'.fileIdentifier_lt hz) hwhole.dataEnd_lt hopen hwhole.reads hrun
    refine ⟨_, header, hashtable', hp', hindex, hi', ?_⟩
    rcases hold with ⟨hold, hrefreshed⟩ | ⟨-, hgarbage⟩
    · rw [hold] at hrule
      exact hkeeps.grown hrule hknown hrefreshed
    · exact hkeeps.fresh hgarbage

/-- **The index follows the log**, if every run had what it needs. -/
theorem Indexing.follows (h : Indexing t n rule calls w index) (hkeeps : rule.Keeps known)
    (hwhole : ∀ {env logHeader old hashSize}, rule env logHeader old hashSize →
      WholeReads env logHeader old)
    (hfit : ∀ e ∈ entriesOf calls, HeadFits (.of t n) e) (hz : (Setting.of t n).Lossless) :
    Follows t n known calls w index := by
  induction h with
  | start hw => exact .absent hw
  | call _ hdone ih =>
    rename_i calls c w w' index _
    have hentries := entriesOf_append_calls calls [c]
    rw [hentries] at hfit
    exact (ih (fun e he => hfit e (List.mem_append_left _ he))).done hdone
  | run _ hflush hopen hrule hrun ih =>
    rw [entriesOf_flush] at hfit
    obtain ⟨items, header, hashtable, hp, rfl, hi, hknown⟩ := (ih hfit).run hkeeps hfit hz
      hflush hopen (hwhole hrule) hrule hrun
    have hfollows : Follows t n known _ _ _ := .present hp .refl hi hknown
    rwa [List.append_nil] at hfollows

/-! ### Two runs to look at -/

def flushAndOpen (w : Logwriter) : Option (Logwriter × Logreader) :=
  match logwriterFlush.run w with
  | .ok _ w' => (logreaderOpen (some w'.fd.data)).toOption.map fun log => (w', log)
  | .error _ _ => none

/-- The two logs that `sparkey_hash_write` runs on, the index the first run leaves, and what the
second run comes to. -/
structure TwoRuns where
  log : Logreader
  index : Option (List UInt8)
  log' : Logreader
  result : EStateM.Result (Stop Returncode) (Option (List UInt8)) Unit

def Logheader.Small (header : Logheader) : Prop :=
  header.dataEnd < 2 ^ 34 ∧ header.maxEntriesPerBlock < 2 ^ 30

instance (header : Logheader) : Decidable header.Small := inferInstanceAs (Decidable (_ ∧ _))

omit [Compressors] [HashFunctions] in
theorem Logheader.Small.orderly {header : Logheader} (h : header.Small) (hreads : env.reads = []) :
    Orderly env header := by
  refine ⟨hreads, Nat.lt_of_lt_of_le h.1 (Nat.pow_le_pow_right (by decide) ?_)⟩
  have := intLog2_le h.2 (by decide)
  omega

def twoRuns (env env' : HashEnv) (calls more : List Call) (hashSize hashSize' : Nat) :
    Option TwoRuns :=
  (writeLog sampleEnv .none 0 calls).bind fun w₀ =>
    (flushAndOpen w₀).bind fun (w, log) =>
      (more.foldlM (Logwriter.perform sampleEnv) w).bind fun w₁ =>
        (flushAndOpen w₁).bind fun (w', log') =>
          match (hashWrite env (some w.fd.data) hashSize).run none with
          | .ok _ index =>
            some ⟨log, index, log', (hashWrite env' (some w'.fd.data) hashSize').run index⟩
          | .error _ _ => none

omit [HashFunctions] in
theorem ok_of_flushAndOpen {x : Logwriter × Logreader} (h : flushAndOpen w = some x) :
    logwriterFlush.run w = .ok () x.1 ∧ logreaderOpen (some x.1.fd.data) = .ok x.2 := by
  unfold flushAndOpen at h
  split at h
  · rename_i w' hflush
    obtain ⟨log, hlog, rfl⟩ := Option.map_eq_some_iff.mp h
    exact ⟨hflush, ok_of_toOption hlog⟩
  · cases h

/-- What two runs come to: the log at the first one, and at the second one. -/
structure RanTwice (env env' : HashEnv) (calls more : List Call) (hashSize hashSize' : Nat)
    (r : TwoRuns) (w w' : Logwriter) : Prop where
  first : ∃ w₀, Writing .none 0 calls w₀ ∧ logwriterFlush.run w₀ = .ok () w
  opened : logreaderOpen (some w.fd.data) = .ok r.log
  made : (hashWrite env (some w.fd.data) hashSize).run none = .ok () r.index
  second : ∃ w₁, Going w more w₁ ∧ logwriterFlush.run w₁ = .ok () w'
  opened' : logreaderOpen (some w'.fd.data) = .ok r.log'
  result : (hashWrite env' (some w'.fd.data) hashSize').run r.index = r.result

theorem exists_of_twoRuns {env' : HashEnv} {calls more : List Call} {hashSize' : Nat} {r : TwoRuns}
    (h : twoRuns env env' calls more hashSize hashSize' = some r) :
    ∃ w w', RanTwice env env' calls more hashSize hashSize' r w w' := by
  obtain ⟨w₀, hw, h⟩ := Option.bind_eq_some_iff.mp h
  obtain ⟨⟨w, log⟩, hfirst, h⟩ := Option.bind_eq_some_iff.mp h
  obtain ⟨w₁, hmore, h⟩ := Option.bind_eq_some_iff.mp h
  obtain ⟨⟨w', log'⟩, hsecond, h⟩ := Option.bind_eq_some_iff.mp h
  obtain ⟨hflush, hopen⟩ := ok_of_flushAndOpen hfirst
  obtain ⟨hflush', hopen'⟩ := ok_of_flushAndOpen hsecond
  simp only at h
  cases hrun : (hashWrite env (some w.fd.data) hashSize).run none with
  | error e index =>
    rw [hrun] at h
    cases h
  | ok _ index =>
    rw [hrun] at h
    cases h
    exact ⟨w, w', ⟨w₀, writing_of_writeLog (by decide) hw, hflush⟩, hopen, hrun,
      ⟨w₁, going_of_perform hmore, hflush'⟩, hopen', rfl⟩

theorem RanTwice.indexing (rule : Rule) {env' : HashEnv} {calls more : List Call} {hashSize' : Nat}
    {r : TwoRuns}
    (h : RanTwice env env' calls more hashSize hashSize' r w w')
    (hrule : rule env r.log.header none hashSize) :
    ∃ w₁, Indexing .none 0 rule (calls ++ [.flush] ++ more) w₁ r.index ∧
      logwriterFlush.run w₁ = .ok () w' := by
  obtain ⟨w₀, hw, hflush⟩ := h.first
  obtain ⟨w₁, hgo, hflush'⟩ := h.second
  exact ⟨w₁, (Indexing.run (.start hw) hflush h.opened hrule h.made).going hgo, hflush'⟩

def calmEnv : HashEnv where
  unset := zeroLogiter
  unset' := zeroLogiter
  unsetBuf := List.replicate 8192 0
  rand32 := some 5
  openFails := none
  reads := []
  removeFails := none
  creatFails := false
  writes := []

end Sparkey
