import Sparkey.Index.Answers
import Sparkey.Index.Room

/-!
# Indexes that agree

What an index answers depends only on the entries it was made from.  So an index that was
made in several runs agrees with one that was made at once (`agreement_of_indexing`), and
an index agrees with itself when the log has grown since (`answers_of_growing`): the
entries that have come do not get the address of an old one.
-/

namespace Sparkey

open Program BlockStream RobinHood LastWrite

variable [Compressors] [HashFunctions] {t : CompressionType} {n : Nat} {calls more : List Call}
  {w w' : Logwriter} {index : Option (List UInt8)} {env : HashEnv} {hashSize : Nat}
  {log log₀ log₁ : Logreader} {reader reader' : Hashreader} {iter : Logiter}
  {items new new' live live' : List (Item Entry)} {header : Hashheader} {hashtable : List UInt8}

/-! ### The same answers -/

/-- Two readers answer every question alike. -/
structure SameAnswers (reader reader' : Hashreader) : Prop where
  get : ∀ key iter iter', Used reader iter → Used reader' iter' → ∃ answer iter₁ iter₁',
    (hashGet reader key).run iter = .ok () iter₁ ∧ Answers reader.log iter₁ answer ∧
    (hashGet reader' key).run iter' = .ok () iter₁' ∧ Answers reader'.log iter₁' answer
  enumerate : ∀ unset unset' iter iter', logiterCreate unset reader.log = .ok iter →
    logiterCreate unset' reader'.log = .ok iter' →
    ∃ its, Enumerates reader iter its ∧ Enumerates reader' iter' its

/-- **Readers of indexes of the same entries** answer alike. -/
theorem Reading.sameAnswers (h : Reading log₀ reader items new live)
    (hperm : live.Perm (contents itemKind items).live) (h' : Reading log₁ reader' items new' live')
    (hperm' : live'.Perm (contents itemKind items).live) : SameAnswers reader reader' := by
  constructor
  · intro key iter iter' hu hu'
    obtain ⟨iter₁, hrun, hanswers⟩ := h.hashGet hperm hu key
    obtain ⟨iter₁', hrun', hanswers'⟩ := h'.hashGet hperm' hu' key
    exact ⟨_, iter₁, iter₁', hrun, hanswers, hrun', hanswers'⟩
  · intro unset unset' iter iter' hcreate hcreate'
    exact ⟨_, h.enumerates_fresh hperm hcreate, h'.enumerates_fresh hperm' hcreate'⟩

/-! ### Writing on -/

/-- **The index of an earlier state of the log** opens, and answers as it did then: no new entry is
live, and no old one is lost. -/
theorem answers_of_growing {w₁ w₂ w₃ : Logwriter} {index' : Option (List UInt8)} {log₂ : Logreader}
    (h : Indexing t n wholeReads calls w index)
    (hfit : ∀ e ∈ entriesOf (calls ++ more), HeadFits (.of t n) e) (hz : (Setting.of t n).Lossless)
    (hflush : logwriterFlush.run w = .ok () w₁) (hopen : logreaderOpen (some w₁.fd.data) = .ok log₁)
    (hwhole : WholeReads env log₁.header (oldHeader? log₁.header index))
    (hrun : (hashWrite env (some w₁.fd.data) hashSize).run index = .ok () index')
    (hgo : Going w₁ more w₂) (hflush₂ : logwriterFlush.run w₂ = .ok () w₃)
    (hopen₂ : logreaderOpen (some w₃.fd.data) = .ok log₂)
    (hload : countPuts (entriesOf calls) < 2 ^ 64 ∨ ∃ header, loadHashheader index' = .ok header)
    (hend : ∀ header, loadHashheader index' = .ok header →
      log₂.header.dataEnd < 2 ^ (64 - header.entryBlockBits)) :
    ∃ reader₁ reader₂, hashOpen index' (some w₁.fd.data) = .ok reader₁ ∧
      hashOpen index' (some w₃.fd.data) = .ok reader₂ ∧ SameAnswers reader₁ reader₂ ∧
      ∀ unset iter, logiterCreate unset reader₂.log = .ok iter → ∃ its, Enumerates reader₂ iter its ∧
        its.map Item.val = entryKind.survivors (entriesOf calls) := by
  have hkeeps := keeps_true wholeReads
  rw [entriesOf_append_calls] at hfit
  have hfit₁ := fun e he => hfit e (List.mem_append_left _ he)
  obtain ⟨items, header, hashtable, hp, rfl, hi, -⟩ := (h.follows hkeeps (fun h => h) hfit₁ hz).run
    hkeeps hfit₁ hz hflush hopen hwhole hwhole hrun
  have hl := hp.logged hz
  have hvals := hp.vals
  rw [entriesOf_flush] at hvals
  have hload : loadHashheader (some (header.bytes ++ hashtable)) = .ok header := by
    rcases hload with hputs | ⟨header', hload⟩
    · rw [← hvals] at hputs
      exact hi.load hl hputs
    · rw [loadHashheader_bytes hi.fits hi.current] at hload ⊢
      by_cases hconsistent : header.Consistent
      · rw [if_pos hconsistent]
      · rw [if_neg hconsistent] at hload
        cases hload
  obtain ⟨new, hgrown, -⟩ := hp.grown hgo hflush₂ hopen₂
    (fun e he => hfit e (List.mem_append_right _ he)) hz
  obtain ⟨reader₁, hreader₁, ho₁⟩ := hi.hashOpen hload (.refl _) (Nat.le_refl _) hopen
  obtain ⟨reader₂, hreader₂, ho₂⟩ := hi.hashOpen hload hgrown.header hgrown.dataEnd_le hopen₂
  obtain ⟨live₁, hperm₁, hreading₁⟩ := hi.reading_self hl ho₁
  obtain ⟨live₂, hperm₂, hreading₂⟩ := hi.reading hgrown ho₂ (hend header hload)
  refine ⟨reader₁, reader₂, hreader₁, hreader₂, hreading₁.sameAnswers hperm₁ hreading₂ hperm₂, ?_⟩
  intro unset iter hcreate
  refine ⟨_, hreading₂.enumerates_fresh hperm₂ hcreate, ?_⟩
  rw [← map_survivors, hvals]

omit [Compressors] [HashFunctions] in
theorem answers_of_growing_sample :
    letI := literalCompressors
    letI := lengthHash
    ∃ (w₁ w₃ : Logwriter) (index : Option (List UInt8)) (reader₁ reader₂ : Hashreader),
      (hashWrite calmEnv (some w₁.fd.data) 4).run none = .ok () index ∧
      hashOpen index (some w₁.fd.data) = .ok reader₁ ∧
      hashOpen index (some w₃.fd.data) = .ok reader₂ ∧ SameAnswers reader₁ reader₂ := by
  let := literalCompressors
  let := lengthHash
  have hfacts : (twoRuns calmEnv calmEnv fourPuts fifthPut 4 4).map (fun r =>
      (decide r.log.header.Small,
        match loadHashheader r.index with
        | .ok header => decide (r.log'.header.dataEnd < 2 ^ (64 - header.entryBlockBits))
        | .error _ => false)) = some (true, true) := by
    decide +kernel
  obtain ⟨r, hr, hfacts⟩ := Option.map_eq_some_iff.mp hfacts
  simp only [Prod.mk.injEq, decide_eq_true_eq] at hfacts
  obtain ⟨hsmall, hend⟩ := hfacts
  obtain ⟨w₁, w₃, hran⟩ := exists_of_twoRuns hr
  obtain ⟨w, hw, hflush⟩ := hran.first
  obtain ⟨w₂, hgo, hflush₂⟩ := hran.second
  obtain ⟨reader₁, reader₂, hreader₁, hreader₂, hsame, -⟩ := answers_of_growing (.start hw)
    (fun _ _ => nofun) nofun hflush hran.opened ((hsmall.orderly rfl).wholeReads _) hran.made hgo hflush₂
    hran.opened' (.inl (by decide)) fun header hheader => by
      rw [hheader] at hend
      exact of_decide_eq_true hend
  exact ⟨w₁, w₃, _, reader₁, reader₂, hran.made, hreader₁, hreader₂, hsame⟩

/-! ### One run or several -/

omit [Compressors] [HashFunctions] in
/-- No run changed the hash size of an index. -/
def sizeUnchanged : Rule := fun env logHeader old hashSize => WholeReads env logHeader old ∧
  ∀ header, old = some header → header.nextHashSize logHeader hashSize = header.hashSize

omit [Compressors] [HashFunctions] in
theorem keeps_exactGarbage : sizeUnchanged.Keeps fun items header =>
    header.garbageSize = u64 (contents itemKind items).garbage := by
  refine ⟨fun h => h, fun {env logHeader hashSize items more old header} hrule hknown hrefreshed => ?_⟩
  exact hrefreshed.same (hrefreshed.hashSize.trans (hrule.2 old rfl)) hknown

omit [Compressors] in
/-- Where in the log the stored entries are: the positions of their blocks, and their numbers. -/
def Hashheader.livePositions (header : Hashheader) (hashtable : List UInt8) : Set (Nat × Nat) :=
  {p | ∃ slot < header.hashCapacity, ∃ entry, header.slots hashtable slot = some entry ∧
    p = (header.positionOf entry.2, header.entryIndexOf entry.2)}

omit [Compressors] in
theorem IndexOf.livePositions (hi : IndexOf log items header hashtable) :
    header.livePositions hashtable
      = {p | ∃ it ∈ (contents itemKind items).live, p = (it.pos, it.idx)} := by
  obtain ⟨live, hperm, hindexed⟩ := hi.indexed
  ext p
  constructor
  · rintro ⟨slot, hslot, entry, hentry, rfl⟩
    obtain ⟨it, hit, rfl⟩ := hindexed.mem_entries hslot hentry
    have hmem := (hindexed.mem it hit).1
    refine ⟨it, hperm.mem_iff.mp hit, Prod.ext ?_ ?_⟩
    · exact hi.addressed.positionOf it hmem
    · exact hi.addressed.entryIndexOf it hmem
  · rintro ⟨it, hit, rfl⟩
    have hlive := hperm.mem_iff.mpr hit
    have hmem := (hindexed.mem it hlive).1
    obtain ⟨slot, hslot, hentry⟩ := hindexed.exists_slot hlive
    refine ⟨slot, hslot, _, hentry, Prod.ext ?_ ?_⟩
    · exact (hi.addressed.positionOf it hmem).symm
    · exact (hi.addressed.entryIndexOf it hmem).symm

/-- The file is a table behind this header: what the loader finds, unless its checks refuse it. -/
structure HeadedBy (index : Option (List UInt8)) (header : Hashheader) (hashtable : List UInt8) : Prop where
  file : index = some (header.bytes ++ hashtable)
  fits : header.Fits
  current : header.Current
  load : loadHashheader index = if header.Consistent then .ok header else .error .hashHeaderCorrupt

omit [Compressors] in
theorem IndexOf.headed (hi : IndexOf log items header hashtable) :
    HeadedBy (some (header.bytes ++ hashtable)) header hashtable :=
  ⟨rfl, hi.fits, hi.current, loadHashheader_bytes hi.fits hi.current hashtable⟩

/-- An index agrees with another one on the entries, the garbage and every answer. -/
def Agree (logFile index index' : Option (List UInt8)) : Prop :=
  ∃ header header' hashtable hashtable', HeadedBy index header hashtable ∧
    HeadedBy index' header' hashtable' ∧ header.numEntries = header'.numEntries ∧
    header.garbageSize = header'.garbageSize ∧
    header.livePositions hashtable = header'.livePositions hashtable' ∧
    ∀ reader reader', hashOpen index logFile = .ok reader → hashOpen index' logFile = .ok reader' →
      SameAnswers reader reader'

/-- **Runs that go on with the index of an earlier state** end, and what they make agrees with the
index that is made at once.  Both open, unless the count of the puts came round to 0. -/
theorem agreement_of_indexing (h : Indexing t n sizeUnchanged calls w index)
    (hfit : ∀ e ∈ entriesOf calls, HeadFits (.of t n) e) (hz : (Setting.of t n).Lossless)
    (hflush : logwriterFlush.run w = .ok () w') (hopen : logreaderOpen (some w'.fd.data) = .ok log)
    (hrule : sizeUnchanged env log.header (oldHeader? log.header index) hashSize)
    (hsize : hashSize = 0 ∨ hashSize = 4 ∨ hashSize = 8) :
    (countPuts (entriesOf calls) < 2 ^ 64 →
      tableSize log.header (oldHeader? log.header index) hashSize < 2 ^ 64 →
      Returns ((hashWrite env (some w'.fd.data) hashSize).run index)) ∧
    ∀ index' scratch env' hashSize', (hashWrite env (some w'.fd.data) hashSize).run index = .ok () index' →
      (hashWrite env' (some w'.fd.data) hashSize').run none = .ok () scratch →
      Agree (some w'.fd.data) index' scratch ∧
        (countPuts (entriesOf calls) < 2 ^ 64 →
          (∃ reader, hashOpen index' (some w'.fd.data) = .ok reader) ∧
            ∃ reader, hashOpen scratch (some w'.fd.data) = .ok reader) := by
  have hfollows := h.follows keeps_exactGarbage (fun h => h.1) hfit hz
  constructor
  · intro hputs hlt
    refine (hfollows.returns_iff hfit hz hputs hflush hopen hrule.1 hsize).mpr (Or.inr ⟨hlt, ?_⟩)
    intro header hold hne
    rw [hold] at hne
    exact absurd (hrule.2 header hold).symm hne
  · intro index' scratch env' hashSize' hrun hscratch
    obtain ⟨items, header, hashtable, hp, rfl, hi, hgarbage⟩ := hfollows.run keeps_exactGarbage hfit hz
      hflush hopen hrule.1 hrule hrun
    have hl := hp.logged hz
    have hvals := hp.vals
    rw [entriesOf_flush] at hvals
    obtain ⟨header', hashtable', rfl, hi', hgarbage'⟩ := indexOf_of_fresh hl (hp.fileIdentifier_lt hz)
      hrule.1.dataEnd_lt hopen hscratch
    refine ⟨⟨header, header', hashtable, hashtable', hi.headed, hi'.headed,
      hi.numEntries.trans hi'.numEntries.symm, hgarbage.trans hgarbage'.symm, ?_, ?_⟩, ?_⟩
    · rw [hi.livePositions, hi'.livePositions]
    · intro reader reader' hreader hreader'
      obtain ⟨_, hopened, ho⟩ := hi.hashOpen (hi.load_of_hashOpen hreader) (.refl _) (Nat.le_refl _) hopen
      cases hreader.symm.trans hopened
      obtain ⟨_, hopened', ho'⟩ := hi'.hashOpen (hi'.load_of_hashOpen hreader') (.refl _)
        (Nat.le_refl _) hopen
      cases hreader'.symm.trans hopened'
      obtain ⟨live, hperm, hreading⟩ := hi.reading_self hl ho
      obtain ⟨live', hperm', hreading'⟩ := hi'.reading_self hl ho'
      exact hreading.sameAnswers hperm hreading' hperm'
    · intro hputs
      rw [← hvals] at hputs
      obtain ⟨reader, hreader, -⟩ := hi.hashOpen (hi.load hl hputs) (.refl _) (Nat.le_refl _) hopen
      obtain ⟨reader', hreader', -⟩ := hi'.hashOpen (hi'.load hl hputs) (.refl _) (Nat.le_refl _) hopen
      exact ⟨⟨reader, hreader⟩, reader', hreader'⟩

theorem RanTwice.data {env' : HashEnv} {hashSize' : Nat} {r : TwoRuns}
    (h : RanTwice env env' calls more hashSize hashSize' r w w') : r.log'.data = w'.fd.data := by
  obtain ⟨w₀, hw₀, hflush₀⟩ := h.first
  obtain ⟨w₁, hgo, hflush⟩ := h.second
  have hw := (Writing.flush hw₀ hflush₀).going hgo
  obtain ⟨hk, hf, -⟩ := (kept_of_writing hw).1.flush hflush
  exact (hk.open hf h.opened').2.2

omit [Compressors] [HashFunctions] in
theorem agreement_of_indexing_sample :
    letI := literalCompressors
    letI := lengthHash
    ∃ (w w' : Logwriter) (index index' scratch : Option (List UInt8)),
      Indexing .none 0 sizeUnchanged (fourPuts ++ [.flush] ++ fifthPut) w index ∧
      logwriterFlush.run w = .ok () w' ∧
      (hashWrite calmEnv (some w'.fd.data) 4).run index = .ok () index' ∧
      (hashWrite calmEnv (some w'.fd.data) 4).run none = .ok () scratch ∧
      Agree (some w'.fd.data) index' scratch ∧
      (∃ reader, hashOpen index' (some w'.fd.data) = .ok reader) ∧
      ∃ reader, hashOpen scratch (some w'.fd.data) = .ok reader := by
  let := literalCompressors
  let := lengthHash
  have hfacts : (twoRuns calmEnv calmEnv fourPuts fifthPut 4 4).map (fun r =>
      (decide r.log.header.Small, decide r.log'.header.Small,
        (oldHeader? r.log'.header r.index).map Hashheader.hashSize,
        (success? r.result).isSome,
        (success? ((hashWrite calmEnv (some r.log'.data) 4).run none)).isSome))
        = some (true, true, some 4, true, true) := by
    decide +kernel
  obtain ⟨r, hr, hfacts⟩ := Option.map_eq_some_iff.mp hfacts
  simp only [Prod.mk.injEq, decide_eq_true_eq] at hfacts
  obtain ⟨hsmall, hsmall', hold, hok, hok'⟩ := hfacts
  obtain ⟨w, w', hran⟩ := exists_of_twoRuns hr
  obtain ⟨w₁, hindexing, hflush⟩ := hran.indexing sizeUnchanged
    ⟨(hsmall.orderly rfl).wholeReads _, nofun⟩
  have hrule : sizeUnchanged calmEnv r.log'.header (oldHeader? r.log'.header r.index) 4 := by
    refine ⟨(hsmall'.orderly rfl).wholeReads _, fun header hheader => ?_⟩
    rw [hheader] at hold
    rw [Option.some.inj hold]
    rfl
  obtain ⟨index', hresult⟩ := Option.isSome_iff_exists.mp hok
  obtain ⟨scratch, hscratch⟩ := Option.isSome_iff_exists.mp hok'
  rw [hran.data] at hscratch
  have hrun := hran.result.trans (success?_eq_some hresult)
  have hrun' := success?_eq_some hscratch
  obtain ⟨hagree, hopens⟩ := (agreement_of_indexing hindexing (fun _ _ => nofun) nofun hflush
    hran.opened' hrule (.inr (.inl rfl))).2 index' scratch calmEnv 4 hrun hrun'
  exact ⟨w₁, w', _, index', scratch, hindexing, hflush, hrun, hrun', hagree, hopens (by decide)⟩

end Sparkey
