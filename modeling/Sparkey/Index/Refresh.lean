import Sparkey.Index.Write

/-!
# An index that follows its log

`IndexOf log items header hashtable` says that a header and a table are the index of a
log.  A run makes one out of nothing (`indexOf_of_fresh`), and out of the index of an
earlier state of the log (`indexOf_of_grown`): the old entries are copied, or gone
through once more, and those that have come since are written behind them.
-/

namespace Sparkey

open Program BlockStream RobinHood LastWrite

/-! ### The index of a log -/

structure Hashheader.Covers (header : Hashheader) (logHeader : Logheader) : Prop where
  fileIdentifier : header.fileIdentifier = logHeader.fileIdentifier
  dataEnd : header.dataEnd = logHeader.dataEnd
  numPuts : header.numPuts = logHeader.numPuts
  maxKeyLen_le : header.maxKeyLen ≤ logHeader.maxKeyLen
  maxValueLen_le : header.maxValueLen ≤ logHeader.maxValueLen

variable [HashFunctions]

/-- The header and the table of an index whose live entries are those of the log. -/
structure IndexOf (log : Logreader) (items : List (Item Entry)) (header : Hashheader)
    (hashtable : List UInt8) : Prop where
  current : header.Current
  fits : header.Fits
  covers : header.Covers log.header
  measured : header.Measured hashtable
  addressed : Addressed header items
  indexed : ∃ live, live.Perm (contents itemKind items).live ∧ Indexed items header hashtable live
  length_lt : hashtable.length < 2 ^ 63

variable {items more : List (Item Entry)} {header : Hashheader} {hashtable : List UInt8}
  {log log₀ : Logreader}

omit [HashFunctions] in
theorem countP_isPut (items : List (Item Entry)) :
    items.countP itemKind.isPut = countPuts (items.map Item.val) := by
  rw [countPuts, List.countP_map]
  rfl

omit [HashFunctions] in
theorem length_live_le_countPuts (items : List (Item Entry)) :
    (contents itemKind items).live.length ≤ countPuts (items.map Item.val) := by
  have h₁ := length_live_writes_le_peakLive (K := itemKind) items ⟨[], 0⟩
  have h₂ := peakLive_le (K := itemKind) items ⟨[], 0⟩
  rw [countP_isPut] at h₂
  have h₃ : (⟨[], 0⟩ : Contents (Item Entry)).live.length = 0 := rfl
  have : (contents itemKind items).live.length
      = ((⟨[], 0⟩ : Contents (Item Entry)).writes itemKind items).live.length := rfl
  omega

theorem IndexOf.numEntries (h : IndexOf log items header hashtable) :
    header.numEntries = (contents itemKind items).live.length := by
  obtain ⟨live, hperm, hi⟩ := h.indexed
  rw [hi.numEntries, hperm.length_eq]

theorem IndexOf.sized (h : IndexOf log items header hashtable) : Sized header hashtable := by
  obtain ⟨live, -, hi⟩ := h.indexed
  exact hi.sized

omit [HashFunctions] in
theorem Hashheader.Fits.of_recounted {header' : Hashheader} (h : header.Fits)
    (hr : Recounted header header') (hgarbage : header'.garbageSize < 2 ^ 64)
    (hnum : header'.numEntries < 2 ^ 64) (hmax : header'.maxDisplacement < 2 ^ 64)
    (hcoll : header'.hashCollisions < 2 ^ 64) (htotal : header'.totalDisplacement < 2 ^ 64) :
    header'.Fits := by
  refine ⟨?_, ?_, ?_, ?_, ?_, ?_, hgarbage, hnum, ?_, ?_, ?_, hmax, ?_, hcoll, htotal⟩
  all_goals rw [hr]
  · exact h.fileIdentifier
  · exact h.hashSeed
  · exact h.dataEnd
  · exact h.maxKeyLen
  · exact h.maxValueLen
  · exact h.numPuts
  · exact h.addressSize
  · exact h.hashSize
  · exact h.hashCapacity
  · exact h.entryBlockBits

section Logged

variable [Compressors]

/-- **The checks of the loader hold**, as long as the counter of the puts did not overflow. -/
theorem IndexOf.consistent (h : IndexOf log items header hashtable) (hl : Logged log items)
    (hputs : countPuts (items.map Item.val) < 2 ^ 64) : header.Consistent := by
  refine ⟨?_, ?_, h.measured.maxDisplacement_le, h.measured.hashCollisions_le⟩
  · rw [hasHashAlgorithm]
    exact decide_eq_true h.sized.hashSize
  · rw [h.covers.numPuts, hl.counts.numPuts, u64_of_lt hputs, h.numEntries]
    exact length_live_le_countPuts items

/-- **The loader takes the index.** -/
theorem IndexOf.load (h : IndexOf log items header hashtable) (hl : Logged log items)
    (hputs : countPuts (items.map Item.val) < 2 ^ 64) :
    loadHashheader (some (header.bytes ++ hashtable)) = .ok header := by
  rw [loadHashheader_bytes h.fits h.current, if_pos (h.consistent hl hputs)]

/-! ### A log that has grown -/

omit [HashFunctions] in
theorem Grown.more_eq_nil (h : Grown log₀ log items more)
    (hend : log₀.header.dataEnd = log.header.dataEnd) : more = [] := by
  rcases h.resume with ⟨-, hmore⟩ | ⟨b, q, hb, -⟩
  · exact hmore
  · have h1 := log.source.block_lt hb
    have h2 : _ ≤ log.data.length := log.source.block_le hb
    rw [h.new.length_data] at h2
    omega

theorem IndexOf.same_end (h : IndexOf log₀ items header hashtable)
    (hg : Grown log₀ log items more) (hend : log₀.header.dataEnd = log.header.dataEnd) :
    IndexOf log (items ++ more) header hashtable := by
  have hmore := hg.more_eq_nil hend
  have hnew := hg.new
  subst hmore
  rw [List.append_nil] at hnew ⊢
  refine ⟨h.current, h.fits, ⟨?_, ?_, ?_, ?_, ?_⟩, h.measured, h.addressed, h.indexed, h.length_lt⟩
  · exact h.covers.fileIdentifier.trans hg.header.fileIdentifier.symm
  · exact h.covers.dataEnd.trans hend
  · rw [h.covers.numPuts, hg.old.counts.numPuts, hnew.counts.numPuts]
  · exact Nat.le_trans h.covers.maxKeyLen_le hg.header.maxKeyLen
  · exact Nat.le_trans h.covers.maxValueLen_le hg.header.maxValueLen

theorem IndexOf.expectedEntries_eq (h : IndexOf log₀ items header hashtable)
    (hg : Grown log₀ log items more) (hputs : countPuts ((items ++ more).map Item.val) < 2 ^ 64) :
    expectedEntries log.header (some header)
      = (contents itemKind items).live.length + countPuts (more.map Item.val) := by
  have hsum : countPuts ((items ++ more).map Item.val)
      = countPuts (items.map Item.val) + countPuts (more.map Item.val) := by
    rw [List.map_append, countPuts, List.countP_append]
    rfl
  have hlive := length_live_le_countPuts items
  have hnew := hg.new.counts.numPuts
  rw [u64_of_lt hputs] at hnew
  have hold := h.covers.numPuts.trans hg.old.counts.numPuts
  rw [u64_of_lt (by omega)] at hold
  rw [expectedEntries, hnew, hold, h.numEntries, hsum]
  unfold u64
  omega

/-! ### What a run makes -/

variable {env : HashEnv} {logFile index index' : Option (List UInt8)} {hashSize : Nat}
  {s s' : Hashing} {live : List (Item Entry)} {old : Hashheader} {garbage : Nat}

theorem Prepared.fits (hp : Prepared env log.header log index hashSize s) (hl : Logged log items)
    (hz : ZeroTable items s) (hid : log.header.fileIdentifier < 2 ^ 32)
    (hold : ∀ old, oldHeader? log.header index = some old → old.Fits) : s.hashHeader.Fits := by
  have hseed : s.hashHeader.hashSeed < 2 ^ 32 := by
    cases ho : oldHeader? log.header index with
    | none => exact hp.hashSeed_lt ho
    | some old =>
      rw [hp.hashSeed old ho]
      exact (hold old ho).hashSeed
  have haddr := hz.addressSize
  have hhash := hz.hashSize
  have hcap := (indexed_zero hz).sized.capacity_lt
  have hbits := intLog2_le (n := 30) hl.maxEntriesPerBlock_lt (by decide)
  have hend := hl.dataEnd_lt
  have hkey := hl.counts.maxKeyLen_lt
  have hvalue := hl.counts.maxValueLen_lt
  have hputs : log.header.numPuts < 2 ^ 64 := hl.counts.numPuts ▸ u64_lt _
  have hgarbage : ((oldHeader? log.header index).map Hashheader.garbageSize).getD 0 < 2 ^ 64 := by
    cases ho : oldHeader? log.header index with
    | none => exact Nat.two_pow_pos _
    | some old => exact (hold old ho).garbageSize
  have hheader := hp.header
  generalize s.hashHeader.hashSeed = hashSeed at hheader hseed
  generalize hg : s.hashHeader = header at *
  subst hheader
  refine ⟨hid, hseed, ?_, ?_, ?_, hputs, hgarbage, Nat.two_pow_pos _, by omega, by omega, by omega,
    Nat.two_pow_pos _, ?_, Nat.two_pow_pos _, Nat.two_pow_pos _⟩
  · exact Nat.lt_trans hend (by decide)
  · exact Nat.lt_trans hkey (by decide)
  · exact Nat.lt_trans hvalue (by decide)
  · exact hbits

/-- **A table with the live entries** is the index of the log. -/
theorem Prepared.indexOf (hp : Prepared env log.header log index hashSize s)
    (hl : Logged log items) (hz : ZeroTable items s) (hid : log.header.fileIdentifier < 2 ^ 32)
    (hold : ∀ old, oldHeader? log.header index = some old → old.Fits)
    (hup : Updated items s s' live garbage) (hmeasured : s'.hashHeader.Measured s'.hashtable)
    (hperm : live.Perm (contents itemKind items).live) :
    IndexOf log items s'.hashHeader s'.hashtable := by
  have hfits := hp.fits hl hz hid hold
  have hgarbage := hup.garbageSize hfits.garbageSize
  have hnum := hup.indexed.numEntries
  have hle := hup.indexed.length_le
  have hcap := hup.indexed.sized.capacity_lt
  have hmax := hmeasured.maxDisplacement_le
  have hcoll := hmeasured.hashCollisions_le
  have hlen : s'.hashtable.length < 2 ^ 63 := by
    have hlt := hz.length_lt
    have hrec := hup.recounted
    rw [hz.zero, List.length_replicate] at hlt
    rw [hup.indexed.sized.length, Hashheader.slotSize, hrec]
    exact hlt
  have ha := hup.recounted.addressed hz.addressed
  refine ⟨?_, ?_, ?_, hmeasured, ha, ⟨live, hperm, hup.indexed⟩, hlen⟩
  · have hrec := hup.recounted
    rw [hp.header] at hrec
    rw [hrec]
    exact ⟨rfl, rfl, rfl, rfl⟩
  · have hg : s'.hashHeader.garbageSize < 2 ^ 64 := hgarbage ▸ u64_lt _
    exact hfits.of_recounted hup.recounted hg (by omega) (by omega) (by omega)
      hmeasured.totalDisplacement_lt
  · have hrec := hup.recounted
    rw [hp.header] at hrec
    rw [hrec]
    exact ⟨rfl, rfl, rfl, Nat.le_refl _, Nat.le_refl _⟩

theorem run_buildTable_some_eq {file : List UInt8} : (buildTable env (some file) log (some old)).run s
    = (do fillHash env file old
          onIter (logiterSeek log old.dataEnd)
          replayLoop log (entryFuel log)
          calculateMaxDisplacement : Run Hashing Unit).run s := rfl

structure Copying (log₀ log : Logreader) (items more : List (Item Entry)) (old : Hashheader)
    (hashtable : List UInt8) (env : HashEnv) (s : Hashing) : Prop where
  grown : Grown log₀ log items more
  oldIndex : IndexOf log₀ items old hashtable
  zero : ZeroTable (items ++ more) s
  iter : Usable log s.iter
  raIter : Usable log s.raIter
  sameHash : SameHash old s.hashHeader
  dataEnd_ne : old.dataEnd ≠ log.header.dataEnd
  openFails : env.openFails = none
  reads : env.reads = []

theorem Copying.takesOver (h : Copying log₀ log items more old hashtable env s)
    (hi : Indexed items old hashtable live) :
    TakesOver old items (items ++ more) live hashtable s := by
  refine ⟨h.oldIndex.current.headerSize, h.oldIndex.addressed, hi,
    Nat.lt_trans h.oldIndex.length_lt (by decide), fun it hit => ?_, h.zero.addressed, h.sameHash,
    indexed_zero h.zero, fun it hit => List.mem_append_left _ (hi.mem it hit).1⟩
  have := h.grown.new.le_pos hit
  have : logHeaderSize = 84 := rfl
  omega

/-- Behind the old entries the iterator goes to where the old index ends. -/
theorem Copying.run_seek (h : Copying log₀ log items more old hashtable env s)
    (hiter : s'.iter = s.iter) :
    ∃ iter, (onIter (logiterSeek log old.dataEnd)).run s' = .ok () { s' with iter } ∧
      Before log iter more := by
  have hne := h.dataEnd_ne
  have hu := h.iter
  rw [h.oldIndex.covers.dataEnd] at hne ⊢
  obtain ⟨b, q, hb, hentries⟩ := h.grown.resume.resolve_left fun h => hne h.1
  have hpos : log₀.header.dataEnd ≠ 0 := by
    have := h.grown.le_dataEnd
    have : logHeaderSize = 84 := rfl
    omega
  rw [← hiter] at hu
  obtain ⟨iter, hseek, hbefore⟩ := run_logiterSeek h.grown.new.toOpened hu hb hpos hentries
  exact ⟨iter, run_onIter_ok hseek, hbefore⟩

/-- **Copying an older index** and going through the entries that have come since. -/
theorem run_buildTable_some (h : Copying log₀ log items more old hashtable env s)
    (hpeak : peakLive itemKind (contents itemKind items) more ≤ s.hashHeader.hashCapacity) :
    ∃ s' live added, (buildTable env (some (old.bytes ++ hashtable)) log (some old)).run s
        = .ok () s' ∧
      live.Perm (contents itemKind (items ++ more)).live ∧
      (contents itemKind (items ++ more)).garbage = (contents itemKind items).garbage + added ∧
      Updated (items ++ more) s s' live added ∧ s'.hashHeader.Measured s'.hashtable := by
  obtain ⟨oldLive, hperm, hiold⟩ := h.oldIndex.indexed
  have hroom := length_live_le_peakLive (K := itemKind) (contents itemKind items) more
  obtain ⟨s₁, live₁, hfill, ⟨hiter, hraIter⟩, hperm₁, hup₁⟩ := run_fillHash
    (h.takesOver hiold) h.openFails h.reads (by rw [hperm.length_eq]; omega)
  obtain ⟨iter, hseek, hbefore⟩ := h.run_seek hiter
  rw [← peakLive_perm (K := itemKind) more (c := ⟨live₁, 0⟩) (hperm₁.trans hperm),
    ← hup₁.recounted.capacity] at hpeak
  obtain ⟨s', hrun, hup', hmeasured⟩ := run_replayRest (s := { s₁ with iter }) h.grown.new
    (List.length_append ▸ Nat.le_add_left _ _) hbefore (hraIter ▸ h.raIter)
    (fun it hit => List.mem_append_right _ hit) (hup₁.recounted.addressed h.zero.addressed)
    hup₁.indexed hpeak
  obtain ⟨hlive, hgarbage⟩ := Contents.writes_perm (K := itemKind) more (c := ⟨live₁, 0⟩)
    (d := contents itemKind items) (hperm₁.trans hperm)
  rw [← contents_append] at hlive hgarbage
  refine ⟨s', _, ((⟨live₁, 0⟩ : Contents (Item Entry)).writes itemKind more).garbage, ?_, hlive, ?_,
    ?_, hmeasured⟩
  · rw [run_buildTable_some_eq, run_bind_ok hfill, run_bind_ok hseek, hrun]
  · have h0 : (⟨live₁, 0⟩ : Contents (Item Entry)).garbage = 0 := rfl
    omega
  · have hrest : Updated (items ++ more) s₁ s' _ _ := ⟨hup'.recounted, hup'.indexed, hup'.garbageSize⟩
    have hboth := hup₁.trans hrest
    rwa [Nat.zero_add] at hboth

/-- **Where too many entries are live** at some time, copying or going on does not come to an end. -/
theorem run_buildTable_some_full (h : Copying log₀ log items more old hashtable env s)
    (hpeak : s.hashHeader.hashCapacity < peakLive itemKind (contents itemKind items) more) :
    ∃ s', (buildTable env (some (old.bytes ++ hashtable)) log (some old)).run s = .error .stuck s' := by
  obtain ⟨oldLive, hperm, hiold⟩ := h.oldIndex.indexed
  have ht := h.takesOver hiold
  rw [run_buildTable_some_eq]
  rcases Nat.lt_or_ge s.hashHeader.hashCapacity oldLive.length with hnone | hroom
  · obtain ⟨s', hfill⟩ := run_fillHash_full ht h.openFails h.reads hnone
    exact ⟨s', run_bind_error hfill⟩
  · obtain ⟨s₁, live₁, hfill, ⟨hiter, hraIter⟩, hperm₁, hup₁⟩ := run_fillHash ht h.openFails h.reads
      hroom
    obtain ⟨iter, hseek, hbefore⟩ := h.run_seek hiter
    rw [← peakLive_perm (K := itemKind) more (c := ⟨live₁, 0⟩) (hperm₁.trans hperm),
      ← hup₁.recounted.capacity] at hpeak
    obtain ⟨s', hrun⟩ := run_replayRest_full (s := { s₁ with iter }) h.grown.new
      (List.length_append ▸ Nat.le_add_left _ _) hbefore (hraIter ▸ h.raIter)
      (fun it hit => List.mem_append_right _ hit) (hup₁.recounted.addressed h.zero.addressed)
      hup₁.indexed hpeak
    exact ⟨s', by rw [run_bind_ok hfill, run_bind_ok hseek, hrun]⟩

/-- **A table made from the whole log** is its index. -/
theorem indexOf_of_rebuilt (hl : Logged log items) (hid : log.header.fileIdentifier < 2 ^ 32)
    (hend : log.header.dataEnd < 2 ^ (64 - intLog2 log.header.maxEntriesPerBlock))
    (hp : Prepared env log.header log index hashSize s)
    (hold : ∀ old, oldHeader? log.header index = some old → old.Fits)
    (hlt : s.hashHeader.slotSize * s.hashHeader.hashCapacity < 2 ^ 63)
    (hbuild : (buildTable env index log none).run s = .ok () s') :
    IndexOf log items s'.hashHeader s'.hashtable ∧ Recounted s.hashHeader s'.hashHeader ∧
      s'.hashHeader.garbageSize = u64 (s.hashHeader.garbageSize + (contents itemKind items).garbage) := by
  have hz := hp.zeroTable hl hend hlt
  obtain ⟨hb, hu⟩ := hp.before hl.toHolds
  rcases Nat.lt_or_ge s.hashHeader.hashCapacity (peakLive itemKind ⟨[], 0⟩ items) with hfull | hroom
  · obtain ⟨s₁, hstuck⟩ := run_buildTable_full env index hl hz hb hu hfull
    rw [hstuck] at hbuild
    cases hbuild
  · obtain ⟨s₁, hrun, hup, hmeasured⟩ := run_buildTable_none env index hl hz hb hu
      hroom
    rw [hrun] at hbuild
    cases hbuild
    exact ⟨hp.indexOf hl hz hid hold hup hmeasured (.refl _), hup.recounted,
      hup.garbageSize (hp.fits hl hz hid hold).garbageSize⟩

/-- The index of an earlier state of the log is taken for one of the log, unless its counters make
no sense. -/
theorem IndexOf.oldHeader?_eq_some (hi : IndexOf log₀ items old hashtable)
    (hg : Grown log₀ log items more) (hconsistent : old.Consistent) :
    oldHeader? log.header (some (old.bytes ++ hashtable)) = some old := by
  rw [oldHeader?, loadHashheader_bytes hi.fits hi.current, if_pos hconsistent, usableHeader]
  exact if_pos ⟨hi.covers.fileIdentifier.trans hg.header.fileIdentifier.symm,
    hi.current.majorVersion, hi.current.minorVersion⟩

theorem IndexOf.oldHeader?_eq (hi : IndexOf log₀ items old hashtable)
    (hg : Grown log₀ log items more) (hputs : countPuts (items.map Item.val) < 2 ^ 64) :
    oldHeader? log.header (some (old.bytes ++ hashtable)) = some old :=
  hi.oldHeader?_eq_some hg (hi.consistent hg.old hputs)

omit [Compressors] in
theorem IndexOf.oldHeader?_eq_none (hi : IndexOf log₀ items old hashtable)
    (hconsistent : ¬ old.Consistent) :
    oldHeader? log.header (some (old.bytes ++ hashtable)) = none := by
  rw [oldHeader?, loadHashheader_bytes hi.fits hi.current, if_neg hconsistent]
  rfl

def Hashheader.nextHashSize (old : Hashheader) (logHeader : Logheader) (hashSize : Nat) : Nat :=
  (newHashheader logHeader (some old) old.hashSeed hashSize).hashSize

/-- The new table has room for what is live at any time behind the old entries. -/
theorem peakLive_le_hashCapacity (hg : Grown log₀ log items more)
    (hi : IndexOf log₀ items old hashtable)
    (hputs : countPuts ((items ++ more).map Item.val) < 2 ^ 64)
    (hp : Prepared env log.header log (some (old.bytes ++ hashtable)) hashSize s)
    (hold : oldHeader? log.header (some (old.bytes ++ hashtable)) = some old) :
    peakLive itemKind (contents itemKind items) more ≤ s.hashHeader.hashCapacity := by
  have hpeak := peakLive_le (K := itemKind) more (contents itemKind items)
  rw [countP_isPut, ← hi.expectedEntries_eq hg hputs] at hpeak
  rw [hp.header, hold]
  exact Nat.le_trans hpeak (le_hashCapacity _)

theorem Prepared.copying (hp : Prepared env log.header log (some (old.bytes ++ hashtable)) hashSize s)
    (hg : Grown log₀ log items more) (hi : IndexOf log₀ items old hashtable)
    (hend : log.header.dataEnd < 2 ^ (64 - intLog2 log.header.maxEntriesPerBlock))
    (hold : oldHeader? log.header (some (old.bytes ++ hashtable)) = some old)
    (hsize : old.hashSize = s.hashHeader.hashSize)
    (hlt : s.hashHeader.slotSize * s.hashHeader.hashCapacity < 2 ^ 63)
    (hne : old.dataEnd ≠ log.header.dataEnd) (hopens : env.openFails = none)
    (hreads : env.reads = []) : Copying log₀ log items more old hashtable env s :=
  ⟨hg, hi, hp.zeroTable hg.new hend hlt, (hp.before hg.new.toHolds).1.usable,
    (hp.before hg.new.toHolds).2, ⟨hsize.symm, hp.hashSeed old hold⟩, hne, hopens, hreads⟩

/-- **A copied table with the new entries** is the index of the log. -/
theorem indexOf_of_copied (h : Copying log₀ log items more old hashtable env s)
    (hid : log.header.fileIdentifier < 2 ^ 32)
    (hp : Prepared env log.header log (some (old.bytes ++ hashtable)) hashSize s)
    (hold : oldHeader? log.header (some (old.bytes ++ hashtable)) = some old)
    (hbuild : (buildTable env (some (old.bytes ++ hashtable)) log (some old)).run s = .ok () s') :
    ∃ added, IndexOf log (items ++ more) s'.hashHeader s'.hashtable ∧
      Recounted s.hashHeader s'.hashHeader ∧
      (contents itemKind (items ++ more)).garbage = (contents itemKind items).garbage + added ∧
      s'.hashHeader.garbageSize = u64 (s.hashHeader.garbageSize + added) := by
  have hfits : ∀ x, oldHeader? log.header (some (old.bytes ++ hashtable)) = some x → x.Fits := by
    rw [hold]
    rintro _ ⟨⟩
    exact h.oldIndex.fits
  rcases Nat.lt_or_ge s.hashHeader.hashCapacity (peakLive itemKind (contents itemKind items) more)
    with hfull | hroom
  · obtain ⟨s₁, hstuck⟩ := run_buildTable_some_full h hfull
    rw [hstuck] at hbuild
    cases hbuild
  · obtain ⟨s₁, live, added, hrun, hperm, hgarbage, hup, hmeasured⟩ := run_buildTable_some h hroom
    rw [hrun] at hbuild
    cases hbuild
    exact ⟨added, hp.indexOf h.grown.new h.zero hid hfits hup hmeasured hperm, hup.recounted, hgarbage,
      hup.garbageSize (hp.fits h.grown.new h.zero hid hfits).garbageSize⟩

omit [HashFunctions] [Compressors] in
theorem countPuts_le_append (items more : List (Item Entry)) :
    countPuts (items.map Item.val) ≤ countPuts ((items ++ more).map Item.val) := by
  rw [List.map_append, countPuts, countPuts, List.countP_append]
  exact Nat.le_add_right _ _

/-- **A run where there is no index** makes that of the log. -/
theorem indexOf_of_fresh (hl : Logged log items) (hid : log.header.fileIdentifier < 2 ^ 32)
    (hend : log.header.dataEnd < 2 ^ (64 - intLog2 log.header.maxEntriesPerBlock))
    (hopen : logreaderOpen logFile = .ok log)
    (hrun : (hashWrite env logFile hashSize).run none = .ok () index') :
    ∃ header hashtable, index' = some (header.bytes ++ hashtable) ∧
      IndexOf log items header hashtable ∧
      header.garbageSize = u64 (contents itemKind items).garbage := by
  obtain ⟨s, hp, hlt, h⟩ := ok_hashWriteOn (loadLogheader_of_open hopen) hopen hl.toOpened hrun
  have hnone : oldHeader? log.header none = none := rfl
  rw [Hashing.copied, hnone] at h
  rcases h with ⟨hend, -⟩ | ⟨-, s', hbuild, hwrite⟩
  · cases hend
  · obtain ⟨hi, -, hgarbage⟩ := indexOf_of_rebuilt hl hid hend hp (by rw [hnone]; intro _ h; cases h) hlt
      hbuild
    refine ⟨_, _, ok_writeIndex hwrite, hi, ?_⟩
    rw [hgarbage, hp.header, hnone]
    show u64 (0 + _) = _
    rw [Nat.zero_add]

structure Refreshed (items more : List (Item Entry)) (old header : Hashheader) (logHeader : Logheader)
    (hashSize : Nat) : Prop where
  hashSize : header.hashSize = old.nextHashSize logHeader hashSize
  /-- A table that is copied has its garbage counted already. -/
  same : header.hashSize = old.hashSize →
    old.garbageSize = u64 (contents itemKind items).garbage →
    header.garbageSize = u64 (contents itemKind (items ++ more)).garbage
  /-- A run that changes the hash size counts it once more. -/
  other : header.hashSize ≠ old.hashSize →
    header.garbageSize = u64 (old.garbageSize + (contents itemKind (items ++ more)).garbage)

/-- **A run where the index of an earlier state is** makes that of the log. -/
theorem indexOf_of_grown (hg : Grown log₀ log items more) (hi : IndexOf log₀ items old hashtable)
    (hid : log.header.fileIdentifier < 2 ^ 32)
    (hend : log.header.dataEnd < 2 ^ (64 - intLog2 log.header.maxEntriesPerBlock))
    (hopen : logreaderOpen logFile = .ok log)
    (hreads : oldHeader? log.header (some (old.bytes ++ hashtable)) = none ∨ env.reads = [])
    (hrun : (hashWrite env logFile hashSize).run (some (old.bytes ++ hashtable)) = .ok () index') :
    ∃ header hashtable', index' = some (header.bytes ++ hashtable') ∧
      IndexOf log (items ++ more) header hashtable' ∧
      (oldHeader? log.header (some (old.bytes ++ hashtable)) = some old ∧
          Refreshed items more old header log.header hashSize ∨
        oldHeader? log.header (some (old.bytes ++ hashtable)) = none ∧
          header.garbageSize = u64 (contents itemKind (items ++ more)).garbage) := by
  obtain ⟨s, hp, hlt, h⟩ := ok_hashWriteOn (loadLogheader_of_open hopen) hopen hg.new.toOpened hrun
  by_cases hconsistent : old.Consistent
  · have hold := hi.oldHeader?_eq_some hg hconsistent
    have hreads := hreads.resolve_left (by rw [hold]; exact Option.some_ne_none _)
    have hnext : s.hashHeader.hashSize = old.nextHashSize log.header hashSize := by
      rw [hp.header, hold]
      rfl
    have hstart : s.hashHeader.garbageSize = old.garbageSize := by
      rw [hp.header, hold]
      rfl
    rw [Hashing.copied, hold, copiedHeader] at h
    by_cases hsize : old.hashSize = s.hashHeader.hashSize
    · -- the old table is copied, if there is anything to do
      rw [Option.filter_some, if_pos (decide_eq_true hsize), Option.map_some] at h
      rcases h with ⟨hsame, rfl⟩ | ⟨hne, s', hbuild, hwrite⟩
      · have hsame := hi.covers.dataEnd.symm.trans (Option.some.inj hsame)
        refine ⟨old, hashtable, rfl, hi.same_end hg hsame, Or.inl ⟨hold, hsize.trans hnext, ?_,
          fun h => absurd rfl h⟩⟩
        rw [hg.more_eq_nil hsame, List.append_nil]
        exact fun _ h => h
      · have hopens : env.openFails = none := by
          by_contra hfails
          obtain ⟨code, hcode⟩ := Option.ne_none_iff_exists'.mp hfails
          have hfill : (fillHash env (old.bytes ++ hashtable) old).run s = .error (.rc code) s := by
            rw [fillHash, hcode]
            rfl
          rw [run_buildTable_some_eq, run_bind_error hfill] at hbuild
          cases hbuild
        obtain ⟨added, hindex, hrec, hsum, hgarbage⟩ := indexOf_of_copied
          (hp.copying hg hi hend hold hsize hlt (fun h => hne (congrArg some h)) hopens hreads) hid hp
          hold hbuild
        have hkept : s'.hashHeader.hashSize = s.hashHeader.hashSize := by rw [hrec]
        refine ⟨_, _, ok_writeIndex hwrite, hindex, Or.inl ⟨hold, hkept.trans hnext, fun _ hexact => ?_,
          fun h => absurd (hkept.trans hsize.symm) h⟩⟩
        rw [hgarbage, hstart, hexact, hsum]
        unfold u64
        omega
    · -- the whole log is gone through
      rw [Option.filter_some, if_neg (by simpa using hsize)] at h
      rcases h with ⟨hsame, -⟩ | ⟨-, s', hbuild, hwrite⟩
      · cases hsame
      · obtain ⟨hindex, hrec, hgarbage⟩ := indexOf_of_rebuilt hg.new hid hend hp
          (by rw [hold]; rintro _ ⟨⟩; exact hi.fits) hlt hbuild
        have hkept : s'.hashHeader.hashSize = s.hashHeader.hashSize := by rw [hrec]
        refine ⟨_, _, ok_writeIndex hwrite, hindex, Or.inl ⟨hold, hkept.trans hnext,
          fun h => absurd (h.symm.trans hkept) hsize, fun _ => ?_⟩⟩
        rw [hgarbage, hstart]
  · -- the loader refuses the old index, and the whole log is gone through
    have hnone : oldHeader? log.header (some (old.bytes ++ hashtable)) = none :=
      hi.oldHeader?_eq_none hconsistent
    rw [Hashing.copied, hnone] at h
    rcases h with ⟨hsame, -⟩ | ⟨-, s', hbuild, hwrite⟩
    · cases hsame
    · obtain ⟨hindex, -, hgarbage⟩ := indexOf_of_rebuilt hg.new hid hend hp
        (by rw [hnone]; intro _ h; cases h) hlt hbuild
      refine ⟨_, _, ok_writeIndex hwrite, hindex, Or.inr ⟨hnone, ?_⟩⟩
      rw [hgarbage, hp.header, hnone]
      show u64 (0 + _) = _
      rw [Nat.zero_add]

end Logged

end Sparkey
