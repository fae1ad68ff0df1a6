import Sparkey.Growing
import Sparkey.Index.Displacement
import Sparkey.Index.Invariant

/-!
# `sparkey_hash_write`

A run makes a table of zeros for the header it works out, copies the old table or
not, goes through the entries that are left, and writes header and table to a new
file.  `run_hashWriteOn` and `ok_hashWriteOn` say what a run comes to, up to the
table; `run_buildTable_none`, `run_buildTable_full` and `run_buildTable_some` say
what becomes of the table.
-/

namespace Sparkey

open Program BlockStream RobinHood LastWrite

/-! ### The capacity -/

/-- Rounding takes away a `2⁵³`th part at most. -/
theorem le_roundDouble (n : Nat) : (2 ^ 53 - 1) * n ≤ 2 ^ 53 * roundDouble n := by
  unfold roundDouble
  obtain ⟨u, hu⟩ : ∃ u, u = 2 ^ (Nat.log2 n - 52) := ⟨_, rfl⟩
  simp only [← hu]
  have hpos : 0 < u := hu ▸ Nat.two_pow_pos _
  have hdiv : u * (n / u) + n % u = n := Nat.div_add_mod n u
  have hmod : n % u < u := Nat.mod_lt _ hpos
  generalize n / u = q at *
  generalize n % u = r at *
  -- a unit is a 2⁵²th part of the number at most
  have hunit : u = 1 ∨ 2 ^ 52 * u ≤ n := by
    rcases Nat.lt_or_ge 52 (Nat.log2 n) with hlt | hge
    · right
      have hn : n ≠ 0 := by
        rintro rfl
        simp at hlt
      have := Nat.log2_self_le hn
      rw [hu, ← Nat.pow_add, Nat.add_sub_cancel' (Nat.le_of_lt hlt)]
      exact this
    · left
      rw [hu, Nat.sub_eq_zero_of_le hge, Nat.pow_zero]
  rw [Nat.mul_comm] at hdiv
  split_ifs with hup
  · rw [Nat.add_mul, Nat.one_mul]
    omega
  · generalize q * u = m at *
    omega

theorem le_timesOnePointThree (n : Nat) : n ≤ timesOnePointThree n := by
  rcases Nat.lt_or_ge n 4 with hlt | hge
  · have hsmall : ∀ m < 4, m ≤ timesOnePointThree m := by decide
    exact hsmall n hlt
  · have h₁ := le_roundDouble n
    have h₂ := le_roundDouble (roundDouble n * 5854679515581645)
    unfold timesOnePointThree
    rw [Nat.le_div_iff_mul_le (by decide)]
    omega

theorem le_hashCapacity (n : Nat) : n ≤ 1 ||| timesOnePointThree n :=
  Nat.le_trans (le_timesOnePointThree n) Nat.right_le_or

/-! ### The run -/

theorem loadLogheader_of_open {file : Option (List UInt8)} {log : Logreader}
    (h : logreaderOpen file = .ok log) : loadLogheader file = .ok log.header := by
  unfold logreaderOpen at h
  cases hload : loadLogheader file with
  | error code =>
    rw [hload] at h
    cases h
  | ok header =>
    simp only [hload] at h
    split_ifs at h
    cases h
    rfl

theorem opened_of_logreaderOpen {file : Option (List UInt8)} {log : Logreader}
    (h : logreaderOpen file = .ok log) :
    log.Opened ∧ logHeaderSize ≤ log.data.length := by
  have hload := loadLogheader_of_open h
  unfold loadLogheader at hload
  cases file with
  | none => cases hload
  | some bytes =>
    simp only at hload
    cases hread : readLogheader.run bytes with
    | error code s =>
      rw [hread] at hload
      cases hload
    | ok header s =>
      rw [hread] at hload
      obtain rfl : header = log.header := by
        cases hload
        rfl
      obtain ⟨hsize, hend⟩ := gives_readLogheader bytes _ s hread
      have hopened := logreaderOpen_opened h hsize
      refine ⟨hopened, ?_⟩
      rw [hopened.length_data]
      exact hend

/-- The header of the old index, if it belongs to the log. -/
def oldHeader? (logHeader : Logheader) (index : Option (List UInt8)) : Option Hashheader :=
  usableHeader logHeader (loadHashheader index)

def Hashing.copied (s : Hashing) (logHeader : Logheader) (index : Option (List UInt8)) :
    Option Hashheader :=
  copiedHeader s.hashHeader (oldHeader? logHeader index)

def Hashheader.zeroTable (header : Hashheader) (iter raIter : Logiter) : Hashing :=
  ⟨List.replicate (header.slotSize * header.hashCapacity) 0, header, iter, raIter⟩

/-- What a run has prepared when it comes to the table. -/
structure Prepared (env : HashEnv) (logHeader : Logheader) (log : Logreader)
    (index : Option (List UInt8)) (hashSize : Nat) (s : Hashing) : Prop where
  header : s.hashHeader
    = newHashheader logHeader (oldHeader? logHeader index) s.hashHeader.hashSeed hashSize
  hashSeed : ∀ old, oldHeader? logHeader index = some old → s.hashHeader.hashSeed = old.hashSeed
  hashSeed_lt : oldHeader? logHeader index = none → s.hashHeader.hashSeed < 2 ^ 32
  hashSize : hashSize = 0 ∨ hashSize = 4 ∨ hashSize = 8
  hashtable : s.hashtable = List.replicate (s.hashHeader.slotSize * s.hashHeader.hashCapacity) 0
  iter : logiterCreate env.unset log = .ok s.iter
  raIter : logiterCreate env.unset' log = .ok s.raIter

variable [Compressors] [HashFunctions] {env : HashEnv}
  {headerFile logFile index index' : Option (List UInt8)} {logHeader : Logheader}
  {log log₀ : Logreader} {hashSize : Nat} {items more rest live : List (Item Entry)}
  {s s' : Hashing}

omit [Compressors] [HashFunctions] in
theorem slotStep_newHashheader (logHeader : Logheader) (old : Option Hashheader) (hashSeed : Nat)
    (hsize : hashSize = 0 ∨ hashSize = 4 ∨ hashSize = 8) :
    (newHashheader logHeader old hashSeed hashSize).slotStep
      = (newHashheader logHeader old hashSeed hashSize).slotSize := by
  refine Hashheader.slotStep_of_le ?_
  have haddress : (newHashheader logHeader old hashSeed hashSize).addressSize ≤ 8 := by
    show (if _ then 4 else 8) ≤ 8
    split_ifs <;> omega
  have hhash : (newHashheader logHeader old hashSeed hashSize).hashSize ≤ 8 := by
    show (if _ then hashSize else if _ then 8 else 4) ≤ 8
    split_ifs <;> omega
  exact Nat.add_le_add haddress hhash

/-- **What `sparkey_hash_write` comes to**, if its arguments are valid. -/
theorem run_hashWriteOn (hload : loadLogheader headerFile = .ok logHeader)
    (hopen : logreaderOpen logFile = .ok log) (hl : log.Opened)
    (hsize : hashSize = 0 ∨ hashSize = 4 ∨ hashSize = 8)
    (hrand : oldHeader? logHeader index = none → env.rand32 ≠ none) :
    ∃ s, Prepared env logHeader log index hashSize s ∧
      (hashWriteOn env headerFile logFile hashSize).run index = (do
        if 2 ^ 64 ≤ s.hashHeader.slotSize * s.hashHeader.hashCapacity then
          stuck
        if 2 ^ 63 ≤ s.hashHeader.slotSize * s.hashHeader.hashCapacity then
          fail .internalError
        if (s.copied logHeader index).map Hashheader.dataEnd = some log.header.dataEnd then
          return ()
        let s' ← final s (buildTable env index log (s.copied logHeader index))
        writeIndex env s'.hashHeader s'.hashtable : Run (Option (List UInt8)) Unit).run index := by
  obtain ⟨iter, hiter⟩ := logiterCreate_ok hl env.unset
  obtain ⟨raIter, hraIter⟩ := logiterCreate_ok hl env.unset'
  have hvalid : ¬ (hashSize ≠ 0 ∧ hashSize ≠ 4 ∧ hashSize ≠ 8) := by omega
  unfold hashWriteOn
  rw [hload, run_bind_ok (run_lift_ok _ _), hopen, run_bind_ok (run_lift_ok _ _), hiter,
    run_bind_ok (run_lift_ok _ _), hraIter, run_bind_ok (run_lift_ok _ _), run_get_bind]
  cases hold : oldHeader? logHeader index with
  | none =>
    obtain ⟨rand, hrand⟩ := Option.ne_none_iff_exists'.mp (hrand hold)
    refine ⟨(newHashheader logHeader none (u32 rand) hashSize).zeroTable iter raIter,
      ⟨by rw [hold]; rfl, by rw [hold]; exact nofun, fun _ => u32_lt _, hsize, rfl, hiter, hraIter⟩, ?_⟩
    unfold oldHeader? at hold
    simp only [hold, hrand]
    rw [run_bind_ok (run_lift_ok _ _)]
    simp only [if_neg hvalid, Hashing.copied, oldHeader?, hold, slotStep_newHashheader _ _ _ hsize]
    rfl
  | some old =>
    refine ⟨(newHashheader logHeader (some old) old.hashSeed hashSize).zeroTable iter raIter,
      ⟨by rw [hold]; rfl, ?_, by rw [hold]; exact nofun, hsize, rfl, hiter, hraIter⟩, ?_⟩
    · rw [hold]
      rintro _ ⟨⟩
      rfl
    unfold oldHeader? at hold
    simp only [hold]
    rw [run_bind_ok (run_lift_ok _ _)]
    simp only [if_neg hvalid, Hashing.copied, oldHeader?, hold, slotStep_newHashheader _ _ _ hsize]
    rfl

theorem valid_of_ok {u : Unit} (hload : loadLogheader headerFile = .ok logHeader)
    (hopen : logreaderOpen logFile = .ok log) (hl : log.Opened)
    (h : (hashWriteOn env headerFile logFile hashSize).run index = .ok u index') :
    (hashSize = 0 ∨ hashSize = 4 ∨ hashSize = 8) ∧
      (oldHeader? logHeader index = none → env.rand32 ≠ none) := by
  obtain ⟨iter, hiter⟩ := logiterCreate_ok hl env.unset
  obtain ⟨raIter, hraIter⟩ := logiterCreate_ok hl env.unset'
  unfold hashWriteOn at h
  rw [hload, run_bind_ok (run_lift_ok _ _), hopen, run_bind_ok (run_lift_ok _ _), hiter,
    run_bind_ok (run_lift_ok _ _), hraIter, run_bind_ok (run_lift_ok _ _), run_get_bind] at h
  obtain ⟨hashSeed, index₁, hseed, h⟩ := ok_bind h
  constructor
  · by_contra hvalid
    rw [if_pos (by omega)] at h
    cases h
  · intro hold hrand
    unfold oldHeader? at hold
    rw [hold, hrand] at hseed
    cases hseed

/-- **A run that succeeded** found nothing to do, or it built a table and wrote it. -/
theorem ok_hashWriteOn {u : Unit} (hload : loadLogheader headerFile = .ok logHeader)
    (hopen : logreaderOpen logFile = .ok log) (hl : log.Opened)
    (h : (hashWriteOn env headerFile logFile hashSize).run index = .ok u index') :
    ∃ s, Prepared env logHeader log index hashSize s ∧
      s.hashHeader.slotSize * s.hashHeader.hashCapacity < 2 ^ 63 ∧
      ((s.copied logHeader index).map Hashheader.dataEnd = some log.header.dataEnd ∧ index' = index ∨
        (s.copied logHeader index).map Hashheader.dataEnd ≠ some log.header.dataEnd ∧
          ∃ s', (buildTable env index log (s.copied logHeader index)).run s = .ok () s' ∧
            (writeIndex env s'.hashHeader s'.hashtable).run index = .ok () index') := by
  obtain ⟨hsize, hrand⟩ := valid_of_ok hload hopen hl h
  obtain ⟨s, hp, hrun⟩ := run_hashWriteOn hload hopen hl hsize hrand
  rw [hrun] at h
  refine ⟨s, hp, ?_⟩
  by_cases h64 : 2 ^ 64 ≤ s.hashHeader.slotSize * s.hashHeader.hashCapacity
  · rw [if_pos h64] at h
    cases h
  by_cases h63 : 2 ^ 63 ≤ s.hashHeader.slotSize * s.hashHeader.hashCapacity
  · rw [if_neg h64, if_pos h63] at h
    cases h
  refine ⟨by omega, ?_⟩
  rw [if_neg h64, if_neg h63] at h
  by_cases hend : (s.copied logHeader index).map Hashheader.dataEnd = some log.header.dataEnd
  · rw [if_pos hend] at h
    cases h
    exact Or.inl ⟨hend, rfl⟩
  · rw [if_neg hend] at h
    obtain ⟨s', index₁, hfinal, hwrite⟩ := ok_bind h
    refine Or.inr ⟨hend, ?_⟩
    simp only [final, EStateM.run] at hfinal
    cases hbuild : buildTable env index log (s.copied logHeader index) s with
    | error e s₁ =>
      rw [hbuild] at hfinal
      cases hfinal
    | ok v s₁ =>
      rw [hbuild] at hfinal
      cases hfinal
      exact ⟨s', hbuild, hwrite⟩

omit [Compressors] [HashFunctions] in
/-- **What is left of the index file**: header and table when all went well, and else the old file,
none, or a part of the new one. -/
theorem writeIndex_spec (env : HashEnv) (header : Hashheader) (hashtable : List UInt8)
    (index : Option (List UInt8)) :
    match (writeIndex env header hashtable).run index with
    | .ok _ index' => index' = some (header.bytes ++ hashtable)
    | .error e index' => (∃ code, e = .rc code) ∧ (index' = index ∨ index' = none ∨
        ∃ k < (header.bytes ++ hashtable).length,
          index' = some ((header.bytes ++ hashtable).take k)) := by
  cases hremove : env.removeFails with
  | some code =>
    have hfail : (writeIndex env header hashtable).run index = .error (.rc code) index := by
      rw [writeIndex, hremove]
      rfl
    rw [hfail]
    exact ⟨⟨code, rfl⟩, Or.inl rfl⟩
  | none =>
  cases hcreat : env.creatFails with
  | true =>
    have hfail : (writeIndex env header hashtable).run index = .error (.rc .fileClosed) none := by
      rw [writeIndex, hremove, hcreat]
      rfl
    rw [hfail]
    exact ⟨⟨.fileClosed, rfl⟩, Or.inr (Or.inl rfl)⟩
  | false =>
  have hw : Wrote ⟨[], 0, env.writes⟩ (header.bytes ++ hashtable)
      ((do writeHashheader header; writeFull hashtable : Run File Unit).run ⟨[], 0, env.writes⟩) :=
    ((sent_writeHashheader header _).bind fun w => sent_writeFull hashtable _).wrote
  have hsplice : ∀ bytes : List UInt8, splice [] 0 bytes = bytes := fun bytes => by
    rw [show splice [] 0 bytes = [] ++ bytes from splice_length [] _, List.nil_append]
  cases hrun : (do writeHashheader header; writeFull hashtable : Run File Unit).run
      ⟨[], 0, env.writes⟩ with
  | error e fd =>
    have hfail : (writeIndex env header hashtable).run index = .error e (some fd.data) := by
      rw [writeIndex, hremove, hcreat]
      simp only [EStateM.run] at hrun ⊢
      rw [hrun]
      rfl
    rw [hrun] at hw
    rw [hfail]
    obtain ⟨code, w, k, rfl, hk, rfl⟩ := hw
    exact ⟨⟨code, rfl⟩, Or.inr (Or.inr ⟨k, hk, congrArg some (hsplice _)⟩)⟩
  | ok u fd =>
    have hdone : (writeIndex env header hashtable).run index = .ok u (some fd.data) := by
      rw [writeIndex, hremove, hcreat]
      simp only [EStateM.run] at hrun ⊢
      rw [hrun]
      rfl
    rw [hrun] at hw
    rw [hdone]
    obtain ⟨-, w, rfl⟩ := hw
    exact congrArg some (hsplice (header.bytes ++ hashtable))

omit [Compressors] [HashFunctions] in
theorem ok_writeIndex {header : Hashheader} {hashtable : List UInt8} {u : Unit}
    (h : (writeIndex env header hashtable).run index = .ok u index') :
    index' = some (header.bytes ++ hashtable) := by
  have hspec := writeIndex_spec env header hashtable index
  rwa [h] at hspec

omit [Compressors] [HashFunctions] in
theorem returns_writeTable {build : Run Hashing Unit} :
    Returns ((do
      let s' ← final s build
      writeIndex env s'.hashHeader s'.hashtable : Run (Option (List UInt8)) Unit).run index) ↔
      Returns (build.run s) := by
  rw [EStateM.run_bind]
  simp only [final, EStateM.run]
  cases build s with
  | error e s' =>
    cases e with
    | rc code => exact Iff.rfl
    | stuck => exact Iff.rfl
  | ok u s' =>
    refine iff_of_true ?_ trivial
    have hspec := writeIndex_spec env s'.hashHeader s'.hashtable index
    simp only [EStateM.run] at hspec ⊢
    cases hwrite : writeIndex env s'.hashHeader s'.hashtable index with
    | ok u index' => trivial
    | error e index' =>
      rw [hwrite] at hspec
      obtain ⟨⟨code, rfl⟩, -⟩ := hspec
      trivial

theorem run_hashWriteOn_rand (hload : loadLogheader headerFile = .ok logHeader)
    (hopen : logreaderOpen logFile = .ok log) (hl : log.Opened)
    (hold : oldHeader? logHeader index = none) (hrand : env.rand32 = none) :
    (hashWriteOn env headerFile logFile hashSize).run index = .error (.rc .internalError) index := by
  obtain ⟨iter, hiter⟩ := logiterCreate_ok hl env.unset
  obtain ⟨raIter, hraIter⟩ := logiterCreate_ok hl env.unset'
  unfold hashWriteOn
  rw [hload, run_bind_ok (run_lift_ok _ _), hopen, run_bind_ok (run_lift_ok _ _), hiter,
    run_bind_ok (run_lift_ok _ _), hraIter, run_bind_ok (run_lift_ok _ _), run_get_bind]
  unfold oldHeader? at hold
  simp only [hold, hrand]
  rfl

/-! ### The table -/

omit [HashFunctions] in
theorem Prepared.zeroTable (hp : Prepared env log.header log index hashSize s)
    (hl : Logged log items)
    (hend : log.header.dataEnd < 2 ^ (64 - intLog2 log.header.maxEntriesPerBlock))
    (hlt : s.hashHeader.slotSize * s.hashHeader.hashCapacity < 2 ^ 63) : ZeroTable items s := by
  have hheader := hp.header
  generalize s.hashHeader.hashSeed = hashSeed at hheader
  refine ⟨?_, ?_, ?_, ?_, hp.hashtable, ?_, ?_⟩
  · rw [hheader]
    unfold newHashheader
    simp only
    split_ifs
    · exact Or.inl rfl
    · exact Or.inr rfl
  · rw [hheader]
    have hvalid := hp.hashSize
    unfold newHashheader
    simp only
    split_ifs <;> omega
  · rw [hheader]
    have := Nat.left_le_or (n := 1) (m := timesOnePointThree (expectedEntries log.header
      (oldHeader? log.header index)))
    exact this
  · rw [hp.hashtable, List.length_replicate]
    exact hlt
  · rw [hheader]
    rfl
  · rw [hheader]
    exact addressed_newHashheader hl hend _ _ _

omit [HashFunctions] in
theorem Prepared.before (hp : Prepared env logHeader log index hashSize s) (hl : log.Holds items) :
    Before log s.iter items ∧ Usable log s.raIter :=
  ⟨logiterCreate_before hl hp.iter, (logiterCreate_before hl hp.raIter).usable⟩

/-- What `calculate_max_displacement` leaves in the header of a table. -/
structure Hashheader.Measured (header : Hashheader) (hashtable : List UInt8) : Prop where
  maxDisplacement : header.maxDisplacement = (header.displacements hashtable).foldl max 0
  maxDisplacement_le : header.maxDisplacement ≤ header.numEntries
  hashCollisions_le : header.hashCollisions ≤ header.numEntries
  totalDisplacement_lt : header.totalDisplacement < 2 ^ 64

/-- **The entries that are left** are written to the table. -/
theorem run_replayRest (hl : Logged log items) (hlen : rest.length ≤ items.length)
    (hb : Before log s.iter rest) (hu : Usable log s.raIter) (hsub : ∀ it ∈ rest, it ∈ items)
    (ha : Addressed s.hashHeader items) (hi : Indexed items s.hashHeader s.hashtable live)
    (hpeak : peakLive itemKind ⟨live, 0⟩ rest ≤ s.hashHeader.hashCapacity) :
    ∃ s', (do replayLoop log (entryFuel log); calculateMaxDisplacement : Run Hashing Unit).run s
        = .ok () s' ∧
      Updated items s s' ((⟨live, 0⟩ : Contents _).writes itemKind rest).live
        ((⟨live, 0⟩ : Contents _).writes itemKind rest).garbage ∧ s'.hashHeader.Measured s'.hashtable := by
  obtain ⟨s₁, hrun₁, hup₁⟩ := run_replayLoop hl rest
    (Nat.lt_of_le_of_lt hlen (length_lt_entryFuel hl.toHolds)) hb hu hsub ha hi hpeak
  obtain ⟨s', hrun', htable, hup', hmaximum, htotal, hmax, hcoll⟩ :=
    run_calculateMaxDisplacement hup₁.indexed
  refine ⟨s', ?_, hup₁.trans hup', ?_, ?_, ?_, ?_⟩
  · rw [run_bind_ok hrun₁, hrun']
  · rw [hmaximum, htable, hup'.recounted.displacements]
  · rw [hup'.indexed.numEntries]
    exact hmax
  · rw [hup'.indexed.numEntries]
    exact hcoll
  · rw [htotal]
    exact u64_lt _

/-- If too many entries are live at some time, this does not come to an end. -/
theorem run_replayRest_full (hl : Logged log items) (hlen : rest.length ≤ items.length)
    (hb : Before log s.iter rest) (hu : Usable log s.raIter) (hsub : ∀ it ∈ rest, it ∈ items)
    (ha : Addressed s.hashHeader items) (hi : Indexed items s.hashHeader s.hashtable live)
    (hpeak : s.hashHeader.hashCapacity < peakLive itemKind ⟨live, 0⟩ rest) :
    ∃ s', (do replayLoop log (entryFuel log); calculateMaxDisplacement : Run Hashing Unit).run s
        = .error .stuck s' := by
  obtain ⟨s', hrun⟩ := run_replayLoop_full hl rest
    (Nat.lt_of_le_of_lt hlen (length_lt_entryFuel hl.toHolds)) hb hu hsub ha hi hpeak
  exact ⟨s', run_bind_error hrun⟩

/-- **Going through the whole log** makes its table. -/
theorem run_buildTable_none (env : HashEnv) (index : Option (List UInt8))
    (hl : Logged log items) (hz : ZeroTable items s) (hb : Before log s.iter items) (hu : Usable log s.raIter)
    (hpeak : peakLive itemKind ⟨[], 0⟩ items ≤ s.hashHeader.hashCapacity) :
    ∃ s', (buildTable env index log none).run s = .ok () s' ∧
      Updated items s s' (contents itemKind items).live (contents itemKind items).garbage ∧
      s'.hashHeader.Measured s'.hashtable :=
  run_replayRest hl (Nat.le_refl _) hb hu (fun _ h => h) hz.addressed (indexed_zero hz) hpeak

/-- **Too many entries at a time** keep a run from coming to its end. -/
theorem run_buildTable_full (env : HashEnv) (index : Option (List UInt8))
    (hl : Logged log items) (hz : ZeroTable items s) (hb : Before log s.iter items) (hu : Usable log s.raIter)
    (hpeak : s.hashHeader.hashCapacity < peakLive itemKind ⟨[], 0⟩ items) :
    ∃ s', (buildTable env index log none).run s = .error .stuck s' :=
  run_replayRest_full hl (Nat.le_refl _) hb hu (fun _ h => h) hz.addressed (indexed_zero hz) hpeak

end Sparkey
