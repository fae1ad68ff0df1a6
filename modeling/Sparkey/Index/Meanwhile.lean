import Sparkey.Index.Answers
import Sparkey.Index.Room

/-!
# A log that is written on meanwhile

`sparkey_hash_write` opens the log twice.  What it finds the first time makes the header of the
index and the size of the table; the entries it goes through are those that are there
the second time.  Nothing in between brings the two together, so the index is right
if and only if no entry was published between the two (`exactFor_iff_of_meanwhile`).
Later flushes do no harm: the bytes that are mapped stay as they are (`Later.mapped`).
-/

namespace Sparkey

open Program BlockStream RobinHood LastWrite

/-! ### What no run changes -/

/-- Only counters have changed in the header, and the table has not become shorter. -/
abbrev Recounting (start s : Hashing) : Prop :=
  Recounted start.hashHeader s.hashHeader ∧ start.hashtable.length ≤ s.hashtable.length

variable {start : Hashing}

theorem preserves_onIter {α : Type} (x : Run Logiter α) : Preserves (Recounting start) (onIter x) := by
  intro s h
  show Leaves _ (onIter x s)
  rw [onIter]
  cases x.run s.iter with
  | ok a iter => exact h
  | error e iter => cases e with
    | rc code => exact h
    | stuck => trivial

theorem preserves_onRaIter {α : Type} (x : Run Logiter α) :
    Preserves (Recounting start) (onRaIter x) := by
  intro s h
  show Leaves _ (onRaIter x s)
  rw [onRaIter]
  cases x.run s.raIter with
  | ok a iter => exact h
  | error e iter => cases e with
    | rc code => exact h
    | stuck => trivial

theorem preserves_onIters {α : Type} (x : Run (Logiter × Logiter) α) :
    Preserves (Recounting start) (onIters x) := by
  intro s h
  show Leaves _ (onIters x s)
  rw [onIters]
  cases x.run (s.iter, s.raIter) with
  | ok a its => exact h
  | error e its => cases e with
    | rc code => exact h
    | stuck => trivial

theorem preserves_getSlot (slot : Nat) : Preserves (Recounting start) (getSlot slot) := by
  refine .get_bind fun s h => ?_
  split
  · trivial
  · exact h

theorem preserves_setSlot (slot hash position : Nat) :
    Preserves (Recounting start) (setSlot slot hash position) :=
  preserves_modify fun _ h => ⟨h.1, h.2.trans ((le_length_splice _ _ _).trans (le_length_splice _ _ _))⟩

theorem preserves_modifyHeader {f : Hashheader → Hashheader} (hf : ∀ header, Recounted header (f header)) :
    Preserves (Recounting start) (modifyHeader f) :=
  preserves_modify fun s h => ⟨h.1.trans (hf s.hashHeader), h.2⟩

section

variable [Compressors]

theorem preserves_sameKey (log : Logreader) (position2 entryIndex2 : Nat) :
    Preserves (Recounting start) (sameKey log position2 entryIndex2) := by
  refine (preserves_onRaIter _).bind fun _ => (preserves_onRaIter _).bind fun _ =>
    (preserves_onRaIter _).bind fun _ => .get_bind fun s h => ?_
  refine Preserves.check (fun _ => .ite ?_ (preserves_pure _)) s h
  refine (preserves_onIter _).bind fun _ => (preserves_onIters _).bind fun cmp => .ite ?_ ?_
  · exact preserves_pure _
  · exact preserves_pure _

theorem preserves_collides (log : Option Logreader) (might : Bool) (hash hash2 position2 : Nat) :
    Preserves (Recounting start) (collides log might hash hash2 position2) := by
  refine .get_bind fun s h => ?_
  cases log with
  | none => exact h
  | some log =>
    exact Preserves.ite (preserves_sameKey log _ _) (preserves_pure _) s h

theorem preserves_hashPutLoop (log : Option Logreader) : ∀ (fuel : Nat) (might : Bool)
    (slot displacement hash position : Nat),
    Preserves (Recounting start) (hashPutLoop log fuel might slot displacement hash position) := by
  intro fuel
  induction fuel with
  | zero =>
    intro might slot displacement hash position
    exact preserves_stuck
  | succ fuel ih =>
    intro might slot displacement hash position
    refine (preserves_getSlot slot).bind fun (hash2, position2) => .ite ?_ ?_
    · exact (preserves_setSlot _ _ _).bind fun _ =>
        (preserves_modifyHeader (f := Hashheader.addedEntry) fun _ => rfl).bind fun _ =>
          preserves_pure _
    refine (preserves_collides _ _ _ _ _).bind fun found => ?_
    cases found with
    | some lengths =>
      exact (preserves_setSlot _ _ _).bind fun _ => preserves_modifyHeader fun _ => rfl
    | none =>
      refine .get_bind fun s h => Preserves.ite ?_ (ih _ _ _ _ _) s h
      exact (preserves_setSlot _ _ _).bind fun _ => ih _ _ _ _ _

theorem preserves_hashPut (log : Option Logreader) (wantedSlot hash position : Nat) :
    Preserves (Recounting start) (hashPut log wantedSlot hash position) :=
  .get_bind fun s h => preserves_hashPutLoop log _ _ _ _ _ _ s h

omit [Compressors] in
theorem preserves_shiftLoop : ∀ fuel slot : Nat, Preserves (Recounting start) (shiftLoop fuel slot) := by
  intro fuel
  induction fuel with
  | zero =>
    intro slot
    exact preserves_stuck
  | succ fuel ih =>
    intro slot
    refine .get_bind fun s h => (preserves_getSlot _).bind (fun (hash3, position3) => ?_) s h
    refine .ite (preserves_setSlot _ _ _) (.ite (preserves_setSlot _ _ _) ?_)
    exact (preserves_setSlot _ _ _).bind fun _ => ih _

theorem preserves_hashDeleteLoop (log : Logreader) : ∀ fuel slot displacement hash : Nat,
    Preserves (Recounting start) (hashDeleteLoop log fuel slot displacement hash) := by
  intro fuel
  induction fuel with
  | zero =>
    intro slot displacement hash
    exact preserves_stuck
  | succ fuel ih =>
    intro slot displacement hash
    refine (preserves_getSlot slot).bind fun (hash2, position2) => .ite (preserves_pure _) ?_
    refine .get_bind fun s h => Preserves.check (fun _ => ?_) s h
    refine (preserves_collides _ _ _ _ _).bind fun found => ?_
    cases found with
    | some lengths =>
      exact (preserves_shiftLoop _ _).bind fun _ => preserves_modifyHeader fun _ => rfl
    | none => exact .ite (preserves_pure _) (ih _ _ _)

theorem preserves_hashDelete (log : Logreader) (wantedSlot hash : Nat) :
    Preserves (Recounting start) (hashDelete log wantedSlot hash) :=
  .get_bind fun s h => preserves_hashDeleteLoop log _ _ _ _ s h

omit [Compressors] in
theorem preserves_calculateMaxDisplacement : Preserves (Recounting start) calculateMaxDisplacement := by
  refine .get_bind fun s h => ?_
  split
  · trivial
  · refine preserves_modifyHeader (fun header => ?_) s h
    rfl

theorem preserves_hashCopyLoop (buf : List UInt8) (bufferSize : Nat) (old : Hashheader) :
    ∀ fuel i : Nat, Preserves (Recounting start) (hashCopyLoop buf bufferSize old fuel i) := by
  intro fuel
  induction fuel with
  | zero =>
    intro i
    exact preserves_stuck
  | succ fuel ih =>
    intro i
    refine .ite ?_ (preserves_pure _)
    split
    · exact preserves_stuck
    · refine .get_bind fun s h => Preserves.bind ?_ (fun _ => ih _) s h
      exact .ite (preserves_hashPut _ _ _ _) (preserves_pure _)

theorem preserves_fillHash (env : HashEnv) (file : List UInt8) (old : Hashheader) :
    Preserves (Recounting start) (fillHash env file old) := by
  rw [fillHash]
  split
  · exact preserves_fail _
  have hcopy : ∀ (buf : List UInt8) (count : Nat),
      Preserves (fun s : ReadFile × Hashing => True ∧ Recounting start s.2)
        (onSnd (hashCopy buf count old)) :=
    fun buf count => Preserves.onSnd (I := fun _ => True) (preserves_hashCopyLoop _ _ _ _ _)
  have hread : ∀ (count : Nat) (buf : List UInt8),
      Preserves (fun s : ReadFile × Hashing => True ∧ Recounting start s.2)
        (onFst (readFully count buf)) := by
    intro count buf
    refine Preserves.onFst (I := fun _ => True) fun f _ => ?_
    cases (readFully count buf).run f with
    | ok a f' => trivial
    | error e f' => cases e with
      | rc code => trivial
      | stuck => trivial
  have hloop : ∀ (count n : Nat) (buf : List UInt8),
      Preserves (fun s : ReadFile × Hashing => True ∧ Recounting start s.2)
        (fillHashLoop count old n buf) := by
    intro count n
    induction n with
    | zero =>
      intro buf
      exact preserves_pure _
    | succ n ih =>
      intro buf
      exact (hread _ _).bind fun buf => (hcopy buf _).bind fun _ => ih _
  have hbuffers : ∀ (bufferSize n rest : Nat) (buf : List UInt8),
      Preserves (fun s : ReadFile × Hashing => True ∧ Recounting start s.2)
        (fillHashBuffers old bufferSize n rest buf) := fun _ n rest buf =>
    (hloop _ n buf).bind fun buf => (hread rest buf).bind fun buf => hcopy buf rest
  have hopened : ∀ (read : ReadFile) (bufferSize n rest : Nat) (buf : List UInt8),
      Preserves (Recounting start) (onNew read (fillHashBuffers old bufferSize n rest buf)) :=
    fun _ bufferSize n rest buf =>
      Preserves.onNew (I := fun _ => True) trivial (hbuffers bufferSize n rest buf)
  refine .ite (preserves_stuck.bind fun _ => ?_) ?_ <;> exact .check fun _ => hopened _ _ _ _ _

variable [HashFunctions]

theorem preserves_indexEntry (log : Logreader) : Preserves (Recounting start) (indexEntry log) := by
  refine .get_bind fun s h => Preserves.bind (preserves_onIter _) (fun keyHash => ?_) s h
  refine .get_bind fun s h => ?_
  split
  · exact preserves_hashPut _ _ _ _ s h
  · refine Preserves.bind (preserves_modifyHeader fun header => ?_) (fun _ => preserves_hashDelete _ _ _) s h
    rfl

theorem preserves_replayLoop (log : Logreader) : ∀ fuel : Nat,
    Preserves (Recounting start) (replayLoop log fuel) := by
  intro fuel
  induction fuel with
  | zero => exact preserves_stuck
  | succ fuel ih =>
    refine (preserves_onIter _).bind fun _ => .get_bind fun s h => ?_
    split
    · exact h
    · exact (preserves_indexEntry log).bind (fun _ => ih) s h
    · exact h
    · exact h

/-- **Filling the table** changes only counters of the header, whatever the log is. -/
theorem preserves_buildTable (env : HashEnv) (file : Option (List UInt8)) (log : Logreader)
    (copied : Option Hashheader) : Preserves (Recounting start) (buildTable env file log copied) := by
  have hrest : Preserves (Recounting start)
      (do replayLoop log (entryFuel log); calculateMaxDisplacement) :=
    (preserves_replayLoop log _).bind fun _ => preserves_calculateMaxDisplacement
  cases copied with
  | none => exact hrest
  | some old =>
    exact (preserves_fillHash env _ old).bind fun _ => (preserves_onIter _).bind fun _ => hrest

theorem recounting_of_buildTable {env : HashEnv} {file : Option (List UInt8)} {log : Logreader}
    {copied : Option Hashheader} {s : Hashing} (h : (buildTable env file log copied).run start = .ok () s) :
    Recounting start s := by
  have hkeeps : Preserves (Recounting start) (buildTable env file log copied) :=
    preserves_buildTable env file log copied
  have hkept := hkeeps start ⟨.refl start.hashHeader, Nat.le_refl _⟩
  rwa [h] at hkept

end

variable [Compressors] [HashFunctions] {t : CompressionType} {n : Nat} {calls more : List Call}
  {w w₁ w₂ w' : Logwriter} {logFile index index' : Option (List UInt8)} {env : HashEnv} {hashSize : Nat}
  {log log₁ log₂ : Logreader} {known : Known} {s s' : Hashing} {items : List (Item Entry)}

omit [Compressors] in
theorem IndexOf.eq_of_oldHeader? {logHeader : Logheader} {old : Hashheader} {hashtable : List UInt8}
    (hi : IndexOf log items header hashtable)
    (h : oldHeader? logHeader (some (header.bytes ++ hashtable)) = some old) : old = header := by
  rw [oldHeader?, loadHashheader_bytes hi.fits hi.current] at h
  by_cases hconsistent : header.Consistent
  · rw [if_pos hconsistent, usableHeader] at h
    split_ifs at h
    exact (Option.some.inj h).symm
  · rw [if_neg hconsistent] at h
    cases h

/-! ### The writer goes on -/

/-- Some calls, the last of them a flush, or none. -/
inductive Later (w : Logwriter) : List Call → Logwriter → Prop
  | same : Later w [] w
  | flush {more : List Call} {w' w'' : Logwriter} : Going w more w' →
      logwriterFlush.run w' = .ok () w'' → Later w (more ++ [.flush]) w''

omit [HashFunctions] in
theorem Later.going (h : Later w more w') : Going w more w' := by
  cases h with
  | same => exact .refl
  | flush hgo hflush => exact hgo.call (.flush hflush)

omit [HashFunctions] in
theorem Later.flushed (h : Later w more w') (hw : Writing t n calls w) (hf : Flushed w) : Flushed w' := by
  cases h with
  | same => exact hf
  | flush hgo hflush => exact ((kept_of_writing (hw.going hgo)).1.flush hflush).2.1

omit [HashFunctions] in
/-- **What has been mapped stays as it is**, but for the header of the log, which is not looked at
there. -/
theorem Later.mapped (h : Later w more w') (hw : Writing t n calls w) (hf : Flushed w) :
    (w'.fd.data.take w.header.dataEnd).drop logHeaderSize = w.fd.data.drop logHeaderSize := by
  have hf' := h.flushed hw hf
  obtain ⟨-, hcalls, -⟩ := (kept_of_writing hw).1.going h.going
  obtain ⟨tail, htail⟩ := (Packing.grows_calls hcalls).out
  have hend : w.header.dataEnd = logHeaderSize + w.packing.out.length := by
    rw [hf.dataEnd, hf.data, List.length_append, Logheader.length_bytes]
  have hlen := w'.header.length_bytes
  rw [hf'.data, hf.data, hend, ← htail, ← List.append_assoc, List.take_append_of_le_length (by simp),
    List.take_of_length_le (by simp), ← hlen, List.drop_left, hlen, ← w.header.length_bytes,
    List.drop_left]

theorem Follows.going (h : Follows t n known calls w index) (hgo : Going w more w') :
    Follows t n known (calls ++ more) w' index := by
  induction hgo with
  | refl => rwa [List.append_nil]
  | call _ hdone ih =>
    rw [← List.append_assoc]
    exact ih.done hdone

theorem Follows.later (h : Follows t n known calls w index) (hflush : logwriterFlush.run w = .ok () w₁)
    (hlater : Later w₁ more w₂) : ∃ calls' w', Follows t n known calls' w' index ∧
      logwriterFlush.run w' = .ok () w₂ ∧ entriesOf calls' = entriesOf (calls ++ more) := by
  cases hlater with
  | same => exact ⟨calls, w, h, hflush, by rw [List.append_nil]⟩
  | flush hgo hflush' =>
    refine ⟨_, _, (h.done (.flush hflush)).going hgo, hflush', ?_⟩
    rw [← List.append_assoc, entriesOf_flush, entriesOf_append_calls, entriesOf_flush,
      ← entriesOf_append_calls]

omit [HashFunctions] in
/-- **The header tells whether entries have been published** since. -/
theorem Later.header_eq_iff (hlater : Later w₁ more w₂) (hw : Writing t n calls w)
    (hfit : ∀ e ∈ entriesOf (calls ++ more), HeadFits (.of t n) e) (hz : (Setting.of t n).Lossless)
    (hflush : logwriterFlush.run w = .ok () w₁) (hopen₁ : logreaderOpen (some w₁.fd.data) = .ok log₁)
    (hopen₂ : logreaderOpen (some w₂.fd.data) = .ok log₂) :
    (entriesOf more = [] → log₂.header = log₁.header) ∧
      (entriesOf more ≠ [] → log₁.header.dataEnd < log₂.header.dataEnd) := by
  rw [entriesOf_append_calls] at hfit
  have hfit₁ : ∀ e ∈ entriesOf calls, HeadFits (.of t n) e := fun e he =>
    hfit e (List.mem_append_left _ he)
  obtain ⟨items, hp⟩ := published_of_flush hw hfit₁ hz hflush hopen₁
  have hk := (kept_of_writing hp.writing).1
  have hf₁ := hp.flushed
  constructor
  · intro hidle
    obtain ⟨hf₂, hheader⟩ := hk.idle hf₁ hlater.going hidle
    have hk₂ := (hk.going hlater.going).1
    rw [(hk₂.open hf₂ hopen₂).2.1, (hk.open hf₁ hopen₁).2.1, hheader]
  · intro hbusy
    cases hlater with
    | same => exact absurd rfl hbusy
    | flush hgo hflush' =>
      rw [entriesOf_flush] at hfit hbusy
      obtain ⟨new, hgrown, hp₂⟩ := hp.grown hgo hflush' hopen₂
        (fun e he => hfit e (List.mem_append_right _ he)) hz
      refine Nat.lt_of_le_of_ne hgrown.dataEnd_le fun hsame => hbusy ?_
      have hnil := hgrown.more_eq_nil hsame
      rename_i new' _
      have hall : entriesOf (calls ++ [.flush] ++ new' ++ [.flush]) = entriesOf calls ++ entriesOf new' := by
        rw [entriesOf_flush, entriesOf_append_calls, entriesOf_flush]
      have hvals := hp₂.vals
      rw [hnil, List.append_nil, hp.vals, hall, entriesOf_flush, List.self_eq_append_right] at hvals
      exact hvals

/-! ### A system that is willing -/

omit [Compressors] [HashFunctions] in
/-- The system does what it is asked for. -/
structure HashEnv.Willing (env : HashEnv) : Prop where
  rand32 : env.rand32 ≠ none
  openFails : env.openFails = none
  removeFails : env.removeFails = none
  creatFails : env.creatFails = false
  writes : Unfailing env.writes

omit [Compressors] [HashFunctions] in
/-- **The new file gets written.** -/
theorem HashEnv.Willing.run_writeIndex (h : env.Willing) {hashtable : List UInt8}
    (hroom : hashHeaderSize + hashtable.length ≤ maxFileSize) :
    (writeIndex env header hashtable).run index = .ok () (some (header.bytes ++ hashtable)) := by
  have hsends : Sends (header.bytes ++ hashtable)
      (do writeHashheader header; writeFull hashtable : Run File Unit) :=
    (sends_writeHashheader header).bind (sends_writeFull hashtable)
  have hlen : 0 + (header.bytes ++ hashtable).length ≤ maxFileSize := by
    rw [Nat.zero_add, List.length_append, header.length_bytes]
    exact hroom
  obtain ⟨rest, hrun, -⟩ := hsends ⟨[], 0, env.writes⟩ h.writes hlen
  have hwrite : ∃ file, (writeIndex env header hashtable).run index = .ok () file := by
    rw [writeIndex, h.removeFails, h.creatFails]
    simp only [EStateM.run] at hrun ⊢
    simp only [hrun]
    exact ⟨_, rfl⟩
  obtain ⟨file, hfile⟩ := hwrite
  rw [hfile, ok_writeIndex hfile]

def Settles (x : Run Hashing Unit) (s : Hashing) : Prop :=
  (∃ s', x.run s = .ok () s' ∧ s'.hashtable.length = s.hashtable.length) ∨
    ∃ s', x.run s = .error .stuck s'

omit [Compressors] in
theorem Updated.settles {x : Run Hashing Unit} {live : List (Item Entry)} {garbage : Nat}
    (hup : Updated items s s' live garbage) (hz : ZeroTable items s) (hrun : x.run s = .ok () s') :
    Settles x s := by
  refine Or.inl ⟨s', hrun, ?_⟩
  rw [hup.indexed.sized.length, hz.zero, List.length_replicate, hup.recounted]
  rfl

theorem settles_buildTable_none (hl : Logged log items) (hz : ZeroTable items s)
    (hb : Before log s.iter items) (hu : Usable log s.raIter) :
    Settles (buildTable env index log none) s := by
  rcases Nat.lt_or_ge s.hashHeader.hashCapacity (peakLive itemKind ⟨[], 0⟩ items) with hfull | hroom
  · exact Or.inr (run_buildTable_full env index hl hz hb hu hfull)
  · obtain ⟨s', hrun, hup, -⟩ := run_buildTable_none env index hl hz hb hu hroom
    exact hup.settles hz hrun

theorem Copying.settles {log₀ : Logreader} {more : List (Item Entry)} {old : Hashheader}
    {hashtable : List UInt8} (h : Copying log₀ log items more old hashtable env s) :
    Settles (buildTable env (some (old.bytes ++ hashtable)) log (some old)) s := by
  rcases Nat.lt_or_ge s.hashHeader.hashCapacity (peakLive itemKind (contents itemKind items) more) with
    hfull | hroom
  · exact Or.inr (run_buildTable_some_full h hfull)
  · obtain ⟨s', live, added, hrun, -, -, hup, -⟩ := run_buildTable_some h hroom
    exact hup.settles h.zero hrun

/-- **A run that ends succeeds**, on a system that is willing. -/
theorem Follows.ok_of_returns (h : Follows t n known calls w index)
    (hfit : ∀ e ∈ entriesOf calls, HeadFits (.of t n) e) (hz : (Setting.of t n).Lossless)
    (hflush : logwriterFlush.run w = .ok () w') (hopen : logreaderOpen (some w'.fd.data) = .ok log)
    (hwhole : WholeReads env log.header (oldHeader? log.header index))
    (hsize : hashSize = 0 ∨ hashSize = 4 ∨ hashSize = 8) (hwilling : env.Willing)
    (hsmall : hashHeaderSize + tableSize log.header (oldHeader? log.header index) hashSize ≤ maxFileSize)
    (hends : Returns ((hashWrite env (some w'.fd.data) hashSize).run index)) :
    ∃ index', (hashWrite env (some w'.fd.data) hashSize).run index = .ok () index' := by
  obtain ⟨_, hl, -⟩ := holds_of_flush h.writing hfit hz hflush hopen
  obtain ⟨s, hp, hrun⟩ : ∃ s, Prepared env log.header log index hashSize s ∧ _ :=
    run_hashWriteOn (loadLogheader_of_open hopen) hopen hl.toOpened hsize fun _ => hwilling.rand32
  obtain ⟨-, -, htable⟩ := hp.start
  have hmax : maxFileSize = 2 ^ 63 - 1 := rfl
  have hlt : s.hashHeader.slotSize * s.hashHeader.hashCapacity < 2 ^ 63 := by omega
  have h64 : ¬ 2 ^ 64 ≤ s.hashHeader.slotSize * s.hashHeader.hashCapacity := by omega
  rw [hashWrite, hrun, if_neg h64, if_neg (Nat.not_le_of_lt hlt)] at hends ⊢
  by_cases hend : (s.copied log.header index).map Hashheader.dataEnd = some log.header.dataEnd
  · rw [if_pos hend]
    exact ⟨index, rfl⟩
  rw [if_neg hend] at hends ⊢
  have hbuilt := returns_writeTable.mp hends
  clear hends
  have hsettles : Settles (buildTable env index log (s.copied log.header index)) s := by
    cases h with
    | absent hw =>
      obtain ⟨items, hpub⟩ := published_of_flush hw hfit hz hflush hopen
      have hl := hpub.logged hz
      have hcopied : s.copied log.header none = none := rfl
      obtain ⟨hb, hu⟩ := hp.before hl.toHolds
      rw [hcopied]
      exact settles_buildTable_none hl (hp.zeroTable hl hwhole.dataEnd_lt hlt) hb hu
    | present hpub hgo hi _ =>
      rename_i calls more w₀ log₀ items old hashtable _
      have hentries := entriesOf_append_calls calls more
      obtain ⟨new, hgrown, hpub'⟩ := hpub.grown hgo hflush hopen
        (fun e he => hfit e (hentries ▸ List.mem_append_right _ he)) hz
      cases hcopied : s.copied log.header (some (old.bytes ++ hashtable)) with
      | none =>
        obtain ⟨hb, hu⟩ := hp.before hgrown.new.toHolds
        exact settles_buildTable_none hgrown.new (hp.zeroTable hgrown.new hwhole.dataEnd_lt hlt) hb hu
      | some old' =>
        obtain ⟨hold, hsame⟩ := Option.filter_eq_some_iff.mp hcopied
        cases hi.eq_of_oldHeader? hold
        rw [hcopied] at hend
        exact (hp.copying hgrown hi hwhole.dataEnd_lt hold (of_decide_eq_true hsame) hlt
          (fun h => hend (congrArg some h)) hwilling.openFails
          (hwhole.reads.resolve_left (by rw [hold]; exact Option.some_ne_none _))).settles
  rcases hsettles with ⟨s', hbuild, hlength⟩ | ⟨s', hbuild⟩
  · have hroom : hashHeaderSize + s'.hashtable.length ≤ maxFileSize := by
      rw [hlength, hp.hashtable, List.length_replicate, htable]
      exact hsmall
    exact ⟨_, (run_bind_ok (run_final_ok hbuild)).trans (hwilling.run_writeIndex hroom)⟩
  · rw [hbuild] at hbuilt
    cases hbuilt

/-! ### What the index is right for -/

/-- **The index is exactly that of the log**: its header tells of this log, its table was sized for
it, unless the file was that of the log before, and it answers by the entries of the log. -/
structure ExactFor (logFile : Option (List UInt8)) (logHeader : Logheader)
    (index index' : Option (List UInt8)) (hashSize : Nat) (es : List Entry) : Prop where
  header : ∃ header, loadHashheader index' = .ok header ∧ header.dataEnd = logHeader.dataEnd ∧
    header.numPuts = logHeader.numPuts ∧ (index' = index ∨
      header.hashCapacity = (startHeader logHeader (oldHeader? logHeader index) hashSize).hashCapacity ∧
      header.addressSize = (startHeader logHeader (oldHeader? logHeader index) hashSize).addressSize ∧
      header.entryBlockBits = intLog2 logHeader.maxEntriesPerBlock)
  complete : Complete index' logFile es

omit [Compressors] [HashFunctions] in
theorem intLog2Loop_le : ∀ fuel x count : Nat, intLog2Loop fuel x count ≤ count + fuel := by
  intro fuel
  induction fuel with
  | zero =>
    intro x count
    exact Nat.le_refl _
  | succ fuel ih =>
    intro x count
    rw [intLog2Loop]
    split_ifs
    · have := ih (x >>> 1) (count + 1)
      omega
    · omega

/-- **What a run leaves that succeeds**: the file as it was, or one whose header goes by what was
read first. -/
theorem ok_sized {headerFile : Option (List UInt8)} {logHeader : Logheader}
    (hload : loadLogheader headerFile = .ok logHeader) (hopen : logreaderOpen logFile = .ok log)
    (hl : log.Opened) (h : (hashWriteOn env headerFile logFile hashSize).run index = .ok () index') :
    (∃ old, oldHeader? logHeader index = some old ∧ old.dataEnd = log.header.dataEnd ∧ index' = index) ∨
      ∀ header', loadHashheader index' = .ok header' →
        header'.dataEnd = logHeader.dataEnd % 2 ^ 64 ∧
        header'.hashCapacity = (startHeader logHeader (oldHeader? logHeader index) hashSize).hashCapacity ∧
        header'.addressSize = (startHeader logHeader (oldHeader? logHeader index) hashSize).addressSize ∧
        header'.entryBlockBits = intLog2 logHeader.maxEntriesPerBlock := by
  obtain ⟨s, hp, hlt, ⟨hend, rfl⟩ | ⟨-, s', hbuild, hwrite⟩⟩ := ok_hashWriteOn hload hopen hl h
  · obtain ⟨old, hcopied, hold⟩ := Option.map_eq_some_iff.mp hend
    exact Or.inl ⟨old, (Option.filter_eq_some_iff.mp hcopied).1, hold, rfl⟩
  right
  intro header' hload'
  rw [ok_writeIndex hwrite] at hload'
  obtain ⟨hend, hcap, haddr, -, hbits⟩ := sizes_of_loadHashheader hload'
  have hrec : Recounted s.hashHeader s'.hashHeader := (recounting_of_buildTable hbuild).1
  have hstart := hp.header
  have haddress : s.hashHeader.addressSize = 4 ∨ s.hashHeader.addressSize = 8 := by
    have hchoice : s.hashHeader.addressSize
        = if logHeader.dataEnd < 1 <<< (32 - intLog2 logHeader.maxEntriesPerBlock) then 4 else 8 := by
      rw [hstart]
      rfl
    split_ifs at hchoice
    · exact Or.inl hchoice
    · exact Or.inr hchoice
  have hcapacity : s.hashHeader.hashCapacity < 2 ^ 64 := by
    have hslot : 1 ≤ s.hashHeader.slotSize := by
      rw [Hashheader.slotSize]
      omega
    have := Nat.mul_le_mul_right s.hashHeader.hashCapacity hslot
    omega
  have hlog2 : intLog2 logHeader.maxEntriesPerBlock ≤ 0 + 32 := intLog2Loop_le _ _ _
  have hblockBits : s.hashHeader.entryBlockBits = intLog2 logHeader.maxEntriesPerBlock := by
    rw [hstart]
    rfl
  refine ⟨?_, ?_, ?_, ?_⟩
  · rw [hend, hrec, hstart]
    rfl
  · rw [hcap, hrec.capacity, Nat.mod_eq_of_lt hcapacity]
    exact hp.start.1
  · have hsame : s'.hashHeader.addressSize = s.hashHeader.addressSize := by rw [hrec]
    rw [haddr, hsame, Nat.mod_eq_of_lt (by omega), hstart]
    rfl
  · have hsame : s'.hashHeader.entryBlockBits = s.hashHeader.entryBlockBits := by rw [hrec]
    rw [hbits, hsame, hblockBits, Nat.mod_eq_of_lt (by omega)]

/-- **A run that succeeds** leaves no file that is shorter than its header says, if it has found none
like that. -/
theorem ok_dataLen_le {headerFile : Option (List UInt8)} {logHeader : Logheader}
    (hload : loadLogheader headerFile = .ok logHeader) (hopen : logreaderOpen logFile = .ok log)
    (hl : log.Opened) (h : (hashWriteOn env headerFile logFile hashSize).run index = .ok () index')
    (hindex : ∀ header, loadHashheader index = .ok header → header.dataLen ≤ (index.getD []).length)
    {header : Hashheader} (hheader : loadHashheader index' = .ok header) :
    header.dataLen ≤ (index'.getD []).length := by
  obtain ⟨s, hp, -, ⟨-, rfl⟩ | ⟨-, s', hbuild, hwrite⟩⟩ := ok_hashWriteOn hload hopen hl h
  · exact hindex header hheader
  obtain ⟨hrec, hlen⟩ := recounting_of_buildTable hbuild
  rw [hp.hashtable, List.length_replicate] at hlen
  have hslot : s'.hashHeader.slotSize = s.hashHeader.slotSize := by rw [hrec]; rfl
  rw [ok_writeIndex hwrite] at hheader ⊢
  obtain ⟨-, hcap, haddr, hhash, -⟩ := sizes_of_loadHashheader hheader
  have hsize := (loadHashheader_eq_of_take hheader rfl).1.headerSize
  -- what the words of the header are cut to only makes the table smaller
  have hwidth : u32 (header.hashSize + header.addressSize) ≤ s.hashHeader.slotSize := by
    rw [hhash, haddr, ← hslot, Hashheader.slotSize, Nat.add_comm]
    exact (Nat.mod_le _ _).trans (Nat.add_le_add (Nat.mod_le _ _) (Nat.mod_le _ _))
  have hcapacity : header.hashCapacity ≤ s.hashHeader.hashCapacity := by
    rw [hcap, hrec.capacity]
    exact Nat.mod_le _ _
  have htable := Nat.mul_le_mul hcapacity hwidth
  rw [Nat.mul_comm s.hashHeader.hashCapacity] at htable
  have hfile : (s'.hashHeader.bytes ++ s'.hashtable).length = hashHeaderSize + s'.hashtable.length := by
    rw [List.length_append, Hashheader.length_bytes]
  show u64 _ ≤ (s'.hashHeader.bytes ++ s'.hashtable).length
  rw [hfile, hsize]
  exact (Nat.mod_le _ _).trans (by omega)

/-- **No index is shorter than its header says**, whatever the runs have read. -/
theorem Indexing.dataLen_le {rule : Rule} (h : Indexing t n rule calls w index) :
    ∀ header, loadHashheader index = .ok header → header.dataLen ≤ (index.getD []).length := by
  induction h with
  | start _ => exact nofun
  | call _ _ ih => exact ih
  | run _ _ hopen _ hrun ih =>
    have hl := (opened_of_logreaderOpen hopen).1
    exact fun header => ok_dataLen_le (loadLogheader_of_open hopen) hopen hl hrun ih

/-- **A run on a log that stays as it is** leaves the exact index, if it succeeds. -/
theorem Follows.exactFor (h : Follows t n known calls w index)
    (hfit : ∀ e ∈ entriesOf calls, HeadFits (.of t n) e) (hz : (Setting.of t n).Lossless)
    (hputs : countPuts (entriesOf calls) < 2 ^ 64) (hflush : logwriterFlush.run w = .ok () w')
    (hopen : logreaderOpen (some w'.fd.data) = .ok log)
    (hwhole : WholeReads env log.header (oldHeader? log.header index))
    (hrun : (hashWrite env (some w'.fd.data) hashSize).run index = .ok () index') :
    ExactFor (some w'.fd.data) log.header index index' hashSize (entriesOf calls) := by
  have hfollows : Follows t n (fun _ _ => True) calls w index := by
    cases h with
    | absent hw => exact .absent hw
    | present hp hgo hi _ => exact .present hp hgo hi trivial
  obtain ⟨items, header, hashtable, hp, rfl, hi, -⟩ := hfollows.run (keeps_true wholeReads) hfit hz hflush
    hopen hwhole hwhole hrun
  have hl := hp.logged hz
  have hvals := hp.vals
  rw [entriesOf_flush] at hvals
  rw [← hvals] at hputs ⊢
  have hload := hi.load hl hputs
  refine ⟨⟨header, hload, hi.covers.dataEnd, hi.covers.numPuts, ?_⟩, hi.complete hl hopen hload⟩
  rcases ok_sized (loadLogheader_of_open hopen) hopen hl.toOpened hrun with ⟨-, -, -, hsame⟩ | hsized
  · exact Or.inl hsame
  · exact Or.inr (hsized header hload).2

theorem Follows.dataEnd_le {old : Hashheader} (h : Follows t n known calls w index)
    (hfit : ∀ e ∈ entriesOf calls, HeadFits (.of t n) e) (hz : (Setting.of t n).Lossless)
    (hflush : logwriterFlush.run w = .ok () w') (hopen : logreaderOpen (some w'.fd.data) = .ok log)
    (hold : oldHeader? log.header index = some old) : old.dataEnd ≤ log.header.dataEnd := by
  cases h with
  | absent hw => cases hold
  | present hp hgo hi _ =>
    rename_i calls more w₀ log₀ items header hashtable _
    have hentries := entriesOf_append_calls calls more
    obtain ⟨new, hgrown, -⟩ := hp.grown hgo hflush hopen
      (fun e he => hfit e (hentries ▸ List.mem_append_right _ he)) hz
    cases hi.eq_of_oldHeader? hold
    rw [hi.covers.dataEnd]
    exact hgrown.dataEnd_le

/-- **When the index is exact** that is made while the log is written on: no entry has been published
between the two times the log is opened, and the table has room. -/
theorem exactFor_iff_of_meanwhile (h : Indexing t n wholeReads calls w index)
    (hflush : logwriterFlush.run w = .ok () w₁) (hopen₁ : logreaderOpen (some w₁.fd.data) = .ok log₁)
    (hlater : Later w₁ more w₂) (hopen₂ : logreaderOpen (some w₂.fd.data) = .ok log₂)
    (hfit : ∀ e ∈ entriesOf (calls ++ more), HeadFits (.of t n) e) (hz : (Setting.of t n).Lossless)
    (hputs : countPuts (entriesOf (calls ++ more)) < 2 ^ 64)
    (hwhole : WholeReads env log₂.header (oldHeader? log₂.header index))
    (hsize : hashSize = 0 ∨ hashSize = 4 ∨ hashSize = 8) :
    (entriesOf more = [] ∧
        HasRoom log₂.header (oldHeader? log₂.header index) hashSize (entriesOf (calls ++ more)) →
      Returns ((hashWriteOn env (some w₁.fd.data) (some w₂.fd.data) hashSize).run index) ∧
      ∀ index', (hashWriteOn env (some w₁.fd.data) (some w₂.fd.data) hashSize).run index = .ok () index' →
        ExactFor (some w₂.fd.data) log₂.header index index' hashSize (entriesOf (calls ++ more))) ∧
    (env.Willing → hashHeaderSize + tableSize log₂.header (oldHeader? log₂.header index) hashSize
        ≤ maxFileSize →
      ((∃ index', (hashWriteOn env (some w₁.fd.data) (some w₂.fd.data) hashSize).run index = .ok () index' ∧
        ExactFor (some w₂.fd.data) log₂.header index index' hashSize (entriesOf (calls ++ more))) ↔
      entriesOf more = [] ∧
        HasRoom log₂.header (oldHeader? log₂.header index) hashSize (entriesOf (calls ++ more)))) := by
  have hfit₁ : ∀ e ∈ entriesOf calls, HeadFits (.of t n) e := fun e he =>
    hfit e (by rw [entriesOf_append_calls]; exact List.mem_append_left _ he)
  have hfollows := h.follows (keeps_true wholeReads) id hfit₁ hz
  obtain ⟨hidle, hbusy⟩ := hlater.header_eq_iff hfollows.writing hfit hz hflush hopen₁ hopen₂
  -- without new entries both headers are the same
  have hstill : entriesOf more = [] → hashWriteOn env (some w₁.fd.data) (some w₂.fd.data) hashSize
      = hashWrite env (some w₂.fd.data) hashSize := by
    intro hnone
    rw [hashWrite, hashWriteOn, hashWriteOn, loadLogheader_of_open hopen₁, loadLogheader_of_open hopen₂,
      hidle hnone]
  obtain ⟨calls', w', hfollows', hflush', hentries⟩ := hfollows.later hflush hlater
  rw [← hentries] at hfit hputs ⊢
  have hreturns := hfollows'.returns_iff hfit hz hputs hflush' hopen₂ hwhole hsize
  have hexact : ∀ {index'}, (hashWrite env (some w₂.fd.data) hashSize).run index = .ok () index' →
      ExactFor (some w₂.fd.data) log₂.header index index' hashSize (entriesOf calls') :=
    fun hrun => hfollows'.exactFor hfit hz hputs hflush' hopen₂ hwhole hrun
  constructor
  · rintro ⟨hnone, hroom⟩
    rw [hstill hnone]
    exact ⟨hreturns.mpr (Or.inr hroom), fun index' hrun => hexact hrun⟩
  · intro hwilling hsmall
    constructor
    · rintro ⟨index', hrun, ⟨header, hload, hend, -⟩, -⟩
      have hnone : entriesOf more = [] := by
        by_contra hmore
        have hlt := hbusy hmore
        obtain ⟨_, hl, -⟩ := holds_of_flush hfollows'.writing hfit hz hflush' hopen₂
        rcases ok_sized (loadLogheader_of_open hopen₁) hopen₂ hl.toOpened hrun with
          ⟨old, hold, holdEnd, -⟩ | hsized
        · have := hfollows.dataEnd_le hfit₁ hz hflush hopen₁ hold
          omega
        · have hfirst := (hsized header hload).1
          have := Nat.mod_le log₁.header.dataEnd (2 ^ 64)
          omega
      refine ⟨hnone, ?_⟩
      rw [hstill hnone] at hrun
      rw [hrun] at hreturns
      rcases hreturns.mp trivial with ⟨-, hrand⟩ | hroom
      · exact absurd hrand hwilling.rand32
      · exact hroom
    · rintro ⟨hnone, hroom⟩
      rw [hstill hnone]
      obtain ⟨index', hrun⟩ := hfollows'.ok_of_returns hfit hz hflush' hopen₂ hwhole hsize hwilling hsmall
        (hreturns.mpr (Or.inr hroom))
      exact ⟨index', hrun, hexact hrun⟩

def flushTwice (calls more : List Call) : Option ((Logwriter × Logreader) × Logwriter × Logreader) :=
  (writeLog sampleEnv .none 0 calls).bind fun w₀ =>
    (flushAndOpen w₀).bind fun first =>
      (more.foldlM (Logwriter.perform sampleEnv) first.1).bind fun w₁ =>
        (flushAndOpen w₁).map fun second => (first, second)

omit [HashFunctions] in
theorem later_of_flushTwice (h : flushTwice calls more = some ((w₁, log₁), w₂, log₂)) :
    ∃ w, Writing .none 0 calls w ∧ logwriterFlush.run w = .ok () w₁ ∧
      logreaderOpen (some w₁.fd.data) = .ok log₁ ∧ Later w₁ (more ++ [.flush]) w₂ ∧
      logreaderOpen (some w₂.fd.data) = .ok log₂ := by
  obtain ⟨w₀, hw, h⟩ := Option.bind_eq_some_iff.mp h
  obtain ⟨first, hfirst, h⟩ := Option.bind_eq_some_iff.mp h
  obtain ⟨w', hmore, h⟩ := Option.bind_eq_some_iff.mp h
  obtain ⟨second, hsecond, h⟩ := Option.map_eq_some_iff.mp h
  cases h
  obtain ⟨hflush, hopen⟩ := ok_of_flushAndOpen hfirst
  obtain ⟨hflush', hopen'⟩ := ok_of_flushAndOpen hsecond
  exact ⟨w₀, writing_of_writeLog (by decide) hw, hflush, hopen, .flush (going_of_perform hmore) hflush',
    hopen'⟩

omit [Compressors] [HashFunctions] in
theorem willing_calmEnv : calmEnv.Willing := ⟨nofun, rfl, rfl, rfl, nofun⟩

omit [Compressors] [HashFunctions] in
theorem exactFor_iff_of_meanwhile_sample :
    letI := literalCompressors
    letI := lengthHash
    ∃ w w₁ w₂ log₂ index', Indexing .none 0 wholeReads fourPuts w none ∧
      logwriterFlush.run w = .ok () w₁ ∧ Later w₁ [.flush] w₂ ∧
      logreaderOpen (some w₂.fd.data) = .ok log₂ ∧
      (hashWriteOn calmEnv (some w₁.fd.data) (some w₂.fd.data) 4).run none = .ok () index' ∧
      ExactFor (some w₂.fd.data) log₂.header none index' 4 (entriesOf (fourPuts ++ [.flush])) := by
  let := literalCompressors
  let := lengthHash
  have hfacts : (flushTwice fourPuts []).map (fun (_, _, log₂) =>
      (decide log₂.header.Small, decide (hashHeaderSize + tableSize log₂.header none 4 ≤ maxFileSize)))
        = some (true, true) := by
    decide +kernel
  obtain ⟨⟨⟨w₁, log₁⟩, w₂, log₂⟩, htwice, hfacts⟩ := Option.map_eq_some_iff.mp hfacts
  simp only [Prod.mk.injEq, decide_eq_true_eq] at hfacts
  obtain ⟨hsmall, hsize⟩ := hfacts
  obtain ⟨w, hw, hflush, hopen₁, hlater, hopen₂⟩ := later_of_flushTwice htwice
  have hmax : maxFileSize = 2 ^ 63 - 1 := rfl
  have hwhole : WholeReads calmEnv log₂.header none := (hsmall.orderly rfl).wholeReads none
  obtain ⟨-, hiff⟩ := exactFor_iff_of_meanwhile (.start hw) hflush hopen₁ hlater hopen₂ (fun _ _ => nofun)
    nofun (by decide) hwhole (Or.inr (Or.inl rfl))
  obtain ⟨index', hrun, hexact⟩ := (hiff willing_calmEnv hsize).mpr
    ⟨rfl, ⟨show tableSize log₂.header none 4 < 2 ^ 64 by omega, nofun⟩⟩
  exact ⟨w, w₁, w₂, log₂, index', .start hw, hflush, hlater, hopen₂, hrun, hexact⟩

omit [Compressors] [HashFunctions] in
/-- A table that was sized for one put has no room for the second, which has come in between. -/
theorem stuck_of_meanwhile :
    letI := literalCompressors
    letI := lengthHash
    ∃ w w₁ w₂ index', Indexing .none 0 wholeReads [.add (.put (.of [1]) (.of []))] w none ∧
      logwriterFlush.run w = .ok () w₁ ∧ Later w₁ [.add (.put (.of [2]) (.of [])), .flush] w₂ ∧
      (hashWriteOn calmEnv (some w₁.fd.data) (some w₂.fd.data) 4).run none = .error .stuck index' := by
  let := literalCompressors
  let := lengthHash
  have hfacts : (flushTwice [.add (.put (.of [1]) (.of []))] [.add (.put (.of [2]) (.of []))]).map
      (fun ((w₁, _), w₂, _) =>
        isStuck ((hashWriteOn calmEnv (some w₁.fd.data) (some w₂.fd.data) 4).run none))
        = some true := by
    decide +kernel
  obtain ⟨⟨⟨w₁, log₁⟩, w₂, log₂⟩, htwice, hstuck⟩ := Option.map_eq_some_iff.mp hfacts
  obtain ⟨w, hw, hflush, -, hlater, -⟩ := later_of_flushTwice htwice
  obtain ⟨index', hrun⟩ := exists_of_isStuck hstuck
  exact ⟨w, w₁, w₂, index', .start hw, hflush, hlater, hrun⟩

end Sparkey
