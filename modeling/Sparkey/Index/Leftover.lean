import Sparkey.Index.Answers
import Sparkey.Index.Room

/-!
# What a run leaves that fails

A run that fails, or is cut off, leaves the old index file, none, or the first part of the
new one (`Remains`).  The next run goes by the header it finds there.  If that is complete
and the table behind it is not, a run that keeps the hash size takes the file for an index:
it leaves it as it is, or waits for ever for the rest of the table
(`complete_iff_of_disturbed`).
-/

namespace Sparkey

open Program BlockStream RobinHood LastWrite

/-! ### A table that is cut off -/

theorem quiet_getSlot (slot : Nat) : Quiet (getSlot slot) := by
  refine quiet_get.bind fun s => ?_
  split
  · exact quiet_stuck
  · exact quiet_pure _

variable [Compressors]

/-- Storing an entry that is not compared gives no error code. -/
theorem quiet_hashPutLoop : ∀ (fuel : Nat) (might : Bool) (slot displacement hash position : Nat),
    Quiet (hashPutLoop none fuel might slot displacement hash position) := by
  intro fuel
  induction fuel with
  | zero => exact fun _ _ _ _ _ => quiet_stuck
  | succ fuel ih =>
    intro might slot displacement hash position
    refine (quiet_getSlot slot).bind fun content => ?_
    refine .ite ((quiet_modify _).bind fun _ => (quiet_modify _).bind fun _ => quiet_pure _) ?_
    refine (quiet_get.bind fun _ => quiet_pure none).bind fun same => ?_
    cases same with
    | some lens => exact (quiet_modify _).bind fun _ => quiet_modify _
    | none =>
      refine quiet_get.bind fun s => .ite ?_ (ih _ _ _ _ _)
      exact (quiet_modify _).bind fun _ => ih _ _ _ _ _

theorem quiet_hashCopyLoop (buf : List UInt8) (bufferSize : Nat) (oldHeader : Hashheader) :
    ∀ fuel i : Nat, Quiet (hashCopyLoop buf bufferSize oldHeader fuel i) := by
  intro fuel
  induction fuel with
  | zero => exact fun _ => quiet_stuck
  | succ fuel ih =>
    intro i
    refine .ite ?_ (quiet_pure _)
    split
    · exact quiet_stuck
    · refine quiet_get.bind fun s => Quiet.bind (.ite ?_ (quiet_pure _)) fun _ => ih _
      exact quiet_get.bind fun s => quiet_hashPutLoop _ _ _ _ _ _

theorem quiet_hashCopy (buf : List UInt8) (bufferSize : Nat) (oldHeader : Hashheader) :
    Quiet (hashCopy buf bufferSize oldHeader) :=
  quiet_hashCopyLoop _ _ _ _ _

theorem run_fillHashLoop_any (bufferSize : Nat) (oldHeader : Hashheader) {data : List UInt8} :
    ∀ (n offset : Nat) (buf : List UInt8) (s : Hashing), offset ≤ data.length →
      (∃ st, (fillHashLoop bufferSize oldHeader n buf).run (⟨data, offset, []⟩, s) = .error .stuck st) ∨
      offset + n * bufferSize ≤ data.length ∧ ∃ buf' s',
        (fillHashLoop bufferSize oldHeader n buf).run (⟨data, offset, []⟩, s)
          = .ok buf' (⟨data, offset + n * bufferSize, []⟩, s') := by
  intro n
  induction n with
  | zero =>
    intro offset buf s hoffset
    refine Or.inr ⟨by omega, buf, s, ?_⟩
    rw [Nat.zero_mul, Nat.add_zero]
    rfl
  | succ n ih =>
    intro offset buf s hoffset
    rw [fillHashLoop]
    rcases Nat.lt_or_ge data.length (offset + bufferSize) with hshort | hfull
    · obtain ⟨f', hread⟩ := run_readFully_short List.not_mem_nil hshort (by omega) buf
      exact Or.inl ⟨_, run_bind_error (run_onFst_error hread)⟩
    · have hread := run_readFully (.inr ⟨hfull, getsAll_nil _⟩) buf
      rw [List.tail_nil, ite_self] at hread
      rw [run_bind_ok (run_onFst_ok hread)]
      rcases (quiet_hashCopy _ bufferSize oldHeader).ok_or_stuck s with
        ⟨u, s₁, hcopy⟩ | ⟨s₁, hcopy⟩
      · rw [run_bind_ok (run_onSnd_ok hcopy)]
        have hsum : offset + (n + 1) * bufferSize = offset + bufferSize + n * bufferSize := by
          rw [Nat.add_mul, Nat.one_mul]
          omega
        rw [hsum]
        exact ih (offset + bufferSize) _ s₁ hfull
      · exact Or.inl ⟨_, run_bind_error (run_onSnd_error hcopy)⟩

/-- **A table that is cut off** is waited for for ever. -/
theorem run_fillHash_short {env : HashEnv} {file : List UInt8} {old : Hashheader}
    (hopens : env.openFails = none) (hreads : env.reads = []) (hfits : old.BufferFits)
    (hheader : old.headerSize ≤ file.length)
    (hshort : file.length < old.headerSize + u64 (old.hashCapacity * old.slotStep)) (s : Hashing) :
    ∃ s', (fillHash env file old).run s = .error .stuck s' := by
  rw [fillHash_of_fits hopens hfits, hreads]
  generalize u64 (old.hashCapacity * old.slotStep) = remaining at hshort
  have hparts : remaining / (old.slotStep * 1024) * (old.slotStep * 1024)
      + remaining % (old.slotStep * 1024) = remaining := Nat.div_add_mod' _ _
  rcases run_fillHashLoop_any (old.slotStep * 1024) old (remaining / (old.slotStep * 1024))
    old.headerSize env.unsetBuf s hheader with ⟨st, hloop⟩ | ⟨hle, buf, s₁, hloop⟩
  · exact ⟨_, run_onNew_error (run_bind_error hloop)⟩
  · have hcount : old.headerSize + remaining / (old.slotStep * 1024) * (old.slotStep * 1024)
        + remaining % (old.slotStep * 1024) > file.length := by omega
    obtain ⟨f', hread⟩ := run_readFully_short List.not_mem_nil hcount (by omega) buf
    exact ⟨_, run_onNew_error ((run_bind_ok hloop).trans (run_bind_error (run_onFst_error hread)))⟩

variable [HashFunctions] {t : CompressionType} {n : Nat} {calls : List Call}
  {w w' : Logwriter} {logFile file file' : Option (List UInt8)} {env : HashEnv} {hashSize : Nat}
  {log log₀ : Logreader} {reader : Hashreader} {items more : List (Item Entry)} {header : Hashheader}
  {hashtable : List UInt8} {s s' : Hashing} {k : Nat}

/-! ### The run -/

theorem run_hashWrite_size (hopen : logreaderOpen logFile = .ok log) (hl : log.Opened)
    (hold : oldHeader? log.header file = none → env.rand32 ≠ none)
    (hsize : ¬ (hashSize = 0 ∨ hashSize = 4 ∨ hashSize = 8)) :
    (hashWrite env logFile hashSize).run file = .error (.rc .hashSizeInvalid) file := by
  obtain ⟨iter, hiter⟩ := logiterCreate_ok hl env.unset
  obtain ⟨raIter, hraIter⟩ := logiterCreate_ok hl env.unset'
  have hinvalid : hashSize ≠ 0 ∧ hashSize ≠ 4 ∧ hashSize ≠ 8 := by omega
  unfold hashWrite hashWriteOn
  rw [loadLogheader_of_open hopen, run_bind_ok (run_lift_ok _ _), hopen, run_bind_ok (run_lift_ok _ _),
    hiter, run_bind_ok (run_lift_ok _ _), hraIter, run_bind_ok (run_lift_ok _ _), run_get_bind]
  unfold oldHeader? at hold
  cases hu : usableHeader log.header (loadHashheader file) with
  | some old =>
    simp only
    rw [run_bind_ok (run_lift_ok _ _), if_pos hinvalid]
    rfl
  | none =>
    obtain ⟨rand, hrand⟩ := Option.ne_none_iff_exists'.mp (hold hu)
    simp only [hrand]
    rw [run_bind_ok (run_lift_ok _ _), if_pos hinvalid]
    rfl

/-- **Whatever a run comes to**, it leaves the file as it was, or what writing the new table to it
leaves. -/
theorem leadsTo_hashWrite (hopen : logreaderOpen logFile = .ok log) (hl : log.Opened)
    (h : LeadsTo (hashWrite env logFile hashSize) file file') :
    file' = file ∨ ∃ s s', Prepared env log.header log file hashSize s ∧
      s.hashHeader.slotSize * s.hashHeader.hashCapacity < 2 ^ 63 ∧
      (s.copied log.header file).map Hashheader.dataEnd ≠ some log.header.dataEnd ∧
      (buildTable env file log (s.copied log.header file)).run s = .ok () s' ∧
      LeadsTo (writeIndex env s'.hashHeader s'.hashtable) file file' := by
  have hstop : ∀ {code : Returncode},
      (hashWrite env logFile hashSize).run file = .error (.rc code) file → file' = file := by
    intro code hrun
    unfold LeadsTo at h
    rw [hrun] at h
    rcases h with ⟨u, h⟩ | ⟨code', h⟩
    · cases h
    · cases h
      rfl
  by_cases hrand : oldHeader? log.header file = none → env.rand32 ≠ none
  swap
  · obtain ⟨hold, hrand⟩ := Classical.not_imp.mp hrand
    exact Or.inl (hstop (run_hashWriteOn_rand (loadLogheader_of_open hopen) hopen hl hold
      (not_not.mp hrand)))
  by_cases hsize : hashSize = 0 ∨ hashSize = 4 ∨ hashSize = 8
  swap
  · exact Or.inl (hstop (run_hashWrite_size hopen hl hrand hsize))
  obtain ⟨s, hp, hrun⟩ := run_hashWriteOn (loadLogheader_of_open hopen) hopen hl hsize hrand
  change LeadsTo (hashWriteOn env logFile logFile hashSize) file file' at h
  unfold LeadsTo at h
  rw [hrun] at h
  by_cases h64 : 2 ^ 64 ≤ s.hashHeader.slotSize * s.hashHeader.hashCapacity
  · rw [if_pos h64] at h
    rcases h with ⟨u, h⟩ | ⟨code, h⟩ <;> cases h
  by_cases h63 : 2 ^ 63 ≤ s.hashHeader.slotSize * s.hashHeader.hashCapacity
  · rw [if_neg h64, if_pos h63] at h
    rcases h with ⟨u, h⟩ | ⟨code, h⟩
    · cases h
    · cases h
      exact Or.inl rfl
  rw [if_neg h64, if_neg h63] at h
  by_cases hend : (s.copied log.header file).map Hashheader.dataEnd = some log.header.dataEnd
  · rw [if_pos hend] at h
    rcases h with ⟨u, h⟩ | ⟨code, h⟩
    · cases h
      exact Or.inl rfl
    · cases h
  rw [if_neg hend] at h
  cases hbuild : (buildTable env file log (s.copied log.header file)).run s with
  | ok u s' =>
    rw [run_bind_ok (run_final_ok hbuild)] at h
    exact Or.inr ⟨s, s', hp, Nat.lt_of_not_le h63, hend, hbuild, h⟩
  | error e s' =>
    have hfinal : (final s (buildTable env file log (s.copied log.header file)) :
        Run (Option (List UInt8)) Hashing).run file = .error e file := by
      simp only [final, EStateM.run] at hbuild ⊢
      rw [hbuild]
    rw [run_bind_error hfinal] at h
    rcases h with ⟨u, h⟩ | ⟨code, h⟩
    · cases h
    · cases h
      exact Or.inl rfl

/-! ### What may be left -/

/-- The index file is that of an earlier state of the log, or the first part of it, or there is
none. -/
inductive Remains (t : CompressionType) (n : Nat) :
    List Call → Logwriter → Option (List UInt8) → Prop
  | absent {calls : List Call} {w : Logwriter} : Writing t n calls w → Remains t n calls w none
  | part {calls more : List Call} {w w' : Logwriter} {log : Logreader} {items : List (Item Entry)}
      {header : Hashheader} {hashtable : List UInt8} (k : Nat) : Published t n calls w log items →
      Going w more w' → IndexOf log items header hashtable →
      Remains t n (calls ++ more) w' (some ((header.bytes ++ hashtable).take k))

theorem Remains.done {c : Call} (h : Remains t n calls w file) (hdone : Done c w w') :
    Remains t n (calls ++ [c]) w' file := by
  cases h with
  | absent hw => exact .absent (hw.done hdone)
  | part k hp hgo hi =>
    rw [List.append_assoc]
    exact .part k hp (hgo.call hdone) hi

theorem Remains.writing (h : Remains t n calls w file) : Writing t n calls w := by
  cases h with
  | absent hw => exact hw
  | part k hp hgo _ => exact hp.writing.going hgo

theorem Remains.whole (hp : Published t n calls w log items) (hi : IndexOf log items header hashtable) :
    Remains t n calls w (some (header.bytes ++ hashtable)) := by
  have h := Remains.part (header.bytes ++ hashtable).length hp .refl hi
  rwa [List.take_length, List.append_nil] at h

omit [Compressors] [HashFunctions] in
theorem take_index (hk : hashHeaderSize ≤ k) :
    (header.bytes ++ hashtable).take k = header.bytes ++ hashtable.take (k - hashHeaderSize) := by
  rw [List.take_append, header.length_bytes, List.take_of_length_le (by rw [header.length_bytes]; exact hk)]

theorem IndexOf.run_fillHash_cut (hi : IndexOf log₀ items header hashtable) (hk : hashHeaderSize ≤ k)
    (hshort : k < (header.bytes ++ hashtable).length) (hopens : env.openFails = none)
    (hreads : env.reads = []) (s : Hashing) :
    ∃ s', (fillHash env ((header.bytes ++ hashtable).take k) header).run s = .error .stuck s' := by
  have hlen := hi.sized.length
  have hlt := hi.length_lt
  have htake : ((header.bytes ++ hashtable).take k).length = k :=
    List.length_take_of_le (Nat.le_of_lt hshort)
  rw [List.length_append, header.length_bytes] at hshort
  refine run_fillHash_short hopens hreads hi.sized.bufferFits ?_ ?_ s
  · rw [htake, hi.current.headerSize]
    exact hk
  · rw [htake, hi.current.headerSize, hi.sized.slotStep_eq, Nat.mul_comm, ← hlen, u64_of_lt (by omega)]
    exact hshort

omit [Compressors] in
theorem IndexOf.oldHeader?_part (hi : IndexOf log₀ items header hashtable) {logHeader : Logheader}
    {old : Hashheader} (h : oldHeader? logHeader (some ((header.bytes ++ hashtable).take k)) = some old) :
    hashHeaderSize ≤ k ∧ old = header := by
  rw [oldHeader?] at h
  cases hload : loadHashheader (some ((header.bytes ++ hashtable).take k)) with
  | error code =>
    rw [hload] at h
    cases h
  | ok old' =>
    have hk : hashHeaderSize ≤ k := by
      by_contra hk
      refine loadHashheader_of_short ?_ old' hload
      rw [List.length_take]
      omega
    refine ⟨hk, ?_⟩
    rw [hload, usableHeader] at h
    rw [take_index hk, loadHashheader_bytes hi.fits hi.current] at hload
    split_ifs at h hload
    cases h
    cases hload
    rfl

/-- **What a run builds** from what is left is the index of the log. -/
theorem Remains.indexOf (h : Remains t n calls w file)
    (hfit : ∀ e ∈ entriesOf calls, HeadFits (.of t n) e) (hz : (Setting.of t n).Lossless)
    (hflush : logwriterFlush.run w = .ok () w') (hopen : logreaderOpen (some w'.fd.data) = .ok log)
    (hwhole : WholeReads env log.header (oldHeader? log.header file))
    (hp : Prepared env log.header log file hashSize s)
    (hlt : s.hashHeader.slotSize * s.hashHeader.hashCapacity < 2 ^ 63)
    (hne : (s.copied log.header file).map Hashheader.dataEnd ≠ some log.header.dataEnd)
    (hbuild : (buildTable env file log (s.copied log.header file)).run s = .ok () s') :
    ∃ items, Published t n (calls ++ [.flush]) w' log items ∧
      IndexOf log items s'.hashHeader s'.hashtable := by
  cases h with
  | absent hw =>
    obtain ⟨items, hpub⟩ := published_of_flush hw hfit hz hflush hopen
    have hnone : oldHeader? log.header none = none := rfl
    rw [Hashing.copied, hnone] at hbuild
    exact ⟨items, hpub, (indexOf_of_rebuilt (hpub.logged hz) (hpub.fileIdentifier_lt hz)
      hwhole.dataEnd_lt hp (by rw [hnone]; intro _ h; cases h) hlt hbuild).1⟩
  | part k hpub hgo hi =>
    rename_i calls more w₀ log₀ items header hashtable
    have hentries := entriesOf_append_calls calls more
    obtain ⟨new, hgrown, hpub'⟩ := hpub.grown hgo hflush hopen
      (fun e he => hfit e (hentries ▸ List.mem_append_right _ he)) hz
    refine ⟨_, hpub', ?_⟩
    have hid := hpub'.fileIdentifier_lt hz
    have hfits : ∀ old, oldHeader? log.header (some ((header.bytes ++ hashtable).take k)) = some old →
        old.Fits := by
      intro old hold
      rw [(hi.oldHeader?_part hold).2]
      exact hi.fits
    cases hcopied : s.copied log.header (some ((header.bytes ++ hashtable).take k)) with
    | none =>
      rw [hcopied] at hbuild
      exact (indexOf_of_rebuilt hgrown.new hid hwhole.dataEnd_lt hp hfits hlt hbuild).1
    | some old =>
      rw [hcopied] at hbuild hne
      obtain ⟨hold, hsame⟩ := Option.filter_eq_some_iff.mp hcopied
      have hsame : old.hashSize = s.hashHeader.hashSize := of_decide_eq_true hsame
      obtain ⟨hk, rfl⟩ := hi.oldHeader?_part hold
      have hreads := hwhole.reads.resolve_left (by rw [hold]; exact Option.some_ne_none _)
      have hopens : env.openFails = none := by
        by_contra hfails
        obtain ⟨code, hcode⟩ := Option.ne_none_iff_exists'.mp hfails
        have hfill : (fillHash env ((old.bytes ++ hashtable).take k) old).run s
            = .error (.rc code) s := by
          rw [fillHash, hcode]
          rfl
        rw [run_buildTable_some_eq, run_bind_error hfill] at hbuild
        cases hbuild
      rcases Nat.lt_or_ge k (old.bytes ++ hashtable).length with hshort | hall
      · -- a table that is cut off never comes to its end
        obtain ⟨s₁, hfill⟩ := hi.run_fillHash_cut hk hshort hopens hreads s
        rw [run_buildTable_some_eq, run_bind_error hfill] at hbuild
        cases hbuild
      · rw [List.take_of_length_le hall] at hp hold hbuild
        obtain ⟨added, hindex, -⟩ := indexOf_of_copied
          (hp.copying hgrown hi hwhole.dataEnd_lt hold hsame hlt (fun h => hne (congrArg some h)) hopens
            hreads) hid hp hold hbuild
        exact hindex

/-- **Whatever a run comes to**, an index of the log remains, or a part of one. -/
theorem Remains.run (h : Remains t n calls w file)
    (hfit : ∀ e ∈ entriesOf calls, HeadFits (.of t n) e) (hz : (Setting.of t n).Lossless)
    (hflush : logwriterFlush.run w = .ok () w') (hopen : logreaderOpen (some w'.fd.data) = .ok log)
    (hwhole : WholeReads env log.header (oldHeader? log.header file))
    (hrun : LeadsTo (hashWrite env (some w'.fd.data) hashSize) file file') :
    Remains t n (calls ++ [.flush]) w' file' := by
  obtain ⟨_, hl, -⟩ := holds_of_flush h.writing hfit hz hflush hopen
  rcases leadsTo_hashWrite hopen hl.toOpened hrun with rfl | ⟨s, s', hp, hlt, hne, hbuild, hwrite⟩
  · exact h.done (.flush hflush)
  · obtain ⟨items, hpub, hi⟩ := h.indexOf hfit hz hflush hopen hwhole hp hlt hne hbuild
    have hspec := writeIndex_spec env s'.hashHeader s'.hashtable file
    rcases hwrite with ⟨u, hwrite⟩ | ⟨code, hwrite⟩
    · rw [hwrite] at hspec
      cases hspec
      exact .whole hpub hi
    · rw [hwrite] at hspec
      obtain ⟨-, rfl | rfl | ⟨k, -, rfl⟩⟩ := hspec
      · exact h.done (.flush hflush)
      · exact .absent hpub.writing
      · have hpart := Remains.part k hpub .refl hi
        rwa [List.append_nil] at hpart

/-! ### The next run -/

/-- **The file can be gone on with**: there is no usable header in it, or the table behind the
header is complete, or the hash size is another one and the new table has room for all keys that
are live at a time. -/
def Resumable (logHeader : Logheader) (file : Option (List UInt8)) (hashSize : Nat) (es : List Entry) :
    Prop :=
  ∀ old, oldHeader? logHeader file = some old →
    if old.hashSize = (startHeader logHeader (some old) hashSize).hashSize then
      hashHeaderSize + old.slotSize * old.hashCapacity ≤ (file.getD []).length
    else peakKeys es ≤ (startHeader logHeader (some old) hashSize).hashCapacity

omit [Compressors] in
theorem IndexOf.take_eq (hi : IndexOf log₀ items header hashtable)
    (hlen : hashHeaderSize + header.slotSize * header.hashCapacity
      ≤ ((header.bytes ++ hashtable).take k).length) :
    (header.bytes ++ hashtable).take k = header.bytes ++ hashtable := by
  refine List.take_of_length_le ?_
  rw [List.length_append, header.length_bytes, hi.sized.length]
  rw [List.length_take] at hlen
  omega

/-- **A run that goes on with the file** leaves an index that is complete, if it succeeds. -/
theorem Remains.complete (h : Remains t n calls w file)
    (hfit : ∀ e ∈ entriesOf calls, HeadFits (.of t n) e) (hz : (Setting.of t n).Lossless)
    (hputs : countPuts (entriesOf calls) < 2 ^ 64) (hflush : logwriterFlush.run w = .ok () w')
    (hopen : logreaderOpen (some w'.fd.data) = .ok log)
    (hwhole : WholeReads env log.header (oldHeader? log.header file))
    (hresumable : Resumable log.header file hashSize (entriesOf calls))
    (hrun : (hashWrite env (some w'.fd.data) hashSize).run file = .ok () file') :
    Complete file' (some w'.fd.data) (entriesOf calls) := by
  have hdone : ∀ {items : List (Item Entry)} {header : Hashheader} {hashtable : List UInt8},
      Published t n (calls ++ [.flush]) w' log items → IndexOf log items header hashtable →
      Complete (some (header.bytes ++ hashtable)) (some w'.fd.data) (entriesOf calls) := by
    intro items header hashtable hpub hi
    have hl := hpub.logged hz
    have hvals := hpub.vals
    rw [entriesOf_flush] at hvals
    rw [← hvals] at hputs ⊢
    exact hi.complete hl hopen (hi.load hl hputs)
  obtain ⟨_, hl, -⟩ := holds_of_flush h.writing hfit hz hflush hopen
  obtain ⟨s, hp, hlt, ⟨hend, rfl⟩ | ⟨hne, s', hbuild, hwrite⟩⟩ :=
    ok_hashWriteOn (loadLogheader_of_open hopen) hopen hl.toOpened hrun
  · obtain ⟨old, hcopied, hupToDate⟩ := Option.map_eq_some_iff.mp hend
    obtain ⟨hold, hsame⟩ := Option.filter_eq_some_iff.mp hcopied
    obtain ⟨-, hhash, -⟩ := hp.start
    rw [hold] at hhash
    have hlong := hresumable old hold
    rw [if_pos ((of_decide_eq_true hsame).trans hhash)] at hlong
    cases h with
    | absent hw => cases hold
    | part k hpub hgo hi =>
      rename_i calls more w₀ log₀ items header hashtable
      have hentries := entriesOf_append_calls calls more
      obtain ⟨new, hgrown, hpub'⟩ := hpub.grown hgo hflush hopen
        (fun e he => hfit e (hentries ▸ List.mem_append_right _ he)) hz
      obtain ⟨-, rfl⟩ := hi.oldHeader?_part hold
      rw [hi.take_eq hlong]
      exact hdone hpub' (hi.same_end hgrown (hi.covers.dataEnd.symm.trans hupToDate))
  · obtain ⟨items, hpub, hi⟩ := h.indexOf hfit hz hflush hopen hwhole hp hlt hne hbuild
    rw [ok_writeIndex hwrite]
    exact hdone hpub hi

end Sparkey
