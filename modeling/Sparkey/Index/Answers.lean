import Sparkey.Index.Enumerate
import Sparkey.Index.Promises

/-!
# What an index answers

`sparkey_hash_get` and `sparkey_logiter_hashnext` answer by what the calls on the writer
were, up to the last run of `sparkey_hash_write`: a key that was put has the value of its
last put, a key that was never put or deleted since has none, and the live entries come in
the order of the log.  So it does not matter whether an index was built at once or in
several runs, nor what has been written to the log since.
-/

namespace Sparkey

open Program BlockStream RobinHood LastWrite

variable [Compressors] [HashFunctions] {t : CompressionType} {n : Nat} {calls : List Call}
  {w w' : Logwriter} {index index' : Option (List UInt8)} {env : HashEnv} {hashSize : Nat}
  {log log₀ : Logreader} {reader : Hashreader} {iter : Logiter} {key : List UInt8}
  {items more live : List (Item Entry)} {header : Hashheader} {hashtable : List UInt8}

/-! ### Readers -/

omit [HashFunctions] in
/-- New entries do not get the address of an old one: their positions are behind the old end. -/
theorem Grown.apart (hg : Grown log₀ log items more) (ha : Addressed header items)
    (hend : log.header.dataEnd < 2 ^ (64 - header.entryBlockBits)) {it x : Item Entry}
    (hit : it ∈ more) (hx : x ∈ items) : header.addressOf it ≠ header.addressOf x := by
  intro haddr
  have hle := hg.le_pos hit
  have hlt := hg.old.pos_lt hx
  have hpos := Logged.pos_lt hg.new (List.mem_append_right _ hit)
  have hbits : header.entryBlockBits ≤ 64 := by
    by_contra hbits
    rw [Nat.sub_eq_zero_of_le (by omega)] at hend
    omega
  have h64 : it.pos * 2 ^ header.entryBlockBits < 2 ^ 64 := by
    have := Nat.mul_lt_mul_of_pos_right (Nat.lt_trans hpos hend) (Nat.two_pow_pos header.entryBlockBits)
    rwa [← Nat.pow_add, Nat.sub_add_cancel hbits] at this
  have hor : it.pos * 2 ^ header.entryBlockBits ≤ header.addressOf it := by
    rw [Hashheader.addressOf, Hashheader.address, Nat.shiftLeft_eq, u64_of_lt h64]
    exact Nat.left_le_or
  have hposOf : it.pos ≤ header.positionOf (header.addressOf it) := by
    rw [Hashheader.positionOf, Nat.shiftRight_eq_div_pow,
      Nat.le_div_iff_mul_le (Nat.two_pow_pos _)]
    exact hor
  rw [haddr, ha.positionOf x hx] at hposOf
  omega

/-- **A reader of an index** and the log that has grown since. -/
theorem IndexOf.reading (hi : IndexOf log₀ items header hashtable) (hg : Grown log₀ log items more)
    (ho : OpenedIndex reader log header hashtable)
    (hend : log.header.dataEnd < 2 ^ (64 - header.entryBlockBits)) :
    ∃ live, live.Perm (contents itemKind items).live ∧ Reading log₀ reader items more live := by
  obtain ⟨live, hperm, hindexed⟩ := hi.indexed
  obtain ⟨hopen, rfl, rfl, rfl⟩ := ho
  exact ⟨live, hperm, hopen, hg.old.toHolds, hg.new, hi.addressed,
    fun it hit x hx => hg.apart hi.addressed hend hit hx, hindexed, hi.length_lt⟩

theorem IndexOf.reading_self (hi : IndexOf log items header hashtable) (hl : Logged log items)
    (ho : OpenedIndex reader log header hashtable) :
    ∃ live, live.Perm (contents itemKind items).live ∧ Reading log reader items [] live := by
  obtain ⟨live, hperm, hindexed⟩ := hi.indexed
  obtain ⟨hopen, rfl, rfl, rfl⟩ := ho
  refine ⟨live, hperm, hopen, hl.toHolds, ?_, hi.addressed, nofun, hindexed, hi.length_lt⟩
  rw [List.append_nil]
  exact hl

/-! ### `sparkey_hash_get` -/

def Answers (log : Logreader) (iter : Logiter) : Option (Item Entry) → Prop
  | some it => iter.state = .active ∧ iter.type = .put ∧ iter.entryBlockPosition = it.pos ∧
      iter.keylen = it.val.key.length ∧ iter.valuelen = it.val.value.length ∧
      iter.valueRemaining = iter.valuelen ∧
      ∃ iter', (logiterFillValue log iter.valuelen).run iter = .ok it.val.value iter'
  | none => iter.state = .invalid

def lastWith? (key : List UInt8) (es : List Entry) : Option Entry := (entryKind.those key es).getLast?

omit [Compressors] [HashFunctions] in
theorem map_find_live (items : List (Item Entry)) (key : List UInt8) :
    (itemKind.get? key (contents itemKind items).live).map Item.val
      = (lastWith? key (items.map Item.val)).filter entryKind.isPut := by
  have hthose : entryKind.those key (items.map Item.val) = (itemKind.those key items).map Item.val := by
    rw [Kind.those, Kind.those, List.filter_map]
    rfl
  rw [find_live, lastWith?, hthose, List.getLast?_map]
  cases (itemKind.those key items).getLast? with
  | none => rfl
  | some it =>
    show (if itemKind.isPut it then some it else none).map Item.val
      = if itemKind.isPut it then some it.val else none
    split_ifs <;> rfl

/-- **`sparkey_hash_get` answers by the live entries.** -/
theorem Reading.hashGet (h : Reading log₀ reader items more live)
    (hperm : live.Perm (contents itemKind items).live) (hu : Used reader iter) (key : List UInt8) :
    ∃ iter', (Sparkey.hashGet reader key).run iter = .ok () iter' ∧ Answers reader.log iter'
      (itemKind.get? key (contents itemKind items).live) := by
  obtain ⟨iter', hrun, hfound⟩ := run_hashGet h (hu.steady h).toUsable key
  refine ⟨iter', hrun, ?_⟩
  rw [← h.indexed.distinct.get?_perm hperm key]
  cases hlive : itemKind.get? key live with
  | none =>
    rw [hlive] at hfound
    exact hfound.1
  | some it =>
    rw [hlive] at hfound
    obtain ⟨n, -, hactive⟩ := hfound
    have hput := (h.mem (get?_eq_some hlive).1).2.2
    obtain ⟨iter'', key', hfill, -⟩ :=
      run_logiterFillValue h.holds.toOpened hactive it.val.value.length
    rw [List.take_length] at hfill
    refine ⟨hactive.state, hactive.type.trans hput, hactive.entryBlockPosition, hactive.keylen,
      hactive.valuelen, hactive.valueRemaining.trans hactive.valuelen.symm, iter'', ?_⟩
    rw [hactive.valuelen]
    exact hfill

/-- The iterator shows the last operation on a key: a put with its value, or that there is none. -/
def Shows (log : Logreader) (iter : Logiter) : Option Entry → Prop
  | some (.put _ value) => iter.state = .active ∧ iter.valuelen = value.1.length ∧
      ∃ iter', (logiterFillValue log iter.valuelen).run iter = .ok value.1 iter'
  | _ => iter.state = .invalid

/-- **`sparkey_hash_get` answers by the last operation** on the key. -/
theorem Reading.hashGet_shows (h : Reading log₀ reader items more live)
    (hperm : live.Perm (contents itemKind items).live) (hu : Used reader iter) (key : List UInt8) :
    ∃ iter', (Sparkey.hashGet reader key).run iter = .ok () iter' ∧
      Shows reader.log iter' (lastWith? key (items.map Item.val)) := by
  obtain ⟨iter', hget, hanswers⟩ := h.hashGet hperm hu key
  refine ⟨iter', hget, ?_⟩
  have hlast := map_find_live items key
  cases hlive : itemKind.get? key (contents itemKind items).live with
  | none =>
    rw [hlive] at hanswers hlast
    cases he : lastWith? key (items.map Item.val) with
    | none => exact hanswers
    | some e =>
      rw [he] at hlast
      cases e with
      | put k v => cases hlast
      | delete k => exact hanswers
  | some it =>
    rw [hlive] at hanswers hlast
    cases he : lastWith? key (items.map Item.val) with
    | none =>
      rw [he] at hlast
      cases hlast
    | some e =>
      rw [he] at hlast
      cases e with
      | delete k => cases hlast
      | put k v =>
        have hval : it.val = .put k v := Option.some.inj hlast
        obtain ⟨hstate, -, -, -, hlen, -, hfill⟩ := hanswers
        rw [hval] at hlen hfill
        exact ⟨hstate, hlen, hfill⟩

/-- The index opens with the log, and finds every key. -/
def Complete (index logFile : Option (List UInt8)) (es : List Entry) : Prop :=
  ∃ reader, hashOpen index logFile = .ok reader ∧ ∀ iter key, Used reader iter →
    ∃ iter', (hashGet reader key).run iter = .ok () iter' ∧ Shows reader.log iter' (lastWith? key es)

theorem IndexOf.complete {logFile : Option (List UInt8)} (hi : IndexOf log items header hashtable)
    (hl : Logged log items) (hopen : logreaderOpen logFile = .ok log)
    (hload : loadHashheader (some (header.bytes ++ hashtable)) = .ok header) :
    Complete (some (header.bytes ++ hashtable)) logFile (items.map Item.val) := by
  obtain ⟨reader, hreader, ho⟩ := hi.hashOpen hload (.refl _) (Nat.le_refl _) hopen
  obtain ⟨live, hperm, hreading⟩ := hi.reading_self hl ho
  exact ⟨reader, hreader, fun iter key hused => hreading.hashGet_shows hperm hused key⟩

/-- **`sparkey_hash_get` is right for every key**, on the index that a run made where there was none. -/
theorem hashGet_of_writing (hw : Writing t n calls w)
    (hfit : ∀ e ∈ entriesOf calls, HeadFits (.of t n) e) (hz : (Setting.of t n).Lossless)
    (hflush : logwriterFlush.run w = .ok () w') (hopen : logreaderOpen (some w'.fd.data) = .ok log)
    (hend : log.header.dataEnd < 2 ^ (64 - intLog2 log.header.maxEntriesPerBlock))
    (hrun : (hashWrite env (some w'.fd.data) hashSize).run none = .ok () index)
    (hreader : hashOpen index (some w'.fd.data) = .ok reader) (hused : Used reader iter)
    (key : List UInt8) :
    ∃ iter', (hashGet reader key).run iter = .ok () iter' ∧
      match lastWith? key (entriesOf calls) with
      | some (.put _ value) => iter'.state = .active ∧ iter'.valuelen = value.1.length ∧
          ∃ iter'', (logiterFillValue reader.log iter'.valuelen).run iter' = .ok value.1 iter''
      | _ => iter'.state = .invalid := by
  obtain ⟨items, hp⟩ := published_of_flush hw hfit hz hflush hopen
  have hl := hp.logged hz
  have hvals := hp.vals
  rw [entriesOf_flush] at hvals
  obtain ⟨header, hashtable, rfl, hi, -⟩ := indexOf_of_fresh hl (hp.fileIdentifier_lt hz) hend hopen hrun
  obtain ⟨reader', hreader', hget⟩ := hi.complete hl hopen (hi.load_of_hashOpen hreader)
  cases hreader.symm.trans hreader'
  rw [hvals] at hget
  exact hget iter key hused

def putPutDelete : List Call :=
  [.add (.put (.of [1]) (.of [])), .add (.put (.of [2]) (.of [7])), .add (.delete (.of [1]))]

theorem RanTwice.exists_reader {env' : HashEnv} {more : List Call} {hashSize' : Nat} {r : TwoRuns}
    (h : RanTwice env env' calls more hashSize hashSize' r w w') (horderly : Orderly env r.log.header)
    (hputs : countPuts (entriesOf calls) < 2 ^ 64) :
    ∃ reader iter, hashOpen r.index (some w.fd.data) = .ok reader ∧
      logiterCreate zeroLogiter reader.log = .ok iter := by
  obtain ⟨w₀, hw, hflush⟩ := h.first
  obtain ⟨items, hp⟩ := published_of_flush hw (fun _ _ => nofun) nofun hflush h.opened
  have hl := hp.logged nofun
  obtain ⟨header, hashtable, hindex, hi, -⟩ := indexOf_of_fresh hl (hp.fileIdentifier_lt nofun)
    horderly.dataEnd_lt h.opened h.made
  rw [← entriesOf_flush, ← hp.vals] at hputs
  obtain ⟨reader, hreader, ho⟩ := hi.hashOpen (hi.load hl hputs) (.refl _) (Nat.le_refl _) h.opened
  obtain ⟨iter, hiter⟩ := logiterCreate_ok (ho.log ▸ hl.toOpened : reader.log.Opened) zeroLogiter
  exact ⟨reader, iter, hindex ▸ hreader, hiter⟩

omit [Compressors] [HashFunctions] in
theorem hashGet_of_writing_sample :
    letI := literalCompressors
    letI := lengthHash
    ∃ (w : Logwriter) (index : Option (List UInt8)) (reader : Hashreader) (iter iter' : Logiter),
      (hashWrite calmEnv (some w.fd.data) 4).run none = .ok () index ∧
      hashOpen index (some w.fd.data) = .ok reader ∧ Used reader iter ∧
      (hashGet reader [2]).run iter = .ok () iter' ∧ iter'.state = .active ∧ iter'.valuelen = 1 ∧
      ∃ iter'', (logiterFillValue reader.log iter'.valuelen).run iter' = .ok [7] iter'' := by
  let := literalCompressors
  let := lengthHash
  have hfacts : (twoRuns calmEnv calmEnv putPutDelete [] 4 4).map (fun r => decide r.log.header.Small)
      = some true := by
    decide +kernel
  obtain ⟨r, hr, hsmall⟩ := Option.map_eq_some_iff.mp hfacts
  have horderly : Orderly calmEnv r.log.header := (of_decide_eq_true hsmall).orderly rfl
  obtain ⟨w', _, hran⟩ := exists_of_twoRuns hr
  obtain ⟨reader, iter, hreader, hiter⟩ := hran.exists_reader horderly (by decide)
  obtain ⟨w, hw, hflush⟩ := hran.first
  obtain ⟨iter', hget, hstate, hlen, hfill⟩ := hashGet_of_writing hw (fun _ _ => nofun) nofun hflush
    hran.opened horderly.dataEnd_lt hran.made hreader (.create hiter) [2]
  exact ⟨w', _, reader, iter, iter', hran.made, hreader, .create hiter, hget, hstate, hlen, hfill⟩

/-! ### `sparkey_logiter_hashnext` -/

omit [HashFunctions] in
theorem Logreader.Holds.nodup (hl : log.Holds items) : items.Nodup := by
  refine (hl.entries.pairwise Entry.header_ne_nil fun hne => absurd rfl hne).imp fun {a b} hab => ?_
  rintro rfl
  unfold Item.Before at hab
  omega

omit [Compressors] [HashFunctions] in
theorem map_survivors (items : List (Item Entry)) :
    entryKind.survivors (items.map Item.val) = (itemKind.survivors items).map Item.val :=
  Kind.survivors_map Item.val (fun _ => rfl) (fun _ => rfl) items

theorem Reading.filter_live (h : Reading log₀ reader items more live)
    (hperm : live.Perm (contents itemKind items).live) {before after : List (Item Entry)}
    (hitems : items = before ++ after) :
    (after ++ more).filter (· ∈ live) = itemKind.survivors after := by
  have hnodup := h.old.nodup
  have hmem : ∀ it, it ∈ live ↔ it ∈ itemKind.survivors items := fun it =>
    (hperm.trans (live_perm_survivors items)).mem_iff
  have hnew : more.filter (· ∈ live) = [] := by
    refine List.filter_eq_nil_iff.mpr fun it hit hlive => ?_
    have hold := (h.mem (of_decide_eq_true hlive)).1
    exact (List.nodup_append.mp h.holds.nodup).2.2 it hold it hit rfl
  rw [List.filter_append, hnew, List.append_nil]
  rw [hitems] at hnodup hmem
  refine filter_eq_survivors (List.nodup_append.mp hnodup).2.1 fun it hit => ?_
  rw [decide_eq_true_iff, hmem]
  exact Kind.mem_survivors_append hnodup hit

/-- **Repeated `sparkey_logiter_hashnext` from a fresh iterator** stops at the entries that survive. -/
theorem Reading.enumerates_fresh (h : Reading log₀ reader items more live)
    (hperm : live.Perm (contents itemKind items).live) {unset : Logiter}
    (hcreate : logiterCreate unset reader.log = .ok iter) :
    Enumerates reader iter (itemKind.survivors items) := by
  have henum := enumerates h _ (Nat.le_refl _) (fun _ hit => hit) (Nat.le_refl _)
    (logiterCreate_before h.holds hcreate)
  rwa [h.filter_live hperm (List.nil_append items).symm] at henum

/-- **From the entry of a key on** it stops at those behind. -/
theorem Reading.enumerates_behind (h : Reading log₀ reader items more live)
    (hperm : live.Perm (contents itemKind items).live) (hu : Used reader iter) {it : Item Entry}
    {before after : List (Item Entry)} (hitems : items = before ++ it :: after)
    (houtlives : itemKind.Outlives it after) :
    ∃ iter', (Sparkey.hashGet reader it.val.key).run iter = .ok () iter' ∧
      Enumerates reader iter' (itemKind.survivors after) := by
  obtain ⟨iter', hrun, hfound⟩ := run_hashGet h (hu.steady h).toUsable it.val.key
  refine ⟨iter', hrun, ?_⟩
  have hlive : it ∈ live := by
    rw [(hperm.trans (live_perm_survivors items)).mem_iff, hitems]
    exact houtlives.mem_survivors before
  cases hget : itemKind.get? it.val.key live with
  | none => exact absurd rfl (get?_eq_none hget hlive)
  | some it' =>
    rw [hget] at hfound
    obtain ⟨n, hfound⟩ := hfound
    obtain ⟨hlive', hkey⟩ := get?_eq_some hget
    obtain rfl : it' = it := h.indexed.distinct.eq_of_key hlive' hlive hkey
    have hat : (items ++ more)[before.length]? = some it' := by
      rw [hitems, List.append_assoc, List.getElem?_append_right (Nat.le_refl _), Nat.sub_self]
      rfl
    have hn : before.length = n := by
      refine (List.getElem?_inj ?_ h.holds.nodup).mp (hat.trans hfound.getElem.symm)
      exact (List.getElem?_eq_some_iff.mp hat).1
    have hrest : (items ++ more).drop (n + 1) = after ++ more := by
      rw [← hn, hitems, List.append_assoc, ← List.drop_drop, List.drop_left]
      rfl
    have hbefore := hfound.active.before
    rw [hrest] at hbefore
    have hsuffix : items = (before ++ [it']) ++ after := by rw [hitems, List.append_cons]
    have henum := enumerates h _ (Nat.le_refl _) (fun x hx => ?_) ?_ hbefore
    · rwa [h.filter_live hperm hsuffix] at henum
    · rw [hsuffix, List.append_assoc]
      exact List.mem_append_right _ hx
    · rw [hsuffix, List.append_assoc (before ++ [it'])]
      exact (List.sublist_append_right _ _).length_le

theorem Follows.reading_of_run {known : Known} {rule : Rule} (h : Follows t n known calls w index)
    (hkeeps : rule.Keeps known) (hfit : ∀ e ∈ entriesOf calls, HeadFits (.of t n) e)
    (hz : (Setting.of t n).Lossless) (hflush : logwriterFlush.run w = .ok () w')
    (hopen : logreaderOpen (some w'.fd.data) = .ok log)
    (hwhole : WholeReads env log.header (oldHeader? log.header index))
    (hrule : rule env log.header (oldHeader? log.header index) hashSize)
    (hrun : (hashWrite env (some w'.fd.data) hashSize).run index = .ok () index')
    (hreader : hashOpen index' (some w'.fd.data) = .ok reader) :
    ∃ items live, items.map Item.val = entriesOf calls ∧
      live.Perm (contents itemKind items).live ∧ Reading log reader items [] live := by
  obtain ⟨items, header, hashtable, hp, rfl, hi, -⟩ := h.run hkeeps hfit hz hflush hopen hwhole hrule
    hrun
  obtain ⟨reader', hreader', ho⟩ := hi.hashOpen (hi.load_of_hashOpen hreader) (.refl _) (Nat.le_refl _)
    hopen
  cases hreader.symm.trans hreader'
  obtain ⟨live, hperm, hreading⟩ := hi.reading_self (hp.logged hz) ho
  exact ⟨items, live, hp.vals.trans (entriesOf_flush calls), hperm, hreading⟩

/-- **`sparkey_logiter_hashnext` stops at every live entry**, in the order of the log: at all of them
on a fresh iterator, and behind `sparkey_hash_get` at those that come behind the entry of the
key. -/
theorem enumerates_of_indexing (h : Indexing t n wholeReads calls w index)
    (hfit : ∀ e ∈ entriesOf calls, HeadFits (.of t n) e) (hz : (Setting.of t n).Lossless)
    (hflush : logwriterFlush.run w = .ok () w') (hopen : logreaderOpen (some w'.fd.data) = .ok log)
    (hwhole : WholeReads env log.header (oldHeader? log.header index))
    (hrun : (hashWrite env (some w'.fd.data) hashSize).run index = .ok () index')
    (hreader : hashOpen index' (some w'.fd.data) = .ok reader) :
    (∀ unset iter, logiterCreate unset reader.log = .ok iter → ∃ its, Enumerates reader iter its ∧
      its.map Item.val = entryKind.survivors (entriesOf calls)) ∧
    ∀ iter before key value after, Used reader iter →
      entriesOf calls = before ++ .put key value :: after → (∀ e ∈ after, e.key ≠ key.1) →
      ∃ iter' its, (hashGet reader key.1).run iter = .ok () iter' ∧ Enumerates reader iter' its ∧
        its.map Item.val = entryKind.survivors after := by
  have hkeeps := keeps_true wholeReads
  obtain ⟨items, live, hvals, hperm, hreading⟩ := (h.follows hkeeps (fun h => h) hfit hz).reading_of_run
    hkeeps hfit hz hflush hopen hwhole hwhole hrun hreader
  rw [← hvals]
  constructor
  · intro unset iter hcreate
    exact ⟨_, hreading.enumerates_fresh hperm hcreate, (map_survivors items).symm⟩
  · intro iter before key value after hused hsplit hlast
    obtain ⟨before', behind, rfl, -, hbehind⟩ := List.map_eq_append_iff.mp hsplit
    obtain ⟨it, after', rfl, hit, rfl⟩ := List.map_eq_cons_iff.mp hbehind
    have houtlives : itemKind.Outlives it after' := by
      refine ⟨?_, fun x hx => ?_⟩
      · show decide (it.val.type = .put) = true
        rw [hit]
        rfl
      · show x.val.key ≠ it.val.key
        rw [hit]
        exact hlast _ (List.mem_map_of_mem hx)
    obtain ⟨iter', hget, henum⟩ := hreading.enumerates_behind hperm hused rfl houtlives
    rw [hit] at hget
    exact ⟨iter', _, hget, henum, (map_survivors after').symm⟩

omit [Compressors] [HashFunctions] in
theorem enumerates_of_indexing_sample :
    letI := literalCompressors
    letI := lengthHash
    ∃ (w : Logwriter) (index : Option (List UInt8)) (reader : Hashreader) (iter : Logiter)
        (its : List (Item Entry)),
      (hashWrite calmEnv (some w.fd.data) 4).run none = .ok () index ∧
      hashOpen index (some w.fd.data) = .ok reader ∧
      logiterCreate zeroLogiter reader.log = .ok iter ∧ Enumerates reader iter its ∧
      its.map Item.val = [.put (.of [2]) (.of [7])] := by
  let := literalCompressors
  let := lengthHash
  have hfacts : (twoRuns calmEnv calmEnv putPutDelete [] 4 4).map (fun r => decide r.log.header.Small)
      = some true := by
    decide +kernel
  obtain ⟨r, hr, hsmall⟩ := Option.map_eq_some_iff.mp hfacts
  have horderly : Orderly calmEnv r.log.header := (of_decide_eq_true hsmall).orderly rfl
  obtain ⟨w', _, hran⟩ := exists_of_twoRuns hr
  obtain ⟨reader, iter, hreader, hiter⟩ := hran.exists_reader horderly (by decide)
  obtain ⟨w, hw, hflush⟩ := hran.first
  obtain ⟨its, henum, hits⟩ := (enumerates_of_indexing (.start hw) (fun _ _ => nofun) nofun hflush
    hran.opened (horderly.wholeReads _) hran.made hreader).1 zeroLogiter iter hiter
  refine ⟨w', _, reader, iter, its, hran.made, hreader, hiter, henum, hits.trans ?_⟩
  decide

end Sparkey
