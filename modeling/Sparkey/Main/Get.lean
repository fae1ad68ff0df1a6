import Sparkey.Index.Answers

/-!
# The command `get`

`get` of `main.c` looks a key up and copies the value to the standard output, chunk by chunk.  The
chunks are cut by the blocks of the log and taken by the system in pieces, and still what is printed
is the value of the last put of the key, or the beginning of it where the output fails
(`get_of_indexing`).
-/

namespace Sparkey

open Program BlockStream LastWrite

variable [Compressors]

def printLoop (log : Logreader) : Nat → Run (Logiter × File) Unit
  | 0 => stuck
  | fuel + 1 => do
    let res ← onFst (logiterValuechunk log iterHashMaxlen)
    onSnd (writeFull res)
    if 0 < res.length then
      printLoop log fuel

def printFound (log : Logreader) : Run (Logiter × File) Nat := do
  let (iter, _) ← get
  if iter.state = .active then
    printLoop log (iter.valueRemaining + 1)
    pure 0
  else
    pure 2

/-- `get`.  Where `assert` ends the process with 1, this is an error. -/
def getCommand [HashFunctions] (unset : Logiter) (hashfile logfile : Option (List UInt8))
    (key : List UInt8) : Run File Nat := do
  let reader ← lift (hashOpen hashfile logfile)
  let iter ← lift (logiterCreate unset reader.log)
  onNew iter do
    onFst (hashGet reader key)
    printFound reader.log

/-! ### What is printed -/

/-- What `get` does with an answer: it prints all of a value, or a proper part of it and an error
comes up, or it says that there is none. -/
def Prints (out : File) : Option (List UInt8) → EStateM.Result (Stop Returncode) File Nat → Prop
  | none, r => r = .ok 2 out
  | some value, .ok code out' => code = 0 ∧ Sent out value (.ok () out')
  | some value, .error e out' => Sent out value (.error e out')

variable {log : Logreader} {item : Item Entry} {items : List (Item Entry)} {out : File}

/-- **The loop prints what is left of a value.** -/
theorem sent_printLoop (hl : log.Opened) {fuel : Nat} {key value : List UInt8} {iter : Logiter}
    (h : Active log iter item items key value) (hfuel : value.length < fuel) :
    Sent out value ((onNew iter (printLoop log fuel)).run out) := by
  induction fuel generalizing key value iter out with
  | zero => exact absurd hfuel (Nat.not_lt_zero _)
  | succ fuel ih =>
    obtain ⟨m, iter₁, hrun, -, hm, hpos, h₁⟩ := run_logiterValuechunk hl h iterHashMaxlen
    rw [printLoop, run_onNew_onFst_ok hrun, run_onNew_onSnd]
    have hlen : (value.take m).length = m := List.length_take_of_le hm
    by_cases hvalue : value = []
    · subst hvalue
      have hsent := sent_writeFull [] out
      rw [List.take_nil, if_neg (by simp)]
      refine @Sent.bind out [] [] (writeFull []) _ hsent fun w => ?_
      exact ⟨Nat.le_max_right _ _, [], w, rfl, List.forall_mem_nil _, by simp⟩
    · have hm0 := hpos hvalue (by decide)
      rw [hlen, if_pos hm0]
      have hbind := @Sent.bind out (value.take m) (value.drop m) (writeFull (value.take m))
        (fun _ => onNew iter₁ (printLoop log fuel)) (sent_writeFull _ _) fun w =>
          ih h₁ (by rw [List.length_drop]; omega)
      rwa [List.take_append_drop] at hbind

/-- **What is found is printed.** -/
theorem prints_printFound {iter : Logiter} (hl : log.Opened)
    (h : Active log iter item items [] item.val.value) :
    Prints out (some item.val.value) ((onNew iter (printFound log)).run out) := by
  have hsent : Sent out item.val.value
      ((onNew iter (printLoop log (item.val.value.length + 1))).run out) :=
    sent_printLoop hl h (Nat.lt_succ_self _)
  rw [← h.valueRemaining] at hsent
  have hrun : (onNew iter (printFound log)).run out =
      (do onNew iter (printLoop log (iter.valueRemaining + 1)); pure 0 : Run File Nat).run out := by
    simp only [onNew, printFound, EStateM.run, bind, EStateM.bind, get, getThe, MonadStateOf.get,
      EStateM.get, if_pos h.state]
    cases printLoop log (iter.valueRemaining + 1) (iter, out) <;> rfl
  rw [hrun]
  cases hloop : (onNew iter (printLoop log (iter.valueRemaining + 1))).run out with
  | ok u out' =>
    rw [hloop] at hsent
    rw [run_bind_ok hloop]
    exact ⟨rfl, hsent⟩
  | error e out' =>
    rw [hloop] at hsent
    rw [run_bind_error hloop]
    exact hsent

/-- The value of a key, behind some entries. -/
def answer? (key : List UInt8) (es : List Entry) : Option (List UInt8) :=
  match lastWith? key es with
  | some (.put _ value) => some value.1
  | _ => none

omit [Compressors] in
theorem answer?_eq (items : List (Item Entry)) (key : List UInt8) :
    answer? key (items.map Item.val) =
      (itemKind.get? key (contents itemKind items).live).map fun it => it.val.value := by
  have hlast := map_find_live items key
  have hmap : (itemKind.get? key (contents itemKind items).live).map (fun it => it.val.value) =
      ((itemKind.get? key (contents itemKind items).live).map Item.val).map Entry.value := by
    rw [Option.map_map]
    rfl
  rw [hmap, hlast, answer?]
  cases lastWith? key (items.map Item.val) with
  | none => rfl
  | some e => cases e <;> rfl

variable [HashFunctions] {log₀ : Logreader} {reader : Hashreader} {more live : List (Item Entry)}
  {index logFile : Option (List UInt8)}

omit [Compressors] [HashFunctions] in
theorem logreaderOpen_of_hashOpen {index logFile : Option (List UInt8)} {reader : Hashreader}
    (h : hashOpen index logFile = .ok reader) : logreaderOpen logFile = .ok reader.log := by
  rw [hashOpen] at h
  cases hload : loadHashheader index with
  | error code =>
    rw [hload] at h
    cases h
  | ok header =>
    cases hlog : logreaderOpen logFile with
    | error code =>
      rw [hload, hlog] at h
      cases h
    | ok log =>
      simp only [hload, hlog] at h
      split_ifs at h
      cases h
      rfl

/-- `get` answers so, whatever the memory it allocates holds and wherever the output goes. -/
def Gets (index logFile : Option (List UInt8)) (key : List UInt8) (answer : Option (List UInt8)) : Prop :=
  ∀ unset out, Prints out answer ((getCommand unset index logFile key).run out)

/-- **`get` on an index** prints what the entries say, however the index was made. -/
theorem Reading.prints (h : Reading log₀ reader items more live)
    (hperm : live.Perm (contents itemKind items).live) (hopen : hashOpen index logFile = .ok reader)
    (key : List UInt8) : Gets index logFile key (answer? key (items.map Item.val)) := by
  intro unset out
  obtain ⟨iter, hcreate⟩ := logiterCreate_ok h.holds.toOpened unset
  obtain ⟨iter', hget, hfound⟩ := run_hashGet h ((Used.create hcreate).steady h).toUsable key
  rw [h.indexed.distinct.get?_perm hperm key] at hfound
  have hrun : (getCommand unset index logFile key).run out =
      (onNew iter' (printFound reader.log)).run out := by
    rw [getCommand, hopen, run_bind_ok (run_lift_ok _ _), hcreate, run_bind_ok (run_lift_ok _ _),
      run_onNew_onFst_ok hget]
  rw [hrun, answer?_eq]
  cases hlive : itemKind.get? key (contents itemKind items).live with
  | none =>
    rw [hlive] at hfound
    have hstate : iter'.state ≠ .active := by
      rw [hfound.1]
      decide
    apply run_onNew_ok
    rw [printFound, run_get_bind]
    simp only [if_neg hstate]
    rfl
  | some it =>
    rw [hlive] at hfound
    obtain ⟨n, hfound⟩ := hfound
    exact prints_printFound h.holds.toOpened hfound.active

variable {t : CompressionType} {n : Nat} {calls : List Call} {w w' : Logwriter} {env : HashEnv}
  {hashSize : Nat} {index' : Option (List UInt8)}

/-- **`get` prints the value of the last put of the key**, if no delete came behind it, and nothing
otherwise, on an index that any runs of `sparkey_hash_write` have left. -/
theorem get_of_indexing (h : Indexing t n wholeReads calls w index)
    (hfit : ∀ e ∈ entriesOf calls, HeadFits (.of t n) e) (hz : (Setting.of t n).Lossless)
    (hflush : logwriterFlush.run w = .ok () w') (hopen : logreaderOpen (some w'.fd.data) = .ok log)
    (hwhole : WholeReads env log.header (oldHeader? log.header index))
    (hrun : (hashWrite env (some w'.fd.data) hashSize).run index = .ok () index')
    (hreader : hashOpen index' (some w'.fd.data) = .ok reader) (key : List UInt8) :
    Gets index' (some w'.fd.data) key (answer? key (entriesOf calls)) := by
  have hkeeps := keeps_true wholeReads
  obtain ⟨items, live, hvals, hperm, hreading⟩ := (h.follows hkeeps (fun h => h) hfit hz).reading_of_run
    hkeeps hfit hz hflush hopen hwhole hwhole hrun hreader
  rw [← hvals]
  exact hreading.prints hperm hreader key

omit [Compressors] [HashFunctions] in
/-- Of two keys that were put the first one has been deleted, and the value of the other one is
printed behind what is there. -/
theorem get_of_indexing_sample :
    letI := literalCompressors
    letI := lengthHash
    ∃ (w : Logwriter) (index : Option (List UInt8)),
      (hashWrite calmEnv (some w.fd.data) 4).run none = .ok () index ∧
      Prints ⟨[5], 1, []⟩ none
        ((getCommand zeroLogiter index (some w.fd.data) [1]).run ⟨[5], 1, []⟩) ∧
      (getCommand zeroLogiter index (some w.fd.data) [2]).run ⟨[5], 1, []⟩ = .ok 0 ⟨[5, 7], 2, []⟩ := by
  let := literalCompressors
  let := lengthHash
  have hfacts : (twoRuns calmEnv calmEnv putPutDelete [] 4 4).map (fun r => decide r.log.header.Small)
      = some true := by
    decide +kernel
  obtain ⟨r, hr, hsmall⟩ := Option.map_eq_some_iff.mp hfacts
  have horderly : Orderly calmEnv r.log.header := (of_decide_eq_true hsmall).orderly rfl
  obtain ⟨w', _, hran⟩ := exists_of_twoRuns hr
  obtain ⟨reader, iter, hreader, -⟩ := hran.exists_reader horderly (by decide)
  obtain ⟨w, hw, hflush⟩ := hran.first
  have hprints := fun key => get_of_indexing (.start hw) (fun _ _ => nofun) nofun hflush hran.opened
    (horderly.wholeReads _) hran.made hreader key
  refine ⟨w', _, hran.made, hprints [1] zeroLogiter ⟨[5], 1, []⟩, ?_⟩
  have hsecond := hprints [2] zeroLogiter ⟨[5], 1, []⟩
  generalize (getCommand zeroLogiter r.index (some w'.fd.data) [2]).run ⟨[5], 1, []⟩ = result at hsecond ⊢
  have hanswer : answer? [2] (entriesOf putPutDelete) = some [7] := by decide
  rw [hanswer] at hsecond
  cases result with
  | ok code out =>
    obtain ⟨rfl, -, used, w, hused, -, rfl⟩ := hsecond
    obtain ⟨-, rfl⟩ := List.append_eq_nil_iff.mp hused.symm
    rfl
  | error e out =>
    obtain ⟨code, used, w, k, -, hk, -, -, h | ⟨r, h, -⟩⟩ := hsecond
    · have hroom := h.2
      obtain rfl : k = 0 := Nat.lt_one_iff.mp hk
      exact absurd hroom (by decide)
    · exact absurd h.symm (by simp)

end Sparkey
