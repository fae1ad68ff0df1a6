import Sparkey.Lib.CString
import Sparkey.Writer.History

/-!
# The command `appendlog`

`append` of `main.c` reads lines into a buffer that grows and splits each with `strtok`.  On a stream
of lines it makes the puts of `appendLines` (`run_append`), which knows of lines and not of buffers:
delimiters in front of the key are skipped, a line that cannot be split ends the run with an error,
and what comes behind the last newline, or behind a line that makes the buffer too large, is dropped
without one.
-/

namespace Sparkey

open Program CString

/-! ### Reading a line -/

def minimumCapacity : Nat := 1 <<< 8

def maximumCapacity : Nat := 1 <<< 28

def newline : UInt8 := 10

/-- The buffer of `append`, as large as `size` says, the bytes still to come, and whether calls to
`realloc` fail. -/
structure Lines where
  line : List UInt8
  input : List UInt8
  reallocFails : List Bool

/-- Memory that is made larger.  What is new holds anything. -/
def enlarge (unset : Nat → UInt8) (buf : List UInt8) (cap : Nat) : List UInt8 :=
  buf ++ (List.range' buf.length (cap - buf.length)).map unset

def readLineLoop (unset : Nat → UInt8) : Nat → Nat → Nat → Run Lines Nat
  | 0, _, _ => stuck
  | fuel + 1, cap, pos => do
    let s ← get
    set { s with reallocFails := s.reallocFails.tail }
    if s.reallocFails.head? = some true then
      return pos
    let buf := enlarge unset s.line cap
    modify fun s => { s with line := buf }
    -- `fgets` takes the size as an `int`
    if 2 ^ 31 ≤ cap - pos then
      stuck
    if s.input = [] then
      return pos
    let bytes := fgetsBytes (cap - pos - 1) s.input
    let buf := store buf pos (bytes ++ [0])
    modify fun s => { s with line := buf, input := s.input.drop bytes.length }
    let pos := pos + strcspn newline buf pos
    if buf[pos]? = some newline then
      return pos
    readLineLoop unset fuel (cap * 2) pos

def readLine (unset : Nat → UInt8) : Run Lines Nat := do
  let s ← get
  let cap := s.line.length
  if cap < minimumCapacity then
    readLineLoop unset (s.input.length + 1) minimumCapacity 0
  else if maximumCapacity < cap then
    return 0
  else
    readLineLoop unset (s.input.length + 1) cap 0

/-! ### Appending lines -/

variable [Compressors]

/-- The part of `append` that splits a line and puts the entry; `false` where the loop ends with
an error. -/
def appendLine (delimiter : UInt8) : Run (Lines × Logwriter) Bool := do
  let (s, _) ← get
  match strtok delimiter s.line 0 with
  | none => stuck
  | some (key, line, saved) =>
    match strtok newline line saved with
    | none => stuck
    | some (value, line, _) => do
      modify fun (s, log) => ({ s with line }, log)
      match key, value with
      | _, none => pure false
      | none, some _ => stuck
      | some key, some value =>
        match str line key, str line value with
        | some key, some value => do
          match ← attempt (onSnd (logwriterPut key value)) with
          | .error _ => pure false
          | .ok _ => pure true
        | _, _ => stuck

def appendLoop (unset : Nat → UInt8) (delimiter : UInt8) : Nat → Run (Lines × Logwriter) Nat
  | 0 => stuck
  | fuel + 1 => do
    let end_ ← onFst (readLine unset)
    let (s, _) ← get
    match s.line[end_]? with
    | none => stuck
    | some c =>
      if c ≠ newline then
        return 0
      if ← appendLine delimiter then
        appendLoop unset delimiter fuel
      else
        return 1

/-- `append`, on a stream with these bytes. -/
def append (unset : Nat → UInt8) (reallocFails : List Bool) (delimiter : UInt8)
    (input : List UInt8) : Run Logwriter Nat :=
  onNew ⟨[], input, reallocFails⟩ (appendLoop unset delimiter (input.length + 1))

/-! ### Splitting a line -/

/-- The key and the value of a line: delimiters in front of the key are skipped, and the value is
what comes behind the next one.  It may not be empty. -/
def splitLine (delimiter : UInt8) (text : List UInt8) : Option (List UInt8 × List UInt8) :=
  let rest := text.dropWhile (· = delimiter)
  let value := (rest.dropWhile (· ≠ delimiter)).tail
  if value = [] then none else some (rest.takeWhile (· ≠ delimiter), value)

/-- The parts of a line: delimiters, and then a key with nothing, or with a delimiter and a value,
behind it. -/
inductive Parts (delimiter : UInt8) : List UInt8 → Prop
  | whole {skipped token : List UInt8} : (∀ b ∈ skipped, b = delimiter) →
      (∀ b ∈ token, b ≠ delimiter) → Parts delimiter (skipped ++ token)
  | split {skipped token value : List UInt8} : (∀ b ∈ skipped, b = delimiter) →
      (∀ b ∈ token, b ≠ delimiter) → token ≠ [] →
      Parts delimiter (skipped ++ token ++ delimiter :: value)

variable {delimiter : UInt8} {text skipped token value : List UInt8}

section Parts

omit [Compressors]

theorem parts (delimiter : UInt8) (text : List UInt8) : Parts delimiter text := by
  induction text with
  | nil => exact (Parts.whole (List.forall_mem_nil _) (List.forall_mem_nil _) : Parts _ ([] ++ []))
  | cons b text ih =>
    by_cases hb : b = delimiter
    · subst hb
      cases ih with
      | whole hskipped htoken =>
        exact .whole (List.forall_mem_cons.mpr ⟨rfl, hskipped⟩) htoken
      | split hskipped htoken hne =>
        exact .split (List.forall_mem_cons.mpr ⟨rfl, hskipped⟩) htoken hne
    · by_cases hmem : delimiter ∈ text
      · obtain ⟨token, value, rfl, htoken⟩ := List.eq_append_cons_of_mem hmem
        refine (Parts.split (List.forall_mem_nil _) ?_ (List.cons_ne_nil _ _) :
          Parts _ ([] ++ (b :: token) ++ delimiter :: value))
        exact List.forall_mem_cons.mpr ⟨hb, fun x hx h => htoken (h ▸ hx)⟩
      · refine (Parts.whole (List.forall_mem_nil _) ?_ : Parts _ ([] ++ b :: text))
        exact List.forall_mem_cons.mpr ⟨hb, fun x hx h => hmem (h ▸ hx)⟩

theorem dropWhile_skipped (hskipped : ∀ b ∈ skipped, b = delimiter) (rest : List UInt8)
    (hrest : ∀ b ∈ rest.head?, b ≠ delimiter) :
    (skipped ++ rest).dropWhile (· = delimiter) = rest := by
  rw [List.dropWhile_append_of_pos (by simpa using hskipped)]
  cases rest with
  | nil => rfl
  | cons b rest => rw [List.dropWhile_cons_of_neg (by simpa using hrest b rfl)]

theorem splitLine_whole (hskipped : ∀ b ∈ skipped, b = delimiter)
    (htoken : ∀ b ∈ token, b ≠ delimiter) : splitLine delimiter (skipped ++ token) = none := by
  rw [splitLine, dropWhile_skipped hskipped _ fun b hb => htoken b (List.mem_of_mem_head? hb)]
  have hnone : token.dropWhile (· ≠ delimiter) = [] :=
    List.dropWhile_eq_nil_iff.mpr (by simpa using htoken)
  simp only [hnone, List.tail_nil, if_true]

theorem splitLine_split (hskipped : ∀ b ∈ skipped, b = delimiter)
    (htoken : ∀ b ∈ token, b ≠ delimiter) (hne : token ≠ []) :
    splitLine delimiter (skipped ++ token ++ delimiter :: value) =
      if value = [] then none else some (token, value) := by
  have hhead : ∀ b ∈ (token ++ delimiter :: value).head?, b ≠ delimiter := by
    obtain ⟨b, rest, rfl⟩ := List.exists_cons_of_ne_nil hne
    rintro c hc
    obtain rfl : b = c := Option.some.inj hc
    exact htoken b List.mem_cons_self
  have hpos : ∀ b ∈ token, decide (b ≠ delimiter) = true := by simpa using htoken
  rw [splitLine, List.append_assoc, dropWhile_skipped hskipped _ hhead]
  simp only [List.dropWhile_append_of_pos hpos, List.takeWhile_append_of_pos hpos]
  rw [List.dropWhile_cons_of_neg (by simp), List.takeWhile_cons_of_neg (by simp), List.append_nil,
    List.tail_cons]

end Parts

/-- What `append` makes of a key and a value: `false` where it ends with an error. -/
def appended (key value : List UInt8) : Run Logwriter Bool := do
  match ← attempt (logwriterPut key value) with
  | .error _ => pure false
  | .ok _ => pure true

def putLine (delimiter : UInt8) (text : List UInt8) : Run Logwriter Bool :=
  match splitLine delimiter text with
  | none => pure false
  | some (key, value) => appended key value

theorem run_appended (key value : List UInt8) (s : Lines) (log : Logwriter) :
    (do match ← attempt (onSnd (logwriterPut key value)) with
        | .error _ => pure false
        | .ok _ => pure true : Run (Lines × Logwriter) Bool).run (s, log) =
      (onSnd (appended key value)).run (s, log) := by
  cases hrun : (logwriterPut key value).run log with
  | ok u log' =>
    rw [run_bind_ok (run_attempt_ok (run_onSnd_ok hrun)), run_onSnd_ok]
    · rfl
    · rw [appended, run_bind_ok (run_attempt_ok hrun)]
      rfl
  | error e log' =>
    simp only [appended, attempt, onSnd, EStateM.run, bind, EStateM.bind] at hrun ⊢
    rw [hrun]
    cases e <;> rfl

def IsText (text : List UInt8) : Prop := ∀ b ∈ text, b ≠ 0 ∧ b ≠ newline

variable {s : Lines} {post : List UInt8} (log : Logwriter)

theorem run_appendLine_whole (hline : s.line = skipped ++ token ++ newline :: 0 :: post)
    (htext : IsText (skipped ++ token)) (hskipped : ∀ b ∈ skipped, b = delimiter)
    (htoken : ∀ b ∈ token, b ≠ delimiter) (hd : delimiter ≠ newline) :
    (appendLine delimiter).run (s, log) = .ok false (s, log) := by
  -- the newline is part of the key
  have hmem : s.line = [] ++ skipped ++ (token ++ [newline]) ++ 0 :: post := by
    rw [hline]
    simp
  have hkey := strtok_eq delimiter hmem
    (fun b hb => ⟨(htext b (List.mem_append_left _ hb)).1, hskipped b hb⟩)
    (List.forall_mem_append.mpr ⟨fun b hb => ⟨(htext b (List.mem_append_right _ hb)).1, htoken b hb⟩,
      List.forall_mem_singleton.mpr ⟨by decide, hd.symm⟩⟩) (by simp) (Or.inl rfl)
  rw [← hmem, if_pos rfl, Nat.add_zero] at hkey
  have hvalue := strtok_eq_none newline
    (show s.line = ([] ++ skipped ++ (token ++ [newline])) ++ [] ++ 0 :: post by simpa using hmem)
    (List.forall_mem_nil _)
  rw [appendLine, run_get_bind]
  simp only [show strtok delimiter s.line 0 = _ from hkey, hvalue]
  rfl

theorem run_appendLine_empty (hline : s.line = skipped ++ token ++ delimiter :: newline :: 0 :: post)
    (htext : IsText (skipped ++ token ++ [delimiter])) (hskipped : ∀ b ∈ skipped, b = delimiter)
    (htoken : ∀ b ∈ token, b ≠ delimiter) (hne : token ≠ []) :
    ∃ buf, (appendLine delimiter).run (s, log) = .ok false ({ s with line := buf }, log) ∧
      buf.length = s.line.length := by
  have hzero : delimiter ≠ 0 := (htext delimiter (by simp)).1
  have hkey := strtok_eq delimiter
    (show s.line = [] ++ skipped ++ token ++ delimiter :: newline :: 0 :: post from hline)
    (fun b hb => ⟨(htext b (by simp [hb])).1, hskipped b hb⟩)
    (fun b hb => ⟨(htext b (by simp [hb])).1, htoken b hb⟩) hne (Or.inr rfl)
  rw [if_neg hzero] at hkey
  have hvalue := strtok_eq_none newline
    (show ([] ++ skipped ++ token ++ 0 :: newline :: 0 :: post) =
      (skipped ++ token ++ [0]) ++ [newline] ++ 0 :: post by simp)
    (List.forall_mem_singleton.mpr ⟨by decide, rfl⟩)
  have hpos : (skipped ++ token ++ [0]).length = ([] ++ skipped ++ token).length + 1 := by
    simp [Nat.add_assoc]
  rw [hpos] at hvalue
  refine ⟨skipped ++ token ++ 0 :: newline :: 0 :: post, ?_, ?_⟩
  · rw [appendLine, run_get_bind]
    simp only [show strtok delimiter s.line 0 = _ from hkey, hvalue]
    rfl
  · rw [hline]
    simp

theorem run_appendLine_split
    (hline : s.line = skipped ++ token ++ delimiter :: (value ++ newline :: 0 :: post))
    (htext : IsText (skipped ++ token ++ delimiter :: value)) (hskipped : ∀ b ∈ skipped, b = delimiter)
    (htoken : ∀ b ∈ token, b ≠ delimiter) (hne : token ≠ []) (hvalue : value ≠ []) :
    ∃ buf, (appendLine delimiter).run (s, log) = (onSnd (appended token value) :
        Run (Lines × Logwriter) Bool).run ({ s with line := buf }, log) ∧
      buf.length = s.line.length ∧ buf[0]? ≠ some newline := by
  have hzero : delimiter ≠ 0 := (htext delimiter (by simp)).1
  have hkey := strtok_eq delimiter
    (show s.line = [] ++ skipped ++ token ++ delimiter :: (value ++ newline :: 0 :: post) from hline)
    (fun b hb => ⟨(htext b (by simp [hb])).1, hskipped b hb⟩)
    (fun b hb => ⟨(htext b (by simp [hb])).1, htoken b hb⟩) hne (Or.inr rfl)
  rw [if_neg hzero] at hkey
  have hval := strtok_eq newline
    (show ([] ++ skipped ++ token ++ 0 :: (value ++ newline :: 0 :: post)) =
      (skipped ++ token ++ [0]) ++ [] ++ value ++ newline :: (0 :: post) by simp)
    (List.forall_mem_nil _) (fun b hb => htext b (by simp [hb])) hvalue (Or.inr rfl)
  have hpos : (skipped ++ token ++ [0]).length = ([] ++ skipped ++ token).length + 1 := by
    simp [Nat.add_assoc]
  rw [hpos] at hval
  have hkeystr := str_eq (show (skipped ++ token ++ [0]) ++ [] ++ value ++ 0 :: 0 :: post =
    ([] ++ skipped) ++ token ++ 0 :: (value ++ 0 :: 0 :: post) by simp)
    (fun b hb => (htext b (by simp [hb])).1)
  have hvalstr := str_eq (show (skipped ++ token ++ [0]) ++ [] ++ value ++ 0 :: 0 :: post =
    (skipped ++ token ++ [0] ++ []) ++ value ++ 0 :: (0 :: post) by simp)
    (fun b hb => (htext b (by simp [hb])).1)
  refine ⟨skipped ++ token ++ 0 :: (value ++ 0 :: 0 :: post), ?_, ?_, ?_⟩
  · rw [appendLine, run_get_bind]
    simp only [show strtok delimiter s.line 0 = _ from hkey, hval, hkeystr, hvalstr]
    rw [run_modify_bind, run_appended]
    simp
  · rw [hline]
    simp
  · obtain ⟨b, rest, hfirst⟩ := List.exists_cons_of_ne_nil (List.append_ne_nil_of_right_ne_nil skipped hne)
    have hb := (htext b (List.mem_append_left _ (hfirst ▸ List.mem_cons_self))).2
    rw [hfirst]
    simpa using hb

/-- **A line is split** as `splitLine` says, and the memory stays as large as it is. -/
theorem run_appendLine (hline : s.line = text ++ newline :: 0 :: post) (htext : IsText text)
    (hd : delimiter ≠ newline) :
    ∃ buf, (appendLine delimiter).run (s, log) = (onSnd (putLine delimiter text) :
        Run (Lines × Logwriter) Bool).run ({ s with line := buf }, log) ∧
      buf.length = s.line.length ∧ ((splitLine delimiter text).isSome → buf[0]? ≠ some newline) := by
  cases parts delimiter text with
  | whole hskipped htoken =>
    have hnone := splitLine_whole hskipped htoken
    refine ⟨s.line, ?_, rfl, by simp [hnone]⟩
    rw [run_appendLine_whole log hline htext hskipped htoken hd, putLine, hnone]
    rfl
  | @split skipped token value hskipped htoken hne =>
    rw [List.append_assoc, List.cons_append] at hline
    have hsplit : splitLine delimiter (skipped ++ token ++ delimiter :: value) = _ :=
      splitLine_split hskipped htoken hne
    by_cases hvalue : value = []
    · rw [if_pos hvalue] at hsplit
      subst hvalue
      obtain ⟨buf, hrun, hlen⟩ := run_appendLine_empty log hline htext hskipped htoken hne
      refine ⟨buf, ?_, hlen, fun h => by rw [hsplit] at h; cases h⟩
      rw [hrun, putLine, hsplit]
      rfl
    · rw [if_neg hvalue] at hsplit
      obtain ⟨buf, hrun, hlen, hfirst⟩ :=
        run_appendLine_split log hline htext hskipped htoken hne hvalue
      refine ⟨buf, ?_, hlen, fun _ => hfirst⟩
      rw [hrun, putLine, hsplit]

/-! ### Reading lines from a stream -/

section ReadLine

omit [Compressors]

variable {unset : Nat → UInt8} {fuel cap pos : Nat} {read todo rest : List UInt8}

theorem length_enlarge (unset : Nat → UInt8) {buf : List UInt8} (h : buf.length ≤ cap) :
    (enlarge unset buf cap).length = cap := by
  simp only [enlarge, List.length_append, List.length_map, List.length_range']
  omega

theorem take_enlarge (unset : Nat → UInt8) {buf : List UInt8} {n : Nat} (h : n ≤ buf.length) :
    (enlarge unset buf cap).take n = buf.take n := by
  rw [enlarge, List.take_append_of_le_length h]

theorem run_readLineLoop_end (hr : s.reallocFails = []) (hroom : cap - pos < 2 ^ 31)
    (hinput : s.input = []) : (readLineLoop unset (fuel + 1) cap pos).run s =
      .ok pos { s with line := enlarge unset s.line cap } := by
  rw [readLineLoop, run_get_bind, run_set_bind]
  rw [hr, if_neg (by simp)]
  rw [run_modify_bind, if_neg (Nat.not_le.mpr hroom), hinput, if_pos rfl]
  rfl

theorem run_readLineLoop_read (hr : s.reallocFails = []) (hroom : cap - pos < 2 ^ 31)
    (hinput : s.input ≠ []) {bytes buf : List UInt8}
    (hbytes : fgetsBytes (cap - pos - 1) s.input = bytes)
    (hbuf : store (enlarge unset s.line cap) pos (bytes ++ [0]) = buf) :
    (readLineLoop unset (fuel + 1) cap pos).run s =
      if buf[pos + strcspn newline buf pos]? = some newline then
        .ok (pos + strcspn newline buf pos) ⟨buf, s.input.drop bytes.length, []⟩
      else (readLineLoop unset fuel (cap * 2) (pos + strcspn newline buf pos)).run
        ⟨buf, s.input.drop bytes.length, []⟩ := by
  rw [readLineLoop, run_get_bind, run_set_bind]
  rw [hr, if_neg (by simp)]
  rw [run_modify_bind, if_neg (Nat.not_le.mpr hroom), if_neg hinput]
  simp only [hbytes, hbuf]
  rw [run_modify_bind]
  split_ifs <;> rfl

theorem store_enlarge (unset : Nat → UInt8) {buf : List UInt8} (hread : buf.take read.length = read)
    (bytes : List UInt8) : store (enlarge unset buf cap) read.length (bytes ++ [0]) =
      read ++ bytes ++ 0 :: (enlarge unset buf cap).drop (read.length + bytes.length + 1) := by
  have hle : read.length ≤ buf.length := by
    have := congrArg List.length hread
    rw [List.length_take] at this
    omega
  rw [store, take_enlarge unset hle, hread]
  simp [Nat.add_assoc]

def GrowsTo (cap size cap' : Nat) : Prop :=
  ∃ j, cap' = cap * 2 ^ j ∧ size ≤ cap' ∧ (j = 0 ∨ cap' < 2 * size)

/-- **The loop reads a line**, of which a part is in the buffer already. -/
theorem run_readLineLoop_line (hr : s.reallocFails = []) (hinput : s.input = todo ++ newline :: rest)
    (htext : IsText (read ++ todo)) (hread : s.line.take read.length = read)
    (hlen : s.line.length ≤ cap) (hsmall : (read ++ todo).length + 2 < 2 ^ 31)
    (hroom : cap - read.length < 2 ^ 31) (hpos : read.length + 2 ≤ cap) (hfuel : todo.length < fuel) :
    ∃ buf cap' post, (readLineLoop unset fuel cap read.length).run s =
        .ok (read ++ todo).length ⟨buf, rest, []⟩ ∧
      buf = read ++ todo ++ newline :: 0 :: post ∧ buf.length = cap' ∧
      GrowsTo cap ((read ++ todo).length + 2) cap' := by
  induction fuel generalizing s cap read todo with
  | zero => omega
  | succ fuel ih =>
    have hne : s.input ≠ [] := by
      rw [hinput]
      simp
    have hnot : newline ∉ todo := fun h => (htext newline (List.mem_append_right _ h)).2 rfl
    by_cases hfits : todo.length < cap - read.length - 1
    · -- the rest of the line and the newline fit
      have hbytes : fgetsBytes (cap - read.length - 1) s.input = todo ++ [newline] := by
        rw [hinput]
        exact fgetsBytes_line hnot hfits
      obtain ⟨post, hpost⟩ : ∃ post, post = (enlarge unset s.line cap).drop
          (read.length + (todo ++ [newline]).length + 1) := ⟨_, rfl⟩
      have hbuf : store (enlarge unset s.line cap) read.length (todo ++ [newline] ++ [0]) =
          read ++ todo ++ newline :: (0 :: post) := by
        rw [store_enlarge unset hread, ← hpost]
        simp
      have hspan : strcspn newline (read ++ todo ++ newline :: (0 :: post)) read.length = todo.length :=
        strcspn_eq (fun b hb => htext b (List.mem_append_right _ hb)) (Or.inr rfl)
      have hat := getElem?_at (read ++ todo) newline (0 :: post)
      rw [List.length_append] at hat
      rw [run_readLineLoop_read hr hroom hne hbytes hbuf, hspan, if_pos hat]
      refine ⟨_, cap, post, ?_, rfl, ?_, 0, by simp, ?_, Or.inl rfl⟩
      · have hrest : (todo ++ newline :: rest).drop (todo ++ [newline]).length = rest := by
          rw [show todo ++ newline :: rest = todo ++ [newline] ++ rest by simp, List.drop_left]
        rw [hinput, hrest, List.length_append]
      · have henl := length_enlarge unset hlen
        have hdrop := congrArg List.length hpost
        rw [List.length_drop, henl] at hdrop
        simp only [List.length_append, List.length_cons, List.length_nil] at hdrop ⊢
        omega
      · rw [List.length_append]
        omega
    · -- the buffer is filled up
      have hn : (todo.take (cap - read.length - 1)).length = cap - read.length - 1 :=
        List.length_take_of_le (by omega)
      have hbytes : fgetsBytes (cap - read.length - 1) s.input = todo.take (cap - read.length - 1) := by
        have hsplit : s.input = todo.take (cap - read.length - 1) ++
            (todo.drop (cap - read.length - 1) ++ newline :: rest) := by
          rw [hinput, ← List.append_assoc, List.take_append_drop]
        rw [hsplit]
        exact fgetsBytes_part (fun h => hnot (List.mem_of_mem_take h)) (Or.inl hn)
      obtain ⟨part, more, rfl, hlenpart⟩ : ∃ part more, todo = part ++ more ∧
          part.length = cap - read.length - 1 :=
        ⟨_, _, (List.take_append_drop (cap - read.length - 1) todo).symm, hn⟩
      rw [← hlenpart, List.take_left, hlenpart] at hbytes
      obtain ⟨post, hpost⟩ : ∃ post, post = (enlarge unset s.line cap).drop
          (read.length + part.length + 1) := ⟨_, rfl⟩
      have hbuf : store (enlarge unset s.line cap) read.length (part ++ [0]) =
          read ++ part ++ 0 :: post := by
        rw [store_enlarge unset hread, ← hpost]
      rw [← List.append_assoc] at htext hsmall
      have hspan : strcspn newline (read ++ part ++ 0 :: post) read.length = part.length :=
        strcspn_eq (fun b hb => htext b (by simp [hb])) (Or.inl rfl)
      have hat := getElem?_at (read ++ part) 0 post
      rw [List.length_append] at hat
      have hinput' : s.input.drop part.length = more ++ newline :: rest := by
        rw [hinput, List.append_assoc, List.drop_left]
      rw [run_readLineLoop_read hr hroom hne hbytes hbuf, hspan, if_neg (by rw [hat]; decide), hinput',
        ← List.length_append]
      have hbuflen : (read ++ part ++ 0 :: post).length = cap := by
        have henl := length_enlarge unset hlen
        have hdrop := congrArg List.length hpost
        rw [List.length_drop, henl] at hdrop
        simp only [List.length_append, List.length_cons] at hdrop ⊢
        omega
      simp only [List.length_append] at hsmall hfuel
      obtain ⟨buf, cap', post', hrun, hbuf', hlen', j, hcap', hsize, hj⟩ :=
        @ih ⟨read ++ part ++ 0 :: post, more ++ newline :: rest, []⟩ (cap * 2) (read ++ part) more rfl rfl
          htext (by rw [List.take_left]) (by rw [hbuflen]; omega) (by simp only [List.length_append]; omega)
          (by rw [List.length_append]; omega) (by rw [List.length_append]; omega) (by omega)
      rw [← List.append_assoc]
      refine ⟨buf, cap', post', hrun, hbuf', hlen', j + 1, ?_, hsize, Or.inr ?_⟩
      · rw [hcap', Nat.pow_succ, Nat.mul_comm (2 ^ j), Nat.mul_assoc]
      · rcases hj with rfl | hj
        · rw [hcap', Nat.pow_zero, Nat.mul_one]
          simp only [List.length_append]
          omega
        · exact hj

/-- **The loop at the end of the stream**: what comes behind the last newline is read, and there is
none at the place where the loop stops. -/
theorem run_readLineLoop_rest (hr : s.reallocFails = []) (hinput : s.input = todo)
    (htext : IsText (read ++ todo)) (hread : s.line.take read.length = read)
    (hlen : s.line.length ≤ cap) (hsmall : (read ++ todo).length < 2 ^ 29)
    (hroom : cap - read.length < 2 ^ 31) (hcap : todo ≠ [] → cap ≤ 2 ^ 30)
    (hpos : read.length + 2 ≤ cap) (hfuel : todo.length < fuel)
    (hend : todo = [] → ∃ c, (enlarge unset s.line cap)[read.length]? = some c ∧ c ≠ newline) :
    ∃ buf c, (readLineLoop unset fuel cap read.length).run s =
        .ok (read ++ todo).length ⟨buf, [], []⟩ ∧
      buf[(read ++ todo).length]? = some c ∧ c ≠ newline := by
  induction fuel generalizing s cap read todo with
  | zero => omega
  | succ fuel ih =>
    by_cases htodo : todo = []
    · subst htodo
      obtain ⟨c, hc, hne⟩ := hend rfl
      refine ⟨_, c, ?_, by rwa [List.append_nil], hne⟩
      rw [run_readLineLoop_end hr hroom hinput, List.append_nil, hinput, hr]
    · obtain ⟨part, more, rfl, hfull⟩ : ∃ part more, todo = part ++ more ∧
          (part.length = cap - read.length - 1 ∨ part.length ≤ cap - read.length - 1 ∧ more = []) := by
        refine ⟨_, _, (List.take_append_drop (cap - read.length - 1) todo).symm, ?_⟩
        rcases Nat.lt_or_ge (cap - read.length - 1) todo.length with h | h
        · exact Or.inl (List.length_take_of_le (Nat.le_of_lt h))
        · exact Or.inr ⟨List.length_take_le _ _, List.drop_eq_nil_of_le h⟩
      have hpart : part ≠ [] := by
        rintro rfl
        rcases hfull with h | ⟨-, rfl⟩
        · rw [List.length_nil] at h
          omega
        · exact htodo rfl
      have hpos' := List.length_pos_iff.mpr hpart
      have hne : s.input ≠ [] := hinput ▸ htodo
      have hnot : newline ∉ part := fun h => (htext newline (by simp [h])).2 rfl
      have hbytes : fgetsBytes (cap - read.length - 1) s.input = part := by
        rw [hinput]
        exact fgetsBytes_part hnot hfull
      obtain ⟨post, hpost⟩ : ∃ post, post = (enlarge unset s.line cap).drop
          (read.length + part.length + 1) := ⟨_, rfl⟩
      have hbuf : store (enlarge unset s.line cap) read.length (part ++ [0]) =
          read ++ part ++ 0 :: post := by
        rw [store_enlarge unset hread, ← hpost]
      rw [← List.append_assoc] at htext hsmall
      have hspan : strcspn newline (read ++ part ++ 0 :: post) read.length = part.length :=
        strcspn_eq (fun b hb => htext b (by simp [hb])) (Or.inl rfl)
      have hat := getElem?_at (read ++ part) 0 post
      rw [List.length_append] at hat
      have hinput' : s.input.drop part.length = more := by
        rw [hinput, List.drop_left]
      rw [run_readLineLoop_read hr hroom hne hbytes hbuf, hspan, if_neg (by rw [hat]; decide), hinput',
        ← List.length_append, ← List.append_assoc]
      have hbuflen : (read ++ part ++ 0 :: post).length = cap := by
        have henl := length_enlarge unset hlen
        have hdrop := congrArg List.length hpost
        rw [List.length_drop, henl] at hdrop
        simp only [List.length_append, List.length_cons] at hdrop ⊢
        rcases hfull with h | ⟨h, -⟩ <;> omega
      have hcap := hcap htodo
      simp only [List.length_append] at hsmall hfuel
      refine @ih ⟨read ++ part ++ 0 :: post, more, []⟩ (cap * 2) (read ++ part) more rfl rfl htext
        (by rw [List.take_left]) (by rw [hbuflen]; omega) (by simp only [List.length_append]; omega)
        (by rw [List.length_append]; omega) (fun hmore => ?_) (by rw [List.length_append]; omega)
        (by omega) fun _ => ⟨0, ?_, by decide⟩
      · rcases hfull with h | ⟨-, h⟩
        · omega
        · exact absurd h hmore
      · rw [enlarge, List.getElem?_append_left (by simp), List.length_append]
        exact hat

/-- A buffer between two lines: its size is a power of two, and it can be used once more. -/
structure Usual (s : Lines) : Prop where
  reallocFails : s.reallocFails = []
  size : s.line = [] ∨ ∃ i, s.line.length = 2 ^ i
  size_le : s.line.length ≤ maximumCapacity

theorem Usual.start (h : Usual s) (unset : Nat → UInt8) : ∃ i ≤ 28, 256 ≤ 2 ^ i ∧ s.line.length ≤ 2 ^ i ∧
    (readLine unset).run s = (readLineLoop unset (s.input.length + 1) (2 ^ i) 0).run s := by
  have hle : s.line.length ≤ 2 ^ 28 := h.size_le
  rw [readLine, run_get_bind]
  by_cases hmin : s.line.length < minimumCapacity
  · refine ⟨8, by decide, by decide, Nat.le_of_lt hmin, ?_⟩
    simp only [if_pos hmin]
    rfl
  · simp only [if_neg hmin, if_neg (Nat.not_lt.mpr h.size_le)]
    rcases h.size with hnil | ⟨i, hi⟩
    · rw [hnil] at hmin
      exact absurd (by decide) hmin
    · have hi28 : i ≤ 28 := (Nat.pow_le_pow_iff_right (by decide)).mp (hi ▸ hle)
      exact ⟨i, hi28, hi ▸ Nat.not_lt.mp hmin, Nat.le_of_eq hi, by rw [hi]⟩

/-- **`read_line` reads a line.**  The buffer can be used once more unless the line is too long. -/
theorem run_readLine_line (h : Usual s) {text : List UInt8} (hinput : s.input = text ++ newline :: rest)
    (htext : IsText text) (hsmall : text.length < 2 ^ 29) :
    ∃ buf post, (readLine unset).run s = .ok text.length ⟨buf, rest, []⟩ ∧
      buf = text ++ newline :: 0 :: post ∧ (∃ i, buf.length = 2 ^ i) ∧
      (buf.length ≤ maximumCapacity ↔ text.length + 2 ≤ maximumCapacity) := by
  obtain ⟨i, hi, hmin, hlen, hstart⟩ := h.start unset
  have hbound : 2 ^ i ≤ 2 ^ 28 := Nat.pow_le_pow_right (by decide) hi
  obtain ⟨buf, cap', post, hrun, hbuf, hcap, j, hj, hsize, hgrow⟩ :=
    @run_readLineLoop_line s unset (s.input.length + 1) (2 ^ i) [] text rest h.reallocFails hinput
      htext rfl hlen (by rw [List.nil_append]; omega) (by rw [List.length_nil]; omega)
      (by rw [List.length_nil]; omega) (by rw [hinput]; simp)
  rw [List.nil_append] at hrun hbuf hsize hgrow
  rw [← Nat.pow_add] at hj
  refine ⟨buf, post, hstart.trans hrun, hbuf, ⟨i + j, hcap.trans hj⟩, ?_⟩
  show buf.length ≤ 2 ^ 28 ↔ text.length + 2 ≤ 2 ^ 28
  rw [hcap]
  refine ⟨fun h => Nat.le_trans hsize h, fun h => ?_⟩
  rcases hgrow with rfl | hgrow
  · rw [hj]
    exact hbound
  · have hlt : 2 ^ (i + j) < 2 ^ 29 := by
      rw [← hj]
      omega
    rw [hj]
    exact Nat.pow_le_pow_right (by decide) (Nat.le_of_lt_succ ((Nat.pow_lt_pow_iff_right (by decide)).mp hlt))

theorem run_readLine_full (h : maximumCapacity < s.line.length) : (readLine unset).run s = .ok 0 s := by
  have hmin : minimumCapacity ≤ maximumCapacity := by decide
  rw [readLine, run_get_bind]
  simp only [if_neg (Nat.not_lt.mpr (Nat.le_of_lt (Nat.lt_of_le_of_lt hmin h))), if_pos h]
  rfl

/-- At the end of the stream there is no newline where it stops. -/
theorem run_readLine_rest (h : Usual s) (hinput : s.input = todo) (htext : IsText todo)
    (hsmall : todo.length < 2 ^ 29)
    (hend : todo = [] → if s.line = [] then unset 0 ≠ newline else s.line[0]? ≠ some newline) :
    ∃ s' c, (readLine unset).run s = .ok todo.length s' ∧ s'.line[todo.length]? = some c ∧
      c ≠ newline := by
  obtain ⟨i, hi, hmin, hlen, hstart⟩ := h.start unset
  have hbound : 2 ^ i ≤ 2 ^ 28 := Nat.pow_le_pow_right (by decide) hi
  have hfirst : todo = [] → ∃ c, (enlarge unset s.line (2 ^ i))[0]? = some c ∧ c ≠ newline := by
    intro htodo
    have hend := hend htodo
    cases hline : s.line with
    | nil =>
      rw [if_pos hline] at hend
      obtain ⟨n, hn⟩ := Nat.exists_eq_succ_of_ne_zero (show 2 ^ i ≠ 0 by omega)
      refine ⟨unset 0, ?_, hend⟩
      rw [enlarge, hn]
      rfl
    | cons b line' =>
      rw [hline, if_neg (List.cons_ne_nil _ _)] at hend
      exact ⟨b, rfl, fun hb => hend (congrArg some hb)⟩
  obtain ⟨buf, c, hrun, hc, hne⟩ :=
    @run_readLineLoop_rest s unset (s.input.length + 1) (2 ^ i) [] todo h.reallocFails hinput htext
      rfl hlen (by rwa [List.nil_append]) (by rw [List.length_nil]; omega)
      (fun _ => by omega) (by rw [List.length_nil]; omega) (by rw [hinput]; omega) hfirst
  exact ⟨_, c, hstart.trans hrun, hc, hne⟩

end ReadLine

/-! ### The lines of a stream -/

/-- What `append` makes of the lines of a stream: the put of each, up to one that ends the loop with
an error, or that is so long that the buffer cannot be used again. -/
def appendLines (delimiter : UInt8) : List (List UInt8) → Run Logwriter Nat
  | [] => pure 0
  | text :: texts => do
    if ← putLine delimiter text then
      if maximumCapacity < text.length + 2 then pure 0 else appendLines delimiter texts
    else pure 1

def unlines (texts : List (List UInt8)) : List UInt8 := texts.flatMap fun text => text ++ [newline]

/-- Lines that `append` can be given: without zeros, and less than half a gigabyte long. -/
def Line (text : List UInt8) : Prop := IsText text ∧ text.length < 2 ^ 29

theorem isSome_of_putLine {log' : Logwriter} (h : (putLine delimiter text).run log = .ok true log') :
    (splitLine delimiter text).isSome := by
  rw [putLine] at h
  cases hsplit : splitLine delimiter text with
  | none =>
    rw [hsplit] at h
    cases h
  | some entry => rfl

theorem run_appendLines_true {log' : Logwriter} (h : (putLine delimiter text).run log = .ok true log')
    (texts : List (List UInt8)) : (appendLines delimiter (text :: texts)).run log =
      if maximumCapacity < text.length + 2 then .ok 0 log'
      else (appendLines delimiter texts).run log' := by
  rw [appendLines, run_bind_ok h, if_pos rfl]
  split_ifs <;> rfl

theorem run_appendLoop {unset : Nat → UInt8} {rest : List UInt8} (hd : delimiter ≠ newline)
    (hrest : Line rest) (texts : List (List UInt8)) (htexts : ∀ text ∈ texts, Line text) {fuel : Nat}
    (hfuel : texts.length < fuel) (h : Usual s) (hinput : s.input = unlines texts ++ rest)
    (hend : texts = [] → rest = [] →
      if s.line = [] then unset 0 ≠ newline else s.line[0]? ≠ some newline) :
    ∃ s', (appendLoop unset delimiter fuel).run (s, log) =
      (onSnd (appendLines delimiter texts) : Run (Lines × Logwriter) Nat).run (s', log) := by
  induction texts generalizing s log fuel with
  | nil =>
    obtain ⟨fuel, rfl⟩ := Nat.exists_eq_succ_of_ne_zero (Nat.ne_zero_of_lt hfuel)
    obtain ⟨s', c, hrun, hc, hne⟩ := run_readLine_rest h hinput hrest.1 hrest.2 (hend rfl)
    refine ⟨s', ?_⟩
    rw [appendLoop, run_bind_ok (run_onFst_ok hrun), run_get_bind]
    simp only [hc, if_pos hne]
    rfl
  | cons text texts ih =>
    obtain ⟨fuel, rfl⟩ := Nat.exists_eq_succ_of_ne_zero (Nat.ne_zero_of_lt hfuel)
    obtain ⟨hline, htexts⟩ := List.forall_mem_cons.mp htexts
    have hinput' : s.input = text ++ newline :: (unlines texts ++ rest) := by
      rw [hinput, unlines, List.flatMap_cons]
      simp [unlines]
    obtain ⟨buf, post, hrun, hbuf, hpow, hcap⟩ :=
      @run_readLine_line s unset _ h text hinput' hline.1 hline.2
    have hat : buf[text.length]? = some newline := hbuf ▸ getElem?_at text newline (0 :: post)
    rw [appendLoop, run_bind_ok (run_onFst_ok hrun), run_get_bind]
    simp only [hat, ne_eq, not_true_eq_false, if_false]
    obtain ⟨buf', hsplit, hlen, hfirst⟩ := run_appendLine log
      (show (⟨buf, unlines texts ++ rest, []⟩ : Lines).line = _ from hbuf) hline.1 hd
    rw [EStateM.run_bind, hsplit]
    obtain ⟨s₂, hs₂⟩ : ∃ s₂ : Lines, s₂ = ⟨buf', unlines texts ++ rest, []⟩ := ⟨_, rfl⟩
    simp only at hlen
    rw [← hs₂]
    cases hput : (putLine delimiter text).run log with
    | error e log' =>
      refine ⟨s₂, ?_⟩
      rw [run_onSnd_error hput, appendLines, run_onSnd_error (run_bind_error hput)]
    | ok done log' =>
      rw [run_onSnd_ok hput]
      simp only
      cases done with
      | false =>
        refine ⟨s₂, ?_⟩
        rw [appendLines, run_onSnd_ok]
        · rfl
        · rw [run_bind_ok hput]
          rfl
      | true =>
        have hfirst := hfirst (isSome_of_putLine log hput)
        have hnil : buf' ≠ [] := by
          rintro rfl
          rw [hbuf] at hlen
          simp at hlen
        obtain ⟨fuel, rfl⟩ : ∃ n, fuel = n + 1 := ⟨fuel - 1, by simp only [List.length_cons] at hfuel; omega⟩
        by_cases hlong : maximumCapacity < text.length + 2
        · -- the buffer has become too large
          refine ⟨s₂, ?_⟩
          have hfull : maximumCapacity < s₂.line.length := by
            rw [hs₂, hlen]
            exact Nat.not_le.mp fun h => absurd (hcap.mp h) (Nat.not_le.mpr hlong)
          obtain ⟨c, rest', rfl⟩ := List.exists_cons_of_ne_nil hnil
          have hc : s₂.line[0]? = some c := by rw [hs₂]; rfl
          have hne : c ≠ newline := fun h => hfirst (congrArg some h)
          rw [if_pos rfl, appendLoop, run_bind_ok (run_onFst_ok (run_readLine_full hfull)), run_get_bind]
          simp only [hc, if_pos hne]
          rw [run_onSnd_ok ((run_appendLines_true log hput texts).trans (if_pos hlong))]
          rfl
        · have husual : Usual s₂ := by
            rw [hs₂]
            exact ⟨rfl, Or.inr (hlen ▸ hpow), hlen ▸ hcap.mpr (Nat.not_lt.mp hlong)⟩
          obtain ⟨s', hloop⟩ := ih log' htexts (Nat.lt_of_succ_lt_succ hfuel) husual (by rw [hs₂])
            fun _ _ => by
              rw [hs₂, if_neg hnil]
              exact hfirst
          refine ⟨s', ?_⟩
          rw [if_pos rfl, hloop]
          have hrest := (run_appendLines_true log hput texts).trans (if_neg hlong)
          cases hlines : (appendLines delimiter texts).run log' with
          | ok n log'' => rw [run_onSnd_ok hlines, run_onSnd_ok (hrest.trans hlines)]
          | error e log'' => rw [run_onSnd_error hlines, run_onSnd_error (hrest.trans hlines)]

/-! ### Whole streams -/

/-- The lines of a stream, and what comes behind the last newline. -/
def streamLines : List UInt8 → List (List UInt8) × List UInt8
  | [] => ([], [])
  | b :: input =>
    if b = newline then ([] :: (streamLines input).1, (streamLines input).2)
    else match (streamLines input).1 with
      | [] => ([], b :: (streamLines input).2)
      | text :: texts => ((b :: text) :: texts, (streamLines input).2)

example : streamLines [97, 10, 10, 98, 99] = ([[97], []], [98, 99]) := by decide

section StreamLines

omit [Compressors]

variable {input : List UInt8}

theorem streamLines_newline (input : List UInt8) :
    streamLines (newline :: input) = ([] :: (streamLines input).1, (streamLines input).2) := rfl

theorem streamLines_of_nil {b : UInt8} (hb : b ≠ newline) (h : (streamLines input).1 = []) :
    streamLines (b :: input) = ([], b :: (streamLines input).2) := by
  rw [streamLines, if_neg hb, h]

theorem streamLines_of_cons {b : UInt8} (hb : b ≠ newline) {texts : List (List UInt8)}
    (h : (streamLines input).1 = text :: texts) :
    streamLines (b :: input) = ((b :: text) :: texts, (streamLines input).2) := by
  rw [streamLines, if_neg hb, h]

theorem unlines_streamLines (input : List UInt8) :
    unlines (streamLines input).1 ++ (streamLines input).2 = input := by
  induction input with
  | nil => rfl
  | cons b input ih =>
    by_cases hb : b = newline
    · subst hb
      rw [streamLines_newline]
      exact congrArg (newline :: ·) ih
    · cases h : (streamLines input).1 with
      | nil =>
        rw [streamLines_of_nil hb h]
        rw [h] at ih
        exact congrArg (b :: ·) ih
      | cons text texts =>
        rw [streamLines_of_cons hb h]
        rw [h] at ih
        exact congrArg (b :: ·) ih

theorem newline_not_mem_streamLines (input : List UInt8) :
    (∀ text ∈ (streamLines input).1, newline ∉ text) ∧ newline ∉ (streamLines input).2 := by
  induction input with
  | nil => exact ⟨List.forall_mem_nil _, List.not_mem_nil⟩
  | cons b input ih =>
    obtain ⟨htexts, hrest⟩ := ih
    by_cases hb : b = newline
    · subst hb
      rw [streamLines_newline]
      exact ⟨List.forall_mem_cons.mpr ⟨List.not_mem_nil, htexts⟩, hrest⟩
    · cases h : (streamLines input).1 with
      | nil =>
        rw [streamLines_of_nil hb h]
        exact ⟨List.forall_mem_nil _, List.not_mem_cons_of_ne_of_not_mem (Ne.symm hb) hrest⟩
      | cons text texts =>
        rw [streamLines_of_cons hb h]
        rw [h] at htexts
        obtain ⟨htext, htexts⟩ := List.forall_mem_cons.mp htexts
        have hfirst := List.not_mem_cons_of_ne_of_not_mem (Ne.symm hb) htext
        exact ⟨List.forall_mem_cons.mpr ⟨hfirst, htexts⟩, hrest⟩

/-- A stream that `append` can be given: no zeros, and no line of half a gigabyte.  When it is empty
the byte that `append` looks at is one it never wrote. -/
structure Stream (unset : Nat → UInt8) (input : List UInt8) : Prop where
  zero : ∀ b ∈ input, b ≠ 0
  text_lt : ∀ text ∈ (streamLines input).1, text.length < 2 ^ 29
  rest_lt : (streamLines input).2.length < 2 ^ 29
  unset : input = [] → unset 0 ≠ newline

variable {unset : Nat → UInt8}

theorem Stream.line (h : Stream unset input) : ∀ text ∈ (streamLines input).1, Line text := by
  intro text htext
  refine ⟨fun b hb => ⟨h.zero b ?_, ?_⟩, h.text_lt text htext⟩
  · rw [← unlines_streamLines input]
    refine List.mem_append_left _ (List.mem_flatMap.mpr ⟨text, htext, List.mem_append_left _ hb⟩)
  · rintro rfl
    exact (newline_not_mem_streamLines input).1 text htext hb

theorem Stream.rest (h : Stream unset input) : Line (streamLines input).2 := by
  refine ⟨fun b hb => ⟨h.zero b ?_, ?_⟩, h.rest_lt⟩
  · rw [← unlines_streamLines input]
    exact List.mem_append_right _ hb
  · rintro rfl
    exact (newline_not_mem_streamLines input).2 hb

end StreamLines

/-- **`append` puts the lines of a stream.** -/
theorem run_append {unset : Nat → UInt8} {input : List UInt8} (h : Stream unset input)
    (hd : delimiter ≠ newline) (log : Logwriter) :
    (append unset [] delimiter input).run log =
      (appendLines delimiter (streamLines input).1).run log := by
  have hlen : (streamLines input).1.length < input.length + 1 := by
    have hle : ∀ texts : List (List UInt8), texts.length ≤ (unlines texts).length := by
      intro texts
      induction texts with
      | nil => exact Nat.le_refl _
      | cons text texts ih =>
        rw [unlines, List.flatMap_cons]
        simp only [List.length_append, List.length_cons, List.length_nil]
        exact Nat.succ_le_of_lt (by rw [unlines] at ih; omega)
    have happ := congrArg List.length (unlines_streamLines input)
    rw [List.length_append] at happ
    have := hle (streamLines input).1
    omega
  have husual : Usual ⟨[], input, []⟩ := ⟨rfl, Or.inl rfl, Nat.zero_le _⟩
  obtain ⟨s', hrun⟩ := run_appendLoop log hd h.rest _ h.line hlen husual
    (unlines_streamLines input).symm fun htexts hrest => by
      rw [if_pos rfl]
      refine h.unset ?_
      rw [← unlines_streamLines input, htexts, hrest]
      rfl
  cases hlines : (appendLines delimiter (streamLines input).1).run log with
  | ok n log' => exact run_onNew_ok (hrun.trans (run_onSnd_ok hlines))
  | error e log' => exact run_onNew_error (hrun.trans (run_onSnd_error hlines))

/-! ### What a stream that is appended leaves in the log -/

/-- The lines that `append` comes to: it stops behind one that makes the buffer too large. -/
def taken : List (List UInt8) → List (List UInt8)
  | [] => []
  | text :: texts => text :: if maximumCapacity < text.length + 2 then [] else taken texts

/-- The entry of a line is a put of its parts. -/
def Splits (delimiter : UInt8) (text : List UInt8) (e : Entry) : Prop :=
  ∃ key value : Blob, e = .put key value ∧ splitLine delimiter text = some (key.1, value.1)

theorem add_of_putLine {log log' : Logwriter} (h : (putLine delimiter text).run log = .ok true log')
    (hline : text.length < 2 ^ 63) :
    ∃ e, Splits delimiter text e ∧ (logwriterAdd e).run log = .ok () log' := by
  rw [putLine] at h
  cases hsplit : splitLine delimiter text with
  | none =>
    rw [hsplit] at h
    cases h
  | some entry =>
    obtain ⟨key, value⟩ := entry
    rw [hsplit] at h
    have hparts : key.length < 2 ^ 63 ∧ value.length < 2 ^ 63 := by
      rw [splitLine] at hsplit
      split_ifs at hsplit
      cases hsplit
      refine ⟨Nat.lt_of_le_of_lt ?_ hline, Nat.lt_of_le_of_lt ?_ hline⟩
      · exact ((List.takeWhile_sublist _).trans (List.dropWhile_sublist _)).length_le
      · exact ((List.tail_sublist _).trans
          ((List.dropWhile_sublist _).trans (List.dropWhile_sublist _))).length_le
    refine ⟨.put ⟨key, hparts.1⟩ ⟨value, hparts.2⟩, ⟨⟨key, hparts.1⟩, ⟨value, hparts.2⟩, rfl, hsplit⟩, ?_⟩
    simp only [appended] at h
    cases hput : (logwriterPut key value).run log with
    | ok u log₁ =>
      rw [run_bind_ok (run_attempt_ok hput)] at h
      cases h
      exact hput
    | error e log₁ =>
      exfalso
      simp only [attempt, EStateM.run, bind, EStateM.bind] at hput h
      rw [hput] at h
      cases e <;> cases h

/-- **The lines that are put** are entries of the log. -/
theorem writing_of_appendLines {compressionType : CompressionType} {compressionBlockSize : Nat}
    {calls : List Call} {log log' : Logwriter} {texts : List (List UInt8)}
    (hw : Writing compressionType compressionBlockSize calls log)
    (htexts : ∀ text ∈ texts, text.length < 2 ^ 63)
    (h : (appendLines delimiter texts).run log = .ok 0 log') :
    ∃ es, List.Forall₂ (Splits delimiter) (taken texts) es ∧
      Writing compressionType compressionBlockSize (calls ++ es.map Call.add) log' := by
  induction texts generalizing calls log with
  | nil =>
    cases h
    exact ⟨[], .nil, by simpa using hw⟩
  | cons text texts ih =>
    obtain ⟨htext, htexts⟩ := List.forall_mem_cons.mp htexts
    cases hput : (putLine delimiter text).run log with
    | error e log₁ =>
      rw [appendLines, run_bind_error hput] at h
      cases h
    | ok done log₁ =>
      cases done with
      | false =>
        rw [appendLines, run_bind_ok hput] at h
        cases h
      | true =>
        obtain ⟨e, he, hadd⟩ := add_of_putLine hput htext
        have hw₁ := Writing.add e hw hadd
        rw [run_appendLines_true log hput] at h
        by_cases hlong : maximumCapacity < text.length + 2
        · rw [if_pos hlong] at h
          cases h
          refine ⟨[e], ?_, hw₁⟩
          rw [taken, if_pos hlong]
          exact .cons he .nil
        · rw [if_neg hlong] at h
          obtain ⟨es, hes, hw'⟩ := ih hw₁ htexts h
          refine ⟨e :: es, ?_, ?_⟩
          · rw [taken, if_neg hlong]
            exact .cons he hes
          · rwa [List.map_cons, List.append_cons]

section Records

omit [Compressors]

variable {e : Entry} {texts : List (List UInt8)}

/-- A line as the usage text of `appendlog` has it: a key, a delimiter and a value, and no delimiter
in the key. -/
def Records (delimiter : UInt8) (text : List UInt8) (e : Entry) : Prop :=
  ∃ key value : Blob, e = .put key value ∧ text = key.1 ++ delimiter :: value.1 ∧ delimiter ∉ key.1

theorem splitLine_eq_some {key : List UInt8} (h : splitLine delimiter text = some (key, value)) :
    ∃ skipped, text = skipped ++ key ++ delimiter :: value ∧ (∀ b ∈ skipped, b = delimiter) ∧
      (∀ b ∈ key, b ≠ delimiter) ∧ key ≠ [] := by
  cases parts delimiter text with
  | whole hskipped htoken =>
    rw [splitLine_whole hskipped htoken] at h
    cases h
  | split hskipped htoken hne =>
    rw [splitLine_split hskipped htoken hne] at h
    split_ifs at h
    cases h
    exact ⟨_, rfl, hskipped, htoken, hne⟩

/-- An entry is the one the line records, unless the line begins with a delimiter. -/
theorem Splits.records_iff (h : Splits delimiter text e) :
    Records delimiter text e ↔ text.head? ≠ some delimiter := by
  obtain ⟨key, value, rfl, hsplit⟩ := h
  obtain ⟨skipped, rfl, hskipped, hkey, hne⟩ := splitLine_eq_some hsplit
  obtain ⟨b, rest, hcons⟩ := List.exists_cons_of_ne_nil hne
  have hb : b ≠ delimiter := hkey b (hcons ▸ List.mem_cons_self)
  cases skipped with
  | nil =>
    rw [List.nil_append]
    refine iff_of_true ⟨key, value, rfl, rfl, fun hmem => hkey _ hmem rfl⟩ ?_
    rw [hcons]
    exact fun h => hb (Option.some.inj h)
  | cons d skipped =>
    obtain rfl : d = delimiter := hskipped d List.mem_cons_self
    refine iff_of_false ?_ (not_not_intro rfl)
    rintro ⟨key', value', heq, htext, hnot⟩
    cases heq
    rw [hcons] at htext hnot
    exact hnot ((List.cons.inj htext).1 ▸ List.mem_cons_self)

theorem taken_append (texts : List (List UInt8)) : ∃ more, texts = taken texts ++ more := by
  induction texts with
  | nil => exact ⟨[], rfl⟩
  | cons text texts ih =>
    rw [taken]
    split_ifs with h
    · exact ⟨texts, rfl⟩
    · obtain ⟨more, hmore⟩ := ih
      exact ⟨more, congrArg (text :: ·) hmore⟩

/-- All lines are taken when only the last one may make the buffer too large. -/
theorem taken_eq_iff (texts : List (List UInt8)) :
    taken texts = texts ↔ ∀ text ∈ texts.dropLast, text.length + 2 ≤ maximumCapacity := by
  induction texts with
  | nil => exact iff_of_true rfl (List.forall_mem_nil _)
  | cons text texts ih =>
    cases texts with
    | nil =>
      refine iff_of_true ?_ (List.forall_mem_nil _)
      rw [taken]
      split_ifs <;> rfl
    | cons next texts =>
      rw [taken, List.dropLast_cons_cons, List.forall_mem_cons, ← ih]
      split_ifs with h
      · exact iff_of_false (by simp) fun hle => absurd hle.1 (Nat.not_le.mpr h)
      · simp only [List.cons.injEq, true_and, Nat.not_lt.mp h]

/-- The lines of a stream, and what comes behind the last newline as one more. -/
def allLines (input : List UInt8) : List (List UInt8) :=
  (streamLines input).1 ++ if (streamLines input).2 = [] then [] else [(streamLines input).2]

/-- The streams of which nothing is lost: the last line has its newline too, no line begins with a
delimiter, and none but the last makes the buffer too large. -/
structure Sound (delimiter : UInt8) (input : List UInt8) : Prop where
  ended : (streamLines input).2 = []
  head : ∀ text ∈ (streamLines input).1, text.head? ≠ some delimiter
  short : ∀ text ∈ (streamLines input).1.dropLast, text.length + 2 ≤ maximumCapacity

theorem forall₂_records_iff {es : List Entry} (h : List.Forall₂ (Splits delimiter) texts es) :
    List.Forall₂ (Records delimiter) texts es ↔ ∀ text ∈ texts, text.head? ≠ some delimiter := by
  induction h with
  | nil => exact iff_of_true .nil (List.forall_mem_nil _)
  | cons he _ ih => rw [List.forall₂_cons, he.records_iff, ih, List.forall_mem_cons]

/-- What was put is what the lines record exactly when the stream is sound. -/
theorem records_iff_sound {input : List UInt8} {es : List Entry}
    (h : List.Forall₂ (Splits delimiter) (taken (streamLines input).1) es) :
    List.Forall₂ (Records delimiter) (allLines input) es ↔ Sound delimiter input := by
  obtain ⟨more, hmore⟩ := taken_append (streamLines input).1
  constructor
  · intro hrec
    have hlen := hrec.length_eq.trans h.length_eq.symm
    have htotal := congrArg List.length hmore
    rw [allLines, List.length_append] at hlen
    rw [List.length_append] at htotal
    have hnil : (streamLines input).2 = [] := by
      by_contra hne
      rw [if_neg hne, List.length_singleton] at hlen
      omega
    rw [if_pos hnil, List.length_nil] at hlen
    obtain rfl : more = [] := List.eq_nil_of_length_eq_zero (by omega)
    rw [List.append_nil] at hmore
    rw [allLines, if_pos hnil, List.append_nil] at hrec
    rw [← hmore] at h
    exact ⟨hnil, (forall₂_records_iff h).mp hrec, (taken_eq_iff _).mp hmore.symm⟩
  · intro hs
    rw [(taken_eq_iff _).mpr hs.short] at h
    rw [allLines, if_pos hs.ended, List.append_nil]
    exact (forall₂_records_iff h).mpr hs.head

end Records

/-- **`append` returns 0**, and the lines it came to are puts of the log.  They are the records of the
stream exactly when the stream is sound. -/
theorem append_of_writing {unset : Nat → UInt8} {input : List UInt8} (h : Stream unset input)
    (hd : delimiter ≠ newline) {compressionType : CompressionType} {compressionBlockSize : Nat}
    {calls : List Call} {log log' : Logwriter}
    (hw : Writing compressionType compressionBlockSize calls log)
    (hrun : (append unset [] delimiter input).run log = .ok 0 log') :
    ∃ es, Writing compressionType compressionBlockSize (calls ++ es.map Call.add) log' ∧
      List.Forall₂ (Splits delimiter) (taken (streamLines input).1) es ∧
      (List.Forall₂ (Records delimiter) (allLines input) es ↔ Sound delimiter input) := by
  rw [run_append h hd] at hrun
  obtain ⟨es, hes, hw'⟩ := writing_of_appendLines hw
    (fun text htext => Nat.lt_trans (h.text_lt text htext) (by norm_num)) hrun
  exact ⟨es, hw', hes, records_iff_sound hes⟩

def sampleStream : List UInt8 := [9, 9, 97, 9, 98, 10, 107, 9, 118, 9, 119, 10, 99, 9, 100]

def returnedZero? : EStateM.Result (Stop Returncode) Logwriter Nat → Option Logwriter
  | .ok 0 log => some log
  | _ => none

omit [Compressors] in
theorem returnedZero?_eq_some {r : EStateM.Result (Stop Returncode) Logwriter Nat} {log : Logwriter}
    (h : returnedZero? r = some log) : r = .ok 0 log := by
  unfold returnedZero? at h
  split at h
  · rw [Option.some.inj h]
  · cases h

def appendSample : Option (Logwriter × Logwriter) :=
  (writeLog ⟨some 7, [], []⟩ .none 0 []).bind fun log =>
    (returnedZero? ((append (fun _ => 0) [] 9 sampleStream).run log)).map fun log' => (log, log')

omit [Compressors] in
/-- Two lines are put, and they are not what the stream records. -/
theorem append_of_writing_sample :
    letI := literalCompressors
    ∃ log log' es, Writing .none 0 [] log ∧
      (append (fun _ => 0) [] 9 sampleStream).run log = .ok 0 log' ∧
      Writing .none 0 (es.map Call.add) log' ∧
      List.Forall₂ (Splits 9) [[9, 9, 97, 9, 98], [107, 9, 118, 9, 119]] es ∧
      ¬ List.Forall₂ (Records 9) [[9, 9, 97, 9, 98], [107, 9, 118, 9, 119], [99, 9, 100]] es := by
  let := literalCompressors
  have hsome : appendSample.isSome = true := by decide +kernel
  obtain ⟨⟨log, log'⟩, hsample⟩ := Option.isSome_iff_exists.mp hsome
  obtain ⟨log₁, hlog, hrun⟩ := Option.bind_eq_some_iff.mp hsample
  obtain ⟨log₂, hrun, hpair⟩ := Option.map_eq_some_iff.mp hrun
  cases hpair
  have hw := writing_of_writeLog (by decide) hlog
  have hstream : Stream (fun _ => 0) sampleStream :=
    ⟨by decide +kernel, by decide +kernel, by decide +kernel, fun _ => by decide⟩
  have hok := returnedZero?_eq_some hrun
  obtain ⟨es, hes, hsplits, hrecords⟩ := append_of_writing hstream (by decide) hw hok
  have hsound : ¬ Sound 9 sampleStream := fun h => absurd h.ended (by decide)
  exact ⟨log, log', es, hw, hok, hes, hsplits, fun h => hsound (hrecords.mp h)⟩

end Sparkey
