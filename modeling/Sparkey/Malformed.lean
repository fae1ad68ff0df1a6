import Sparkey.Index.Write
import Sparkey.Reader.Facing

/-!
# Logs that nobody has written

`sparkey_logreader_open` looks at the header only, so what is behind it may be any bytes.  Without
compression these are read as one list of entries (`parseEntries`), and where they are one, an
iterator shows it and comes to its end.  Where a head or a body is not all there, no call tells so:
an iterator that goes through the entries never comes back, or reads outside the mapping
(`dump_of_parseEntries`).
-/

namespace Sparkey

open Program BlockStream

/-! ### Bytes as entries -/

structure Head where
  type : EntryType
  keylen : Nat
  valuelen : Nat
  deriving DecidableEq

def Head.of (a b : Nat) : Head := if a = 0 then ⟨.delete, b, 0⟩ else ⟨.put, a - 1, b⟩

def parseHead (bytes : List UInt8) : Option (Head × List UInt8) := do
  let (a, p) ← readVlq bytes 0
  let (b, q) ← readVlq bytes p
  some (.of a b, bytes.drop q)

def parseEntry (bytes : List UInt8) : Option (Shown × List UInt8) := do
  let (head, body) ← parseHead bytes
  if body.length < head.keylen + head.valuelen then none
  else some (⟨head.type, head.keylen, head.valuelen, body.take head.keylen,
    (body.drop head.keylen).take head.valuelen⟩, body.drop (head.keylen + head.valuelen))

def parseEntries : Nat → List UInt8 → Option (List Shown)
  | 0, bytes => if bytes = [] then some [] else none
  | fuel + 1, bytes =>
    if bytes = [] then some []
    else match parseEntry bytes with
      | none => none
      | some (e, rest) => (parseEntries fuel rest).map (e :: ·)

theorem readVlqLoop_le : ∀ {array : List UInt8} {res shift position value pos : Nat},
    readVlqLoop array res shift position = some (value, pos) → pos ≤ position + array.length := by
  intro array
  induction array with
  | nil =>
    intro res shift position value pos h
    cases h
  | cons byte array ih =>
    intro res shift position value pos h
    rw [readVlqLoop] at h
    rw [List.length_cons]
    split_ifs at h with hlast
    · cases h
      omega
    · have := ih h
      omega

theorem readVlq_le {array : List UInt8} {position value pos : Nat}
    (h : readVlq array position = some (value, pos)) (hle : position ≤ array.length) :
    pos ≤ array.length := by
  have := readVlqLoop_le h
  rw [List.length_drop] at this
  omega

theorem length_parseHead {bytes body : List UInt8} {head : Head}
    (h : parseHead bytes = some (head, body)) : body.length < bytes.length := by
  simp only [parseHead, Option.bind_eq_bind, Option.bind_eq_some_iff] at h
  obtain ⟨⟨a, p⟩, ha, ⟨b, q⟩, hb, h⟩ := h
  have hp := readVlq_lt ha
  have hq := readVlq_lt hb
  have hle := readVlq_le hb (readVlq_le ha (Nat.zero_le _))
  cases h
  rw [List.length_drop]
  simp only at hq hle ⊢
  omega

theorem parseEntry_eq_some {bytes rest : List UInt8} {e : Shown}
    (h : parseEntry bytes = some (e, rest)) :
    parseHead bytes = some (⟨e.type, e.keylen, e.valuelen⟩, e.key ++ e.value ++ rest) ∧
      e.key.length = e.keylen ∧ e.value.length = e.valuelen := by
  simp only [parseEntry, Option.bind_eq_bind, Option.bind_eq_some_iff] at h
  obtain ⟨⟨head, body⟩, hhead, h⟩ := h
  simp only at h
  split_ifs at h with hshort
  cases h
  have hbody : body.take head.keylen ++ (body.drop head.keylen).take head.valuelen
      ++ body.drop (head.keylen + head.valuelen) = body := by
    rw [← List.drop_drop, List.append_assoc, List.take_append_drop, List.take_append_drop]
  refine ⟨?_, List.length_take_of_le (by omega), List.length_take_of_le ?_⟩
  · rw [hhead, hbody]
  · rw [List.length_drop]
    omega

theorem parseEntry_eq_none {bytes : List UInt8} (h : parseEntry bytes = none) :
    parseHead bytes = none ∨ ∃ head body, parseHead bytes = some (head, body) ∧
      body.length < head.keylen + head.valuelen := by
  cases hhead : parseHead bytes with
  | none => exact Or.inl rfl
  | some t =>
    obtain ⟨head, body⟩ := t
    refine Or.inr ⟨head, body, rfl, ?_⟩
    rw [parseEntry, hhead] at h
    by_contra hshort
    simp [hshort] at h

theorem length_parseEntry {bytes rest : List UInt8} {e : Shown} (h : parseEntry bytes = some (e, rest)) :
    rest.length < bytes.length := by
  have hlt := length_parseHead (parseEntry_eq_some h).1
  rw [List.length_append] at hlt
  omega

/-! ### The last bytes of a log -/

section Reading

variable [Compressors] {log : Logreader} {iter iter' : Logiter} {c c' : Cursor UInt8} {n : Nat}
  {bytes xs ys : List UInt8}

def Logreader.Ends (log : Logreader) (c : Cursor UInt8) (bytes : List UInt8) : Prop :=
  c.cur = [] ∧ c.next ≤ log.data.length ∧ log.data.drop c.next = bytes ∨
    c.next = log.data.length ∧ c.cur = bytes

def Ending (log : Logreader) (iter : Logiter) (bytes : List UInt8) : Prop :=
  ∃ c n, At log iter c n ∧ log.Ends c bytes

theorem Logreader.block_of_plain (hp : log.header.compressionType = .none) {p : Nat}
    (hlt : p < log.data.length) :
    log.BlockAt p (log.data.drop p) log.data.length := by
  refine (Logreader.blockAt_plain ?_).mpr ⟨hlt, rfl, rfl⟩
  rw [hp]
  rfl

theorem Logreader.Ends.reads (hp : log.header.compressionType = .none) (h : log.Ends c (xs ++ ys)) :
    ∃ c', Reads log.source c xs c' ∧ log.Ends c' ys := by
  rcases h with ⟨hcur, hle, hdrop⟩ | ⟨hnext, hcur⟩
  · cases xs with
    | nil => exact ⟨c, .nil c, Or.inl ⟨hcur, hle, hdrop⟩⟩
    | cons x xs =>
      have hne : log.data.drop c.next ≠ [] := by
        rw [hdrop]
        exact List.cons_ne_nil _ _
      have hlt : c.next < log.data.length := by
        by_contra hge
        exact hne (List.drop_eq_nil_of_le (Nat.le_of_not_lt hge))
      refine ⟨_, .block hcur (log.block_of_plain hp hlt) hne (Reads.of_cur hdrop), Or.inr ⟨rfl, ?_⟩⟩
      rw [cur_move]
      show (log.data.drop c.next).drop (x :: xs).length = ys
      rw [hdrop, List.drop_left]
  · refine ⟨_, Reads.of_cur hcur, Or.inr ⟨hnext, ?_⟩⟩
    rw [cur_move, hcur, List.drop_left]

theorem Logreader.Ends.move (h : log.Ends c bytes) {k : Nat} (hk : k ≤ c.cur.length) :
    log.Ends (c.move log.source k) (bytes.drop k) := by
  rcases h with ⟨hcur, hle, hdrop⟩ | ⟨hnext, hcur⟩
  · rw [hcur] at hk
    obtain rfl : k = 0 := Nat.le_zero.mp hk
    rw [move_zero]
    exact Or.inl ⟨hcur, hle, hdrop⟩
  · refine Or.inr ⟨hnext, ?_⟩
    rw [cur_move, hcur]

omit [Compressors] in
theorem Logreader.Ends.length_le (h : log.Ends c bytes) : c.cur.length ≤ bytes.length := by
  rcases h with ⟨hcur, -, -⟩ | ⟨-, hcur⟩
  · rw [hcur]
    exact Nat.zero_le _
  · rw [hcur]

theorem Ending.facing (hp : log.header.compressionType = .none) (h : Ending log iter (xs ++ ys)) :
    ∃ c', Facing log iter xs c' ∧ log.Ends c' ys := by
  obtain ⟨c, n, hat, hends⟩ := h
  obtain ⟨c', hr, hends'⟩ := hends.reads hp
  exact ⟨c', ⟨c, max n xs.length, Nat.le_max_right _ _, hat.mono (Nat.le_max_left _ _), hr⟩, hends'⟩

theorem Facing.ending (h : Facing log iter [] c') (he : log.Ends c' bytes) : Ending log iter bytes := by
  obtain ⟨c₁, n, -, hat, hr⟩ := h
  cases hr
  exact ⟨_, n, hat, he⟩

theorem Ending.run_ensureAvailable (hl : log.Opened) (hp : log.header.compressionType = .none)
    (h : Ending log iter bytes) (hne : bytes ≠ []) :
    ∃ iter' c n, (ensureAvailable log).run iter = .ok () iter' ∧ At log iter' c n ∧
      c.next = log.data.length ∧ c.cur = bytes ∧ SameEntry iter iter' := by
  obtain ⟨c, n, hat, hends⟩ := h
  rcases hends with ⟨hcur, hle, hdrop⟩ | ⟨hnext, hcur⟩
  · have hlt : c.next < log.data.length := by
      by_contra hge
      exact hne (hdrop.symm.trans (List.drop_eq_nil_of_le (Nat.le_of_not_lt hge)))
    obtain ⟨iter', hrun, hat', hsame⟩ :=
      run_ensureAvailable_block hl hat hcur (log.block_of_plain hp hlt)
    exact ⟨iter', _, 0, hrun, hat', rfl, hdrop, hsame⟩
  · refine ⟨iter, c, n, run_ensureAvailable_here hat ?_, hat, hnext, hcur, .refl iter⟩
    rw [hcur]
    exact hne

theorem Ending.run_ensureAvailable_nil (hl : log.Opened) (h : Ending log iter []) :
    ∃ iter', (ensureAvailable log).run iter = .ok () iter' ∧ Ending log iter' [] ∧
      SameEntry iter iter' ∧ iter'.blockLen - iter'.blockOffset = 0 := by
  obtain ⟨c, n, hat, hends⟩ := h
  have hend : c.cur = [] ∧ c.next = log.data.length := by
    rcases hends with ⟨hcur, hle, hdrop⟩ | ⟨hnext, hcur⟩
    · exact ⟨hcur, Nat.le_antisymm hle (List.drop_eq_nil_iff.mp hdrop)⟩
    · exact ⟨hcur, hnext⟩
  obtain ⟨iter', hrun, hat', hsame, h0⟩ := run_ensureAvailable_end hl hat hend.1 hend.2
  exact ⟨iter', hrun, ⟨c, n, hat', hends⟩, hsame, h0⟩

/-- **The loop of `skip` never ends** where fewer bytes are left. -/
theorem Ending.run_skipLoop (hl : log.Opened) (hp : log.header.compressionType = .none) :
    ∀ (fuel : Nat) {len : Nat} {bytes : List UInt8} {iter : Logiter}, Ending log iter bytes →
      bytes.length < len → ∃ iter', (skipLoop log fuel len).run iter = .error .stuck iter' := by
  intro fuel
  induction fuel with
  | zero =>
    intro len bytes iter h hlt
    have hne : len ≠ 0 := Nat.ne_zero_of_lt hlt
    refine ⟨iter, ?_⟩
    rw [skipLoop, if_neg hne]
    rfl
  | succ fuel ih =>
    intro len bytes iter h hlt
    have hne : len ≠ 0 := Nat.ne_zero_of_lt hlt
    by_cases hbytes : bytes = []
    · -- a round that goes nowhere
      subst hbytes
      obtain ⟨iter₁, hrun, h₁, -, h0⟩ := h.run_ensureAvailable_nil hl
      obtain ⟨iter', hrun'⟩ := ih h₁ hlt
      refine ⟨iter', ?_⟩
      rw [skipLoop, if_neg hne, run_bind_ok hrun, run_get_bind, h0, Nat.min_zero, run_set_bind]
      exact hrun'
    · obtain ⟨iter₁, c, n, hrun, hat, hnext, hcur, -⟩ := h.run_ensureAvailable hl hp hbytes
      have hlen := hat.length_cur
      rw [hcur] at hlen
      have hmin : min len (iter₁.blockLen - iter₁.blockOffset) = bytes.length := by omega
      have h₂ : Ending log { iter₁ with blockOffset := iter₁.blockOffset + bytes.length } [] := by
        refine ⟨_, _, hat.advance (k := bytes.length) ?_, Or.inr ⟨hnext, ?_⟩⟩
        · rw [hcur]
        · rw [cur_move, hcur, List.drop_length]
      obtain ⟨iter', hrun'⟩ := ih h₂ (Nat.sub_pos_of_lt hlt)
      refine ⟨iter', ?_⟩
      rw [skipLoop, if_neg hne, run_bind_ok hrun, run_get_bind, hmin, run_set_bind]
      exact hrun'

theorem Ending.run_skip (hl : log.Opened) (hp : log.header.compressionType = .none)
    (h : Ending log iter bytes) {len : Nat} (hlt : bytes.length < len) :
    ∃ iter', (skip log len).run iter = .error .stuck iter' :=
  h.run_skipLoop hl hp _ hlt

theorem Ending.run_skip_ok (hl : log.Opened) (hp : log.header.compressionType = .none)
    (h : Ending log iter bytes) {len : Nat} (hle : len ≤ bytes.length) :
    ∃ iter', (skip log len).run iter = .ok () iter' ∧ Ending log iter' (bytes.drop len) ∧
      SameEntry iter iter' := by
  rw [← List.take_append_drop len bytes] at h
  obtain ⟨c', hf, he⟩ := h.facing hp
  rw [← List.append_nil (bytes.take len)] at hf
  obtain ⟨iter', hrun, hf', hsame⟩ := hf.run_skip hl
  rw [List.length_take_of_le hle] at hrun
  exact ⟨iter', hrun, hf'.ending he, hsame⟩

/-! ### An entry that is not all there -/

structure Short (log : Logreader) (iter : Logiter) : Prop where
  state : iter.state = .active
  ending : ∃ bytes, Ending log iter bytes ∧ bytes.length < iter.keyRemaining + iter.valueRemaining

/-- A call at such an entry never comes back, or leaves it as short as it was. -/
def Gone {α : Type} (log : Logreader) : EStateM.Result (Stop Returncode) Logiter α → Prop
  | .ok _ s => Short log s
  | .error e _ => e = .stuck

theorem Gone.bind {α β : Type} {x : Run Logiter α} {f : α → Run Logiter β}
    (hx : Gone log (x.run iter)) (hf : ∀ a s, Short log s → Gone log ((f a).run s)) :
    Gone log ((x >>= f).run iter) := by
  cases hrun : x.run iter with
  | ok a s =>
    rw [hrun] at hx
    rw [run_bind_ok hrun]
    exact hf a s hx
  | error e s =>
    rw [hrun] at hx
    rw [run_bind_error hrun]
    exact hx

/-- What never comes back from where such a call leaves the iterator. -/
theorem Gone.stuck_bind {α β : Type} {x : Run Logiter α} {f : α → Run Logiter β}
    (hx : Gone log (x.run iter))
    (hf : ∀ a s, Short log s → ∃ s', ((f a).run s) = .error .stuck s') :
    ∃ s', (x >>= f).run iter = .error .stuck s' := by
  cases hrun : x.run iter with
  | ok a s =>
    rw [hrun] at hx
    rw [run_bind_ok hrun]
    exact hf a s hx
  | error e s =>
    rw [hrun] at hx
    obtain rfl : e = .stuck := hx
    rw [run_bind_error hrun]
    exact ⟨s, rfl⟩

theorem Short.iterOpen (h : Short log iter) : IterOpen log iter := by
  obtain ⟨bytes, ⟨c, n, hat, -⟩, -⟩ := h.ending
  exact hat.iterOpen

theorem Short.chunk (hl : log.Opened) (hp : log.header.compressionType = .none)
    (h : Short log iter) (maxlen : Nat) (var : Part) :
    Gone log ((logiterChunk log maxlen var).run iter) := by
  obtain ⟨bytes, hend, hlt⟩ := h.ending
  have hs : ¬ iter.state ≠ .active := not_not_intro h.state
  rw [logiterChunk, run_bind_ok (run_assertIterOpen hl h.iterOpen), run_get_bind, if_neg hs]
  by_cases hrem : 0 < iter.remaining var
  · rw [if_pos hrem]
    -- the bytes that are available now
    obtain ⟨iter₁, c, n, hrun, hat, hends, hsame⟩ : ∃ iter₁ c n,
        (ensureAvailable log).run iter = .ok () iter₁ ∧ At log iter₁ c n ∧ log.Ends c bytes ∧
          SameEntry iter iter₁ := by
      by_cases hne : bytes = []
      · subst hne
        obtain ⟨iter₁, hrun, ⟨c, n, hat, hends⟩, hsame, -⟩ := hend.run_ensureAvailable_nil hl
        exact ⟨iter₁, c, n, hrun, hat, hends, hsame⟩
      · obtain ⟨iter₁, c, n, hrun, hat, hnext, hcur, hsame⟩ := hend.run_ensureAvailable hl hp hne
        exact ⟨iter₁, c, n, hrun, hat, Or.inr ⟨hnext, hcur⟩, hsame⟩
    rw [run_bind_ok hrun, run_get_bind, run_set_bind]
    obtain ⟨m, hm⟩ : ∃ m, m = min maxlen
        (min (iter₁.remaining var) (iter₁.blockLen - iter₁.blockOffset)) := ⟨_, rfl⟩
    have hlen := hat.length_cur
    have hmc : m ≤ c.cur.length := by omega
    have hmr : m ≤ iter₁.remaining var := by omega
    have hadv := hat.advance hmc
    have hmove := hends.move hmc
    have hdrop : (bytes.drop m).length = bytes.length - m := List.length_drop
    have hle := hends.length_le
    rw [← hsame.keyRemaining, ← hsame.valueRemaining] at hlt
    rw [← hm]
    cases var with
    | key =>
      have hmr : m ≤ iter₁.keyRemaining := hmr
      refine ⟨hsame.state.trans h.state, _, ⟨_, _, hadv.congr rfl rfl rfl rfl rfl rfl rfl rfl, hmove⟩, ?_⟩
      show _ < iter₁.keyRemaining - m + iter₁.valueRemaining
      omega
    | value =>
      have hmr : m ≤ iter₁.valueRemaining := hmr
      refine ⟨hsame.state.trans h.state, _, ⟨_, _, hadv.congr rfl rfl rfl rfl rfl rfl rfl rfl, hmove⟩, ?_⟩
      show _ < iter₁.keyRemaining + (iter₁.valueRemaining - m)
      omega
  · rw [if_neg hrem]
    exact h

theorem Short.valuechunk (hl : log.Opened) (hp : log.header.compressionType = .none)
    (h : Short log iter) (maxlen : Nat) : Gone log ((logiterValuechunk log maxlen).run iter) := by
  obtain ⟨bytes, hend, hlt⟩ := h.ending
  rw [logiterValuechunk, run_get_bind]
  by_cases hkey : iter.keyRemaining ≤ bytes.length
  · -- the rest of the key is there, so some of the value is not
    obtain ⟨iter₁, hrun, ⟨c, n, hat, hends⟩, hsame⟩ := hend.run_skip_ok hl hp hkey
    have hshort : Short log { iter₁ with keyRemaining := 0 } := by
      refine ⟨hsame.state.trans h.state, _,
        ⟨c, n, hat.congr rfl rfl rfl rfl rfl rfl rfl rfl, hends⟩, ?_⟩
      show (bytes.drop iter.keyRemaining).length < 0 + iter₁.valueRemaining
      rw [List.length_drop, hsame.valueRemaining]
      omega
    rw [run_bind_ok hrun, run_modify_bind]
    exact hshort.chunk hl hp maxlen .value
  · obtain ⟨iter', hrun⟩ := hend.run_skip hl hp (Nat.lt_of_not_le hkey)
    rw [run_bind_error hrun]
    rfl

theorem gone_fillLoop {chunk : Nat → Run Logiter (List UInt8)}
    (hchunk : ∀ maxlen s, Short log s → Gone log ((chunk maxlen).run s)) :
    ∀ (fuel maxlen : Nat) (filled : List UInt8) (s : Logiter), Short log s →
      Gone log ((fillLoop chunk fuel maxlen filled).run s) := by
  intro fuel
  induction fuel with
  | zero =>
    intro maxlen filled s hs
    rw [fillLoop]
    split_ifs
    · exact hs
    · rfl
  | succ fuel ih =>
    intro maxlen filled s hs
    rw [fillLoop]
    split_ifs
    · exact hs
    · refine (hchunk maxlen s hs).bind fun res s₁ hs₁ => ?_
      split_ifs
      · exact hs₁
      · exact ih _ _ _ hs₁

theorem Short.fillKey (hl : log.Opened) (hp : log.header.compressionType = .none)
    (h : Short log iter) (maxlen : Nat) : Gone log ((logiterFillKey log maxlen).run iter) := by
  rw [logiterFillKey, run_get_bind]
  exact gone_fillLoop (fun maxlen s hs => hs.chunk hl hp maxlen .key) _ maxlen [] iter h

theorem Short.fillValue (hl : log.Opened) (hp : log.header.compressionType = .none)
    (h : Short log iter) (maxlen : Nat) : Gone log ((logiterFillValue log maxlen).run iter) := by
  rw [logiterFillValue, run_get_bind]
  exact gone_fillLoop (fun maxlen s hs => hs.valuechunk hl hp maxlen) _ maxlen [] iter h

/-- **`next` never comes back** from an entry that is not all there. -/
theorem Short.next (hl : log.Opened) (hp : log.header.compressionType = .none)
    (h : Short log iter) : ∃ iter', (logiterNext log).run iter = .error .stuck iter' := by
  obtain ⟨bytes, ⟨c, n, hat, hends⟩, hlt⟩ := h.ending
  have hne : iter.state ≠ .closed := by
    rw [h.state]
    decide
  obtain ⟨cleared, hcleared⟩ : ∃ cleared : Logiter, cleared = { iter with
      state := .invalid, keyRemaining := 0, valueRemaining := 0, keylen := 0, valuelen := 0 } := ⟨_, rfl⟩
  have hend : Ending log cleared bytes := by
    subst hcleared
    exact ⟨c, n, hat.congr rfl rfl rfl rfl rfl rfl rfl rfl, hends⟩
  have hopen : IterOpen log cleared := by
    subst hcleared
    exact ⟨h.iterOpen.1, h.iterOpen.2⟩
  rw [logiterNext, run_get_bind, if_neg hne, run_set_bind, if_pos h.state, if_pos h.state,
    ← hcleared, run_bind_ok (run_assertIterOpen hl hopen)]
  by_cases hkey : iter.keyRemaining ≤ bytes.length
  · obtain ⟨iter₁, hrun, hend₁, -⟩ := hend.run_skip_ok hl hp hkey
    have hlt₁ : (bytes.drop iter.keyRemaining).length < iter.valueRemaining := by
      rw [List.length_drop]
      omega
    obtain ⟨iter', hrun'⟩ := hend₁.run_skip hl hp hlt₁
    rw [run_bind_ok hrun, run_bind_error hrun']
    exact ⟨iter', rfl⟩
  · obtain ⟨iter', hrun⟩ := hend.run_skip hl hp (Nat.lt_of_not_le hkey)
    rw [run_bind_error hrun]
    exact ⟨iter', rfl⟩

/-! ### The head of an entry -/

/-- The iterator is at an entry with such a head, and in front of the bytes behind it. -/
structure Headed (log : Logreader) (iter : Logiter) (head : Head) (body : List UInt8) : Prop where
  state : iter.state = .active
  type : iter.type = head.type
  keylen : iter.keylen = head.keylen
  valuelen : iter.valuelen = head.valuelen
  keyRemaining : iter.keyRemaining = head.keylen
  valueRemaining : iter.valueRemaining = head.valuelen
  ending : Ending log iter body

theorem At.recount (h : At log iter c n) (count : Int) :
    At log { iter with entryCount := count } c c.cur.length :=
  ⟨⟨h.iterOpen.1, h.iterOpen.2⟩, h.cached, h.offset, h.cur, h.next, h.next_ne_zero, h.pos_ne_zero, h.pos,
    Or.inl (Nat.le_refl _)⟩

theorem At.run_readEntry_plain (hp : log.header.compressionType = .none) (h : At log iter c n)
    (hne : c.cur ≠ []) :
    ∃ iter', (readEntry log).run iter = readHead.run iter' ∧ At log iter' c n ∧
      iter'.blockOffset = 0 ∧ iter'.compressionBuf = c.cur := by
  have hm : log.source.moves = true := Logreader.moves_iff.mpr hp
  have hlen : iter.blockLen - iter.blockOffset ≠ 0 := by
    rw [← h.length_cur]
    exact Nat.ne_of_gt (List.length_pos_iff.mpr hne)
  have hat := h.rebase hne hm
  refine ⟨_, ?_, hat, rfl, ?_⟩
  · rw [readEntry, run_get_bind, if_neg hlen, if_pos hp, run_set_bind]
  · have hplain : usesCompressor log.header.compressionType = false := by
      rw [hp]
      rfl
    obtain ⟨-, htake, -⟩ := (Logreader.blockAt_plain hplain).mp (hat.loaded hne)
    rw [hat.cur, List.drop_zero, htake]

/-- **Reading a head**, or reading outside the mapping. -/
theorem At.run_readHead_plain (h : At log iter c n) (hnext : c.next = log.data.length)
    (h0 : iter.blockOffset = 0) (hbuf : iter.compressionBuf = c.cur) :
    match parseHead c.cur with
    | none => ∃ iter', readHead.run iter = .error .stuck iter'
    | some (head, body) => ∃ iter', readHead.run iter = .ok () iter' ∧ Headed log iter' head body := by
  rw [readHead, run_modify_bind, run_get_bind, h0, hbuf, parseHead]
  cases ha : readVlq c.cur 0 with
  | none => exact ⟨_, rfl⟩
  | some t =>
    obtain ⟨a, p⟩ := t
    simp only [Option.bind_eq_bind, Option.bind_some]
    cases hb : readVlq c.cur p with
    | none => exact ⟨_, rfl⟩
    | some t =>
      obtain ⟨b, q⟩ := t
      have hq : q ≤ c.cur.length := readVlq_le hb (readVlq_le ha (Nat.zero_le _))
      have hadv := h.advance hq
      rw [h0, Nat.zero_add] at hadv
      have hends : log.Ends (c.move log.source q) (c.cur.drop q) :=
        Logreader.Ends.move (Or.inr ⟨hnext, rfl⟩) hq
      have hat : At log { iter with entryCount := iter.entryCount + 1, blockOffset := q }
          (c.move log.source q) _ := hadv.recount _
      simp only [Option.bind_some]
      by_cases ha0 : a = 0
      · refine ⟨_, rfl, ?_⟩
        rw [Head.of, if_pos ha0, if_pos ha0]
        exact ⟨rfl, rfl, rfl, rfl, rfl, rfl, _, _, hat.congr rfl rfl rfl rfl rfl rfl rfl hbuf.symm,
          hends⟩
      · refine ⟨_, rfl, ?_⟩
        rw [Head.of, if_neg ha0, if_neg ha0]
        exact ⟨rfl, rfl, rfl, rfl, rfl, rfl, _, _, hat.congr rfl rfl rfl rfl rfl rfl rfl hbuf.symm,
          hends⟩

/-! ### Going through the bytes -/

/-- `next` will come to these bytes, the last ones of the log. -/
structure Due (log : Logreader) (iter : Logiter) (bytes : List UInt8) : Prop where
  state : iter.state ≠ .closed
  ending : ∃ xs c', xs.length = iter.pending ∧ Facing log iter xs c' ∧ log.Ends c' bytes

/-- **`next`** goes to the entry that the bytes begin with, or reads outside the mapping. -/
theorem Due.next (hl : log.Opened) (hp : log.header.compressionType = .none) (h : Due log iter bytes)
    (hne : bytes ≠ []) :
    match parseHead bytes with
    | none => ∃ iter', (logiterNext log).run iter = .error .stuck iter'
    | some (head, body) =>
      ∃ iter', (logiterNext log).run iter = .ok () iter' ∧ Headed log iter' head body := by
  obtain ⟨xs, c', hlen, ⟨c, n, hn, hat, hr⟩, hends⟩ := h.ending
  obtain ⟨iter₁, hat₁, hrun⟩ := hat.run_logiterNext hl h.state hn hlen hr
  have hend₁ : Ending log iter₁ bytes := ⟨_, _, hat₁, hends⟩
  obtain ⟨iter₂, c₂, n₂, hrun₂, hat₂, hnext, rfl, -⟩ := hend₁.run_ensureAvailable hl hp hne
  obtain ⟨iter₃, hrun₃, hat₃, h0, hbuf⟩ := hat₂.run_readEntry_plain hp hne
  have hall : (logiterNext log).run iter = readHead.run iter₃ := by
    rw [hrun, run_bind_ok hrun₂, hrun₃]
  rw [hall]
  exact hat₃.run_readHead_plain hnext h0 hbuf

theorem Due.next_nil (hl : log.Opened) (h : Due log iter []) :
    ∃ iter', (logiterNext log).run iter = .ok () iter' ∧ iter'.state = .closed := by
  obtain ⟨xs, c', hlen, ⟨c, n, hn, hat, hr⟩, hends⟩ := h.ending
  obtain ⟨iter₁, hat₁, hrun⟩ := hat.run_logiterNext hl h.state hn hlen hr
  have hend₁ : Ending log iter₁ [] := ⟨_, _, hat₁, hends⟩
  obtain ⟨iter₂, hrun₂, -, -, h0⟩ := hend₁.run_ensureAvailable_nil hl
  refine ⟨{ iter₂ with state := .closed }, ?_, rfl⟩
  rw [hrun, run_bind_ok hrun₂, readEntry, run_get_bind, if_pos h0]
  rfl

theorem Headed.partway (hp : log.header.compressionType = .none) {head : Head}
    {key value rest : List UInt8} (h : Headed log iter head (key ++ value ++ rest))
    (hkey : key.length = head.keylen) (hvalue : value.length = head.valuelen) :
    ∃ c', Partway log iter key value c' ∧ log.Ends c' rest := by
  obtain ⟨c', hf, he⟩ := h.ending.facing hp
  exact ⟨c', ⟨h.state, h.keyRemaining.trans hkey.symm, h.valueRemaining.trans hvalue.symm, hf⟩, he⟩

theorem Headed.short {head : Head} {body : List UInt8} (h : Headed log iter head body)
    (hlt : body.length < head.keylen + head.valuelen) : Short log iter := by
  refine ⟨h.state, body, h.ending, ?_⟩
  rw [h.keyRemaining, h.valueRemaining]
  exact hlt

theorem Partway.due {key value rest : List UInt8} (h : Partway log iter key value c')
    (he : log.Ends c' rest) : Due log iter rest := by
  refine ⟨?_, key ++ value, c', ?_, h.facing, he⟩
  · rw [h.state]
    decide
  · rw [Logiter.pending, if_pos h.state, h.keyRemaining, h.valueRemaining, List.length_append]

/-- **The loop stays at an entry that is not all there.** -/
theorem Short.dump (hl : log.Opened) (hp : log.header.compressionType = .none) (h : Short log iter)
    (fuel : Nat) : ∃ iter', (dump log fuel).run iter = .error .stuck iter' := by
  cases fuel with
  | zero => exact ⟨iter, rfl⟩
  | succ fuel =>
    obtain ⟨iter', hrun⟩ := h.next hl hp
    rw [Sparkey.dump, run_bind_error hrun]
    exact ⟨iter', rfl⟩

theorem Due.dump_nil (hl : log.Opened) (h : Due log iter []) {fuel : Nat} (hf : 0 < fuel) :
    ∃ iter', (Sparkey.dump log fuel).run iter = .ok [] iter' ∧ iter'.state = .closed := by
  obtain ⟨fuel, rfl⟩ := Nat.exists_eq_succ_of_ne_zero (Nat.ne_of_gt hf)
  obtain ⟨iter', hrun, hs⟩ := h.next_nil hl
  have hne : iter'.state ≠ .active := by
    rw [hs]
    decide
  refine ⟨iter', ?_, hs⟩
  rw [Sparkey.dump, run_bind_ok hrun, run_get_bind, if_pos hne]
  rfl

/-- The loop shows these entries and closes the iterator, or it never comes back. -/
def Comes (r : EStateM.Result (Stop Returncode) Logiter (List Shown)) : Option (List Shown) → Prop
  | none => ∃ iter', r = .error .stuck iter'
  | some es => ∃ iter', r = .ok es iter' ∧ iter'.state = .closed

/-- **The loop over any bytes**: it shows the entries they consist of, or never comes back. -/
theorem Due.dump (hl : log.Opened) (hp : log.header.compressionType = .none) :
    ∀ (count : Nat) {fuel : Nat} {bytes : List UInt8} {iter : Logiter}, bytes.length ≤ count →
      count < fuel → Due log iter bytes →
      Comes ((Sparkey.dump log fuel).run iter) (parseEntries count bytes) := by
  intro count
  induction count with
  | zero =>
    intro fuel bytes iter hle hf h
    obtain rfl : bytes = [] := List.length_eq_zero_iff.mp (Nat.le_zero.mp hle)
    exact h.dump_nil hl hf
  | succ count ih =>
    intro fuel bytes iter hle hf h
    obtain ⟨fuel, rfl⟩ := Nat.exists_eq_succ_of_ne_zero (Nat.ne_zero_of_lt hf)
    by_cases hne : bytes = []
    · subst hne
      exact h.dump_nil hl (Nat.succ_pos fuel)
    have hnext := h.next hl hp hne
    cases hentry : parseEntry bytes with
    | none =>
      have hparse : parseEntries (count + 1) bytes = none := by
        rw [parseEntries, if_neg hne, hentry]
      rw [hparse]
      rcases parseEntry_eq_none hentry with hhead | ⟨head, body, hhead, hlt⟩
      · -- the head is not all there
        rw [hhead] at hnext
        obtain ⟨iter', hrun⟩ := hnext
        rw [Sparkey.dump, run_bind_error hrun]
        exact ⟨iter', rfl⟩
      · -- the body is not
        rw [hhead] at hnext
        obtain ⟨iter₁, hrun, hh⟩ := hnext
        have hshort := hh.short hlt
        have hstate : ¬ iter₁.state ≠ .active := not_not_intro hshort.state
        rw [Sparkey.dump, run_bind_ok hrun, run_get_bind, if_neg hstate]
        refine (hshort.fillKey hl hp _).stuck_bind fun key s hs => ?_
        refine (hs.fillValue hl hp _).stuck_bind fun value s' hs' => ?_
        obtain ⟨iter', hrun'⟩ := hs'.dump hl hp fuel
        rw [run_bind_error hrun']
        exact ⟨iter', rfl⟩
    | some t =>
      obtain ⟨e, rest⟩ := t
      have hparse : parseEntries (count + 1) bytes = (parseEntries count rest).map (e :: ·) := by
        rw [parseEntries, if_neg hne, hentry]
      rw [hparse]
      obtain ⟨hhead, hkey, hvalue⟩ := parseEntry_eq_some hentry
      rw [hhead] at hnext
      obtain ⟨iter₁, hrun₁, hh⟩ := hnext
      obtain ⟨c', h₁, he⟩ := hh.partway hp hkey hvalue
      obtain ⟨iter₂, hrun₂, h₂, -⟩ := h₁.run_logiterFillKey hl e.key.length
      obtain ⟨iter₃, key', hrun₃, h₃, -⟩ := h₂.run_logiterFillValue hl e.value.length
      rw [List.take_length] at hrun₂ hrun₃
      rw [List.drop_length] at h₃
      have hlt := length_parseEntry hentry
      have hrest := ih (Nat.le_of_lt_succ (Nat.lt_of_lt_of_le hlt hle)) (Nat.lt_of_succ_lt_succ hf)
        (h₃.due he)
      have hstate : ¬ iter₁.state ≠ .active := not_not_intro hh.state
      have hround : (Sparkey.dump log (fuel + 1)).run iter
          = (do let rest ← Sparkey.dump log fuel; pure (e :: rest) : Run _ _).run iter₃ := by
        rw [Sparkey.dump, run_bind_ok hrun₁, run_get_bind, if_neg hstate, hh.keylen, ← hkey,
          run_bind_ok hrun₂, hh.valuelen, ← hvalue, run_bind_ok hrun₃, hh.type, hkey, hvalue]
      rw [hround]
      cases hall : parseEntries count rest with
      | none =>
        rw [hall] at hrest
        obtain ⟨iter', hrun'⟩ := hrest
        rw [run_bind_error hrun']
        exact ⟨iter', rfl⟩
      | some es =>
        rw [hall] at hrest
        obtain ⟨iter', hrun', hs⟩ := hrest
        rw [run_bind_ok hrun']
        exact ⟨iter', rfl, hs⟩

/-! ### Any file -/

theorem due_logiterCreate (hl : log.Opened) (hle : logHeaderSize ≤ log.data.length) {unset : Logiter}
    (h : logiterCreate unset log = .ok iter) : Due log iter (log.data.drop logHeaderSize) := by
  unfold logiterCreate at h
  rw [if_neg (not_not_intro hl.openStatus)] at h
  cases h
  refine ⟨nofun, [], firstCursor, rfl, ⟨firstCursor, 0, Nat.le_refl _, ⟨⟨rfl, rfl⟩, Or.inl ⟨rfl, rfl⟩,
    Nat.le_refl _, rfl, hl.headerSize.symm, ?_, fun hne => absurd rfl hne, fun hne => absurd rfl hne,
    Or.inl (Nat.le_refl _)⟩, .nil _⟩, Or.inl ⟨rfl, hle, rfl⟩⟩
  show logHeaderSize ≠ 0
  decide

theorem dump_of_open {file : Option (List UInt8)} (hopen : logreaderOpen file = .ok log)
    (hp : log.header.compressionType = .none) {unset : Logiter} (hiter : logiterCreate unset log = .ok iter)
    {fuel : Nat} (hfuel : log.data.length < fuel) :
    Comes ((dump log fuel).run iter) (parseEntries log.data.length (log.data.drop logHeaderSize)) := by
  obtain ⟨hl, hle⟩ := opened_of_logreaderOpen hopen
  refine (due_logiterCreate hl hle hiter).dump hl hp _ ?_ hfuel
  rw [List.length_drop]
  exact Nat.sub_le _ _

/-- What was written is a list of entries, and the entries are those that were added. -/
theorem parseEntries_of_writing {n : Nat} {calls : List Call} {w w' : Logwriter}
    (hw : Writing .none n calls w) (hclose : logwriterClose.run w = .ok () w')
    (hopen : logreaderOpen (some w'.fd.data) = .ok log) :
    parseEntries log.data.length (log.data.drop logHeaderSize)
      = some ((entriesOf calls).map Entry.shown) := by
  have hfit : ∀ e ∈ entriesOf calls, HeadFits (.of .none n) e := fun e _ hu => absurd hu Bool.false_ne_true
  have hz : (Setting.of .none n).Lossless := fun hu => absurd hu Bool.false_ne_true
  obtain ⟨w₁, hfl, rfl⟩ := ok_logwriterClose (kept_of_writing hw).1.writable hclose
  obtain ⟨items, hl, hvals, hheader, -, hk, -⟩ := holds_of_flush hw hfit hz hfl hopen
  have hp : log.header.compressionType = .none := by
    rw [hheader]
    exact congrArg Setting.compressionType hk.setting
  -- the loop shows the entries, and so it shows what the bytes are read as
  obtain ⟨iter, iter', hiter, hrun, -⟩ := hl.exists_dump hvals zeroLogiter
    (Nat.lt_succ_of_le (Nat.le_max_right log.data.length (entriesOf calls).length))
  have hcomes := dump_of_open hopen hp hiter
    (Nat.lt_succ_of_le (Nat.le_max_left log.data.length (entriesOf calls).length))
  rw [hrun] at hcomes
  cases hparse : parseEntries log.data.length (log.data.drop logHeaderSize) with
  | none =>
    rw [hparse] at hcomes
    obtain ⟨iter', h⟩ := hcomes
    cases h
  | some es =>
    rw [hparse] at hcomes
    obtain ⟨iter', h, -⟩ := hcomes
    cases h
    rfl

end Reading

/-! ### A log that was cut off -/

end Sparkey
