import Sparkey.Walk
import Sparkey.Writer.Willing

/-!
# Entries in pieces

The keys and the values of a log are read in pieces, which the blocks cut.  Two keys are
compared in their order all the same (`keycmp_of_writing`), and any calls for the pieces
of an entry hand out its key and its value from the start (`chunks_of_writing`).
-/

namespace Sparkey

open Program BlockStream

/-- A call for some bytes of a key or of a value: the next piece, or as much as there is room
for. -/
inductive PartCall
  | chunk (maxlen : Nat)
  | fill (maxlen : Nat)

def PartCall.maxlen : PartCall → Nat
  | .chunk maxlen => maxlen
  | .fill maxlen => maxlen

def PartCall.logCall : Part → PartCall → LogCall
  | .key, .chunk maxlen => .keychunk maxlen
  | .key, .fill maxlen => .fillKey maxlen
  | .value, .chunk maxlen => .valuechunk maxlen
  | .value, .fill maxlen => .fillValue maxlen

/-- What some calls should have handed out of some bytes. -/
structure HandedOut (bytes : List UInt8) (calls : List PartCall) (outs : List (List UInt8)) :
    Prop where
  length : outs.length = calls.length
  le : ∀ {i : Nat} {call : PartCall} {out : List UInt8}, calls[i]? = some call →
    outs[i]? = some out → out.length ≤ call.maxlen
  flatten : outs.flatten <+: bytes
  /-- A call that has room and hands out nothing has nothing left. -/
  all : ∀ {i : Nat} {call : PartCall}, calls[i]? = some call → outs[i]? = some [] →
    0 < call.maxlen → (outs.take i).flatten = bytes
  fill : ∀ {i maxlen : Nat} {out : List UInt8}, calls[i]? = some (.fill maxlen) →
    outs[i]? = some out → out.length = min maxlen (bytes.length - (outs.take i).flatten.length)

variable {bytes : List UInt8} {call : PartCall} {calls : List PartCall} {outs : List (List UInt8)}

theorem handedOut_nil (bytes : List UInt8) : HandedOut bytes [] [] :=
  ⟨rfl, nofun, List.nil_prefix, nofun, nofun⟩

theorem HandedOut.cons {m : Nat} (hm : m ≤ call.maxlen) (hle : m ≤ bytes.length)
    (hpos : bytes ≠ [] → 0 < call.maxlen → 0 < m)
    (hfill : ∀ maxlen, call = .fill maxlen → m = min maxlen bytes.length)
    (h : HandedOut (bytes.drop m) calls outs) :
    HandedOut bytes (call :: calls) (bytes.take m :: outs) := by
  have hlen : (bytes.take m).length = m := List.length_take_of_le hle
  refine ⟨congrArg Nat.succ h.length, ?_, ?_, ?_, ?_⟩
  · intro i call' out hcall hout
    cases i with
    | zero =>
      cases hcall
      cases hout
      rwa [hlen]
    | succ i => exact h.le hcall hout
  · obtain ⟨rest, hrest⟩ := h.flatten
    exact ⟨rest, by rw [List.flatten_cons, List.append_assoc, hrest, List.take_append_drop]⟩
  · intro i call' hcall hout hroom
    cases i with
    | zero =>
      cases hcall
      have h0 : bytes.take m = [] := Option.some.inj hout
      rw [h0, List.length_nil] at hlen
      rw [List.take_zero, List.flatten_nil]
      by_contra hne
      have := hpos (Ne.symm hne) hroom
      omega
    | succ i =>
      rw [List.take_succ_cons, List.flatten_cons, h.all hcall hout hroom, List.take_append_drop]
  · intro i maxlen out hcall hout
    cases i with
    | zero =>
      cases hcall
      cases hout
      rw [List.take_zero, List.flatten_nil, List.length_nil, Nat.sub_zero, hlen]
      exact hfill maxlen rfl
    | succ i =>
      rw [h.fill hcall hout, List.take_succ_cons, List.flatten_cons, List.length_append, hlen,
        List.length_drop, Nat.sub_sub]

variable [Compressors] {log : Logreader} {iter : Logiter}

/-- Make some calls, and collect what they hand out. -/
def handOut (log : Logreader) (var : Part) : List PartCall → Run Logiter (List (List UInt8))
  | [] => pure []
  | call :: calls => do
    let bytes ← (call.logCall var).program log
    let outs ← handOut log var calls
    pure (bytes :: outs)

/-- The calls hand out what they should if each of them does: `P bytes` says what is still to
come. -/
theorem run_handOut {var : Part} {P : List UInt8 → Logiter → Prop}
    (hP : ∀ call bytes iter, P bytes iter → ∃ m iter',
      ((PartCall.logCall var call).program log).run iter = .ok (bytes.take m) iter' ∧
        m ≤ call.maxlen ∧ m ≤ bytes.length ∧ (bytes ≠ [] → 0 < call.maxlen → 0 < m) ∧
        (∀ maxlen, call = .fill maxlen → m = min maxlen bytes.length) ∧ P (bytes.drop m) iter') :
    ∀ (calls : List PartCall) (bytes : List UInt8) (iter : Logiter), P bytes iter →
      ∃ outs iter' rest, (handOut log var calls).run iter = .ok outs iter' ∧
        HandedOut bytes calls outs ∧ P rest iter' := by
  intro calls
  induction calls with
  | nil => exact fun bytes iter h => ⟨[], iter, bytes, rfl, handedOut_nil bytes, h⟩
  | cons call calls ih =>
    intro bytes iter h
    obtain ⟨m, iter₁, hrun, hm, hle, hpos, hfill, h₁⟩ := hP call bytes iter h
    obtain ⟨outs, iter', rest, hrun', hout, h'⟩ := ih _ iter₁ h₁
    refine ⟨bytes.take m :: outs, iter', rest, ?_, .cons hm hle hpos hfill hout, h'⟩
    rw [handOut, run_bind_ok hrun, run_bind_ok hrun']
    rfl

omit [Compressors] in
theorem handsOut_fill (maxlen : Nat) (bytes : List UInt8) :
    bytes.take maxlen = bytes.take (min maxlen bytes.length) ∧
      bytes.drop maxlen = bytes.drop (min maxlen bytes.length) ∧
      (bytes ≠ [] → 0 < maxlen → 0 < min maxlen bytes.length) := by
  refine ⟨List.take_eq_take_min, List.drop_eq_drop_min, fun hne hpos => ?_⟩
  have := List.length_pos_iff.mpr hne
  omega

/-- **Calls for the key.** -/
theorem Partway.run_handOut_key (hl : log.Opened) {key value : List UInt8} {c' : Cursor UInt8}
    (h : Partway log iter key value c') (calls : List PartCall) :
    ∃ outs iter' rest, (handOut log .key calls).run iter = .ok outs iter' ∧
      HandedOut key calls outs ∧ Partway log iter' rest value c' := by
  refine run_handOut (P := fun key iter => Partway log iter key value c') ?_ calls key iter h
  intro call key iter h
  cases call with
  | chunk maxlen =>
    obtain ⟨m, iter', hrun, hm, hle, hpos, h', -⟩ := h.run_logiterKeychunk hl maxlen
    exact ⟨m, iter', hrun, hm, hle, hpos, nofun, h'⟩
  | fill maxlen =>
    obtain ⟨iter', hrun, h', -⟩ := h.run_logiterFillKey hl maxlen
    obtain ⟨htake, hdrop, hpos⟩ := handsOut_fill maxlen key
    rw [htake] at hrun
    rw [hdrop] at h'
    refine ⟨_, iter', hrun, Nat.min_le_left _ _, Nat.min_le_right _ _, hpos, ?_, h'⟩
    intro maxlen' heq
    cases heq
    rfl

/-- **Calls for the value**, whatever is left of the key. -/
theorem Partway.run_handOut_value (hl : log.Opened) {key value : List UInt8} {c' : Cursor UInt8}
    (h : Partway log iter key value c') (calls : List PartCall) :
    ∃ outs iter' rest, (handOut log .value calls).run iter = .ok outs iter' ∧
      HandedOut value calls outs ∧ ∃ key', Partway log iter' key' rest c' := by
  refine run_handOut (P := fun value iter => ∃ key', Partway log iter key' value c') ?_ calls value
    iter ⟨key, h⟩
  rintro call value iter ⟨key, h⟩
  cases call with
  | chunk maxlen =>
    obtain ⟨m, iter', hrun, hm, hle, hpos, h', -⟩ := h.run_logiterValuechunk hl maxlen
    exact ⟨m, iter', hrun, hm, hle, hpos, nofun, _, h'⟩
  | fill maxlen =>
    obtain ⟨iter', key', hrun, h', -⟩ := h.run_logiterFillValue hl maxlen
    obtain ⟨htake, hdrop, hpos⟩ := handsOut_fill maxlen value
    rw [htake] at hrun
    rw [hdrop] at h'
    refine ⟨_, iter', hrun, Nat.min_le_left _ _, Nat.min_le_right _ _, hpos, ?_, key', h'⟩
    intro maxlen' heq
    cases heq
    rfl

/-! ### Logs that were written -/

/-- **`sparkey_logiter_keycmp` tells the order of the keys** of any two entries, however they are
cut into blocks. -/
theorem keycmp_of_writing {t : CompressionType} {n : Nat} {calls : List Call} {w w' : Logwriter}
    {iter₁ iter₂ : Logiter} {e₁ e₂ : Entry} {before₁ before₂ after₁ after₂ : List Entry}
    (hw : Writing t n calls w) (hz : (Setting.of t n).Lossless)
    (hfl : logwriterFlush.run w = .ok () w') (hopen : logreaderOpen (some w'.fd.data) = .ok log)
    (hes₁ : entriesOf calls = before₁ ++ e₁ :: after₁)
    (hes₂ : entriesOf calls = before₂ ++ e₂ :: after₂)
    (h₁ : Handled log iter₁) (h₂ : Handled log iter₂) (hs₁ : StandsAt log iter₁ e₁ after₁)
    (hs₂ : StandsAt log iter₂ e₂ after₂) :
    ∃ res iter₁' iter₂', (logiterKeycmp log).run (iter₁, iter₂) = .ok res (iter₁', iter₂') ∧
      Orders res e₁.key e₂.key := by
  obtain ⟨blocks, hc⟩ := carries_of_flush hw hz hfl hopen
  obtain ⟨c₁, -, hp₁, -⟩ := hs₁.partway (hes₁ ▸ hc) (h₁.usable hc)
  obtain ⟨c₂, -, hp₂, -⟩ := hs₂.partway (hes₂ ▸ hc) (h₂.usable hc)
  obtain ⟨res, iter₁', iter₂', -, -, hrun, hres, -⟩ :=
    run_logiterKeycmp_of (Partway.handsOut hc.toOpened _ _) (Partway.handsOut hc.toOpened _ _) hp₁ hp₂
      hp₁.keyRemaining
  exact ⟨res, iter₁', iter₂', hrun, hres⟩

omit [Compressors] in
theorem keycmp_of_writing_sample :
    letI := literalCompressors
    ∃ (log : Logreader) (iter₁ iter₂ : Logiter), Stop log 1 iter₁ ∧ Stop log 2 iter₂ ∧
      ∃ res iter₁' iter₂', (logiterKeycmp log).run (iter₁, iter₂) = .ok res (iter₁', iter₂') ∧
        Orders res [5] [1] := by
  let := literalCompressors
  obtain ⟨w, w', log, hw, hfl, hopen, hstops⟩ := exists_sampleLog
  have hz : (Setting.of .snappy 10).Lossless := fun _ => lossless_snappyLiteral
  obtain ⟨iter₁, e₁, hstop₁, he₁, hs₁⟩ := hstops 1 (by decide)
  obtain ⟨iter₂, e₂, hstop₂, he₂, hs₂⟩ := hstops 2 (by decide)
  have hcmp := keycmp_of_writing hw hz hfl hopen (eq_take_append he₁) (eq_take_append he₂)
    hstop₁.handled hstop₂.handled hs₁ hs₂
  cases he₁
  cases he₂
  exact ⟨log, iter₁, iter₂, hstop₁, hstop₂, hcmp⟩

/-- **The pieces of an entry**, whatever is asked for: the bytes of the key and those of the value
from the start, and behind them the next entry, if its head is not too large. -/
theorem chunks_of_writing {t : CompressionType} {n : Nat} {calls : List Call} {w w' : Logwriter}
    {e : Entry} {before after : List Entry} (hw : Writing t n calls w) (hz : (Setting.of t n).Lossless)
    (hfl : logwriterFlush.run w = .ok () w') (hopen : logreaderOpen (some w'.fd.data) = .ok log)
    (hes : entriesOf calls = before ++ e :: after) (h : Handled log iter)
    (hs : StandsAt log iter e after) (keyCalls valueCalls : List PartCall) :
    ∃ keys values iter₁ iter₂, (handOut log .key keyCalls).run iter = .ok keys iter₁ ∧
      (handOut log .value valueCalls).run iter₁ = .ok values iter₂ ∧
      HandedOut e.key keyCalls keys ∧ HandedOut e.value valueCalls values ∧
      ((∃ iter₃, (logiterNext log).run iter₂ = .ok () iter₃ ∧ LandsOn log iter₃ after) ↔
        ∀ e' ∈ after.head?, HeadFits (.of t n) e') := by
  obtain ⟨blocks, hc⟩ := carries_of_flush hw hz hfl hopen
  rw [hes] at hc
  obtain ⟨c', j, hp, ha⟩ := hs.partway hc (h.usable hc)
  obtain ⟨keys, iter₁, key, hrun₁, hkeys, hp₁⟩ := hp.run_handOut_key hc.toOpened keyCalls
  obtain ⟨values, iter₂, value, hrun₂, hvalues, key', hp₂⟩ :=
    hp₁.run_handOut_value hc.toOpened valueCalls
  refine ⟨keys, values, iter₁, iter₂, hrun₁, hrun₂, hkeys, hvalues, ?_⟩
  have hc' : log.Carries blocks ((before ++ [e]) ++ after) := by
    rwa [List.append_assoc]
  rw [(hp₂.approaches ha).lands_iff hc', setting_of_flush hw hfl hopen]

omit [Compressors] in
theorem chunks_of_writing_sample :
    letI := literalCompressors
    ∃ (log : Logreader) (iter : Logiter), Stop log 1 iter ∧
      ∃ keys values iter₁ iter₂, (handOut log .key [.chunk 0, .fill 5]).run iter = .ok keys iter₁ ∧
        (handOut log .value [.chunk 3, .fill 4, .chunk 100]).run iter₁ = .ok values iter₂ ∧
        HandedOut [5] [.chunk 0, .fill 5] keys ∧
        HandedOut [0, 1, 2, 3, 4, 5, 6, 7, 8, 9, 10, 11, 12, 13, 14, 15, 16, 17, 18]
          [.chunk 3, .fill 4, .chunk 100] values ∧
        ((∃ iter₃, (logiterNext log).run iter₂ = .ok () iter₃ ∧
            LandsOn log iter₃ ((entriesOf sampleCalls).drop 2)) ↔
          ∀ e' ∈ ((entriesOf sampleCalls).drop 2).head?, HeadFits (.of .snappy 10) e') := by
  let := literalCompressors
  obtain ⟨w, w', log, hw, hfl, hopen, hstops⟩ := exists_sampleLog
  have hz : (Setting.of .snappy 10).Lossless := fun _ => lossless_snappyLiteral
  obtain ⟨iter, e, hstop, he, hs⟩ := hstops 1 (by decide)
  have hchunks := chunks_of_writing hw hz hfl hopen (eq_take_append he) hstop.handled hs
    [.chunk 0, .fill 5] [.chunk 3, .fill 4, .chunk 100]
  cases he
  exact ⟨log, iter, hstop, hchunks⟩

/-! ### A head that is too large -/

def zeros (n : Nat) (h : n < 2 ^ 63) : Blob := ⟨List.replicate n 0, by rwa [List.length_replicate]⟩

section Zeros

variable {m n : Nat} (hm : m < 2 ^ 63) (hn : n < 2 ^ 63)

omit [Compressors] in
theorem header_zeros : (Entry.put (zeros m hm) (zeros n hn)).header = writeVlq (m + 1) ++ writeVlq n := by
  have hnum1 : (Entry.put (zeros m hm) (zeros n hn)).num1 = m + 1 :=
    congrArg Nat.succ List.length_replicate
  have hnum2 : (Entry.put (zeros m hm) (zeros n hn)).num2 = n := List.length_replicate
  rw [Entry.header, hnum1, hnum2]

omit [Compressors] in
theorem length_bytes_zeros : (Entry.put (zeros m hm) (zeros n hn)).bytes.length
    = (writeVlq (m + 1)).length + (writeVlq n).length + (m + n) := by
  have hbody : (Entry.put (zeros m hm) (zeros n hn)).body.length = m + n := by
    show (List.replicate m (0 : UInt8) ++ List.replicate n 0).length = _
    rw [List.length_append, List.length_replicate, List.length_replicate]
  rw [Entry.bytes, List.length_append, header_zeros, List.length_append, hbody]

end Zeros

def largeEntry : Entry := .put (zeros (2 ^ 35) (by decide)) (zeros (2 ^ 28) (by decide))

omit [Compressors] in
theorem length_writeVlq_large :
    (writeVlq (2 ^ 35 + 1)).length = 6 ∧ (writeVlq (2 ^ 28)).length = 5 :=
  ⟨length_writeVlq 5 _ (by decide) (by decide), length_writeVlq 4 _ (by decide) (by decide)⟩

omit [Compressors] in
theorem length_header_largeEntry : largeEntry.header.length = 11 := by
  rw [largeEntry, header_zeros, List.length_append, length_writeVlq_large.1, length_writeVlq_large.2]

omit [Compressors] in
theorem length_bytes_largeEntry : largeEntry.bytes.length ≤ 2 ^ 36 := by
  rw [largeEntry, length_bytes_zeros, length_writeVlq_large.1, length_writeVlq_large.2]
  decide

def largeCalls (e : Entry) : List Call := [.add (.put (.of []) (.of [])), .add e]

omit [Compressors] in
theorem exists_largeLog {e : Entry} (he : e.bytes.length ≤ 2 ^ 36) :
    letI := literalCompressors
    ∃ w w' log, Writing .snappy 10 (largeCalls e) w ∧ logwriterFlush.run w = .ok () w' ∧
      logreaderOpen (some w'.fd.data) = .ok log := by
  let := literalCompressors
  obtain ⟨s, hs⟩ : ∃ s, s = Setting.of .snappy 10 := ⟨_, rfl⟩
  have hsize : s.compressionBlockSize = 10 := by rw [hs]; rfl
  have hpacks : s.Packs := hs ▸ packs_literal rfl (by decide)
  have h₁ : pack s [.add (.put (.of []) (.of []))] = some ⟨[], [1, 0], false, 1, 0⟩ := by
    rw [hs]
    rfl
  obtain ⟨p₂, hp₂, hle₂, hcost₂⟩ := hpacks.add (p := ⟨[], [1, 0], false, 1, 0⟩) (e := e)
    (by rw [hsize]; decide) (by rw [hs]; rfl) (by rw [hsize]; decide) (Or.inl (by decide))
  obtain ⟨p₃, hp₃, hle₃, hcost₃⟩ := hpacks.flushIf (p := p₂) (c := 0 < p₂.block.length)
    List.length_pos_iff.mp hle₂
  have hout := Packing.out_le_cost s p₃
  have hcost₁ : Packing.cost s ⟨[], [1, 0], false, 1, 0⟩ = 26 := by
    rw [Packing.cost, hsize]
    rfl
  rw [hcost₁, hsize] at hcost₂
  rw [hsize] at hcost₃ hout
  refine exists_log (n := 10) (p := p₃) (by decide) (fun _ => Nat.le_refl 10) ?_ ?_ ?_ ?_
  · intro c hc
    simp only [largeCalls, List.mem_cons, List.not_mem_nil, or_false] at hc
    rcases hc with rfl | rfl <;> (intro h; cases h)
  · rw [← hs, pack_append, show largeCalls e = [.add (.put (.of []) (.of []))] ++ [.add e] from rfl,
      pack_append, h₁, Option.bind_some, Packing.call, hp₂, Option.bind_some]
    exact hp₃
  · have h84 : logHeaderSize = 84 := rfl
    have hmax : maxFileSize = 2 ^ 63 - 1 := rfl
    rw [Packing.Fits]
    omega
  · show 2 ≤ 84
    decide

omit [Compressors] in
/-- A head that the writer splits is not found by `next`. -/
theorem next_of_largeEntry :
    letI := literalCompressors
    ∃ w w' log iter e, Writing .snappy 10 (largeCalls largeEntry) w ∧
      logwriterFlush.run w = .ok () w' ∧ logreaderOpen (some w'.fd.data) = .ok log ∧
      entriesOf (largeCalls largeEntry) = [e, largeEntry] ∧ Stop log 0 iter ∧
      StandsAt log iter e [largeEntry] ∧
      ¬ ∃ iter', (logiterNext log).run iter = .ok () iter' ∧ LandsOn log iter' [largeEntry] := by
  let := literalCompressors
  have hz : (Setting.of .snappy 10).Lossless := fun _ => lossless_snappyLiteral
  obtain ⟨w, w', log, hw, hfl, hopen⟩ := exists_largeLog length_bytes_largeEntry
  obtain ⟨blocks, hc⟩ := carries_of_flush hw hz hfl hopen
  have hset := setting_of_flush hw hfl hopen
  obtain ⟨e₀, he₀⟩ : ∃ e₀ : Entry, e₀ = .put (.of []) (.of []) := ⟨_, rfl⟩
  have hes : entriesOf (largeCalls largeEntry) = [e₀, largeEntry] := by
    rw [he₀]
    rfl
  rw [hes] at hc
  have hfit : ∀ e ∈ [e₀, largeEntry].take 1, HeadFits log.header.setting e := by
    intro e he
    rw [List.mem_singleton.mp he, hset, he₀]
    exact fun _ => by decide
  obtain ⟨iter, hstop⟩ := exists_stop hc (k := 0) (Nat.succ_pos _) hfit
  obtain ⟨e, he, hstands, hu⟩ := hstop.standsAt hc hfit
  cases he
  refine ⟨w, w', log, iter, e₀, hw, hfl, hopen, hes, hstop, hstands, ?_⟩
  have hc₀ : log.Carries blocks ([] ++ e₀ :: [largeEntry]) := hc
  have hc₁ : log.Carries blocks ([e₀] ++ [largeEntry]) := hc
  rw [(hstands.inside hc₀ hu).approaches.lands_iff hc₁, hset]
  intro hlarge
  have hle : largeEntry.header.length ≤ 10 := hlarge largeEntry rfl rfl
  rw [length_header_largeEntry] at hle
  exact absurd hle (by decide)

end Sparkey
