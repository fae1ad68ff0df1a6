import Sparkey.Reader.Facing

/-!
# Iterators that are nearly the same

A block that is loaded leaves the rest of the buffer as it was, and `reset` does not put
the number of the entry back.  Two iterators that differ in nothing else (`Alike`)
answer every call for pieces of their entry alike, and become the same but for the buffer
when they go on to another block (`Near`).
-/

namespace Sparkey

open Program

/-! ### Overwriting the start of a buffer -/

theorem drop_overwrite {n : Nat} {buf buf' : List UInt8} (h : buf'.drop n = buf.drop n)
    (out : List UInt8) :
    (out ++ buf'.drop out.length).drop n = (out ++ buf.drop out.length).drop n := by
  have hdrop : ∀ l : List UInt8, (l.drop out.length).drop (n - out.length)
      = (l.drop n).drop (out.length - n) := by
    intro l
    rw [List.drop_drop, List.drop_drop]
    congr 1
    omega
  rw [List.drop_append, List.drop_append, hdrop, hdrop, h]

/-! ### The relation -/

def SameTail (log : Logreader) (iter iter' : Logiter) : Prop :=
  usesCompressor log.header.compressionType = true →
    iter'.compressionBuf.drop log.header.compressionBlockSize
      = iter.compressionBuf.drop log.header.compressionBlockSize

/-- The same iterator up to the buffer behind its block, with `k` and `l` as the number of the
entry. -/
structure Alike (log : Logreader) (k l : Int) (iter other : Logiter) : Prop where
  same : other = { iter with entryCount := l, compressionBuf := other.compressionBuf }
  entryCount : iter.entryCount = k
  take : other.compressionBuf.take iter.blockLen = iter.compressionBuf.take iter.blockLen
  drop : SameTail log iter other

/-- The numbers may differ, if `loose`, as long as the next block begins within `n` bytes. -/
def Near (log : Logreader) (loose : Prop) (n : Nat) (iter other : Logiter) : Prop :=
  ∃ k l, Alike log k l iter other ∧ (k = l ∨ loose ∧ iter.blockLen - iter.blockOffset < n)

variable {log : Logreader} {iter other iter' other' iter₀ : Logiter} {k l : Int} {loose : Prop} {m n : Nat}

theorem Near.mono (h : Near log loose m iter other) (hle : m ≤ n) : Near log loose n iter other := by
  obtain ⟨k, l, halike, hcount⟩ := h
  exact ⟨k, l, halike, hcount.imp_right fun ⟨ho, hlt⟩ => ⟨ho, Nat.lt_of_lt_of_le hlt hle⟩⟩

theorem Near.map (h : Near log loose n iter other) (f : Logiter → Logiter)
    (hf : ∀ it k buf, f { it with entryCount := k, compressionBuf := buf }
      = { f it with entryCount := k, compressionBuf := buf })
    (hec : (f iter).entryCount = iter.entryCount)
    (hcb : (f iter).compressionBuf = iter.compressionBuf)
    (hbo : (f iter).blockOffset = iter.blockOffset) (hbl : (f iter).blockLen = iter.blockLen) :
    Near log loose n (f iter) (f other) := by
  obtain ⟨k, l, ⟨same, hk, take, drop⟩, hcount⟩ := h
  have hother : f other = { f iter with entryCount := l, compressionBuf := other.compressionBuf } := by
    rw [same, hf]
  refine ⟨k, l, ⟨?_, hec.trans hk, ?_, ?_⟩, ?_⟩
  · rw [hother]
  · rw [hother, hbl, hcb]
    exact take
  · rw [hother, SameTail, hcb]
    exact drop
  · rwa [hbo, hbl]

theorem Near.setRemaining (h : Near log loose n iter other) (var : Part) (r : Nat) :
    Near log loose n (iter.setRemaining var r) (other.setRemaining var r) := by
  cases var with
  | key => exact h.map (fun it => { it with keyRemaining := r }) (fun _ _ _ => rfl) rfl rfl rfl rfl
  | value => exact h.map (fun it => { it with valueRemaining := r }) (fun _ _ _ => rfl) rfl rfl rfl rfl

theorem Near.advance (h : Near log loose n iter other) (hm : m ≤ iter.blockLen - iter.blockOffset) :
    Near log loose (n - m) { iter with blockOffset := iter.blockOffset + m }
      { other with blockOffset := other.blockOffset + m } := by
  obtain ⟨k, l, ⟨same, hk, take, drop⟩, hcount⟩ := h
  refine ⟨k, l, ⟨?_, hk, take, drop⟩, hcount.imp_right fun ⟨ho, hlt⟩ => ⟨ho, ?_⟩⟩
  · rw [same]
  · show iter.blockLen - (iter.blockOffset + m) < n - m
    omega

theorem Near.imp {loose' : Prop} (h : Near log loose n iter other) (ho : loose → loose') :
    Near log loose' n iter other := by
  obtain ⟨k, l, halike, hcount⟩ := h
  exact ⟨k, l, halike, hcount.imp_right fun ⟨h, hlt⟩ => ⟨ho h, hlt⟩⟩

theorem Near.entryCount_eq (h : Near log loose 0 iter other) : other.entryCount = iter.entryCount := by
  obtain ⟨k, l, halike, hcount⟩ := h
  rw [halike.same, halike.entryCount]
  exact (hcount.resolve_right fun ⟨_, hlt⟩ => Nat.not_lt_zero _ hlt).symm

theorem Near.sameEntry (h : Near log loose n iter other) : SameEntry iter other := by
  obtain ⟨k, l, ⟨same, -, -, -⟩, -⟩ := h
  rw [same]
  exact ⟨rfl, rfl, rfl, rfl, rfl, rfl, rfl, rfl, rfl, rfl⟩

theorem Near.blockOffset (h : Near log loose n iter other) : other.blockOffset = iter.blockOffset := by
  obtain ⟨k, l, ⟨same, -, -, -⟩, -⟩ := h
  rw [same]

theorem Near.blockPosition (h : Near log loose n iter other) :
    other.blockPosition = iter.blockPosition := by
  obtain ⟨k, l, ⟨same, -, -, -⟩, -⟩ := h
  rw [same]

theorem Near.blockLen (h : Near log loose n iter other) : other.blockLen = iter.blockLen := by
  obtain ⟨k, l, ⟨same, -, -, -⟩, -⟩ := h
  rw [same]

theorem Near.take_drop (h : Near log loose n iter other) (hm : m ≤ iter.blockLen - iter.blockOffset) :
    (other.compressionBuf.drop other.blockOffset).take m
      = (iter.compressionBuf.drop iter.blockOffset).take m := by
  obtain ⟨k, l, halike, -⟩ := id h
  have hdrop : ∀ buf : List UInt8, (buf.drop iter.blockOffset).take m
      = ((buf.take iter.blockLen).drop iter.blockOffset).take m := by
    intro buf
    rw [List.drop_take, List.take_take, Nat.min_eq_left hm]
  rw [h.blockOffset, hdrop other.compressionBuf, halike.take, ← hdrop]

theorem agree_assertIterOpen {E Q : Logiter → Logiter → Prop} (hE : E iter other) (hQ : Q iter other)
    (ho : other.openStatus = iter.openStatus) (hf : other.fileIdentifier = iter.fileIdentifier) :
    Accord E Q ((assertIterOpen log).run iter) ((assertIterOpen log).run other) := by
  rw [assertIterOpen]
  refine agree_check hE fun _ => ?_
  rw [run_get_bind, run_get_bind, ho, hf]
  refine agree_check hE fun _ => ?_
  split_ifs
  · exact ⟨rfl, hE⟩
  · exact ⟨rfl, hQ⟩

variable [Compressors]

/-! ### Blocks -/

theorem Alike.seekblock (h : Alike log k l iter other) (p : Nat) :
    Accord (fun _ _ => True) (fun s t => Alike log k l s t ∧ SameEntry iter s) ((seekblock log p).run iter)
      ((seekblock log p).run other) := by
  obtain ⟨same, hk, take, drop⟩ := h
  generalize other.compressionBuf = buf at same take drop
  subst same
  simp only [Sparkey.seekblock, run_modify_bind, run_get_bind]
  by_cases hcache : iter.blockPosition = p
  · rw [if_pos hcache, if_pos hcache]
    exact ⟨rfl, ⟨rfl, hk, take, drop⟩, ⟨rfl, rfl, rfl, rfl, rfl, rfl, rfl, rfl, rfl, rfl⟩⟩
  rw [if_neg hcache, if_neg hcache]
  by_cases hu : usesCompressor log.header.compressionType = true
  · rw [if_pos hu, if_pos hu]
    cases hread : readVlq log.data p with
    | none => trivial
    | some v =>
      simp only
      by_cases hlt : log.data.length < v.2 + u32 v.1
      · rw [if_pos hlt, if_pos hlt]
        trivial
      rw [if_neg hlt, if_neg hlt]
      cases hdec : (sparkeyCompressors log.header.compressionType).decompress
          ((log.data.drop v.2).take (u32 v.1)) log.header.compressionBlockSize with
      | error spoil =>
        exact ⟨rfl, trivial⟩
      | ok output =>
        refine ⟨rfl, ⟨rfl, hk, ?_, fun hu => drop_overwrite (drop hu) output⟩, ?_⟩
        · exact List.take_left.trans List.take_left.symm
        · exact ⟨rfl, rfl, rfl, rfl, rfl, rfl, rfl, rfl, rfl, rfl⟩
  · rw [if_neg hu, if_neg hu]
    by_cases hlt : log.dataLen < p
    · rw [if_pos hlt, if_pos hlt]
      trivial
    rw [if_neg hlt, if_neg hlt]
    exact ⟨rfl, ⟨rfl, hk, rfl, fun _ => rfl⟩, ⟨rfl, rfl, rfl, rfl, rfl, rfl, rfl, rfl, rfl, rfl⟩⟩

theorem Near.ensureAvailable (h : Near log loose n iter other) :
    Accord (fun _ _ => True) (fun s t => Near log loose n s t ∧ SameEntry iter s)
      ((ensureAvailable log).run iter) ((ensureAvailable log).run other) := by
  obtain ⟨k, l, halike, hcount⟩ := id h
  have hnext : other.nextBlockPosition = iter.nextBlockPosition := by
    rw [halike.same]
  rw [Sparkey.ensureAvailable, run_get_bind, run_get_bind, h.blockOffset, h.blockLen, hnext]
  by_cases hhere : iter.blockOffset < iter.blockLen
  · rw [if_pos hhere, if_pos hhere]
    exact ⟨rfl, h, .refl iter⟩
  rw [if_neg hhere, if_neg hhere]
  by_cases hend : log.header.dataEnd ≤ iter.nextBlockPosition
  · rw [if_pos hend, if_pos hend]
    refine ⟨rfl, ⟨k, l, ⟨?_, halike.entryCount, rfl, halike.drop⟩, ?_⟩, ?_⟩
    · rw [halike.same]
    · refine hcount.imp_right fun h => ⟨h.1, ?_⟩
      have hlt := h.2
      show 0 - 0 < n
      omega
    · exact ⟨rfl, rfl, rfl, rfl, rfl, rfl, rfl, rfl, rfl, rfl⟩
  · rw [if_neg hend, if_neg hend]
    refine (halike.seekblock _).bind ?_
    rintro - s t - ⟨hst, hsame⟩
    refine ⟨rfl, ⟨-1, -1, ⟨?_, rfl, hst.take, hst.drop⟩, Or.inl rfl⟩, ?_⟩
    · rw [hst.same]
    · exact ⟨hsame.1, hsame.2, hsame.3, hsame.4, hsame.5, hsame.6, hsame.7, hsame.8, hsame.9, hsame.10⟩

theorem Near.skipLoop : ∀ (fuel : Nat) {len n : Nat} {iter other : Logiter}, len ≤ n →
    Near log loose n iter other →
    Accord (fun _ _ => True) (fun s t => Near log loose (n - len) s t ∧ SameEntry iter s)
      ((skipLoop log fuel len).run iter) ((skipLoop log fuel len).run other) := by
  intro fuel
  induction fuel with
  | zero =>
    intro len n iter other _ h
    rw [Sparkey.skipLoop]
    by_cases h0 : len = 0
    · rw [if_pos h0, h0]
      exact ⟨rfl, h, .refl iter⟩
    · rw [if_neg h0]
      trivial
  | succ fuel ih =>
    intro len n iter other hle h
    rw [Sparkey.skipLoop]
    by_cases h0 : len = 0
    · rw [if_pos h0, h0]
      exact ⟨rfl, h, .refl iter⟩
    rw [if_neg h0]
    refine h.ensureAvailable.bind ?_
    rintro - s t - ⟨hst, hsame⟩
    rw [run_get_bind, run_get_bind, run_set_bind, run_set_bind, hst.blockLen, hst.blockOffset]
    obtain ⟨m, hm⟩ : ∃ m, m = min len (s.blockLen - s.blockOffset) := ⟨_, rfl⟩
    rw [← hm]
    have hadv := hst.advance (m := m) (by omega)
    rw [hst.blockOffset, hst.blockLen] at hadv
    refine (ih (show len - m ≤ n - m by omega) hadv).mono (fun _ _ h => h) ?_
    rintro s' t' ⟨hst', hsame'⟩
    refine ⟨hst'.mono (by omega), hsame.trans ?_⟩
    exact ⟨hsame'.1, hsame'.2, hsame'.3, hsame'.4, hsame'.5, hsame'.6, hsame'.7, hsame'.8, hsame'.9,
      hsame'.10⟩

/-- Passing over some of the bytes within which the next block begins. -/
theorem Near.skip {len : Nat} (hle : len ≤ n) (h : Near log loose n iter other) :
    Accord (fun _ _ => True) (fun s t => Near log loose (n - len) s t ∧ SameEntry iter s)
      ((skip log len).run iter) ((skip log len).run other) :=
  Near.skipLoop _ hle h

/-! ### The functions for the current entry -/

/-- The same iterator at the entry of `iter₀`, up to the number of the entry as long as some of it
comes in the next block. -/
structure Kin (log : Logreader) (loose : Prop) (iter₀ iter other : Logiter) : Prop where
  near : Near log loose (iter.keyRemaining + iter.valueRemaining) iter other
  state : iter.state = iter₀.state
  head : SameHead iter₀ iter

theorem Kin.chunk (h : Kin log loose iter₀ iter other) (maxlen : Nat) (var : Part) :
    Accord (fun _ _ => True) (Kin log loose iter₀) ((logiterChunk log maxlen var).run iter)
      ((logiterChunk log maxlen var).run other) := by
  have hsame := h.near.sameEntry
  rw [logiterChunk]
  refine (agree_assertIterOpen (E := fun _ _ => True) (Q := Kin log loose iter₀) trivial h hsame.openStatus
    hsame.fileIdentifier).bind ?_
  rintro - s t - h
  have hsame := h.near.sameEntry
  have hrem : t.remaining var = s.remaining var := by
    cases var
    · exact hsame.keyRemaining
    · exact hsame.valueRemaining
  rw [run_get_bind, run_get_bind, hsame.state, hrem]
  by_cases hactive : s.state = .active
  case neg =>
    rw [if_pos hactive]
    exact ⟨rfl, trivial⟩
  rw [if_neg (not_not_intro hactive)]
  by_cases hpos : 0 < s.remaining var
  · rw [if_pos hpos]
    refine h.near.ensureAvailable.bind ?_
    rintro - s' t' - ⟨hst, hsame'⟩
    have hrem' : t'.remaining var = s'.remaining var := by
      cases var
      · exact hst.sameEntry.keyRemaining
      · exact hst.sameEntry.valueRemaining
    have hsum : s'.keyRemaining + s'.valueRemaining = s.keyRemaining + s.valueRemaining := by
      rw [hsame'.keyRemaining, hsame'.valueRemaining]
    rw [run_get_bind, run_get_bind, run_set_bind, run_set_bind, hrem', hst.blockLen, hst.blockOffset]
    obtain ⟨m, hm⟩ : ∃ m, m = min maxlen (min (s'.remaining var) (s'.blockLen - s'.blockOffset)) :=
      ⟨_, rfl⟩
    have hres := hst.take_drop (m := m) (by omega)
    have hadv := hst.advance (m := m) (by omega)
    rw [hst.blockOffset] at hres
    rw [hst.blockOffset, hst.blockLen] at hadv
    rw [← hm, hres]
    refine ⟨rfl, ?_, ?_, ?_⟩
    · refine (hadv.setRemaining var _).mono ?_
      cases var with
      | key =>
        have : m ≤ s'.keyRemaining := by
          rw [hm]
          exact Nat.le_trans (Nat.min_le_right _ _) (Nat.min_le_left _ _)
        show _ ≤ s'.keyRemaining - m + s'.valueRemaining
        omega
      | value =>
        have : m ≤ s'.valueRemaining := by
          rw [hm]
          exact Nat.le_trans (Nat.min_le_right _ _) (Nat.min_le_left _ _)
        show _ ≤ s'.keyRemaining + (s'.valueRemaining - m)
        omega
    · cases var <;> exact hsame'.state.trans h.state
    · have hhead := h.head.trans hsame'.sameHead
      cases var <;> exact ⟨hhead.1, hhead.2, hhead.3, hhead.4, hhead.5⟩
  · rw [if_neg hpos]
    exact ⟨rfl, h⟩

theorem Kin.valuechunk (h : Kin log loose iter₀ iter other) (maxlen : Nat) :
    Accord (fun _ _ => True) (Kin log loose iter₀) ((logiterValuechunk log maxlen).run iter)
      ((logiterValuechunk log maxlen).run other) := by
  rw [logiterValuechunk, run_get_bind, run_get_bind, h.near.sameEntry.keyRemaining]
  refine (h.near.skip (Nat.le_add_right _ _)).bind ?_
  rintro - s t - ⟨hst, hsame⟩
  rw [run_modify_bind, run_modify_bind]
  have hkin : Kin log loose iter₀ { s with keyRemaining := 0 } { t with keyRemaining := 0 } := by
    refine ⟨(hst.setRemaining .key 0).mono ?_, hsame.state.trans h.state, ?_⟩
    · show _ ≤ 0 + s.valueRemaining
      rw [hsame.valueRemaining, Nat.zero_add, Nat.add_sub_cancel_left]
    · have hhead := h.head.trans hsame.sameHead
      exact ⟨hhead.1, hhead.2, hhead.3, hhead.4, hhead.5⟩
  exact hkin.chunk maxlen .value

omit [Compressors] in
theorem agree_fillLoop {E R : Logiter → Logiter → Prop} {chunk : Nat → Run Logiter (List UInt8)}
    (hchunk : ∀ maxlen iter other, R iter other →
      Accord E R ((chunk maxlen).run iter) ((chunk maxlen).run other)) :
    ∀ (fuel maxlen : Nat) (filled : List UInt8) {iter other : Logiter}, R iter other →
      Accord E R ((fillLoop chunk fuel maxlen filled).run iter)
        ((fillLoop chunk fuel maxlen filled).run other) := by
  intro fuel
  induction fuel with
  | zero =>
    intro maxlen filled iter other h
    rw [fillLoop]
    split_ifs
    · exact ⟨rfl, h⟩
    · trivial
  | succ fuel ih =>
    intro maxlen filled iter other h
    rw [fillLoop]
    by_cases h0 : maxlen = 0
    · rw [if_pos h0]
      exact ⟨rfl, h⟩
    rw [if_neg h0]
    refine (hchunk maxlen iter other h).bind ?_
    rintro res s t - hst
    split_ifs
    · exact ⟨rfl, hst⟩
    · exact ih _ _ hst

theorem Kin.fillKey (h : Kin log loose iter₀ iter other) (maxlen : Nat) :
    Accord (fun _ _ => True) (Kin log loose iter₀) ((logiterFillKey log maxlen).run iter)
      ((logiterFillKey log maxlen).run other) := by
  rw [logiterFillKey, run_get_bind, run_get_bind, h.near.sameEntry.keyRemaining]
  exact agree_fillLoop (fun maxlen _ _ h => h.chunk maxlen .key) _ _ _ h

theorem Kin.fillValue (h : Kin log loose iter₀ iter other) (maxlen : Nat) :
    Accord (fun _ _ => True) (Kin log loose iter₀) ((logiterFillValue log maxlen).run iter)
      ((logiterFillValue log maxlen).run other) := by
  rw [logiterFillValue, run_get_bind, run_get_bind, h.near.sameEntry.valueRemaining]
  exact agree_fillLoop (fun maxlen _ _ h => h.valuechunk maxlen) _ _ _ h

theorem Alike.reset (h : Alike log k l iter other) :
    Accord (fun _ _ => True) (fun s t => Alike log k l s t ∧ SameHead iter s) ((logiterReset log).run iter)
      ((logiterReset log).run other) := by
  have hstate : other.state = iter.state := by
    rw [h.same]
  have hpos : other.entryBlockPosition = iter.entryBlockPosition := by
    rw [h.same]
  rw [logiterReset, run_get_bind, run_get_bind, hstate, hpos]
  by_cases hactive : iter.state = .active
  case neg =>
    rw [if_pos hactive]
    exact ⟨rfl, trivial⟩
  rw [if_neg (not_not_intro hactive)]
  refine (h.seekblock _).bind ?_
  rintro - s t - ⟨hst, hsame⟩
  refine ⟨rfl, ⟨?_, hst.entryCount, hst.take, hst.drop⟩, ?_⟩
  · rw [hst.same]
  · have hhead := hsame.sameHead
    exact ⟨hhead.1, hhead.2, hhead.3, hhead.4, hhead.5⟩

end Sparkey
