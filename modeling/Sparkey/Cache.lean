import Sparkey.Reader.Steady
import Sparkey.Roundtrip

/-!
# The cache of an iterator

An iterator keeps the block it read last, under the position of the block.  `seekblock` lets the
decompressor write into the buffer at once, but changes the position only when that has succeeded.
So behind a block that does not decompress the buffer may no longer be the block it is said to be.
A call that goes to another block mends this, and any other call that wants bytes takes what there is.
As long as it is not made, what calls present are the bytes of the block at `block_position`
(`inBlock_of_session`).
-/

namespace Sparkey

open Program

section

variable [Compressors] {log : Logreader} {iter iter' : Logiter}

/-! ### A cache that is lost -/

def Overwritten (log : Logreader) (iter : Logiter) : Prop :=
  ∃ b, log.BlockAt iter.blockPosition b iter.nextBlockPosition ∧ b.length = iter.blockLen ∧
    iter.compressionBuf.take iter.blockLen ≠ b

def Lost (log : Logreader) (code : Returncode) (iter : Logiter) : Prop :=
  code = .internalError ∧ Overwritten log iter

theorem cached_or_overwritten {b : List UInt8}
    (hb : log.BlockAt iter.blockPosition b iter.nextBlockPosition) (hlen : b.length = iter.blockLen) :
    Cached log iter ∨ Overwritten log iter := by
  by_cases hsame : iter.compressionBuf.take iter.blockLen = b
  · refine Or.inl (Or.inr ⟨?_, ?_⟩)
    · rw [← hsame, List.length_take] at hlen
      omega
    · rwa [hsame]
  · exact Or.inr ⟨b, hb, hlen, hsame⟩

theorem Cached.congr (h : Cached log iter) (hbp : iter'.blockPosition = iter.blockPosition)
    (hnb : iter'.nextBlockPosition = iter.nextBlockPosition) (hbl : iter'.blockLen = iter.blockLen)
    (hcb : iter'.compressionBuf = iter.compressionBuf) : Cached log iter' := by
  unfold Cached at h ⊢
  rwa [hbp, hbl, hcb, hnb]

/-- **Going to another block**: it is loaded, or does not decompress and leaves some buffer, or is not
there. -/
theorem run_seekblock_other (hc : usesCompressor log.header.compressionType = true) {p : Nat}
    (hp : iter.blockPosition ≠ p) :
    (∃ b q, log.BlockAt p b q ∧ (seekblock log p).run iter = .ok () { iter with
      blockOffset := 0
      compressionBuf := b ++ iter.compressionBuf.drop b.length
      blockPosition := p
      nextBlockPosition := q
      blockLen := b.length }) ∨
    (∃ buffer, (seekblock log p).run iter = .error (.rc .internalError) { iter with
      blockOffset := 0
      compressionBuf := buffer }) ∨
    ∃ iter', (seekblock log p).run iter = .error .stuck iter' := by
  rw [seekblock, run_modify_bind, run_get_bind, if_neg hp, if_pos hc]
  cases hread : readVlq log.data p with
  | none => exact Or.inr (Or.inr ⟨_, rfl⟩)
  | some vlq =>
    obtain ⟨size, pos⟩ := vlq
    simp only [run_ite]
    by_cases hlen : log.data.length < pos + u32 size
    · rw [if_pos hlen]
      exact Or.inr (Or.inr ⟨_, rfl⟩)
    rw [if_neg hlen]
    cases hdec : (sparkeyCompressors log.header.compressionType).decompress
        ((log.data.drop pos).take (u32 size)) log.header.compressionBlockSize with
    | error spoil => exact Or.inr (Or.inl ⟨spoil iter.compressionBuf, rfl⟩)
    | ok b =>
      refine Or.inl ⟨b, _, ?_, rfl⟩
      exact (Logreader.blockAt_compressed hc).mpr ⟨size, pos, hread, rfl, Nat.le_of_not_lt hlen, hdec⟩

theorem cached_of_seekblock (hc : usesCompressor log.header.compressionType = true) {p : Nat}
    (hp : iter.blockPosition ≠ p) {u : Unit} (h : (seekblock log p).run iter = .ok u iter') :
    Cached log iter' := by
  rcases run_seekblock_other hc hp with ⟨b, q, hb, hrun⟩ | ⟨buffer, hrun⟩ | ⟨iter₁, hrun⟩
  · rw [hrun] at h
    cases h
    refine Or.inr ⟨?_, ?_⟩
    · show b.length ≤ (b ++ iter.compressionBuf.drop b.length).length
      rw [List.length_append]
      exact Nat.le_add_right _ _
    · show log.BlockAt p ((b ++ iter.compressionBuf.drop b.length).take b.length) q
      rwa [List.take_left]
  · rw [hrun] at h
    cases h
  · rw [hrun] at h
    cases h

/-- `seekblock` keeps the cache, unless a block does not decompress. -/
theorem preservesBut_seekblock (hc : usesCompressor log.header.compressionType = true) (p : Nat) :
    PreservesBut (Lost log) (Cached log) (seekblock log p) := by
  intro iter h
  by_cases hp : iter.blockPosition = p
  · rw [seekblock, run_modify_bind, run_get_bind, if_pos hp]
    exact h.congr rfl rfl rfl rfl
  rcases run_seekblock_other hc hp with ⟨b, q, hb, hrun⟩ | ⟨buffer, hrun⟩ | ⟨iter₁, hrun⟩
  · have hcached := cached_of_seekblock hc hp hrun
    rw [hrun]
    exact hcached
  · rw [hrun]
    rcases h with h | ⟨hle, hb⟩
    · exact Or.inl (Or.inl h)
    · exact Or.imp_right (fun hover => ⟨rfl, hover⟩)
        (cached_or_overwritten (b := iter.compressionBuf.take iter.blockLen) hb
          (List.length_take_of_le hle))
  · rw [hrun]
    trivial

/-! ### The functions of the iterator -/

omit [Compressors] in
theorem preserves_assertIterOpen {I : Logiter → Prop} : Preserves I (assertIterOpen log) := by
  refine .check fun _ => .get_bind fun iter h => ?_
  exact Preserves.check (fun _ => .ite (preserves_fail _) (preserves_pure _)) iter h

theorem preservesBut_logiterSeek (hc : usesCompressor log.header.compressionType = true) (p : Nat) :
    PreservesBut (Lost log) (Cached log) (logiterSeek log p) := by
  refine preserves_assertIterOpen.but.bind fun _ => .ite ?_ ?_
  · exact (preserves_modify fun _ h => h.congr rfl rfl rfl rfl).but.bind fun _ => (preserves_pure _).but
  · exact (preservesBut_seekblock hc p).bind fun _ =>
      (preserves_modify fun _ h => h.congr rfl rfl rfl rfl).but

theorem preservesBut_ensureAvailable (hc : usesCompressor log.header.compressionType = true) :
    PreservesBut (Lost log) (Cached log) (ensureAvailable log) := by
  refine .get_bind fun iter h => ?_
  refine PreservesBut.ite (preserves_pure _).but (.ite ?_ ?_) iter h
  · exact fun _ _ => Or.inl ⟨rfl, rfl⟩
  · exact (preservesBut_seekblock hc _).bind fun _ =>
      (preserves_modify fun _ h => h.congr rfl rfl rfl rfl).but

theorem preservesBut_skip (hc : usesCompressor log.header.compressionType = true) (len : Nat) :
    PreservesBut (Lost log) (Cached log) (skip log len) := by
  unfold skip
  induction (len + log.dataLen + 1) generalizing len with
  | zero => exact .ite (preserves_pure _).but preserves_stuck.but
  | succ fuel ih =>
    refine .ite (preserves_pure _).but ((preservesBut_ensureAvailable hc).bind fun _ => ?_)
    exact .get_bind fun iter h => ih _ _ (h.congr rfl rfl rfl rfl)

theorem preserves_readEntry_cached (hc : usesCompressor log.header.compressionType = true) :
    Preserves (Cached log) (readEntry log) := by
  have hne : log.header.compressionType ≠ .none := by
    intro h
    rw [h] at hc
    cases hc
  refine .get_bind fun iter h => ?_
  by_cases hend : iter.blockLen - iter.blockOffset = 0
  · rw [if_pos hend]
    exact h.congr rfl rfl rfl rfl
  rw [if_neg hend, if_neg hne, readHead, run_modify_bind, run_get_bind]
  simp only
  split
  · trivial
  split
  · trivial
  split_ifs <;> exact h.congr rfl rfl rfl rfl

theorem preservesBut_logiterNext (hc : usesCompressor log.header.compressionType = true) :
    PreservesBut (Lost log) (Cached log) (logiterNext log) := by
  refine .get_bind fun iter h => ?_
  by_cases hclosed : iter.state = .closed
  · rw [if_pos hclosed]
    exact h
  rw [if_neg hclosed, run_set_bind]
  have hrest : PreservesBut (Lost log) (Cached log) (do
      assertIterOpen log
      skip log (if iter.state = .active then iter.keyRemaining else 0)
      skip log (if iter.state = .active then iter.valueRemaining else 0)
      ensureAvailable log
      readEntry log) :=
    preserves_assertIterOpen.but.bind fun _ => (preservesBut_skip hc _).bind fun _ =>
      (preservesBut_skip hc _).bind fun _ => (preservesBut_ensureAvailable hc).bind fun _ =>
        (preserves_readEntry_cached hc).but
  exact hrest _ (h.congr rfl rfl rfl rfl)

theorem preservesBut_logiterSkip (hc : usesCompressor log.header.compressionType = true)
    (count : Nat) : PreservesBut (Lost log) (Cached log) (logiterSkip log count) := by
  induction count with
  | zero => exact (preserves_pure _).but
  | succ count ih => exact (preservesBut_logiterNext hc).bind fun _ => ih

theorem preservesBut_logiterReset (hc : usesCompressor log.header.compressionType = true) :
    PreservesBut (Lost log) (Cached log) (logiterReset log) := by
  refine .get_bind fun iter h => PreservesBut.check (fun _ => ?_) iter h
  exact (preservesBut_seekblock hc _).bind fun _ =>
    (preserves_modify fun _ h => h.congr rfl rfl rfl rfl).but

theorem preservesBut_logiterChunk (hc : usesCompressor log.header.compressionType = true)
    (maxlen : Nat) (var : Part) :
    PreservesBut (Lost log) (Cached log) (logiterChunk log maxlen var) := by
  refine preserves_assertIterOpen.but.bind fun _ => .get_bind fun iter h => ?_
  refine PreservesBut.check (fun _ => .ite ?_ (preserves_pure _).but) iter h
  refine (preservesBut_ensureAvailable hc).bind fun _ => .get_bind fun iter h => ?_
  cases var <;> exact h.congr rfl rfl rfl rfl

theorem preservesBut_logiterValuechunk (hc : usesCompressor log.header.compressionType = true)
    (maxlen : Nat) : PreservesBut (Lost log) (Cached log) (logiterValuechunk log maxlen) :=
  .get_bind fun iter h => ((preservesBut_skip hc _).bind fun _ =>
    (preserves_modify fun _ h => h.congr rfl rfl rfl rfl).but.bind fun _ =>
      preservesBut_logiterChunk hc maxlen .value) iter h

theorem preservesBut_fillLoop {chunk : Nat → Run Logiter (List UInt8)}
    (hchunk : ∀ maxlen, PreservesBut (Lost log) (Cached log) (chunk maxlen)) : ∀ (fuel maxlen : Nat)
    (filled : List UInt8), PreservesBut (Lost log) (Cached log) (fillLoop chunk fuel maxlen filled) := by
  intro fuel
  induction fuel with
  | zero => exact fun _ _ => .ite (preserves_pure _).but preserves_stuck.but
  | succ fuel ih =>
    intro maxlen filled
    refine .ite (preserves_pure _).but ((hchunk maxlen).bind fun res => ?_)
    exact .ite (preserves_pure _).but (ih _ _)

theorem LogCall.preservesBut (hc : usesCompressor log.header.compressionType = true) (c : LogCall) :
    PreservesBut (Lost log) (Cached log) (c.program log) := by
  cases c with
  | next => exact (preservesBut_logiterNext hc).bind fun _ => (preserves_pure _).but
  | skip count => exact (preservesBut_logiterSkip hc count).bind fun _ => (preserves_pure _).but
  | seek position => exact (preservesBut_logiterSeek hc position).bind fun _ => (preserves_pure _).but
  | reset => exact (preservesBut_logiterReset hc).bind fun _ => (preserves_pure _).but
  | keychunk maxlen => exact preservesBut_logiterChunk hc maxlen .key
  | valuechunk maxlen => exact preservesBut_logiterValuechunk hc maxlen
  | fillKey maxlen =>
    exact .get_bind fun iter h =>
      preservesBut_fillLoop (fun m => preservesBut_logiterChunk hc m .key) _ _ _ iter h
  | fillValue maxlen =>
    exact .get_bind fun iter h =>
      preservesBut_fillLoop (preservesBut_logiterValuechunk hc) _ _ _ iter h

/-! ### Calls on an iterator -/

/-- A call that does without the block in the buffer. -/
def LogCall.Avoids (log : Logreader) (iter : Logiter) : LogCall → Prop
  | next => iter.state = .closed
  | skip count => count = 0 ∨ iter.state = .closed
  | seek position => position = log.header.dataEnd ∨ position ≠ iter.blockPosition
  | reset => iter.state ≠ .active ∨ iter.entryBlockPosition ≠ iter.blockPosition
  | keychunk _ => iter.state ≠ .active ∨ iter.keyRemaining = 0
  | valuechunk _ => iter.keyRemaining = 0 ∧ (iter.state ≠ .active ∨ iter.valueRemaining = 0)
  | fillKey maxlen => maxlen = 0 ∨ iter.state ≠ .active ∨ iter.keyRemaining = 0
  | fillValue maxlen => maxlen = 0 ∨
      iter.keyRemaining = 0 ∧ (iter.state ≠ .active ∨ iter.valueRemaining = 0)

def LogCall.reloads (log : Logreader) : LogCall → Bool
  | seek position => position ≠ log.header.dataEnd
  | reset => true
  | _ => false

/-- What a failing call may leave behind: the iterator as it is then, and where a block did not
decompress, with any other buffer in it. -/
def BehindError (code : Returncode) (iter iter' : Logiter) : Prop :=
  iter' = iter ∨ code = .internalError ∧ ∃ buffer, iter' = { iter with compressionBuf := buffer }

/-- An iterator after any calls, and whether its cache is lost: some block did not decompress and
overwrote the buffer, and none has been loaded since.  As long as it is lost, calls do without it. -/
inductive Session (log : Logreader) : Bool → Logiter → Prop
  | create {unset iter : Logiter} : logiterCreate unset log = .ok iter → Session log false iter
  | ok {lost : Bool} {iter iter' : Logiter} {bytes : List UInt8} (c : LogCall) :
      Session log lost iter → (lost = true → c.Avoids log iter) →
      (c.program log).run iter = .ok bytes iter' → Session log (lost && !c.reloads log) iter'
  | error {lost lost' : Bool} {iter iter' iter'' : Logiter} {code : Returncode} (c : LogCall) :
      Session log lost iter → (lost = true → c.Avoids log iter) →
      (c.program log).run iter = .error (.rc code) iter' → BehindError code iter' iter'' →
      (lost' = true ↔ lost = true ∨ Lost log code iter'') → Session log lost' iter''

/-- The bytes are those of the block at `block_position`, up to the place the iterator is at. -/
def InBlock (log : Logreader) (iter : Logiter) (bytes : List UInt8) : Prop :=
  bytes = [] ∨ ∃ b q, log.BlockAt iter.blockPosition b q ∧ iter.blockOffset ≤ b.length ∧
    bytes.length ≤ iter.blockOffset ∧
    (b.drop (iter.blockOffset - bytes.length)).take bytes.length = bytes

/-- A call that presents the bytes of one block only. -/
def LogCall.Single : LogCall → Prop
  | fillKey _ => False
  | fillValue _ => False
  | _ => True

/-! ### Calls that do without the block -/

variable {lost : Bool} {bytes : List UInt8} {c : LogCall}

omit [Compressors] in
theorem eq_of_assertIterOpen {u : Unit} (h : (assertIterOpen log).run iter = .ok u iter') : iter' = iter :=
  (preserves_assertIterOpen (I := (· = iter))).but.of_ok (E := fun _ _ => False) rfl h

theorem logiterChunk_spent {maxlen : Nat} {var : Part}
    (hspent : iter.state ≠ .active ∨ iter.remaining var = 0)
    (h : (logiterChunk log maxlen var).run iter = .ok bytes iter') : bytes = [] ∧ iter' = iter := by
  obtain ⟨u, iter₁, hopen, hrest⟩ := ok_bind h
  obtain rfl := eq_of_assertIterOpen hopen
  rw [run_get_bind] at hrest
  by_cases hs : iter₁.state ≠ .active
  · rw [if_pos hs] at hrest
    cases hrest
  · rw [if_neg hs, if_neg (Nat.not_lt_of_le (Nat.le_of_eq (hspent.resolve_left hs)))] at hrest
    cases hrest
    exact ⟨rfl, rfl⟩

theorem logiterValuechunk_spent {maxlen : Nat} (hkey : iter.keyRemaining = 0)
    (hspent : iter.state ≠ .active ∨ iter.remaining .value = 0)
    (h : (logiterValuechunk log maxlen).run iter = .ok bytes iter') : bytes = [] ∧ iter' = iter := by
  have hskip : (skip log iter.keyRemaining).run iter = .ok () iter := by
    rw [hkey]
    rfl
  have hsame : ({ iter with keyRemaining := 0 } : Logiter) = iter := by rw [← hkey]
  rw [logiterValuechunk, run_get_bind, run_bind_ok hskip, run_modify_bind, hsame] at h
  exact logiterChunk_spent hspent h

omit [Compressors] in
theorem fillLoop_spent {chunk : Nat → Run Logiter (List UInt8)}
    (hchunk : ∀ maxlen bytes iter', (chunk maxlen).run iter = .ok bytes iter' → bytes = [] ∧ iter' = iter)
    {fuel maxlen : Nat} (h : (fillLoop chunk (fuel + 1) maxlen []).run iter = .ok bytes iter') :
    bytes = [] ∧ iter' = iter := by
  rw [fillLoop] at h
  by_cases h0 : maxlen = 0
  · rw [if_pos h0] at h
    cases h
    exact ⟨rfl, rfl⟩
  rw [if_neg h0] at h
  obtain ⟨res, iter₁, hres, hrest⟩ := ok_bind h
  obtain ⟨rfl, rfl⟩ := hchunk _ _ _ hres
  rw [if_pos List.length_nil] at hrest
  cases hrest
  exact ⟨rfl, rfl⟩

theorem run_logiterSkip_closed (hclosed : iter.state = .closed) (count : Nat) :
    (logiterSkip log count).run iter = .ok () iter := by
  induction count with
  | zero => rfl
  | succ count ih =>
    rw [logiterSkip, run_bind_ok (run_logiterNext_closed hclosed), ih]

/-- **A call that does without the block** presents nothing, and has loaded another block, closed
the iterator or changed nothing. -/
theorem LogCall.Avoids.ok (hc : usesCompressor log.header.compressionType = true)
    (ha : c.Avoids log iter) (h : (c.program log).run iter = .ok bytes iter') :
    bytes = [] ∧ (Cached log iter' ∨ c.reloads log = false ∧ (iter'.state = .closed ∨ iter' = iter)) := by
  cases c with
  | next =>
    rw [LogCall.program, run_bind_ok (run_logiterNext_closed ha)] at h
    cases h
    exact ⟨rfl, Or.inr ⟨rfl, Or.inr rfl⟩⟩
  | skip count =>
    have hskip : (logiterSkip log count).run iter = .ok () iter := by
      rcases ha with rfl | hclosed
      · rfl
      · exact run_logiterSkip_closed hclosed count
    rw [LogCall.program, run_bind_ok hskip] at h
    cases h
    exact ⟨rfl, Or.inr ⟨rfl, Or.inr rfl⟩⟩
  | seek position =>
    obtain ⟨u, iter₁, hseek, h⟩ := ok_bind h
    cases h
    refine ⟨rfl, ?_⟩
    obtain ⟨v, iter₂, hopen, hrest⟩ := ok_bind hseek
    obtain rfl := eq_of_assertIterOpen hopen
    by_cases hend : position = log.header.dataEnd
    · rw [if_pos hend] at hrest
      cases hrest
      exact Or.inr ⟨by simp [LogCall.reloads, hend], Or.inl rfl⟩
    · rw [if_neg hend] at hrest
      obtain ⟨w, iter₃, hload, hlast⟩ := ok_bind hrest
      have hcached := cached_of_seekblock hc (ha.resolve_left hend).symm hload
      cases hlast
      exact Or.inl (hcached.congr rfl rfl rfl rfl)
  | reset =>
    obtain ⟨u, iter₁, hreset, h⟩ := ok_bind h
    cases h
    refine ⟨rfl, Or.inl ?_⟩
    rw [logiterReset, run_get_bind] at hreset
    by_cases hs : iter.state ≠ .active
    · rw [if_pos hs] at hreset
      cases hreset
    · rw [if_neg hs] at hreset
      obtain ⟨w, iter₂, hload, hlast⟩ := ok_bind hreset
      have hcached := cached_of_seekblock hc (ha.resolve_left hs).symm hload
      cases hlast
      exact hcached.congr rfl rfl rfl rfl
  | keychunk maxlen =>
    have hspent : iter.state ≠ .active ∨ iter.remaining .key = 0 := ha
    obtain ⟨hbytes, hsame⟩ := logiterChunk_spent hspent h
    exact ⟨hbytes, Or.inr ⟨rfl, Or.inr hsame⟩⟩
  | valuechunk maxlen =>
    obtain ⟨hbytes, hsame⟩ := logiterValuechunk_spent ha.1 ha.2 h
    exact ⟨hbytes, Or.inr ⟨rfl, Or.inr hsame⟩⟩
  | fillKey maxlen =>
    rw [LogCall.program, logiterFillKey, run_get_bind] at h
    rcases ha with rfl | ha
    · cases h
      exact ⟨rfl, Or.inr ⟨rfl, Or.inr rfl⟩⟩
    · have hspent : iter.state ≠ .active ∨ iter.remaining .key = 0 := ha
      obtain ⟨hbytes, hsame⟩ := fillLoop_spent (fun _ _ _ h => logiterChunk_spent hspent h) h
      exact ⟨hbytes, Or.inr ⟨rfl, Or.inr hsame⟩⟩
  | fillValue maxlen =>
    rw [LogCall.program, logiterFillValue, run_get_bind] at h
    rcases ha with rfl | ha
    · cases h
      exact ⟨rfl, Or.inr ⟨rfl, Or.inr rfl⟩⟩
    · obtain ⟨hbytes, hsame⟩ := fillLoop_spent (fun _ _ _ h => logiterValuechunk_spent ha.1 ha.2 h) h
      exact ⟨hbytes, Or.inr ⟨rfl, Or.inr hsame⟩⟩

/-! ### What is presented -/

theorem BehindError.cached_or_lost {code : Returncode} (h : BehindError code iter iter')
    (hiter : Cached log iter ∨ Lost log code iter) : Cached log iter' ∨ Lost log code iter' := by
  rcases h with rfl | ⟨rfl, buffer, rfl⟩
  · exact hiter
  rcases hiter with (hnone | ⟨hle, hb⟩) | ⟨-, b, hb, hlen, -⟩
  · exact Or.inl (Or.inl hnone)
  · exact Or.imp_right (fun hover => ⟨rfl, hover⟩) (cached_or_overwritten hb (List.length_take_of_le hle))
  · exact Or.imp_right (fun hover => ⟨rfl, hover⟩) (cached_or_overwritten hb hlen)

theorem Session.cached (hc : usesCompressor log.header.compressionType = true)
    (h : Session log lost iter) : lost = false → Cached log iter := by
  induction h with
  | create hcreate =>
    intro _
    unfold logiterCreate at hcreate
    split_ifs at hcreate
    cases hcreate
    exact Or.inl ⟨rfl, rfl⟩
  | @ok lost _ _ _ c _ havoid hrun ih =>
    intro hlost
    cases lost with
    | false => exact (c.preservesBut hc).of_ok (ih rfl) hrun
    | true =>
      rcases ((havoid rfl).ok hc hrun).2 with hcached | ⟨hreloads, -⟩
      · exact hcached
      · rw [hreloads] at hlost
        cases hlost
  | @error lost lost' _ _ _ code c _ _ hrun hleaves hiff ih =>
    intro hlost
    have hnot : ¬ (lost = true ∨ Lost log code _) := fun h => by
      rw [hiff.mpr h] at hlost
      cases hlost
    obtain ⟨hfalse, hkept⟩ := not_or.mp hnot
    have hleft := (c.preservesBut hc).of_error (ih (Bool.not_eq_true _ ▸ hfalse)) hrun
    exact (hleaves.cached_or_lost hleft).resolve_right hkept

theorem inBlock_of_logiterChunk (hc : usesCompressor log.header.compressionType = true)
    {maxlen : Nat} {var : Part} (hcached : Cached log iter)
    (h : (logiterChunk log maxlen var).run iter = .ok bytes iter') : InBlock log iter' bytes := by
  obtain ⟨u, iter₁, hopen, hrest⟩ := ok_bind h
  obtain rfl := eq_of_assertIterOpen hopen
  rw [run_get_bind] at hrest
  by_cases hs : iter₁.state ≠ .active
  · rw [if_pos hs] at hrest
    cases hrest
  rw [if_neg hs] at hrest
  by_cases hrem : 0 < iter₁.remaining var
  · rw [if_pos hrem] at hrest
    obtain ⟨v, iter₂, havail, hlast⟩ := ok_bind hrest
    have hcached₂ := (preservesBut_ensureAvailable hc).of_ok hcached havail
    rw [run_get_bind] at hlast
    obtain ⟨m, hm⟩ : ∃ m, m = min maxlen (min (iter₂.remaining var) (iter₂.blockLen - iter₂.blockOffset)) :=
      ⟨_, rfl⟩
    simp only [← hm] at hlast
    by_cases h0 : m = 0
    · subst h0
      cases hlast
      exact Or.inl rfl
    obtain ⟨hle, hb⟩ := hcached₂.resolve_left fun hnone => by omega
    have hbytes : bytes = (iter₂.compressionBuf.drop iter₂.blockOffset).take m := by
      cases hlast
      rfl
    have hlen : bytes.length = m := by
      rw [hbytes, List.length_take, List.length_drop]
      omega
    have hplace : iter'.blockOffset = iter₂.blockOffset + m ∧ iter'.blockPosition = iter₂.blockPosition := by
      cases hlast
      cases var <;> exact ⟨rfl, rfl⟩
    refine Or.inr ⟨_, _, hplace.2 ▸ hb, ?_, ?_, ?_⟩
    · rw [hplace.1, List.length_take]
      omega
    · rw [hplace.1, hlen]
      omega
    · rw [hplace.1, hlen, Nat.add_sub_cancel, hbytes, List.drop_take, List.take_take]
      congr 1
      omega
  · rw [if_neg hrem] at hrest
    cases hrest
    exact Or.inl rfl

/-- **What a call presents is in the block at `block_position`**, and the buffer holds this block,
as long as calls do without a cache that is lost. -/
theorem inBlock_of_session (hc : usesCompressor log.header.compressionType = true)
    (h : Session log lost iter) (havoid : lost = true → c.Avoids log iter)
    (hrun : (c.program log).run iter = .ok bytes iter') :
    (c.Single → InBlock log iter' bytes) ∧
      (Cached log iter' ∨ lost = true ∧ (iter'.state = .closed ∨ iter' = iter)) := by
  cases lost with
  | true =>
    obtain ⟨rfl, hloaded⟩ := (havoid rfl).ok hc hrun
    exact ⟨fun _ => Or.inl rfl, hloaded.imp_right fun ⟨_, hsame⟩ => ⟨rfl, hsame⟩⟩
  | false =>
    have hcached := h.cached hc rfl
    refine ⟨fun hsingle => ?_, Or.inl ((c.preservesBut hc).of_ok hcached hrun)⟩
    cases c with
    | next =>
      obtain ⟨u, iter₁, -, hrun⟩ := ok_bind hrun
      cases hrun
      exact Or.inl rfl
    | skip count =>
      obtain ⟨u, iter₁, -, hrun⟩ := ok_bind hrun
      cases hrun
      exact Or.inl rfl
    | seek position =>
      obtain ⟨u, iter₁, -, hrun⟩ := ok_bind hrun
      cases hrun
      exact Or.inl rfl
    | reset =>
      obtain ⟨u, iter₁, -, hrun⟩ := ok_bind hrun
      cases hrun
      exact Or.inl rfl
    | keychunk maxlen => exact inBlock_of_logiterChunk hc hcached hrun
    | valuechunk maxlen =>
      rw [LogCall.program, logiterValuechunk, run_get_bind] at hrun
      obtain ⟨u, iter₁, hskip, hrun⟩ := ok_bind hrun
      have hcached₁ : Cached log { iter₁ with keyRemaining := 0 } :=
        ((preservesBut_skip hc _).of_ok hcached hskip).congr rfl rfl rfl rfl
      exact inBlock_of_logiterChunk hc hcached₁ hrun
    | fillKey maxlen => exact hsingle.elim
    | fillValue maxlen => exact hsingle.elim

/-! ### The replies to a list of calls -/

def replies (log : Logreader) :
    List LogCall → Logiter → Option (List (Except Returncode (List UInt8)) × Logiter)
  | [], iter => some ([], iter)
  | c :: cs, iter =>
    match (c.program log).run iter with
    | .ok bytes iter' => (replies log cs iter').map fun (l, last) => (.ok bytes :: l, last)
    | .error (.rc code) iter' => (replies log cs iter').map fun (l, last) => (.error code :: l, last)
    | .error .stuck _ => none

def repliesOf (file : List UInt8) (cs : List LogCall) :
    Option (Logreader × List (Except Returncode (List UInt8)) × Logiter) :=
  match logreaderOpen (some file) with
  | .error _ => none
  | .ok log =>
    match logiterCreate zeroLogiter log with
    | .error _ => none
    | .ok iter => (replies log cs iter).map fun r => (log, r)

variable {file : List UInt8} {cs : List LogCall} {l : List (Except Returncode (List UInt8))}
  {last : Logiter}

theorem exists_of_repliesOf (h : repliesOf file cs = some (log, l, last)) :
    ∃ iter, logreaderOpen (some file) = .ok log ∧ logiterCreate zeroLogiter log = .ok iter ∧
      replies log cs iter = some (l, last) := by
  rw [repliesOf] at h
  split at h
  · cases h
  next log' hlog =>
  split at h
  · cases h
  next iter hiter =>
  obtain ⟨r, hreplies, heq⟩ := Option.map_eq_some_iff.mp h
  cases heq
  exact ⟨iter, hlog, hiter, hreplies⟩

theorem error_of_replies {code : Returncode}
    (h : replies log (c :: cs) iter = some (.error code :: l, last)) :
    ∃ iter', (c.program log).run iter = .error (.rc code) iter' ∧
      replies log cs iter' = some (l, last) := by
  rw [replies] at h
  split at h
  · obtain ⟨⟨l', last'⟩, -, heq⟩ := Option.map_eq_some_iff.mp h
    cases heq
  · next code' iter' hrun =>
    obtain ⟨⟨l', last'⟩, hrest, heq⟩ := Option.map_eq_some_iff.mp h
    cases heq
    exact ⟨iter', hrun, hrest⟩
  · cases h

theorem ok_of_replies {bytes : List UInt8} (h : replies log (c :: cs) iter = some (.ok bytes :: l, last)) :
    ∃ iter', (c.program log).run iter = .ok bytes iter' ∧ replies log cs iter' = some (l, last) := by
  rw [replies] at h
  split at h
  · next bytes' iter' hrun =>
    obtain ⟨⟨l', last'⟩, hrest, heq⟩ := Option.map_eq_some_iff.mp h
    cases heq
    exact ⟨iter', hrun, hrest⟩
  · obtain ⟨⟨l', last'⟩, -, heq⟩ := Option.map_eq_some_iff.mp h
    cases heq
  · cases h

end

/-! ### A block that does not decompress -/

/-- `snappy_uncompress` of one literal: where something follows that is not right, the literal has
been written by then. -/
def uncompressLiteral : List UInt8 → Nat → Except (List UInt8 → List UInt8) (List UInt8)
  | n :: tag :: rest, size =>
    let len := tag.toNat / 4 + 1
    if size < n.toNat ∨ n.toNat < len then .error id
    else if n.toNat = len ∧ rest.length = len then .ok rest
    else .error fun buffer => rest.take len ++ buffer.drop len
  | _, _ => .error id

theorem uncompressLiteral_le {input output : List UInt8} {size : Nat}
    (h : uncompressLiteral input size = .ok output) : output.length ≤ size := by
  unfold uncompressLiteral at h
  split at h
  · simp only at h
    split_ifs at h with h₁ h₂
    cases h
    omega
  · cases h

def snappyOverwriting : Compressor where
  maxCompressedSize := snappyLiteral.maxCompressedSize
  compress := snappyLiteral.compress
  decompress := uncompressLiteral
  maxCompressedSize_lt := snappyLiteral.maxCompressedSize_lt
  compress_le := snappyLiteral.compress_le
  decompress_le := uncompressLiteral_le

def damagedHeader : Logheader where
  majorVersion := 1
  minorVersion := 0
  fileIdentifier := 7
  numPuts := 3
  numDeletes := 0
  dataEnd := 106
  maxKeyLen := 1
  maxValueLen := 1
  deleteSize := 0
  compressionType := .snappy
  compressionBlockSize := 10
  putSize := 12
  headerSize := 84
  maxEntriesPerBlock := 1

/-- A put of "a" in a block, a block with a put of "x" that has a stray byte at its end, and a put of
"c" in a block. -/
def damagedLog : List UInt8 :=
  damagedHeader.bytes ++ ([6, 4, 12, 2, 1, 97, 98] ++ ([7, 6, 12, 2, 1, 120, 121, 1] ++
    [6, 4, 12, 2, 1, 99, 100]))

theorem blockAt_damagedLog :
    letI : Compressors := ⟨fun _ => snappyOverwriting⟩
    ∀ log, logreaderOpen (some damagedLog) = .ok log →
      usesCompressor log.header.compressionType = true → log.BlockAt 84 [2, 1, 97, 98] 91 := by
  let : Compressors := ⟨fun _ => snappyOverwriting⟩
  intro log hlog hc
  have hblock : (logreaderOpen (some damagedLog)).toOption.bind (fun log =>
      (readVlq log.data 84).map fun vlq => (vlq.1, vlq.2, (log.data.drop vlq.2).take (u32 vlq.1),
        log.header.compressionBlockSize, log.data.length))
      = some (6, 85, [4, 12, 2, 1, 97, 98], 10, 106) := by
    decide +kernel
  rw [hlog] at hblock
  obtain ⟨vlq, hread, hblock⟩ := Option.map_eq_some_iff.mp hblock
  simp only [Prod.mk.injEq] at hblock
  obtain ⟨hsize, hstart, hinput, hroom, hlen⟩ := hblock
  rw [hsize] at hinput
  refine (Logreader.blockAt_compressed hc).mpr ⟨vlq.1, vlq.2, hread, ?_, ?_, ?_⟩
  · rw [hsize, hstart]
    decide
  · rw [hlen]
    decide
  · rw [hsize, hinput, hroom]
    rfl

/-- `next` fails at the second block, `seek` to the third one does without the first, and the key
there is right. -/
theorem inBlock_of_session_sample :
    letI : Compressors := ⟨fun _ => snappyOverwriting⟩
    ∃ log iter₂ iter₃ iter₄ iter₅, Session log true iter₂ ∧
      ((LogCall.seek 99).program log).run iter₂ = .ok [] iter₃ ∧ iter₃.blockPosition = 99 ∧
      Cached log iter₃ ∧ Session log false iter₄ ∧
      ((LogCall.keychunk 1).program log).run iter₄ = .ok [99] iter₅ ∧ InBlock log iter₅ [99] := by
  let : Compressors := ⟨fun _ => snappyOverwriting⟩
  have hfacts : (repliesOf damagedLog [.next, .next, .seek 99, .next, .keychunk 1]).map (fun r =>
      (usesCompressor r.1.header.compressionType, r.1.header.dataEnd, r.2.1))
      = some (true, 106, [.ok [], .error .internalError, .ok [], .ok [], .ok [99]]) := by
    decide +kernel
  have hfails : (repliesOf damagedLog [.next, .next]).map (fun r => (r.2.1, r.2.2.blockPosition,
      r.2.2.nextBlockPosition, r.2.2.blockLen, r.2.2.compressionBuf.take 4))
      = some ([.ok [], .error .internalError], 84, 91, 4, [2, 1, 120, 121]) := by
    decide +kernel
  have hseeks : (repliesOf damagedLog [.next, .next, .seek 99]).map (fun r => (r.2.1,
      r.2.2.blockPosition, r.2.2.state)) = some ([.ok [], .error .internalError, .ok []], 99, .new) := by
    decide +kernel
  obtain ⟨⟨log, l, last⟩, hreplies, heq⟩ := Option.map_eq_some_iff.mp hfacts
  simp only [Prod.mk.injEq] at heq
  obtain ⟨hc, hend, rfl⟩ := heq
  obtain ⟨iter, hlog, hiter, hreplies⟩ := exists_of_repliesOf hreplies
  obtain ⟨iter₁, hnext, hreplies⟩ := ok_of_replies hreplies
  obtain ⟨iter₂, hfail, hreplies⟩ := error_of_replies hreplies
  obtain ⟨iter₃, hseek, hreplies⟩ := ok_of_replies hreplies
  obtain ⟨iter₄, hnext', hreplies⟩ := ok_of_replies hreplies
  obtain ⟨iter₅, hchunk, -⟩ := ok_of_replies hreplies
  have hopened : repliesOf damagedLog = fun cs => (replies log cs iter).map fun r => (log, r) := by
    funext cs
    rw [repliesOf, hlog]
    simp only [hiter]
  have hlast : replies log [] iter₂ = some ([], iter₂) := rfl
  have hlast' : replies log [] iter₃ = some ([], iter₃) := rfl
  simp only [hopened, replies, hnext, hfail, hseek, Option.map_some, Option.some.injEq,
    Prod.mk.injEq, true_and] at hfails hseeks
  obtain ⟨hpos, hstop, hlen, hbuf⟩ := hfails
  -- the first block is still named, and no longer there
  have hlost : Lost log .internalError iter₂ := by
    refine ⟨rfl, [2, 1, 97, 98], ?_, ?_, ?_⟩
    · rw [hpos, hstop]
      exact blockAt_damagedLog log hlog hc
    · rw [hlen]
      rfl
    · rw [hlen, hbuf]
      decide
  have hsession₁ : Session log false iter₁ := .ok .next (.create hiter) nofun hnext
  have hsession₂ : Session log true iter₂ :=
    .error .next hsession₁ nofun hfail (.inl rfl) (iff_of_true rfl (.inr hlost))
  have havoids : (LogCall.seek 99).Avoids log iter₂ := by
    right
    rw [hpos]
    decide
  have hreloads : (LogCall.seek 99).reloads log = true := by
    simp [LogCall.reloads, hend]
  have hsession₃ : Session log false iter₃ := by
    have := Session.ok (.seek 99) hsession₂ (fun _ => havoids) hseek
    rwa [hreloads] at this
  have hsession₄ : Session log false iter₄ := .ok .next hsession₃ nofun hnext'
  refine ⟨log, iter₂, iter₃, iter₄, iter₅, hsession₂, hseek, hseeks.1, ?_, hsession₄, hchunk,
    (inBlock_of_session hc hsession₄ nofun hchunk).1 trivial⟩
  refine (inBlock_of_session hc hsession₂ (fun _ => havoids) hseek).2.resolve_right ?_
  rintro ⟨-, hclosed | hsame⟩
  · rw [hseeks.2] at hclosed
    cases hclosed
  · rw [hsame, hpos] at hseeks
    cases hseeks.1

/-- Behind the block that does not decompress, `seek` takes the junk for the block in front. -/
theorem not_inBlock_of_damaged :
    letI : Compressors := ⟨fun _ => snappyOverwriting⟩
    ∃ log iter last, logreaderOpen (some damagedLog) = .ok log ∧
      usesCompressor log.header.compressionType = true ∧ logiterCreate zeroLogiter log = .ok iter ∧
      replies log [.next, .next, .seek 84, .next, .keychunk 1] iter
        = some ([.ok [], .error .internalError, .ok [], .ok [], .ok [120]], last) ∧
      ¬ InBlock log last [120] := by
  let : Compressors := ⟨fun _ => snappyOverwriting⟩
  have hfacts : (repliesOf damagedLog [.next, .next, .seek 84, .next, .keychunk 1]).map
      (fun r => (usesCompressor r.1.header.compressionType, r.2.1, r.2.2.blockPosition,
        r.2.2.blockOffset)) = some (true, [.ok [], .error .internalError, .ok [], .ok [], .ok [120]],
          84, 3) := by
    decide +kernel
  obtain ⟨⟨log, l, last⟩, hreplies, heq⟩ := Option.map_eq_some_iff.mp hfacts
  simp only [Prod.mk.injEq] at heq
  obtain ⟨hc, rfl, hpos, hoff⟩ := heq
  obtain ⟨iter, hlog, hiter, hreplies⟩ := exists_of_repliesOf hreplies
  refine ⟨log, iter, last, hlog, hc, hiter, hreplies, ?_⟩
  have hb := blockAt_damagedLog log hlog hc
  rintro (hnil | ⟨b, q, hb', -, -, hbytes⟩)
  · cases hnil
  · rw [hpos] at hb'
    obtain ⟨rfl, -⟩ := log.source.block_det hb hb'
    rw [hoff] at hbytes
    revert hbytes
    decide

end Sparkey
