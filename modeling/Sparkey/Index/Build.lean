import Sparkey.Index.Copy

/-!
# Going through the log

The loop of `sparkey_hash_write` puts or deletes one entry of the log after the
other, with its address taken from where `iter` stands.  So the table comes to store
what `Lib/LastWrite.lean` says of the entries (`run_replayLoop`), if at no time more
entries are live than there are slots; otherwise the loop of some `hash_put` goes on
for ever (`run_replayLoop_full`).
-/

namespace Sparkey

open Program BlockStream RobinHood LastWrite

variable [Compressors] {log : Logreader} {items rest live : List (Item Entry)}
  {item : Item Entry} {iter : Logiter}

structure AtEntry (log : Logreader) (iter : Logiter) (item : Item Entry)
    (rest : List (Item Entry)) : Prop where
  active : Active log iter item rest item.val.key item.val.value
  entryCount : iter.entryCount = item.idx
  blockPosition : iter.blockPosition = item.pos

variable [HashFunctions] {s s' : Hashing}

/-! ### `sparkey_iter_hash` -/

/-- **`sparkey_iter_hash`** hashes the key, and consumes it. -/
theorem run_iterHash (hl : log.Opened) (header : Hashheader)
    (h : Active log iter item rest item.val.key item.val.value) :
    ∃ iter', (iterHash header log).run iter
        = .ok (HashFunctions.hash header.hashSize item.val.key header.hashSeed) iter' ∧
      Active log iter' item rest [] item.val.value := by
  have hlt := item.val.length_key_lt
  obtain ⟨m, iter₁, hrun₁, -, hm, -, h₁⟩ := run_logiterKeychunk hl h iterHashMaxlen
  rw [iterHash, run_bind_ok (run_attempt_ok hrun₁)]
  simp only [run_get_bind, h₁.keylen, List.length_take_of_le hm]
  by_cases hall : m = item.val.key.length
  · rw [if_pos hall, hall, List.take_length]
    refine ⟨iter₁, rfl, ?_⟩
    rw [hall, List.drop_length] at h₁
    exact h₁
  · rw [if_neg hall]
    obtain ⟨iter₂, hrun₂, h₂⟩ := run_logiterFillKey hl h₁ iterHashMaxlen
    have hmax : (item.val.key.drop m).length ≤ iterHashMaxlen := by
      rw [List.length_drop]
      have : iterHashMaxlen = 2 ^ 64 - 2 ^ 31 := rfl
      omega
    rw [List.take_of_length_le hmax] at hrun₂
    rw [List.drop_of_length_le hmax] at h₂
    rw [run_bind_ok (run_attempt_ok hrun₂)]
    have hlen : ¬ m + (item.val.key.drop m).length ≠ item.val.key.length := by
      rw [List.length_drop]
      omega
    simp only [if_neg hlen, List.take_append_drop]
    exact ⟨iter₂, rfl, h₂⟩

/-! ### One entry -/

omit [Compressors] in
theorem Indexed.of_recounted {header header' : Hashheader} {hashtable : List UInt8}
    (hi : Indexed items header hashtable live) (hr : Recounted header header')
    (hnum : header'.numEntries = header.numEntries) : Indexed items header' hashtable live := by
  refine .of_slots hr ?_ (by rw [hr.slots]) hi.valid hi.entries (hnum.trans hi.numEntries)
    hi.distinct hi.mem
  rw [hr]
  exact ⟨hi.sized.1, hi.sized.2, hi.sized.3, hi.sized.4, hi.sized.5, hi.sized.6⟩

theorem run_indexEntry_eq (hl : Logged log items) (hmem : item ∈ items)
    (hat : AtEntry log s.iter item rest) :
    ∃ iter', Active log iter' item rest [] item.val.value ∧
      (indexEntry log).run s = (match item.val.type with
        | .put => hashPut (some log) ((s.hashHeader.slotOf item).1 % s.hashHeader.hashCapacity)
            (s.hashHeader.slotOf item).1 (s.hashHeader.slotOf item).2
        | .delete => do
          modifyHeader fun header =>
            { header with garbageSize := u64 (header.garbageSize + deleteSize item.val.key.length) }
          hashDelete log ((s.hashHeader.slotOf item).1 % s.hashHeader.hashCapacity)
            (s.hashHeader.slotOf item).1 : Run Hashing Unit).run { s with iter := iter' } := by
  obtain ⟨iter', hrun, hactive⟩ := run_iterHash hl.toOpened s.hashHeader hat.active
  have hidx : (s.iter.entryCount % 2 ^ 64).toNat = item.idx := by
    have := hl.idx_lt item hmem
    have := hl.maxEntriesPerBlock_lt
    rw [hat.entryCount]
    omega
  refine ⟨iter', hactive, ?_⟩
  rw [indexEntry, run_get_bind, run_bind_ok (run_onIter_ok hrun), run_get_bind]
  simp only [hidx, hat.blockPosition, hactive.type, hactive.keylen]
  cases item.val.type <;> rfl

/-- **An entry of the log** is written to the table, if there is room. -/
theorem run_indexEntry (hl : Logged log items) (ha : Addressed s.hashHeader items)
    (hi : Indexed items s.hashHeader s.hashtable live) (hmem : item ∈ items)
    (hat : AtEntry log s.iter item rest) (hu : Usable log s.raIter)
    (hroom : item.val.type = .put →
      (itemKind.others item.val.key live).length < s.hashHeader.hashCapacity) :
    ∃ s', (indexEntry log).run s = .ok () s' ∧ Ready log item rest s'.iter s'.raIter ∧
      Updated items s s' ((⟨live, 0⟩ : Contents _).write itemKind item).live
        ((⟨live, 0⟩ : Contents _).write itemKind item).garbage := by
  obtain ⟨iter', hactive, hrun⟩ := run_indexEntry_eq hl hmem hat
  have hready : Ready log item rest iter' s.raIter := ⟨⟨_, _, hactive⟩, hu⟩
  rw [hrun]
  unfold Contents.write
  cases htype : item.val.type with
  | put =>
    rw [if_pos (isPut_itemKind.mpr htype), if_pos (isPut_itemKind.mpr htype), Nat.add_zero,
      Nat.zero_add]
    obtain ⟨s', hput, hr, hup⟩ := run_hashPut (s := { s with iter := iter' }) hl.toHolds ha hi hmem
      htype hready (hroom htype)
    exact ⟨s', hput, hr, hup.recounted, hup.indexed, hup.garbageSize⟩
  | delete =>
    have hnot : ¬ itemKind.isPut item = true := by
      rw [isPut_itemKind, htype]
      decide
    have hsize : item.val.size = deleteSize item.val.key.length := by
      cases hval : item.val with
      | put key value =>
        rw [hval] at htype
        cases htype
      | delete key => rfl
    rw [if_neg hnot, if_neg hnot, Nat.zero_add]
    simp only
    rw [run_bind_ok (run_modifyHeader _)]
    have hrec : Recounted s.hashHeader { s.hashHeader with
        garbageSize := u64 (s.hashHeader.garbageSize + deleteSize item.val.key.length) } := rfl
    obtain ⟨s', hdel, hr, hup⟩ := run_hashDelete
      (s := { s with
        iter := iter'
        hashHeader := { s.hashHeader with
          garbageSize := u64 (s.hashHeader.garbageSize + deleteSize item.val.key.length) } })
      hl.toHolds (hrec.addressed ha) (hi.of_recounted hrec rfl) hready
    refine ⟨s', hdel, hr, hrec.trans hup.recounted, hup.indexed, fun _ => ?_⟩
    have hg : s'.hashHeader.garbageSize
        = u64 (u64 (s.hashHeader.garbageSize + deleteSize item.val.key.length)
          + ((itemKind.those item.val.key live).map itemKind.size).sum) :=
      hup.garbageSize (u64_lt _)
    rw [hg, size_itemKind, hsize]
    unfold u64
    show (_ % 2 ^ 64 + ((itemKind.those item.val.key live).map itemKind.size).sum) % 2 ^ 64
      = (_ + (((itemKind.those item.val.key live).map itemKind.size).sum + _)) % 2 ^ 64
    omega

/-- **Without room** the loop of `hash_put` goes on for ever. -/
theorem run_indexEntry_full (hl : Logged log items) (ha : Addressed s.hashHeader items)
    (hi : Indexed items s.hashHeader s.hashtable live) (hmem : item ∈ items)
    (hat : AtEntry log s.iter item rest) (hu : Usable log s.raIter) (hput : item.val.type = .put)
    (hfull : s.hashHeader.hashCapacity ≤ (itemKind.others item.val.key live).length) :
    ∃ s', (indexEntry log).run s = .error .stuck s' := by
  obtain ⟨iter', hactive, hrun⟩ := run_indexEntry_eq hl hmem hat
  have hready : Ready log item rest iter' s.raIter := ⟨⟨_, _, hactive⟩, hu⟩
  rw [hrun, hput]
  exact run_hashPutLoop_full (s := { s with iter := iter' }) hl.toHolds ha hi hmem hready hfull _

/-! ### The loop -/

theorem run_replayLoop_succ (hl : Logged log items) (hb : Before log s.iter (item :: rest))
    (fuel : Nat) :
    ∃ iter', AtEntry log iter' item rest ∧
      (replayLoop log (fuel + 1)).run s
        = (do indexEntry log; replayLoop log fuel : Run Hashing Unit).run { s with iter := iter' } := by
  obtain ⟨iter', hrun, hactive, hcount, hpos⟩ := run_logiterNext_item hl.toOpened hb
  refine ⟨iter', ⟨hactive, hcount, hpos⟩, ?_⟩
  rw [replayLoop, run_bind_ok (run_onIter_ok hrun), run_get_bind]
  simp only [hactive.state]

theorem run_replayLoop_nil (hl : Logged log items) (hb : Before log s.iter []) (fuel : Nat) :
    ∃ iter', iter'.state = .closed ∧ Usable log iter' ∧
      (replayLoop log (fuel + 1)).run s = .ok () { s with iter := iter' } := by
  obtain ⟨iter', hrun, hstate, hopen, hcached⟩ := run_logiterNext_end hl.toOpened hb
  refine ⟨iter', hstate, ⟨hopen, hcached⟩, ?_⟩
  rw [replayLoop, run_bind_ok (run_onIter_ok hrun), run_get_bind]
  simp only [hstate]
  rfl

omit [Compressors] [HashFunctions] in
theorem room_of_peakLive {capacity : Nat} (h : peakLive itemKind ⟨live, 0⟩ (item :: rest) ≤ capacity)
    (hput : item.val.type = .put) :
    (itemKind.others item.val.key live).length < capacity := by
  have hle := length_live_le_peakLive (K := itemKind)
    ((⟨live, 0⟩ : Contents _).write itemKind item) rest
  rw [peakLive] at h
  have hlen : ((⟨live, 0⟩ : Contents _).write itemKind item).live.length
      = (itemKind.others item.val.key live).length + 1 := by
    unfold Contents.write
    simp only
    rw [if_pos (isPut_itemKind.mpr hput), List.length_cons, key_itemKind]
  omega

/-- **The loop of `sparkey_hash_write`** writes the entries to the table, one after the other. -/
theorem run_replayLoop (hl : Logged log items) : ∀ (rest : List (Item Entry)) {fuel : Nat}
    {s : Hashing} {live : List (Item Entry)}, rest.length < fuel → Before log s.iter rest →
    Usable log s.raIter → (∀ it ∈ rest, it ∈ items) → Addressed s.hashHeader items →
    Indexed items s.hashHeader s.hashtable live →
    peakLive itemKind ⟨live, 0⟩ rest ≤ s.hashHeader.hashCapacity →
    ∃ s', (replayLoop log fuel).run s = .ok () s' ∧
      Updated items s s' ((⟨live, 0⟩ : Contents _).writes itemKind rest).live
        ((⟨live, 0⟩ : Contents _).writes itemKind rest).garbage := by
  intro rest
  induction rest with
  | nil =>
    intro fuel s live hfuel hb hu hsub ha hi hpeak
    obtain ⟨fuel, rfl⟩ := Nat.exists_eq_succ_of_ne_zero (Nat.ne_zero_of_lt hfuel)
    obtain ⟨iter', -, -, hrun⟩ := run_replayLoop_nil hl hb fuel
    exact ⟨_, hrun, .refl _, hi, fun hlt => (u64_of_lt hlt).symm⟩
  | cons item rest ih =>
    intro fuel s live hfuel hb hu hsub ha hi hpeak
    obtain ⟨fuel, rfl⟩ := Nat.exists_eq_succ_of_ne_zero (Nat.ne_zero_of_lt hfuel)
    obtain ⟨iter', hat, hrun⟩ := run_replayLoop_succ hl hb fuel
    obtain ⟨s₁, hrun₁, ⟨⟨key, value, hactive⟩, hu₁⟩, hup⟩ :=
      run_indexEntry (s := { s with iter := iter' }) hl ha hi (hsub item List.mem_cons_self) hat hu
        (room_of_peakLive hpeak)
    have hup₁ : Updated items s s₁ ((⟨live, 0⟩ : Contents _).write itemKind item).live
        ((⟨live, 0⟩ : Contents _).write itemKind item).garbage :=
      ⟨hup.recounted, hup.indexed, hup.garbageSize⟩
    -- what the entries behind add to the garbage does not depend on what there was
    obtain ⟨hlive, hgarbage⟩ := Contents.live_writes_congr (K := itemKind) rest
      (c := (⟨live, 0⟩ : Contents _).write itemKind item)
      (d := ⟨((⟨live, 0⟩ : Contents _).write itemKind item).live, 0⟩) rfl
    have hpeak' : peakLive itemKind ⟨((⟨live, 0⟩ : Contents _).write itemKind item).live, 0⟩ rest
        ≤ s₁.hashHeader.hashCapacity := by
      have hcongr := peakLive_congr (K := itemKind) rest
        (c := (⟨live, 0⟩ : Contents _).write itemKind item)
        (d := ⟨((⟨live, 0⟩ : Contents _).write itemKind item).live, 0⟩) rfl
      rw [hup₁.recounted.capacity, ← hcongr]
      exact Nat.le_trans (Nat.le_max_right _ _) hpeak
    obtain ⟨s', hrun', hup'⟩ := ih (Nat.lt_of_succ_lt_succ hfuel) hactive.before hu₁
      (fun it hit => hsub it (List.mem_cons_of_mem _ hit)) (hup₁.recounted.addressed ha) hup₁.indexed
      hpeak'
    have hrun₁' : (indexEntry log).run { s with iter := iter' } = .ok () s₁ := hrun₁
    refine ⟨s', ?_, ?_⟩
    · rw [hrun, run_bind_ok hrun₁']
      exact hrun'
    · have hsum : (((⟨live, 0⟩ : Contents _).write itemKind item).writes itemKind rest).garbage
          = ((⟨live, 0⟩ : Contents _).write itemKind item).garbage
            + ((⟨((⟨live, 0⟩ : Contents _).write itemKind item).live, 0⟩ : Contents _).writes
              itemKind rest).garbage := by
        simp only [Nat.add_zero] at hgarbage
        omega
      rw [Contents.writes_cons, hlive, hsum]
      exact hup₁.trans hup'

/-- **If too many entries are live at some time** the loop does not come to an end. -/
theorem run_replayLoop_full (hl : Logged log items) : ∀ (rest : List (Item Entry)) {fuel : Nat}
    {s : Hashing} {live : List (Item Entry)}, rest.length < fuel → Before log s.iter rest →
    Usable log s.raIter → (∀ it ∈ rest, it ∈ items) → Addressed s.hashHeader items →
    Indexed items s.hashHeader s.hashtable live →
    s.hashHeader.hashCapacity < peakLive itemKind ⟨live, 0⟩ rest →
    ∃ s', (replayLoop log fuel).run s = .error .stuck s' := by
  intro rest
  induction rest with
  | nil =>
    intro fuel s live _ _ _ _ _ hi hpeak
    exact absurd hi.length_le (Nat.not_le_of_lt hpeak)
  | cons item rest ih =>
    intro fuel s live hfuel hb hu hsub ha hi hpeak
    obtain ⟨fuel, rfl⟩ := Nat.exists_eq_succ_of_ne_zero (Nat.ne_zero_of_lt hfuel)
    obtain ⟨iter', hat, hrun⟩ := run_replayLoop_succ hl hb fuel
    have hmem := hsub item List.mem_cons_self
    by_cases hroom : item.val.type = .put →
        (itemKind.others item.val.key live).length < s.hashHeader.hashCapacity
    · -- there is room for this one
      obtain ⟨s₁, hrun₁, ⟨⟨key, value, hactive⟩, hu₁⟩, hup⟩ :=
        run_indexEntry (s := { s with iter := iter' }) hl ha hi hmem hat hu hroom
      have hcap : s₁.hashHeader.hashCapacity = s.hashHeader.hashCapacity := hup.recounted.capacity
      have hcongr := peakLive_congr (K := itemKind) rest
        (c := (⟨live, 0⟩ : Contents _).write itemKind item)
        (d := ⟨((⟨live, 0⟩ : Contents _).write itemKind item).live, 0⟩) rfl
      have hle := hi.length_le
      have hpeak' : s₁.hashHeader.hashCapacity < peakLive itemKind
          ⟨((⟨live, 0⟩ : Contents _).write itemKind item).live, 0⟩ rest := by
        rw [peakLive] at hpeak
        rw [hcap, ← hcongr]
        have : (⟨live, 0⟩ : Contents (Item Entry)).live.length = live.length := rfl
        omega
      obtain ⟨s', hrun'⟩ := ih (Nat.lt_of_succ_lt_succ hfuel) hactive.before hu₁
        (fun it hit => hsub it (List.mem_cons_of_mem _ hit)) (hup.recounted.addressed ha) hup.indexed
        hpeak'
      exact ⟨s', by rw [hrun, run_bind_ok hrun₁, hrun']⟩
    · obtain ⟨hput, hfull⟩ := Classical.not_imp.mp hroom
      obtain ⟨s', hrun'⟩ := run_indexEntry_full (s := { s with iter := iter' }) hl ha hi hmem hat hu
        hput (Nat.le_of_not_lt hfull)
      exact ⟨s', by rw [hrun, run_bind_error hrun']⟩

omit [HashFunctions] in
theorem length_lt_entryFuel (hl : log.Holds items) : items.length < entryFuel log := by
  have hB : ∀ {p b q}, log.source.block p b q →
      b.length ≤ max log.dataLen log.header.compressionBlockSize := by
    intro p b q hb
    have hlen : log.data.length = log.dataLen := hl.length_data.trans hl.dataLen.symm
    cases hu : usesCompressor log.header.compressionType with
    | false =>
      obtain ⟨-, rfl, -⟩ := (Logreader.blockAt_plain hu).mp hb
      rw [List.length_drop]
      omega
    | true =>
      obtain ⟨_, _, -, -, -, hdec⟩ := (Logreader.blockAt_compressed hu).mp hb
      exact Nat.le_trans (Compressor.decompress_le _ hdec) (Nat.le_max_right _ _)
  have hle := hl.entries.length_le hB Entry.header_ne_nil
  have hpot : firstCursor.potential log.source (max log.dataLen log.header.compressionBlockSize)
      ≤ log.dataLen * max log.dataLen log.header.compressionBlockSize := by
    have hstop : log.source.stop = log.dataLen := hl.length_data.trans hl.dataLen.symm
    unfold Cursor.potential
    rw [hstop]
    show 0 + (log.dataLen - logHeaderSize) * _ ≤ _
    rw [Nat.zero_add]
    exact Nat.mul_le_mul_right _ (Nat.sub_le _ _)
  unfold entryFuel
  omega

end Sparkey
