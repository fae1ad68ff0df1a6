import Sparkey.Roundtrip
import Sparkey.Writer.Growth

/-!
# Reading a log that has grown

`Grown log log' items more` says that the log of a reader has become that of another
one: the entries `items` are where they were, and `more` have come behind them, in
blocks of their own that start where the old data ended (`grown_of_going`).

A log is `Published` where a flush has left it for readers to open.
-/

namespace Sparkey

open Program BlockStream

variable [Compressors] {log log' : Logreader} {items more : List (Item Entry)}

structure Grown (log log' : Logreader) (items more : List (Item Entry)) : Prop where
  old : Logged log items
  new : Logged log' (items ++ more)
  header : log.header.Grows log'.header
  maxEntriesPerBlock_le : log.header.maxEntriesPerBlock ≤ log'.header.maxEntriesPerBlock
  le_dataEnd : logHeaderSize ≤ log.header.dataEnd
  dataEnd_le : log.header.dataEnd ≤ log'.header.dataEnd
  /-- Where the old data ended, the new entries begin, if there are any. -/
  resume : log.header.dataEnd = log'.header.dataEnd ∧ more = [] ∨
    ∃ b q, log'.BlockAt log.header.dataEnd b q ∧
      log'.Entries (.start log.header.dataEnd b q) more

theorem Logged.pos_lt (hl : Logged log items) {it : Item Entry} (hit : it ∈ items) :
    it.pos < log.header.dataEnd := by
  obtain ⟨n, hn⟩ := List.mem_iff_getElem?.mp hit
  exact hl.toHolds.pos_lt hn

theorem Grown.le_pos (h : Grown log log' items more) {it : Item Entry} (hit : it ∈ more) :
    log.header.dataEnd ≤ it.pos := by
  rcases h.resume with ⟨-, rfl⟩ | ⟨b, q, hblock, hentries⟩
  · cases hit
  · exact hentries.start_le_pos Entry.header_ne_nil hblock hit

/-- **A log that went on being written** has grown by the entries of the calls. -/
theorem grown_of_going {t : CompressionType} {n : Nat} {calls moreCalls : List Call}
    {w w₁ w' : Logwriter} (hw : Writing t n calls w) (hf : Flushed w)
    (hsp : w.packing.Spelled (.of t n) items) (hvals : items.map Item.val = entriesOf calls)
    (hopen : logreaderOpen (some w.fd.data) = .ok log) (hgo : Going w moreCalls w₁)
    (hflush : logwriterFlush.run w₁ = .ok () w')
    (hopen' : logreaderOpen (some w'.fd.data) = .ok log')
    (hfit : ∀ e ∈ entriesOf moreCalls, HeadFits (.of t n) e) (hz : (Setting.of t n).Lossless) :
    ∃ more, Grown log log' items more ∧ more.map Item.val = entriesOf moreCalls ∧
      w'.packing.Spelled (.of t n) (items ++ more) ∧ Flushed w' := by
  have hk := (kept_of_writing hw).1
  have hgo' : Going w (moreCalls ++ [.flush]) w' := hgo.call (.flush hflush)
  obtain ⟨hk', hcalls, hgrows⟩ := hk.going hgo'
  have hentries : entriesOf (moreCalls ++ [.flush]) = entriesOf moreCalls := by
    rw [entriesOf_append, Call.entry?, Option.toList_none, List.append_nil]
  have hf' : Flushed w' := ((kept_of_writing (hw.going hgo)).1.flush hflush).2.1
  obtain ⟨more, hsp', hmore⟩ := hsp.calls (by rwa [hentries]) hcalls
  rw [hentries] at hk' hmore
  have hgrow := Packing.grows_calls hcalls
  obtain ⟨hl, hheader⟩ := hf.holds hk hsp hz hopen
  obtain ⟨hopened', hheader', hdata'⟩ := hk'.open hf' hopen'
  have hnew : Logged log' (items ++ more) :=
    hf'.logged hk' hsp' (by rw [List.map_append, hvals, hmore]) hz hopen'
  have hend : log.header.dataEnd = logHeaderSize + w.packing.out.length := by
    rw [hheader, hf.dataEnd, hf.data, List.length_append, Logheader.length_bytes]
  have hend' : log'.header.dataEnd = logHeaderSize + w'.packing.out.length := by
    rw [hheader', hf'.dataEnd, hf'.data, List.length_append, Logheader.length_bytes]
  have hset : log'.header.setting = Setting.of t n := by
    rw [hheader']
    exact hk'.setting
  obtain ⟨c, hpath, hplace⟩ := hsp.path hf.block hset (hdata'.trans hf'.data) hgrow.out hz
  have hrest := hnew.entries.resume hpath
  refine ⟨more, ⟨hf.logged hk hsp hvals hz hopen, hnew, ?_, ?_, ?_, ?_, ?_⟩, hmore, hsp', hf'⟩
  · rw [hheader, hheader']
    exact hgrows
  · rw [hheader, hheader']
    exact hgrow.maxEntriesPerBlock
  · omega
  · have := hgrow.out.length_le
    omega
  rw [hend]
  rcases hplace with ⟨hcur, hnext⟩ | ⟨hblock, hc⟩
  · obtain ⟨pos, idx, cur, next⟩ := c
    obtain rfl : cur = [] := hcur
    obtain rfl : next = logHeaderSize + w.packing.out.length := hnext
    cases hrest with
    | done _ hstop =>
      have hlen : log'.source.stop = log'.header.dataEnd := hopened'.length_data
      exact Or.inl ⟨hstop.trans hlen, rfl⟩
    | cons ho hcur' hr hbody hi =>
      have hrest := Items.cons ho hcur' hr hbody hi
      have hrest' := hrest.of_opens ho
      cases ho with
      | here hne => exact absurd rfl hne
      | @block b q _ hb _ => exact Or.inr ⟨b, q, hb, hrest'⟩
  · rw [hc] at hrest
    exact Or.inr ⟨_, _, hblock, hrest⟩

/-! ### What readers find -/

/-- Some calls led to a flushed log with these entries, and this is a reader of it. -/
structure Published (t : CompressionType) (n : Nat) (calls : List Call) (w : Logwriter)
    (log : Logreader) (items : List (Item Entry)) : Prop where
  writing : Writing t n calls w
  flushed : Flushed w
  spelled : w.packing.Spelled (.of t n) items
  vals : items.map Item.val = entriesOf calls
  opened : logreaderOpen (some w.fd.data) = .ok log

variable {t : CompressionType} {n : Nat} {calls moreCalls : List Call} {w w₁ w' : Logwriter}

theorem Published.logged (h : Published t n calls w log items) (hz : (Setting.of t n).Lossless) :
    Logged log items :=
  h.flushed.logged (kept_of_writing h.writing).1 h.spelled h.vals hz h.opened

theorem Published.fileIdentifier_lt (h : Published t n calls w log items)
    (hz : (Setting.of t n).Lossless) : log.header.fileIdentifier < 2 ^ 32 := by
  have hk := (kept_of_writing h.writing).1
  rw [(h.flushed.holds hk h.spelled hz h.opened).2]
  exact hk.fileIdentifier_lt

theorem published_of_flush (hw : Writing t n calls w)
    (hfit : ∀ e ∈ entriesOf calls, HeadFits (.of t n) e) (hz : (Setting.of t n).Lossless)
    (hflush : logwriterFlush.run w = .ok () w') (hopen : logreaderOpen (some w'.fd.data) = .ok log) :
    ∃ items, Published t n (calls ++ [.flush]) w' log items := by
  obtain ⟨items, -, hvals, -, hsp, -, hf⟩ := holds_of_flush hw hfit hz hflush hopen
  exact ⟨items, .flush hw hflush, hf, hsp, hvals.trans (entriesOf_flush calls).symm, hopen⟩

/-- **Writing on**: the log has grown when the next flush publishes it. -/
theorem Published.grown (h : Published t n calls w log items) (hgo : Going w moreCalls w₁)
    (hflush : logwriterFlush.run w₁ = .ok () w') (hopen : logreaderOpen (some w'.fd.data) = .ok log')
    (hfit : ∀ e ∈ entriesOf moreCalls, HeadFits (.of t n) e) (hz : (Setting.of t n).Lossless) :
    ∃ more, Grown log log' items more ∧
      Published t n (calls ++ moreCalls ++ [.flush]) w' log' (items ++ more) := by
  obtain ⟨more, hgrown, hmore, hsp, hf⟩ := grown_of_going h.writing h.flushed h.spelled h.vals h.opened
    hgo hflush hopen hfit hz
  refine ⟨more, hgrown, .flush (h.writing.going hgo) hflush, hf, hsp, ?_, hopen⟩
  rw [entriesOf_flush, entriesOf_append_calls, List.map_append, h.vals, hmore]

end Sparkey
