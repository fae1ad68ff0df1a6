import Sparkey.Hashwriter
import Sparkey.Index.Slots
import Sparkey.Reader.Seek

/-!
# `hash_put` and `hash_delete` on the slots

Each loop of the code does what the loop of `Lib/RobinHood.lean` of the same kind
does to the slots of the table, one round each time.  What the code finds out by
comparing keys in the log is a predicate on entries there.
-/

namespace Sparkey

open Program BlockStream RobinHood

abbrev Hashing.slots (s : Hashing) : Nat → Option (Nat × Nat) := s.hashHeader.slots s.hashtable

structure SameTable (s s' : Hashing) : Prop where
  hashtable : s'.hashtable = s.hashtable
  hashHeader : s'.hashHeader = s.hashHeader

theorem SameTable.refl (s : Hashing) : SameTable s s := ⟨rfl, rfl⟩

theorem SameTable.trans {s s' s'' : Hashing} (h : SameTable s s') (h' : SameTable s' s'') :
    SameTable s s'' :=
  ⟨h'.hashtable.trans h.hashtable, h'.hashHeader.trans h.hashHeader⟩

theorem SameTable.slots {s s' : Hashing} (h : SameTable s s') : s'.slots = s.slots := by
  unfold Hashing.slots
  rw [h.hashtable, h.hashHeader]

theorem SameTable.sized {s s' : Hashing} (h : SameTable s s') (hs : Sized s.hashHeader s.hashtable) :
    Sized s'.hashHeader s'.hashtable := by
  rw [h.hashtable, h.hashHeader]
  exact hs

variable {s s' : Hashing} {slot hash position : Nat}

theorem run_getSlot {content : Nat × Nat}
    (h : s.hashHeader.readSlot s.hashtable slot = some content) :
    (getSlot slot).run s = .ok content s := by
  simp only [getSlot, EStateM.run_bind, EStateM.run_get, h, EStateM.run_pure]

theorem run_setSlot : (setSlot slot hash position).run s
    = .ok () { s with hashtable := s.hashHeader.writeSlot s.hashtable slot hash position } := rfl

theorem run_modifyHeader (f : Hashheader → Hashheader) :
    (modifyHeader f).run s = .ok () { s with hashHeader := f s.hashHeader } := rfl

@[simp] theorem run_onIter_ok {α : Type} {x : Run Logiter α} {a : α} {iter : Logiter}
    (h : x.run s.iter = .ok a iter) : (onIter x).run s = .ok a { s with iter } := by
  simp only [onIter, EStateM.run] at *
  rw [h]

@[simp] theorem run_onRaIter_ok {α : Type} {x : Run Logiter α} {a : α} {raIter : Logiter}
    (h : x.run s.raIter = .ok a raIter) : (onRaIter x).run s = .ok a { s with raIter } := by
  simp only [onRaIter, EStateM.run] at *
  rw [h]

@[simp] theorem run_onIters_ok {α : Type} {x : Run (Logiter × Logiter) α} {a : α}
    {iter raIter : Logiter} (h : x.run (s.iter, s.raIter) = .ok a (iter, raIter)) :
    (onIters x).run s = .ok a { s with iter, raIter } := by
  simp only [onIters, EStateM.run] at *
  rw [h]

theorem Sized.setSlot (hs : Sized s.hashHeader s.hashtable) (h : slot < s.hashHeader.hashCapacity)
    (hhash : hash < 256 ^ s.hashHeader.hashSize) (hpos : position < 256 ^ s.hashHeader.addressSize)
    (hblank : position = 0 → hash = 0)
    (hs' : s' = { s with hashtable := s.hashHeader.writeSlot s.hashtable slot hash position }) :
    Sized s'.hashHeader s'.hashtable ∧ s'.slots = Function.update s.slots slot
      (if position = 0 then none else some (hash, position)) := by
  subst hs'
  exact ⟨hs.write h hhash hpos hblank, hs.slots_write h hhash hpos⟩

variable [Compressors]

/-! ### `hash_put` -/

/-- What `hash_put` leaves, given what the loop on slots does: `lens` are the lengths of the entry
that is replaced, and `Good` is what the iterators keep. -/
def PutDone (header : Hashheader) (lens : Nat × Nat → Nat × Nat) (Good : Logiter → Logiter → Prop)
    (r : Option ((Nat → Option (Nat × Nat)) × Option (Nat × Nat)))
    (res : EStateM.Result (Stop Returncode) Hashing Unit) : Prop :=
  match r with
  | none => ∃ s', res = .error .stuck s'
  | some (t, old) => ∃ s', res = .ok () s' ∧ Good s'.iter s'.raIter ∧ s'.slots = t ∧
      Sized s'.hashHeader s'.hashtable ∧ s'.hashHeader = match old with
        | none => header.addedEntry
        | some b => header.replacedEntry (lens b).1 (lens b).2

/-- The comparison of `hash_put` and `hash_delete` tells the entries of the key. -/
def Compares (log : Option Logreader) (s : Hashing) (hash : Nat) (same : Nat × Nat → Bool)
    (lens : Nat × Nat → Nat × Nat) (Good : Logiter → Logiter → Prop) : Prop :=
  ∀ slot < s.hashHeader.hashCapacity, ∀ entry, s.slots slot = some entry →
    ∀ s₁, SameTable s s₁ → Good s₁.iter s₁.raIter →
      ∃ s₂, (collides log true hash entry.1 entry.2).run s₁
          = .ok (if same entry then some (lens entry) else none) s₂ ∧
        SameTable s s₂ ∧ Good s₂.iter s₂.raIter

variable {log : Option Logreader} {same : Nat × Nat → Bool} {lens : Nat × Nat → Nat × Nat}
  {Good : Logiter → Logiter → Prop}

theorem run_collides_false {hash2 position2 : Nat} :
    (collides log false hash hash2 position2).run s = .ok none s := by
  cases log with
  | none => rfl
  | some log =>
    simp only [collides, EStateM.run_bind, EStateM.run_get]
    rw [if_neg (by simp), EStateM.run_pure]

theorem Compares.of_same (h : Compares log s hash same lens Good) (hs : SameTable s s') :
    Compares log s' hash same lens Good := by
  intro slot hslot entry hentry s₁ h₁ hg
  rw [hs.hashHeader] at hslot
  rw [hs.slots] at hentry
  obtain ⟨s₂, hrun, h₂, hg₂⟩ := h slot hslot entry hentry s₁ (hs.trans h₁) hg
  exact ⟨s₂, hrun, ⟨h₂.hashtable.trans hs.hashtable.symm, h₂.hashHeader.trans hs.hashHeader.symm⟩, hg₂⟩

/-- **The loop of `hash_put`** does what `RobinHood.put` does. -/
theorem run_hashPutLoop : ∀ (fuel : Nat) (might : Bool) (slot displacement hash position : Nat)
    {s : Hashing}, Sized s.hashHeader s.hashtable → slot < s.hashHeader.hashCapacity →
    hash < 256 ^ s.hashHeader.hashSize → position < 256 ^ s.hashHeader.addressSize →
    position ≠ 0 → Good s.iter s.raIter →
    (might = true → Compares log s hash same lens Good) →
    PutDone s.hashHeader lens Good
      (put s.hashHeader.hashCapacity s.hashHeader.home same fuel might slot displacement
        (hash, position) s.slots)
      ((hashPutLoop log fuel might slot displacement hash position).run s) := by
  intro fuel
  induction fuel with
  | zero =>
    intro might slot displacement hash position s _ _ _ _ _ _ _
    exact ⟨s, rfl⟩
  | succ fuel ih =>
    intro might slot displacement hash position s hsized hslot hhash hpos hne hgood hcmp
    obtain ⟨hash2, position2, hread, hhash2, hpos2, hcontent⟩ := hsized.readSlot hslot
    have hcontent' : s.slots slot = if position2 = 0 then none else some (hash2, position2) := hcontent
    rw [hashPutLoop, put]
    rw [run_bind_ok (run_getSlot hread)]
    by_cases h0 : position2 = 0
    · -- a free slot
      rw [if_pos h0] at hcontent'
      rw [hcontent']
      obtain ⟨hsized', hslots'⟩ := hsized.setSlot hslot hhash hpos (absurd · hne) rfl
      rw [if_neg hne] at hslots'
      simp only [if_pos h0]
      rw [run_bind_ok run_setSlot, run_bind_ok (run_modifyHeader _)]
      refine ⟨_, rfl, hgood, ?_, ?_, rfl⟩
      · exact (Hashheader.slots_congr rfl rfl).trans hslots'
      · exact ⟨hsized'.1, hsized'.2, hsized'.3, hsized'.4, hsized'.5, hsized'.6⟩
    · rw [if_neg h0] at hcontent'
      rw [hcontent']
      simp only [if_neg h0]
      have hcollides : ∃ s₂, (collides log might hash hash2 position2).run s
          = .ok (if (might && same (hash2, position2)) = true then some (lens (hash2, position2))
              else none) s₂ ∧ SameTable s s₂ ∧ Good s₂.iter s₂.raIter := by
        cases might with
        | false => exact ⟨s, run_collides_false, .refl s, hgood⟩
        | true => exact hcmp rfl slot hslot _ hcontent' s (.refl s) hgood
      obtain ⟨s₂, hrun, hsame, hgood₂⟩ := hcollides
      have hsized₂ := hsame.sized hsized
      rw [run_bind_ok hrun]
      by_cases hm : (might && same (hash2, position2)) = true
      · -- a put of the same key
        rw [if_pos hm, if_pos hm]
        rw [← hsame.hashHeader] at hslot hhash hpos
        obtain ⟨hsized', hslots'⟩ := hsized₂.setSlot hslot hhash hpos (absurd · hne) rfl
        rw [if_neg hne, hsame.slots] at hslots'
        simp only
        rw [run_bind_ok run_setSlot, run_modifyHeader]
        refine ⟨_, rfl, hgood₂, ?_, ?_, ?_⟩
        · exact (Hashheader.slots_congr rfl rfl).trans hslots'
        · exact ⟨hsized'.1, hsized'.2, hsized'.3, hsized'.4, hsized'.5, hsized'.6⟩
        · show s₂.hashHeader.replacedEntry _ _ = _
          rw [hsame.hashHeader]
      · rw [if_neg hm, if_neg hm]
        simp only
        rw [run_get_bind]
        have hdisp := getDisplacement_eq hsized.capacity_lt hslot hash2
        simp only [hsame.hashHeader, hdisp, nextSlot_eq]
        have hhome : s.hashHeader.home (hash2, position2) = hash2 % s.hashHeader.hashCapacity := rfl
        rw [hhome]
        by_cases hlt : dist s.hashHeader.hashCapacity (hash2 % s.hashHeader.hashCapacity) slot
            < displacement
        · -- the entry there gives way
          simp only [if_pos hlt]
          rw [run_bind_ok run_setSlot]
          have hslot₂ := hslot
          rw [← hsame.hashHeader] at hslot₂ hhash hpos
          obtain ⟨hsized', hslots'⟩ := hsized₂.setSlot hslot₂ hhash hpos (absurd · hne) rfl
          rw [if_neg hne, hsame.slots] at hslots'
          rw [← hsame.hashHeader] at hhash2 hpos2
          have hstep := ih false (next s.hashHeader.hashCapacity slot)
            (dist s.hashHeader.hashCapacity (hash2 % s.hashHeader.hashCapacity) slot + 1)
            hash2 position2 hsized'
            (by rw [hsame.hashHeader]; exact next_lt hslot) hhash2 hpos2 h0 hgood₂
            (fun h => by cases h)
          rw [hslots'] at hstep
          simp only [hsame.hashHeader] at hstep ⊢
          exact hstep
        · simp only [if_neg hlt]
          have hstep := ih might (next s.hashHeader.hashCapacity slot)
            (displacement + 1) hash position hsized₂
            (by rw [hsame.hashHeader]; exact next_lt hslot) (by rw [hsame.hashHeader]; exact hhash)
            (by rw [hsame.hashHeader]; exact hpos) hne hgood₂ (fun h => (hcmp h).of_same hsame)
          rw [hsame.slots] at hstep
          simp only [hsame.hashHeader] at hstep
          exact hstep

/-! ### `hash_delete` -/

def ShiftDone (s : Hashing) (r : Option (Nat → Option (Nat × Nat)))
    (res : EStateM.Result (Stop Returncode) Hashing Unit) : Prop :=
  match r with
  | none => ∃ s', res = .error .stuck s'
  | some t => ∃ s', res = .ok () s' ∧ s'.slots = t ∧ Sized s'.hashHeader s'.hashtable ∧
      s'.hashHeader = s.hashHeader ∧ s'.iter = s.iter ∧ s'.raIter = s.raIter

omit [Compressors] in
/-- **The backward shift of `hash_delete`** does what `RobinHood.shift` does. -/
theorem run_shiftLoop : ∀ (fuel slot : Nat) {s : Hashing},
    Sized s.hashHeader s.hashtable → slot < s.hashHeader.hashCapacity →
    ShiftDone s (shift s.hashHeader.hashCapacity s.hashHeader.home fuel slot s.slots)
      ((shiftLoop fuel slot).run s) := by
  intro fuel
  induction fuel with
  | zero =>
    intro slot s _ _
    exact ⟨s, rfl⟩
  | succ fuel ih =>
    intro slot s hsized hslot
    obtain ⟨hash3, position3, hread, hhash3, hpos3, hcontent⟩ := hsized.readSlot (next_lt hslot)
    have hcontent' : s.slots (next s.hashHeader.hashCapacity slot)
        = if position3 = 0 then none else some (hash3, position3) := hcontent
    rw [shiftLoop, shift, run_get_bind]
    simp only [mod_eq_next hslot]
    rw [run_bind_ok (run_getSlot hread)]
    -- emptying the slot
    have hclear : ShiftDone s (some (Function.update s.slots slot none))
        ((setSlot slot 0 0).run s) := by
      obtain ⟨hsized', hslots'⟩ := hsized.setSlot hslot
        (show 0 < _ from Nat.pow_pos (by decide)) (show 0 < _ from Nat.pow_pos (by decide))
        (fun _ => rfl) rfl
      exact ⟨_, rfl, hslots', hsized', rfl, rfl, rfl⟩
    by_cases h0 : position3 = 0
    · rw [if_pos h0] at hcontent'
      rw [hcontent']
      simp only [if_pos h0]
      exact hclear
    · rw [if_neg h0] at hcontent'
      rw [hcontent']
      simp only [if_neg h0]
      by_cases hhome : hash3 % s.hashHeader.hashCapacity = next s.hashHeader.hashCapacity slot
      · rw [if_pos hhome, if_pos (show s.hashHeader.home (hash3, position3) = _ from hhome)]
        exact hclear
      · rw [if_neg hhome, if_neg (show ¬ s.hashHeader.home (hash3, position3) = _ from hhome)]
        obtain ⟨hsized', hslots'⟩ := hsized.setSlot hslot hhash3 hpos3 (absurd · h0) rfl
        rw [if_neg h0] at hslots'
        rw [run_bind_ok run_setSlot]
        have hstep := ih (next s.hashHeader.hashCapacity slot) hsized' (next_lt hslot)
        rw [hslots'] at hstep
        exact hstep

def InRange (log : Logreader) (s : Hashing) : Prop :=
  ∀ slot < s.hashHeader.hashCapacity, ∀ entry, s.slots slot = some entry →
    log.header.headerSize ≤ s.hashHeader.positionOf entry.2 ∧
      s.hashHeader.positionOf entry.2 < log.header.dataEnd

/-- What the search of `hash_delete` comes to, given what the one on slots does. -/
def DeleteDone (s : Hashing) (lens : Nat × Nat → Nat × Nat) (Good : Logiter → Logiter → Prop)
    (r : Option (Option Nat)) (res : EStateM.Result (Stop Returncode) Hashing Unit) : Prop :=
  match r with
  | none => ∃ s', res = .error .stuck s'
  | some none => ∃ s', res = .ok () s' ∧ SameTable s s' ∧ Good s'.iter s'.raIter
  | some (some slot) => slot < s.hashHeader.hashCapacity ∧ ∃ s₁ entry, SameTable s s₁ ∧
      Good s₁.iter s₁.raIter ∧ s.slots slot = some entry ∧
      res = (do shiftLoop (s.hashHeader.hashCapacity + 1) slot
                modifyHeader fun header => header.deletedEntry (lens entry).1 (lens entry).2 :
              Run Hashing Unit).run s₁

/-- **The loop of `hash_delete`** does what `RobinHood.find` does, and a shift. -/
theorem run_hashDeleteLoop {log : Logreader} : ∀ (fuel slot displacement hash : Nat)
    {s : Hashing}, Sized s.hashHeader s.hashtable → slot < s.hashHeader.hashCapacity →
    InRange log s → Good s.iter s.raIter → Compares (some log) s hash same lens Good →
    DeleteDone s lens Good
      (find s.hashHeader.hashCapacity s.hashHeader.home same fuel slot displacement s.slots)
      ((hashDeleteLoop log fuel slot displacement hash).run s) := by
  intro fuel
  induction fuel with
  | zero =>
    intro slot displacement hash s _ _ _ _ _
    exact ⟨s, rfl⟩
  | succ fuel ih =>
    intro slot displacement hash s hsized hslot hrange hgood hcmp
    obtain ⟨hash2, position2, hread, -, -, hcontent⟩ := hsized.readSlot hslot
    have hcontent' : s.slots slot = if position2 = 0 then none else some (hash2, position2) := hcontent
    rw [hashDeleteLoop, find]
    rw [run_bind_ok (run_getSlot hread)]
    by_cases h0 : position2 = 0
    · rw [if_pos h0] at hcontent'
      rw [hcontent']
      simp only [if_pos h0]
      exact ⟨s, rfl, .refl s, hgood⟩
    · rw [if_neg h0] at hcontent'
      rw [hcontent']
      simp only [if_neg h0]
      obtain ⟨hge, hlt⟩ := hrange slot hslot _ hcontent'
      have hin : ¬ (s.hashHeader.positionOf position2 < log.header.headerSize ∨
          log.header.dataEnd ≤ s.hashHeader.positionOf position2) := by
        intro hout
        simp only at hge hlt
        omega
      obtain ⟨s₂, hrun, hsame, hgood₂⟩ := hcmp slot hslot _ hcontent' s (.refl s) hgood
      rw [run_get_bind, if_neg hin, run_bind_ok hrun]
      by_cases hm : same (hash2, position2) = true
      · rw [if_pos hm, if_pos hm]
        exact ⟨hslot, s₂, (hash2, position2), hsame, hgood₂, hcontent', rfl⟩
      · rw [if_neg hm, if_neg hm]
        have hdisp := getDisplacement_eq hsized.capacity_lt hslot hash2
        have hhome : s.hashHeader.home (hash2, position2) = hash2 % s.hashHeader.hashCapacity := rfl
        simp only [hdisp, nextSlot_eq, hhome]
        by_cases hd : dist s.hashHeader.hashCapacity (hash2 % s.hashHeader.hashCapacity) slot
            < displacement
        · simp only [if_pos hd]
          exact ⟨s₂, rfl, hsame, hgood₂⟩
        · simp only [if_neg hd]
          have hrange₂ : InRange log s₂ := by
            intro slot hslot entry hentry
            rw [hsame.hashHeader] at hslot ⊢
            rw [hsame.slots] at hentry
            exact hrange slot hslot entry hentry
          have hstep := ih (next s.hashHeader.hashCapacity slot)
            (displacement + 1) hash (hsame.sized hsized)
            (by rw [hsame.hashHeader]; exact next_lt hslot) hrange₂ hgood₂ (hcmp.of_same hsame)
          rw [hsame.slots, hsame.hashHeader] at hstep
          unfold DeleteDone at hstep ⊢
          split at hstep
          · exact hstep
          · obtain ⟨s', hrun', hs', hg'⟩ := hstep
            exact ⟨s', hrun', hsame.trans hs', hg'⟩
          · obtain ⟨hlt', s₃, entry, hs₃, hg₃, hentry, hrun'⟩ := hstep
            rw [hsame.hashHeader] at hlt' hrun'
            rw [hsame.slots] at hentry
            exact ⟨hlt', s₃, entry, hsame.trans hs₃, hg₃, hentry, hrun'⟩

end Sparkey
