import Mathlib

/-!
# Programs that return codes

A C function that mutates what it is handed and returns a code is an `EStateM`
program: `ok` is the success code, `error` any other, and the state survives
both.  `Stop ε` adds to the codes `ε` the case of a call that has no result at
all, because it never returns or because the language gives it no meaning.

`RETHROW(f)` is then the monadic bind, and `ok_bind` and `error_bind` are its
two inversion rules.  `onFst` and `onSnd` run a program on one of two states,
`onNew` and `final` on a state made for it.  `Preserves I` programs keep the property
`I` of the state, whether they succeed or not.  Two runs `Accord` if they give the same
answer and leave related states, and a program that `Respects` a relation has runs that do
wherever it begins in related states.
-/

namespace Program

universe u

variable {ε σ τ α β : Type u}

/-- Why a call did not succeed. -/
inductive Stop (ε : Type u)
  | rc (code : ε)
  | stuck

open EStateM (Result)

/-- A program over the state `σ` with error codes `ε`. -/
abbrev Run (ε σ α : Type u) := EStateM (Stop ε) σ α

/-- The call gave a result, be it success or an error code. -/
def Returns : Result (Stop ε) σ α → Prop
  | .ok _ _ => True
  | .error (.rc _) _ => True
  | .error .stuck _ => False

def fail (code : ε) : Run ε σ α := throw (.rc code)

def stuck : Run ε σ α := throw .stuck

def onlyIf (c : Prop) [Decidable c] (x : Run ε σ PUnit) : Run ε σ PUnit :=
  if c then x else pure ⟨⟩

@[simp] theorem run_fail (code : ε) (s : σ) :
    (fail code : Run ε σ α).run s = .error (.rc code) s := rfl

@[simp] theorem run_stuck (s : σ) : (stuck : Run ε σ α).run s = .error .stuck s := rfl

theorem run_ite (p : Prop) [Decidable p] (x y : Run ε σ α) (s : σ) :
    (if p then x else y).run s = if p then x.run s else y.run s := by
  split <;> rfl

@[simp] theorem run_map {ε' : Type u} (f : α → β) (x : EStateM ε' σ α) (s : σ) :
    (f <$> x).run s = match x.run s with
      | .ok a s₁ => .ok (f a) s₁
      | .error e s₁ => .error e s₁ := by
  simp only [Functor.map, EStateM.run, EStateM.map]
  cases x s <;> rfl

theorem run_onlyIf_pos {c : Prop} [Decidable c] (hc : c) (x : Run ε σ PUnit) (s : σ) :
    (onlyIf c x).run s = x.run s := by
  rw [onlyIf, if_pos hc]

theorem run_onlyIf_neg {c : Prop} [Decidable c] (hc : ¬ c) (x : Run ε σ PUnit) (s : σ) :
    (onlyIf c x).run s = .ok ⟨⟩ s := by
  rw [onlyIf, if_neg hc]
  rfl

theorem ok_bind {x : Run ε σ α} {f : α → Run ε σ β} {s s' : σ} {b : β}
    (h : (x >>= f).run s = .ok b s') :
    ∃ a s₁, x.run s = .ok a s₁ ∧ (f a).run s₁ = .ok b s' := by
  rw [EStateM.run_bind] at h
  cases hx : x.run s with
  | ok a s₁ =>
    rw [hx] at h
    exact ⟨a, s₁, rfl, h⟩
  | error e s₁ =>
    rw [hx] at h
    cases h

theorem error_bind {x : Run ε σ α} {f : α → Run ε σ β} {s s' : σ} {e : Stop ε}
    (h : (x >>= f).run s = .error e s') :
    x.run s = .error e s' ∨ ∃ a s₁, x.run s = .ok a s₁ ∧ (f a).run s₁ = .error e s' := by
  rw [EStateM.run_bind] at h
  cases hx : x.run s with
  | ok a s₁ =>
    rw [hx] at h
    exact Or.inr ⟨a, s₁, rfl, h⟩
  | error e' s₁ =>
    rw [hx] at h
    cases h
    exact Or.inl rfl

theorem run_bind_ok {x : Run ε σ α} {f : α → Run ε σ β} {s s₁ : σ} {a : α}
    (h : x.run s = .ok a s₁) : (x >>= f).run s = (f a).run s₁ := by
  rw [EStateM.run_bind, h]

theorem run_bind_error {x : Run ε σ α} {f : α → Run ε σ β} {s s₁ : σ} {e : Stop ε}
    (h : x.run s = .error e s₁) : (x >>= f).run s = .error e s₁ := by
  rw [EStateM.run_bind, h]

theorem Returns.bind {x : Run ε σ α} {f : α → Run ε σ β} {s : σ} (hx : Returns (x.run s))
    (hf : ∀ a s₁, x.run s = .ok a s₁ → Returns ((f a).run s₁)) : Returns ((x >>= f).run s) := by
  cases hrun : x.run s with
  | ok a s₁ =>
    rw [run_bind_ok hrun]
    exact hf a s₁ hrun
  | error e s₁ =>
    rw [run_bind_error hrun]
    rw [hrun] at hx
    cases e with
    | rc code => trivial
    | stuck => exact hx.elim

theorem run_get_bind (f : σ → Run ε σ β) (s : σ) :
    ((get : Run ε σ σ) >>= f).run s = (f s).run s := rfl

theorem run_set_bind (s₁ : σ) (f : PUnit → Run ε σ β) (s : σ) :
    ((set s₁ : Run ε σ PUnit) >>= f).run s = (f ⟨⟩).run s₁ := rfl

theorem run_modify_bind (g : σ → σ) (f : PUnit → Run ε σ β) (s : σ) :
    ((modify g : Run ε σ PUnit) >>= f).run s = (f ⟨⟩).run (g s) := rfl

/-! ### Looking at an outcome -/

def success? : Result (Stop ε) σ α → Option σ
  | .ok _ s => some s
  | .error _ _ => none

theorem success?_eq_some {r : Result (Stop ε) σ PUnit} {s : σ} (h : success? r = some s) :
    r = .ok ⟨⟩ s := by
  cases r with
  | ok a s' => rw [Option.some.inj h]
  | error e s' => cases h

def stopped? : Result (Stop ε) σ α → Option (ε × σ)
  | .ok _ _ => none
  | .error (.rc code) s => some (code, s)
  | .error .stuck _ => none

theorem stopped?_eq_some {r : Result (Stop ε) σ α} {code : ε} {s : σ}
    (h : stopped? r = some (code, s)) : r = .error (.rc code) s := by
  cases r with
  | ok a s' => cases h
  | error e s' =>
    cases e with
    | rc code' =>
      cases h
      rfl
    | stuck => cases h

def isStuck : Result (Stop ε) σ α → Bool
  | .ok _ _ => false
  | .error (.rc _) _ => false
  | .error .stuck _ => true

theorem exists_of_isStuck {r : Result (Stop ε) σ α} (h : isStuck r = true) :
    ∃ s, r = .error .stuck s := by
  cases r with
  | ok a s => cases h
  | error e s =>
    cases e with
    | rc code => cases h
    | stuck => exact ⟨s, rfl⟩

theorem ok_of_toOption {r : Except ε α} {a : α} (h : r.toOption = some a) : r = .ok a := by
  cases r with
  | ok b => rw [Option.some.inj h]
  | error e => cases h

def failure? : Except ε α → Option ε
  | .ok _ => none
  | .error code => some code

theorem failure?_eq_some {r : Except ε α} {code : ε} (h : failure? r = some code) :
    r = .error code := by
  cases r with
  | ok a => cases h
  | error e => rw [Option.some.inj h]

/-! ### One state among several -/

def onFst (x : Run ε σ α) : Run ε (σ × τ) α := fun s =>
  match x.run s.1 with
  | .ok a s₁ => .ok a (s₁, s.2)
  | .error e s₁ => .error e (s₁, s.2)

def onSnd (x : Run ε τ α) : Run ε (σ × τ) α := fun s =>
  match x.run s.2 with
  | .ok a s₂ => .ok a (s.1, s₂)
  | .error e s₂ => .error e (s.1, s₂)

def onNew (s : σ) (x : Run ε (σ × τ) α) : Run ε τ α := fun t =>
  match x.run (s, t) with
  | .ok a st => .ok a st.2
  | .error e st => .error e st.2

def final (s : σ) (x : Run ε σ PUnit) : Run ε τ σ := fun t =>
  match x.run s with
  | .ok _ s₁ => .ok s₁ t
  | .error e _ => .error e t

/-- Look at the code of a call instead of passing an error on. -/
def attempt (x : Run ε σ α) : Run ε σ (Except ε α) := fun s =>
  match x.run s with
  | .ok a s₁ => .ok (.ok a) s₁
  | .error (.rc code) s₁ => .ok (.error code) s₁
  | .error .stuck s₁ => .error .stuck s₁

def lift : Except ε α → Run ε σ α
  | .ok a => pure a
  | .error code => fail code

@[simp] theorem run_onFst_ok {x : Run ε σ α} {s s₁ : σ} {t : τ} {a : α} (h : x.run s = .ok a s₁) :
    (onFst x : Run ε (σ × τ) α).run (s, t) = .ok a (s₁, t) := by
  simp only [onFst, EStateM.run] at *
  rw [h]

@[simp] theorem run_onSnd_ok {x : Run ε τ α} {s : σ} {t t₁ : τ} {a : α} (h : x.run t = .ok a t₁) :
    (onSnd x : Run ε (σ × τ) α).run (s, t) = .ok a (s, t₁) := by
  simp only [onSnd, EStateM.run] at *
  rw [h]

@[simp] theorem run_onFst_error {x : Run ε σ α} {s s₁ : σ} {t : τ} {e : Stop ε}
    (h : x.run s = .error e s₁) :
    (onFst x : Run ε (σ × τ) α).run (s, t) = .error e (s₁, t) := by
  simp only [onFst, EStateM.run] at *
  rw [h]

@[simp] theorem run_onSnd_error {x : Run ε τ α} {s : σ} {t t₁ : τ} {e : Stop ε}
    (h : x.run t = .error e t₁) :
    (onSnd x : Run ε (σ × τ) α).run (s, t) = .error e (s, t₁) := by
  simp only [onSnd, EStateM.run] at *
  rw [h]

theorem run_onNew_ok {x : Run ε (σ × τ) α} {s s₁ : σ} {t t₁ : τ} {a : α}
    (h : x.run (s, t) = .ok a (s₁, t₁)) : (onNew s x).run t = .ok a t₁ := by
  simp only [onNew, EStateM.run] at *
  rw [h]

theorem run_onNew_error {x : Run ε (σ × τ) α} {s : σ} {t : τ} {st : σ × τ} {e : Stop ε}
    (h : x.run (s, t) = .error e st) : (onNew s x).run t = .error e st.2 := by
  simp only [onNew, EStateM.run] at *
  rw [h]

theorem run_onNew_onFst_ok {x : Run ε σ α} {f : α → Run ε (σ × τ) β} {s s₁ : σ} {a : α}
    (h : x.run s = .ok a s₁) (t : τ) :
    (onNew s (onFst x >>= f)).run t = (onNew s₁ (f a)).run t := by
  have hrun : (onFst x >>= f).run (s, t) = (f a).run (s₁, t) := run_bind_ok (run_onFst_ok h)
  simp only [onNew, EStateM.run] at hrun ⊢
  rw [hrun]

theorem run_onNew_onFst_error {x : Run ε σ α} {f : α → Run ε (σ × τ) β} {s s₁ : σ} {e : Stop ε}
    (h : x.run s = .error e s₁) (t : τ) : (onNew s (onFst x >>= f)).run t = .error e t :=
  run_onNew_error (run_bind_error (run_onFst_error h))

theorem run_onNew_onSnd {x : Run ε τ α} {f : α → Run ε (σ × τ) β} (s : σ) (t : τ) :
    (onNew s (onSnd x >>= f)).run t = (x >>= fun a => onNew s (f a)).run t := by
  cases hx : x.run t with
  | ok a t₁ =>
    have hrun : (onSnd x >>= f).run (s, t) = (f a).run (s, t₁) := run_bind_ok (run_onSnd_ok hx)
    rw [run_bind_ok hx]
    simp only [onNew, EStateM.run] at hrun ⊢
    rw [hrun]
  | error e t₁ =>
    rw [run_bind_error hx, run_onNew_error (run_bind_error (run_onSnd_error hx))]

theorem run_final_ok {x : Run ε σ PUnit} {s s₁ : σ} {t : τ} {u : PUnit}
    (h : x.run s = .ok u s₁) : (final s x : Run ε τ σ).run t = .ok s₁ t := by
  simp only [final, EStateM.run] at *
  rw [h]

theorem run_attempt_ok {x : Run ε σ α} {s s₁ : σ} {a : α} (h : x.run s = .ok a s₁) :
    (attempt x).run s = .ok (.ok a) s₁ := by
  simp only [attempt, EStateM.run] at *
  rw [h]

@[simp] theorem run_lift_ok (a : α) (s : σ) :
    (lift (.ok a) : Run ε σ α).run s = .ok a s := rfl

@[simp] theorem run_lift_error (code : ε) (s : σ) :
    (lift (.error code) : Run ε σ α).run s = .error (.rc code) s := rfl

/-! ### What is kept -/

def Leaves (I : σ → Prop) : Result (Stop ε) σ α → Prop
  | .ok _ s => I s
  | .error (.rc _) s => I s
  | .error .stuck _ => True

def Preserves (I : σ → Prop) (x : Run ε σ α) : Prop := ∀ s, I s → Leaves I (x.run s)

def LeadsTo (x : Run ε σ α) (s s' : σ) : Prop :=
  (∃ a, x.run s = .ok a s') ∨ ∃ code, x.run s = .error (.rc code) s'

section Preserves

variable {I : σ → Prop} {J : τ → Prop}

theorem Preserves.of_leadsTo {x : Run ε σ α} {s s' : σ} (hx : Preserves I x) (hs : I s)
    (h : LeadsTo x s s') : I s' := by
  have hl := hx s hs
  rcases h with ⟨a, hrun⟩ | ⟨code, hrun⟩
  · rw [hrun] at hl
    exact hl
  · rw [hrun] at hl
    exact hl

theorem preserves_of_leadsTo {x : Run ε σ α} (h : ∀ s s', I s → LeadsTo x s s' → I s') :
    Preserves I x := by
  intro s hs
  cases hrun : x.run s with
  | ok a s' => exact h s s' hs (Or.inl ⟨a, hrun⟩)
  | error e s' =>
    cases e with
    | rc code => exact h s s' hs (Or.inr ⟨code, hrun⟩)
    | stuck => trivial

theorem LeadsTo.bind_pure {x : Run ε σ α} {s s' : σ} (h : LeadsTo x s s') (f : α → β) :
    LeadsTo (x >>= fun a => pure (f a)) s s' := by
  rcases h with ⟨a, hrun⟩ | ⟨code, hrun⟩
  · exact Or.inl ⟨f a, by rw [run_bind_ok hrun]; rfl⟩
  · exact Or.inr ⟨code, run_bind_error hrun⟩

theorem leaves_bind {J : σ → Prop} {x : Run ε σ α} {f : α → Run ε σ β} {s : σ}
    (hx : Leaves J (x.run s)) (hstop : ∀ s, J s → I s)
    (hf : ∀ a s₁, x.run s = .ok a s₁ → J s₁ → Leaves I ((f a).run s₁)) :
    Leaves I ((x >>= f).run s) := by
  rw [EStateM.run_bind]
  cases hrun : x.run s with
  | ok a s₁ =>
    rw [hrun] at hx
    exact hf a s₁ hrun hx
  | error e s₁ =>
    rw [hrun] at hx
    cases e with
    | rc code => exact hstop _ hx
    | stuck => trivial

theorem preserves_pure (a : α) : Preserves I (pure a : Run ε σ α) := fun _ h => h

theorem preserves_fail (code : ε) : Preserves I (fail code : Run ε σ α) := fun _ h => h

theorem preserves_stuck : Preserves I (stuck : Run ε σ α) := fun _ _ => trivial

theorem preserves_modify {f : σ → σ} (hf : ∀ s, I s → I (f s)) :
    Preserves I (modify f : Run ε σ PUnit) := fun s h => hf s h

theorem Preserves.bind {x : Run ε σ α} {f : α → Run ε σ β} (hx : Preserves I x)
    (hf : ∀ a, Preserves I (f a)) : Preserves I (x >>= f) := fun s h =>
  leaves_bind (hx s h) (fun _ h => h) fun a s₁ _ h₁ => hf a s₁ h₁

theorem Preserves.get_bind {f : σ → Run ε σ β} (hf : ∀ s, I s → Leaves I ((f s).run s)) :
    Preserves I ((get : Run ε σ σ) >>= f) := hf

theorem Preserves.ite {c : Prop} [Decidable c] {x y : Run ε σ α} (hx : Preserves I x)
    (hy : Preserves I y) : Preserves I (if c then x else y) := by
  split_ifs
  · exact hx
  · exact hy

theorem Preserves.check {c : Prop} [Decidable c] {code : ε} {f : PUnit → Run ε σ α}
    (hf : ∀ u, Preserves I (f u)) : Preserves I (if c then fail code >>= f else f ⟨⟩) :=
  .ite ((preserves_fail code).bind hf) (hf _)

theorem Preserves.attempt {x : Run ε σ α} (hx : Preserves I x) : Preserves I (attempt x) := by
  intro s h
  have hs := hx s h
  simp only [Program.attempt, EStateM.run] at hs ⊢
  cases hrun : x s with
  | ok a s₁ =>
    rw [hrun] at hs
    exact hs
  | error e s₁ =>
    rw [hrun] at hs
    cases e with
    | rc code => exact hs
    | stuck => trivial

theorem Preserves.onFst {x : Run ε σ α} (hx : Preserves I x) :
    Preserves (fun s => I s.1 ∧ J s.2) (onFst x : Run ε (σ × τ) α) := by
  rintro ⟨s, t⟩ ⟨h, ht⟩
  have hs := hx s h
  simp only [Program.onFst, EStateM.run] at hs ⊢
  cases hrun : x s with
  | ok a s₁ =>
    rw [hrun] at hs
    exact ⟨hs, ht⟩
  | error e s₁ =>
    rw [hrun] at hs
    cases e with
    | rc code => exact ⟨hs, ht⟩
    | stuck => trivial

theorem Preserves.onSnd {x : Run ε τ α} (hx : Preserves J x) :
    Preserves (fun s => I s.1 ∧ J s.2) (onSnd x : Run ε (σ × τ) α) := by
  rintro ⟨s, t⟩ ⟨h, ht⟩
  have hs := hx t ht
  simp only [Program.onSnd, EStateM.run] at hs ⊢
  cases hrun : x t with
  | ok a t₁ =>
    rw [hrun] at hs
    exact ⟨h, hs⟩
  | error e t₁ =>
    rw [hrun] at hs
    cases e with
    | rc code => exact ⟨h, hs⟩
    | stuck => trivial

theorem Preserves.onNew {s : σ} {x : Run ε (σ × τ) α} (hs : I s)
    (hx : Preserves (fun st => I st.1 ∧ J st.2) x) : Preserves J (onNew s x) := by
  intro t ht
  have h := hx (s, t) ⟨hs, ht⟩
  simp only [Program.onNew, EStateM.run] at h ⊢
  cases hrun : x (s, t) with
  | ok a st =>
    rw [hrun] at h
    exact h.2
  | error e st =>
    rw [hrun] at h
    cases e with
    | rc code => exact h.2
    | stuck => trivial

end Preserves

/-! ### What is kept but for some errors -/

/-- A result comes with a state that has the property, unless it is one of some errors. -/
def LeavesBut (E : ε → σ → Prop) (I : σ → Prop) : Result (Stop ε) σ α → Prop
  | .ok _ s => I s
  | .error (.rc code) s => I s ∨ E code s
  | .error .stuck _ => True

/-- The program keeps the property, unless it answers one of some errors. -/
def PreservesBut (E : ε → σ → Prop) (I : σ → Prop) (x : Run ε σ α) : Prop :=
  ∀ s, I s → LeavesBut E I (x.run s)

section PreservesBut

variable {E : ε → σ → Prop} {I : σ → Prop}

theorem PreservesBut.of_ok {x : Run ε σ α} {s s' : σ} {a : α} (hx : PreservesBut E I x) (hs : I s)
    (h : x.run s = .ok a s') : I s' := by
  have hl := hx s hs
  rwa [h] at hl

theorem PreservesBut.of_error {x : Run ε σ α} {s s' : σ} {code : ε} (hx : PreservesBut E I x)
    (hs : I s) (h : x.run s = .error (.rc code) s') : I s' ∨ E code s' := by
  have hl := hx s hs
  rwa [h] at hl

theorem Preserves.but {x : Run ε σ α} (hx : Preserves I x) : PreservesBut E I x := by
  intro s hs
  have hl := hx s hs
  cases hrun : x.run s with
  | ok a s' =>
    rw [hrun] at hl
    exact hl
  | error e s' =>
    rw [hrun] at hl
    cases e with
    | rc code => exact Or.inl hl
    | stuck => trivial

theorem PreservesBut.bind {x : Run ε σ α} {f : α → Run ε σ β} (hx : PreservesBut E I x)
    (hf : ∀ a, PreservesBut E I (f a)) : PreservesBut E I (x >>= f) := by
  intro s hs
  have hl := hx s hs
  cases hrun : x.run s with
  | ok a s₁ =>
    rw [hrun] at hl
    rw [run_bind_ok hrun]
    exact hf a s₁ hl
  | error e s₁ =>
    rw [hrun] at hl
    rw [run_bind_error hrun]
    cases e with
    | rc code => exact hl
    | stuck => trivial

theorem PreservesBut.get_bind {f : σ → Run ε σ β} (hf : ∀ s, I s → LeavesBut E I ((f s).run s)) :
    PreservesBut E I ((get : Run ε σ σ) >>= f) := hf

theorem PreservesBut.ite {c : Prop} [Decidable c] {x y : Run ε σ α} (hx : PreservesBut E I x)
    (hy : PreservesBut E I y) : PreservesBut E I (if c then x else y) := by
  split_ifs
  · exact hx
  · exact hy

theorem PreservesBut.check {c : Prop} [Decidable c] {code : ε} {f : PUnit → Run ε σ α}
    (hf : ∀ u, PreservesBut E I (f u)) :
    PreservesBut E I (if c then fail code >>= f else f ⟨⟩) :=
  .ite ((preserves_fail code).but.bind hf) (hf _)

end PreservesBut

/-! ### Two runs alike -/

/-- Two runs give the same answer, and leave states that are related: by `Q` where they succeed, by
`E` where they do not. -/
def Accord (E Q : σ → σ → Prop) : Result (Stop ε) σ α → Result (Stop ε) σ α → Prop
  | .ok a s, .ok b t => a = b ∧ Q s t
  | .error (.rc code) s, .error (.rc code') t => code = code' ∧ E s t
  | .error .stuck _, .error .stuck _ => True
  | _, _ => False

section Accord

variable {E E' Q R : σ → σ → Prop} {x : Run ε σ α} {r r' : Result (Stop ε) σ α} {s s' t : σ} {a : α}

theorem agree_refl (hE : ∀ s, E s s) (hQ : ∀ s, Q s s) (r : Result (Stop ε) σ α) :
    Accord E Q r r := by
  cases r with
  | ok a s => exact ⟨rfl, hQ s⟩
  | error e s =>
    cases e with
    | rc code => exact ⟨rfl, hE s⟩
    | stuck => trivial

theorem Accord.cases (h : Accord E Q r r') :
    (∃ a s t, r = .ok a s ∧ r' = .ok a t ∧ Q s t) ∨
      (∃ code s t, r = .error (.rc code) s ∧ r' = .error (.rc code) t ∧ E s t) ∨
      ∃ s t, r = .error .stuck s ∧ r' = .error .stuck t := by
  match r, r' with
  | .ok a s, .ok b t =>
    obtain ⟨rfl, hQ⟩ := h
    exact Or.inl ⟨a, s, t, rfl, rfl, hQ⟩
  | .error (.rc code) s, .error (.rc code') t =>
    obtain ⟨rfl, hE⟩ := h
    exact Or.inr (Or.inl ⟨code, s, t, rfl, rfl, hE⟩)
  | .error .stuck s, .error .stuck t => exact Or.inr (Or.inr ⟨s, t, rfl, rfl⟩)
  | .ok _ _, .error _ _ => exact h.elim
  | .error (.rc _) _, .ok _ _ => exact h.elim
  | .error .stuck _, .ok _ _ => exact h.elim
  | .error (.rc _) _, .error .stuck _ => exact h.elim
  | .error .stuck _, .error (.rc _) _ => exact h.elim

theorem Accord.mono (h : Accord E Q r r') (hE : ∀ s t, E s t → E' s t) (hQ : ∀ s t, Q s t → R s t) :
    Accord E' R r r' := by
  rcases h.cases with ⟨a, s, t, rfl, rfl, h'⟩ | ⟨code, s, t, rfl, rfl, h'⟩ | ⟨s, t, rfl, rfl⟩
  · exact ⟨rfl, hQ s t h'⟩
  · exact ⟨rfl, hE s t h'⟩
  · trivial

theorem Accord.ok (h : Accord E Q (x.run s) (x.run t)) (hrun : x.run s = .ok a s') :
    ∃ t', x.run t = .ok a t' ∧ Q s' t' := by
  rcases h.cases with ⟨b, s₁, t₁, hs, ht, h⟩ | ⟨code, s₁, t₁, hs, -, -⟩ | ⟨s₁, t₁, hs, -⟩
  · cases hrun.symm.trans hs
    exact ⟨t₁, ht, h⟩
  · cases hrun.symm.trans hs
  · cases hrun.symm.trans hs

/-- **Runs that agree go on alike**: the states in between are related by `Q`. -/
theorem Accord.bind {f : α → Run ε σ β} (hx : Accord E Q (x.run s) (x.run t))
    (hf : ∀ a s' t', x.run s = .ok a s' → Q s' t' → Accord E R ((f a).run s') ((f a).run t')) :
    Accord E R ((x >>= f).run s) ((x >>= f).run t) := by
  rcases hx.cases with ⟨a, s', t', hs, ht, h⟩ | ⟨code, s', t', hs, ht, h⟩ | ⟨s', t', hs, ht⟩
  · rw [run_bind_ok hs, run_bind_ok ht]
    exact hf a s' t' hs h
  · rw [run_bind_error hs, run_bind_error ht]
    exact ⟨rfl, h⟩
  · rw [run_bind_error hs, run_bind_error ht]
    trivial

/-- A check that stops both with an error, or lets both go on. -/
theorem agree_check {c : Prop} [Decidable c] {code : ε} {f : PUnit → Run ε σ α} (hE : E s t)
    (hf : ¬ c → Accord E Q ((f ⟨⟩).run s) ((f ⟨⟩).run t)) :
    Accord E Q ((if c then fail code >>= f else f ⟨⟩).run s)
      ((if c then fail code >>= f else f ⟨⟩).run t) := by
  by_cases hc : c
  · rw [if_pos hc]
    exact ⟨rfl, hE⟩
  · rw [if_neg hc]
    exact hf hc

theorem Accord.attempt (hx : Accord E Q (x.run s) (x.run t)) :
    Accord E (fun s t => E s t ∨ Q s t) ((attempt x).run s) ((attempt x).run t) := by
  have hattempt : ∀ s, (Program.attempt x).run s = match x.run s with
      | .ok a s₁ => .ok (.ok a) s₁
      | .error (.rc code) s₁ => .ok (.error code) s₁
      | .error .stuck s₁ => .error .stuck s₁ := fun _ => rfl
  rw [hattempt, hattempt]
  rcases hx.cases with ⟨a, s', t', hs, ht, h⟩ | ⟨code, s', t', hs, ht, h⟩ | ⟨s', t', hs, ht⟩
  · rw [hs, ht]
    exact ⟨rfl, Or.inr h⟩
  · rw [hs, ht]
    exact ⟨rfl, Or.inl h⟩
  · rw [hs, ht]
    trivial

end Accord

/-- **The program does the same on states that are related**, and leaves them related. -/
def Respects (R : σ → σ → Prop) (x : Run ε σ α) : Prop :=
  ∀ s t, R s t → Accord R R (x.run s) (x.run t)

section Respects

variable {R : σ → σ → Prop}

theorem respects_pure (a : α) : Respects R (pure a : Run ε σ α) := fun _ _ h => ⟨rfl, h⟩

theorem respects_fail (code : ε) : Respects R (fail code : Run ε σ α) := fun _ _ h => ⟨rfl, h⟩

theorem respects_stuck : Respects R (stuck : Run ε σ α) := fun _ _ _ => trivial

theorem respects_modify {f : σ → σ} (hf : ∀ s t, R s t → R (f s) (f t)) :
    Respects R (modify f : Run ε σ PUnit) := fun s t h => ⟨rfl, hf s t h⟩

theorem Respects.bind {x : Run ε σ α} {f : α → Run ε σ β} (hx : Respects R x)
    (hf : ∀ a, Respects R (f a)) : Respects R (x >>= f) := fun s t h =>
  (hx s t h).bind fun a s' t' _ h' => hf a s' t' h'

theorem Respects.ite {c : Prop} [Decidable c] {x y : Run ε σ α} (hx : Respects R x)
    (hy : Respects R y) : Respects R (if c then x else y) := by
  split_ifs
  · exact hx
  · exact hy

theorem Respects.onlyIf {c : Prop} [Decidable c] {x : Run ε σ PUnit} (hx : Respects R x) :
    Respects R (onlyIf c x) := hx.ite (respects_pure _)

/-- What the run on the second of two related states tells of the one on the first. -/
theorem Respects.ok_left {x : Run ε σ α} (hx : Respects R x) {s t t' : σ} {a : α} (h : R s t)
    (hrun : x.run t = .ok a t') : ∃ s', x.run s = .ok a s' ∧ R s' t' := by
  rcases (hx s t h).cases with ⟨b, s₁, t₁, hs, ht, h'⟩ | ⟨code, s₁, t₁, -, ht, -⟩ | ⟨s₁, t₁, -, ht⟩
  · cases hrun.symm.trans ht
    exact ⟨s₁, hs, h'⟩
  · cases hrun.symm.trans ht
  · cases hrun.symm.trans ht

theorem Respects.error_left {x : Run ε σ α} (hx : Respects R x) {s t t' : σ} {code : ε} (h : R s t)
    (hrun : x.run t = .error (.rc code) t') : ∃ s', x.run s = .error (.rc code) s' ∧ R s' t' := by
  rcases (hx s t h).cases with ⟨b, s₁, t₁, -, ht, -⟩ | ⟨code', s₁, t₁, hs, ht, h'⟩ | ⟨s₁, t₁, -, ht⟩
  · cases hrun.symm.trans ht
  · cases hrun.symm.trans ht
    exact ⟨s₁, hs, h'⟩
  · cases hrun.symm.trans ht

theorem Respects.onSnd {x : Run ε σ α} (hx : Respects R x) :
    Respects (fun a b : τ × σ => a.1 = b.1 ∧ R a.2 b.2) (onSnd x : Run ε (τ × σ) α) := by
  rintro ⟨a, s⟩ ⟨_, t⟩ ⟨rfl, h⟩
  rcases (hx s t h).cases with ⟨b, s', t', hs, ht, h'⟩ | ⟨code, s', t', hs, ht, h'⟩ | ⟨s', t', hs, ht⟩
  · rw [run_onSnd_ok hs, run_onSnd_ok ht]
    exact ⟨rfl, rfl, h'⟩
  · rw [run_onSnd_error hs, run_onSnd_error ht]
    exact ⟨rfl, rfl, h'⟩
  · rw [run_onSnd_error hs, run_onSnd_error ht]
    trivial

end Respects

/-! ### No error codes -/

/-- The program gives no error code: it succeeds, or there is no result. -/
def Quiet (x : Run ε σ α) : Prop := ∀ s code s', x.run s ≠ .error (.rc code) s'

theorem Quiet.ok_or_stuck {x : Run ε σ α} (hx : Quiet x) (s : σ) :
    (∃ a s', x.run s = .ok a s') ∨ ∃ s', x.run s = .error .stuck s' := by
  cases hrun : x.run s with
  | ok a s' => exact Or.inl ⟨a, s', rfl⟩
  | error e s' =>
    cases e with
    | rc code => exact absurd hrun (hx s code s')
    | stuck => exact Or.inr ⟨s', rfl⟩

theorem quiet_pure (a : α) : Quiet (pure a : Run ε σ α) := fun _ _ _ => nofun

theorem quiet_stuck : Quiet (stuck : Run ε σ α) := fun _ _ _ => nofun

theorem quiet_get : Quiet (get : Run ε σ σ) := fun _ _ _ => nofun

theorem quiet_modify (f : σ → σ) : Quiet (modify f : Run ε σ PUnit) := fun _ _ _ => nofun

theorem Quiet.bind {x : Run ε σ α} {f : α → Run ε σ β} (hx : Quiet x) (hf : ∀ a, Quiet (f a)) :
    Quiet (x >>= f) := by
  intro s code s' h
  rcases error_bind h with h | ⟨a, s₁, -, h⟩
  · exact hx s code s' h
  · exact hf a s₁ code s' h

theorem Quiet.ite {c : Prop} [Decidable c] {x y : Run ε σ α} (hx : Quiet x) (hy : Quiet y) :
    Quiet (if c then x else y) := by
  split_ifs
  · exact hx
  · exact hy

end Program
