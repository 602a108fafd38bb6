import Mathlib
import Missive.Reading

/-!
# Missive.Proofs.Reading

How the steps of a stream reader end, whatever the reader is made of.

`Yields` says how a step ends: with a value in a known reader, or with an error.  `Sees` says what
calls made one after another show.
-/

namespace Missive

variable {σ α β : Type} {r r' r'' r₁ r₂ : σ}

theorem bind_of_ok {p : EStateM ReadError σ α} (f : α → EStateM ReadError σ β)
    (h : p r = .ok a r') : (p >>= f) r = f a r' := by
  simp only [bind, EStateM.bind, h]

theorem bind_of_error {p : EStateM ReadError σ α} (f : α → EStateM ReadError σ β)
    (h : p r = .error e r') : (p >>= f) r = .error e r' := by
  simp only [bind, EStateM.bind, h]

theorem get_bind (f : σ → EStateM ReadError σ β) (r : σ) : (get >>= f) r = f r r := rfl

theorem modify_bind (g : σ → σ) (f : Unit → EStateM ReadError σ β) (r : σ) :
    (modify g >>= f) r = f () (g r) := rfl

theorem bind_eq_ok {p : EStateM ReadError σ α} {f : α → EStateM ReadError σ β}
    (h : (p >>= f) r = .ok b r'') : ∃ a r', p r = .ok a r' ∧ f a r' = .ok b r'' := by
  cases hp : p r with
  | ok a r' => exact ⟨a, r', rfl, by rwa [bind_of_ok f hp] at h⟩
  | error e r' => rw [bind_of_error f hp] at h; contradiction

theorem bind_eq_bind {p : EStateM ReadError σ α} (f : α → EStateM ReadError σ β)
    (h : p r = p r') : (p >>= f) r = (p >>= f) r' := by
  simp only [bind, EStateM.bind, h]

/-- A step ends with a result; if that is a value, the reader is left as `r`. -/
def Yields (x : EStateM.Result ReadError σ α) (result : Except ReadError α) (r : σ) : Prop :=
  match result with
  | .ok a => x = .ok a r
  | .error e => ∃ r', x = .error e r'

namespace Yields

theorem ok {x : EStateM.Result ReadError σ α} (h : x = .ok a r) : Yields x (.ok a) r := h

theorem error {x : EStateM.Result ReadError σ α} (h : x = .error e r') :
    Yields x (.error e) r := ⟨r', h⟩

/-- What a step does, the steps after it go on from. -/
theorem bind {p : EStateM ReadError σ α} {f : α → EStateM ReadError σ β}
    {result : Except ReadError α} {g : α → Except ReadError β} (hp : Yields (p r) result r₁)
    (hf : ∀ a, Yields (f a r₁) (g a) r₂) : Yields ((p >>= f) r) (result >>= g) r₂ := by
  cases result with
  | ok a =>
      rw [bind_of_ok f hp]
      exact hf a
  | error e =>
      obtain ⟨r', hr'⟩ := hp
      exact .error (bind_of_error f hr')

theorem pure (a : α) (r : σ) : Yields ((Pure.pure a : EStateM ReadError σ α) r) (.ok a) r := rfl

theorem map {p : EStateM ReadError σ α} {result : Except ReadError α} (f : α → β)
    (hp : Yields (p r) result r₁) : Yields ((f <$> p) r) (f <$> result) r₁ := by
  cases result with
  | ok a =>
      have hp : p r = .ok a r₁ := hp
      simp [Yields, Functor.map, EStateM.map, Except.map, hp]
  | error e =>
      obtain ⟨r', hr'⟩ := hp
      exact ⟨r', by simp [Functor.map, EStateM.map, hr']⟩

end Yields

/-! ## loops -/

section Loops

variable {hasNext : EStateM ReadError σ Bool} {step : α → EStateM ReadError σ α}

theorem repeatNext_of_false (h : hasNext r = .ok false r) (fuel : Nat) (a : α) :
    repeatNext hasNext step fuel a r = .ok a r := by
  cases fuel with
  | zero => rfl
  | succ fuel => exact bind_of_ok _ h

theorem repeatNext_of_true (h : hasNext r = .ok true r) (fuel : Nat) (a : α) :
    repeatNext hasNext step (fuel + 1) a r = (step a >>= repeatNext hasNext step fuel) r :=
  bind_of_ok _ h

end Loops

/-! ## calls one after another -/

/-- Calls made one after another from the reader `r` all show what is given, and end at `r'`.  What
one of them shows is given by `Shows`. -/
inductive Sees {τ : Type} (Shows : τ → σ → σ → Prop) : List τ → σ → σ → Prop where
  | nil (r : σ) : Sees Shows [] r r
  | cons {sight : τ} {sights : List τ} {r r₁ r' : σ} (hsight : Shows sight r r₁)
      (h : Sees Shows sights r₁ r') : Sees Shows (sight :: sights) r r'

theorem Sees.append {τ : Type} {Shows : τ → σ → σ → Prop} {sights sights' : List τ}
    (h : Sees Shows sights r r₁) (h' : Sees Shows sights' r₁ r') :
    Sees Shows (sights ++ sights') r r' := by
  induction h with
  | nil r => exact h'
  | cons hsight h ih => exact .cons hsight (ih h')

/-! ## results -/

/-- The result of a step without its reader. -/
def outcome : EStateM.Result ReadError σ α → Except ReadError α
  | .ok a _ => .ok a
  | .error e _ => .error e

/-- The reader that a step leaves. -/
def left : EStateM.Result ReadError σ α → σ
  | .ok _ r | .error _ r => r

/-- Where a step is known to end, it ends. -/
theorem Yields.eq_of_ok {x : EStateM.Result ReadError σ α} (h : Yields x result r)
    (hx : x = .ok a r') : result = .ok a ∧ r' = r := by
  cases result with
  | ok b =>
      cases hx.symm.trans (show x = .ok b r from h)
      exact ⟨rfl, rfl⟩
  | error e =>
      obtain ⟨r₁, hr₁⟩ := h
      rw [hr₁] at hx
      contradiction

theorem Yields.outcome_eq {x : EStateM.Result ReadError σ α} (h : Yields x result r) :
    outcome x = result := by
  cases result with
  | ok a => rw [show x = .ok a r from h]; rfl
  | error e => obtain ⟨r', hr'⟩ := h; rw [hr']; rfl

end Missive
