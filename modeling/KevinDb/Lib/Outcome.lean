import Mathlib.Tactic.Common

namespace KevinDb
set_option autoImplicit true

/-- What a computation comes to: a value, an error that it reports, or a panic. -/
inductive Outcome (α : Type) where
  | ok (value : α)
  | error (message : String)
  | panic
deriving DecidableEq

namespace Outcome

def bind : Outcome α → (α → Outcome β) → Outcome β
  | .ok value, f => f value
  | .error message, _ => .error message
  | .panic, _ => .panic

instance : Monad Outcome where
  pure := .ok
  bind := Outcome.bind

@[simp] theorem pure_eq (value : α) : (pure value : Outcome α) = .ok value := rfl

@[simp] theorem ok_bind (value : α) (f : α → Outcome β) : (Outcome.ok value >>= f) = f value := rfl

@[simp] theorem error_bind (message : String) (f : α → Outcome β) :
    ((.error message : Outcome α) >>= f) = .error message := rfl

@[simp] theorem panic_bind (f : α → Outcome β) : ((.panic : Outcome α) >>= f) = .panic := rfl

instance : LawfulMonad Outcome := LawfulMonad.mk' Outcome
  (fun outcome => by cases outcome <;> rfl)
  (fun _ _ => rfl)
  (fun outcome _ _ => by cases outcome <;> rfl)

theorem ok_ne_error (value : α) (message : String) : Outcome.ok value ≠ .error message := by
  intro h
  cases h

/-- `Result::ok`. There is no value where there is a panic, either. -/
def toOption : Outcome α → Option α
  | .ok value => some value
  | _ => none

theorem eq_ok_of_toOption {value : α} {outcome : Outcome α} (h : outcome.toOption = some value) :
    outcome = .ok value := by
  cases outcome with
  | ok result => exact congrArg Outcome.ok (Option.some.inj h)
  | error message => cases h
  | panic => cases h

/-- A computation ends without a panic, and if it has a value it is one of a kind. -/
def Returns (P : α → Prop) : Outcome α → Prop
  | .ok value => P value
  | .error _ => True
  | .panic => False

theorem Returns.ne_panic {P : α → Prop} {outcome : Outcome α} (h : outcome.Returns P) :
    outcome ≠ .panic := by
  rintro rfl
  exact h

theorem Returns.mono {P Q : α → Prop} {outcome : Outcome α} (h : outcome.Returns P)
    (hQ : ∀ value, P value → Q value) : outcome.Returns Q := by
  cases outcome with
  | ok value => exact hQ value h
  | error message => exact trivial
  | panic => exact h

theorem Returns.bind {P : α → Prop} {Q : β → Prop} {outcome : Outcome α} {f : α → Outcome β}
    (h : outcome.Returns P) (hf : ∀ value, P value → (f value).Returns Q) :
    (outcome >>= f).Returns Q := by
  cases outcome with
  | ok value => exact hf value h
  | error message => exact trivial
  | panic => exact h

theorem bind_eq_ok_iff {outcome : Outcome α} {f : α → Outcome β} {result : β} :
    (outcome >>= f) = .ok result ↔ ∃ value, outcome = .ok value ∧ f value = .ok result := by
  cases outcome with
  | ok value =>
    constructor
    · exact fun h => ⟨value, rfl, h⟩
    · rintro ⟨_, hvalue, h⟩
      cases hvalue
      exact h
  | error message =>
    constructor
    · intro h
      cases h
    · rintro ⟨_, hvalue, -⟩
      cases hvalue
  | panic =>
    constructor
    · intro h
      cases h
    · rintro ⟨_, hvalue, -⟩
      cases hvalue

theorem ok_or_error_eq_ok_iff {p : Prop} [Decidable p] {value result : α} {message : String} :
    (if p then Outcome.ok value else .error message) = .ok result ↔ p ∧ result = value := by
  split
  next h =>
    rw [ok.injEq, eq_comm]
    exact (and_iff_right h).symm
  next h =>
    constructor
    · nofun
    · exact fun hp => absurd hp.1 h

theorem ok_or_panic_eq_ok_iff {p : Prop} [Decidable p] {value result : α} :
    (if p then Outcome.ok value else .panic) = .ok result ↔ p ∧ result = value := by
  split
  next h =>
    rw [ok.injEq, eq_comm]
    exact (and_iff_right h).symm
  next h =>
    constructor
    · nofun
    · exact fun hp => absurd hp.1 h

theorem bind_ne_error {outcome : Outcome α} {f : α → Outcome β} {message : String}
    (h : outcome ≠ .error message) (hf : ∀ value, outcome = .ok value → f value ≠ .error message) :
    (outcome >>= f) ≠ .error message := by
  cases outcome with
  | ok value => exact hf value rfl
  | error other => exact fun heq => h (congrArg Outcome.error (error.inj heq))
  | panic => nofun

/-- Computations that each have a value on a condition, one after the other. -/
theorem mapM_eq_ok_iff {f : α → Outcome β} {P : α → Prop} {g : α → β}
    (hf : ∀ a b, f a = .ok b ↔ P a ∧ b = g a) {values : List α} {results : List β} :
    values.mapM f = .ok results ↔ (∀ a ∈ values, P a) ∧ results = values.map g := by
  induction values generalizing results with
  | nil => simp [eq_comm]
  | cons value values ih =>
    simp only [List.mapM_cons, bind_eq_ok_iff, hf, ih, pure_eq, ok.injEq, List.forall_mem_cons,
      List.map_cons]
    constructor
    · rintro ⟨_, ⟨hvalue, rfl⟩, _, ⟨hvalues, rfl⟩, rfl⟩
      exact ⟨⟨hvalue, hvalues⟩, rfl⟩
    · rintro ⟨⟨hvalue, hvalues⟩, rfl⟩
      exact ⟨_, ⟨hvalue, rfl⟩, _, ⟨hvalues, rfl⟩, rfl⟩

/-- Every value of a list has a result if the computations one after the other do. -/
theorem exists_ok_of_mapM {f : α → Outcome β} {values : List α} {results : List β}
    (h : values.mapM f = .ok results) {value : α} (hvalue : value ∈ values) :
    ∃ result, f value = .ok result := by
  induction values generalizing results with
  | nil => cases hvalue
  | cons first values ih =>
    rw [List.mapM_cons, bind_eq_ok_iff] at h
    obtain ⟨result, hresult, h⟩ := h
    rw [bind_eq_ok_iff] at h
    obtain ⟨results, hresults, -⟩ := h
    rcases List.mem_cons.1 hvalue with rfl | hvalue
    · exact ⟨result, hresult⟩
    · exact ih hresults hvalue

end Outcome

end KevinDb
