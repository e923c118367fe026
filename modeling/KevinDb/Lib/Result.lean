import Mathlib.Init

namespace KevinDb
set_option autoImplicit true

/-- A computation that succeeds has succeeded in its first part and then in the rest. -/
theorem bind_eq_ok {x : Except ε α} {f : α → Except ε β} (h : x.bind f = .ok b) :
    ∃ a, x = .ok a ∧ f a = .ok b := by
  cases x with
  | error e => cases h
  | ok a => exact ⟨a, rfl, h⟩

theorem bind_eq_ok_iff {x : Except ε α} {f : α → Except ε β} :
    (x >>= f) = .ok b ↔ ∃ a, x = .ok a ∧ f a = .ok b := by
  constructor
  · exact bind_eq_ok
  · rintro ⟨a, rfl, h⟩
    exact h

theorem map_eq_ok {x : Except ε α} {f : α → β} (h : x.map f = .ok b) :
    ∃ a, x = .ok a ∧ f a = b := by
  cases x with
  | error e => cases h
  | ok a => exact ⟨a, rfl, Except.ok.inj h⟩

theorem eq_ok_of_toOption {e : Except ε α} {a : α} (h : e.toOption = some a) : e = .ok a := by
  cases e with
  | error e => cases h
  | ok b => exact congrArg Except.ok (Option.some.inj h)

theorem mapM_cons_eq_ok {f : α → Except ε β} {l : List α} {bs : List β} :
    (a :: l).mapM f = .ok bs ↔ ∃ b bs', f a = .ok b ∧ l.mapM f = .ok bs' ∧ bs = b :: bs' := by
  rw [List.mapM_cons]
  simp only [bind_eq_ok_iff]
  refine exists_congr fun b => ⟨?_, ?_⟩
  · rintro ⟨hb, bs', hbs', h⟩
    cases h
    exact ⟨bs', hb, hbs', rfl⟩
  · rintro ⟨bs', hb, hbs', rfl⟩
    exact ⟨hb, bs', hbs', rfl⟩

/-- What follows a step decides whether both go well, whatever the step gives. -/
theorem map_bind_unit (x : Except ε α) (f : α → Except ε β) (rest : Except ε Unit)
    (h : ∀ a, (f a).map (fun _ => ()) = rest) :
    (x.bind f).map (fun _ => ()) = (x.map fun _ => ()).bind fun _ => rest := by
  cases x with
  | error e => rfl
  | ok a => exact h a

end KevinDb
