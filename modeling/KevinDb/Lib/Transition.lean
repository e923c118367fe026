import Mathlib.Data.List.Basic
import Mathlib.Tactic.Common

namespace KevinDb.Transition
set_option autoImplicit true

/-- Take a list of actions from a state, stopping at the first one that is not enabled. -/
def run (step : σ → α → Option σ) : σ → List α → Option σ
  | s, [] => some s
  | s, a :: as => (step s a).bind fun t => run step t as

/-- Every action of the run meets the condition in the state it is taken from. -/
def Meets (step : σ → α → Option σ) (cond : σ → α → Prop) : σ → List α → Prop
  | _, [] => True
  | s, a :: as => cond s a ∧ ∀ t, step s a = some t → Meets step cond t as

instance Meets.decidable {step : σ → α → Option σ} {cond : σ → α → Prop}
    [∀ s a, Decidable (cond s a)] : ∀ s as, Decidable (Meets step cond s as)
  | _, [] => .isTrue True.intro
  | s, a :: as =>
    match h : step s a with
    | none => decidable_of_iff (cond s a) (by simp [Meets, h])
    | some t =>
      have : Decidable (Meets step cond t as) := Meets.decidable t as
      decidable_of_iff (cond s a ∧ Meets step cond t as) (by simp [Meets, h])

variable {step : σ → α → Option σ} {cond : σ → α → Prop}

@[simp] theorem run_nil (s : σ) : run step s [] = some s := rfl

theorem run_cons (s : σ) (a : α) (as : List α) :
    run step s (a :: as) = (step s a).bind fun t => run step t as := rfl

theorem run_cons_eq_some (h : run step s (a :: as) = some u) :
    ∃ t, step s a = some t ∧ run step t as = some u := by
  rw [run_cons] at h
  exact Option.bind_eq_some_iff.1 h

theorem run_append (s : σ) (as bs : List α) :
    run step s (as ++ bs) = (run step s as).bind fun t => run step t bs := by
  induction as generalizing s with
  | nil => rfl
  | cons a as ih =>
    simp only [List.cons_append, run_cons, Option.bind_assoc, ih]

/-- An invariant of the steps that meet the condition holds after a run of such steps. -/
theorem run_invariant (inv : σ → Prop)
    (hstep : ∀ s a t, inv s → cond s a → step s a = some t → inv t)
    (hs : inv s) (hc : Meets step cond s as) (hr : run step s as = some u) : inv u := by
  induction as generalizing s with
  | nil =>
    cases hr
    exact hs
  | cons a as ih =>
    obtain ⟨t, ht, hr⟩ := run_cons_eq_some hr
    exact ih (hstep s a t hs hc.1 ht) (hc.2 t ht) hr

/-- An invariant of every step holds after every run. -/
theorem run_invariant_of_step (inv : σ → Prop)
    (hstep : ∀ s a t, inv s → step s a = some t → inv t)
    (hs : inv s) (hr : run step s as = some u) : inv u := by
  induction as generalizing s with
  | nil =>
    cases hr
    exact hs
  | cons a as ih =>
    obtain ⟨t, ht, hr⟩ := run_cons_eq_some hr
    exact ih (hstep s a t hs ht) hr

theorem Meets.of_append (h : Meets step cond s (as ++ bs)) : Meets step cond s as := by
  induction as generalizing s with
  | nil => trivial
  | cons a as ih => exact ⟨h.1, fun t ht => ih (h.2 t ht)⟩

theorem Meets.after (h : Meets step cond s (as ++ bs)) (hr : run step s as = some t) :
    Meets step cond t bs := by
  induction as generalizing s with
  | nil =>
    cases hr
    exact h
  | cons a as ih =>
    obtain ⟨u, hu, hr⟩ := run_cons_eq_some hr
    exact ih (h.2 u hu) hr

theorem Meets.and_of_forall {p : α → Prop} (hp : ∀ a ∈ as, p a) (h : Meets step cond s as) :
    Meets step (fun s a => p a ∧ cond s a) s as := by
  induction as generalizing s with
  | nil => trivial
  | cons a as ih =>
    exact ⟨⟨hp a List.mem_cons_self, h.1⟩,
      fun t ht => ih (fun b hb => hp b (List.mem_cons_of_mem a hb)) (h.2 t ht)⟩

/-- What a system answers to a list of actions. -/
def replies (step : σ → α → ρ × σ) : σ → List α → List ρ
  | _, [] => []
  | s, a :: as => (step s a).1 :: replies step (step s a).2 as

/-- The state after a list of actions. -/
def after (step : σ → α → ρ × σ) (s : σ) (as : List α) : σ :=
  as.foldl (fun s a => (step s a).2) s

/-- Every action meets the condition in the state it is taken from. -/
def AllMeet (step : σ → α → ρ × σ) (cond : σ → α → Prop) : σ → List α → Prop
  | _, [] => True
  | s, a :: as => cond s a ∧ AllMeet step cond (step s a).2 as

instance AllMeet.decidable {step : σ → α → ρ × σ} {cond : σ → α → Prop}
    [∀ s a, Decidable (cond s a)] : ∀ s as, Decidable (AllMeet step cond s as)
  | _, [] => .isTrue True.intro
  | s, a :: as =>
    have : Decidable (AllMeet step cond (step s a).2 as) := AllMeet.decidable _ as
    inferInstanceAs (Decidable (cond s a ∧ AllMeet step cond (step s a).2 as))

/-- A system that simulates another one answers the same, as long as its actions meet the
condition. -/
theorem replies_eq_of_simulates {step : σ → α → ρ × σ} {step' : τ → α → ρ × τ}
    {cond : σ → α → Prop} (rel : σ → τ → Prop)
    (hstep : ∀ s t a, rel s t → cond s a →
      (step s a).1 = (step' t a).1 ∧ rel (step s a).2 (step' t a).2)
    (hs : rel s t) (hmeet : AllMeet step cond s as) :
    replies step s as = replies step' t as ∧ rel (after step s as) (after step' t as) := by
  induction as generalizing s t with
  | nil => exact ⟨rfl, hs⟩
  | cons a as ih =>
    obtain ⟨hreply, hnext⟩ := hstep s t a hs hmeet.1
    obtain ⟨hreplies, hafter⟩ := ih hnext hmeet.2
    exact ⟨congrArg₂ List.cons hreply hreplies, hafter⟩

/-- Put a task in its place again, or drop it when it has ended. -/
def replace (tasks : List τ) (i : Nat) : Option τ → List τ
  | some task => tasks.set i task
  | none => tasks.eraseIdx i

theorem mem_replace {tasks : List τ} (h : task ∈ replace tasks i next) :
    task ∈ tasks ∨ next = some task := by
  cases next with
  | none => exact .inl (List.mem_of_mem_eraseIdx h)
  | some new =>
    rcases List.mem_or_eq_of_mem_set h with h | rfl
    · exact .inl h
    · exact .inr rfl

end KevinDb.Transition
