import Mathlib

/-! Runs of a step function over lists of actions, and runs whose steps all meet a
condition. -/
namespace Runs

variable {σ α : Type} (step : σ → α → σ)

def run (as : List α) (s : σ) : σ := as.foldl step s

/-- Every step meets the condition in the state in which it is taken. -/
def Along (cond : σ → α → Prop) : List α → σ → Prop
  | [], _ => True
  | a :: as, s => cond s a ∧ Along cond as (step s a)

instance (cond : σ → α → Prop) [∀ s a, Decidable (cond s a)] (as : List α) (s : σ) :
    Decidable (Along step cond as s) :=
  match as with
  | [] => isTrue trivial
  | a :: as =>
    have := instDecidableAlong cond as (step s a)
    inferInstanceAs (Decidable (_ ∧ _))

variable {step}

theorem run_append (as bs : List α) (s : σ) :
    run step (as ++ bs) s = run step bs (run step as s) := List.foldl_append

theorem Along.append {cond : σ → α → Prop} {as bs : List α} {s : σ} (first : Along step cond as s)
    (second : Along step cond bs (run step as s)) : Along step cond (as ++ bs) s := by
  induction as generalizing s with
  | nil => exact second
  | cons a as ih => exact ⟨first.1, ih first.2 second⟩

theorem Along.of_always {cond : σ → α → Prop} {as : List α} (always : ∀ a ∈ as, ∀ s, cond s a)
    (s : σ) : Along step cond as s := by
  induction as generalizing s with
  | nil => trivial
  | cons a as ih =>
    exact ⟨always a List.mem_cons_self s, ih (fun b mem => always b (List.mem_cons_of_mem a mem)) _⟩

/-- What every step that meets the condition keeps holds at the end of the run. -/
theorem Along.invariant {cond : σ → α → Prop} {inv : σ → Prop}
    (keeps : ∀ s a, inv s → cond s a → inv (step s a)) {as : List α} {s : σ}
    (along : Along step cond as s) (start : inv s) : inv (run step as s) := by
  induction as generalizing s with
  | nil => exact start
  | cons a as ih => exact ih along.2 (keeps s a start along.1)

theorem Along.countdown {cond : σ → α → Prop} {inv : σ → Prop} {left : σ → Nat} {mine : α → Bool}
    (keeps : ∀ s a, inv s → cond s a → inv (step s a))
    (down : ∀ s a, inv s → cond s a → mine a = true → left (step s a) ≤ left s - 1)
    (stays : ∀ s a, inv s → cond s a → mine a = false → left (step s a) ≤ left s) {as : List α} {s : σ}
    (along : Along step cond as s) (start : inv s) : left (run step as s) ≤ left s - as.countP mine := by
  induction as generalizing s with
  | nil => exact le_rfl
  | cons a as ih =>
    have rest : left (run step as (step s a)) ≤ left (step s a) - as.countP mine :=
      ih along.2 (keeps s a start along.1)
    show left (run step as (step s a)) ≤ _
    cases own : mine a with
    | true =>
      have less := down s a start along.1 own
      rw [List.countP_cons_of_pos own]
      omega
    | false =>
      have less := stays s a start along.1 own
      rw [List.countP_cons_of_neg (by rw [own]; nofun)]
      omega

end Runs
