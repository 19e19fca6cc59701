import GitAgentic.Data.LastWriter

/-! Delivery at least once. A list is delivered in consecutive batches, and before a
batch is delivered whole any number of its prefixes may have been. What such a delivery
leaves in a keyed table is what the list leaves. -/
namespace Redelivery

open LastWriter

inductive Redelivered {α : Type} : List α → List α → Prop
  | nil : Redelivered [] []
  | batch (whole : List α) (retries : List (List α)) (prefixes : ∀ r ∈ retries, r <+: whole)
      {rest delivered : List α} (later : Redelivered rest delivered) :
      Redelivered (whole ++ rest) (retries.flatten ++ whole ++ delivered)

namespace Redelivered

variable {α β : Type}

theorem refl (l : List α) : Redelivered l l := by
  have once := batch l [] (by simp) nil
  simpa using once

theorem filterMap (f : α → Option β) {l delivered : List α} (h : Redelivered l delivered) :
    Redelivered (l.filterMap f) (delivered.filterMap f) := by
  induction h with
  | nil => exact nil
  | batch whole retries prefixes later ih =>
    have cut : ∀ r ∈ retries.map (List.filterMap f), r <+: whole.filterMap f := by
      intro r hr
      obtain ⟨q, hq, rfl⟩ := List.mem_map.mp hr
      exact (prefixes q hq).filterMap f
    have kept := batch (whole.filterMap f) (retries.map (List.filterMap f)) cut ih
    simpa only [List.filterMap_append, List.filterMap_flatten] using kept

theorem subset {l delivered : List α} (h : Redelivered l delivered) : delivered ⊆ l := by
  induction h with
  | nil => exact List.Subset.refl _
  | batch whole retries prefixes later ih =>
    intro a ha
    rcases List.mem_append.mp ha with ha | ha
    · refine List.mem_append_left _ ?_
      rcases List.mem_append.mp ha with ha | ha
      · obtain ⟨r, hr, ha⟩ := List.mem_flatten.mp ha
        exact (prefixes r hr).subset ha
      · exact ha
    · exact List.mem_append_right _ (ih ha)

variable {κ ρ : Type} [DecidableEq κ]

theorem outcome_retries {k : κ} {whole : List (Change κ ρ)} {retries : List (List (Change κ ρ))}
    (prefixes : ∀ r ∈ retries, r <+: whole) (untouched : outcome k whole = none) :
    outcome k retries.flatten = none := by
  induction retries with
  | nil => rfl
  | cons r retries ih =>
    obtain ⟨rest, rfl⟩ := prefixes r List.mem_cons_self
    have first : outcome k r = none := by
      rw [outcome_append, Option.or_eq_none_iff] at untouched
      exact untouched.2
    have others := ih (fun q hq => prefixes q (List.mem_cons_of_mem _ hq))
    rw [List.flatten_cons, outcome_append, others, first]
    rfl

theorem outcome_eq {cs delivered : List (Change κ ρ)} (h : Redelivered cs delivered) (k : κ) :
    outcome k delivered = outcome k cs := by
  induction h with
  | nil => rfl
  | batch whole retries prefixes later ih =>
    rw [outcome_append, outcome_append, outcome_append, ih]
    cases touched : outcome k whole with
    | none => rw [outcome_retries prefixes touched, Option.or_none]
    | some result => rw [Option.some_or]

theorem replay_overlap {held later delivered : List (Change κ ρ)}
    (h : Redelivered (held ++ later) delivered) (m : κ → Option ρ) :
    replay (replay m held) delivered = replay m (held ++ later) := by
  funext k
  rw [replay_apply, replay_apply, replay_apply, h.outcome_eq k, outcome_append]
  cases outcome k later with
  | some result => rfl
  | none => cases outcome k held <;> rfl

end Redelivered

end Redelivery
