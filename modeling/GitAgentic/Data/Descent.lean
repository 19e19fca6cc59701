import Mathlib.Logic.Relation
import Mathlib.Logic.Function.Basic

/-! Heads that move along a relation. Where every move of a head goes to a child of its old value,
the old value stays among its forebears. -/

def Descends {κ α : Type} (child : α → α → Prop) (w w' : κ → Option α) : Prop :=
  ∀ k a, w k = some a → ∃ b, w' k = some b ∧ Relation.ReflTransGen child b a

namespace Descends

variable {κ α : Type} {child child' : α → α → Prop} {w w' w'' : κ → Option α}

theorem refl (w : κ → Option α) : Descends child w w :=
  fun _ a at_ => ⟨a, at_, Relation.ReflTransGen.refl⟩

theorem mono (h : Descends child w w') (more : ∀ a b, child a b → child' a b) : Descends child' w w' := by
  intro k a at_
  obtain ⟨b, now, line⟩ := h k a at_
  exact ⟨b, now, Relation.ReflTransGen.mono more _ _ line⟩

theorem trans (first : Descends child w w') (second : Descends child w' w'') : Descends child w w'' := by
  intro k a at_
  obtain ⟨b, now, line⟩ := first k a at_
  obtain ⟨c, later, line'⟩ := second k b now
  exact ⟨c, later, line'.trans line⟩

theorem update [DecidableEq κ] (w : κ → Option α) {k : κ} {a : α} (onTop : ∀ p, w k = some p → child a p) :
    Descends child w (Function.update w k (some a)) := by
  intro k' a' at_
  by_cases here : k' = k
  · subst here
    exact ⟨a, Function.update_self _ _ _, Relation.ReflTransGen.single (onTop a' at_)⟩
  · exact ⟨a', by rw [Function.update_of_ne here, at_], Relation.ReflTransGen.refl⟩

end Descends
