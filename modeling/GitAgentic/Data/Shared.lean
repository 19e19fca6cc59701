import Mathlib

/-! Machines that share one map. Each has a state of its own and its own name for every key. Where no
name is used twice, none of them notices the others. -/
namespace Shared

/-- A step reads any part of the map and writes at one key. -/
structure Machine (α σ κ β ω : Type) where
  step : α → σ → (κ → Option β) → ω × σ × (κ → Option β)
  key : α → κ
  frame : ∀ a s m k, k ≠ key a → (step a s m).2.2 k = m k

variable {α σ κ β ω ι ν : Type}

namespace Machine

/-- The answers, the state and the map after a run. -/
def alone (M : Machine α σ κ β ω) : List α → σ → (κ → Option β) → List ω × σ × (κ → Option β)
  | [], s, m => ([], s, m)
  | a :: as, s, m =>
    let r := M.step a s m
    let rest := M.alone as r.2.1 r.2.2
    (r.1 :: rest.1, rest.2)

end Machine

structure State (ι σ ν β : Type) where
  own : ι → σ
  shared : ν → Option β

/-- What a machine sees of the map. -/
def State.view (s : State ι σ ν β) (name : κ → ν) : κ → Option β := fun k => s.shared (name k)

variable [DecidableEq ι] [DecidableEq ν] (M : ι → Machine α σ κ β ω) (name : ι → κ → ν)

def turn (t : ι × α) (s : State ι σ ν β) : ω × State ι σ ν β :=
  let r := (M t.1).step t.2 (s.own t.1) (s.view (name t.1))
  let key := (M t.1).key t.2
  (r.1, { own := Function.update s.own t.1 r.2.1
          shared := Function.update s.shared (name t.1 key) (r.2.2 key) })

/-- The answers, each with the machine it is from, and the state after a run. -/
def together : List (ι × α) → State ι σ ν β → List (ι × ω) × State ι σ ν β
  | [], s => ([], s)
  | t :: ts, s =>
    let r := turn M name t s
    let rest := together ts r.2
    ((t.1, r.1) :: rest.1, rest.2)

theorem together_cons (t : ι × α) (ts : List (ι × α)) (s : State ι σ ν β) :
    together M name (t :: ts) s = ((t.1, (turn M name t s).1) :: (together M name ts (turn M name t s).2).1,
      (together M name ts (turn M name t s).2).2) := rfl

omit [DecidableEq ν] in
/-- What belongs to one of them. -/
def part {γ : Type} (i : ι) (ts : List (ι × γ)) : List γ := (ts.filter (fun t => t.1 = i)).map Prod.snd

omit [DecidableEq ν] in
theorem part_cons_self {γ : Type} (i : ι) (c : γ) (ts : List (ι × γ)) :
    part i ((i, c) :: ts) = c :: part i ts := by
  simp [part]

omit [DecidableEq ν] in
theorem part_cons_of_ne {γ : Type} {i j : ι} (other : j ≠ i) (c : γ) (ts : List (ι × γ)) :
    part i ((j, c) :: ts) = part i ts := by
  simp [part, other]

/-- No two machines have one name for anything, and none has one name for two keys. -/
def Apart : Prop := ∀ i j k l, name i k = name j l → i = j ∧ k = l

theorem turn_seen {i j : ι} {k : κ} (a : α) (same : name i k = name j ((M j).key a)) (s : State ι σ ν β) :
    (turn M name (j, a) s).2.view (name i) k =
      ((M j).step a (s.own j) (s.view (name j))).2.2 ((M j).key a) := by
  show Function.update s.shared (name j ((M j).key a)) _ (name i k) = _
  rw [same, Function.update_self]

variable {M name}

theorem turn_mine (apart : Apart name) (i : ι) (a : α) (s : State ι σ ν β) :
    (turn M name (i, a) s).2.own i = ((M i).step a (s.own i) (s.view (name i))).2.1 ∧
      (turn M name (i, a) s).2.view (name i) = ((M i).step a (s.own i) (s.view (name i))).2.2 := by
  refine ⟨Function.update_self _ _ _, ?_⟩
  funext k
  by_cases here : k = (M i).key a
  · subst here
    exact turn_seen M name a rfl s
  · have other : name i k ≠ name i ((M i).key a) := fun same => here (apart i i k _ same).2
    rw [(M i).frame a _ _ k here]
    exact Function.update_of_ne other _ _

theorem turn_other (apart : Apart name) {i j : ι} (other : j ≠ i) (a : α) (s : State ι σ ν β) :
    (turn M name (j, a) s).2.own i = s.own i ∧ (turn M name (j, a) s).2.view (name i) = s.view (name i) := by
  refine ⟨Function.update_of_ne (Ne.symm other) _ _, ?_⟩
  funext k
  have away : name i k ≠ name j ((M j).key a) := fun same => other (apart i j k _ same).1.symm
  exact Function.update_of_ne away _ _

theorem together_alone (apart : Apart name) (i : ι) (ts : List (ι × α)) (s : State ι σ ν β) :
    (part i (together M name ts s).1, (together M name ts s).2.own i, (together M name ts s).2.view (name i)) =
      (M i).alone (part i ts) (s.own i) (s.view (name i)) := by
  induction ts generalizing s with
  | nil => rfl
  | cons t ts ih =>
    obtain ⟨j, a⟩ := t
    have rest := ih (turn M name (j, a) s).2
    rw [together_cons]
    show (part i ((j, _) :: _), _, _) = _
    by_cases mine : j = i
    · subst mine
      obtain ⟨own, view⟩ := turn_mine (M := M) apart j a s
      rw [own, view] at rest
      rw [part_cons_self, part_cons_self, Machine.alone, ← rest]
      rfl
    · obtain ⟨own, view⟩ := turn_other (M := M) apart mine a s
      rw [own, view] at rest
      rw [part_cons_of_ne mine, part_cons_of_ne mine]
      exact rest

end Shared
