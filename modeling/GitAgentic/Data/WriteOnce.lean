import Mathlib

/-! A partial map that is written at most once at each key: a later write at a
key that is already present changes nothing. -/
namespace WriteOnce

variable {κ α : Type} [DecidableEq κ]

def put (m : κ → Option α) (k : κ) (a : α) : κ → Option α :=
  if (m k).isSome then m else Function.update m k (some a)

def puts (m : κ → Option α) (ws : List (κ × α)) : κ → Option α :=
  ws.foldl (fun m w => put m w.1 w.2) m

theorem put_apply (m : κ → Option α) (k l : κ) (a : α) :
    put m k a l = if l = k then some ((m k).getD a) else m l := by
  unfold put
  split
  · rename_i present
    obtain ⟨b, hb⟩ := Option.isSome_iff_exists.mp present
    split <;> simp_all
  · rename_i absent
    have empty : m k = none := by simpa using absent
    by_cases h : l = k
    · subst h; simp [empty]
    · simp [h]

theorem puts_apply (ws : List (κ × α)) (m : κ → Option α) (k : κ) :
    puts m ws k = (m k).or ((ws.find? (fun w => w.1 = k)).map Prod.snd) := by
  induction ws generalizing m with
  | nil => simp [puts]
  | cons w ws ih =>
    have step : puts m (w :: ws) k = puts (put m w.1 w.2) ws k := rfl
    rw [step, ih, put_apply]
    by_cases h : k = w.1
    · subst h
      cases m w.1 <;> simp
    · have other : ¬ w.1 = k := fun e => h e.symm
      simp [h, other]

theorem puts_of_mem {ws : List (κ × α)}
    (single : ∀ v ∈ ws, ∀ w ∈ ws, v.1 = w.1 → v.2 = w.2) {w : κ × α} (written : w ∈ ws) :
    puts (fun _ => none) ws w.1 = some w.2 := by
  rw [puts_apply]
  cases first : ws.find? (fun v => v.1 = w.1) with
  | none => simpa using List.find?_eq_none.mp first w written
  | some v =>
    have key : v.1 = w.1 := by simpa using List.find?_some first
    simp [single v (List.mem_of_find?_eq_some first) w written key]

end WriteOnce
