import GitAgentic.Data.WriteOnce

/-! Maps in which a later write at a key replaces the earlier one, against maps that are written
once. They are the same exactly where every key has one value. -/
namespace Overwrite

variable {κ α ι : Type} [DecidableEq κ]

def puts (m : κ → Option α) (ws : List (κ × α)) : κ → Option α :=
  ws.foldl (fun m w => Function.update m w.1 (some w.2)) m

theorem puts_concat (m : κ → Option α) (ws : List (κ × α)) (w : κ × α) :
    puts m (ws ++ [w]) = Function.update (puts m ws) w.1 (some w.2) := by
  rw [puts, List.foldl_append]
  rfl

theorem once_concat (m : κ → Option α) (ws : List (κ × α)) (w : κ × α) :
    WriteOnce.puts m (ws ++ [w]) = WriteOnce.put (WriteOnce.puts m ws) w.1 w.2 := by
  rw [WriteOnce.puts, List.foldl_append]
  rfl

def Single (ws : List (κ × α)) : Prop := ∀ v ∈ ws, ∀ w ∈ ws, v.1 = w.1 → v.2 = w.2

theorem mem_of_once {ws : List (κ × α)} {k : κ} {a : α} (found : WriteOnce.puts (fun _ => none) ws k = some a) :
    (k, a) ∈ ws := by
  rw [WriteOnce.puts_apply, Option.none_or, Option.map_eq_some_iff] at found
  obtain ⟨w, hit, rfl⟩ := found
  obtain rfl : w.1 = k := by simpa using List.find?_some hit
  exact List.mem_of_find?_eq_some hit

theorem mem_of_last {ws : List (κ × α)} {k : κ} {a : α} (found : puts (fun _ => none) ws k = some a) :
    (k, a) ∈ ws := by
  induction ws using List.reverseRecOn with
  | nil => cases found
  | append_singleton ws w ih =>
    rw [puts_concat] at found
    by_cases here : k = w.1
    · rw [here, Function.update_self] at found
      obtain rfl := Option.some.inj found
      exact List.mem_append_right _ (by simp [here])
    · rw [Function.update_of_ne here] at found
      exact List.mem_append_left _ (ih found)

theorem puts_eq_once {ws : List (κ × α)} (single : Single ws) :
    WriteOnce.puts (fun _ => none) ws = puts (fun _ => none) ws := by
  induction ws using List.reverseRecOn with
  | nil => rfl
  | append_singleton ws w ih =>
    have before : Single ws := fun v hv u hu =>
      single v (List.mem_append_left _ hv) u (List.mem_append_left _ hu)
    funext k
    rw [once_concat, puts_concat, ← ih before, WriteOnce.put_apply]
    by_cases here : k = w.1
    · rw [if_pos here, here, Function.update_self]
      cases found : WriteOnce.puts (fun _ => none) ws w.1 with
      | none => rfl
      | some a =>
        have same := single _ (List.mem_append_left _ (mem_of_once found)) w (List.mem_append_right _ (by simp)) rfl
        exact congrArg some same
    · rw [if_neg here, Function.update_of_ne here]

theorem once_kept {ws : List (κ × α)} (single : Single ws) {v : κ × α} (mem : v ∈ ws) (w : κ × α) :
    WriteOnce.puts (fun _ => none) (ws ++ [w]) v.1 = some v.2 := by
  have held := WriteOnce.puts_of_mem single mem
  rw [once_concat, WriteOnce.put_apply]
  split
  · rename_i same
    rw [← same, held, Option.getD_some]
  · exact held

theorem single_of_always {writes : ι → Option (κ × α)} {steps : List ι}
    (always : ∀ front, front <+: steps →
      WriteOnce.puts (fun _ => none) (front.filterMap writes) = puts (fun _ => none) (front.filterMap writes)) :
    Single (steps.filterMap writes) := by
  induction steps using List.reverseRecOn with
  | nil =>
    intro v mem
    cases mem
  | append_singleton steps step ih =>
    have before := ih (fun front cut => always front (cut.trans (List.prefix_append _ _)))
    have last := always _ List.prefix_rfl
    rw [List.filterMap_append] at last ⊢
    cases written : writes step with
    | none => simpa [written] using before
    | some w =>
      have one : List.filterMap writes [step] = [w] := by simp [written]
      rw [one] at last ⊢
      have older : ∀ v ∈ steps.filterMap writes, v.1 = w.1 → v.2 = w.2 := by
        intro v mem same
        have now := congrFun last w.1
        have first := once_kept before mem w
        rw [same] at first
        rw [first, puts_concat, Function.update_self] at now
        exact Option.some.inj now
      intro v hv u hu same
      rcases List.mem_append.mp hv with old | new <;> rcases List.mem_append.mp hu with old' | new'
      · exact before v old u old' same
      · rw [List.mem_singleton.mp new'] at same ⊢
        exact older v old same
      · rw [List.mem_singleton.mp new] at same ⊢
        exact (older u old' same.symm).symm
      · rw [List.mem_singleton.mp new, List.mem_singleton.mp new']

end Overwrite
