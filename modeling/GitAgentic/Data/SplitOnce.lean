import Mathlib

/-! A list cut in two at the first place where a separator stands. -/

variable {α : Type} [DecidableEq α]

/-- `str::split_once` -/
def splitOnce (sep : List α) : List α → Option (List α × List α)
  | [] => none
  | c :: cs =>
    if sep <+: c :: cs then some ([], (c :: cs).drop sep.length)
    else (splitOnce sep cs).map (fun parts => (c :: parts.1, parts.2))

theorem eq_append_of_splitOnce {sep s before after : List α} (h : splitOnce sep s = some (before, after)) :
    s = before ++ (sep ++ after) := by
  induction s generalizing before with
  | nil => cases h
  | cons c cs ih =>
    rw [splitOnce] at h
    split_ifs at h with here
    · cases h
      obtain ⟨rest, whole⟩ := here
      rw [← whole, List.drop_left]
      rfl
    · obtain ⟨parts, found, same⟩ := Option.map_eq_some_iff.mp h
      cases same
      rw [ih found]
      rfl

theorem splitOnce_append_of_some {sep s before after : List α}
    (h : splitOnce sep s = some (before, after)) (more : List α) :
    splitOnce sep (s ++ more) = some (before, after ++ more) := by
  induction s generalizing before with
  | nil => cases h
  | cons c cs ih =>
    have whole := eq_append_of_splitOnce h
    have length : sep.length ≤ (c :: cs).length := by
      rw [whole, List.length_append, List.length_append]
      omega
    rw [splitOnce] at h
    rw [List.cons_append, splitOnce, ← List.cons_append]
    split_ifs at h with here
    · cases h
      rw [if_pos (here.trans (List.prefix_append _ _)), List.drop_append_of_le_length length]
    · obtain ⟨parts, found, same⟩ := Option.map_eq_some_iff.mp h
      cases same
      have later : ¬ sep <+: (c :: cs) ++ more :=
        fun longer => here (List.prefix_of_prefix_length_le longer (List.prefix_append _ _) length)
      rw [if_neg later, ih found]
      rfl

theorem splitOnce_append {first : α} {tail s : List α} (fresh : first ∉ tail)
    (absent : splitOnce (first :: tail) s = none) (after : List α) :
    splitOnce (first :: tail) (s ++ (first :: tail ++ after)) = some (s, after) := by
  induction s with
  | nil =>
    rw [List.nil_append, List.cons_append, splitOnce, ← List.cons_append,
      if_pos (List.prefix_append _ _), List.drop_left]
  | cons c cs ih =>
    rw [splitOnce] at absent
    split_ifs at absent with here
    have later : ¬ first :: tail <+: (c :: cs) ++ (first :: tail ++ after) := by
      intro straddles
      rcases Nat.lt_or_ge cs.length tail.length with short | long
      · have at_ := straddles.getElem (i := cs.length + 1) (by simpa using short)
        simp only [List.getElem_cons_succ] at at_
        rw [List.getElem_append_right (by simp)] at at_
        simp only [List.length_cons, Nat.sub_self] at at_
        exact fresh (List.mem_of_getElem at_)
      · exact here (List.prefix_of_prefix_length_le straddles (List.prefix_append _ _)
          (Nat.succ_le_succ long))
    rw [List.cons_append, splitOnce, ← List.cons_append, if_neg later,
      ih (Option.map_eq_none_iff.mp absent)]
    rfl

theorem splitOnce_singleton_eq_none_iff {c : α} {s : List α} : splitOnce [c] s = none ↔ c ∉ s := by
  induction s with
  | nil => simp [splitOnce]
  | cons d s ih =>
    rw [splitOnce, List.mem_cons, not_or, ← ih]
    by_cases here : c = d
    · subst here
      simp
    · simp [here]

theorem splitOnce_singleton_append {c : α} {s : List α} (absent : c ∉ s) (rest : List α) :
    splitOnce [c] (s ++ rest) = (splitOnce [c] rest).map (fun parts => (s ++ parts.1, parts.2)) := by
  induction s with
  | nil =>
    rw [List.nil_append]
    cases splitOnce [c] rest <;> rfl
  | cons d s ih =>
    obtain ⟨other, later⟩ := not_or.mp (mt List.mem_cons.mpr absent)
    have elsewhere : ¬ [c] <+: d :: (s ++ rest) := by
      rintro ⟨_, same⟩
      exact other (List.cons.inj same).1
    rw [List.cons_append, splitOnce, if_neg elsewhere, ih later, Option.map_map]
    rfl

omit [DecidableEq α] in
theorem splitLast_inj {c : α} {before before' after after' : List α} (plain : c ∉ after)
    (plain' : c ∉ after') (same : before ++ c :: after = before' ++ c :: after') :
    before = before' ∧ after = after' := by
  rcases List.append_eq_append_iff.mp same with ⟨between, split, rest⟩ | ⟨between, split, rest⟩
  · cases between with
    | nil => exact ⟨by simpa using split.symm, by simpa using rest⟩
    | cons d between =>
      have tail := (List.cons.inj rest).2
      exact absurd (tail ▸ List.mem_append_right between List.mem_cons_self) plain
  · cases between with
    | nil => exact ⟨by simpa using split, by simpa using rest.symm⟩
    | cons d between =>
      have tail := (List.cons.inj rest).2
      exact absurd (tail ▸ List.mem_append_right between List.mem_cons_self) plain'
