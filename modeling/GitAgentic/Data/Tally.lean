import GitAgentic.Data.BTreeMap

/-! Counting with a map: the occurrences of each member of a list, members that do not
occur having no entry. -/
namespace GitAgentic

variable {κ : Type} [LinearOrder κ]

local instance lawfulKeys : LawfulBEq κ := inferInstance

def Tally (m : BTreeMap κ Nat) (l : List κ) : Prop :=
  ∀ k, m.get? k = if k ∈ l then some (l.count k) else none

namespace Tally

theorem empty : Tally (BTreeMap.empty : BTreeMap κ Nat) [] := by
  intro k
  rfl

variable {m : BTreeMap κ Nat} {k : κ} {l l' : List κ}

theorem perm (t : Tally m l) (same : l.Perm l') : Tally m l' := by
  intro k
  rw [t k, same.count_eq k]
  simp only [same.mem_iff]

theorem getD (t : Tally m l) (k : κ) : (m.get? k).getD 0 = l.count k := by
  rw [t k]
  by_cases mem : k ∈ l
  · rw [if_pos mem]
    rfl
  · rw [if_neg mem, List.count_eq_zero.mpr mem]
    rfl

theorem eq_of_get? (t : Tally m l) {k : κ} {n : Nat} (h : m.get? k = some n) : n = l.count k := by
  have value := t.getD k
  rw [h] at value
  exact value

theorem cons (t : Tally m l) (k : κ) : Tally (m.insert k (l.count k + 1)) (k :: l) := by
  intro j
  rw [BTreeMap.get?_insert]
  by_cases same : k = j
  · subst same
    rw [if_pos rfl, if_pos List.mem_cons_self, List.count_cons_self]
  · have other : j ∈ k :: l ↔ j ∈ l := by simp [Ne.symm same]
    rw [if_neg same, t j, List.count_cons_of_ne same]
    simp only [other]

theorem of_insert (t : Tally m (k :: l)) (more : k ∈ l) : Tally (m.insert k (l.count k)) l := by
  intro j
  rw [BTreeMap.get?_insert]
  by_cases same : k = j
  · subst same
    rw [if_pos rfl, if_pos more]
  · have other : j ∈ k :: l ↔ j ∈ l := by simp [Ne.symm same]
    rw [if_neg same, t j, List.count_cons_of_ne same]
    simp only [other]

theorem of_without (t : Tally m (k :: l)) (last : k ∉ l) : Tally (m.without [k]) l := by
  intro j
  rw [BTreeMap.get?_without]
  by_cases same : j = k
  · subst same
    rw [if_pos (List.mem_singleton_self j), if_neg last]
  · have other : j ∈ k :: l ↔ j ∈ l := by simp [same]
    rw [if_neg (by simpa using same), t j, List.count_cons_of_ne (Ne.symm same)]
    simp only [other]

theorem keys_perm (t : Tally m l) : m.keys.Perm l.dedup := by
  have distinct : m.keys.Nodup := m.keys_sorted.imp (fun below => below.ne)
  refine (List.perm_ext_iff_of_nodup distinct l.nodup_dedup).mpr ?_
  intro k
  rw [BTreeMap.mem_keys, t k, List.mem_dedup]
  by_cases mem : k ∈ l
  · simp [mem]
  · simp [mem]

theorem sum (t : Tally m l) : (m.entries.map Prod.snd).sum = l.length := by
  have counted : m.entries.map Prod.snd = m.keys.map (fun k => l.count k) := by
    unfold BTreeMap.keys
    rw [List.map_map]
    refine List.map_congr_left ?_
    intro e mem
    exact t.eq_of_get? (BTreeMap.get?_eq_some_iff.mpr mem)
  rw [counted, (t.keys_perm.map _).sum_eq, List.sum_map_count_dedup_eq_length]

end Tally

end GitAgentic
