import Mathlib

/-! Ordered maps as strictly sorted association lists. The order of the list is
the order in which an ordered map is iterated and serialised. -/
namespace GitAgentic

variable {κ α β : Type} [LinearOrder κ]

def SortedKeys (l : List (κ × α)) : Prop := l.Pairwise (fun a b => a.1 < b.1)

def insertEntry (k : κ) (v : α) : List (κ × α) → List (κ × α)
  | [] => [(k, v)]
  | (l, w) :: rest =>
    if k < l then (k, v) :: (l, w) :: rest
    else if k = l then (k, v) :: rest
    else (l, w) :: insertEntry k v rest

def lookupEntry (k : κ) : List (κ × α) → Option α
  | [] => none
  | (l, w) :: rest => if l = k then some w else lookupEntry k rest

theorem mem_insertEntry {k : κ} {v : α} {e : κ × α} {l : List (κ × α)}
    (h : e ∈ insertEntry k v l) : e = (k, v) ∨ e ∈ l := by
  induction l with
  | nil => exact Or.inl (List.mem_singleton.mp h)
  | cons a rest ih =>
    unfold insertEntry at h
    split at h
    · exact List.mem_cons.mp h
    split at h
    · exact (List.mem_cons.mp h).imp id (List.mem_cons_of_mem _)
    · rcases List.mem_cons.mp h with rfl | h
      · exact Or.inr List.mem_cons_self
      · exact (ih h).imp id (List.mem_cons_of_mem _)

theorem insertEntry_sorted {l : List (κ × α)} (h : SortedKeys l) (k : κ) (v : α) :
    SortedKeys (insertEntry k v l) := by
  induction l with
  | nil => exact List.pairwise_singleton _ _
  | cons a rest ih =>
    have rest_sorted := List.pairwise_cons.mp h
    unfold insertEntry
    split
    · rename_i below
      refine List.pairwise_cons.mpr ⟨?_, h⟩
      intro e he
      rcases List.mem_cons.mp he with rfl | he
      · exact below
      · exact below.trans (rest_sorted.1 e he)
    split
    · rename_i same
      exact List.pairwise_cons.mpr ⟨fun e he => same ▸ rest_sorted.1 e he, rest_sorted.2⟩
    · rename_i notBelow notSame
      refine List.pairwise_cons.mpr ⟨?_, ih rest_sorted.2⟩
      intro e he
      rcases mem_insertEntry he with rfl | he
      · exact lt_of_le_of_ne (not_lt.mp notBelow) (Ne.symm notSame)
      · exact rest_sorted.1 e he

theorem lookupEntry_insertEntry (k j : κ) (v : α) (l : List (κ × α)) :
    lookupEntry j (insertEntry k v l) = if k = j then some v else lookupEntry j l := by
  induction l with
  | nil => simp [insertEntry, lookupEntry]
  | cons a rest ih =>
    obtain ⟨b, w⟩ := a
    unfold insertEntry
    split
    · simp [lookupEntry]
    split
    · rename_i same
      subst same
      by_cases h : k = j <;> simp [lookupEntry, h]
    · rename_i notSame
      by_cases h : b = j
      · subst h; simp [lookupEntry, notSame]
      · simp [lookupEntry, h, ih]

theorem insertEntry_append {l : List (κ × α)} {k : κ} (v : α) (above : ∀ e ∈ l, e.1 < k) :
    insertEntry k v l = l ++ [(k, v)] := by
  induction l with
  | nil => rfl
  | cons a rest ih =>
    have h := above a List.mem_cons_self
    rw [insertEntry, if_neg h.le.not_gt, if_neg h.ne', List.cons_append,
      ih (fun e he => above e (List.mem_cons_of_mem _ he))]

theorem mem_of_lookupEntry {l : List (κ × α)} {k : κ} {v : α} (h : lookupEntry k l = some v) :
    (k, v) ∈ l := by
  induction l with
  | nil => cases h
  | cons a rest ih =>
    unfold lookupEntry at h
    split at h
    · rename_i same
      cases Option.some.inj h
      exact same ▸ List.mem_cons_self
    · exact List.mem_cons_of_mem _ (ih h)

theorem lookupEntry_of_mem {l : List (κ × α)} (sorted : SortedKeys l) {k : κ} {v : α}
    (h : (k, v) ∈ l) : lookupEntry k l = some v := by
  induction l with
  | nil => cases h
  | cons a rest ih =>
    have parts := List.pairwise_cons.mp sorted
    rcases List.mem_cons.mp h with rfl | h
    · simp [lookupEntry]
    · have ne : a.1 ≠ k := (parts.1 (k, v) h).ne
      simp [lookupEntry, ne, ih parts.2 h]

structure BTreeMap (κ α : Type) [LinearOrder κ] where
  entries : List (κ × α)
  sorted : SortedKeys entries

namespace BTreeMap

theorem ext {m n : BTreeMap κ α} (h : m.entries = n.entries) : m = n := by
  cases m; cases n; cases h; rfl

def empty : BTreeMap κ α := ⟨[], List.Pairwise.nil⟩

def insert (m : BTreeMap κ α) (k : κ) (v : α) : BTreeMap κ α :=
  ⟨insertEntry k v m.entries, insertEntry_sorted m.sorted k v⟩

def get? (m : BTreeMap κ α) (k : κ) : Option α := lookupEntry k m.entries

def ofList (l : List (κ × α)) : BTreeMap κ α := l.foldl (fun m e => m.insert e.1 e.2) empty

theorem get?_insert (m : BTreeMap κ α) (k j : κ) (v : α) :
    (m.insert k v).get? j = if k = j then some v else m.get? j :=
  lookupEntry_insertEntry k j v m.entries

theorem foldl_insert_append (l : List (κ × α)) (m : BTreeMap κ α)
    (h : SortedKeys (m.entries ++ l)) :
    (l.foldl (fun m e => m.insert e.1 e.2) m).entries = m.entries ++ l := by
  induction l generalizing m with
  | nil => simp
  | cons e rest ih =>
    have above : ∀ x ∈ m.entries, x.1 < e.1 :=
      fun x hx => (List.pairwise_append.mp h).2.2 x hx e List.mem_cons_self
    have step : (m.insert e.1 e.2).entries = m.entries ++ [e] := insertEntry_append e.2 above
    rw [List.foldl_cons, ih _ (by rw [step, List.append_assoc]; exact h), step, List.append_assoc]
    rfl

theorem ofList_entries (m : BTreeMap κ α) : ofList m.entries = m :=
  ext (foldl_insert_append m.entries empty m.sorted)

theorem mem_insert {m : BTreeMap κ α} {k : κ} {v : α} {e : κ × α}
    (h : e ∈ (m.insert k v).entries) : e = (k, v) ∨ e ∈ m.entries := mem_insertEntry h

theorem mem_foldl_insert {es : List (κ × α)} {m : BTreeMap κ α} {e : κ × α}
    (h : e ∈ (es.foldl (fun m e => m.insert e.1 e.2) m).entries) : e ∈ es ∨ e ∈ m.entries := by
  induction es generalizing m with
  | nil => exact Or.inr h
  | cons a es ih =>
    rcases ih h with h | h
    · exact Or.inl (List.mem_cons_of_mem _ h)
    · rcases mem_insert h with rfl | h
      · exact Or.inl List.mem_cons_self
      · exact Or.inr h

theorem mem_ofList {es : List (κ × α)} {e : κ × α} (h : e ∈ (ofList es).entries) : e ∈ es :=
  (mem_foldl_insert h).resolve_right List.not_mem_nil

theorem get?_eq_some_iff {m : BTreeMap κ α} {k : κ} {v : α} :
    m.get? k = some v ↔ (k, v) ∈ m.entries :=
  ⟨mem_of_lookupEntry, lookupEntry_of_mem m.sorted⟩

theorem mem_insert_iff {m : BTreeMap κ α} {k : κ} {v : α} {e : κ × α} :
    e ∈ (m.insert k v).entries ↔ e = (k, v) ∨ e ∈ m.entries ∧ e.1 ≠ k := by
  obtain ⟨j, w⟩ := e
  rw [← get?_eq_some_iff, ← get?_eq_some_iff, get?_insert, Prod.mk.injEq]
  by_cases here : k = j
  · subst here
    simp [eq_comm]
  · simp [here, Ne.symm here]

theorem get?_foldl_insert_isSome (l : List (κ × α)) (m : BTreeMap κ α) (k : κ) :
    ((l.foldl (fun m e => m.insert e.1 e.2) m).get? k).isSome ↔
      k ∈ l.map Prod.fst ∨ (m.get? k).isSome := by
  induction l generalizing m with
  | nil => simp
  | cons e l ih =>
    rw [List.foldl_cons, ih, get?_insert, List.map_cons, List.mem_cons]
    by_cases here : e.1 = k
    · simp [here]
    · simp [here, Ne.symm here]

theorem get?_ofList_isSome (l : List (κ × α)) (k : κ) :
    ((ofList l).get? k).isSome ↔ k ∈ l.map Prod.fst := by
  rw [ofList, get?_foldl_insert_isSome]
  simp [empty, get?, lookupEntry]

theorem lookupEntry_rel {R : α → β → Prop} {l : List (κ × α)} {l' : List (κ × β)}
    (h : List.Forall₂ (fun e e' => e'.1 = e.1 ∧ R e.2 e'.2) l l') (k : κ) :
    Option.Rel R (lookupEntry k l) (lookupEntry k l') := by
  induction h with
  | nil => exact .none
  | cons first _ ih =>
    simp only [lookupEntry, first.1]
    split
    · exact .some first.2
    · exact ih

theorem get?_rel {R : α → β → Prop} {m : BTreeMap κ α} {n : BTreeMap κ β}
    (h : List.Forall₂ (fun e e' => e'.1 = e.1 ∧ R e.2 e'.2) m.entries n.entries) (k : κ) :
    Option.Rel R (m.get? k) (n.get? k) := lookupEntry_rel h k

theorem flatMap_lookupEntry {l : List (κ × α)} (sorted : SortedKeys l) {k : κ} {f : κ × α → List β}
    (others : ∀ e ∈ l, e.1 ≠ k → f e = []) :
    l.flatMap f = (lookupEntry k l).elim [] (fun v => f (k, v)) := by
  induction l with
  | nil => rfl
  | cons a rest ih =>
    obtain ⟨least, sorted⟩ := List.pairwise_cons.mp sorted
    rw [List.flatMap_cons, lookupEntry]
    split
    · rename_i same
      subst same
      have none : rest.flatMap f = [] := by
        rw [List.flatMap_eq_nil_iff]
        exact fun e he => others e (List.mem_cons_of_mem _ he) (least e he).ne'
      rw [none, List.append_nil]
      rfl
    · rename_i other
      rw [others a List.mem_cons_self other, List.nil_append,
        ih sorted (fun e he => others e (List.mem_cons_of_mem _ he))]

theorem flatMap_entries {m : BTreeMap κ α} {k : κ} {f : κ × α → List β}
    (others : ∀ e ∈ m.entries, e.1 ≠ k → f e = []) :
    m.entries.flatMap f = (m.get? k).elim [] (fun v => f (k, v)) :=
  flatMap_lookupEntry m.sorted others

def setValues (m : BTreeMap κ α) (es : List (κ × β)) (h : es.map Prod.fst = m.entries.map Prod.fst) :
    BTreeMap κ β where
  entries := es
  sorted := by
    have keys : (es.map Prod.fst).Pairwise (· < ·) := by
      rw [h]
      exact List.pairwise_map.mpr m.sorted
    exact List.pairwise_map.mp keys

def keys (m : BTreeMap κ α) : List κ := m.entries.map Prod.fst

theorem keys_sorted (m : BTreeMap κ α) : m.keys.Pairwise (· < ·) := List.pairwise_map.mpr m.sorted

theorem mem_keys {m : BTreeMap κ α} {k : κ} : k ∈ m.keys ↔ (m.get? k).isSome = true := by
  rw [Option.isSome_iff_exists]
  simp only [keys, List.mem_map, get?_eq_some_iff]
  constructor
  · rintro ⟨⟨_, v⟩, mem, rfl⟩
    exact ⟨v, mem⟩
  · rintro ⟨v, mem⟩
    exact ⟨(k, v), mem, rfl⟩

theorem nodup (m : BTreeMap κ α) : m.entries.Nodup :=
  m.sorted.imp (fun below same => (same ▸ below).false)

theorem eq_of_perm {m n : BTreeMap κ α} (same : m.entries.Perm n.entries) : m = n :=
  ext (same.eq_of_pairwise (fun _ _ _ _ ab ba => absurd (ab.trans ba) (lt_irrefl _))
    m.sorted n.sorted)

theorem ext_get? {m n : BTreeMap κ α} (same : ∀ k, m.get? k = n.get? k) : m = n := by
  have listed : ∀ e, e ∈ m.entries ↔ e ∈ n.entries := by
    rintro ⟨k, v⟩
    rw [← get?_eq_some_iff, ← get?_eq_some_iff, same]
  exact eq_of_perm ((List.perm_ext_iff_of_nodup m.nodup n.nodup).mpr listed)

def without (m : BTreeMap κ α) (ks : List κ) : BTreeMap κ α where
  entries := m.entries.filter (fun e => e.1 ∉ ks)
  sorted := m.sorted.filter _

theorem get?_without (m : BTreeMap κ α) (ks : List κ) (k : κ) :
    (m.without ks).get? k = if k ∈ ks then none else m.get? k := by
  refine Option.ext (fun v => ?_)
  rw [get?_eq_some_iff, without, List.mem_filter, ← get?_eq_some_iff]
  by_cases gone : k ∈ ks <;> simp [gone]

theorem get?_foldl_insert_of_not_mem {l : List (κ × α)} {k : κ} (other : k ∉ l.map Prod.fst)
    (m : BTreeMap κ α) : (l.foldl (fun m e => m.insert e.1 e.2) m).get? k = m.get? k := by
  induction l generalizing m with
  | nil => rfl
  | cons e l ih =>
    rw [List.map_cons, List.mem_cons, not_or] at other
    rw [List.foldl_cons, ih other.2, get?_insert, if_neg (Ne.symm other.1)]

theorem get?_foldl_insert_of_mem {l : List (κ × α)} {k : κ} {v : α} (mem : (k, v) ∈ l)
    (single : ∀ w, (k, w) ∈ l → w = v) (m : BTreeMap κ α) :
    (l.foldl (fun m e => m.insert e.1 e.2) m).get? k = some v := by
  induction l generalizing m with
  | nil => cases mem
  | cons e l ih =>
    rw [List.foldl_cons]
    by_cases later : k ∈ l.map Prod.fst
    · obtain ⟨⟨_, w⟩, listed, rfl⟩ := List.mem_map.mp later
      obtain rfl := single w (List.mem_cons_of_mem e listed)
      exact ih listed (fun w' hw => single w' (List.mem_cons_of_mem e hw)) _
    · rw [get?_foldl_insert_of_not_mem later, get?_insert]
      rcases List.mem_cons.mp mem with rfl | listed
      · exact if_pos rfl
      · exact absurd (List.mem_map.mpr ⟨_, listed, rfl⟩) later

theorem entries_ofList_perm {l : List (κ × α)} (single : (l.map Prod.fst).Nodup) :
    (ofList l).entries.Perm l := by
  refine (List.perm_ext_iff_of_nodup (nodup _) single.of_map).mpr ?_
  rintro ⟨k, v⟩
  refine ⟨mem_ofList, fun mem => get?_eq_some_iff.mp (get?_foldl_insert_of_mem mem ?_ empty)⟩
  intro w other
  exact (Prod.mk.inj (List.inj_on_of_nodup_map single other mem rfl)).2

theorem ofList_eq_iff {l l' : List (κ × α)} (single : (l.map Prod.fst).Nodup)
    (single' : (l'.map Prod.fst).Nodup) : ofList l = ofList l' ↔ l.Perm l' := by
  have kept := entries_ofList_perm single
  have kept' := entries_ofList_perm single'
  constructor
  · intro same
    rw [same] at kept
    exact kept.symm.trans kept'
  · exact fun perm => eq_of_perm ((kept.trans perm).trans kept'.symm)

instance [DecidableEq α] : DecidableEq (BTreeMap κ α) := fun m n =>
  decidable_of_iff (m.entries = n.entries) ⟨ext, congrArg entries⟩

end BTreeMap

end GitAgentic
