import GitAgentic.Memory.Fence

/-! Which head a change row goes to. The name a trigger emits is looked up as it is, then
by its bare name; the second lookup does not look at the schema of what it finds. -/
namespace GitAgentic

namespace Triggers

def schemaOf (s : String) : Option String :=
  if '.' ∈ s.toList then some (String.ofList ((s.toList.reverse.dropWhile (· ≠ '.')).tail.reverse))
  else none

section

variable (tables : List TrackedTable)

def configured (name : String) : Prop := ∃ t ∈ tables, t.name = name

/-- The configured tables with that bare name. -/
def sharing (bare : String) : List TrackedTable := tables.filter (fun t => bareName t.name = bare)

/-- Rows of the emitted table go to its own head, if to any. -/
structure Routed (emitted : String) : Prop where
  key : ∀ key, resolve tables emitted = some key →
    key = emitted ∨ key = bareName emitted ∧ (sharing tables (bareName emitted)).length = 1
  schema : ∀ key, resolve tables emitted = some key → (schemaOf key).isSome →
    schemaOf key = schemaOf emitted
  apart : ∀ other, other ≠ emitted → (schemaOf other).isSome → (schemaOf emitted).isSome →
    configured tables other → configured tables emitted →
    ∀ key, resolve tables emitted = some key → resolve tables other ≠ some key

end

variable {tables : List TrackedTable} {emitted key : String}

theorem bareName_noDot (s : String) : '.' ∉ (bareName s).toList := by
  have free : ∀ c ∈ s.toList.reverse.takeWhile (· ≠ '.'), c ≠ '.' := by
    intro c hc
    simpa using List.mem_takeWhile_imp hc
  rw [bareName, String.toList_ofList, List.mem_reverse]
  exact fun dot => free '.' dot rfl

theorem schemaOf_bareName (s : String) : schemaOf (bareName s) = none :=
  if_neg (bareName_noDot s)

theorem keyOf_get? (tables : List TrackedTable) (name : String) :
    (keyOf tables).get? name = some key ↔ key = name ∧ configured tables name := by
  have present := BTreeMap.get?_ofList_isSome (tables.map (fun t => (t.name, t.name))) name
  have same : ∀ k, (keyOf tables).get? name = some k → k = name := by
    intro k found
    obtain ⟨t, _, same⟩ :=
      List.mem_map.mp (BTreeMap.mem_ofList (BTreeMap.get?_eq_some_iff.mp found))
    obtain ⟨rfl, rfl⟩ := Prod.mk.inj same
    rfl
  have member : name ∈ (tables.map (fun t => (t.name, t.name))).map Prod.fst ↔
      configured tables name := by
    simp [configured]
  rw [member] at present
  constructor
  · intro found
    exact ⟨same key found, present.mp (by rw [keyOf] at found; rw [found]; rfl)⟩
  · rintro ⟨rfl, known⟩
    obtain ⟨k, found⟩ := Option.isSome_iff_exists.mp (present.mpr known)
    rw [keyOf, found, same k found]

theorem bareLookup_get? (tables : List TrackedTable) (bare : String) :
    (bareLookup tables).get? bare = some key ↔ ∃ t, sharing tables bare = [t] ∧ t.name = key := by
  have shares : ∀ t ∈ tables, (tables.filter (fun u => bareName u.name = bareName t.name)).length = 1 →
      sharing tables (bareName t.name) = [t] := by
    intro t mem one
    obtain ⟨u, only⟩ := List.length_eq_one_iff.mp one
    have own : t ∈ sharing tables (bareName t.name) := List.mem_filter.mpr ⟨mem, by simp⟩
    rw [sharing, only] at own ⊢
    rw [List.mem_singleton.mp own]
  constructor
  · intro found
    obtain ⟨t, mem, same⟩ :=
      List.mem_map.mp (BTreeMap.mem_ofList (BTreeMap.get?_eq_some_iff.mp found))
    obtain ⟨rfl, rfl⟩ := Prod.mk.inj same
    obtain ⟨mem, one⟩ := List.mem_filter.mp mem
    exact ⟨t, shares t mem (of_decide_eq_true one), rfl⟩
  · rintro ⟨t, only, rfl⟩
    have own : t ∈ sharing tables bare := by
      rw [only]
      exact List.mem_singleton_self t
    obtain ⟨mem, isBare⟩ := List.mem_filter.mp own
    have isBare : bareName t.name = bare := of_decide_eq_true isBare
    subst isBare
    have unique : (tables.filter (fun u => bareName u.name = bareName t.name)).length = 1 := by
      rw [← sharing, only]
      rfl
    have present : ((bareLookup tables).get? (bareName t.name)).isSome := by
      refine (BTreeMap.get?_ofList_isSome _ _).mpr ?_
      rw [List.map_map]
      exact List.mem_map.mpr ⟨t, List.mem_filter.mpr ⟨mem, decide_eq_true unique⟩, rfl⟩
    obtain ⟨k, found⟩ := Option.isSome_iff_exists.mp present
    obtain ⟨u, mem', same⟩ :=
      List.mem_map.mp (BTreeMap.mem_ofList (BTreeMap.get?_eq_some_iff.mp found))
    obtain ⟨bare, name⟩ := Prod.mk.inj same
    have among : u ∈ sharing tables (bareName t.name) :=
      List.mem_filter.mpr ⟨List.mem_of_mem_filter mem', decide_eq_true bare⟩
    rw [only] at among
    rw [found, ← name, List.mem_singleton.mp among]

theorem resolve_iff (tables : List TrackedTable) (emitted : String) :
    resolve tables emitted = some key ↔
      key = emitted ∧ configured tables emitted ∨
        ¬ configured tables emitted ∧ ∃ t, sharing tables (bareName emitted) = [t] ∧ t.name = key := by
  unfold resolve
  by_cases known : configured tables emitted
  · have exact : (keyOf tables).get? emitted = some emitted := (keyOf_get? tables emitted).mpr ⟨rfl, known⟩
    simp [exact, known, eq_comm]
  · have absent : (keyOf tables).get? emitted = none := by
      rw [Option.eq_none_iff_forall_ne_some]
      exact fun k found => known ((keyOf_get? tables emitted).mp found).2
    simp [absent, known, bareLookup_get?]

/-- Rows are routed right exactly when the emitted name is configured as it is, or its
bare name belongs to one configured table only where that one is configured bare. -/
theorem routed_iff (tables : List TrackedTable) (emitted : String) :
    Routed tables emitted ↔ configured tables emitted ∨
      ∀ t, sharing tables (bareName emitted) = [t] → t.name = bareName emitted := by
  constructor
  · intro routed
    by_cases known : configured tables emitted
    · exact Or.inl known
    · refine Or.inr (fun t only => ?_)
      have found := (resolve_iff tables emitted).mpr (Or.inr ⟨known, t, only, rfl⟩)
      rcases routed.key t.name found with same | ⟨bare, _⟩
      · have mem : t ∈ tables := List.mem_of_mem_filter (by rw [← sharing, only]; exact List.mem_singleton_self t)
        exact absurd ⟨t, mem, same⟩ known
      · exact bare
  · intro condition
    have cases_ : ∀ key, resolve tables emitted = some key →
        key = emitted ∨ key = bareName emitted ∧ (sharing tables (bareName emitted)).length = 1 := by
      intro key found
      rcases (resolve_iff tables emitted).mp found with ⟨same, _⟩ | ⟨unknown, t, only, rfl⟩
      · exact Or.inl same
      · exact Or.inr ⟨(condition.resolve_left unknown) t only, by rw [only]; rfl⟩
    refine ⟨cases_, ?_, ?_⟩
    · intro key found qualified
      rcases cases_ key found with rfl | ⟨rfl, _⟩
      · rfl
      · rw [schemaOf_bareName] at qualified
        cases qualified
    · intro other different _ _ knownOther known key found found'
      have first := (resolve_iff tables emitted).mpr (Or.inl ⟨rfl, known⟩)
      have second := (resolve_iff tables other).mpr (Or.inl ⟨rfl, knownOther⟩)
      rw [found] at first
      rw [found'] at second
      exact different ((Option.some.inj second).symm.trans (Option.some.inj first))

/-- A row of a table nobody configured goes to the table of that name in another schema. -/
theorem not_always_routed : ¬ ∀ (tables : List TrackedTable) (emitted : String), Routed tables emitted := by
  intro always
  have found : resolve [{ name := "audit.episodes", pk := "id" }] "public.episodes" =
      some "audit.episodes" := by decide
  rcases (always [{ name := "audit.episodes", pk := "id" }] "public.episodes").key _ found with
    same | ⟨bare, _⟩
  · exact absurd same (by decide)
  · exact absurd bare (by decide)

end Triggers

end GitAgentic
