import GitAgentic.Core.Diff

/-! The difference of two trees is a patch: applied to the first it gives the second, and
turned round it leads back. -/
namespace GitAgentic

variable {Hash : Type} [DecidableEq Hash]

def hashesOf (entries : BTreeMap String (TypedRef Hash)) : BTreeMap String Hash :=
  entries.setValues (entries.entries.map (fun e => (e.1, e.2.hash))) (by rw [List.map_map]; rfl)

def TreeEntry.binding (e : TreeEntry Hash) : String × Hash := (e.name, e.hash)

def TreeModification.binding (m : TreeModification Hash) : String × Hash := (m.name, m.to_)

namespace TreeDiff

def apply (d : TreeDiff Hash) (hashes : BTreeMap String Hash) : BTreeMap String Hash :=
  (d.added.map TreeEntry.binding ++ d.modified.map TreeModification.binding).foldl
    (fun m e => m.insert e.1 e.2) (hashes.without (d.removed.map TreeEntry.name))

def reverse (d : TreeDiff Hash) : TreeDiff Hash where
  added := d.removed
  removed := d.added
  modified := d.modified.map (fun m => { name := m.name, from_ := m.to_, to_ := m.from_ })

/-- Each list is in strict order, and no name is listed twice. -/
structure Ordered (d : TreeDiff Hash) : Prop where
  added : (d.added.map TreeEntry.name).Pairwise (· < ·)
  removed : (d.removed.map TreeEntry.name).Pairwise (· < ·)
  modified : (d.modified.map TreeModification.name).Pairwise (· < ·)
  once : (d.added.map TreeEntry.name ++ (d.removed.map TreeEntry.name ++
    d.modified.map TreeModification.name)).Nodup

end TreeDiff

def StringChange.reverse (c : StringChange) : StringChange := { from_ := c.to_, to_ := c.from_ }

def HashChange.reverse (c : HashChange Hash) : HashChange Hash := { from_ := c.to_, to_ := c.from_ }

def CommitDiff.reverse (d : CommitDiff Hash) : CommitDiff Hash where
  from_ := d.to_
  to_ := d.from_
  codeSha := d.codeSha.map StringChange.reverse
  prompts := d.prompts.map TreeDiff.reverse
  tools := d.tools.map TreeDiff.reverse
  model := d.model.map StringChange.reverse
  memorySnapshot := d.memorySnapshot.map HashChange.reverse
  schemaVersion := d.schemaVersion.map StringChange.reverse

namespace Diff

variable (a b : BTreeMap String (TypedRef Hash))

def hashAt (entries : BTreeMap String (TypedRef Hash)) (name : String) : Option Hash :=
  (entries.get? name).map TypedRef.hash

def addedAt (name : String) : Option (TreeEntry Hash) :=
  match hashAt a name, hashAt b name with
  | none, some hash => some { name, hash }
  | _, _ => none

def modifiedAt (name : String) : Option (TreeModification Hash) :=
  match hashAt a name, hashAt b name with
  | some from_, some to_ => if from_ ≠ to_ then some { name, from_, to_ } else none
  | _, _ => none

variable {a b}

omit [DecidableEq Hash] in
theorem get?_hashesOf (name : String) : (hashesOf a).get? name = hashAt a name := by
  refine Option.ext (fun h => ?_)
  rw [BTreeMap.get?_eq_some_iff, hashesOf, BTreeMap.setValues, List.mem_map, hashAt,
    Option.map_eq_some_iff]
  simp only [BTreeMap.get?_eq_some_iff]
  constructor
  · rintro ⟨⟨_, r⟩, mem, same⟩
    cases same
    exact ⟨r, mem, rfl⟩
  · rintro ⟨r, mem, rfl⟩
    exact ⟨(name, r), mem, rfl⟩

omit [DecidableEq Hash] in
theorem mem_allNames {name : String} :
    name ∈ allNames a b ↔ (hashAt a name).isSome = true ∨ (hashAt b name).isSome = true := by
  rw [allNames, BTreeMap.mem_keys, BTreeMap.get?_ofList_isSome, List.map_map]
  have plain : (Prod.fst ∘ fun name : String => (name, ())) = id := rfl
  rw [plain, List.map_id, List.mem_append, BTreeMap.mem_keys, BTreeMap.mem_keys, hashAt, hashAt,
    Option.isSome_map, Option.isSome_map]

omit [DecidableEq Hash] in
theorem allNames_sorted : (allNames a b).Pairwise (· < ·) := BTreeMap.keys_sorted _

omit [DecidableEq Hash] in
theorem allNames_comm : allNames b a = allNames a b := by
  have listed : ∀ name, name ∈ allNames b a ↔ name ∈ allNames a b := by
    intro name
    rw [mem_allNames, mem_allNames, or_comm]
  have apart : ∀ names : List String, names.Pairwise (· < ·) → names.Nodup := fun _ sorted =>
    sorted.imp (fun below => below.ne)
  have perm := (List.perm_ext_iff_of_nodup (apart _ allNames_sorted) (apart _ allNames_sorted)).mpr listed
  exact perm.eq_of_pairwise (fun _ _ _ _ ab ba => absurd (ab.trans ba) (lt_irrefl _))
    allNames_sorted allNames_sorted

theorem diffName_eq (d : TreeDiff Hash) (name : String) :
    diffName a b d name = {
      added := d.added ++ (addedAt a b name).toList
      removed := d.removed ++ (addedAt b a name).toList
      modified := d.modified ++ (modifiedAt a b name).toList } := by
  unfold diffName addedAt modifiedAt hashAt
  cases ofA : a.get? name with
  | none =>
    cases ofB : b.get? name with
    | none => simp
    | some bRef => simp
  | some aRef =>
    cases ofB : b.get? name with
    | none => simp
    | some bRef =>
      by_cases same : aRef.hash = bRef.hash
      · simp [same]
      · simp [same]

theorem foldl_diffName (names : List String) (d : TreeDiff Hash) :
    names.foldl (diffName a b) d = {
      added := d.added ++ names.filterMap (addedAt a b)
      removed := d.removed ++ names.filterMap (addedAt b a)
      modified := d.modified ++ names.filterMap (modifiedAt a b) } := by
  have split : ∀ {γ : Type} (f : String → Option γ) (name : String) (rest : List String),
      (name :: rest).filterMap f = (f name).toList ++ rest.filterMap f := by
    intro γ f name rest
    cases given : f name <;> simp [given]
  induction names generalizing d with
  | nil => simp
  | cons name rest ih =>
    rw [List.foldl_cons, ih, diffName_eq]
    simp only [split, List.append_assoc]

theorem diffEntries_eq : diffEntries a b = {
    added := (allNames a b).filterMap (addedAt a b)
    removed := (allNames a b).filterMap (addedAt b a)
    modified := (allNames a b).filterMap (modifiedAt a b) } := by
  rw [diffEntries, foldl_diffName]
  simp

omit [DecidableEq Hash] in
theorem addedAt_eq_some_iff {name : String} {e : TreeEntry Hash} :
    addedAt a b name = some e ↔ e.name = name ∧ hashAt a name = none ∧ hashAt b name = some e.hash := by
  obtain ⟨other, hash⟩ := e
  unfold addedAt
  cases hashAt a name <;> cases hashAt b name <;> simp [eq_comm]

theorem modifiedAt_eq_some_iff {name : String} {m : TreeModification Hash} :
    modifiedAt a b name = some m ↔ m.name = name ∧ hashAt a name = some m.from_ ∧
      hashAt b name = some m.to_ ∧ m.from_ ≠ m.to_ := by
  obtain ⟨other, old, new⟩ := m
  unfold modifiedAt
  cases hashAt a name with
  | none => simp
  | some old' =>
    cases hashAt b name with
    | none => simp
    | some new' =>
      by_cases same : old' = new'
      · subst same
        simp only [ne_eq, not_true, if_false, reduceCtorEq, Option.some.injEq, false_iff]
        rintro ⟨_, rfl, rfl, different⟩
        exact different rfl
      · simp only [ne_eq, same, not_false_iff, if_true, Option.some.injEq, TreeModification.mk.injEq]
        constructor
        · rintro ⟨rfl, rfl, rfl⟩
          exact ⟨rfl, rfl, rfl, same⟩
        · rintro ⟨rfl, rfl, rfl, _⟩
          exact ⟨rfl, rfl, rfl⟩

theorem mem_added {e : TreeEntry Hash} :
    e ∈ (diffEntries a b).added ↔ hashAt a e.name = none ∧ hashAt b e.name = some e.hash := by
  rw [diffEntries_eq, List.mem_filterMap]
  simp only [addedAt_eq_some_iff, mem_allNames]
  constructor
  · rintro ⟨_, _, rfl, gained⟩
    exact gained
  · rintro gained
    exact ⟨e.name, Or.inr (by rw [gained.2]; rfl), rfl, gained⟩

theorem mem_removed {e : TreeEntry Hash} :
    e ∈ (diffEntries a b).removed ↔ hashAt b e.name = none ∧ hashAt a e.name = some e.hash := by
  rw [diffEntries_eq, List.mem_filterMap]
  simp only [addedAt_eq_some_iff, mem_allNames]
  constructor
  · rintro ⟨_, _, rfl, lost⟩
    exact lost
  · rintro lost
    exact ⟨e.name, Or.inl (by rw [lost.2]; rfl), rfl, lost⟩

theorem mem_modified {m : TreeModification Hash} :
    m ∈ (diffEntries a b).modified ↔ hashAt a m.name = some m.from_ ∧
      hashAt b m.name = some m.to_ ∧ m.from_ ≠ m.to_ := by
  rw [diffEntries_eq, List.mem_filterMap]
  simp only [modifiedAt_eq_some_iff, mem_allNames]
  constructor
  · rintro ⟨_, _, rfl, changed⟩
    exact changed
  · rintro changed
    exact ⟨m.name, Or.inl (by rw [changed.1]; rfl), rfl, changed⟩

theorem mem_bindings {name : String} {hash : Hash} :
    (name, hash) ∈ (diffEntries a b).added.map TreeEntry.binding ++
        (diffEntries a b).modified.map TreeModification.binding ↔
      hashAt b name = some hash ∧ hashAt a name ≠ some hash := by
  rw [List.mem_append, List.mem_map, List.mem_map]
  constructor
  · rintro (⟨e, mem, same⟩ | ⟨m, mem, same⟩)
    · cases same
      obtain ⟨absent, present⟩ := mem_added.mp mem
      exact ⟨present, by rw [absent]; nofun⟩
    · cases same
      obtain ⟨old, new, different⟩ := mem_modified.mp mem
      exact ⟨new, fun same => different (Option.some.inj (old.symm.trans same))⟩
  · rintro ⟨new, different⟩
    cases old : hashAt a name with
    | none => exact Or.inl ⟨⟨name, hash⟩, mem_added.mpr ⟨old, new⟩, rfl⟩
    | some was =>
      refine Or.inr ⟨⟨name, was, hash⟩, mem_modified.mpr ⟨old, new, ?_⟩, rfl⟩
      exact fun same => different (old.trans (congrArg some same))

theorem mem_removedNames {name : String} :
    name ∈ (diffEntries a b).removed.map TreeEntry.name ↔
      hashAt b name = none ∧ (hashAt a name).isSome = true := by
  rw [List.mem_map, Option.isSome_iff_exists]
  constructor
  · rintro ⟨e, mem, rfl⟩
    obtain ⟨absent, present⟩ := mem_removed.mp mem
    exact ⟨absent, e.hash, present⟩
  · rintro ⟨absent, hash, present⟩
    exact ⟨⟨name, hash⟩, mem_removed.mpr ⟨absent, present⟩, rfl⟩

theorem apply_diffEntries : (diffEntries a b).apply (hashesOf a) = hashesOf b := by
  refine BTreeMap.ext_get? (fun name => ?_)
  rw [TreeDiff.apply, get?_hashesOf]
  cases new : hashAt b name with
  | none =>
    have unbound : name ∉ ((diffEntries a b).added.map TreeEntry.binding ++
        (diffEntries a b).modified.map TreeModification.binding).map Prod.fst := by
      intro listed
      obtain ⟨⟨_, hash⟩, mem, rfl⟩ := List.mem_map.mp listed
      have bound := (mem_bindings.mp mem).1
      rw [new] at bound
      cases bound
    rw [BTreeMap.get?_foldl_insert_of_not_mem unbound, BTreeMap.get?_without, get?_hashesOf]
    split
    · rfl
    · rename_i kept
      rw [mem_removedNames, not_and, Bool.not_eq_true, Option.isSome_eq_false_iff] at kept
      exact Option.isNone_iff_eq_none.mp (kept new)
  | some hash =>
    by_cases same : hashAt a name = some hash
    · have unbound : name ∉ ((diffEntries a b).added.map TreeEntry.binding ++
          (diffEntries a b).modified.map TreeModification.binding).map Prod.fst := by
        intro listed
        obtain ⟨⟨_, other⟩, mem, rfl⟩ := List.mem_map.mp listed
        obtain ⟨bound, different⟩ := mem_bindings.mp mem
        rw [new] at bound
        exact different (same.trans bound)
      have kept : name ∉ (diffEntries a b).removed.map TreeEntry.name := by
        rw [mem_removedNames, new]
        exact fun gone => nomatch gone.1
      rw [BTreeMap.get?_foldl_insert_of_not_mem unbound, BTreeMap.get?_without, if_neg kept,
        get?_hashesOf, same]
    · refine BTreeMap.get?_foldl_insert_of_mem (mem_bindings.mpr ⟨new, same⟩) (fun other mem => ?_) _
      have bound := (mem_bindings.mp mem).1
      rw [new] at bound
      exact (Option.some.inj bound).symm

theorem filterMap_sorted {γ : Type} {f : String → Option γ} {nameOf : γ → String}
    (named : ∀ name c, f name = some c → nameOf c = name) {names : List String}
    (sorted : names.Pairwise (· < ·)) : ((names.filterMap f).map nameOf).Pairwise (· < ·) := by
  refine List.pairwise_map.mpr (sorted.filterMap f ?_)
  intro name name' below c given c' given'
  rw [named name c given, named name' c' given']
  exact below

theorem ordered_diffEntries : (diffEntries a b).Ordered := by
  have added : ((diffEntries a b).added.map TreeEntry.name).Pairwise (· < ·) := by
    rw [diffEntries_eq]
    exact filterMap_sorted (fun _ _ given => (addedAt_eq_some_iff.mp given).1) allNames_sorted
  have removed : ((diffEntries a b).removed.map TreeEntry.name).Pairwise (· < ·) := by
    rw [diffEntries_eq]
    exact filterMap_sorted (fun _ _ given => (addedAt_eq_some_iff.mp given).1) allNames_sorted
  have modified : ((diffEntries a b).modified.map TreeModification.name).Pairwise (· < ·) := by
    rw [diffEntries_eq]
    exact filterMap_sorted (fun _ _ given => (modifiedAt_eq_some_iff.mp given).1) allNames_sorted
  refine ⟨added, removed, modified, ?_⟩
  have apart : ∀ names : List String, names.Pairwise (· < ·) → names.Nodup := fun _ sorted =>
    sorted.imp (fun below => below.ne)
  refine List.nodup_append.mpr ⟨apart _ added, List.nodup_append.mpr ⟨apart _ removed,
    apart _ modified, ?_⟩, ?_⟩
  · rintro name gone _ changed rfl
    obtain ⟨m, mem, rfl⟩ := List.mem_map.mp changed
    have both := (mem_removedNames.mp gone).1.symm.trans (mem_modified.mp mem).2.1
    cases both
  · rintro name new other listed rfl
    obtain ⟨e, mem, rfl⟩ := List.mem_map.mp new
    have absent := (mem_added.mp mem).1
    rcases List.mem_append.mp listed with gone | changed
    · have present := (mem_removedNames.mp gone).2
      rw [absent] at present
      cases present
    · obtain ⟨m, changed, same⟩ := List.mem_map.mp changed
      have present := (mem_modified.mp changed).1
      rw [same, absent] at present
      cases present

theorem modifiedAt_swap (name : String) : modifiedAt b a name =
    (modifiedAt a b name).map (fun m => { name := m.name, from_ := m.to_, to_ := m.from_ }) := by
  unfold modifiedAt
  cases hashAt a name with
  | none => cases hashAt b name <;> rfl
  | some old =>
    cases hashAt b name with
    | none => rfl
    | some new =>
      by_cases same : old = new
      · simp [same]
      · simp [same, Ne.symm same]

theorem reverse_diffEntries : diffEntries b a = (diffEntries a b).reverse := by
  rw [diffEntries_eq, diffEntries_eq, allNames_comm, TreeDiff.reverse]
  have swapped : (allNames a b).filterMap (modifiedAt b a) = ((allNames a b).filterMap
      (modifiedAt a b)).map (fun m => { name := m.name, from_ := m.to_, to_ := m.from_ }) := by
    rw [List.map_filterMap]
    exact List.filterMap_congr (fun name _ => modifiedAt_swap name)
  rw [swapped]

theorem diffEntries_isEmpty_iff : (diffEntries a b).isEmpty = true ↔ hashesOf a = hashesOf b := by
  rw [TreeDiff.isEmpty, Bool.and_eq_true, Bool.and_eq_true, List.isEmpty_iff, List.isEmpty_iff,
    List.isEmpty_iff]
  constructor
  · rintro ⟨⟨added, removed⟩, modified⟩
    have applied := apply_diffEntries (a := a) (b := b)
    rw [TreeDiff.apply, added, removed, modified] at applied
    rw [← applied]
    refine BTreeMap.ext_get? (fun name => ?_)
    show (hashesOf a).get? name = ((hashesOf a).without []).get? name
    rw [BTreeMap.get?_without, if_neg List.not_mem_nil]
  · intro same
    have at_ : ∀ name, hashAt a name = hashAt b name := by
      intro name
      rw [← get?_hashesOf, ← get?_hashesOf, same]
    refine ⟨⟨?_, ?_⟩, ?_⟩
    · refine List.eq_nil_iff_forall_not_mem.mpr (fun e mem => ?_)
      obtain ⟨absent, present⟩ := mem_added.mp mem
      rw [at_, present] at absent
      cases absent
    · refine List.eq_nil_iff_forall_not_mem.mpr (fun e mem => ?_)
      obtain ⟨absent, present⟩ := mem_removed.mp mem
      rw [← at_, present] at absent
      cases absent
    · refine List.eq_nil_iff_forall_not_mem.mpr (fun m mem => ?_)
      obtain ⟨old, new, different⟩ := mem_modified.mp mem
      rw [at_, new] at old
      exact different (Option.some.inj old).symm

omit [DecidableEq Hash] in
theorem hashesOf_treeOf (P : Platform Hash) (entries : BTreeMap String Bytes) :
    (hashesOf (treeOf P entries).entries).entries = entries.entries.map (fun e => (e.1, P.of e.2)) := by
  show (treeOf P entries).entries.entries.map _ = _
  rw [treeOf_entries, List.map_map]
  rfl

variable {P : Platform Hash}

omit [DecidableEq Hash] in
theorem treeOf_eq_of_hashes {x y : BTreeMap String Bytes}
    (same : hashesOf (treeOf P x).entries = hashesOf (treeOf P y).entries) :
    treeHash? P x = treeHash? P y := by
  have listed := congrArg BTreeMap.entries same
  rw [hashesOf_treeOf, hashesOf_treeOf] at listed
  have whole : x = y := by
    refine BTreeMap.ext ((List.map_injective_iff.mpr ?_) listed)
    intro e e' bound
    obtain ⟨name, address⟩ := Prod.mk.inj bound
    exact Prod.ext name (P.of_injective address)
  rw [whole]

/- Commits whose objects the store has. -/

variable {store : Hash → Except (Error Hash) (Object Hash)}

def Returns (P : Platform Hash) (store : Hash → Except (Error Hash) (Object Hash))
    (objects : List (Object Hash)) : Prop := ∀ o ∈ objects, store (o.hash P) = .ok o

omit [DecidableEq Hash] in
theorem loadCommit_of {hash : Hash} {c : Commit Hash} (there : store hash = .ok (.commit c)) :
    loadCommit store hash = .ok c := by
  rw [loadCommit, there]
  rfl

omit [DecidableEq Hash] in
theorem loadTree_of {hash : Hash} {t : Tree Hash} (there : store hash = .ok (.tree t)) :
    loadTree store hash = .ok t := by
  rw [loadTree, there]
  rfl

omit [DecidableEq Hash] in
theorem loadBlob_of {hash : Hash} {b : Blob} (there : store hash = .ok (.blob b)) :
    loadBlob store hash = .ok b := by
  rw [loadBlob, there]
  rfl

omit [DecidableEq Hash] in
theorem treeEntries_staged {x : BTreeMap String Bytes} (held : Returns P store (treeObjects P x)) :
    treeEntries store (treeHash? P x) = .ok (treeOf P x).entries := by
  unfold treeHash?
  by_cases none_ : x.entries = []
  · rw [if_pos none_]
    have bare : BTreeMap.empty = (treeOf P x).entries :=
      BTreeMap.ext (by rw [treeOf_entries, none_]; rfl)
    rw [← bare]
    rfl
  · rw [if_neg none_]
    have there := loadTree_of (held (.tree (treeOf P x)) (by simp [treeObjects, none_]))
    rw [treeEntries, there]
    rfl

variable (P) in
def treeChange (x y : BTreeMap String Bytes) : Option (TreeDiff Hash) :=
  if treeHash? P x = treeHash? P y then none
  else some (diffEntries (treeOf P x).entries (treeOf P y).entries)

theorem diffTree_staged {x y : BTreeMap String Bytes} (heldX : Returns P store (treeObjects P x))
    (heldY : Returns P store (treeObjects P y)) :
    diffTree store (treeHash? P x) (treeHash? P y) = .ok (treeChange P x y) := by
  unfold diffTree treeChange
  by_cases same : treeHash? P x = treeHash? P y
  · rw [if_pos same, if_pos same]
    rfl
  · rw [if_neg same, if_neg same, treeEntries_staged heldX, treeEntries_staged heldY]
    have some_ : (diffEntries (treeOf P x).entries (treeOf P y).entries).isEmpty = false :=
      Bool.eq_false_iff.mpr (fun empty =>
        same (treeOf_eq_of_hashes (diffEntries_isEmpty_iff.mp empty)))
    show (if _ then _ else _) = _
    rw [some_]
    rfl

omit [DecidableEq Hash] in
theorem modelHash_inj {m m' : Option String}
    (same : (modelBytes m).map P.of = (modelBytes m').map P.of) : m = m' := by
  cases m with
  | none =>
    cases m' with
    | none => rfl
    | some s' => cases same
  | some s =>
    cases m' with
    | none => cases same
    | some s' =>
      have bytes : utf8 s.toList = utf8 s'.toList := P.of_injective (Option.some.inj same)
      have text := congrArg fromUtf8 bytes
      rw [fromUtf8_utf8, fromUtf8_utf8] at text
      exact text

def modelObjects (model : Option String) : List (Object Hash) :=
  (modelBytes model).toList.map (fun bytes => .blob ⟨bytes⟩)

omit [DecidableEq Hash] in
theorem modelText_staged {m : Option String} (held : Returns P store (modelObjects m)) :
    modelText store ((modelBytes m).map P.of) = .ok m := by
  cases m with
  | none => rfl
  | some s =>
    have there : loadBlob store (P.of (utf8 s.toList)) = .ok ⟨utf8 s.toList⟩ :=
      loadBlob_of (held (.blob ⟨utf8 s.toList⟩) List.mem_cons_self)
    have exact_ : fromUtf8Lossy (utf8 s.toList) = s := by
      rw [fromUtf8Lossy, fromUtf8_utf8]
    show modelText store (some (P.of (utf8 s.toList))) = _
    rw [modelText, there]
    show Except.ok (some (fromUtf8Lossy (utf8 s.toList))) = _
    rw [exact_]

theorem diffModelBlob_staged {m m' : Option String} (held : Returns P store (modelObjects m))
    (held' : Returns P store (modelObjects m')) :
    diffModelBlob store ((modelBytes m).map P.of) ((modelBytes m').map P.of) =
      .ok (stringChange m m') := by
  unfold diffModelBlob stringChange
  by_cases same : m = m'
  · subst same
    rw [if_pos rfl, if_pos rfl]
    rfl
  · rw [if_neg (fun hashes => same (modelHash_inj hashes)), if_neg same, modelText_staged held,
      modelText_staged held']
    show (if _ then _ else _) = _
    rw [if_neg same]
    rfl

variable (P) in
/-- The difference of the commits of two inputs. -/
def change (a b : CommitInputs Hash) (ta tb : Int) : CommitDiff Hash where
  from_ := (Object.commit (a.commit P ta)).hash P
  to_ := (Object.commit (b.commit P tb)).hash P
  codeSha := stringChange a.codeSha b.codeSha
  prompts := treeChange P a.prompts b.prompts
  tools := treeChange P a.tools b.tools
  model := stringChange a.model b.model
  memorySnapshot := hashChange a.memorySnapshot b.memorySnapshot
  schemaVersion := stringChange a.schemaVersion b.schemaVersion

theorem diff_staged {a b : CommitInputs Hash} {ta tb : Int} (heldA : Returns P store (a.objects P ta))
    (heldB : Returns P store (b.objects P tb)) :
    diff store ((Object.commit (a.commit P ta)).hash P) ((Object.commit (b.commit P tb)).hash P) =
      .ok (change P a b ta tb) := by
  have parts : ∀ {inputs : CommitInputs Hash} {t : Int}, Returns P store (inputs.objects P t) →
      Returns P store (treeObjects P inputs.prompts) ∧ Returns P store (treeObjects P inputs.tools) ∧
      Returns P store (modelObjects inputs.model) ∧
      store ((Object.commit (inputs.commit P t)).hash P) = .ok (.commit (inputs.commit P t)) := by
    intro inputs t held
    refine ⟨fun o mem => held o ?_, fun o mem => held o ?_, fun o mem => held o ?_, held _ ?_⟩
    · exact List.mem_append_left _ mem
    · exact List.mem_append_right _ (List.mem_append_left _ mem)
    · exact List.mem_append_right _ (List.mem_append_right _ (List.mem_append_left _ mem))
    · simp [CommitInputs.objects]
  obtain ⟨promptsA, toolsA, modelA, commitA⟩ := parts heldA
  obtain ⟨promptsB, toolsB, modelB, commitB⟩ := parts heldB
  have prompts : diffTree store (a.commit P ta).prompts (b.commit P tb).prompts = _ :=
    diffTree_staged promptsA promptsB
  have tools : diffTree store (a.commit P ta).tools (b.commit P tb).tools = _ :=
    diffTree_staged toolsA toolsB
  have model : diffModelBlob store (a.commit P ta).model (b.commit P tb).model = _ :=
    diffModelBlob_staged modelA modelB
  simp only [diff, loadCommit_of commitA, loadCommit_of commitB, prompts, tools, model, bind,
    Except.bind]
  rfl

/- What the difference says. -/

variable (P) in
/-- The difference of two trees leads from the hashes of one to those of the other. -/
structure TreePatch (x y : BTreeMap String Bytes) (d : Option (TreeDiff Hash)) : Prop where
  applied : d.elim (hashesOf (treeOf P x).entries) (fun t => t.apply (hashesOf (treeOf P x).entries)) =
    hashesOf (treeOf P y).entries
  ordered : ∀ t ∈ d, t.Ordered
  unchanged : d = none ↔ treeHash? P x = treeHash? P y

theorem treeChange_patch (x y : BTreeMap String Bytes) : TreePatch P x y (treeChange P x y) := by
  unfold treeChange
  by_cases same : treeHash? P x = treeHash? P y
  · rw [if_pos same]
    refine ⟨?_, nofun, fun _ => same, fun _ => rfl⟩
    have none_ : x.entries = [] ↔ y.entries = [] := by
      unfold treeHash? at same
      by_cases ex : x.entries = [] <;> by_cases ey : y.entries = []
      · exact ⟨fun _ => ey, fun _ => ex⟩
      · rw [if_pos ex, if_neg ey] at same
        cases same
      · rw [if_neg ex, if_pos ey] at same
        cases same
      · exact ⟨fun h => absurd h ex, fun h => absurd h ey⟩
    have trees : treeOf P x = treeOf P y := by
      by_cases ex : x.entries = []
      · have both : x = y := BTreeMap.ext (ex.trans (none_.mp ex).symm)
        rw [both]
      · unfold treeHash? at same
        rw [if_neg ex, if_neg (fun ey => ex (none_.mpr ey))] at same
        exact Object.tree.inj (Object.preimage_inj P rfl (P.of_injective (Option.some.inj same)))
    rw [trees]
    rfl
  · rw [if_neg same]
    refine ⟨apply_diffEntries, ?_, nofun, fun h => absurd h same⟩
    rintro t ⟨⟩
    exact ordered_diffEntries

theorem treeChange_reverse (x y : BTreeMap String Bytes) :
    treeChange P y x = (treeChange P x y).map TreeDiff.reverse := by
  unfold treeChange
  by_cases same : treeHash? P x = treeHash? P y
  · rw [if_pos same, if_pos same.symm]
    rfl
  · rw [if_neg same, if_neg (Ne.symm same), reverse_diffEntries]
    rfl

theorem stringChange_eq_none_iff {x y : Option String} : stringChange x y = none ↔ x = y := by
  simp [stringChange]

theorem hashChange_eq_none_iff {x y : Option Hash} : hashChange x y = none ↔ x = y := by
  simp [hashChange]

theorem stringChange_reverse (x y : Option String) :
    stringChange y x = (stringChange x y).map StringChange.reverse := by
  by_cases same : x = y
  · simp [stringChange, same]
  · simp [stringChange, same, Ne.symm same, StringChange.reverse]

theorem hashChange_reverse (x y : Option Hash) :
    hashChange y x = (hashChange x y).map HashChange.reverse := by
  by_cases same : x = y
  · simp [hashChange, same]
  · simp [hashChange, same, Ne.symm same, HashChange.reverse]

theorem change_reverse (a b : CommitInputs Hash) (ta tb : Int) :
    change P b a tb ta = (change P a b ta tb).reverse := by
  unfold change CommitDiff.reverse
  rw [stringChange_reverse a.codeSha, treeChange_reverse a.prompts, treeChange_reverse a.tools,
    stringChange_reverse a.model, hashChange_reverse a.memorySnapshot,
    stringChange_reverse a.schemaVersion]

/-- The two commits agree on all six dimensions. -/
structure Agree (a b : Commit Hash) : Prop where
  codeSha : a.codeSha = b.codeSha
  prompts : a.prompts = b.prompts
  tools : a.tools = b.tools
  model : a.model = b.model
  memorySnapshot : a.memorySnapshot = b.memorySnapshot
  schemaVersion : a.schemaVersion = b.schemaVersion

variable (P) in
/-- Each dimension is there exactly when the commits differ in it, trees as patches. -/
structure Patches (a b : CommitInputs Hash) (ta tb : Int) (d : CommitDiff Hash) : Prop where
  prompts : TreePatch P a.prompts b.prompts d.prompts
  tools : TreePatch P a.tools b.tools d.tools
  codeSha : d.codeSha = none ↔ (a.commit P ta).codeSha = (b.commit P tb).codeSha
  model : d.model = none ↔ (a.commit P ta).model = (b.commit P tb).model
  memorySnapshot : d.memorySnapshot = none ↔
    (a.commit P ta).memorySnapshot = (b.commit P tb).memorySnapshot
  schemaVersion : d.schemaVersion = none ↔
    (a.commit P ta).schemaVersion = (b.commit P tb).schemaVersion

theorem change_patches (a b : CommitInputs Hash) (ta tb : Int) :
    Patches P a b ta tb (change P a b ta tb) where
  prompts := treeChange_patch a.prompts b.prompts
  tools := treeChange_patch a.tools b.tools
  codeSha := stringChange_eq_none_iff
  model := stringChange_eq_none_iff.trans
    ⟨fun same => congrArg (fun m => (modelBytes m).map P.of) same, fun same => modelHash_inj same⟩
  memorySnapshot := hashChange_eq_none_iff
  schemaVersion := stringChange_eq_none_iff

omit [DecidableEq Hash] in
theorem Patches.isEmpty_iff {a b : CommitInputs Hash} {ta tb : Int} {d : CommitDiff Hash}
    (h : Patches P a b ta tb d) : d.isEmpty = true ↔ Agree (a.commit P ta) (b.commit P tb) := by
  have parts : d.isEmpty = true ↔ d.codeSha = none ∧ d.prompts = none ∧ d.tools = none ∧
      d.model = none ∧ d.memorySnapshot = none ∧ d.schemaVersion = none := by
    simp only [CommitDiff.isEmpty, Bool.and_eq_true, Option.isNone_iff_eq_none, and_assoc]
  rw [parts, h.codeSha, h.prompts.unchanged, h.tools.unchanged, h.model, h.memorySnapshot,
    h.schemaVersion]
  exact ⟨fun ⟨codeSha, prompts, tools, model, memory, schema⟩ =>
      ⟨codeSha, prompts, tools, model, memory, schema⟩,
    fun ⟨codeSha, prompts, tools, model, memory, schema⟩ =>
      ⟨codeSha, prompts, tools, model, memory, schema⟩⟩

/-- Two commits were staged into stores that the store at hand has grown out of, and none
of their addresses is shared. Then the differences both ways are found, one the reverse of
the other, and say what has to be done. -/
theorem diff_is_patch {S : FsObjectStore Hash} {files : Files} {a b : CommitInputs Hash} {ta tb : Int}
    {branchA branchB : String} {rA rA' rB rB' : Repository} {outA outB : CommitOutputs Hash}
    (stagedA : (stageAndCommitWithNow P S branchA a ta).run rA = (.ok outA, rA'))
    (stagedB : (stageAndCommitWithNow P S branchB b tb).run rB = (.ok outB, rB'))
    (keptA : Widens P rA'.objects files) (keptB : Widens P rB'.objects files)
    (collisionFree : ∀ o ∈ a.objects P ta ++ b.objects P tb, Unshared P files o) :
    ∃ d, diff (get P files) outA.commitHash outB.commitHash = .ok d ∧
      Patches P a b ta tb d ∧
      (d.isEmpty = true ↔ Agree (a.commit P ta) (b.commit P tb)) ∧
      diff (get P files) outB.commitHash outA.commitHash = .ok d.reverse := by
  have doneA := stageAndCommit_staged stagedA
  have doneB := stageAndCommit_staged stagedB
  have heldA : Returns P (get P files) (a.objects P ta) := fun o mem =>
    has_of_puts doneA.objects mem keptA (collisionFree o (List.mem_append_left _ mem))
  have heldB : Returns P (get P files) (b.objects P tb) := fun o mem =>
    has_of_puts doneB.objects mem keptB (collisionFree o (List.mem_append_right _ mem))
  rw [doneA.address, doneB.address]
  refine ⟨change P a b ta tb, diff_staged heldA heldB, change_patches a b ta tb,
    (change_patches a b ta tb).isEmpty_iff, ?_⟩
  rw [← change_reverse]
  exact diff_staged heldB heldA

/-- A commit with one prompt. -/
def draft (prompt : String) : CommitInputs Bytes where
  author := "a"
  message := "m"
  parent := none
  codeSha := none
  prompts := BTreeMap.empty.insert prompt [104, 105]
  tools := BTreeMap.empty
  model := some "v"
  memorySnapshot := none
  schemaVersion := none
  intent := none
  plan := none
  transcript := none
  evals := none
  costCents := 0
  peerUid := none
  exemptEntropyPrefixes := []

def stageDraft (prompt : String) (r : Repository) :
    Except (Error Bytes) (CommitOutputs Bytes) × Repository :=
  (stageAndCommitWithNow Platform.sample .silent "main" (draft prompt) 0).run r

def draftHash (prompt : String) : Bytes :=
  (Object.commit ((draft prompt).commit Platform.sample 0)).hash Platform.sample

theorem stageDraft_eq {prompt : String} {r : Repository} {agentic : FileTree TextFile}
    (moved : (Refs.writeBranch Platform.sample "main" (draftHash prompt)).run r.agentic =
      (.ok (), agentic)) :
    (stageAndCommitWithNow Platform.sample .silent "main" (draft prompt) 0).run r =
        (.ok { commitHash := draftHash prompt, branch := "main" }, (stageDraft prompt r).2) ∧
      (stageDraft prompt r).2.agentic = agentic := by
  obtain ⟨objects, staged, _⟩ := stageCommit_puts (FsObjectStore.silent_accepts (draft prompt)) 0 r.objects
  have ran := run_stageAndCommit staged moved
  have after : (stageDraft prompt r).2 = { objects, agentic } := congrArg Prod.snd ran
  rw [after]
  exact ⟨ran, rfl⟩

/-- A prompt is renamed. -/
theorem diff_is_patch_renamed :
    let first := (stageDraft "p" ⟨fun _ => none, Refs.opened⟩).2
    let files := (stageDraft "q" first).2.objects
    ∃ d, diff (get Platform.sample files) (draftHash "p") (draftHash "q") = .ok d ∧
      Patches Platform.sample (draft "p") (draft "q") 0 0 d ∧
      (d.isEmpty = true ↔
        Agree ((draft "p").commit Platform.sample 0) ((draft "q").commit Platform.sample 0)) ∧
      diff (get Platform.sample files) (draftHash "q") (draftHash "p") = .ok d.reverse := by
  have movedP : (Refs.writeBranch Platform.sample "main" (draftHash "p")).run Refs.opened =
      (.ok (), _) := outcome_of (by decide +kernel)
  have movedQ : (Refs.writeBranch Platform.sample "main" (draftHash "q")).run
      ((Refs.writeBranch Platform.sample "main" (draftHash "p")).run Refs.opened).2 =
        (.ok (), _) := outcome_of (by decide +kernel)
  obtain ⟨stagedP, here⟩ := @stageDraft_eq "p" ⟨fun _ => none, Refs.opened⟩ _ movedP
  rw [← here] at movedQ
  obtain ⟨stagedQ, _⟩ := stageDraft_eq movedQ
  dsimp only
  -- From here on only what the two runs returned matters, not how they are computed.
  generalize (stageDraft "q" (stageDraft "p" ⟨fun _ => none, Refs.opened⟩).2).2 = second at stagedQ ⊢
  generalize (stageDraft "p" ⟨fun _ => none, Refs.opened⟩).2 = first at stagedP stagedQ
  have doneP := stageAndCommit_staged stagedP
  have doneQ := stageAndCommit_staged stagedQ
  have put : slots Platform.sample second.objects = WriteOnce.puts (fun _ => none)
      (((draft "p").objects Platform.sample 0 ++ (draft "q").objects Platform.sample 0).map
        (Object.write Platform.sample)) := by
    rw [doneQ.objects, doneP.objects, List.map_append, WriteOnce.puts, WriteOnce.puts,
      WriteOnce.puts, List.foldl_append]
    rfl
  have kept : Widens Platform.sample first.objects second.objects := by
    intro hash compressed slot
    rw [doneQ.objects, WriteOnce.puts_apply, slot]
    rfl
  have apart : ∀ o ∈ (draft "p").objects Platform.sample 0 ++ (draft "q").objects Platform.sample 0,
      Unshared Platform.sample second.objects o :=
    fun o mem => unshared_of_puts put (by decide +kernel) mem
  have patch := diff_is_patch stagedP stagedQ kept (Widens.refl second.objects) apart
  dsimp only at patch
  exact patch

end Diff

end GitAgentic
