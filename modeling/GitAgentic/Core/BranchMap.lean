import GitAgentic.Core.Refs

/-! The branch files as a finite map. Every run of writes, with calls that fail or are
cut off anywhere, leaves exactly the branches written successfully. -/
namespace GitAgentic

namespace Refs

variable {Hash : Type} (P : Platform Hash)

inductive Call (Hash : Type) where
  | writeBranch (branch : String) (hash : Hash)
  | writeHeadSymbolic (branch : String)

def Call.name : Call Hash → String
  | .writeBranch branch _ => branch
  | .writeHeadSymbolic branch => branch

def Call.program : Call Hash → RefsProgram Hash Unit
  | .writeBranch branch hash => Refs.writeBranch P branch hash
  | .writeHeadSymbolic branch => Refs.writeHeadSymbolic branch

/-- The result of a call, `none` when it was cut off. -/
abbrev Outcome (Hash : Type) := Option (Except (Error Hash) Unit)

/-- Calls one after another; each is stopped after any number of its operations, any of
which may have failed. -/
inductive Ran (t₀ : FileTree TextFile) : List (Call Hash × Outcome Hash) → FileTree TextFile → Prop where
  | opened : Ran t₀ [] t₀
  | called {calls t p t'} (c : Call Hash) : Ran t₀ calls t →
      Program.Reaches (c.program P, t) (p, t') → Ran t₀ (calls ++ [(c, p.result?)]) t'

def record (w : String → Option Hash) : Call Hash × Outcome Hash → String → Option Hash
  | (.writeBranch branch hash, some (.ok _)) => Function.update w branch (some hash)
  | _ => w

/-- The hash last written to each name. -/
def written (calls : List (Call Hash × Outcome Hash)) : String → Option Hash :=
  calls.foldl record (fun _ => none)

/-- `refs/heads` is there and has nothing in it. -/
structure Fresh (t : FileTree TextFile) : Prop where
  dir : t.isDir heads = true
  bare : ∀ path, heads <+: path → t.file? path = none

/-- A branch is in the way of another: one path leads through the other. -/
def Conflict (a b : String) : Prop :=
  splitSlash a ≠ splitSlash b ∧ (splitSlash a <+: splitSlash b ∨ splitSlash b <+: splitSlash a)

structure Refines (w : String → Option Hash) (t : FileTree TextFile) : Prop where
  dir : t.isDir heads = true
  stored : ∀ name hash, w name = some hash → branchRejection name = none ∧
    t.file? (heads ++ splitSlash name) = some (some (P.toHex hash ++ "\n"))
  only : ∀ path, heads <+: path → (t.file? path).isSome = true →
    (∃ name, (w name).isSome = true ∧ path = heads ++ splitSlash name) ∨
      ∃ dir last, path = dir ++ [last] ∧ endsWith ".tmp" last = true

/-- Nothing changed outside `refs/heads` but `HEAD` and its temporary file. -/
def Framed (t t' : FileTree TextFile) : Prop :=
  ∀ path, ¬ heads <+: path → path ≠ headPath → path ≠ withTmp headPath → t'.node? path = t.node? path

/-- Nothing changed outside `refs/heads`. -/
def Confined (t t' : FileTree TextFile) : Prop :=
  ∀ path, ¬ heads <+: path → t'.node? path = t.node? path

theorem Confined.framed {t t' : FileTree TextFile} (h : Confined t t') : Framed t t' :=
  fun path outside _ _ => h path outside

variable {P} {faults : Prop}

theorem componentRejection_of_valid {name component : String} (valid : branchRejection name = none)
    (mem : component ∈ splitSlash name) : componentRejection component = none := by
  unfold branchRejection at valid
  split at valid
  · cases valid
  split at valid
  · cases valid
  split at valid
  · cases valid
  split at valid
  · cases valid
  split at valid
  · cases valid
  · rename_i passes
    exact List.findSome?_eq_none_iff.mp passes component mem

theorem not_tmp_of_valid {name component : String} (valid : branchRejection name = none)
    (mem : component ∈ splitSlash name) : endsWith ".tmp" component = false := by
  have passes := componentRejection_of_valid valid mem
  unfold componentRejection at passes
  split at passes
  · cases passes
  split at passes
  · cases passes
  split at passes
  · cases passes
  · rename_i plain
    simpa using plain

theorem no_backslash_of_valid {name : String} (valid : branchRejection name = none) :
    '\\' ∉ name.toList := by
  unfold branchRejection at valid
  split at valid
  · cases valid
  split at valid
  · cases valid
  split at valid
  · cases valid
  · rename_i plain
    simpa using plain

theorem branch_ne_tmp {name : String} (valid : branchRejection name = none) {dir : TreePath}
    {last : String} (tmp : endsWith ".tmp" last = true) : heads ++ splitSlash name ≠ dir ++ [last] := by
  intro same
  obtain ⟨init, final, parts⟩ : ∃ init final, splitSlash name = init ++ [final] :=
    ⟨_, _, (List.dropLast_append_getLast (splitSlash_ne_nil name)).symm⟩
  rw [parts, ← List.append_assoc] at same
  obtain ⟨_, rfl⟩ := List.append_singleton_inj.mp same
  have plain := not_tmp_of_valid valid (parts ▸ List.mem_append_right init List.mem_cons_self)
  rw [tmp] at plain
  cases plain

/-- Besides the temporary file of a path, only directories on the way to it are new. -/
def Beside (path : TreePath) (t t' : FileTree TextFile) : Prop :=
  ∀ q, q ≠ withTmp path → t'.node? q = t.node? q ∨
    (q <+: path.dropLast ∧ t.node? q = none ∧ t'.node? q = some .dir)

/-- The file has its content, and besides it and its temporary file only directories on
the way to it are new. -/
structure Replaced (path : TreePath) (content : TextFile) (t t' : FileTree TextFile) : Prop where
  file : t'.node? path = some (.file content)
  others : ∀ q, q ≠ path → q ≠ withTmp path → t'.node? q = t.node? q ∨
    (q <+: path.dropLast ∧ t.node? q = none ∧ t'.node? q = some .dir)

theorem Beside.refl (path : TreePath) (t : FileTree TextFile) : Beside path t t :=
  fun _ _ => Or.inl rfl

theorem Beside.grown {path : TreePath} {t u v : FileTree TextFile} (first : Beside path t u)
    (then_ : FileTree.Grown path.dropLast u v) : Beside path t v := by
  intro q other
  rcases then_ q with same | ⟨above, before, after⟩
  · rw [same]
    exact first q other
  · rcases first q other with same | ⟨_, _, made⟩
    · exact Or.inr ⟨above, same ▸ before, after⟩
    · rw [made] at before
      cases before

theorem createDirAll_beside {path : TreePath} {t u : FileTree TextFile} (beside : Beside path t u) :
    (FileTree.createDirAll (Error.io : Error Hash) [] path.dropLast).Safe faults (Beside path t)
      (fun _ v => Beside path t v) u := by
  refine (FileTree.createDirAll_safe _ (show [] ++ path.dropLast <+: path.dropLast by simp)
    u.isDir_root (FileTree.Grown.refl _ u)).mono ?_ ?_
  · exact fun v grown => beside.grown grown
  · exact fun _ v grown => beside.grown grown.1

theorem writeAtomic_safe {path : TreePath} {contents : String} {t u : FileTree TextFile}
    (beside : Beside path t u) :
    (writeAtomic path contents : RefsProgram Hash Unit).Safe faults (Beside path t)
      (fun r t' => match r with
        | .ok _ => Replaced path (some contents) t t'
        | .error _ => Beside path t t') u := by
  refine Program.Safe.bind ((createDirAll_beside beside).mono (fun _ h => h) ?_)
  rintro (_ | _) v beside
  · exact beside
  refine Program.Safe.bind (FileTree.perform_safe _ beside (fun w written => ?_) (fun _ => beside))
  obtain ⟨_, put⟩ := FileTree.write_node? written
  have besides : Beside path t w := by
    intro q other
    rw [put q, if_neg other]
    exact beside q other
  refine FileTree.perform_safe _ besides (fun x renamed => ?_) (fun _ => besides)
  obtain ⟨c, held, _, moved⟩ := FileTree.rename_node? renamed
  have content : c = some contents := by
    have node := FileTree.file?_eq_some_iff.mp held
    rw [put, if_pos rfl] at node
    cases node
    rfl
  subst content
  refine ⟨by rw [moved, if_pos rfl], fun q elsewhere other => ?_⟩
  rw [moved q, if_neg elsewhere, if_neg other]
  exact besides q other

theorem file?_of_same_or_made {t t' : FileTree TextFile} {q path : TreePath}
    (h : t'.node? q = t.node? q ∨ (q <+: path ∧ t.node? q = none ∧ t'.node? q = some .dir)) :
    t'.file? q = t.file? q := by
  unfold FileTree.file?
  rcases h with same | ⟨_, before, after⟩
  · rw [same]
  · rw [before, after]

theorem Refines.keep {w : String → Option Hash} {t t' : FileTree TextFile} (r : Refines P w t)
    (dir : t'.isDir heads = true)
    (same : ∀ path, heads <+: path → t'.file? path = t.file? path ∨
      ∃ dir last, path = dir ++ [last] ∧ endsWith ".tmp" last = true) : Refines P w t' where
  dir := dir
  stored name hash live := by
    obtain ⟨valid, held⟩ := r.stored name hash live
    refine ⟨valid, ?_⟩
    rcases same _ (List.prefix_append heads _) with same | ⟨dir, last, path, tmp⟩
    · rw [same, held]
    · exact absurd path (branch_ne_tmp valid tmp)
  only path below held := by
    rcases same path below with same | tmp
    · exact r.only path below (same ▸ held)
    · exact Or.inr tmp

theorem withTmp_tmp (path : TreePath) :
    ∃ dir last, withTmp path = dir ++ [last] ∧ endsWith ".tmp" last = true :=
  ⟨_, _, rfl, endsWith_tmpName _⟩

theorem Refines.beside {w : String → Option Hash} {t t' : FileTree TextFile} (r : Refines P w t)
    {path : TreePath} (h : Beside path t t') : Refines P w t' := by
  refine r.keep ?_ ?_
  · have other : heads ≠ withTmp path := by
      intro same
      obtain ⟨dir, last, tail, tmp⟩ := withTmp_tmp path
      have final := congrArg List.getLast? (same.trans tail)
      rw [List.getLast?_concat] at final
      cases final
      exact absurd tmp (by decide)
    have before := FileTree.isDir_iff.mp r.dir
    rw [FileTree.isDir_iff]
    rcases h heads other with same | ⟨_, free, _⟩
    · rw [same, before]
    · rw [free] at before
      cases before
  · intro q _
    by_cases here : q = withTmp path
    · exact Or.inr (here ▸ withTmp_tmp path)
    · exact Or.inl (file?_of_same_or_made (h q here))

theorem Refines.replaced {w : String → Option Hash} {t t' : FileTree TextFile} (r : Refines P w t)
    {name : String} {hash : Hash} (valid : branchRejection name = none)
    (h : Replaced (heads ++ splitSlash name) (some (P.toHex hash ++ "\n")) t t') :
    Refines P (Function.update w name (some hash)) t' := by
  have others : ∀ q, q ≠ heads ++ splitSlash name → q ≠ withTmp (heads ++ splitSlash name) →
      t'.file? q = t.file? q := fun q elsewhere other => file?_of_same_or_made (h.others q elsewhere other)
  refine ⟨?_, ?_, ?_⟩
  · rw [FileTree.isDir_iff]
    exact FileTree.prefix_isDir h.file (splitSlash_ne_nil name)
  · intro name' hash' live
    by_cases same : name' = name
    · subst same
      rw [Function.update_self] at live
      cases live
      exact ⟨valid, FileTree.file?_eq_some_iff.mpr h.file⟩
    · rw [Function.update_of_ne same] at live
      obtain ⟨valid', held⟩ := r.stored name' hash' live
      refine ⟨valid', ?_⟩
      rw [others _ ?_ ?_, held]
      · intro path
        exact same (splitSlash_injective (List.append_cancel_left path))
      · obtain ⟨dir, last, tail, tmp⟩ := withTmp_tmp (heads ++ splitSlash name)
        rw [tail]
        exact branch_ne_tmp valid' tmp
  · intro q below held
    by_cases here : q = heads ++ splitSlash name
    · exact Or.inl ⟨name, by simp, here⟩
    by_cases beside : q = withTmp (heads ++ splitSlash name)
    · exact Or.inr (beside ▸ withTmp_tmp _)
    rw [others q here beside] at held
    refine (r.only q below held).imp ?_ id
    rintro ⟨name', live, rfl⟩
    refine ⟨name', ?_, rfl⟩
    by_cases same : name' = name
    · subst same
      simp
    · rw [Function.update_of_ne same]
      exact live

theorem Refines.no_conflict {w : String → Option Hash} {t : FileTree TextFile} (r : Refines P w t)
    {a b : String} (ha : (w a).isSome = true) (hb : (w b).isSome = true) : ¬ Conflict a b := by
  have apart : ∀ {a b}, (w a).isSome = true → (w b).isSome = true →
      splitSlash a ≠ splitSlash b → ¬ splitSlash a <+: splitSlash b := by
    rintro a b ha hb other ⟨rest, whole⟩
    obtain ⟨x, hx⟩ := Option.isSome_iff_exists.mp ha
    obtain ⟨y, hy⟩ := Option.isSome_iff_exists.mp hb
    have fileA := FileTree.file?_eq_some_iff.mp (r.stored a x hx).2
    have fileB := FileTree.file?_eq_some_iff.mp (r.stored b y hy).2
    rw [← whole, ← List.append_assoc] at fileB
    have proper : rest ≠ [] := by
      rintro rfl
      exact other (by simpa using whole)
    rw [FileTree.prefix_isDir fileB proper] at fileA
    cases fileA
  rintro ⟨other, leads | leads⟩
  · exact apart ha hb other leads
  · exact apart hb ha (Ne.symm other) leads

theorem dropLast_branch (name : String) :
    (heads ++ splitSlash name).dropLast = heads ++ (splitSlash name).dropLast :=
  List.dropLast_append_of_ne_nil (splitSlash_ne_nil name)

theorem confined_of_others {t t' : FileTree TextFile} (dir : t.isDir heads = true) (name : String)
    (h : ∀ q, ¬ heads <+: q → t'.node? q = t.node? q ∨
      (q <+: (heads ++ splitSlash name).dropLast ∧ t.node? q = none ∧ t'.node? q = some .dir)) :
    Confined t t' := by
  intro q outside
  rcases h q outside with same | ⟨above, free, _⟩
  · exact same
  · rw [dropLast_branch] at above
    rcases List.prefix_or_prefix_of_prefix above (List.prefix_append heads _) with ⟨rest, whole⟩ | below
    · have proper : rest ≠ [] := by
        rintro rfl
        rw [List.append_nil] at whole
        exact outside (whole ▸ List.prefix_refl q)
      have node := FileTree.isDir_iff.mp dir
      rw [← whole] at node
      rw [FileTree.prefix_isDir node proper] at free
      cases free
    · exact absurd below outside

theorem withTmp_below (name : String) : heads <+: withTmp (heads ++ splitSlash name) := by
  rw [withTmp, dropLast_branch, List.append_assoc]
  exact List.prefix_append _ _

theorem branchPath_valid {name : String} (valid : branchRejection name = none) :
    (branchPath name : Except (Error Hash) TreePath) = .ok (heads ++ splitSlash name) := by
  rw [branchPath, validateBranchName, valid]
  rfl

theorem branchPath_rejected {name reason : String} (rejected : branchRejection name = some reason) :
    (branchPath name : Except (Error Hash) TreePath) = .error (.invalidBranchName name reason) := by
  rw [branchPath, validateBranchName, rejected]
  rfl

theorem writeBranch_safe {w : String → Option Hash} {t : FileTree TextFile} (r : Refines P w t)
    (name : String) (hash : Hash) :
    (writeBranch P name hash).Safe faults (fun t' => Refines P w t' ∧ Confined t t')
      (fun result t' => Confined t t' ∧ match result with
        | .ok _ => branchRejection name = none ∧ Refines P (Function.update w name (some hash)) t'
        | .error _ => Refines P w t') t := by
  cases valid : branchRejection name with
  | some reason =>
    rw [writeBranch, branchPath_rejected valid]
    exact ⟨fun _ _ => rfl, r⟩
  | none =>
    have beside : ∀ t', Beside (heads ++ splitSlash name) t t' → Refines P w t' ∧ Confined t t' := by
      intro t' h
      refine ⟨r.beside h, confined_of_others r.dir name (fun q outside => h q ?_)⟩
      rintro rfl
      exact outside (withTmp_below name)
    rw [writeBranch, branchPath_valid valid]
    refine Program.Safe.bind (Program.Safe.value ?_)
    refine Program.Safe.bind ((createDirAll_beside (Beside.refl _ t)).mono beside ?_)
    rintro (_ | _) u h
    · exact ⟨(beside u h).2, (beside u h).1⟩
    refine (writeAtomic_safe h).mono beside ?_
    rintro (_ | _) t' h
    · exact ⟨(beside t' h).2, (beside t' h).1⟩
    refine ⟨confined_of_others r.dir name (fun q outside => h.others q ?_ ?_), rfl,
      r.replaced valid h⟩
    · rintro rfl
      exact outside (List.prefix_append _ _)
    · rintro rfl
      exact outside (withTmp_below name)

theorem writeHeadSymbolic_safe {w : String → Option Hash} {t : FileTree TextFile}
    (r : Refines P w t) (name : String) :
    (writeHeadSymbolic name : RefsProgram Hash Unit).Safe faults
      (fun t' => Refines P w t' ∧ Framed t t')
      (fun result t' => Framed t t' ∧ Refines P w t' ∧
        (result = .ok () → branchRejection name = none)) t := by
  unfold writeHeadSymbolic validateBranchName
  cases valid : branchRejection name with
  | some reason => exact ⟨fun _ _ _ _ => rfl, r, nofun⟩
  | none =>
    have above : ∀ q (t' : FileTree TextFile), (q <+: headPath.dropLast ∧ t.node? q = none ∧ t'.node? q = some .dir) →
        False := by
      rintro q t' ⟨root, free, _⟩
      obtain rfl := List.prefix_nil.mp root
      have there := FileTree.isDir_iff.mp t.isDir_root
      rw [free] at there
      cases there
    have beside : ∀ t', Beside headPath t t' → Refines P w t' ∧ Framed t t' := by
      intro t' h
      refine ⟨r.beside h, fun q _ _ other => ?_⟩
      exact (h q other).resolve_right (above q t')
    refine (writeAtomic_safe (Beside.refl _ t)).mono beside ?_
    rintro (_ | _) t' h
    · exact ⟨(beside t' h).2, (beside t' h).1, nofun⟩
    have others : ∀ q, q ≠ headPath → q ≠ withTmp headPath → t'.node? q = t.node? q :=
      fun q elsewhere other => (h.others q elsewhere other).resolve_right (above q t')
    have inside : ∀ q, heads <+: q → t'.node? q = t.node? q := by
      intro q below
      refine others q ?_ ?_ <;> rintro rfl <;> exact absurd below (by decide)
    refine ⟨fun q _ elsewhere other => others q elsewhere other, r.keep ?_ ?_, fun _ => rfl⟩
    · rw [FileTree.isDir_iff, inside heads (List.prefix_refl _)]
      exact FileTree.isDir_iff.mp r.dir
    · intro q below
      exact Or.inl (by rw [FileTree.file?, FileTree.file?, inside q below])

theorem Fresh.refines {t : FileTree TextFile} (fresh : Fresh t) : Refines P (fun _ => none) t where
  dir := fresh.dir
  stored _ _ h := by cases h
  only path below held := by
    rw [fresh.bare path below] at held
    cases held

theorem called_refines {w : String → Option Hash} {t t' : FileTree TextFile} (r : Refines P w t)
    {c : Call Hash} {p : RefsProgram Hash Unit}
    (reaches : Program.Reaches (c.program P, t) (p, t')) :
    Refines P (record w (c, p.result?)) t' ∧ Framed t t' ∧
      (p.result? = some (.ok ()) → branchRejection c.name = none) := by
  cases c with
  | writeBranch branch hash =>
    have stopped := (writeBranch_safe r branch hash).stopped reaches
    cases outcome : p.result? with
    | none =>
      rw [outcome] at stopped
      exact ⟨stopped.1, stopped.2.framed, nofun⟩
    | some result =>
      rw [outcome] at stopped
      cases result with
      | error e => exact ⟨stopped.2, stopped.1.framed, nofun⟩
      | ok u => exact ⟨stopped.2.2, stopped.1.framed, fun _ => stopped.2.1⟩
  | writeHeadSymbolic branch =>
    have stopped := (writeHeadSymbolic_safe r branch).stopped reaches
    cases outcome : p.result? with
    | none =>
      rw [outcome] at stopped
      exact ⟨stopped.1, stopped.2, nofun⟩
    | some result =>
      rw [outcome] at stopped
      refine ⟨stopped.2.1, stopped.1, fun ok => stopped.2.2 ?_⟩
      simpa using ok

theorem Ran.refines {t₀ t : FileTree TextFile} {calls : List (Call Hash × Outcome Hash)}
    (fresh : Fresh t₀) (ran : Ran P t₀ calls t) : Refines P (written calls) t := by
  induction ran with
  | opened => exact fresh.refines
  | called c _ reaches ih =>
    rw [written, List.foldl_concat]
    exact (called_refines ih reaches).1

theorem run_readBranch_of_file {t : FileTree TextFile} {name : String} {hash : Hash}
    (valid : branchRejection name = none)
    (held : t.file? (heads ++ splitSlash name) = some (some (P.toHex hash ++ "\n"))) :
    (readBranch P name).run t = (.ok (some hash), t) := by
  have there : (t.node? (heads ++ splitSlash name)).isSome = true := by
    rw [FileTree.file?_eq_some_iff.mp held]
    rfl
  have text : (readToString t (heads ++ splitSlash name) : Except (Error Hash) String) =
      .ok (P.toHex hash ++ "\n") := by
    rw [readToString, held]
  rw [Refs.readBranch, branchPath_valid valid]
  show (Program.bind (pathExists _) _).run t = _
  rw [Program.run_bind, pathExists]
  simp only [Program.run, there, if_true]
  show (Program.bind (Program.read _ _) _).run t = _
  rw [Program.run_bind, Program.run_read, text]
  show (Program.bind (Program.ofExcept (parseHash P _)) _).run t = _
  rw [parseHash_line]
  rfl

theorem run_readBranch_of_absent {t : FileTree TextFile} {name : String}
    (valid : branchRejection name = none) (absent : t.node? (heads ++ splitSlash name) = none) :
    (readBranch P name).run t = (.ok none, t) := by
  rw [Refs.readBranch, branchPath_valid valid]
  show (Program.bind (pathExists _) _).run t = _
  rw [Program.run_bind, pathExists]
  simp only [Program.run, absent]
  rfl

theorem Refines.readBranch {w : String → Option Hash} {t : FileTree TextFile} (r : Refines P w t)
    {name : String} {hash : Hash} (live : w name = some hash) :
    (readBranch P name).run t = (.ok (some hash), t) := by
  obtain ⟨valid, held⟩ := r.stored name hash live
  exact run_readBranch_of_file valid held

theorem pathExists_still (path : TreePath) : (pathExists path : RefsProgram Hash Bool).Still :=
  ⟨rfl, fun _ => trivial, trivial⟩

theorem readHead_still : (readHead P).Still := by
  refine Program.Still.bind (pathExists_still headPath) (fun found => ?_)
  split
  · refine Program.Still.bind (Program.Still.read _ _) (fun raw => ?_)
    dsimp only
    split
    · trivial
    · refine Program.Still.bind ?_ (fun _ => trivial)
      trivial
  · trivial

theorem readBranch_still (name : String) : (readBranch P name).Still := by
  refine Program.Still.bind trivial (fun path => ?_)
  refine Program.Still.bind (pathExists_still path) (fun found => ?_)
  split
  · refine Program.Still.bind (Program.Still.read _ _) (fun raw => ?_)
    exact Program.Still.bind trivial (fun _ => trivial)
  · trivial

theorem resolve_still (name : String) : (resolve P name).Still := by
  unfold resolve
  split
  · refine Program.Still.bind readHead_still (fun head => ?_)
    split
    · trivial
    · trivial
    · exact readBranch_still _
  split
  · exact Program.Still.bind trivial (fun _ => trivial)
  · exact readBranch_still name

theorem Refines.file_of_valid {w : String → Option Hash} {t : FileTree TextFile} (r : Refines P w t)
    {name : String} (valid : branchRejection name = none) {text : TextFile}
    (held : t.file? (heads ++ splitSlash name) = some text) :
    ∃ hash, w name = some hash ∧ text = some (P.toHex hash ++ "\n") := by
  have there : (t.file? (heads ++ splitSlash name)).isSome = true := by rw [held]; rfl
  rcases r.only _ (List.prefix_append heads _) there with ⟨name', live, path⟩ | ⟨dir, last, path, tmp⟩
  · have same : name = name' := splitSlash_injective (List.append_cancel_left path)
    subst same
    obtain ⟨hash, hw⟩ := Option.isSome_iff_exists.mp live
    have stored := (r.stored name hash hw).2
    rw [held] at stored
    exact ⟨hash, hw, Option.some.inj stored⟩
  · exact absurd path (branch_ne_tmp valid tmp)

theorem readBranches_still (names : List String) : (readBranches P names).Still := by
  induction names with
  | nil => trivial
  | cons name names ih =>
    refine Program.Still.bind (readBranch_still name) (fun found => Program.Still.bind ih (fun others => ?_))
    cases found with
    | none => trivial
    | some hash => trivial

theorem snapshot_still : (snapshot P).Still := by
  have listed : (listBranches : RefsProgram Hash _).Still := by
    refine Program.Still.bind (pathExists_still heads) (fun found => ?_)
    split
    · exact Program.Still.read _ _
    · trivial
  refine Program.Still.bind readHead_still (fun head => Program.Still.bind listed (fun names => ?_))
  exact Program.Still.bind (readBranches_still names) (fun _ => trivial)

theorem pathExists_sure {α : Type} {path : TreePath} {k : Bool → RefsProgram Hash (Option α)}
    {t : FileTree TextFile} (nothing : k false = .done (.ok none)) (next : (k true).Sure t) :
    ((pathExists path).bind k).Sure t := by
  have absent : (k false).Sure t := nothing ▸ Program.Sure.value _ t
  refine ⟨trivial, ?_, fun _ => ?_⟩
  · show (k (t.node? path).isSome).Sure t
    cases (t.node? path).isSome with
    | false => exact absent
    | true => exact next
  · show (k false).Safe _ _ _ t
    rw [nothing]
    exact nofun

theorem readBranch_sure (name : String) (t : FileTree TextFile) : (readBranch P name).Sure t := by
  refine Program.Sure.ofExcept (fun path _ => pathExists_sure rfl ?_)
  refine Program.Sure.read (fun raw _ => ?_)
  exact Program.Sure.ofExcept (fun hash _ => Program.Sure.value _ t)

theorem readHead_sure {α : Type} {k : Option (HeadRef Hash) → RefsProgram Hash (Option α)}
    {t : FileTree TextFile} (nothing : k none = .done (.ok none)) (next : ∀ head, (k (some head)).Sure t) :
    ((readHead P).bind k).Sure t := by
  show Program.Sure (((pathExists headPath).bind _).bind k) t
  rw [Program.bind_assoc]
  refine pathExists_sure nothing ?_
  show Program.Sure (((Program.read _ _).bind _).bind k) t
  rw [Program.bind_assoc]
  refine Program.Sure.read (fun raw _ => ?_)
  dsimp only
  split
  · exact next _
  · show Program.Sure (((Program.ofExcept _).bind _).bind k) t
    rw [Program.bind_assoc]
    exact Program.Sure.ofExcept (fun hash _ => next _)

theorem resolve_sure (name : String) (t : FileTree TextFile) : (resolve P name).Sure t := by
  unfold resolve
  split
  · refine readHead_sure rfl (fun head => ?_)
    cases head with
    | branch b => exact readBranch_sure b t
    | detached hash => exact Program.Sure.value _ t
  split
  · exact Program.Sure.ofExcept (fun hash _ => Program.Sure.value _ t)
  · exact readBranch_sure name t

theorem pathExists_safe {inv : FileTree TextFile → Prop}
    {post : Except (Error Hash) Bool → FileTree TextFile → Prop} {path : TreePath} {t : FileTree TextFile}
    (stop : inv t) (looked : post (.ok (t.node? path).isSome) t) (failed : faults → post (.ok false) t) :
    (pathExists path).Safe faults inv post t := ⟨stop, looked, failed⟩

/-- What a read of a branch returns is what the map has; only a failed look at the file
can hide a branch. -/
theorem readBranch_safe {w : String → Option Hash} {t : FileTree TextFile} (r : Refines P w t)
    (name : String) : (readBranch P name).Safe faults (· = t)
      (fun result t' => t' = t ∧ ∀ found, result = .ok found →
        (∀ hash, found = some hash → w name = some hash) ∧ (¬ faults → found = w name)) t := by
  cases valid : branchRejection name with
  | some reason =>
    rw [readBranch, branchPath_rejected valid]
    exact ⟨rfl, nofun⟩
  | none =>
    rw [readBranch, branchPath_valid valid]
    refine Program.Safe.bind (Program.Safe.value ?_)
    refine Program.Safe.bind (pathExists_safe rfl ?_ (fun bad => ⟨rfl, ?_⟩))
    · cases node : t.node? (heads ++ splitSlash name) with
      | none =>
        have absent : w name = none := by
          by_contra live
          obtain ⟨hash, hw⟩ := Option.ne_none_iff_exists'.mp live
          have held := FileTree.file?_eq_some_iff.mp (r.stored name hash hw).2
          rw [node] at held
          cases held
        dsimp only
        rw [if_neg (by simp)]
        refine ⟨rfl, ?_⟩
        rintro found ⟨⟩
        exact ⟨nofun, fun _ => absent.symm⟩
      | some n =>
        dsimp only
        rw [if_pos (by simp)]
        refine Program.Safe.bind (Program.Safe.call rfl ?_ (fun _ => ⟨rfl, nofun⟩))
        cases n with
        | dir =>
          have notFile : t.file? (heads ++ splitSlash name) = none := by rw [FileTree.file?, node]
          have unread : (readToString t (heads ++ splitSlash name) : Except (Error Hash) String) =
              .error .io := by rw [readToString, notFile]
          simp only [unread]
          exact ⟨trivial, nofun⟩
        | file text =>
          obtain ⟨hash, hw, rfl⟩ := r.file_of_valid valid (FileTree.file?_eq_some_iff.mpr node)
          have text : (readToString t (heads ++ splitSlash name) : Except (Error Hash) String) =
              .ok (P.toHex hash ++ "\n") := by
            rw [readToString, FileTree.file?_eq_some_iff.mpr node]
          simp only [text]
          refine Program.Safe.bind (Program.Safe.value ?_)
          rw [parseHash_line]
          refine ⟨rfl, ?_⟩
          rintro found ⟨⟩
          refine ⟨?_, fun _ => hw.symm⟩
          rintro h ⟨⟩
          exact hw
    · rintro found ⟨⟩
      exact ⟨nofun, fun good => absurd bad good⟩

theorem branchName_branch {name : String} (valid : branchRejection name = none) :
    branchName (heads ++ splitSlash name) = name := by
  have kept : name.toList.map (fun c => if c = '\\' then '/' else c) = name.toList := by
    refine (List.map_congr_left (fun c hc => ?_)).trans (List.map_id _)
    rw [if_neg]
    · rfl
    · rintro rfl
      exact no_backslash_of_valid valid hc
  rw [branchName, List.drop_left, joinSlash_splitSlash, kept, String.ofList_toList]

theorem Refines.mem_collect {w : String → Option Hash} {t : FileTree TextFile} (r : Refines P w t)
    {path : TreePath} : path ∈ collectBranchFiles t ↔
      ∃ name, (w name).isSome = true ∧ path = heads ++ splitSlash name := by
  rw [collectBranchFiles, FileTree.mem_walk]
  constructor
  · rintro ⟨held, names, last, rfl, _, kept⟩
    rcases r.only _ (List.prefix_append _ _) held with branch | ⟨dir, last', tail, tmp⟩
    · exact branch
    · rw [← List.append_assoc] at tail
      obtain rfl := List.singleton_inj.mp (List.append_inj' tail rfl).2
      rw [tmp] at kept
      cases kept
  · rintro ⟨name, live, rfl⟩
    obtain ⟨hash, hw⟩ := Option.isSome_iff_exists.mp live
    obtain ⟨valid, held⟩ := r.stored name hash hw
    have parts := List.dropLast_append_getLast (splitSlash_ne_nil name)
    have deep := FileTree.length_le_depth (Option.isSome_of_eq_some (FileTree.file?_eq_some_iff.mp held))
    refine ⟨Option.isSome_of_eq_some held, _, _, by rw [parts], ?_, ?_⟩
    · rw [← parts] at deep
      simp only [List.length_append, List.length_cons, List.length_nil] at deep
      omega
    · rw [not_tmp_of_valid valid (List.getLast_mem _)]
      rfl

theorem Refines.listBranches {w : String → Option Hash} {t : FileTree TextFile}
    (r : Refines P w t) : ∃ names,
      (listBranches : RefsProgram Hash (List String)).run t = (.ok names, t) ∧ names.Nodup ∧
        ∀ name, name ∈ names ↔ (w name).isSome = true := by
  refine ⟨(collectBranchFiles t).map branchName, ?_, ?_, ?_⟩
  · have there : (t.node? heads).isSome = true := by
      rw [FileTree.isDir_iff.mp r.dir]
      rfl
    show (Program.bind (pathExists _) _).run t = _
    rw [Program.run_bind, pathExists]
    simp only [Program.run, there, if_true]
    rw [Program.run_read]
    exact congrArg (·, t) (if_pos r.dir)
  · refine List.Nodup.map_on ?_ (FileTree.walk_nodup t _ _ _)
    intro p hp q hq same
    obtain ⟨a, ha, rfl⟩ := r.mem_collect.mp hp
    obtain ⟨b, hb, rfl⟩ := r.mem_collect.mp hq
    obtain ⟨x, hx⟩ := Option.isSome_iff_exists.mp ha
    obtain ⟨y, hy⟩ := Option.isSome_iff_exists.mp hb
    rw [branchName_branch (r.stored a x hx).1, branchName_branch (r.stored b y hy).1] at same
    rw [same]
  · intro name
    rw [List.mem_map]
    constructor
    · rintro ⟨path, listed, rfl⟩
      obtain ⟨a, ha, rfl⟩ := r.mem_collect.mp listed
      obtain ⟨x, hx⟩ := Option.isSome_iff_exists.mp ha
      rwa [branchName_branch (r.stored a x hx).1]
    · intro live
      obtain ⟨x, hx⟩ := Option.isSome_iff_exists.mp live
      exact ⟨_, r.mem_collect.mpr ⟨name, live, rfl⟩, branchName_branch (r.stored name x hx).1⟩

/-- What a reader of the refs sees is the map. -/
structure Serves (P : Platform Hash) (w : String → Option Hash) (t : FileTree TextFile) : Prop where
  listed : ∃ names, (listBranches : RefsProgram Hash (List String)).run t = (.ok names, t) ∧
    names.Nodup ∧ ∀ name, name ∈ names ↔ (w name).isSome = true
  read : ∀ name hash, w name = some hash → (readBranch P name).run t = (.ok (some hash), t)

theorem Refines.serves {w : String → Option Hash} {t : FileTree TextFile} (r : Refines P w t) :
    Serves P w t := ⟨r.listBranches, fun _ _ live => r.readBranch live⟩

/-- The name is not allowed, or a branch is in its way. -/
def Refused (w : String → Option Hash) : Call Hash → Prop
  | .writeBranch branch _ =>
    branchRejection branch ≠ none ∨ ∃ other, (w other).isSome = true ∧ Conflict other branch
  | .writeHeadSymbolic branch => branchRejection branch ≠ none

theorem Refines.not_ok {w : String → Option Hash} {t t' : FileTree TextFile} (r : Refines P w t)
    {c : Call Hash} (refused : Refused w c) {p : RefsProgram Hash Unit}
    (reaches : Program.Reaches (c.program P, t) (p, t')) : p.result? ≠ some (.ok ()) := by
  intro ok
  obtain ⟨after, _, valid⟩ := called_refines r reaches
  cases c with
  | writeHeadSymbolic branch => exact refused (valid ok)
  | writeBranch branch hash =>
    rcases refused with rejected | ⟨other, live, conflict⟩
    · exact rejected (valid ok)
    · rw [ok] at after
      have self : (record w (.writeBranch branch hash, some (.ok ())) branch).isSome = true := by
        simp [record]
      have kept : (record w (.writeBranch branch hash, some (.ok ())) other).isSome = true := by
        by_cases same : other = branch
        · rw [same]
          exact self
        · rw [record, Function.update_of_ne same]
          exact live
      exact after.no_conflict kept self conflict

theorem record_of_not_ok {w : String → Option Hash} {c : Call Hash} {outcome : Outcome Hash}
    (failed : outcome ≠ some (.ok ())) : record w (c, outcome) = w := by
  cases c with
  | writeHeadSymbolic branch => rfl
  | writeBranch branch hash =>
    rcases outcome with _ | (_ | _)
    · rfl
    · rfl
    · exact absurd rfl failed

/-- After every run of calls the refs serve the map of the names written successfully. A
refused call returns an error and leaves the map as it is, wherever it is stopped; no call
changes anything outside `refs/heads` but `HEAD`; no temporary file is a branch. -/
theorem branches_refine_map {t₀ t : FileTree TextFile} {calls : List (Call Hash × Outcome Hash)}
    (fresh : Fresh t₀) (ran : Ran P t₀ calls t) :
    Serves P (written calls) t ∧
      (∀ c, Refused (written calls) c → (∃ e, ((c.program P).run t).1 = .error e) ∧
        ∀ p t', Program.Reaches (c.program P, t) (p, t') →
          p.result? ≠ some (.ok ()) ∧ Serves P (written calls) t') ∧
      (∀ (c : Call Hash) p t', Program.Reaches (c.program P, t) (p, t') → Framed t t') ∧
      ∀ a b, branchRejection a = none → branchRejection b = none →
        withTmp (heads ++ splitSlash a) ≠ heads ++ splitSlash b := by
  have refines := ran.refines fresh
  refine ⟨refines.serves, fun c refused => ⟨?_, fun p t' reaches => ?_⟩, ?_, ?_⟩
  · have failed := refines.not_ok refused (Program.reaches_run _ t)
    cases result : ((c.program P).run t).1 with
    | error e => exact ⟨e, rfl⟩
    | ok u =>
      rw [result] at failed
      exact absurd rfl failed
  · have failed := refines.not_ok refused reaches
    have after := (called_refines refines reaches).1
    rw [record_of_not_ok failed] at after
    exact ⟨failed, after.serves⟩
  · exact fun c p t' reaches => (called_refines refines reaches).2.1
  · intro a b _ valid same
    obtain ⟨dir, last, tail, tmp⟩ := withTmp_tmp (heads ++ splitSlash a)
    exact branch_ne_tmp valid tmp (same.symm.trans tail)

/-- An `.agentic` directory as opening it leaves it. -/
def opened : FileTree TextFile := ((openRefs : RefsProgram Bytes Unit).run FileTree.empty).2

theorem opened_fresh : Fresh opened where
  dir := by decide
  bare path _ := by
    obtain ⟨t', run, grown, _⟩ := FileTree.run_createDirAll (Error.io : Error Bytes)
      (FileTree.isDir_root FileTree.empty)
      (fun above (_ : above <+: heads) => FileTree.file?_empty _)
    have same : opened = t' := congrArg Prod.snd run
    rw [same, grown.file? path, FileTree.file?_empty]

def writeMain : Call Bytes := .writeBranch "main" [1]

def writeFeature : Call Bytes := .writeBranch "feature/a" [2]

/-- Two branches are written. -/
def twoBranches : FileTree TextFile :=
  ((writeFeature.program Platform.sample).run ((writeMain.program Platform.sample).run opened).2).2

theorem branches_refine_map_main :
    Serves Platform.sample (Function.update (Function.update (fun _ => none) "main" (some [1])) "feature/a" (some [2]))
      twoBranches ∧
    ∃ e, (((Call.writeBranch "main/b" [3]).program Platform.sample).run twoBranches).1 = .error e := by
  have first : ((writeMain.program Platform.sample).run opened).1 = .ok () := by decide
  have second : ((writeFeature.program Platform.sample).run ((writeMain.program Platform.sample).run opened).2).1 =
      .ok () := by decide +kernel
  have ran : Ran Platform.sample opened [(writeMain, some (.ok ())), (writeFeature, some (.ok ()))] twoBranches := by
    have called := Ran.called (P := Platform.sample) writeFeature (Ran.called writeMain Ran.opened (Program.reaches_run _ opened))
      (Program.reaches_run _ _)
    rw [Program.result?, Program.result?, first, second] at called
    exact called
  obtain ⟨serves, refuses, _⟩ := branches_refine_map opened_fresh ran
  refine ⟨serves, (refuses (.writeBranch "main/b" [3]) (.inr ⟨"main", rfl, ?_⟩)).1⟩
  exact ⟨by decide, .inl (by decide)⟩

end Refs

end GitAgentic
