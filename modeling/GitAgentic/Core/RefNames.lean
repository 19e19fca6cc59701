import GitAgentic.Core.BranchMap

/-! What a name means. `HEAD` is read back without the white space at its end, a name of 64 hex
digits is a hash, and a snapshot looks a name up without asking whether it is one. -/
namespace GitAgentic

def trimEnd (cs : List Char) : List Char := (cs.reverse.dropWhile isWhitespace).reverse

theorem trimEnd_concat_space {c : Char} (cs : List Char) (space : isWhitespace c = true) :
    trimEnd (cs ++ [c]) = trimEnd cs := by
  rw [trimEnd, List.reverse_append, List.reverse_singleton, List.singleton_append,
    List.dropWhile_cons_of_pos space, trimEnd]

theorem trimEnd_concat {c : Char} (cs : List Char) (solid : isWhitespace c = false) :
    trimEnd (cs ++ [c]) = cs ++ [c] := by
  have kept : (cs ++ [c]).reverse.dropWhile isWhitespace = (cs ++ [c]).reverse := by
    rw [List.reverse_append, List.reverse_singleton, List.singleton_append,
      List.dropWhile_cons_of_neg (by simp [solid])]
  rw [trimEnd, kept, List.reverse_reverse]

theorem trimEnd_append {c : Char} (cs ds : List Char) (solid : isWhitespace c = false) :
    trimEnd (cs ++ [c] ++ ds) = cs ++ [c] ++ trimEnd ds := by
  induction ds using List.reverseRecOn with
  | nil =>
    rw [List.append_nil, trimEnd_concat cs solid]
    exact (List.append_nil _).symm
  | append_singleton ds d ih =>
    rw [← List.append_assoc]
    cases blank : isWhitespace d with
    | true => rw [trimEnd_concat_space _ blank, trimEnd_concat_space _ blank, ih]
    | false => rw [trimEnd_concat _ blank, trimEnd_concat _ blank, List.append_assoc]

/-- The last character is white space. -/
def endsInSpace (name : String) : Bool := name.toList.getLast?.any isWhitespace

theorem trimEnd_eq_self_iff (name : String) : trimEnd name.toList = name.toList ↔ endsInSpace name = false := by
  unfold endsInSpace
  induction name.toList using List.reverseRecOn with
  | nil => exact ⟨fun _ => rfl, fun _ => rfl⟩
  | append_singleton cs c _ =>
    rw [List.getLast?_concat, Option.any_some]
    cases blank : isWhitespace c with
    | false => exact ⟨fun _ => rfl, fun _ => trimEnd_concat cs blank⟩
    | true =>
      rw [trimEnd_concat_space cs blank]
      refine ⟨fun same => ?_, nofun⟩
      have shorter : (trimEnd cs).length ≤ cs.length := by
        have dropped := (List.dropWhile_suffix (l := cs.reverse) isWhitespace).length_le
        rwa [trimEnd, List.length_reverse, ← cs.length_reverse]
      have length := congrArg List.length same
      rw [List.length_append, List.length_singleton] at length
      omega

namespace Refs

variable {Hash : Type} {P : Platform Hash} {t t' : FileTree TextFile}

/- Reads, by what the file holds. -/

theorem run_readHead_symbolic {name : String}
    (held : t.file? headPath = some (some (refPrefix ++ name ++ "\n"))) :
    (readHead P).run t = (.ok (some (.branch (String.ofList (trimEnd name.toList)))), t) := by
  have there : (t.node? headPath).isSome = true := by
    rw [FileTree.file?_eq_some_iff.mp held]
    rfl
  have text : (readToString t headPath : Except (Error Hash) String) = .ok (refPrefix ++ name ++ "\n") := by
    rw [readToString, held]
  have trimmed : trim (refPrefix ++ name ++ "\n").toList = refPrefix.toList ++ trimEnd name.toList := by
    have chars : (refPrefix ++ name ++ "\n").toList =
        "ref: refs/heads".toList ++ ['/'] ++ (name.toList ++ ['\n']) := by
      rw [String.toList_append, String.toList_append, List.append_assoc]
      rfl
    have first : (refPrefix ++ name ++ "\n").toList.dropWhile isWhitespace = (refPrefix ++ name ++ "\n").toList := by
      rw [chars]
      exact List.dropWhile_cons_of_neg (by decide)
    show trimEnd ((refPrefix ++ name ++ "\n").toList.dropWhile isWhitespace) = _
    rw [first, chars, trimEnd_append _ _ (by decide), trimEnd_concat_space _ (by decide)]
    rfl
  show (Program.bind (pathExists _) _).run t = _
  rw [Program.run_bind, pathExists]
  simp only [Program.run, there, if_true]
  show (Program.bind (Program.read _ _) _).run t = _
  rw [Program.run_bind, Program.run_read, text]
  have isRef : refPrefix.toList.isPrefixOf (refPrefix.toList ++ trimEnd name.toList) = true :=
    List.isPrefixOf_iff_prefix.mpr (List.prefix_append _ _)
  have rest : (refPrefix.toList ++ trimEnd name.toList).drop refPrefix.length = trimEnd name.toList :=
    List.drop_left
  simp only [trimmed, isRef, if_true, rest]
  rfl

theorem run_resolve_branch {name : String} (other : name ≠ "HEAD") (plain : isHexHash name = false) :
    (resolve P name).run t = (readBranch P name).run t := by
  rw [resolve, if_neg other, plain]
  rfl

theorem run_resolve_hash {name : String} (other : name ≠ "HEAD") (hex : isHexHash name = true) :
    (resolve P name).run t = ((parseHash P name.toList).map some, t) := by
  rw [resolve, if_neg other, if_pos hex]
  cases parseHash P name.toList <;> rfl

theorem run_resolve_head {name : String}
    (head : (readHead P).run t = (.ok (some (.branch name)), t)) :
    (resolve P "HEAD").run t = (readBranch P name).run t := by
  rw [resolve, if_pos rfl]
  show (Program.bind (readHead P) _).run t = _
  rw [Program.run_bind, head]

/- Writes that have succeeded. -/

theorem writeBranch_replaced {name : String} {hash : Hash}
    (ended : Program.Reaches (writeBranch P name hash, t) (.done (.ok ()), t')) :
    branchRejection name = none ∧ Replaced (heads ++ splitSlash name) (some (P.toHex hash ++ "\n")) t t' := by
  cases valid : branchRejection name with
  | some reason =>
    rw [writeBranch, branchPath_rejected valid] at ended
    have safe : Program.Safe True (fun _ => True) (fun r (_ : FileTree TextFile) => r ≠ .ok ())
      (.done (.error (.invalidBranchName name reason)) : RefsProgram Hash Unit) t := by
      rintro ⟨⟩
    exact absurd rfl (safe.stopped ended)
  | none =>
    refine ⟨rfl, ?_⟩
    rw [writeBranch, branchPath_valid valid] at ended
    have safe : ((FileTree.createDirAll .io [] (heads ++ splitSlash name).dropLast : RefsProgram Hash Unit).bind
        (fun _ => writeAtomic (heads ++ splitSlash name) (P.toHex hash ++ "\n"))).Safe True (fun _ => True)
          (fun r u => r = .ok () → Replaced (heads ++ splitSlash name) (some (P.toHex hash ++ "\n")) t u) t := by
      refine Program.Safe.bind ((createDirAll_beside (Beside.refl _ t)).mono (fun _ _ => trivial) ?_)
      rintro (_ | _) u beside
      · rintro ⟨⟩
      refine (writeAtomic_safe beside).mono (fun _ _ => trivial) ?_
      rintro (_ | _) v written
      · rintro ⟨⟩
      · exact fun _ => written
    exact (safe.stopped ended) rfl

theorem writeHeadSymbolic_replaced {name : String}
    (ended : Program.Reaches ((writeHeadSymbolic name : RefsProgram Hash Unit), t) (.done (.ok ()), t')) :
    Replaced headPath (some (refPrefix ++ name ++ "\n")) t t' := by
  unfold writeHeadSymbolic validateBranchName at ended
  cases valid : branchRejection name with
  | some reason =>
    rw [valid] at ended
    have safe : Program.Safe True (fun _ => True) (fun r (_ : FileTree TextFile) => r ≠ .ok ())
      (.done (.error (.invalidBranchName name reason)) : RefsProgram Hash Unit) t := nofun
    exact absurd rfl (safe.stopped ended)
  | none =>
    rw [valid] at ended
    have safe : (writeAtomic headPath (refPrefix ++ name ++ "\n") : RefsProgram Hash Unit).Safe True (fun _ => True)
        (fun r u => r = .ok () → Replaced headPath (some (refPrefix ++ name ++ "\n")) t u) t := by
      refine (writeAtomic_safe (Beside.refl _ t)).mono (fun _ _ => trivial) ?_
      rintro (_ | _) v written
      · exact nofun
      · exact fun _ => written
    exact (safe.stopped ended) rfl

theorem held_after {name : String} {hash : Hash} {t'' : FileTree TextFile}
    (branch : Program.Reaches (writeBranch P name hash, t) (.done (.ok ()), t'))
    (head : Program.Reaches ((writeHeadSymbolic name : RefsProgram Hash Unit), t') (.done (.ok ()), t'')) :
    branchRejection name = none ∧
      t''.file? (heads ++ splitSlash name) = some (some (P.toHex hash ++ "\n")) ∧
      t''.file? headPath = some (some (refPrefix ++ name ++ "\n")) := by
  obtain ⟨valid, written⟩ := writeBranch_replaced branch
  have headed := writeHeadSymbolic_replaced head
  refine ⟨valid, ?_, FileTree.file?_eq_some_iff.mpr headed.file⟩
  have apart : heads ++ splitSlash name ≠ headPath := by
    intro same
    exact absurd (congrArg List.head? same) (by simp [heads, headPath])
  have apartTmp : heads ++ splitSlash name ≠ withTmp headPath := by
    obtain ⟨dir, last, tail, tmp⟩ := withTmp_tmp headPath
    rw [tail]
    exact branch_ne_tmp valid tmp
  rw [file?_of_same_or_made (headed.others _ apart apartTmp)]
  exact FileTree.file?_eq_some_iff.mpr written.file

theorem branch_trimmed_iff (name : String) :
    String.ofList (trimEnd name.toList) = name ↔ endsInSpace name = false := by
  rw [← trimEnd_eq_self_iff]
  constructor
  · intro same
    have chars := congrArg String.toList same
    rwa [String.toList_ofList] at chars
  · intro same
    rw [same, String.ofList_toList]

/-- A branch that was written, and then made `HEAD`, comes back by its name and through `HEAD`
exactly when its name does not end in white space, and is no hash but the branch's own. -/
theorem round_trip_iff {name : String} {hash : Hash} {t'' : FileTree TextFile}
    (branch : Program.Reaches (writeBranch P name hash, t) (.done (.ok ()), t'))
    (head : Program.Reaches ((writeHeadSymbolic name : RefsProgram Hash Unit), t') (.done (.ok ()), t'')) :
    ((readHead P).run t'' = (.ok (some (.branch name)), t'') ∧
      (resolve P name).run t'' = (.ok (some hash), t'') ∧
      (resolve P "HEAD").run t'' = (.ok (some hash), t'')) ↔
    endsInSpace name = false ∧ (isHexHash name = true → parseHash P name.toList = .ok hash) := by
  obtain ⟨valid, branchFile, headFile⟩ := held_after branch head
  have headRead := run_readHead_symbolic (P := P) headFile
  have branchRead := run_readBranch_of_file valid branchFile
  have other : name ≠ "HEAD" := by
    rintro rfl
    cases valid
  constructor
  · rintro ⟨back, own, _⟩
    constructor
    · rw [headRead] at back
      refine (branch_trimmed_iff name).mp ?_
      simpa using back
    · intro hex
      rw [run_resolve_hash other hex] at own
      cases parsed : parseHash P name.toList with
      | error e =>
        rw [parsed] at own
        cases own
      | ok found =>
        rw [parsed] at own
        cases own
        rfl
  · rintro ⟨solid, own⟩
    rw [(branch_trimmed_iff name).mpr solid] at headRead
    refine ⟨headRead, ?_, (run_resolve_head headRead).trans branchRead⟩
    cases hex : isHexHash name with
    | false => exact (run_resolve_branch other hex).trans branchRead
    | true =>
      rw [run_resolve_hash other hex, own hex]
      rfl

/-- Opening, writing a branch and then `HEAD`. -/
def branchWritten (name : String) (hash : Bytes) : FileTree TextFile :=
  ((writeBranch Platform.sample name hash).run opened).2

def headWritten (name : String) (hash : Bytes) : FileTree TextFile :=
  ((writeHeadSymbolic name : RefsProgram Bytes Unit).run (branchWritten name hash)).2

theorem round_trip_iff_main :
    (readHead Platform.sample).run (headWritten "main" [1]) = (.ok (some (.branch "main")), headWritten "main" [1]) ∧
    (resolve Platform.sample "main").run (headWritten "main" [1]) = (.ok (some [1]), headWritten "main" [1]) ∧
    (resolve Platform.sample "HEAD").run (headWritten "main" [1]) = (.ok (some [1]), headWritten "main" [1]) := by
  have branch : ((writeBranch Platform.sample "main" [1]).run opened).1 = .ok () := by decide +kernel
  have head : ((writeHeadSymbolic "main" : RefsProgram Bytes Unit).run (branchWritten "main" [1])).1 = .ok () := by
    decide +kernel
  exact (round_trip_iff (branch ▸ Program.reaches_run _ _) (head ▸ Program.reaches_run _ _)).mpr
    ⟨by decide +kernel, by decide +kernel⟩

/-- The space at the end of a name is lost in `HEAD`. -/
theorem head_loses_space :
    ¬ ∀ (name : String) (hash : Bytes) (t t' t'' : FileTree TextFile),
      Program.Reaches (writeBranch Platform.sample name hash, t) (.done (.ok ()), t') →
      Program.Reaches ((writeHeadSymbolic name : RefsProgram Bytes Unit), t') (.done (.ok ()), t'') →
        (readHead Platform.sample).run t'' = (.ok (some (.branch name)), t'') ∧
        (resolve Platform.sample name).run t'' = (.ok (some hash), t'') ∧
        (resolve Platform.sample "HEAD").run t'' = (.ok (some hash), t'') := by
  intro all
  have written : ((writeBranch Platform.sample "main " [1]).run opened).1 = .ok () := by decide +kernel
  have headed : ((writeHeadSymbolic "main " : RefsProgram Bytes Unit).run (branchWritten "main " [1])).1 = .ok () := by
    decide +kernel
  have branch : Program.Reaches (writeBranch Platform.sample "main " [1], opened)
      (.done (.ok ()), branchWritten "main " [1]) := written ▸ Program.reaches_run _ _
  have head : Program.Reaches ((writeHeadSymbolic "main " : RefsProgram Bytes Unit), branchWritten "main " [1])
      (.done (.ok ()), headWritten "main " [1]) := headed ▸ Program.reaches_run _ _
  have back := (all "main " [1] _ _ _ branch head).1
  rw [run_readHead_symbolic (held_after branch head).2.2] at back
  have lost : String.ofList (trimEnd "main ".toList) ≠ "main " := by decide +kernel
  exact lost (by simpa using back)

/- A snapshot beside the refs it was taken of. -/

theorem run_readBranch {w : String → Option Hash} (r : Refines P w t) (name : String) :
    (readBranch P name).run t = (match branchRejection name with
      | some reason => .error (.invalidBranchName name reason)
      | none => if t.isDir (heads ++ splitSlash name) then .error .io else .ok (w name), t) := by
  cases valid : branchRejection name with
  | some reason =>
    rw [readBranch, branchPath_rejected valid]
    rfl
  | none =>
    cases node : t.node? (heads ++ splitSlash name) with
    | none =>
      have absent : w name = none := by
        by_contra live
        obtain ⟨hash, hw⟩ := Option.ne_none_iff_exists'.mp live
        have held := FileTree.file?_eq_some_iff.mp (r.stored name hash hw).2
        rw [node] at held
        cases held
      have notDir : t.isDir (heads ++ splitSlash name) = false := by rw [FileTree.isDir, node]
      rw [notDir, absent]
      exact run_readBranch_of_absent valid node
    | some n =>
      cases n with
      | dir =>
        have isDir : t.isDir (heads ++ splitSlash name) = true := FileTree.isDir_iff.mpr node
        have unread : (readToString t (heads ++ splitSlash name) : Except (Error Hash) String) = .error .io := by
          rw [readToString, FileTree.file?, node]
        rw [isDir, readBranch, branchPath_valid valid]
        show (Program.bind (pathExists _) _).run t = _
        rw [Program.run_bind, pathExists]
        simp only [Program.run, node, Option.isSome_some, if_true]
        show (Program.bind (Program.read _ _) _).run t = _
        rw [Program.run_bind, Program.run_read, unread]
      | file text =>
        have notDir : t.isDir (heads ++ splitSlash name) = false := by rw [FileTree.isDir, node]
        obtain ⟨hash, hw, rfl⟩ := r.file_of_valid valid (FileTree.file?_eq_some_iff.mpr node)
        rw [notDir, hw]
        exact run_readBranch_of_file valid (FileTree.file?_eq_some_iff.mpr node)

theorem run_readBranches {w : String → Option Hash} (r : Refines P w t) {names : List String}
    (live : ∀ name ∈ names, (w name).isSome = true) :
    ∃ m, (readBranches P names).run t = (.ok m, t) ∧
      ∀ name, m.get? name = if name ∈ names then w name else none := by
  induction names with
  | nil => exact ⟨BTreeMap.empty, rfl, fun _ => rfl⟩
  | cons name names ih =>
    obtain ⟨m, run, gets⟩ := ih (fun other mem => live other (List.mem_cons_of_mem name mem))
    obtain ⟨hash, hw⟩ := Option.isSome_iff_exists.mp (live name List.mem_cons_self)
    refine ⟨m.insert name hash, ?_, fun other => ?_⟩
    · show (Program.bind (readBranch P name) _).run t = _
      rw [Program.run_bind, r.readBranch hw]
      show (Program.bind (readBranches P names) _).run t = _
      rw [Program.run_bind, run]
      rfl
    · rw [BTreeMap.get?_insert, gets]
      by_cases same : name = other
      · subst same
        simp [hw]
      · simp [same, Ne.symm same]

theorem run_snapshot {w : String → Option Hash} (r : Refines P w t) {head : Option (HeadRef Hash)}
    (read : (readHead P).run t = (.ok head, t)) :
    ∃ s, (snapshot P).run t = (.ok s, t) ∧ s.head = head ∧ ∀ name, s.branches.get? name = w name := by
  obtain ⟨names, listed, _, mem⟩ := r.listBranches
  obtain ⟨m, run, gets⟩ := run_readBranches r (fun name => (mem name).mp)
  refine ⟨⟨head, m⟩, ?_, rfl, fun name => ?_⟩
  · show (Program.bind (readHead P) _).run t = _
    rw [Program.run_bind, read]
    show (Program.bind listBranches _).run t = _
    rw [Program.run_bind, listed]
    show (Program.bind (readBranches P names) _).run t = _
    rw [Program.run_bind, run]
    rfl
  · rw [gets]
    split
    · rfl
    · rename_i absent
      cases live : w name with
      | none => rfl
      | some hash => exact absurd ((mem name).mpr (by rw [live]; rfl)) absent

/-- The same hash, nothing on both sides, or an error on both sides. -/
def Agree : Except (Error Hash) (Option Hash) → Except (Error Hash) (Option Hash) → Prop
  | .ok a, .ok b => a = b
  | .error _, .error _ => True
  | _, _ => False

/-- The name that is looked up among the branches, if any. -/
def lookedUp (s : RefsSnapshot Hash) (name : String) : Option String :=
  if name = "HEAD" then
    match s.head with
    | some (.branch b) => some b
    | _ => none
  else if isHexHash name then none
  else some name

theorem agree_refl (r : Except (Error Hash) (Option Hash)) : Agree r r := by
  cases r with
  | error e => trivial
  | ok found => rfl

theorem agree_branch_iff {w : String → Option Hash} (r : Refines P w t) {s : RefsSnapshot Hash}
    (gets : ∀ name, s.branches.get? name = w name) (name : String) :
    Agree (.ok (s.branches.get? name)) ((readBranch P name).run t).1 ↔
      branchRejection name = none ∧ t.isDir (heads ++ splitSlash name) = false := by
  rw [run_readBranch r, gets]
  cases branchRejection name with
  | some reason => exact ⟨False.elim, nofun⟩
  | none =>
    cases t.isDir (heads ++ splitSlash name) with
    | true => exact ⟨False.elim, nofun⟩
    | false => exact ⟨fun _ => ⟨rfl, rfl⟩, fun _ => rfl⟩

/-- A name resolves in a snapshot as in the refs exactly when what is looked up, if anything, is a
valid branch name and no directory of branches. -/
theorem frozen_agrees_iff {t₀ : FileTree TextFile} {calls : List (Call Hash × Outcome Hash)}
    (fresh : Fresh t₀) (ran : Ran P t₀ calls t) {s : RefsSnapshot Hash}
    (taken : (snapshot P).run t = (.ok s, t)) (name : String) :
    Agree (s.resolve P name) ((resolve P name).run t).1 ↔
      ∀ b ∈ lookedUp s name, branchRejection b = none ∧ t.isDir (heads ++ splitSlash b) = false := by
  have r := ran.refines fresh
  obtain ⟨head, read, _⟩ := readHead_still.then_ok taken
  obtain ⟨s', run, sameHead, gets⟩ := run_snapshot r read
  have same : s' = s := by
    rw [taken] at run
    cases run
    rfl
  subst same
  unfold RefsSnapshot.resolve lookedUp
  by_cases isHead : name = "HEAD"
  · subst isHead
    rw [if_pos rfl, if_pos rfl, sameHead]
    cases head with
    | none =>
      have live : (resolve P "HEAD").run t = (.ok none, t) := by
        rw [resolve, if_pos rfl]
        show (Program.bind (readHead P) _).run t = _
        rw [Program.run_bind, read]
        rfl
      rw [live]
      exact ⟨fun _ => nofun, fun _ => rfl⟩
    | some head =>
      cases head with
      | detached h =>
        have live : (resolve P "HEAD").run t = (.ok (some h), t) := by
          rw [resolve, if_pos rfl]
          show (Program.bind (readHead P) _).run t = _
          rw [Program.run_bind, read]
          rfl
        rw [live]
        exact ⟨fun _ => nofun, fun _ => rfl⟩
      | branch b =>
        rw [run_resolve_head read]
        simpa using agree_branch_iff r gets b
  · rw [if_neg isHead, if_neg isHead]
    cases hex : isHexHash name with
    | true =>
      rw [run_resolve_hash isHead hex]
      exact ⟨fun _ => nofun, fun _ => agree_refl _⟩
    | false =>
      rw [run_resolve_branch isHead hex]
      simpa using agree_branch_iff r gets name

theorem frozen_agrees_iff_main :
    ∃ s, (snapshot Platform.sample).run (headWritten "main" [1]) = (.ok s, headWritten "main" [1]) ∧
      Agree (s.resolve Platform.sample "HEAD")
        ((resolve Platform.sample "HEAD").run (headWritten "main" [1])).1 := by
  have written : ((writeBranch Platform.sample "main" [1]).run opened).1 = .ok () := by decide +kernel
  have headed : ((writeHeadSymbolic "main" : RefsProgram Bytes Unit).run (branchWritten "main" [1])).1 = .ok () := by
    decide +kernel
  have ran : Ran Platform.sample opened _ (headWritten "main" [1]) :=
    Ran.called (.writeHeadSymbolic "main")
      (Ran.called (.writeBranch "main" [1]) Ran.opened (Program.reaches_run _ opened)) (Program.reaches_run _ _)
  have held := (held_after (P := Platform.sample) (written ▸ Program.reaches_run _ opened)
    (headed ▸ Program.reaches_run _ (branchWritten "main" [1]))).2.2
  obtain ⟨s, taken, head, _⟩ := run_snapshot (ran.refines opened_fresh) (run_readHead_symbolic held)
  refine ⟨s, taken, (frozen_agrees_iff opened_fresh ran taken "HEAD").mpr ?_⟩
  have name : lookedUp s "HEAD" = some "main" := by
    rw [lookedUp, if_pos rfl, head]
    decide +kernel
  rw [name]
  rintro b ⟨⟩
  exact ⟨by decide +kernel, by decide +kernel⟩

/-- `feature` is a directory: the refs report an error, a snapshot finds nothing. -/
theorem frozen_misses_directory :
    ¬ ∀ (t₀ t : FileTree TextFile) (calls : List (Call Bytes × Outcome Bytes)) (s : RefsSnapshot Bytes)
      (name : String), Fresh t₀ → Ran Platform.sample t₀ calls t →
        (snapshot Platform.sample).run t = (.ok s, t) →
        Agree (s.resolve Platform.sample name) ((resolve Platform.sample name).run t).1 := by
  intro all
  have ran : Ran Platform.sample opened _ (branchWritten "feature/foo" [1]) :=
    Ran.called (.writeBranch "feature/foo" [1]) Ran.opened (Program.reaches_run _ opened)
  have r := ran.refines opened_fresh
  have absent : (readHead Platform.sample).run (branchWritten "feature/foo" [1]) =
      (.ok none, branchWritten "feature/foo" [1]) := by
    have gone : (branchWritten "feature/foo" [1]).node? headPath = none := by decide +kernel
    show (Program.bind (pathExists _) _).run _ = _
    rw [Program.run_bind, pathExists]
    simp only [Program.run, gone]
    rfl
  obtain ⟨s, taken, _, gets⟩ := run_snapshot r absent
  have same := all opened _ _ s "feature" opened_fresh ran taken
  rw [run_resolve_branch (by decide) (by decide)] at same
  have plain := ((agree_branch_iff r gets "feature").mp same).2
  have dir : (branchWritten "feature/foo" [1]).isDir (heads ++ splitSlash "feature") = true := by decide +kernel
  rw [dir] at plain
  cases plain

end Refs

end GitAgentic
