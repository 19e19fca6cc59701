import GitAgentic.Daemon.Room

/-! How large a reply can be: the reply to a failure by the texts of the failure, a log by the
commits that are listed, a diff by the names that have changed. -/
namespace GitAgentic

open Json

theorem Room.mono {id : String} {payload less : Nat} (room : Room id payload) (le : less ≤ payload) :
    Room id less := by
  unfold Room at room ⊢
  omega

/- How large the reply to a failure can be. -/

section

variable {Hash : Type} {P : Platform Hash} {w : Words}

def Classification.size (c : Classification) : Nat :=
  quotedSize c.1.tag + quotedSize c.2.1 + boolSize c.2.2

theorem chain_ne_nil (e : DaemonError Hash) : e.chain P w ≠ [] := by
  cases e with
  | memory cause => cases cause <;> exact List.cons_ne_nil _ _
  | core cause => exact List.cons_ne_nil _ _
  | approval cause => exact List.cons_ne_nil _ _
  | manifest cause => exact List.cons_ne_nil _ _
  | io => exact List.cons_ne_nil _ _
  | text message => exact List.cons_ne_nil _ _
  | context message cause => exact List.cons_ne_nil _ _

theorem quotedSize_message (e : DaemonError Hash) : quotedSize (e.message P w) = e.size P w := by
  obtain ⟨t, ts, chain⟩ := List.exists_cons_of_ne_nil (chain_ne_nil (P := P) (w := w) e)
  rw [DaemonError.message, DaemonError.size, chain, quotedSize_intercalate, List.map_cons,
    List.sum_cons]

theorem Classification.size_le {c : Classification} {tag code : List Char}
    (isTag : c.1.tag = String.ofList tag) (isCode : c.2.1 = String.ofList code)
    (plain : tag.all isPlain = true ∧ code.all isPlain = true)
    (short : tag.length + code.length ≤ 42) : c.size ≤ 51 := by
  unfold Classification.size boolSize
  rw [isTag, isCode, quotedSize_ofList plain.1, quotedSize_ofList plain.2]
  split_ifs <;> omega

theorem classifyCoreError_size (e : Error Hash) : (classifyCoreError e).size ≤ 51 := by
  cases e <;> exact Classification.size_le rfl rfl (by decide +kernel) (by decide +kernel)

theorem classifyMemoryBackendMessage_size (s : String) :
    (classifyMemoryBackendMessage s).size ≤ 51 := by
  unfold classifyMemoryBackendMessage
  dsimp only
  split_ifs <;> exact Classification.size_le rfl rfl (by decide +kernel) (by decide +kernel)

theorem classifyText_size (s : String) : (classifyText s).size ≤ 51 := by
  unfold classifyText
  dsimp only
  split_ifs <;> exact Classification.size_le rfl rfl (by decide +kernel) (by decide +kernel)

theorem classifySqlxLike_size (e : SqlxError) : (classifySqlxLike e).size ≤ 51 := by
  cases e <;> exact Classification.size_le rfl rfl (by decide +kernel) (by decide +kernel)

theorem classifyMemoryError_size (e : MemoryError Hash) : (classifyMemoryError P w e).size ≤ 51 := by
  cases e with
  | backend cause => exact classifyMemoryBackendMessage_size _
  | core cause => exact classifyCoreError_size cause
  | sqlx => exact classifySqlxLike_size w.sqlx
  | schemaMismatch _ _ | missingReverseMigration _ | streamerShutdown | other _ =>
    exact Classification.size_le rfl rfl (by decide +kernel) (by decide +kernel)

theorem approval_size (e : ApprovalError) :
    Classification.size (.validation, approvalCode e, false) ≤ 51 := by
  rcases e with _ | _ | _ | (_ | _ | _) <;>
    exact Classification.size_le rfl rfl (by decide +kernel) (by decide +kernel)

theorem classify_size (e : DaemonError Hash) : (classify P w e).size ≤ 51 := by
  unfold classify
  split
  · exact approval_size _
  · exact classifyMemoryError_size _
  · exact classifyCoreError_size _
  · exact classifyText_size _

theorem mapAnyhow_size_le (e : DaemonError Hash) :
    (mapAnyhowToResponseError P w e).size ≤ e.size P w + 108 := by
  have bound := classify_size (P := P) (w := w) e
  have text := quotedSize_message (P := P) (w := w) e
  unfold Classification.size at bound
  unfold ErrorReply.size mapAnyhowToResponseError
  dsimp only
  omega

end

section

variable (codec)

theorem size_refNotFound (message : String) :
    (Response.notFound "ref_not_found" message).size codec = quotedSize message + 88 := by
  have tag : quotedSize ErrorClass.notFound.tag = 11 := quotedSize_ofList (by decide +kernel)
  have code : quotedSize "ref_not_found" = 15 := quotedSize_ofList (by decide +kernel)
  show quotedSize ErrorClass.notFound.tag + quotedSize "ref_not_found" + quotedSize message + 5 + 57 = _
  omega

theorem size_objectTooLarge (message : String) :
    (Response.validation "object_too_large" message).size codec = quotedSize message + 92 := by
  have tag : quotedSize ErrorClass.validation.tag = 12 := quotedSize_ofList (by decide +kernel)
  have code : quotedSize "object_too_large" = 18 := quotedSize_ofList (by decide +kernel)
  show quotedSize ErrorClass.validation.tag + quotedSize "object_too_large" + quotedSize message + 5 + 57 = _
  omega

theorem size_planned (plan : List String) : RollbackOutput.size
    { plannedSteps := plan, executed := false, newHeadHash := none } = stringsSize plan + 74 := rfl

theorem size_commitQueueFull : commitQueueFull.size codec = 130 := by rfl

theorem size_rateBudgetExhausted : rateBudgetExhausted.size codec = 151 := by rfl

end

/- A log. -/

section

variable {Hash M : Type} [DecidableEq Hash] {P : Platform Hash} {d : Daemon M}

theorem walkLog_spec (P : Platform Hash) (files : Files) (limit : Nat) (start : Option Hash) :
    match walkLog P files limit start with
    | .ok log => FirstParents P files limit start log
    | .error e => Breaks P files limit start e := by
  induction limit generalizing start with
  | zero => exact .limit start
  | succ limit ih =>
    cases start with
    | none => exact .root (limit + 1)
    | some h =>
      rw [walkLog]
      cases found : get P files h with
      | error e => exact .unread found
      | ok object =>
        cases object with
        | blob b => exact .other found (by nofun)
        | tree t => exact .other found (by nofun)
        | commit c =>
          have rest := ih c.parent
          cases walked : walkLog P files limit c.parent with
          | error e =>
            rw [walked] at rest
            simp only [bind, Except.bind, walked]
            exact .later found rest
          | ok log =>
            rw [walked] at rest
            simp only [bind, Except.bind, walked]
            exact .next found rest

theorem readLog_moves (limit : Nat) (head : Hash) :
    (readLog P limit head : DaemonProgram Hash M _).Moves True Eq
      (fun e => ∃ cause, (Breaks P d.repo.objects limit (some head) cause ∨ 0 < limit ∧ cause = .io) ∧
        e = .core cause)
      (fun log _ => FirstParents P d.repo.objects limit (some head) log) d := by
  unfold readLog
  split
  · next zero =>
    subst zero
    exact Program.Moves.value rfl (.limit _)
  next some_ =>
  have walked := walkLog_spec P d.repo.objects limit (some head)
  refine (readObjects_moves _).weaken ?_ ?_
  · rintro _ (rfl | ⟨cause, failed, rfl⟩)
    · exact ⟨.io, .inr ⟨Nat.pos_of_ne_zero some_, rfl⟩, rfl⟩
    · rw [failed] at walked
      exact ⟨cause, .inl walked, rfl⟩
  · intro log _ _ found
    rw [found] at walked
    exact walked

end

/- A diff. -/

section

variable {Hash : Type} {P : Platform Hash} {files : Files}

theorem bind_error_cases {ε α β : Type} {x : Except ε α} {f : α → Except ε β} {e : ε}
    (failed : (x >>= f) = .error e) : x = .error e ∨ ∃ a, x = .ok a ∧ f a = .error e := by
  cases x with
  | error e' =>
    cases failed
    exact .inl rfl
  | ok a => exact .inr ⟨a, rfl, failed⟩

theorem bind_ok_cases {ε α β : Type} {x : Except ε α} {f : α → Except ε β} {b : β}
    (given : (x >>= f) = .ok b) : ∃ a, x = .ok a ∧ f a = .ok b := by
  cases x with
  | error e => cases given
  | ok a => exact ⟨a, rfl, given⟩

variable [DecidableEq Hash]

theorem ReadFails.of_bind {α : Type} {f : Object Hash → Except (Error Hash) α} {h : Hash} {e : Error Hash}
    (failed : (get P files h >>= f) = .error e)
    (other : ∀ object, f object = .error e → ∃ expected, e = .kindMismatch expected object.kind) :
    ReadFails P files h e := by
  rcases bind_error_cases failed with failed | ⟨object, found, failed⟩
  · exact .unread failed
  · obtain ⟨expected, rfl⟩ := other object failed
    exact .other found expected

theorem loadCommit_fails {h : Hash} {e : Error Hash} (failed : Diff.loadCommit (get P files) h = .error e) :
    ReadFails P files h e := by
  refine .of_bind failed ?_
  rintro (b | t | c) ⟨⟩
  · exact ⟨.commit, rfl⟩
  · exact ⟨.commit, rfl⟩

theorem loadTree_fails {h : Hash} {e : Error Hash} (failed : Diff.loadTree (get P files) h = .error e) :
    ReadFails P files h e := by
  refine .of_bind failed ?_
  rintro (b | t | c) ⟨⟩
  · exact ⟨.tree, rfl⟩
  · exact ⟨.tree, rfl⟩

theorem loadBlob_fails {h : Hash} {e : Error Hash} (failed : Diff.loadBlob (get P files) h = .error e) :
    ReadFails P files h e := by
  refine .of_bind failed ?_
  rintro (b | t | c) ⟨⟩
  · exact ⟨.blob, rfl⟩
  · exact ⟨.blob, rfl⟩

theorem loadCommit_ok {h : Hash} {c : Commit Hash} (given : Diff.loadCommit (get P files) h = .ok c) :
    get P files h = .ok (.commit c) := by
  obtain ⟨object, found, ended⟩ := bind_ok_cases given
  cases object with
  | commit c' =>
    cases ended
    exact found
  | blob b => cases ended
  | tree t => cases ended

theorem loadTree_ok {h : Hash} {t : Tree Hash} (given : Diff.loadTree (get P files) h = .ok t) :
    get P files h = .ok (.tree t) := by
  obtain ⟨object, found, ended⟩ := bind_ok_cases given
  cases object with
  | tree t' =>
    cases ended
    exact found
  | blob b => cases ended
  | commit c => cases ended

theorem treeEntries_fails {h : Option Hash} {e : Error Hash}
    (failed : Diff.treeEntries (get P files) h = .error e) : ∃ part ∈ h, ReadFails P files part e := by
  cases h with
  | none => cases failed
  | some h =>
    rw [Diff.treeEntries] at failed
    rcases bind_error_cases failed with failed | ⟨_, _, ended⟩
    · exact ⟨h, rfl, loadTree_fails failed⟩
    · cases ended

theorem treeEntries_ok {h : Option Hash} {entries : BTreeMap String (TypedRef Hash)}
    (given : Diff.treeEntries (get P files) h = .ok entries) : EntriesAre P files h entries := by
  cases h with
  | none =>
    cases given
    exact .none
  | some h =>
    rw [Diff.treeEntries] at given
    obtain ⟨tree, found, ended⟩ := bind_ok_cases given
    cases ended
    exact .tree (loadTree_ok found)

theorem modelText_fails {h : Option Hash} {e : Error Hash}
    (failed : Diff.modelText (get P files) h = .error e) : ∃ part ∈ h, ReadFails P files part e := by
  cases h with
  | none => cases failed
  | some h =>
    rw [Diff.modelText] at failed
    rcases bind_error_cases failed with failed | ⟨_, _, ended⟩
    · exact ⟨h, rfl, loadBlob_fails failed⟩
    · cases ended

theorem diffTree_fails {a b : Option Hash} {e : Error Hash}
    (failed : Diff.diffTree (get P files) a b = .error e) :
    ∃ part, (part ∈ a ∨ part ∈ b) ∧ ReadFails P files part e := by
  unfold Diff.diffTree at failed
  by_cases same : a = b
  · rw [if_pos same] at failed
    cases failed
  rw [if_neg same] at failed
  rcases bind_error_cases failed with failed | ⟨_, _, failed⟩
  · obtain ⟨part, mem, failed⟩ := treeEntries_fails failed
    exact ⟨part, .inl mem, failed⟩
  rcases bind_error_cases failed with failed | ⟨_, _, ended⟩
  · obtain ⟨part, mem, failed⟩ := treeEntries_fails failed
    exact ⟨part, .inr mem, failed⟩
  · dsimp only at ended
    split at ended
    · cases ended
    · cases ended

theorem diffModelBlob_fails {a b : Option Hash} {e : Error Hash}
    (failed : Diff.diffModelBlob (get P files) a b = .error e) :
    ∃ part, (part ∈ a ∨ part ∈ b) ∧ ReadFails P files part e := by
  unfold Diff.diffModelBlob at failed
  by_cases same : a = b
  · rw [if_pos same] at failed
    cases failed
  rw [if_neg same] at failed
  rcases bind_error_cases failed with failed | ⟨_, _, failed⟩
  · obtain ⟨part, mem, failed⟩ := modelText_fails failed
    exact ⟨part, .inl mem, failed⟩
  rcases bind_error_cases failed with failed | ⟨_, _, ended⟩
  · obtain ⟨part, mem, failed⟩ := modelText_fails failed
    exact ⟨part, .inr mem, failed⟩
  · split at ended
    · cases ended
    · cases ended

theorem diff_fails {h k : Hash} {e : Error Hash} (failed : Diff.diff (get P files) h k = .error e) :
    ∃ part, (Part P files h part ∨ Part P files k part) ∧ ReadFails P files part e := by
  unfold Diff.diff at failed
  rcases bind_error_cases failed with failed | ⟨a, first, failed⟩
  · exact ⟨h, .inl .own, loadCommit_fails failed⟩
  rcases bind_error_cases failed with failed | ⟨b, second, failed⟩
  · exact ⟨k, .inr .own, loadCommit_fails failed⟩
  have first := loadCommit_ok first
  have second := loadCommit_ok second
  rcases bind_error_cases failed with failed | ⟨_, _, failed⟩
  · obtain ⟨part, mem | mem, failed⟩ := diffTree_fails failed
    · exact ⟨part, .inl (.part first (.inl mem)), failed⟩
    · exact ⟨part, .inr (.part second (.inl mem)), failed⟩
  rcases bind_error_cases failed with failed | ⟨_, _, failed⟩
  · obtain ⟨part, mem | mem, failed⟩ := diffTree_fails failed
    · exact ⟨part, .inl (.part first (.inr (.inl mem))), failed⟩
    · exact ⟨part, .inr (.part second (.inr (.inl mem))), failed⟩
  rcases bind_error_cases failed with failed | ⟨_, _, ended⟩
  · obtain ⟨part, mem | mem, failed⟩ := diffModelBlob_fails failed
    · exact ⟨part, .inl (.part first (.inr (.inr mem))), failed⟩
    · exact ⟨part, .inr (.part second (.inr (.inr mem))), failed⟩
  · cases ended

/-- The fields that a reply tells. -/
structure Compared (P : Platform Hash) (files : Files) (h k : Hash) (d : CommitDiff Hash)
    (a b : Commit Hash) : Prop where
  first : get P files h = .ok (.commit a)
  second : get P files k = .ok (.commit b)
  prompts : Diff.diffTree (get P files) a.prompts b.prompts = .ok d.prompts
  tools : Diff.diffTree (get P files) a.tools b.tools = .ok d.tools
  memorySnapshot : d.memorySnapshot = Diff.hashChange a.memorySnapshot b.memorySnapshot
  schemaVersion : d.schemaVersion = Diff.stringChange a.schemaVersion b.schemaVersion

theorem diff_ok {h k : Hash} {d : CommitDiff Hash} (given : Diff.diff (get P files) h k = .ok d) :
    ∃ a b, Compared P files h k d a b := by
  unfold Diff.diff at given
  obtain ⟨a, first, given⟩ := bind_ok_cases given
  obtain ⟨b, second, given⟩ := bind_ok_cases given
  obtain ⟨prompts, comparedPrompts, given⟩ := bind_ok_cases given
  obtain ⟨tools, comparedTools, given⟩ := bind_ok_cases given
  obtain ⟨model, _, ended⟩ := bind_ok_cases given
  cases ended
  exact ⟨a, b, loadCommit_ok first, loadCommit_ok second, comparedPrompts, comparedTools, rfl, rfl⟩

/-- One more text in a list of texts. -/
theorem sum_signed (sign : String) (four : quotedSize sign = 4) (names : List String) :
    ((names.map (fun name => sign ++ name)).map (fun s => quotedSize s + 1)).sum =
      (names.map (fun name => quotedSize name + 3)).sum := by
  induction names with
  | nil => rfl
  | cons name names ih =>
    have whole := quotedSize_append sign name
    simp only [List.map_cons, List.sum_cons, ih]
    omega

/-- What the names of a tree's difference take, one by one. -/
def changesSize (d : TreeDiff Hash) : Nat :=
  ((renderTree (some d)).map (fun s => quotedSize s + 1)).sum

omit [DecidableEq Hash] in
theorem changesSize_eq (d : TreeDiff Hash) : changesSize d =
    ((d.added.map TreeEntry.name).map (fun name => quotedSize name + 3)).sum +
      ((d.removed.map TreeEntry.name).map (fun name => quotedSize name + 3)).sum +
      ((d.modified.map TreeModification.name).map (fun name => quotedSize name + 3)).sum := by
  have added := sum_signed "+ " (by rfl) (d.added.map TreeEntry.name)
  have removed := sum_signed "- " (by rfl) (d.removed.map TreeEntry.name)
  have modified := sum_signed "~ " (by rfl) (d.modified.map TreeModification.name)
  simp only [List.map_map, Function.comp_def] at added removed modified ⊢
  simp only [changesSize, renderTree, List.map_append, List.map_map, Function.comp_def,
    List.sum_append, added, removed, modified]

theorem changesSize_diffName (a b : BTreeMap String (TypedRef Hash)) (d : TreeDiff Hash) (name : String) :
    changesSize (Diff.diffName a b d name) = changesSize d +
      if Diff.hashAt a name ≠ Diff.hashAt b name then quotedSize name + 3 else 0 := by
  unfold Diff.diffName Diff.hashAt
  cases a.get? name with
  | none =>
    cases b.get? name with
    | none => simp
    | some r =>
      simp [changesSize_eq]
      omega
  | some r =>
    cases b.get? name with
    | none =>
      simp [changesSize_eq]
      omega
    | some r' =>
      by_cases same : r.hash = r'.hash
      · simp [same]
      · simp [same, changesSize_eq]
        omega

theorem changesSize_foldl (a b : BTreeMap String (TypedRef Hash)) (names : List String) (d : TreeDiff Hash) :
    changesSize (names.foldl (Diff.diffName a b) d) = changesSize d +
      ((names.filter (fun name => Diff.hashAt a name ≠ Diff.hashAt b name)).map
        (fun name => quotedSize name + 3)).sum := by
  induction names generalizing d with
  | nil => rfl
  | cons name names ih =>
    rw [List.foldl_cons, ih, changesSize_diffName, List.filter_cons]
    by_cases same : Diff.hashAt a name = Diff.hashAt b name
    · simp [same]
    · simp [same]
      omega

omit [DecidableEq Hash] in
theorem stringsSize_le (ss : List String) :
    stringsSize ss ≤ (ss.map (fun s => quotedSize s + 1)).sum + 2 := by
  unfold stringsSize
  split_ifs
  · exact le_rfl
  · omega

theorem diffTree_size {a b : Option Hash} {d : Option (TreeDiff Hash)}
    (given : Diff.diffTree (get P files) a b = .ok d) :
    ∃ names, ChangedNames P files a b names ∧ stringsSize (renderTree d) ≤ namesSize names := by
  unfold Diff.diffTree at given
  by_cases same : a = b
  · rw [if_pos same] at given
    cases given
    subst same
    exact ⟨[], .same a, le_rfl⟩
  rw [if_neg same] at given
  obtain ⟨x, first, given⟩ := bind_ok_cases given
  obtain ⟨y, second, given⟩ := bind_ok_cases given
  refine ⟨_, .trees (treeEntries_ok first) (treeEntries_ok second), ?_⟩
  have whole : changesSize (Diff.diffEntries x y) = changesSize ({} : TreeDiff Hash) + _ :=
    changesSize_foldl x y (Diff.allNames x y) {}
  have start : changesSize ({} : TreeDiff Hash) = 0 := rfl
  dsimp only at given
  split at given
  · cases given
    exact Nat.le_add_left 2 _
  · cases given
    have bound := stringsSize_le (renderTree (some (Diff.diffEntries x y)))
    unfold changesSize at whole start
    unfold namesSize
    omega

variable {w : Words} {correlationId : String} {seen : RefsSnapshot Hash} {source target : String}

theorem handleDiff_room {h k : Hash} (first : lookUp P seen source = .ok h)
    (second : lookUp P seen target = .ok k) (fits : DiffFits P w correlationId files h k) :
    match handleDiff P files seen source target with
    | .ok out => Room correlationId out.size
    | .error e => FailureFits P w correlationId e := by
  unfold handleDiff
  simp only [first, second, bind, Except.bind]
  cases diffed : Diff.diff (get P files) h k with
  | error e =>
    obtain ⟨part, among, failed⟩ := diff_fails diffed
    exact fits.failed part e among (.inl failed)
  | ok d =>
    obtain ⟨a, b, compared⟩ := diff_ok diffed
    obtain ⟨prompts, changedPrompts, promptsLe⟩ := diffTree_size compared.prompts
    obtain ⟨tools, changedTools, toolsLe⟩ := diffTree_size compared.tools
    refine Room.mono (fits.changed a b prompts tools compared.first compared.second changedPrompts
      changedTools) ?_
    simp only [DiffOutput.size, boolSize, compared.memorySnapshot,
      compared.schemaVersion]
    split_ifs <;> omega

omit [DecidableEq Hash] in
theorem lookUp_names {t : FileTree TextFile} (head : Refs.HeadIs P t seen.head)
    (tips : ∀ name h, seen.branches.get? name = some h → Refs.TipIs P t name (some h)) (name : String) :
    match lookUp P seen name with
    | .ok h => Refs.Names P t name (some h)
    | .error e => (∃ cause, Refs.isHexHash name = true ∧ Refs.parseHash P name.toList = .error cause ∧
        e = .core cause) ∨ e = .text ("ref not found: " ++ name) := by
  unfold lookUp RefsSnapshot.resolve
  split_ifs with named hex
  · cases at_ : seen.head with
    | none => exact .inr rfl
    | some ref =>
      rw [at_] at head
      cases ref with
      | detached h => exact .detached named head
      | branch b =>
        dsimp only
        cases there : seen.branches.get? b with
        | none => exact .inr rfl
        | some h => exact .current named head (tips b h there)
  · cases parsed : Refs.parseHash P name.toList with
    | error e => exact .inl ⟨e, hex, rfl, rfl⟩
    | ok h => exact .hash named hex parsed
  · cases there : seen.branches.get? name with
    | none => exact .inr rfl
    | some h => exact .branch named (Bool.eq_false_of_not_eq_true hex) (tips name h there)

end

end GitAgentic
