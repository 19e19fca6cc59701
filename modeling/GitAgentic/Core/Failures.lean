import GitAgentic.Core.StagingRun
import GitAgentic.Data.Outcomes

/-! What reading the refs and staging a commit can come to when any operation may fail: the
values they return and the errors they end with. -/
namespace FileTree

variable {α ε : Type} {t t' t'' : FileTree α}

def SameFiles (t t' : FileTree α) : Prop := ∀ q, t'.file? q = t.file? q

theorem SameFiles.trans (first : SameFiles t t') (second : SameFiles t' t'') : SameFiles t t'' :=
  fun q => (second q).trans (first q)

theorem perform_moves {R : FileTree α → FileTree α → Prop} {f : FileTree α → Option (FileTree α)}
    (e : ε) (refl : R t t) (acted : ∀ t', f t = some t' → R t t') :
    (perform e f).Moves True R (· = e) (fun _ _ => True) t :=
  perform_safe e refl (fun t' done => ⟨acted t' done, trivial⟩) (fun _ => ⟨refl, rfl⟩)

theorem createDirAll_moves (e : ε) (base : TreePath) (names : List String) (t : FileTree α) :
    (createDirAll e base names).Moves True SameFiles (· = e) (fun _ _ => True) t := by
  induction names generalizing base t with
  | nil => exact Program.Moves.value (fun _ => rfl) trivial
  | cons name rest ih =>
    refine Program.Moves.bind SameFiles.trans (Program.Moves.read (fun _ => rfl) ?_ rfl) ?_
    · rintro _ ⟨⟩
    rintro (_ | _ | _) u _ _
    · refine Program.Moves.bind SameFiles.trans (perform_moves e (fun _ => rfl) ?_)
        (fun _ v _ _ => ih _ v)
      intro v made
      exact (Grown.createDir (List.prefix_refl _) made).file?
    · exact ih _ u
    · exact Program.Moves.fail (fun _ => rfl) rfl

end FileTree

namespace GitAgentic

namespace Refs

variable {Hash : Type} (P : Platform Hash) (t : FileTree TextFile)

/-- What `HEAD` is read as. A failed `exists` counts as absent. -/
inductive HeadIs : Option (HeadRef Hash) → Prop
  | absent : HeadIs none
  | branch {text : String} (found : t.file? headPath = some (some text))
      (symbolic : refPrefix.toList.isPrefixOf (trim text.toList) = true) :
      HeadIs (some (.branch (String.ofList ((trim text.toList).drop refPrefix.length))))
  | detached {text : String} {h : Hash} (found : t.file? headPath = some (some text))
      (parsed : parseHash P (trim text.toList) = .ok h) : HeadIs (some (.detached h))

inductive HeadFails : Error Hash → Prop
  | io : HeadFails .io
  | unparsed {text : String} {e : Error Hash} (found : t.file? headPath = some (some text))
      (bad : parseHash P (trim text.toList) = .error e) : HeadFails e

inductive TipIs (branch : String) : Option Hash → Prop
  | absent : TipIs branch none
  | tip {path : TreePath} {text : String} {h : Hash}
      (valid : (branchPath branch : Except (Error Hash) TreePath) = .ok path)
      (found : t.file? path = some (some text)) (parsed : parseHash P (trim text.toList) = .ok h) :
      TipIs branch (some h)

inductive TipFails (branch : String) : Error Hash → Prop
  | io : TipFails branch .io
  | invalid {e : Error Hash} (rejected : branchPath branch = .error e) : TipFails branch e
  | unparsed {path : TreePath} {text : String} {e : Error Hash}
      (valid : (branchPath branch : Except (Error Hash) TreePath) = .ok path)
      (found : t.file? path = some (some text))
      (bad : parseHash P (trim text.toList) = .error e) : TipFails branch e

/-- What a name stands for. -/
inductive Names (name : String) : Option Hash → Prop
  | absent : Names name none
  | detached {h : Hash} (head : name = "HEAD") (found : HeadIs P t (some (.detached h))) :
      Names name (some h)
  | current {b : String} {found : Option Hash} (head : name = "HEAD")
      (on : HeadIs P t (some (.branch b))) (tip : TipIs P t b found) : Names name found
  | hash {h : Hash} (other : name ≠ "HEAD") (hex : isHexHash name = true)
      (parsed : parseHash P name.toList = .ok h) : Names name (some h)
  | branch {found : Option Hash} (other : name ≠ "HEAD") (plain : isHexHash name = false)
      (tip : TipIs P t name found) : Names name found

inductive NameFails (name : String) : Error Hash → Prop
  | head {e : Error Hash} (head : name = "HEAD") (failed : HeadFails P t e) : NameFails name e
  | current {b : String} {e : Error Hash} (head : name = "HEAD")
      (on : HeadIs P t (some (.branch b))) (failed : TipFails P t b e) : NameFails name e
  | hash {e : Error Hash} (other : name ≠ "HEAD") (hex : isHexHash name = true)
      (bad : parseHash P name.toList = .error e) : NameFails name e
  | branch {e : Error Hash} (other : name ≠ "HEAD") (plain : isHexHash name = false)
      (failed : TipFails P t name e) : NameFails name e

/-- The branches that are listed are read one by one. -/
inductive ListingFails : Error Hash → Prop
  | io : ListingFails .io
  | head {e : Error Hash} (failed : HeadFails P t e) : ListingFails e
  | branch {name : String} {e : Error Hash} (listed : name ∈ (collectBranchFiles t).map branchName)
      (failed : TipFails P t name e) : ListingFails e

variable {P t}

theorem pathExists_moves {fails : Error Hash → Prop} (path : TreePath) :
    (pathExists path : RefsProgram Hash Bool).Moves True Eq fails (fun _ _ => True) t :=
  ⟨rfl, ⟨rfl, trivial⟩, fun _ => ⟨rfl, trivial⟩⟩

theorem readToString_moves {fails : Error Hash → Prop} (path : TreePath) (io : fails .io) :
    (Program.read (fun t => readToString t path) .io : RefsProgram Hash String).Moves True Eq fails
      (fun text _ => t.file? path = some (some text)) t := by
  refine (Program.Moves.read rfl ?_ io).weaken (fun _ h => h) ?_
  · intro e failed
    unfold readToString at failed
    split at failed
    · cases failed
    · cases failed
      exact io
  · intro text _ _ read
    unfold readToString at read
    split at read
    · next found =>
      cases read
      exact found
    · cases read

theorem readHead_moves :
    (readHead P).Moves True Eq (HeadFails P t) (fun head _ => HeadIs P t head) t := by
  refine Program.Moves.bind Eq.trans (pathExists_moves headPath) ?_
  rintro (_ | _) _ rfl _
  · exact Program.Moves.value rfl .absent
  · refine Program.Moves.bind Eq.trans (readToString_moves headPath .io) ?_
    rintro text _ rfl found
    dsimp only
    split
    · next symbolic => exact Program.Moves.value rfl (.branch found symbolic)
    · refine Program.Moves.bind Eq.trans (Program.Moves.ofExcept rfl (fun _ bad => .unparsed found bad)) ?_
      rintro h _ rfl parsed
      exact Program.Moves.value rfl (.detached found parsed)

theorem readBranch_moves (branch : String) :
    (readBranch P branch).Moves True Eq (TipFails P t branch) (fun tip _ => TipIs P t branch tip) t := by
  refine Program.Moves.bind Eq.trans (Program.Moves.ofExcept rfl
    (fun _ rejected => .invalid rejected)) ?_
  rintro path _ rfl valid
  refine Program.Moves.bind Eq.trans (pathExists_moves path) ?_
  rintro (_ | _) _ rfl _
  · exact Program.Moves.value rfl .absent
  · refine Program.Moves.bind Eq.trans (readToString_moves path .io) ?_
    rintro text _ rfl found
    refine Program.Moves.bind Eq.trans (Program.Moves.ofExcept rfl (fun _ bad => .unparsed valid found bad)) ?_
    rintro h _ rfl parsed
    exact Program.Moves.value rfl (.tip valid found parsed)

theorem resolve_moves (name : String) :
    (resolve P name).Moves True Eq (NameFails P t name) (fun found _ => Names P t name found) t := by
  unfold resolve
  split_ifs with head hex
  · refine Program.Moves.bind Eq.trans (readHead_moves.weaken (fun _ failed => .head head failed)
      (fun _ _ _ is => is)) ?_
    rintro (_ | _ | _) _ rfl is
    · exact Program.Moves.value rfl .absent
    · exact (readBranch_moves _).weaken (fun _ failed => .current head is failed)
        (fun _ _ _ tip => .current head is tip)
    · exact Program.Moves.value rfl (.detached head is)
  · refine Program.Moves.bind Eq.trans (Program.Moves.ofExcept rfl (fun _ bad => .hash head hex bad)) ?_
    rintro h _ rfl parsed
    exact Program.Moves.value rfl (.hash head hex parsed)
  · have plain : isHexHash name = false := Bool.eq_false_of_not_eq_true hex
    exact (readBranch_moves name).weaken (fun _ failed => .branch head plain failed)
      (fun _ _ _ tip => .branch head plain tip)

theorem readBranches_moves (names : List String)
    (listed : ∀ name ∈ names, name ∈ (collectBranchFiles t).map branchName) :
    (readBranches P names).Moves True Eq (ListingFails P t)
      (fun branches _ => ∀ name h, branches.get? name = some h → TipIs P t name (some h)) t := by
  induction names with
  | nil => exact Program.Moves.value rfl (by
      intro name h found
      cases found)
  | cons name names ih =>
    refine Program.Moves.bind Eq.trans ((readBranch_moves name).weaken
      (fun _ failed => .branch (listed name List.mem_cons_self) failed) (fun _ _ _ tip => tip)) ?_
    rintro found _ rfl tip
    refine Program.Moves.bind Eq.trans (ih (fun n mem => listed n (List.mem_cons_of_mem name mem))) ?_
    rintro others _ rfl tips
    cases found with
    | none => exact Program.Moves.value rfl tips
    | some hash =>
      refine Program.Moves.value rfl ?_
      intro n h found
      rw [BTreeMap.get?_insert] at found
      split_ifs at found with same
      · cases found
        exact same ▸ tip
      · exact tips n h found

theorem snapshot_moves :
    (snapshot P).Moves True Eq (ListingFails P t) (fun seen _ => HeadIs P t seen.head ∧
      ∀ name h, seen.branches.get? name = some h → TipIs P t name (some h)) t := by
  refine Program.Moves.bind Eq.trans (readHead_moves.weaken (fun _ failed => .head failed)
    (fun _ _ _ is => is)) ?_
  rintro head _ rfl is
  have listing : (listBranches : RefsProgram Hash _).Moves True Eq (ListingFails P t)
      (fun names _ => ∀ name ∈ names, name ∈ (collectBranchFiles t).map branchName) t := by
    refine Program.Moves.bind Eq.trans (pathExists_moves heads) ?_
    rintro (_ | _) _ rfl _
    · exact Program.Moves.value rfl (by simp)
    · refine (Program.Moves.read rfl ?_ .io).weaken (fun _ h => h) ?_
      · intro e failed
        split at failed
        · cases failed
        · cases failed
          exact .io
      · intro names _ _ read
        split at read
        · cases read
          exact fun _ mem => mem
        · cases read
  refine Program.Moves.bind Eq.trans listing ?_
  rintro names _ rfl listed
  refine Program.Moves.bind Eq.trans (readBranches_moves names listed) ?_
  rintro branches _ rfl tips
  exact Program.Moves.value rfl ⟨is, tips⟩

theorem writeAtomic_moves {fails : Error Hash → Prop} (io : fails .io) (path : TreePath) (contents : String) :
    (writeAtomic path contents : RefsProgram Hash Unit).Moves True (fun _ _ => True) fails
      (fun _ _ => True) t := by
  have ended : ∀ e : Error Hash, e = .io → fails e := by
    rintro _ rfl
    exact io
  have perform : ∀ (f : FileTree TextFile → Option (FileTree TextFile)) t,
      (FileTree.perform .io f : RefsProgram Hash Unit).Moves True (fun _ _ => True) fails
        (fun _ _ => True) t := fun f t =>
    (FileTree.perform_moves Error.io trivial (fun _ _ => trivial)).weaken ended (fun _ _ _ h => h)
  refine Program.Moves.bind (fun _ _ => trivial) (((FileTree.createDirAll_moves Error.io [] _ t).relate
    (fun _ _ => trivial)).weaken ended (fun _ _ _ h => h)) (fun _ u _ _ => ?_)
  exact Program.Moves.bind (fun _ _ => trivial) (perform _ u) (fun _ v _ _ => perform _ v)

theorem writeBranch_moves (branch : String) (hash : Hash) (u : FileTree TextFile) :
    (writeBranch P branch hash).Moves True (fun _ _ => True) (TipFails P t branch) (fun _ _ => True) u := by
  refine Program.Moves.bind (fun _ _ => trivial) (Program.Moves.ofExcept trivial
    (fun _ rejected => .invalid rejected)) (fun path v _ _ => ?_)
  refine Program.Moves.bind (fun _ _ => trivial) (((FileTree.createDirAll_moves Error.io [] _ v).relate
    (fun _ _ => trivial)).weaken ?_ (fun _ _ _ h => h)) (fun _ w _ _ => writeAtomic_moves .io _ _)
  rintro _ rfl
  exact .io

end Refs

/- Staging. -/

section

variable {Hash : Type} [DecidableEq Hash] (P : Platform Hash) (S : FsObjectStore Hash)

/-- The contents that staging scans, each under its policy. -/
def CommitInputs.scanned (inputs : CommitInputs Hash) : List (Bytes × ScanPolicy) :=
  inputs.prompts.entries.map (fun e => (e.2, entryPolicy inputs.exemptEntropyPrefixes e.1)) ++
    (inputs.tools.entries.map (fun e => (e.2, entryPolicy inputs.exemptEntropyPrefixes e.1)) ++
      ((modelBytes inputs.model).toList ++ (inputs.intent.toList ++ (inputs.plan.toList ++
        (inputs.transcript.toList ++ inputs.evals.toList)))).map (fun bytes => (bytes, ({} : ScanPolicy))))

inductive PutFails (contents : List (Bytes × ScanPolicy)) : Error Hash → Prop
  | io : PutFails contents .io
  | secret {content : Bytes × ScanPolicy} (mem : content ∈ contents)
      (refused : ¬ S.Accepts P content.1 content.2) :
      PutFails contents (.secretDetected (S.scanner.scanWith content.1 content.2))

variable {P S}

/-- At most one address has changed, and it holds these bytes. -/
def Wrote (P : Platform Hash) (hash : Hash) (bytes : Bytes) (files files' : Files) : Prop :=
  ∀ h, slots P files' h = slots P files h ∨ h = hash ∧ slots P files' h = some (P.encodeAll bytes)

omit [DecidableEq Hash] in
theorem Wrote.refl {hash : Hash} {bytes : Bytes} (files : Files) : Wrote P hash bytes files files :=
  fun _ => .inl rfl

theorem writeAt_moves (hash : Hash) (bytes : Bytes) (files : Files) :
    (writeAtProgram P (pathFor P hash) bytes : Program Files (Error Hash) Unit).Moves True
      (Wrote P hash bytes) (· = .io) (fun _ _ => True) files := by
  have tmp : Wrote P hash bytes files (Function.update files
      ((pathFor P hash).withExtension "tmp") (some (P.encodeAll bytes))) := fun h =>
    .inl (congrFun (slots_tmp files hash (some (P.encodeAll bytes))) h)
  have done : Wrote P hash bytes files (Function.update (Function.update (Function.update files
      ((pathFor P hash).withExtension "tmp") (some (P.encodeAll bytes)))
      ((pathFor P hash).withExtension "tmp") none) (pathFor P hash) (some (P.encodeAll bytes))) := by
    have whole := slots_writeAt P files hash bytes
    simp only [writeAt, Function.update_self] at whole
    intro h
    rw [whole]
    by_cases here : h = hash
    · subst here
      exact .inr ⟨rfl, Function.update_self ..⟩
    · exact .inl (Function.update_of_ne here ..)
  refine Program.Safe.bind (Program.Safe.call (.refl files) ?_ (fun _ => ⟨.refl files, rfl⟩))
  refine Program.Safe.bind (Program.Safe.call (.refl files) ?_ (fun _ => ⟨.refl files, rfl⟩))
  refine Program.Safe.call tmp ?_ (fun _ => ⟨tmp, rfl⟩)
  simp only [Function.update_self]
  exact ⟨done, trivial⟩

theorem store_moves (hash : Hash) (bytes : Bytes) (files : Files) :
    (storeProgram P hash bytes : Program Files (Error Hash) Unit).Moves True (Wrote P hash bytes)
      (· = .io) (fun _ _ => True) files := by
  refine ⟨.refl files, ?_, fun _ => writeAt_moves hash bytes files⟩
  dsimp only
  split
  · exact ⟨.refl files, trivial⟩
  · exact writeAt_moves hash bytes files

theorem scanned_moves {contents : List (Bytes × ScanPolicy)} {hits : List Hit} {hash : Hash}
    {bytes : Bytes}
    (found : hits ≠ [] ∧ hash ∉ S.allowlist → PutFails P S contents (.secretDetected hits))
    (files : Files) :
    (if hits ≠ [] ∧ hash ∉ S.allowlist then Program.fail (.secretDetected hits)
      else do
        storeProgram P hash bytes
        return hash : Program Files (Error Hash) Hash).Moves True (Wrote P hash bytes)
      (PutFails P S contents) (fun h _ => h = hash) files := by
  split
  · next refused => exact Program.Moves.fail (.refl files) (found refused)
  · refine Program.Moves.andThen (store_moves hash bytes files) (fun _ h => h) ?_ ?_
    · rintro _ files' wrote rfl
      exact ⟨wrote, .io⟩
    · exact fun _ files' wrote _ => ⟨wrote, rfl⟩

theorem putRaw_moves (kind : ObjectKind) (bytes : Bytes) (files : Files) :
    (S.putRawProgram P kind bytes).Moves True (Wrote P (P.of bytes) bytes)
      (PutFails P S [(bytes, {})]) (fun h _ => h = P.of bytes) files := by
  refine scanned_moves (fun refused => ?_) files
  exact .secret List.mem_cons_self (fun accepted => accepted.elim refused.1 refused.2)

theorem putProgram_moves {contents : List (Bytes × ScanPolicy)} (o : Object Hash) (policy : ScanPolicy)
    (scanned : ∀ b, o = .blob b → (b.bytes, policy) ∈ contents) (files : Files) :
    (S.putProgram P o policy).Moves True (fun _ _ => True) (PutFails P S contents)
      (fun h _ => h = o.hash P) files := by
  refine (scanned_moves (fun refused => ?_) files).relate (fun _ _ => trivial)
  cases o with
  | blob b => exact .secret (scanned b rfl) (fun accepted => accepted.elim refused.1 refused.2)
  | tree t => exact absurd rfl refused.1
  | commit c => exact absurd rfl refused.1

theorem stageEntries_moves {contents : List (Bytes × ScanPolicy)} (exemptPrefixes : List String)
    (entries : List (String × Bytes)) (tree : Tree Hash)
    (scanned : ∀ e ∈ entries, (e.2, entryPolicy exemptPrefixes e.1) ∈ contents) (files : Files) :
    (stageEntries P S exemptPrefixes entries tree).Moves True (fun _ _ => True) (PutFails P S contents)
      (fun t _ => t = ⟨entries.foldl (fun m e => m.insert e.1 ⟨.blob, P.of e.2⟩) tree.entries⟩)
      files := by
  induction entries generalizing tree files with
  | nil => exact Program.Moves.value trivial rfl
  | cons e rest ih =>
    refine Program.Moves.bind (fun _ _ => trivial) (putProgram_moves _ _ ?_ files) ?_
    · rintro b ⟨⟩
      exact scanned e List.mem_cons_self
    · rintro _ files' _ rfl
      exact ih _ (fun e' mem => scanned e' (List.mem_cons_of_mem e mem)) files'

theorem stageBlobTree_moves {contents : List (Bytes × ScanPolicy)} (entries : BTreeMap String Bytes)
    (exemptPrefixes : List String)
    (scanned : ∀ e ∈ entries.entries, (e.2, entryPolicy exemptPrefixes e.1) ∈ contents)
    (files : Files) :
    (stageBlobTree P S entries exemptPrefixes).Moves True (fun _ _ => True) (PutFails P S contents)
      (fun h _ => h = treeHash? P entries) files := by
  unfold stageBlobTree treeHash?
  split
  · exact Program.Moves.value trivial rfl
  · have whole : (⟨entries.entries.foldl (fun m e => m.insert e.1 ⟨.blob, P.of e.2⟩) BTreeMap.empty⟩ :
        Tree Hash) = treeOf P entries := by
      rw [treeOf, BTreeMap.ofList, List.foldl_map]
    refine Program.Moves.bind (fun _ _ => trivial) (stageEntries_moves _ _ _ scanned files) ?_
    rintro _ files' _ rfl
    rw [whole]
    refine Program.Moves.bind (fun _ _ => trivial) (putProgram_moves _ _ (by rintro b ⟨⟩) files') ?_
    rintro _ files'' _ rfl
    exact Program.Moves.value trivial rfl

theorem stageOptionalBlob_moves {contents : List (Bytes × ScanPolicy)} (payload : Option Bytes)
    (scanned : ∀ bytes ∈ payload.toList, (bytes, {}) ∈ contents) (files : Files) :
    (stageOptionalBlob P S payload).Moves True (fun _ _ => True) (PutFails P S contents)
      (fun h _ => h = payload.map P.of) files := by
  cases payload with
  | none => exact Program.Moves.value trivial rfl
  | some bytes =>
    refine Program.Moves.bind (fun _ _ => trivial) (putProgram_moves _ _ ?_ files) ?_
    · rintro b ⟨⟩
      exact scanned bytes List.mem_cons_self
    · rintro _ files' _ rfl
      exact Program.Moves.value trivial rfl

theorem stageCommit_moves (inputs : CommitInputs Hash) (now : Int) (files : Files) :
    (stageCommit P S inputs now).Moves True (fun _ _ => True) (PutFails P S inputs.scanned)
      (fun h _ => h = (Object.commit (inputs.commit P now)).hash P) files := by
  have optional : ∀ {payload : Option Bytes}, (∀ bytes ∈ payload.toList, bytes ∈
      (modelBytes inputs.model).toList ++ (inputs.intent.toList ++ (inputs.plan.toList ++
        (inputs.transcript.toList ++ inputs.evals.toList)))) →
      ∀ bytes ∈ payload.toList, (bytes, {}) ∈ inputs.scanned := by
    intro payload among bytes mem
    refine List.mem_append_right _ (List.mem_append_right _ ?_)
    exact List.mem_map.mpr ⟨bytes, among bytes mem, rfl⟩
  refine Program.Moves.bind (fun _ _ => trivial) (stageBlobTree_moves inputs.prompts _ ?_ files) ?_
  · intro e mem
    exact List.mem_append_left _ (List.mem_map_of_mem mem)
  rintro _ f₁ _ rfl
  refine Program.Moves.bind (fun _ _ => trivial) (stageBlobTree_moves inputs.tools _ ?_ f₁) ?_
  · intro e mem
    exact List.mem_append_right _ (List.mem_append_left _ (List.mem_map_of_mem mem))
  rintro _ f₂ _ rfl
  refine Program.Moves.bind (fun _ _ => trivial) (stageOptionalBlob_moves _ (optional ?_) f₂) ?_
  · exact fun bytes mem => by simp [mem]
  rintro _ f₃ _ rfl
  refine Program.Moves.bind (fun _ _ => trivial) (stageOptionalBlob_moves _ (optional ?_) f₃) ?_
  · exact fun bytes mem => by simp [mem]
  rintro _ f₄ _ rfl
  refine Program.Moves.bind (fun _ _ => trivial) (stageOptionalBlob_moves _ (optional ?_) f₄) ?_
  · exact fun bytes mem => by simp [mem]
  rintro _ f₅ _ rfl
  refine Program.Moves.bind (fun _ _ => trivial) (stageOptionalBlob_moves _ (optional ?_) f₅) ?_
  · exact fun bytes mem => by simp [mem]
  rintro _ f₆ _ rfl
  refine Program.Moves.bind (fun _ _ => trivial) (stageOptionalBlob_moves _ (optional ?_) f₆) ?_
  · exact fun bytes mem => by simp [mem]
  rintro _ f₇ _ rfl
  exact putProgram_moves _ _ (by rintro b ⟨⟩) f₇

omit [DecidableEq Hash] in
theorem onObjects_moves {ε α : Type} {p : Program Files ε α} {fails : ε → Prop} {gives : α → Prop}
    {r : Repository} (moves : p.Moves True (fun _ _ => True) fails (fun a _ => gives a) r.objects) :
    (Repository.onObjects p).Moves True (fun _ _ => True) fails (fun a _ => gives a) r :=
  .focus (fun _ _ => rfl) (fun _ _ _ => rfl) (fun _ => rfl) (fun _ _ => trivial) moves

omit [DecidableEq Hash] in
theorem onRefs_moves {ε α : Type} {p : Program (FileTree TextFile) ε α} {fails : ε → Prop}
    {gives : α → Prop} {r : Repository}
    (moves : p.Moves True (fun _ _ => True) fails (fun a _ => gives a) r.agentic) :
    (Repository.onRefs p).Moves True (fun _ _ => True) fails (fun a _ => gives a) r :=
  .focus (fun _ _ => rfl) (fun _ _ _ => rfl) (fun _ => rfl) (fun _ _ => trivial) moves

/-- The refs as they were when the branch was read decide what its write can come to. -/
theorem stageAndCommit_moves (t : FileTree TextFile) (branch : String) (inputs : CommitInputs Hash)
    (now : Int) (r : Repository) :
    (stageAndCommitWithNow P S branch inputs now).Moves True (fun _ _ => True)
      (fun e => PutFails P S inputs.scanned e ∨ Refs.TipFails P t branch e)
      (fun out _ => out = { commitHash := (Object.commit (inputs.commit P now)).hash P, branch }) r := by
  refine Program.Moves.bind (fun _ _ => trivial) ((onObjects_moves (stageCommit_moves inputs now
    r.objects)).weaken (fun _ => Or.inl) (fun _ _ _ given => given)) ?_
  rintro _ r' _ rfl
  exact Program.Moves.bind (fun _ _ => trivial) ((onRefs_moves (Refs.writeBranch_moves branch _
    r'.agentic)).weaken (fun _ => Or.inr) (fun _ _ _ given => given))
    (fun _ _ _ _ => Program.Moves.value trivial rfl)

end

end GitAgentic
