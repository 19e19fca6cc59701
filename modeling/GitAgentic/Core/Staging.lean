import GitAgentic.Core.BranchMap
import GitAgentic.Core.StoreProgram

/-! Staging a commit: the blobs, the trees, the commit object, and last the branch ref. -/
namespace GitAgentic

/-- The `.agentic` directory: the object store and the refs. -/
structure Repository where
  objects : Files
  agentic : FileTree TextFile

namespace Repository

variable {ε α : Type}

def onObjects (p : Program Files ε α) : Program Repository ε α :=
  p.focus Repository.objects (fun objects r => { r with objects })

def onRefs (p : Program (FileTree TextFile) ε α) : Program Repository ε α :=
  p.focus Repository.agentic (fun agentic r => { r with agentic })

end Repository

structure CommitInputs (Hash : Type) where
  author : String
  message : String
  parent : Option Hash
  codeSha : Option String
  prompts : BTreeMap String Bytes
  tools : BTreeMap String Bytes
  model : Option String
  memorySnapshot : Option Hash
  schemaVersion : Option String
  intent : Option Bytes
  plan : Option Bytes
  transcript : Option Bytes
  evals : Option Bytes
  costCents : UInt32
  peerUid : Option UInt32
  exemptEntropyPrefixes : List String

structure CommitOutputs (Hash : Type) where
  commitHash : Hash
  branch : String
  deriving DecidableEq

def startsWith (start s : String) : Bool := start.toList.isPrefixOf s.toList

section

variable {Hash : Type} [DecidableEq Hash] (P : Platform Hash) (S : FsObjectStore Hash)

def entryPolicy (exemptPrefixes : List String) (name : String) : ScanPolicy :=
  if exemptPrefixes.any (fun p => startsWith p name) then { skipEntropy := true } else {}

def stageEntries (exemptPrefixes : List String) :
    List (String × Bytes) → Tree Hash → Program Files (Error Hash) (Tree Hash)
  | [], tree => return tree
  | (name, bytes) :: rest, tree => do
    let hash ← S.putProgram P (.blob { bytes }) (entryPolicy exemptPrefixes name)
    stageEntries exemptPrefixes rest
      { entries := tree.entries.insert name { kind := .blob, hash } }

def stageBlobTree (entries : BTreeMap String Bytes) (exemptPrefixes : List String) :
    Program Files (Error Hash) (Option Hash) := do
  if entries.entries = [] then return none
  else
    let tree ← stageEntries P S exemptPrefixes entries.entries { entries := BTreeMap.empty }
    return some (← S.putProgram P (.tree tree) {})

def stageOptionalBlob : Option Bytes → Program Files (Error Hash) (Option Hash)
  | none => return none
  | some bytes => return some (← S.putProgram P (.blob { bytes }) {})

def modelBytes (model : Option String) : Option Bytes := model.map (fun s => utf8 s.toList)

def stageCommit (inputs : CommitInputs Hash) (now : Int) : Program Files (Error Hash) Hash := do
  let prompts ← stageBlobTree P S inputs.prompts inputs.exemptEntropyPrefixes
  let tools ← stageBlobTree P S inputs.tools inputs.exemptEntropyPrefixes
  let model ← stageOptionalBlob P S (modelBytes inputs.model)
  let intent ← stageOptionalBlob P S inputs.intent
  let plan ← stageOptionalBlob P S inputs.plan
  let transcript ← stageOptionalBlob P S inputs.transcript
  let evals ← stageOptionalBlob P S inputs.evals
  S.putProgram P (.commit {
    parent := inputs.parent
    author := inputs.author
    timestamp := now
    message := inputs.message
    codeSha := inputs.codeSha
    prompts, tools, model
    memorySnapshot := inputs.memorySnapshot
    schemaVersion := inputs.schemaVersion
    intent, plan, transcript, evals
    costCents := inputs.costCents
    signatures := []
    peerUid := inputs.peerUid }) {}

/-- Steps 1 to 3 go to the object store, step 5 to the branch ref. -/
def stageAndCommitWithNow (branch : String) (inputs : CommitInputs Hash) (now : Int) :
    Program Repository (Error Hash) (CommitOutputs Hash) := do
  let commitHash ← Repository.onObjects (stageCommit P S inputs now)
  Repository.onRefs (Refs.writeBranch P branch commitHash)
  return { commitHash, branch }

/-- Parent pointers from the start, at most as many commits as the limit. -/
def walkLog (files : Files) : Nat → Option Hash → Except (Error Hash) (List (Hash × Commit Hash))
  | 0, _ => .ok []
  | _, none => .ok []
  | limit + 1, some h => do
    match ← get P files h with
    | .commit c => return (h, c) :: (← walkLog files limit c.parent)
    | other => throw (.kindMismatch .commit other.kind)

/- What staging puts is settled by its inputs. -/

def treeOf (entries : BTreeMap String Bytes) : Tree Hash where
  entries := BTreeMap.ofList (entries.entries.map (fun e => (e.1, ⟨.blob, P.of e.2⟩)))

def treeHash? (entries : BTreeMap String Bytes) : Option Hash :=
  if entries.entries = [] then none else some ((Object.tree (treeOf P entries)).hash P)

def CommitInputs.commit (inputs : CommitInputs Hash) (now : Int) : Commit Hash where
  parent := inputs.parent
  author := inputs.author
  timestamp := now
  message := inputs.message
  codeSha := inputs.codeSha
  prompts := treeHash? P inputs.prompts
  tools := treeHash? P inputs.tools
  model := (modelBytes inputs.model).map P.of
  memorySnapshot := inputs.memorySnapshot
  schemaVersion := inputs.schemaVersion
  intent := inputs.intent.map P.of
  plan := inputs.plan.map P.of
  transcript := inputs.transcript.map P.of
  evals := inputs.evals.map P.of
  costCents := inputs.costCents
  signatures := []
  peerUid := inputs.peerUid

/-- Everything a commit stages as a blob. -/
def CommitInputs.contents (inputs : CommitInputs Hash) : List Bytes :=
  inputs.prompts.entries.map Prod.snd ++ (inputs.tools.entries.map Prod.snd ++
    ((modelBytes inputs.model).toList ++ (inputs.intent.toList ++ (inputs.plan.toList ++
      (inputs.transcript.toList ++ inputs.evals.toList)))))

/-- The tree of the entries is stored with all its blobs. -/
structure HoldsTree (files : Files) (entries : BTreeMap String Bytes) : Prop where
  tree : entries.entries ≠ [] →
    Has P files ((Object.tree (treeOf P entries)).hash P) (.tree (treeOf P entries))
  blobs : ∀ e ∈ entries.entries, Has P files (P.of e.2) (.blob ⟨e.2⟩)

def HoldsBlob (files : Files) (payload : Option Bytes) : Prop :=
  ∀ bytes ∈ payload, Has P files (P.of bytes) (.blob ⟨bytes⟩)

/-- All that the commit of the inputs refers to is stored, except for its parent and its
memory snapshot, which the inputs name. -/
structure HoldsInputs (files : Files) (inputs : CommitInputs Hash) : Prop where
  prompts : HoldsTree P files inputs.prompts
  tools : HoldsTree P files inputs.tools
  model : HoldsBlob P files (modelBytes inputs.model)
  intent : HoldsBlob P files inputs.intent
  plan : HoldsBlob P files inputs.plan
  transcript : HoldsBlob P files inputs.transcript
  evals : HoldsBlob P files inputs.evals

variable {P}

omit [DecidableEq Hash] in
theorem treeOf_entries (entries : BTreeMap String Bytes) :
    (treeOf P entries).entries.entries = entries.entries.map (fun e => (e.1, ⟨.blob, P.of e.2⟩)) := by
  have keys : (entries.entries.map (fun e => (e.1, (⟨.blob, P.of e.2⟩ : TypedRef Hash)))).map Prod.fst =
      entries.entries.map Prod.fst := by
    rw [List.map_map]
    rfl
  have whole := BTreeMap.ofList_entries (entries.setValues _ keys)
  exact congrArg BTreeMap.entries whole

theorem HoldsTree.mono {files files' : Files} {entries : BTreeMap String Bytes}
    (h : HoldsTree P files entries) (more : Widens P files files') : HoldsTree P files' entries :=
  ⟨fun some_ => (h.tree some_).mono more, fun e he => (h.blobs e he).mono more⟩

theorem HoldsBlob.mono {files files' : Files} {payload : Option Bytes}
    (h : HoldsBlob P files payload) (more : Widens P files files') : HoldsBlob P files' payload :=
  fun bytes hb => (h bytes hb).mono more

section

variable {K : Kinds P} {files₀ files : Files} {faults : Prop}

theorem stageEntries_safe (exemptPrefixes : List String) (entries : List (String × Bytes))
    (tree : Tree Hash) (blobs : ∀ e ∈ entries, K.kindOf (P.of e.2) = .blob)
    (kept : Retains K files₀ files) :
    (stageEntries P S exemptPrefixes entries tree).Safe faults (Retains K files₀)
      (fun r files' => Retains K files files' ∧ Retains K files₀ files' ∧ ∀ t, r = .ok t →
        t = ⟨entries.foldl (fun m e => m.insert e.1 ⟨.blob, P.of e.2⟩) tree.entries⟩ ∧
        ∀ e ∈ entries, Has P files' (P.of e.2) (.blob ⟨e.2⟩)) files := by
  induction entries generalizing tree files with
  | nil =>
    refine ⟨Retains.refl kept.typed, kept, ?_⟩
    rintro t ⟨⟩
    exact ⟨rfl, nofun⟩
  | cons e rest ih =>
    obtain ⟨name, bytes⟩ := e
    have kind : K.kindOf ((Object.blob ⟨bytes⟩ : Object Hash).hash P) = .blob :=
      blobs (name, bytes) List.mem_cons_self
    refine Program.Safe.bind ((put_safe S kind (Retains.refl kept.typed)).mono
      (fun _ h => kept.trans h) ?_)
    rintro (e | hash) files' ⟨kept', put⟩
    · exact ⟨kept', kept.trans kept', nofun⟩
    · obtain ⟨rfl, has⟩ := put hash rfl
      refine (ih _ (fun e he => blobs e (List.mem_cons_of_mem _ he)) (kept.trans kept')).mono
        (fun _ h => h) ?_
      rintro r files'' ⟨kept'', all, done⟩
      refine ⟨kept'.trans kept'', all, fun t ht => ?_⟩
      obtain ⟨rfl, others⟩ := done t ht
      refine ⟨rfl, fun e he => ?_⟩
      rcases List.mem_cons.mp he with rfl | he
      · exact has.mono kept''.widens
      · exact others e he

theorem stageBlobTree_safe (entries : BTreeMap String Bytes) (exemptPrefixes : List String)
    (blobs : ∀ e ∈ entries.entries, K.kindOf (P.of e.2) = .blob) (kept : Retains K files₀ files) :
    (stageBlobTree P S entries exemptPrefixes).Safe faults (Retains K files₀)
      (fun r files' => Retains K files files' ∧ ∀ h, r = .ok h →
        h = treeHash? P entries ∧ HoldsTree P files' entries) files := by
  unfold stageBlobTree
  split
  · rename_i empty
    refine ⟨Retains.refl kept.typed, ?_⟩
    rintro h ⟨⟩
    refine ⟨by rw [treeHash?, if_pos empty], fun some_ => absurd empty some_, fun e he => ?_⟩
    rw [empty] at he
    cases he
  · rename_i some_
    refine Program.Safe.bind ((stageEntries_safe S exemptPrefixes _ _ blobs kept).mono
      (fun _ h => h) ?_)
    rintro (e | tree) files' ⟨kept', all, staged⟩
    · exact ⟨kept', nofun⟩
    · obtain ⟨whole, held⟩ := staged tree rfl
      have same : tree = treeOf P entries := by
        rw [whole, treeOf, BTreeMap.ofList, List.foldl_map]
      subst same
      refine Program.Safe.bind ((put_safe S (K.tree _) (Retains.refl kept'.typed)).mono
        (fun _ h => all.trans h) ?_)
      rintro (e | hash) files'' ⟨kept'', put⟩
      · exact ⟨kept'.trans kept'', nofun⟩
      · obtain ⟨rfl, has⟩ := put hash rfl
        refine ⟨kept'.trans kept'', ?_⟩
        rintro h ⟨⟩
        refine ⟨by rw [treeHash?, if_neg some_], fun _ => has, fun e he => ?_⟩
        exact (held e he).mono kept''.widens

theorem stageOptionalBlob_safe (payload : Option Bytes)
    (blob : ∀ bytes ∈ payload, K.kindOf (P.of bytes) = .blob) (kept : Retains K files₀ files) :
    (stageOptionalBlob P S payload).Safe faults (Retains K files₀)
      (fun r files' => Retains K files files' ∧ ∀ h, r = .ok h →
        h = payload.map P.of ∧ HoldsBlob P files' payload) files := by
  cases payload with
  | none =>
    refine ⟨Retains.refl kept.typed, ?_⟩
    rintro h ⟨⟩
    exact ⟨rfl, nofun⟩
  | some bytes =>
    have kind : K.kindOf ((Object.blob ⟨bytes⟩ : Object Hash).hash P) = .blob := blob bytes rfl
    refine Program.Safe.bind ((put_safe S kind (Retains.refl kept.typed)).mono
      (fun _ h => kept.trans h) ?_)
    rintro (e | hash) files' ⟨kept', put⟩
    · exact ⟨kept', nofun⟩
    · obtain ⟨rfl, has⟩ := put hash rfl
      refine ⟨kept', ?_⟩
      rintro h ⟨⟩
      refine ⟨rfl, ?_⟩
      rintro b ⟨⟩
      exact has

omit [DecidableEq Hash] in
theorem Retains.bind {α β : Type} {p : Program Files (Error Hash) α}
    {k : α → Program Files (Error Hash) β} {gives : α → Files → Prop}
    {post : Except (Error Hash) β → Files → Prop}
    (first : p.Safe faults (Retains K files₀)
      (fun r files' => Retains K files files' ∧ ∀ a, r = .ok a → gives a files') files)
    (failed : ∀ e files', Retains K files files' → post (.error e) files')
    (next : ∀ a files', Retains K files files' → gives a files' →
      (k a).Safe faults (Retains K files₀) post files') : (p.bind k).Safe faults (Retains K files₀) post files := by
  refine Program.Safe.bind (first.mono (fun _ h => h) ?_)
  rintro (e | a) files' ⟨kept, given⟩
  · exact failed e files' kept
  · exact next a files' kept (given a rfl)

theorem stageCommit_safe (inputs : CommitInputs Hash) (now : Int)
    (blobs : ∀ bytes ∈ inputs.contents, K.kindOf (P.of bytes) = .blob) (kept : Retains K files₀ files) :
    (stageCommit P S inputs now).Safe faults (Retains K files₀)
      (fun r files' => Retains K files₀ files' ∧ ∀ h, r = .ok h →
        h = (Object.commit (inputs.commit P now)).hash P ∧
        Has P files' h (.commit (inputs.commit P now)) ∧ HoldsInputs P files' inputs) files := by
  simp only [CommitInputs.contents, List.mem_append, or_imp, forall_and, Option.mem_toList,
    List.forall_mem_map] at blobs
  obtain ⟨ofPrompts, ofTools, ofModel, ofIntent, ofPlan, ofTranscript, ofEvals⟩ := blobs
  refine Retains.bind (stageBlobTree_safe S _ _ ofPrompts kept) (fun _ _ h => ⟨kept.trans h, nofun⟩) ?_
  rintro prompts f₁ k₁ ⟨rfl, heldPrompts⟩
  have all₁ := kept.trans k₁
  refine Retains.bind (stageBlobTree_safe S _ _ ofTools all₁) (fun _ _ h => ⟨all₁.trans h, nofun⟩) ?_
  rintro tools f₂ k₂ ⟨rfl, heldTools⟩
  have all₂ := all₁.trans k₂
  refine Retains.bind (stageOptionalBlob_safe S _ ofModel all₂) (fun _ _ h => ⟨all₂.trans h, nofun⟩) ?_
  rintro model f₃ k₃ ⟨rfl, heldModel⟩
  have all₃ := all₂.trans k₃
  refine Retains.bind (stageOptionalBlob_safe S _ ofIntent all₃) (fun _ _ h => ⟨all₃.trans h, nofun⟩) ?_
  rintro intent f₄ k₄ ⟨rfl, heldIntent⟩
  have all₄ := all₃.trans k₄
  refine Retains.bind (stageOptionalBlob_safe S _ ofPlan all₄) (fun _ _ h => ⟨all₄.trans h, nofun⟩) ?_
  rintro plan f₅ k₅ ⟨rfl, heldPlan⟩
  have all₅ := all₄.trans k₅
  refine Retains.bind (stageOptionalBlob_safe S _ ofTranscript all₅) (fun _ _ h => ⟨all₅.trans h, nofun⟩) ?_
  rintro transcript f₆ k₆ ⟨rfl, heldTranscript⟩
  have all₆ := all₅.trans k₆
  refine Retains.bind (stageOptionalBlob_safe S _ ofEvals all₆) (fun _ _ h => ⟨all₆.trans h, nofun⟩) ?_
  rintro evals f₇ k₇ ⟨rfl, heldEvals⟩
  have all₇ := all₆.trans k₇
  refine (put_safe S (K.commit (inputs.commit P now)) (Retains.refl k₇.typed)).mono
    (fun _ h => all₇.trans h) ?_
  rintro r f₈ ⟨k₈, put⟩
  refine ⟨all₇.trans k₈, fun h ok => ?_⟩
  obtain ⟨rfl, has⟩ := put h ok
  have from₇ := k₈.widens
  have from₆ := k₇.widens.trans from₇
  have from₅ := k₆.widens.trans from₆
  have from₄ := k₅.widens.trans from₅
  have from₃ := k₄.widens.trans from₄
  have from₂ := k₃.widens.trans from₃
  have from₁ := k₂.widens.trans from₂
  exact ⟨rfl, has, heldPrompts.mono from₁, heldTools.mono from₂, heldModel.mono from₃,
    heldIntent.mono from₄, heldPlan.mono from₅, heldTranscript.mono from₆, heldEvals.mono from₇⟩

/-- Staging that succeeds: the commit of the inputs is stored with all it refers to, and the
branch points at it. -/
structure Staged (P : Platform Hash) (w : String → Option Hash) (branch : String)
    (inputs : CommitInputs Hash) (now : Int) (out : CommitOutputs Hash) (r : Repository) : Prop where
  same : out = { commitHash := (Object.commit (inputs.commit P now)).hash P, branch }
  has : Has P r.objects out.commitHash (.commit (inputs.commit P now))
  holds : HoldsInputs P r.objects inputs
  valid : branchRejection branch = none
  refs : Refs.Refines P (Function.update w branch (some out.commitHash)) r.agentic

theorem onObjects_safe {ε α : Type} {p : Program Files ε α} {inv : Repository → Prop}
    {post : Except ε α → Repository → Prop} {r : Repository}
    (safe : p.Safe faults (fun objects => inv { r with objects })
      (fun result objects => post result { r with objects }) r.objects) :
    (Repository.onObjects p).Safe faults inv post r :=
  Program.Safe.focus (fun _ _ => rfl) (fun _ _ _ => rfl) (fun _ => rfl) safe

theorem onRefs_safe {ε α : Type} {p : Program (FileTree TextFile) ε α} {inv : Repository → Prop}
    {post : Except ε α → Repository → Prop} {r : Repository}
    (safe : p.Safe faults (fun agentic => inv { r with agentic })
      (fun result agentic => post result { r with agentic }) r.agentic) :
    (Repository.onRefs p).Safe faults inv post r :=
  Program.Safe.focus (fun _ _ => rfl) (fun _ _ _ => rfl) (fun _ => rfl) safe

theorem stageAndCommit_safe {w : String → Option Hash} {r : Repository} {branch : String}
    (inputs : CommitInputs Hash) (now : Int) (typed : K.Typed r.objects)
    (refines : Refs.Refines P w r.agentic)
    (blobs : ∀ bytes ∈ inputs.contents, K.kindOf (P.of bytes) = .blob) :
    (stageAndCommitWithNow P S branch inputs now).Safe faults
      (fun r' => Retains K r.objects r'.objects ∧ Refs.Confined r.agentic r'.agentic ∧
        Refs.Refines P w r'.agentic)
      (fun result r' => Retains K r.objects r'.objects ∧ Refs.Confined r.agentic r'.agentic ∧
        match result with
        | .ok out => Staged P w branch inputs now out r'
        | .error _ => Refs.Refines P w r'.agentic) r := by
  refine Program.Safe.bind (onObjects_safe ((stageCommit_safe S inputs now blobs
    (Retains.refl typed)).mono (fun _ kept => ⟨kept, fun _ _ => rfl, refines⟩) ?_))
  rintro (e | hash) objects ⟨kept, staged⟩
  · exact ⟨kept, fun _ _ => rfl, refines⟩
  obtain ⟨rfl, has, holds⟩ := staged hash rfl
  refine Program.Safe.bind (onRefs_safe ((Refs.writeBranch_safe refines branch _).mono
    (fun _ ⟨same, confined⟩ => ⟨kept, confined, same⟩) ?_))
  rintro (e | _) agentic ⟨confined, ended⟩
  · exact ⟨kept, confined, ended⟩
  · exact ⟨kept, confined, rfl, has, holds, ended.1, ended.2⟩

end

end

end GitAgentic
