import GitAgentic.Core.Staging

/-! Staging that nothing disturbs: it succeeds when the scanner accepts all contents, and
the addresses hold what was put there first. -/
namespace GitAgentic

variable {Hash : Type} [DecidableEq Hash] (P : Platform Hash) (S : FsObjectStore Hash)

/-- The scanner finds nothing in the content, or its hash is allowed. -/
def FsObjectStore.Accepts (bytes : Bytes) (policy : ScanPolicy) : Prop :=
  S.scanner.scanWith bytes policy = [] ∨ P.of bytes ∈ S.allowlist

def Object.write (o : Object Hash) : Hash × Bytes := (o.hash P, P.encodeAll (P.toVec (o.toJson P)))

/-- The program puts the objects, in this order, and returns the value. -/
def Puts {α : Type} (p : Program Files (Error Hash) α) (files : Files) (a : α)
    (objects : List (Object Hash)) : Prop :=
  ∃ files', p.run files = (.ok a, files') ∧
    slots P files' = WriteOnce.puts (slots P files) (objects.map (Object.write P))

variable {P S}

omit [DecidableEq Hash] in
theorem run_onObjects {ε α : Type} (p : Program Files ε α) (r : Repository) :
    (Repository.onObjects p).run r = ((p.run r.objects).1, { r with objects := (p.run r.objects).2 }) := by
  rw [Repository.onObjects, Program.run_focus]
  all_goals intros; rfl

omit [DecidableEq Hash] in
theorem run_onRefs {ε α : Type} (p : Program (FileTree TextFile) ε α) (r : Repository) :
    (Repository.onRefs p).run r = ((p.run r.agentic).1, { r with agentic := (p.run r.agentic).2 }) := by
  rw [Repository.onRefs, Program.run_focus]
  all_goals intros; rfl

theorem Puts.value {α : Type} (a : α) (files : Files) :
    Puts P (.done (.ok a) : Program Files (Error Hash) α) files a [] := ⟨files, rfl, rfl⟩

theorem Puts.bind {α β : Type} {p : Program Files (Error Hash) α} {k : α → Program Files (Error Hash) β}
    {files : Files} {a : α} {b : β} {first second : List (Object Hash)} (puts : Puts P p files a first)
    (next : ∀ files', Puts P (k a) files' b second) : Puts P (p.bind k) files b (first ++ second) := by
  obtain ⟨files', run, slots'⟩ := puts
  obtain ⟨files'', run', slots''⟩ := next files'
  refine ⟨files'', ?_, ?_⟩
  · rw [Program.run_bind, run]
    exact run'
  · rw [slots'', slots', List.map_append, WriteOnce.puts, WriteOnce.puts, WriteOnce.puts,
      List.foldl_append]

theorem putProgram_puts {o : Object Hash} {policy : ScanPolicy}
    (accepted : ∀ b, o = .blob b → S.Accepts P b.bytes policy) (files : Files) :
    Puts P (S.putProgram P o policy) files (o.hash P) [o] := by
  have put : S.putWithPolicy P o policy files = (.ok (o.hash P),
      if (files (pathFor P (o.hash P))).isSome then files
      else writeAt P files (pathFor P (o.hash P)) (P.toVec (o.toJson P))) := by
    cases o with
    | blob b => exact if_neg (fun refused => (accepted b rfl).elim refused.1 refused.2)
    | tree t => simp [FsObjectStore.putWithPolicy]
    | commit c => simp [FsObjectStore.putWithPolicy]
  rw [Puts, run_putProgram, put]
  exact ⟨_, rfl, slots_store P files _ _⟩

theorem stageEntries_puts (exemptPrefixes : List String) (entries : List (String × Bytes))
    (tree : Tree Hash)
    (accepted : ∀ e ∈ entries, S.Accepts P e.2 (entryPolicy exemptPrefixes e.1)) (files : Files) :
    Puts P (stageEntries P S exemptPrefixes entries tree) files
      ⟨entries.foldl (fun m e => m.insert e.1 ⟨.blob, P.of e.2⟩) tree.entries⟩
      (entries.map (fun e => .blob ⟨e.2⟩)) := by
  induction entries generalizing tree files with
  | nil => exact Puts.value _ files
  | cons e rest ih =>
    refine Puts.bind (putProgram_puts ?_ files) (fun files' => ih _ ?_ files')
    · rintro b ⟨⟩
      exact accepted e List.mem_cons_self
    · exact fun e' mem => accepted e' (List.mem_cons_of_mem e mem)

variable (P) in
def treeObjects (entries : BTreeMap String Bytes) : List (Object Hash) :=
  if entries.entries = [] then []
  else entries.entries.map (fun e => .blob ⟨e.2⟩) ++ [.tree (treeOf P entries)]

theorem stageBlobTree_puts (entries : BTreeMap String Bytes) (exemptPrefixes : List String)
    (accepted : ∀ e ∈ entries.entries, S.Accepts P e.2 (entryPolicy exemptPrefixes e.1))
    (files : Files) :
    Puts P (stageBlobTree P S entries exemptPrefixes) files (treeHash? P entries)
      (treeObjects P entries) := by
  unfold stageBlobTree treeHash? treeObjects
  by_cases empty : entries.entries = []
  · rw [if_pos empty, if_pos empty, if_pos empty]
    exact Puts.value _ files
  · rw [if_neg empty, if_neg empty, if_neg empty]
    have whole : (⟨entries.entries.foldl (fun m e => m.insert e.1 ⟨.blob, P.of e.2⟩) BTreeMap.empty⟩ :
        Tree Hash) = treeOf P entries := by
      rw [treeOf, BTreeMap.ofList, List.foldl_map]
    refine Puts.bind (whole ▸ stageEntries_puts _ _ _ accepted files) (fun files' => ?_)
    refine Puts.bind (putProgram_puts ?_ files') (fun f => Puts.value _ f)
    intro b same
    cases same

theorem stageOptionalBlob_puts (payload : Option Bytes)
    (accepted : ∀ bytes ∈ payload, S.Accepts P bytes {}) (files : Files) :
    Puts P (stageOptionalBlob P S payload) files (payload.map P.of)
      (payload.toList.map (fun bytes => .blob ⟨bytes⟩)) := by
  cases payload with
  | none => exact Puts.value _ files
  | some bytes =>
    refine Puts.bind (putProgram_puts ?_ files) (fun f => Puts.value _ f)
    rintro b ⟨⟩
    exact accepted bytes rfl

variable (P S) in
/-- The scanner accepts every blob of the inputs. -/
structure FsObjectStore.AcceptsInputs (inputs : CommitInputs Hash) : Prop where
  prompts : ∀ e ∈ inputs.prompts.entries,
    S.Accepts P e.2 (entryPolicy inputs.exemptEntropyPrefixes e.1)
  tools : ∀ e ∈ inputs.tools.entries, S.Accepts P e.2 (entryPolicy inputs.exemptEntropyPrefixes e.1)
  model : ∀ bytes ∈ modelBytes inputs.model, S.Accepts P bytes {}
  intent : ∀ bytes ∈ inputs.intent, S.Accepts P bytes {}
  plan : ∀ bytes ∈ inputs.plan, S.Accepts P bytes {}
  transcript : ∀ bytes ∈ inputs.transcript, S.Accepts P bytes {}
  evals : ∀ bytes ∈ inputs.evals, S.Accepts P bytes {}

variable (P) in
/-- What staging puts, in this order. -/
def CommitInputs.objects (inputs : CommitInputs Hash) (now : Int) : List (Object Hash) :=
  let blob (payload : Option Bytes) : List (Object Hash) :=
    payload.toList.map (fun bytes => .blob ⟨bytes⟩)
  treeObjects P inputs.prompts ++ (treeObjects P inputs.tools ++ (blob (modelBytes inputs.model) ++
    (blob inputs.intent ++ (blob inputs.plan ++ (blob inputs.transcript ++
      (blob inputs.evals ++ [.commit (inputs.commit P now)]))))))

omit [DecidableEq Hash] in
theorem CommitInputs.commit_mem_objects (inputs : CommitInputs Hash) (now : Int) :
    .commit (inputs.commit P now) ∈ inputs.objects P now := by
  simp [CommitInputs.objects]

theorem stageCommit_puts {inputs : CommitInputs Hash} (accepted : S.AcceptsInputs P inputs)
    (now : Int) (files : Files) :
    Puts P (stageCommit P S inputs now) files ((Object.commit (inputs.commit P now)).hash P)
      (inputs.objects P now) := by
  refine Puts.bind (stageBlobTree_puts _ _ accepted.prompts files) (fun f₁ => ?_)
  refine Puts.bind (stageBlobTree_puts _ _ accepted.tools f₁) (fun f₂ => ?_)
  refine Puts.bind (stageOptionalBlob_puts _ accepted.model f₂) (fun f₃ => ?_)
  refine Puts.bind (stageOptionalBlob_puts _ accepted.intent f₃) (fun f₄ => ?_)
  refine Puts.bind (stageOptionalBlob_puts _ accepted.plan f₄) (fun f₅ => ?_)
  refine Puts.bind (stageOptionalBlob_puts _ accepted.transcript f₅) (fun f₆ => ?_)
  refine Puts.bind (stageOptionalBlob_puts _ accepted.evals f₆) (fun f₇ => ?_)
  refine putProgram_puts ?_ f₇
  intro b same
  cases same

/- A staging that succeeds has had all its contents accepted. -/

theorem putProgram_accepted {o : Object Hash} {policy : ScanPolicy} {files files' : Files} {hash : Hash}
    (ran : (S.putProgram P o policy).run files = (.ok hash, files')) (b : Blob) (blob : o = .blob b) :
    S.Accepts P b.bytes policy := by
  subst blob
  rw [run_putProgram] at ran
  by_contra refused
  obtain ⟨found, missing⟩ := not_or.mp refused
  rw [FsObjectStore.putWithPolicy, if_pos ⟨found, missing⟩] at ran
  cases ran

theorem stageEntries_accepted {exemptPrefixes : List String} {entries : List (String × Bytes)}
    {tree tree' : Tree Hash} {files files' : Files}
    (ran : (stageEntries P S exemptPrefixes entries tree).run files = (.ok tree', files')) :
    ∀ e ∈ entries, S.Accepts P e.2 (entryPolicy exemptPrefixes e.1) := by
  induction entries generalizing tree files with
  | nil => nofun
  | cons e rest ih =>
    obtain ⟨hash, files₁, first, others⟩ := Program.run_bind_eq_ok_iff.mp ran
    exact List.forall_mem_cons.mpr ⟨putProgram_accepted first _ rfl, ih others⟩

theorem stageBlobTree_accepted {entries : BTreeMap String Bytes} {exemptPrefixes : List String}
    {found : Option Hash} {files files' : Files}
    (ran : (stageBlobTree P S entries exemptPrefixes).run files = (.ok found, files')) :
    ∀ e ∈ entries.entries, S.Accepts P e.2 (entryPolicy exemptPrefixes e.1) := by
  unfold stageBlobTree at ran
  by_cases empty : entries.entries = []
  · rw [empty]
    nofun
  · rw [if_neg empty] at ran
    obtain ⟨tree, files₁, staged, _⟩ := Program.run_bind_eq_ok_iff.mp ran
    exact stageEntries_accepted staged

theorem stageOptionalBlob_accepted {payload : Option Bytes} {found : Option Hash} {files files' : Files}
    (ran : (stageOptionalBlob P S payload).run files = (.ok found, files')) :
    ∀ bytes ∈ payload, S.Accepts P bytes {} := by
  cases payload with
  | none => nofun
  | some bytes =>
    obtain ⟨hash, files₁, put, _⟩ := Program.run_bind_eq_ok_iff.mp ran
    rintro _ ⟨⟩
    exact putProgram_accepted put _ rfl

theorem stageCommit_accepted {inputs : CommitInputs Hash} {now : Int} {hash : Hash}
    {files files' : Files} (ran : (stageCommit P S inputs now).run files = (.ok hash, files')) :
    S.AcceptsInputs P inputs := by
  obtain ⟨_, f₁, prompts, ran⟩ := Program.run_bind_eq_ok_iff.mp ran
  obtain ⟨_, f₂, tools, ran⟩ := Program.run_bind_eq_ok_iff.mp ran
  obtain ⟨_, f₃, model, ran⟩ := Program.run_bind_eq_ok_iff.mp ran
  obtain ⟨_, f₄, intent, ran⟩ := Program.run_bind_eq_ok_iff.mp ran
  obtain ⟨_, f₅, plan, ran⟩ := Program.run_bind_eq_ok_iff.mp ran
  obtain ⟨_, f₆, transcript, ran⟩ := Program.run_bind_eq_ok_iff.mp ran
  obtain ⟨_, f₇, evals, _⟩ := Program.run_bind_eq_ok_iff.mp ran
  exact ⟨stageBlobTree_accepted prompts, stageBlobTree_accepted tools,
    stageOptionalBlob_accepted model, stageOptionalBlob_accepted intent,
    stageOptionalBlob_accepted plan, stageOptionalBlob_accepted transcript,
    stageOptionalBlob_accepted evals⟩

theorem stageCommit_staged {inputs : CommitInputs Hash} {now : Int} {hash : Hash}
    {files files' : Files} (ran : (stageCommit P S inputs now).run files = (.ok hash, files')) :
    hash = (Object.commit (inputs.commit P now)).hash P ∧
      slots P files' =
        WriteOnce.puts (slots P files) ((inputs.objects P now).map (Object.write P)) := by
  obtain ⟨files'', ran', put⟩ := stageCommit_puts (stageCommit_accepted ran) now files
  rw [ran] at ran'
  cases ran'
  exact ⟨rfl, put⟩

/-- What a staging and commit that succeeds has done. -/
structure StagedRun (P : Platform Hash) (branch : String) (inputs : CommitInputs Hash) (now : Int)
    (r r' : Repository) (out : CommitOutputs Hash) : Prop where
  address : out.commitHash = (Object.commit (inputs.commit P now)).hash P
  named : out.branch = branch
  objects : slots P r'.objects =
    WriteOnce.puts (slots P r.objects) ((inputs.objects P now).map (Object.write P))
  refs : (Refs.writeBranch P branch out.commitHash).run r.agentic = (.ok (), r'.agentic)

theorem stageAndCommit_staged {branch : String} {inputs : CommitInputs Hash} {now : Int}
    {r r' : Repository} {out : CommitOutputs Hash}
    (ran : (stageAndCommitWithNow P S branch inputs now).run r = (.ok out, r')) :
    StagedRun P branch inputs now r r' out := by
  obtain ⟨hash, r₁, staged, ran⟩ := Program.run_bind_eq_ok_iff.mp ran
  obtain ⟨_, r₂, moved, ended⟩ := Program.run_bind_eq_ok_iff.mp ran
  cases ended
  rw [run_onObjects] at staged
  obtain ⟨ok, rfl⟩ := Prod.mk.inj staged
  have objects := stageCommit_staged (Prod.ext ok rfl)
  rw [run_onRefs] at moved
  obtain ⟨ok', rfl⟩ := Prod.mk.inj moved
  exact ⟨objects.1, rfl, objects.2, Prod.ext ok' rfl⟩

omit [DecidableEq Hash] in
variable (P) in
/-- The address of the object holds the object, if anything. -/
def Unshared (files : Files) (o : Object Hash) : Prop :=
  ∀ compressed, slots P files (o.hash P) = some compressed → compressed = (o.write P).2

theorem has_of_puts {before staged files : Files} {objects : List (Object Hash)} {o : Object Hash}
    (put : slots P staged = WriteOnce.puts (slots P before) (objects.map (Object.write P)))
    (mem : o ∈ objects) (kept : Widens P staged files) (unshared : Unshared P files o) :
    Has P files (o.hash P) o := by
  have taken : (slots P staged (o.hash P)).isSome = true := by
    rw [put, WriteOnce.puts_apply, Option.isSome_or, Bool.or_eq_true, Option.isSome_map]
    refine Or.inr (List.find?_isSome.mpr ⟨o.write P, List.mem_map_of_mem mem, ?_⟩)
    exact decide_eq_true rfl
  obtain ⟨compressed, slot⟩ := Option.isSome_iff_exists.mp taken
  have final := kept _ _ slot
  have own := unshared compressed final
  subst own
  exact has_of_slot final

theorem unshared_of_puts {files : Files} {objects : List (Object Hash)}
    (put : slots P files = WriteOnce.puts (fun _ => none) (objects.map (Object.write P)))
    (apart : ∀ o ∈ objects, ∀ o' ∈ objects, o.hash P = o'.hash P → (o.write P).2 = (o'.write P).2)
    {o : Object Hash} (mem : o ∈ objects) : Unshared P files o := by
  intro compressed slot
  have own : WriteOnce.puts (fun _ => none) (objects.map (Object.write P)) (o.write P).1 =
      some (o.write P).2 := by
    refine WriteOnce.puts_of_mem ?_ (List.mem_map_of_mem mem)
    intro v hv w hw same
    obtain ⟨a, ha, rfl⟩ := List.mem_map.mp hv
    obtain ⟨b, hb, rfl⟩ := List.mem_map.mp hw
    exact apart a ha b hb same
  rw [put] at slot
  exact Option.some.inj (slot.symm.trans own)

omit [DecidableEq Hash] in
theorem CommitInputs.forall_objects {inputs : CommitInputs Hash} {now : Int} {p : Object Hash → Prop} :
    (∀ o ∈ inputs.objects P now, p o) ↔
      (∀ o ∈ treeObjects P inputs.prompts, p o) ∧ (∀ o ∈ treeObjects P inputs.tools, p o) ∧
      (∀ bytes ∈ modelBytes inputs.model, p (.blob ⟨bytes⟩)) ∧
      (∀ bytes ∈ inputs.intent, p (.blob ⟨bytes⟩)) ∧ (∀ bytes ∈ inputs.plan, p (.blob ⟨bytes⟩)) ∧
      (∀ bytes ∈ inputs.transcript, p (.blob ⟨bytes⟩)) ∧ (∀ bytes ∈ inputs.evals, p (.blob ⟨bytes⟩)) ∧
      p (.commit (inputs.commit P now)) := by
  simp only [CommitInputs.objects, List.forall_mem_append, List.forall_mem_map, Option.mem_toList,
    Option.mem_def, List.forall_mem_singleton]

theorem HoldsTree.of_objects {files : Files} {x : BTreeMap String Bytes}
    (held : ∀ o ∈ treeObjects P x, Has P files (o.hash P) o) : HoldsTree P files x := by
  unfold treeObjects at held
  by_cases empty : x.entries = []
  · refine ⟨fun some_ => absurd empty some_, fun e mem => ?_⟩
    rw [empty] at mem
    cases mem
  · rw [if_neg empty, List.forall_mem_append, List.forall_mem_map, List.forall_mem_singleton] at held
    exact ⟨fun _ => held.2, held.1⟩

theorem HoldsInputs.of_objects {files : Files} {inputs : CommitInputs Hash} {now : Int}
    (held : ∀ o ∈ inputs.objects P now, Has P files (o.hash P) o) : HoldsInputs P files inputs := by
  obtain ⟨prompts, tools, model, intent, plan, transcript, evals, _⟩ :=
    CommitInputs.forall_objects.mp held
  exact ⟨.of_objects prompts, .of_objects tools, model, intent, plan, transcript, evals⟩

theorem run_stageAndCommit {branch : String} {inputs : CommitInputs Hash} {now : Int} {r : Repository}
    {hash : Hash} {objects : Files} {agentic : FileTree TextFile}
    (staged : (stageCommit P S inputs now).run r.objects = (.ok hash, objects))
    (moved : (Refs.writeBranch P branch hash).run r.agentic = (.ok (), agentic)) :
    (stageAndCommitWithNow P S branch inputs now).run r =
      (.ok { commitHash := hash, branch }, { objects, agentic }) := by
  show (Program.bind _ _).run r = _
  rw [Program.run_bind, run_onObjects, staged]
  show (Program.bind _ _).run _ = _
  rw [Program.run_bind, run_onRefs, moved]
  rfl

theorem outcome_of {α β : Type} {x : α × β} {a : α} (ended : x.1 = a) : x = (a, x.2) := ended ▸ rfl

/-- A store whose scanner finds nothing. -/
def FsObjectStore.silent : FsObjectStore Bytes where
  scanner := .silent
  allowlist := []

theorem FsObjectStore.silent_accepts (inputs : CommitInputs Bytes) :
    FsObjectStore.silent.AcceptsInputs Platform.sample inputs := by
  have all : ∀ bytes policy, FsObjectStore.silent.Accepts Platform.sample bytes policy :=
    fun bytes policy => Or.inl (Scanner.scanWith_silent bytes policy)
  exact ⟨fun _ _ => all _ _, fun _ _ => all _ _, fun _ _ => all _ _, fun _ _ => all _ _,
    fun _ _ => all _ _, fun _ _ => all _ _, fun _ _ => all _ _⟩

end GitAgentic
