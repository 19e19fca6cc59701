import GitAgentic.Core.GcsStore
import GitAgentic.Core.RoundTrip
import GitAgentic.Core.StagingRun

/-! Which contents a store can hold. Every write goes through a put, a put is scanned first, and
what it writes lies at the address of its own content. -/
namespace GitAgentic

section

variable {Hash σ : Type} [DecidableEq Hash] (P : Platform Hash)
  (put : Object Hash → ScanPolicy → Program σ (Error Hash) Hash)

/- Staging over any object store. -/

def stageEntriesWith (exemptPrefixes : List String) :
    List (String × Bytes) → Tree Hash → Program σ (Error Hash) (Tree Hash)
  | [], tree => return tree
  | (name, bytes) :: rest, tree => do
    let hash ← put (.blob { bytes }) (entryPolicy exemptPrefixes name)
    stageEntriesWith exemptPrefixes rest
      { entries := tree.entries.insert name { kind := .blob, hash } }

def stageBlobTreeWith (entries : BTreeMap String Bytes) (exemptPrefixes : List String) :
    Program σ (Error Hash) (Option Hash) := do
  if entries.entries = [] then return none
  else
    let tree ← stageEntriesWith put exemptPrefixes entries.entries { entries := BTreeMap.empty }
    return some (← put (.tree tree) {})

def stageOptionalBlobWith : Option Bytes → Program σ (Error Hash) (Option Hash)
  | none => return none
  | some bytes => return some (← put (.blob { bytes }) {})

def stageCommitWith (inputs : CommitInputs Hash) (now : Int) : Program σ (Error Hash) Hash := do
  let prompts ← stageBlobTreeWith put inputs.prompts inputs.exemptEntropyPrefixes
  let tools ← stageBlobTreeWith put inputs.tools inputs.exemptEntropyPrefixes
  let model ← stageOptionalBlobWith put (modelBytes inputs.model)
  let intent ← stageOptionalBlobWith put inputs.intent
  let plan ← stageOptionalBlobWith put inputs.plan
  let transcript ← stageOptionalBlobWith put inputs.transcript
  let evals ← stageOptionalBlobWith put inputs.evals
  put (.commit {
    parent := inputs.parent
    author := inputs.author
    timestamp := now
    message := inputs.message
    codeSha := inputs.codeSha
    prompts, tools, model
    memorySnapshot := inputs.memorySnapshot
    schemaVersion := inputs.schemaVersion
    intent, plan, transcript, evals
    costCents := inputs.costCents
    signatures := []
    peerUid := inputs.peerUid }) {}

theorem stageCommit_eq_with (S : FsObjectStore Hash) (inputs : CommitInputs Hash) (now : Int) :
    stageCommit P S inputs now = stageCommitWith (S.putProgram P) inputs now := by
  have entries : ∀ (exemptPrefixes : List String) (es : List (String × Bytes)) (tree : Tree Hash),
      stageEntries P S exemptPrefixes es tree = stageEntriesWith (S.putProgram P) exemptPrefixes es tree := by
    intro exemptPrefixes es
    induction es with
    | nil => exact fun _ => rfl
    | cons e es ih =>
      intro tree
      simp only [stageEntries, stageEntriesWith, ih]
  have trees : ∀ (es : BTreeMap String Bytes) (exemptPrefixes : List String),
      stageBlobTree P S es exemptPrefixes = stageBlobTreeWith (S.putProgram P) es exemptPrefixes := by
    intro es exemptPrefixes
    simp only [stageBlobTree, stageBlobTreeWith, entries]
  have payloads : ∀ payload, stageOptionalBlob P S payload = stageOptionalBlobWith (S.putProgram P) payload := by
    intro payload
    cases payload <;> rfl
  simp only [stageCommit, stageCommitWith, trees, payloads]

/- The puts of a call, in their order. -/

def treePuts (entries : BTreeMap String Bytes) (exemptPrefixes : List String) : List (Call Hash) :=
  if entries.entries = [] then []
  else entries.entries.map (fun e => .put (.blob ⟨e.2⟩) (entryPolicy exemptPrefixes e.1)) ++
    [.put (.tree (treeOf P entries)) {}]

def payloadPuts (payload : Option Bytes) : List (Call Hash) :=
  payload.toList.map (fun bytes => .put (.blob ⟨bytes⟩) {})

def CommitInputs.puts (inputs : CommitInputs Hash) (now : Int) : List (Call Hash) :=
  treePuts P inputs.prompts inputs.exemptEntropyPrefixes ++
    (treePuts P inputs.tools inputs.exemptEntropyPrefixes ++ (payloadPuts (modelBytes inputs.model) ++
      (payloadPuts inputs.intent ++ (payloadPuts inputs.plan ++ (payloadPuts inputs.transcript ++
        (payloadPuts inputs.evals ++ [.put (.commit (inputs.commit P now)) {}]))))))

/-- A call of the object store. The branch ref that staging writes in the end is no object. -/
inductive StoreCall (Hash : Type) where
  | put (c : Call Hash)
  | stageAndCommit (inputs : CommitInputs Hash) (now : Int)

def StoreCall.puts : StoreCall Hash → List (Call Hash)
  | .put c => [c]
  | .stageAndCommit inputs now => inputs.puts P now

variable (store : Call Hash → Program σ (Error Hash) Hash)

def StoreCall.program : StoreCall Hash → Program σ (Error Hash) Hash
  | .put c => store c
  | .stageAndCommit inputs now => stageCommitWith (fun o policy => store (.put o policy)) inputs now

def putAll : List (Call Hash) → Program σ (Error Hash) Unit
  | [] => .done (.ok ())
  | c :: cs => (store c).bind (fun _ => putAll cs)

end

section

variable {Hash σ : Type} {P : Platform Hash} {store : Call Hash → Program σ (Error Hash) Hash}

/-- What a put returns is the hash of its content, or an error. -/
def Returns (P : Platform Hash) (store : Call Hash → Program σ (Error Hash) Hash) : Prop :=
  ∀ (c : Call Hash) {β : Type} (k : Hash → Program σ (Error Hash) β),
    (store c).bind k = (store c).bind (fun _ => k (c.hash P))

theorem putAll_append (cs ds : List (Call Hash)) :
    putAll store (cs ++ ds) = (putAll store cs).bind (fun _ => putAll store ds) := by
  induction cs with
  | nil => rfl
  | cons c cs ih =>
    rw [List.cons_append, putAll, putAll, ih, Program.bind_assoc]

theorem putAll_singleton (c : Call Hash) {β : Type} (k : Program σ (Error Hash) β) :
    (putAll store [c]).bind (fun _ => k) = (store c).bind (fun _ => k) := by
  rw [putAll, Program.bind_assoc]
  rfl

theorem stageEntriesWith_eq (returns : Returns P store) (exemptPrefixes : List String)
    (entries : List (String × Bytes)) (tree : Tree Hash) :
    stageEntriesWith (fun o policy => store (.put o policy)) exemptPrefixes entries tree =
      (putAll store (entries.map (fun e => .put (.blob ⟨e.2⟩) (entryPolicy exemptPrefixes e.1)))).bind
        (fun _ => .done (.ok ⟨entries.foldl (fun m e => m.insert e.1 ⟨.blob, P.of e.2⟩) tree.entries⟩)) := by
  induction entries generalizing tree with
  | nil => rfl
  | cons e rest ih =>
    rw [List.map_cons, putAll, Program.bind_assoc]
    refine (returns (.put (.blob ⟨e.2⟩) (entryPolicy exemptPrefixes e.1)) _).trans ?_
    exact congrArg _ (funext fun _ => ih _)

theorem Returns.alone (returns : Returns P store) (c : Call Hash) :
    store c = (store c).bind (fun _ => .done (.ok (c.hash P))) := by
  rw [← returns c (fun hash => .done (.ok hash)), Program.bind_done]

theorem stageBlobTreeWith_eq (returns : Returns P store) (entries : BTreeMap String Bytes)
    (exemptPrefixes : List String) :
    stageBlobTreeWith (fun o policy => store (.put o policy)) entries exemptPrefixes =
      (putAll store (treePuts P entries exemptPrefixes)).bind
        (fun _ => .done (.ok (treeHash? P entries))) := by
  unfold stageBlobTreeWith treePuts treeHash?
  by_cases empty : entries.entries = []
  · rw [if_pos empty, if_pos empty, if_pos empty]
    rfl
  · have whole : (⟨entries.entries.foldl (fun m e => m.insert e.1 ⟨.blob, P.of e.2⟩) BTreeMap.empty⟩ :
        Tree Hash) = treeOf P entries := by
      rw [treeOf, BTreeMap.ofList, List.foldl_map]
    rw [if_neg empty, if_neg empty, if_neg empty, stageEntriesWith_eq returns, putAll_append,
      Program.bind_assoc, whole]
    refine (Program.bind_assoc _ _ _).trans (congrArg _ (funext fun _ => ?_))
    rw [putAll_singleton]
    exact returns (.put (.tree (treeOf P entries)) {}) _

theorem stageOptionalBlobWith_eq (returns : Returns P store) (payload : Option Bytes) :
    stageOptionalBlobWith (fun o policy => store (.put o policy)) payload =
      (putAll store (payloadPuts payload)).bind (fun _ => .done (.ok (payload.map P.of))) := by
  cases payload with
  | none => rfl
  | some bytes =>
    show (store (.put (.blob ⟨bytes⟩) {})).bind _ = (putAll store [.put (.blob ⟨bytes⟩) {}]).bind _
    rw [putAll_singleton]
    exact returns (.put (.blob ⟨bytes⟩) {}) _

theorem staged_then {α β : Type} {p : Program σ (Error Hash) α} {cs ds : List (Call Hash)} {a : α} {b : β}
    {k : α → Program σ (Error Hash) β} (first : p = (putAll store cs).bind (fun _ => .done (.ok a)))
    (rest : k a = (putAll store ds).bind (fun _ => .done (.ok b))) :
    p.bind k = (putAll store (cs ++ ds)).bind (fun _ => .done (.ok b)) := by
  rw [first, putAll_append, Program.bind_assoc, Program.bind_assoc]
  exact congrArg _ (funext fun _ => rest)

theorem stageCommitWith_eq (returns : Returns P store) (inputs : CommitInputs Hash) (now : Int) :
    stageCommitWith (fun o policy => store (.put o policy)) inputs now =
      (putAll store (inputs.puts P now)).bind
        (fun _ => .done (.ok ((Object.commit (inputs.commit P now)).hash P))) := by
  refine staged_then (stageBlobTreeWith_eq returns _ _) ?_
  refine staged_then (stageBlobTreeWith_eq returns _ _) ?_
  refine staged_then (stageOptionalBlobWith_eq returns _) ?_
  refine staged_then (stageOptionalBlobWith_eq returns _) ?_
  refine staged_then (stageOptionalBlobWith_eq returns _) ?_
  refine staged_then (stageOptionalBlobWith_eq returns _) ?_
  refine staged_then (stageOptionalBlobWith_eq returns _) ?_
  rw [putAll_singleton]
  exact returns.alone (.put (.commit (inputs.commit P now)) {})

def StoreCall.hash (P : Platform Hash) : StoreCall Hash → Hash
  | .put c => c.hash P
  | .stageAndCommit inputs now => (Object.commit (inputs.commit P now)).hash P

theorem StoreCall.program_eq (returns : Returns P store) (call : StoreCall Hash) :
    call.program store = (putAll store (call.puts P)).bind (fun _ => .done (.ok (call.hash P))) := by
  cases call with
  | put c =>
    refine (returns.alone c).trans ?_
    rw [StoreCall.puts, putAll_singleton]
    rfl
  | stageAndCommit inputs now => exact stageCommitWith_eq returns inputs now

end

/- An object store as a place where contents are found. -/

section

variable {Hash τ : Type} (P : Platform Hash) (S : FsObjectStore Hash)

/-- What a put may change: nothing when the scanner refuses it; otherwise its own content may be
found at its own address. -/
structure Writes (Found : τ → Hash → Bytes → Prop) (c : Call Hash) (t t' : τ) : Prop where
  refused : ¬ c.Accepted P S → t' = t
  found : ∀ hash bytes, Found t' hash bytes → Found t hash bytes ∨ (hash = c.hash P ∧ bytes = c.stored P)

/-- The contents are found at the addresses in some location of the store. -/
structure Backend (σ τ : Type) where
  store : Call Hash → Program σ (Error Hash) Hash
  contents : σ → τ
  Found : τ → Hash → Bytes → Prop
  returns : Returns P store
  puts : ∀ c s, (store c).Safe True (fun s' => Writes P S Found c (contents s) (contents s'))
    (fun r s' => Writes P S Found c (contents s) (contents s') ∧
      ∀ hits, r = .error (.secretDetected hits) → ¬ c.Accepted P S) s

variable {P S}

theorem Writes.refl {Found : τ → Hash → Bytes → Prop} (c : Call Hash) (t : τ) : Writes P S Found c t t :=
  ⟨fun _ => rfl, fun _ _ h => Or.inl h⟩

namespace Backend

variable {σ : Type} (B : Backend P S σ τ)

/-- What is found was there before, or an accepted put of the list has stored it. -/
def Adds (cs : List (Call Hash)) (s s' : σ) : Prop :=
  ∀ hash bytes, B.Found (B.contents s') hash bytes → B.Found (B.contents s) hash bytes ∨
    ∃ c ∈ cs, c.Accepted P S ∧ hash = c.hash P ∧ bytes = c.stored P

theorem adds_of_writes {c : Call Hash} {s s' : σ}
    (writes : Writes P S B.Found c (B.contents s) (B.contents s')) : B.Adds [c] s s' := by
  intro hash bytes found
  by_cases accepted : c.Accepted P S
  · rcases writes.found hash bytes found with before | own
    · exact Or.inl before
    · exact Or.inr ⟨c, List.mem_singleton_self c, accepted, own⟩
  · rw [writes.refused accepted] at found
    exact Or.inl found

theorem Adds.refl (cs : List (Call Hash)) (s : σ) : B.Adds cs s s := fun _ _ h => Or.inl h

variable {B}

theorem Adds.mono {cs ds : List (Call Hash)} {s s' : σ} (adds : B.Adds cs s s') (more : cs ⊆ ds) :
    B.Adds ds s s' := by
  intro hash bytes found
  exact (adds hash bytes found).imp_right (fun ⟨c, mem, rest⟩ => ⟨c, more mem, rest⟩)

theorem Adds.trans {cs ds : List (Call Hash)} {s s' s'' : σ} (first : B.Adds cs s s')
    (second : B.Adds ds s' s'') : B.Adds (cs ++ ds) s s'' := by
  intro hash bytes found
  rcases second hash bytes found with before | ⟨c, mem, rest⟩
  · exact (first.mono (List.subset_append_left cs ds)) hash bytes before
  · exact Or.inr ⟨c, List.mem_append_right cs mem, rest⟩

variable (B)

/-- The put at which a list of puts was refused, and what those before it have stored. -/
def RefusedAt (cs : List (Call Hash)) (s s' : σ) : Prop :=
  ∃ before c rest, cs = before ++ c :: rest ∧ ¬ c.Accepted P S ∧ B.Adds before s s'

theorem putAll_safe (cs : List (Call Hash)) (s : σ) :
    (putAll B.store cs).Safe True (B.Adds cs s) (fun r s' => B.Adds cs s s' ∧
      ∀ hits, r = .error (.secretDetected hits) → B.RefusedAt cs s s') s := by
  induction cs generalizing s with
  | nil => exact ⟨Adds.refl B [] s, nofun⟩
  | cons c cs ih =>
    refine Program.Safe.bind ((B.puts c s).mono ?_ ?_)
    · exact fun s' writes => (B.adds_of_writes writes).mono (by simp)
    · rintro (e | hash) s' ⟨writes, secret⟩
      · refine ⟨(B.adds_of_writes writes).mono (by simp), ?_⟩
        rintro hits ⟨⟩
        have refused := secret hits rfl
        refine ⟨[], c, cs, rfl, refused, fun hash bytes found => Or.inl ?_⟩
        rw [writes.refused refused] at found
        exact found
      · have one := B.adds_of_writes writes
        refine (ih s').mono (fun s'' adds => one.trans adds) ?_
        rintro r s'' ⟨adds, stopped⟩
        refine ⟨one.trans adds, fun hits same => ?_⟩
        obtain ⟨before, d, rest, rfl, refused, some_⟩ := stopped hits same
        exact ⟨c :: before, d, rest, rfl, refused, one.trans some_⟩

theorem call_safe (call : StoreCall Hash) (s : σ) :
    (call.program B.store).Safe True (B.Adds (call.puts P) s) (fun r s' => B.Adds (call.puts P) s s' ∧
      ∀ hits, r = .error (.secretDetected hits) → B.RefusedAt (call.puts P) s s') s := by
  rw [call.program_eq B.returns]
  refine Program.Safe.bind ((B.putAll_safe _ s).mono (fun _ h => h) ?_)
  rintro (e | _) s' ⟨adds, stopped⟩
  · refine ⟨adds, ?_⟩
    rintro hits ⟨⟩
    exact stopped hits rfl
  · exact ⟨adds, nofun⟩

/-- Calls one after another; each may be stopped between any two operations of the store, and
operations may fail. -/
inductive Ran (s₀ : σ) : List (StoreCall Hash) → σ → Prop where
  | opened : Ran s₀ [] s₀
  | called {calls s p s'} (call : StoreCall Hash) : Ran s₀ calls s →
      Program.Reaches (call.program B.store, s) (p, s') → Ran s₀ (calls ++ [call]) s'

variable {B}

theorem Ran.adds {s₀ s : σ} {calls : List (StoreCall Hash)} (ran : B.Ran s₀ calls s) :
    B.Adds (calls.flatMap (StoreCall.puts P)) s₀ s := by
  induction ran with
  | opened => exact Adds.refl B _ _
  | @called calls s p s' call _ reaches ih =>
    have stopped := (B.call_safe call s).stopped reaches
    have last : B.Adds (call.puts P) s s' := by
      cases outcome : p.result? with
      | none =>
        rw [outcome] at stopped
        exact stopped
      | some r =>
        rw [outcome] at stopped
        exact stopped.1
    rw [List.flatMap_append, List.flatMap_singleton]
    exact ih.trans last

end Backend

end

/- The two stores. -/

section

variable {Hash : Type} [DecidableEq Hash] (P : Platform Hash)

/-- The content lies at the path of the address, or in the temporary file beside it. -/
def Files.Found (files : Files) (hash : Hash) (bytes : Bytes) : Prop :=
  files (pathFor P hash) = some (P.encodeAll bytes) ∨
    files ((pathFor P hash).withExtension "tmp") = some (P.encodeAll bytes)

namespace FsObjectStore

variable (S : FsObjectStore Hash)

def storeCall : Call Hash → Program Files (Error Hash) Hash
  | .put object policy => S.putProgram P object policy
  | .putRaw kind bytes => S.putRawProgram P kind bytes

variable {P S}

theorem storeCall_eq (c : Call Hash) : S.storeCall P c =
    if c.hits S ≠ [] ∧ c.hash P ∉ S.allowlist then .fail (.secretDetected (c.hits S))
    else (storeProgram P (c.hash P) (c.stored P)).bind (fun _ => .done (.ok (c.hash P))) := by
  cases c with
  | put object policy => cases object <;> rfl
  | putRaw kind bytes => rfl

end FsObjectStore

variable {P}

omit [DecidableEq Hash] in
theorem encodeAll_injective : Function.Injective P.encodeAll := by
  intro a b same
  have decoded := P.decodeAll_encodeAll a
  rw [same, P.decodeAll_encodeAll] at decoded
  exact (Option.some.inj decoded).symm

omit [DecidableEq Hash] in
theorem tmp_injective {hash other : Hash}
    (same : (pathFor P hash).withExtension "tmp" = (pathFor P other).withExtension "tmp") : hash = other := by
  refine pathFor_injective P ?_
  have dir := congrArg ObjectPath.dir same
  have stem := congrArg ObjectPath.stem same
  simp only [ObjectPath.withExtension] at dir stem
  simp only [pathFor] at dir stem ⊢
  rw [dir, stem]

omit [DecidableEq Hash] in
theorem found_update {files : Files} {hash other : Hash} {path : ObjectPath} {bytes found : Bytes}
    {content : Option Bytes} (here : path = pathFor P hash ∨ path = (pathFor P hash).withExtension "tmp")
    (own : content = none ∨ content = some (P.encodeAll bytes))
    (there : Files.Found P (Function.update files path content) other found) :
    Files.Found P files other found ∨ (other = hash ∧ found = bytes) := by
  have same : ∀ p, Function.update files path content p = some (P.encodeAll found) →
      files p = some (P.encodeAll found) ∨ (p = path ∧ found = bytes) := by
    intro p held
    by_cases at_ : p = path
    · subst at_
      rw [Function.update_self] at held
      rcases own with none | full
      · rw [none] at held
        cases held
      · rw [full] at held
        exact Or.inr ⟨rfl, (encodeAll_injective (Option.some.inj held)).symm⟩
    · rw [Function.update_of_ne at_] at held
      exact Or.inl held
  rcases there with held | held
  · rcases same _ held with before | ⟨at_, rfl⟩
    · exact Or.inl (Or.inl before)
    · rcases here with rfl | rfl
      · exact Or.inr ⟨pathFor_injective P at_, rfl⟩
      · exact absurd at_ (GcsObjectStore.tmp_ne_path P hash other)
  · rcases same _ held with before | ⟨at_, rfl⟩
    · exact Or.inl (Or.inr before)
    · rcases here with rfl | rfl
      · exact absurd at_.symm (GcsObjectStore.tmp_ne_path P other hash)
      · exact Or.inr ⟨tmp_injective at_, rfl⟩

def OnlyNew (P : Platform Hash) (hash : Hash) (bytes : Bytes) (files files' : Files) : Prop :=
  ∀ other found, files'.Found P other found → files.Found P other found ∨ (other = hash ∧ found = bytes)

omit [DecidableEq Hash] in
theorem OnlyNew.update {hash : Hash} {bytes : Bytes} {files files' : Files} {path : ObjectPath}
    {content : Option Bytes} (before : OnlyNew P hash bytes files files')
    (here : path = pathFor P hash ∨ path = (pathFor P hash).withExtension "tmp")
    (own : content = none ∨ content = some (P.encodeAll bytes)) :
    OnlyNew P hash bytes files (Function.update files' path content) := by
  intro other found there
  rcases found_update here own there with held | new
  · exact before other found held
  · exact Or.inr new

omit [DecidableEq Hash] in
theorem writeAt_onlyNew (hash : Hash) (bytes : Bytes) (files : Files) :
    (writeAtProgram P (pathFor P hash) bytes : Program Files (Error Hash) Unit).Safe True
      (OnlyNew P hash bytes files)
      (fun r files' => OnlyNew P hash bytes files files' ∧ ∀ hits, r ≠ .error (.secretDetected hits))
      files := by
  have same : OnlyNew P hash bytes files files := fun _ _ h => Or.inl h
  refine Program.Safe.bind (Program.Safe.call same ?_ (fun _ => ⟨same, nofun⟩))
  have written := same.update (Or.inr rfl) (Or.inr rfl)
  refine Program.Safe.bind (Program.Safe.call same ?_ (fun _ => ⟨same, nofun⟩))
  refine Program.Safe.call written ?_ (fun _ => ⟨written, nofun⟩)
  simp only [Function.update_self]
  exact ⟨(written.update (Or.inr rfl) (Or.inl rfl)).update (Or.inl rfl) (Or.inr rfl), nofun⟩

omit [DecidableEq Hash] in
theorem store_onlyNew (hash : Hash) (bytes : Bytes) (files : Files) :
    (storeProgram P hash bytes).Safe True (OnlyNew P hash bytes files)
      (fun r files' => OnlyNew P hash bytes files files' ∧ ∀ hits, r ≠ .error (.secretDetected hits))
      files := by
  have same : OnlyNew P hash bytes files files := fun _ _ h => Or.inl h
  refine ⟨same, ?_, fun _ => writeAt_onlyNew hash bytes files⟩
  dsimp only [id]
  split
  · exact ⟨same, nofun⟩
  · exact writeAt_onlyNew hash bytes files

omit [DecidableEq Hash] in
theorem refused_iff {S : FsObjectStore Hash} (c : Call Hash) :
    (c.hits S ≠ [] ∧ c.hash P ∉ S.allowlist) ↔ ¬ c.Accepted P S := by
  rw [Call.Accepted, not_or]
  rfl

/-- The local store. -/
def FsObjectStore.backend (P : Platform Hash) (S : FsObjectStore Hash) : Backend P S Files Files where
  store := S.storeCall P
  contents := id
  Found := Files.Found P
  returns c _ k := by
    rw [S.storeCall_eq c]
    split
    · rfl
    · rw [Program.bind_assoc, Program.bind_assoc]
      rfl
  puts c files := by
    rw [S.storeCall_eq c]
    split
    · rename_i refused
      exact ⟨Writes.refl c files, fun _ _ => (refused_iff c).mp refused⟩
    · rename_i passed
      have accepted : c.Accepted P S := by
        by_contra refused
        exact passed ((refused_iff c).mpr refused)
      have writes : ∀ files', OnlyNew P (c.hash P) (c.stored P) files files' →
          Writes P S (Files.Found P) c files files' := fun _ new => ⟨fun refused => absurd accepted refused, new⟩
      refine Program.Safe.bind ((store_onlyNew _ _ files).mono writes ?_)
      rintro (e | _) files' ⟨new, quiet⟩
      · refine ⟨writes files' new, ?_⟩
        rintro hits ⟨⟩
        exact absurd rfl (quiet hits)
      · exact ⟨writes files' new, nofun⟩

end

/- The store in a bucket, whose puts go wrong in ways given beforehand. -/

namespace GcsObjectStore

variable {Hash : Type} [DecidableEq Hash] (P : Platform Hash)

/-- What a torn write leaves is no compressed file. -/
def Torn (faults : PutFaults) : Prop :=
  ∀ left bytes, faults.cache = some (.write (some left)) → left ≠ P.encodeAll bytes

/-- The two copies, and the faults of the puts to come. -/
structure Faulty where
  st : GcsState Hash
  faults : Nat → { faults : PutFaults // Torn P faults }

def Found (st : GcsState Hash) (hash : Hash) (bytes : Bytes) : Prop :=
  st.cache.Found P hash bytes ∨ st.bucket hash = some (P.encodeAll bytes)

variable (S : GcsObjectStore Hash)

def runCall (c : Call Hash) (faults : PutFaults) (st : GcsState Hash) :
    Except (Error Hash) Hash × GcsState Hash :=
  match c with
  | .put object policy => S.putWithPolicy P faults object policy st
  | .putRaw kind bytes => S.putRaw P faults kind bytes st

def storeCall (c : Call Hash) : Program (Faulty P) (Error Hash) Hash :=
  Program.call (fun s => ((runCall P S c (s.faults 0) s.st).1,
    { st := (runCall P S c (s.faults 0) s.st).2
      faults := fun n => s.faults (n + 1) })) .io

def scanning : FsObjectStore Hash := { scanner := S.scanner, allowlist := S.allowlist }

variable {P S}

theorem runCall_eq (c : Call Hash) (faults : PutFaults) (st : GcsState Hash) :
    runCall P S c faults st =
      if c.hits S.scanning ≠ [] ∧ c.hash P ∉ S.scanning.allowlist then
        (.error (.secretDetected (c.hits S.scanning)), st)
      else persist P faults (c.hash P) (P.encodeAll (c.stored P)) st := by
  cases c with
  | put object policy => cases object <;> rfl
  | putRaw kind bytes => rfl

omit [DecidableEq Hash] in
theorem cacheWrite_onlyNew {fault : Option CacheFault} (hash : Hash) (bytes : Bytes) (cache : Files)
    (torn : ∀ left bytes, fault = some (.write (some left)) → left ≠ P.encodeAll bytes) :
    OnlyNew P hash bytes cache (cacheWriteCompressed P fault hash (P.encodeAll bytes) cache).2 := by
  have same : OnlyNew P hash bytes cache cache := fun _ _ h => Or.inl h
  have tmp := same.update (Or.inr rfl) (Or.inr rfl)
  cases fault with
  | none =>
    simp only [cacheWriteCompressed, Function.update_self]
    exact (tmp.update (Or.inr rfl) (Or.inl rfl)).update (Or.inl rfl) (Or.inr rfl)
  | some fault =>
    cases fault with
    | createDir => exact same
    | rename => exact tmp
    | write left =>
      cases left with
      | none => exact same.update (Or.inr rfl) (Or.inl rfl)
      | some left =>
        simp only [cacheWriteCompressed]
        intro other found there
        -- a torn file holds nothing, whatever was there
        have nothing : left ≠ P.encodeAll found := torn left found rfl
        rcases there with held | held
        · rw [Function.update_of_ne (tmp_ne_path P hash other)] at held
          exact Or.inl (Or.inl held)
        · by_cases here : (pathFor P other).withExtension "tmp" = (pathFor P hash).withExtension "tmp"
          · rw [here, Function.update_self] at held
            exact absurd (Option.some.inj held) nothing
          · rw [Function.update_of_ne here] at held
            exact Or.inl (Or.inr held)

omit [DecidableEq Hash] in
theorem cacheWrite_ended (fault : Option CacheFault) (hash : Hash) (compressed : Bytes) (cache : Files) :
    (cacheWriteCompressed P fault hash compressed cache).1 = .ok () ∨
      (cacheWriteCompressed P fault hash compressed cache).1 = .error .io := by
  cases fault with
  | none => exact Or.inl rfl
  | some fault => cases fault with
    | write left => cases left <;> exact Or.inr rfl
    | createDir => exact Or.inr rfl
    | rename => exact Or.inr rfl

theorem persist_onlyNew {faults : PutFaults} (torn : Torn P faults) (hash : Hash) (bytes : Bytes)
    (st : GcsState Hash) :
    (∀ other found, Found P (persist P faults hash (P.encodeAll bytes) st).2 other found →
      Found P st other found ∨ (other = hash ∧ found = bytes)) ∧
    ((persist P faults hash (P.encodeAll bytes) st).1 = .ok hash ∨
      ∃ e, (persist P faults hash (P.encodeAll bytes) st).1 = .error e ∧ ∀ hits, e ≠ .secretDetected hits) := by
  have new := cacheWrite_onlyNew hash bytes st.cache torn
  have ended := cacheWrite_ended (P := P) faults.cache hash (P.encodeAll bytes) st.cache
  rcases written : cacheWriteCompressed P faults.cache hash (P.encodeAll bytes) st.cache with ⟨r, cache⟩
  rw [written] at new ended
  have cached : ∀ other found, cache.Found P other found → Found P st other found ∨ (other = hash ∧ found = bytes) :=
    fun other found there => (new other found there).imp_left Or.inl
  rcases ended with rfl | rfl
  · cases upload : faults.upload with
    | some cause =>
      simp only [persist, written, upload]
      have evicted : OnlyNew P hash bytes st.cache (Function.update cache (pathFor P hash) none) :=
        OnlyNew.update new (Or.inl rfl) (Or.inl rfl)
      refine ⟨?_, Or.inr ⟨_, rfl, by rintro _ ⟨⟩⟩⟩
      rintro other found (there | there)
      · exact (evicted other found there).imp_left Or.inl
      · exact Or.inl (Or.inr there)
    | none =>
      simp only [persist, written, upload]
      refine ⟨?_, Or.inl trivial⟩
      rintro other found (there | there)
      · exact cached other found there
      · dsimp only at there
        by_cases here : other = hash
        · subst here
          rw [Function.update_self] at there
          exact Or.inr ⟨rfl, (encodeAll_injective (Option.some.inj there)).symm⟩
        · rw [Function.update_of_ne here] at there
          exact Or.inl (Or.inr there)
  · simp only [persist, written]
    refine ⟨?_, Or.inr ⟨_, rfl, by rintro _ ⟨⟩⟩⟩
    rintro other found (there | there)
    · exact cached other found there
    · exact Or.inl (Or.inr there)

theorem runCall_ended (c : Call Hash) {faults : PutFaults} (torn : Torn P faults) (st : GcsState Hash) :
    (runCall P S c faults st).1 = .ok (c.hash P) ∨ ∃ e, (runCall P S c faults st).1 = .error e := by
  rw [runCall_eq]
  split
  · exact Or.inr ⟨_, rfl⟩
  · exact (persist_onlyNew torn (c.hash P) (c.stored P) st).2.imp_right (fun ⟨e, failed, _⟩ => ⟨e, failed⟩)

variable (P S) in
/-- The store in a bucket. -/
def backend : Backend P S.scanning (Faulty P) (GcsState Hash) where
  store := storeCall P S
  contents := Faulty.st
  Found := Found P
  returns c _ k := by
    refine congrArg₂ (Program.op _) (funext fun s => ?_) rfl
    rcases runCall_ended c (s.faults 0).2 s.st with ok | ⟨e, failed⟩
    · show (Program.done (runCall P S c (s.faults 0) s.st).1).bind k =
        (Program.done (runCall P S c (s.faults 0) s.st).1).bind _
      rw [ok]
      rfl
    · show (Program.done (runCall P S c (s.faults 0) s.st).1).bind k =
        (Program.done (runCall P S c (s.faults 0) s.st).1).bind _
      rw [failed]
      rfl
  puts c s := by
    refine Program.Safe.call (Writes.refl c s.st) ?_ (fun _ => ⟨Writes.refl c s.st, nofun⟩)
    dsimp only
    rw [runCall_eq]
    split
    · rename_i refused
      exact ⟨Writes.refl c s.st, fun _ _ => (refused_iff c).mp refused⟩
    · rename_i passed
      have accepted : c.Accepted P S.scanning := by
        by_contra refused
        exact passed ((refused_iff c).mpr refused)
      obtain ⟨new, ended⟩ := persist_onlyNew (s.faults 0).2 (c.hash P) (c.stored P) s.st
      refine ⟨⟨fun refused => absurd accepted refused, new⟩, fun hits same => ?_⟩
      rcases ended with ok | ⟨e, failed, other⟩
      · rw [ok] at same
        cases same
      · rw [failed] at same
        exact absurd (Except.error.inj same) (other hits)

end GcsObjectStore

/- What an accepted put has been scanned for. -/

namespace Scanner

variable {S : Scanner} {bytes : Bytes}

theorem entropyHits_kind (i : Nat) (runStart : Option Nat) (rest : Bytes) :
    ∀ hit ∈ S.entropyHits bytes i runStart rest, hit.kind = .highEntropy := by
  have emitted : ∀ start stop, ∀ hit ∈ S.maybeEmitEntropyHit bytes start stop, hit.kind = .highEntropy := by
    intro start stop hit mem
    simp only [maybeEmitEntropyHit] at mem
    split at mem
    · cases mem
    · split at mem
      · rw [List.mem_singleton.mp mem]
      · cases mem
  induction rest generalizing i runStart with
  | nil =>
    cases runStart with
    | none =>
      intro hit mem
      exact absurd mem List.not_mem_nil
    | some start => exact emitted start i
  | cons b rest ih =>
    intro hit mem
    cases runStart with
    | none =>
      simp only [entropyHits] at mem
      split at mem <;> exact ih _ _ hit mem
    | some start =>
      simp only [entropyHits] at mem
      split at mem
      · exact ih _ _ hit mem
      · exact (List.mem_append.mp mem).elim (emitted start i hit) (ih _ _ hit)

theorem patternHits_kind : ∀ hit ∈ S.patternHits bytes, hit.kind ≠ .highEntropy := by
  intro hit mem
  obtain ⟨rule, _, mem⟩ := List.mem_flatMap.mp mem
  obtain ⟨place, _, rfl⟩ := List.mem_map.mp mem
  exact HitKind.noConfusion

theorem scanWith_eq_nil_iff (policy : ScanPolicy) : S.scanWith bytes policy = [] ↔
    S.patternHits bytes = [] ∧ (policy.skipEntropy = true ∨ S.entropyHits bytes 0 none bytes = []) := by
  cases skip : policy.skipEntropy with
  | false => simp [scanWith, skip, scanImpl]
  | true =>
    have patterns : (S.patternHits bytes).filter (fun h => h.kind ≠ .highEntropy) = S.patternHits bytes :=
      List.filter_eq_self.mpr (fun hit mem => decide_eq_true (patternHits_kind hit mem))
    have entropy : (S.entropyHits bytes 0 none bytes).filter (fun h => h.kind ≠ .highEntropy) = [] :=
      List.filter_eq_nil_iff.mpr (fun hit mem => by simp [entropyHits_kind _ _ _ hit mem])
    rw [scanWith, if_pos skip, scanImpl, List.filter_append, patterns, entropy, List.append_nil]
    simp

end Scanner

section

variable {Hash : Type} {P : Platform Hash} {S : FsObjectStore Hash}

theorem put_of_blob {c : Call Hash} {b : Bytes} (address : P.of b = c.hash P)
    (content : P.toVec ((Object.blob ⟨b⟩ : Object Hash).toJson P) = c.stored P) :
    ∃ policy, c = .put (.blob ⟨b⟩) policy := by
  cases c with
  | put o policy =>
    have same := congrArg (fun bytes => (P.fromSlice bytes).bind (Object.fromJson P)) content
    simp only [Call.stored, P.fromSlice_toVec, Option.bind_some, Object.fromJson_toJson] at same
    cases same
    exact ⟨policy, rfl⟩
  | putRaw kind bytes =>
    have same : b = bytes := P.of_injective address
    have itself : P.toVec ((Object.blob ⟨b⟩ : Object Hash).toJson P) = b := content.trans same.symm
    refine absurd ?_ (Object.preimage_not_stored P (.blob ⟨b⟩ : Object Hash))
    calc (P.fromSlice b).bind (Object.fromJson P)
        = (P.fromSlice (P.toVec ((Object.blob ⟨b⟩ : Object Hash).toJson P))).bind (Object.fromJson P) := by
          rw [itself]
      _ = some (.blob ⟨b⟩) := by
          rw [P.fromSlice_toVec, Option.bind_some, Object.fromJson_toJson]

theorem putRaw_of_raw {c : Call Hash} {r : Bytes} (address : P.of r = c.hash P) (content : r = c.stored P) :
    ∃ kind, c = .putRaw kind r := by
  cases c with
  | put o policy =>
    refine absurd ?_ (o.preimage_not_stored P)
    have own : o.preimage P = P.toVec (o.toJson P) := (P.of_injective address).symm.trans content
    rw [own, P.fromSlice_toVec, Option.bind_some, Object.fromJson_toJson]
  | putRaw kind bytes =>
    cases content
    exact ⟨kind, rfl⟩

theorem payloadPuts_scanned {payload : Option Bytes} {o : Object Hash} {policy : ScanPolicy}
    (mem : .put o policy ∈ payloadPuts payload) : policy.skipEntropy = false := by
  obtain ⟨bytes, _, same⟩ := List.mem_map.mp mem
  cases same
  rfl

theorem skip_of_mem_treePuts {entries : BTreeMap String Bytes} {exemptPrefixes : List String}
    {o : Object Hash} {policy : ScanPolicy} (mem : .put o policy ∈ treePuts P entries exemptPrefixes)
    (skip : policy.skipEntropy = true) :
    ∃ e ∈ entries.entries, o = .blob ⟨e.2⟩ ∧ ∃ p ∈ exemptPrefixes, startsWith p e.1 := by
  unfold treePuts at mem
  split at mem
  · cases mem
  · rcases List.mem_append.mp mem with mem | mem
    · obtain ⟨e, there, same⟩ := List.mem_map.mp mem
      cases same
      refine ⟨e, there, rfl, ?_⟩
      unfold entryPolicy at skip
      split at skip
      · rename_i exempt
        exact List.any_eq_true.mp exempt
      · cases skip
    · cases List.mem_singleton.mp mem
      cases skip

theorem skip_of_mem_puts {inputs : CommitInputs Hash} {now : Int} {o : Object Hash} {policy : ScanPolicy}
    (mem : .put o policy ∈ inputs.puts P now) (skip : policy.skipEntropy = true) :
    ∃ e ∈ inputs.prompts.entries ++ inputs.tools.entries, o = .blob ⟨e.2⟩ ∧
      ∃ p ∈ inputs.exemptEntropyPrefixes, startsWith p e.1 := by
  have scanned : ∀ payload : Option Bytes, .put o policy ∈ payloadPuts payload → False := by
    intro payload mem
    rw [payloadPuts_scanned mem] at skip
    cases skip
  simp only [CommitInputs.puts, List.mem_append] at mem
  rcases mem with prompt | tool | model | intent | plan | transcript | evals | commit
  · obtain ⟨e, there, rest⟩ := skip_of_mem_treePuts prompt skip
    exact ⟨e, List.mem_append_left _ there, rest⟩
  · obtain ⟨e, there, rest⟩ := skip_of_mem_treePuts tool skip
    exact ⟨e, List.mem_append_right _ there, rest⟩
  · exact (scanned _ model).elim
  · exact (scanned _ intent).elim
  · exact (scanned _ plan).elim
  · exact (scanned _ transcript).elim
  · exact (scanned _ evals).elim
  · cases List.mem_singleton.mp commit
    cases skip

variable {σ τ : Type}

/-- A blob that is found has no pattern hit, and no entropy hit unless it was put without the
entropy pass; for raw bytes both passes were run. -/
structure Backend.Clean (B : Backend P S σ τ) (calls : List (StoreCall Hash)) (s : σ) : Prop where
  blob : ∀ b, B.Found (B.contents s) (P.of b) (P.toVec ((Object.blob ⟨b⟩ : Object Hash).toJson P)) →
    P.of b ∈ S.allowlist ∨ S.scanner.patternHits b = [] ∧ (S.scanner.entropyHits b 0 none b = [] ∨
      ∃ call ∈ calls, ∃ policy, policy.skipEntropy = true ∧ .put (.blob ⟨b⟩) policy ∈ call.puts P ∧
        (Call.put (.blob ⟨b⟩) policy : Call Hash).Accepted P S)
  raw : ∀ r, B.Found (B.contents s) (P.of r) r →
    P.of r ∈ S.allowlist ∨ S.scanner.patternHits r = [] ∧ S.scanner.entropyHits r 0 none r = []

/-- Calls from the empty store leave clean contents; a refused put changes no location; a call
that ends with a secret has stored no more than its puts before the refused one. -/
structure Backend.Guarded (B : Backend P S σ τ) (s₀ : σ) : Prop where
  clean : ∀ calls s, B.Ran s₀ calls s → B.Clean calls s
  refused : ∀ c s p s', ¬ Call.Accepted P S c → Program.Reaches (B.store c, s) (p, s') →
    B.contents s' = B.contents s
  stopped : ∀ (call : StoreCall Hash) s hits s',
    Program.Reaches (call.program B.store, s) (.done (.error (.secretDetected hits)), s') →
      B.RefusedAt (call.puts P) s s'

theorem Backend.guarded (B : Backend P S σ τ) {s₀ : σ} (empty : ∀ hash bytes, ¬ B.Found (B.contents s₀) hash bytes) :
    B.Guarded s₀ where
  clean calls s ran := by
    constructor
    · intro b found
      rcases ran.adds _ _ found with before | ⟨c, mem, accepted, address, content⟩
      · exact absurd before (empty _ _)
      · obtain ⟨policy, rfl⟩ := put_of_blob address content
        rcases accepted with silent | allowed
        · have scanned := (Scanner.scanWith_eq_nil_iff policy).mp silent
          refine Or.inr ⟨scanned.1, ?_⟩
          rcases scanned.2 with skip | none
          · obtain ⟨call, ofCalls, put⟩ := List.mem_flatMap.mp mem
            exact Or.inr ⟨call, ofCalls, policy, skip, put, Or.inl silent⟩
          · exact Or.inl none
        · exact Or.inl allowed
    · intro r found
      rcases ran.adds _ _ found with before | ⟨c, mem, accepted, address, content⟩
      · exact absurd before (empty _ _)
      · obtain ⟨kind, rfl⟩ := putRaw_of_raw address content
        rcases accepted with silent | allowed
        · obtain ⟨patterns, skip | none⟩ := (Scanner.scanWith_eq_nil_iff {}).mp silent
          · cases skip
          · exact Or.inr ⟨patterns, none⟩
        · exact Or.inl allowed
  refused c s p s' refused reaches := by
    have stopped := (B.puts c s).stopped reaches
    cases outcome : p.result? with
    | none =>
      rw [outcome] at stopped
      exact stopped.refused refused
    | some r =>
      rw [outcome] at stopped
      exact stopped.1.refused refused
  stopped call s hits s' reaches := ((B.call_safe call s).stopped reaches).2 hits rfl

end

/-- Both stores, started empty. In a staging the puts without the entropy pass are those of prompts
and tools under a declared prefix, and none is of a payload. -/
theorem stores_guarded {Hash : Type} [DecidableEq Hash] (P : Platform Hash) (S : FsObjectStore Hash)
    (G : GcsObjectStore Hash) (faults : Nat → { faults : PutFaults // GcsObjectStore.Torn P faults }) :
    (FsObjectStore.backend P S).Guarded (fun _ => none) ∧
    (GcsObjectStore.backend P G).Guarded ⟨⟨fun _ => none, fun _ => none⟩, faults⟩ ∧
    (∀ (inputs : CommitInputs Hash) now o policy, .put o policy ∈ inputs.puts P now →
      policy.skipEntropy = true → ∃ e ∈ inputs.prompts.entries ++ inputs.tools.entries,
        o = .blob ⟨e.2⟩ ∧ ∃ p ∈ inputs.exemptEntropyPrefixes, startsWith p e.1) ∧
    (∀ (payload : Option Bytes) (o : Object Hash) policy, .put o policy ∈ payloadPuts payload →
      policy.skipEntropy = false) := by
  refine ⟨Backend.guarded _ ?_, Backend.guarded _ ?_, fun inputs now o policy => skip_of_mem_puts,
    fun payload o policy => payloadPuts_scanned⟩
  · intro hash bytes found
    rcases found with held | held <;> cases held
  · intro hash bytes found
    rcases found with (held | held) | held <;> cases held

end GitAgentic
