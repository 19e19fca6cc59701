import GitAgentic.Core.Failures
import GitAgentic.Daemon.Commit
import GitAgentic.Daemon.Rollback

/-! What the parts of a commit and of a rollback can come to when any operation may fail. -/
namespace GitAgentic

section

variable {Hash M α : Type} {d d' d'' : Daemon M}

/-- Segments were added to the store. Neither the refs nor the files at work have changed. -/
structure Fed (P : Platform Hash) (d d' : Daemon M) : Prop where
  slots : ∀ h, slots P d'.repo.objects h = slots P d.repo.objects h ∨ ∃ s : Segment,
    P.of (s.toCanonicalBytes P) = h ∧
      slots P d'.repo.objects h = some (P.encodeAll (s.toCanonicalBytes P))
  agentic : d'.repo.agentic = d.repo.agentic
  work : d'.work = d.work

variable {P : Platform Hash}

theorem Fed.of_same (objects : d'.repo.objects = d.repo.objects)
    (agentic : d'.repo.agentic = d.repo.agentic) (work : d'.work = d.work) : Fed P d d' where
  slots _ := .inl (by rw [objects])
  agentic := agentic
  work := work

theorem Fed.refl (d : Daemon M) : Fed P d d := .of_same rfl rfl rfl

theorem Fed.trans (first : Fed P d d') (second : Fed P d' d'') : Fed P d d'' where
  slots h := by
    rcases second.slots h with same | fed
    · rw [same]
      exact first.slots h
    · exact .inr fed
  agentic := second.agentic.trans first.agentic
  work := second.work.trans first.work

/- Reads of the repository, for the daemon. -/

theorem onDaemonRefs_moves {p : Refs.RefsProgram Hash α} {fails : Error Hash → Prop}
    {gives : α → Prop} (moves : p.Moves True Eq fails (fun a _ => gives a) d.repo.agentic) :
    (onDaemonRefs p : DaemonProgram Hash M α).Moves True Eq
      (fun e => ∃ cause, fails cause ∧ e = .core cause) (fun a _ => gives a) d := by
  refine Program.Moves.mapError (fun cause failed => ⟨cause, failed, rfl⟩) ?_
  have within : (Repository.onRefs p).Moves True Eq fails (fun a _ => gives a) d.repo := by
    refine Program.Moves.focus (fun _ _ => rfl) (fun _ _ _ => rfl) (fun _ => rfl) ?_ moves
    rintro _ rfl
    rfl
  refine Program.Moves.focus (fun _ _ => rfl) (fun _ _ _ => rfl) (fun _ => rfl) ?_ within
  rintro _ rfl
  rfl

theorem readObjects_moves (f : Files → Except (Error Hash) α) :
    (readObjects f : DaemonProgram Hash M α).Moves True Eq
      (fun e => e = .core .io ∨ ∃ cause, f d.repo.objects = .error cause ∧ e = .core cause)
      (fun a _ => f d.repo.objects = .ok a) d := by
  refine ⟨rfl, ?_, fun _ => ⟨rfl, .inl rfl⟩⟩
  show Program.Moves True Eq _ _ (.done ((f d.repo.objects).mapError DaemonError.core)) d
  cases read : f d.repo.objects with
  | error e => exact Program.Moves.fail rfl (.inr ⟨e, rfl, rfl⟩)
  | ok a => exact Program.Moves.value rfl rfl

theorem onRepository_moves {p : Program Repository (Error Hash) α} {R : Repository → Repository → Prop}
    {fails : Error Hash → Prop} {gives : α → Prop}
    (moves : p.Moves True R fails (fun a _ => gives a) d.repo) :
    (onRepository p : DaemonProgram Hash M α).Moves True (fun _ _ => True)
      (fun e => ∃ cause, fails cause ∧ e = .core cause) (fun a _ => gives a) d := by
  refine Program.Moves.mapError (fun cause failed => ⟨cause, failed, rfl⟩) ?_
  exact Program.Moves.focus (fun _ _ => rfl) (fun _ _ _ => rfl) (fun _ => rfl) (fun _ _ => trivial) moves

theorem onDaemonObjects_moves {p : Program Files (Error Hash) α} {R : Files → Files → Prop}
    {fails : Error Hash → Prop} {gives : α → Prop}
    (moves : p.Moves True R fails (fun a _ => gives a) d.repo.objects) :
    (onDaemonObjects p : DaemonProgram Hash M α).Moves True (fun _ _ => True)
      (fun e => ∃ cause, fails cause ∧ e = .core cause) (fun a _ => gives a) d := by
  refine Program.Moves.mapError (fun cause failed => ⟨cause, failed, rfl⟩) ?_
  exact Program.Moves.focus (fun _ _ => rfl) (fun _ _ _ => rfl) (fun _ => rfl) (fun _ _ => trivial) moves

theorem readMemory_moves (f : M → Except (MemoryError Hash) α) :
    (readMemory f : DaemonProgram Hash M α).Moves True Eq
      (fun e => ∃ m, (f d.memory = .error m ∨ m = .sqlx) ∧ e = .memory m)
      (fun a _ => f d.memory = .ok a) d := by
  refine ⟨rfl, ?_, fun _ => ⟨rfl, .sqlx, .inr rfl, rfl⟩⟩
  show Program.Moves True Eq _ _ (.done ((f d.memory).mapError DaemonError.memory)) d
  cases read : f d.memory with
  | error m => exact Program.Moves.fail rfl ⟨m, .inl rfl, rfl⟩
  | ok a => exact Program.Moves.value rfl rfl

theorem context_moves {p : DaemonProgram Hash M α} {R : Daemon M → Daemon M → Prop}
    {fails : DaemonError Hash → Prop} {gives : α → Daemon M → Prop} (message : String)
    (moves : p.Moves True R fails gives d) :
    (withContext message p).Moves True R (fun e => ∃ cause, fails cause ∧ e = .context message cause)
      gives d :=
  Program.Moves.mapError (fun cause failed => ⟨cause, failed, rfl⟩) moves

/- The memory backend. -/

variable [DecidableEq Hash] (S : FsObjectStore Hash)

variable (P) in
/-- Asked in this state, the backend can come to this. -/
def ComesTo (p : AdapterProgram Hash M α) (d : Daemon M) (r : Except (MemoryError Hash) α)
    (d' : Daemon M) : Prop :=
  Program.Reaches (p.toProgram P S, d) (.done (r.mapError .memory), d')

variable {S}

omit [DecidableEq Hash] in
theorem onStore_moves {p : Program Files (Error Hash) α} {fails : Error Hash → Prop}
    {gives : α → Files → Prop} {R : Files → Files → Prop} {fails' : DaemonError Hash → Prop}
    (fed : ∀ files, R d.repo.objects files → Fed P d { d with repo := { d.repo with objects := files } })
    (moves : p.Moves True R fails gives d.repo.objects) :
    (onStore p.attempt : DaemonProgram Hash M _).Moves True (Fed P) fails' (fun _ _ => True) d := by
  refine Program.Safe.focus (fun _ _ => rfl) (fun _ _ _ => rfl) (fun _ => rfl)
    (Program.Safe.attempt (Program.Safe.mono moves fed ?_))
  exact fun _ files ended => ⟨fed files ended.1, trivial⟩

theorem toProgram_fed (p : AdapterProgram Hash M α) (d : Daemon M) :
    (p.toProgram P S).Moves True (Fed P) (fun e => ∃ m, e = .memory m) (fun _ _ => True) d := by
  induction p generalizing d with
  | done r =>
    cases r with
    | error m => exact Program.Moves.fail (.refl d) ⟨m, rfl⟩
    | ok a => exact Program.Moves.value (.refl d) trivial
  | act step next fault ih ihFault =>
    have acted : Fed P d { d with memory := step d.memory } := .of_same rfl rfl rfl
    exact ⟨.refl d, Program.Safe.mono (ih d.memory _) (fun _ h => acted.trans h)
      (fun _ _ h => ⟨acted.trans h.1, h.2⟩), fun _ => ihFault d⟩
  | putSegment segment next ih =>
    refine Program.Moves.bind Fed.trans (onStore_moves ?_ (putRaw_moves .segment _ _))
      (fun stored d' _ _ => ih stored d')
    intro files wrote
    refine ⟨fun h => ?_, rfl, rfl⟩
    rcases wrote h with same | ⟨rfl, held⟩
    · exact .inl same
    · exact .inr ⟨segment, rfl, held⟩
  | getSegment hash next ih =>
    have read : (Program.read (fun files => getRaw P files hash) .io : Program Files (Error Hash) _).Moves
        True Eq (fun _ => True) _ d.repo.objects := Program.Moves.read rfl (fun _ _ => trivial) trivial
    refine Program.Moves.bind Fed.trans (onStore_moves ?_ read) (fun found d' _ _ => ih found d')
    rintro _ rfl
    exact .refl d

theorem toProgram_moves (p : AdapterProgram Hash M α) (d : Daemon M) :
    (p.toProgram P S).Moves True (Fed P) (fun e => ∃ m d', e = .memory m ∧ ComesTo P S p d (.error m) d')
      (fun a d' => ComesTo P S p d (.ok a) d') d := by
  refine (Program.Safe.and (toProgram_fed (S := S) p d)
    (Program.Safe.ends (Program.Safe.anything (p.toProgram P S) d))).mono (fun _ h => h.1) ?_
  rintro (e | a) d' ⟨⟨fed, ended⟩, -, reached⟩
  · obtain ⟨m, rfl⟩ := ended
    exact ⟨fed, m, d', rfl, reached⟩
  · exact ⟨fed, reached⟩

end

/- Reading a commit's objects back. -/

namespace Rollback

variable {Hash M : Type} [DecidableEq Hash] (P : Platform Hash)

section

variable (files : Files)

inductive LoadFails (expected : String) (kind : ObjectKind) (hash : Hash) : DaemonError Hash → Prop
  | io : LoadFails expected kind hash (.core .io)
  | unread {cause : Error Hash} (failed : get P files hash = .error cause) :
      LoadFails expected kind hash (.core cause)
  | other {object : Object Hash} (found : get P files hash = .ok object)
      (different : object.kind ≠ kind) :
      LoadFails expected kind hash (unexpectedKind P expected hash object.kind)

inductive ManifestFails (hash : Hash) : DaemonError Hash → Prop
  | io : ManifestFails hash (.core .io)
  | unread {cause : Error Hash} (failed : getRaw P files hash = .error cause) :
      ManifestFails hash (.core cause)
  | undecoded {bytes : Bytes} {cause : SegmentManifest.Invalid} (found : getRaw P files hash = .ok bytes)
      (bad : SegmentManifest.fromCanonicalBytes P bytes = .error cause) :
      ManifestFails hash (.context ("decoding manifest " ++ P.toHex hash) (.manifest cause))

def ManifestIs (hash : Hash) (manifest : SegmentManifest Hash) : Prop :=
  ∃ bytes, getRaw P files hash = .ok bytes ∧ SegmentManifest.fromCanonicalBytes P bytes = .ok manifest

/-- The entries are blobs, and these are their contents. -/
inductive Collects : List (String × TypedRef Hash) → BTreeMap String Bytes → BTreeMap String Bytes → Prop
  | nil (out : BTreeMap String Bytes) : Collects [] out out
  | cons {name : String} {r : TypedRef Hash} {rest : List (String × TypedRef Hash)}
      {out all : BTreeMap String Bytes} {b : Blob} (found : get P files r.hash = .ok (.blob b))
      (others : Collects rest (out.insert name b.bytes) all) : Collects ((name, r) :: rest) out all

inductive TextsAre : Option Hash → BTreeMap String Bytes → Prop
  | none : TextsAre none BTreeMap.empty
  | tree {hash : Hash} {tree : Tree Hash} {all : BTreeMap String Bytes}
      (found : get P files hash = .ok (.tree tree))
      (blobs : Collects P files tree.entries.entries BTreeMap.empty all) : TextsAre (some hash) all

inductive TextsFail (hash : Hash) : DaemonError Hash → Prop
  | tree {e : DaemonError Hash} (failed : LoadFails P files "tree" .tree hash e) : TextsFail hash e
  | kind {tree : Tree Hash} {name : String} {r : TypedRef Hash}
      (found : get P files hash = .ok (.tree tree)) (mem : (name, r) ∈ tree.entries.entries)
      (other : r.kind ≠ .blob) :
      TextsFail hash (.text ("non-blob entry " ++ name ++ " in tree " ++ P.toHex hash))
  | blob {tree : Tree Hash} {name : String} {r : TypedRef Hash} {e : DaemonError Hash}
      (found : get P files hash = .ok (.tree tree)) (mem : (name, r) ∈ tree.entries.entries)
      (failed : LoadFails P files "blob" .blob r.hash e) : TextsFail hash e

inductive ModelIs : Option Hash → Option String → Prop
  | none : ModelIs none none
  | some {hash : Hash} {b : Blob} {text : String} (found : get P files hash = .ok (.blob b))
      (decoded : fromUtf8 b.bytes = some text) : ModelIs (some hash) (some text)

inductive ModelFails (hash : Hash) : DaemonError Hash → Prop
  | blob {e : DaemonError Hash} (failed : LoadFails P files "blob" .blob hash e) : ModelFails hash e
  | invalid : ModelFails hash (.context ("model blob at " ++ P.toHex hash ++ " contains invalid UTF-8")
      (.text "invalid utf-8 sequence"))

end

variable {P} {d : Daemon M}

theorem readObject_moves {expected : String} {kind : ObjectKind} (hash : Hash) :
    (readObjects (fun files => get P files hash) : DaemonProgram Hash M _).Moves True Eq
      (LoadFails P d.repo.objects expected kind hash)
      (fun object _ => get P d.repo.objects hash = .ok object) d := by
  refine (readObjects_moves _).weaken ?_ (fun _ _ _ found => found)
  rintro _ (rfl | ⟨cause, failed, rfl⟩)
  · exact .io
  · exact .unread failed

theorem loadCommit_moves (hash : Hash) : (loadCommit P hash : DaemonProgram Hash M _).Moves True Eq
    (LoadFails P d.repo.objects "commit" .commit hash)
    (fun c _ => get P d.repo.objects hash = .ok (.commit c)) d := by
  refine Program.Moves.bind Eq.trans (readObject_moves hash) ?_
  rintro object _ rfl found
  cases object with
  | commit c => exact Program.Moves.value rfl found
  | blob b => exact Program.Moves.fail rfl (.other found (by rintro ⟨⟩))
  | tree t => exact Program.Moves.fail rfl (.other found (by rintro ⟨⟩))

theorem loadTree_moves (hash : Hash) : (loadTree P hash : DaemonProgram Hash M _).Moves True Eq
    (LoadFails P d.repo.objects "tree" .tree hash)
    (fun t _ => get P d.repo.objects hash = .ok (.tree t)) d := by
  refine Program.Moves.bind Eq.trans (readObject_moves hash) ?_
  rintro object _ rfl found
  cases object with
  | tree t => exact Program.Moves.value rfl found
  | blob b => exact Program.Moves.fail rfl (.other found (by rintro ⟨⟩))
  | commit c => exact Program.Moves.fail rfl (.other found (by rintro ⟨⟩))

theorem loadBlob_moves (hash : Hash) : (loadBlob P hash : DaemonProgram Hash M _).Moves True Eq
    (LoadFails P d.repo.objects "blob" .blob hash)
    (fun b _ => get P d.repo.objects hash = .ok (.blob b)) d := by
  refine Program.Moves.bind Eq.trans (readObject_moves hash) ?_
  rintro object _ rfl found
  cases object with
  | blob b => exact Program.Moves.value rfl found
  | tree t => exact Program.Moves.fail rfl (.other found (by rintro ⟨⟩))
  | commit c => exact Program.Moves.fail rfl (.other found (by rintro ⟨⟩))

theorem loadManifest_moves (hash : Hash) : (loadManifest P hash : DaemonProgram Hash M _).Moves True Eq
    (ManifestFails P d.repo.objects hash) (fun m _ => ManifestIs P d.repo.objects hash m) d := by
  refine Program.Moves.bind Eq.trans ((readObjects_moves _).weaken ?_ (fun _ _ _ found => found)) ?_
  · rintro _ (rfl | ⟨cause, failed, rfl⟩)
    · exact .io
    · exact .unread failed
  · rintro bytes _ rfl found
    show Program.Moves True Eq _ _ (.done _) _
    cases decoded : SegmentManifest.fromCanonicalBytes P bytes with
    | error cause => exact Program.Moves.fail rfl (.undecoded found decoded)
    | ok manifest => exact Program.Moves.value rfl ⟨bytes, found, decoded⟩

theorem collect_moves {hash : Hash} {tree : Tree Hash} (entries : List (String × TypedRef Hash))
    (out : BTreeMap String Bytes) (found : get P d.repo.objects hash = .ok (.tree tree))
    (among : ∀ e ∈ entries, e ∈ tree.entries.entries) :
    (treeToMap.collect P hash entries out : DaemonProgram Hash M _).Moves True Eq
      (TextsFail P d.repo.objects hash) (fun all _ => Collects P d.repo.objects entries out all) d := by
  induction entries generalizing out with
  | nil => exact Program.Moves.value rfl (.nil out)
  | cons e rest ih =>
    obtain ⟨name, r⟩ := e
    have mem := among _ List.mem_cons_self
    unfold treeToMap.collect
    split
    · next other => exact Program.Moves.fail rfl (.kind found mem other)
    · refine Program.Moves.bind Eq.trans ((loadBlob_moves r.hash).weaken
        (fun _ failed => .blob found mem failed) (fun _ _ _ h => h)) ?_
      rintro blob _ rfl loaded
      exact (ih _ (fun e' mem' => among e' (List.mem_cons_of_mem _ mem'))).weaken (fun _ h => h)
        (fun _ _ _ others => .cons loaded others)

theorem readTextBlobs_moves (hash : Option Hash) :
    (readTextBlobs P hash : DaemonProgram Hash M _).Moves True Eq
      (fun e => ∃ h ∈ hash, TextsFail P d.repo.objects h e)
      (fun all _ => TextsAre P d.repo.objects hash all) d := by
  cases hash with
  | none => exact Program.Moves.value rfl .none
  | some hash =>
    refine Program.Moves.bind Eq.trans ((loadTree_moves hash).weaken
      (fun _ failed => ⟨hash, rfl, .tree failed⟩) (fun _ _ _ h => h)) ?_
    rintro tree _ rfl found
    exact (collect_moves tree.entries.entries BTreeMap.empty found (fun _ mem => mem)).weaken
      (fun _ failed => ⟨hash, rfl, failed⟩) (fun _ _ _ blobs => .tree found blobs)

theorem readModelText_moves (target : Commit Hash) :
    (readModelText P target : DaemonProgram Hash M _).Moves True Eq
      (fun e => ∃ h ∈ target.model, ModelFails P d.repo.objects h e)
      (fun text _ => ModelIs P d.repo.objects target.model text) d := by
  unfold readModelText
  cases model : target.model with
  | none => exact Program.Moves.value rfl .none
  | some hash =>
    refine Program.Moves.bind Eq.trans ((loadBlob_moves hash).weaken
      (fun _ failed => ⟨hash, rfl, .blob failed⟩) (fun _ _ _ h => h)) ?_
    rintro blob _ rfl found
    cases decoded : fromUtf8 blob.bytes with
    | some text => exact Program.Moves.value rfl (.some found decoded)
    | none => exact Program.Moves.fail rfl ⟨hash, rfl, .invalid⟩

end Rollback

/- The files of the reverse migrations. -/

namespace Migrate

variable {Hash : Type} (agenticDir : String) (t : FileTree TextFile)

def sqlPath (name : String) : TreePath := schemaDir ++ [name ++ ".down.sql"]

def shownPath (name : String) : String := agenticDir ++ "/schema/" ++ name ++ ".down.sql"

inductive LoadFails (acceptDataLoss : Bool) (names : List String) : DaemonError Hash → Prop
  | noDirectory : LoadFails acceptDataLoss names (.text ("schema directory " ++ agenticDir ++
      "/schema does not exist; " ++
      "cannot run reverse migrations (create it and add the required .down.sql files)"))
  | name {name : String} {e : DaemonError Hash} (mem : name ∈ names)
      (bad : validateMigrationName name = .error e) : LoadFails acceptDataLoss names e
  | unread {name : String} (mem : name ∈ names) :
      LoadFails acceptDataLoss names (.context ("reading " ++ shownPath agenticDir name) .io)
  | irreversible {name sql : String} {e : DaemonError Hash} (mem : name ∈ names)
      (found : t.file? (sqlPath name) = some (some sql))
      (bad : checkIrreversible name sql acceptDataLoss = .error e) : LoadFails acceptDataLoss names e
  | missing {name : String} (mem : name ∈ names) :
      LoadFails acceptDataLoss names (.text ("reverse migration file " ++ shownPath agenticDir name ++
        " is missing; cannot roll back " ++
        "without it. Add the file or mark it -- IRREVERSIBLE if the migration cannot be reversed."))

/-- The steps of these names, as the files have them. -/
def StepsAre (names : List String) (steps : List MigrationStep) : Prop :=
  List.Forall₂ (fun name step => step.name = name ∧ t.file? (sqlPath name) = some (some step.sql))
    names steps

variable {agenticDir t}

theorem pathExists_moves {fails : DaemonError Hash → Prop} (path : TreePath) :
    (pathExists path : SchemaProgram Hash Bool).Moves True Eq fails (fun _ _ => True) t :=
  ⟨rfl, ⟨rfl, trivial⟩, fun _ => ⟨rfl, trivial⟩⟩

theorem loadStep_moves {names : List String} (acceptDataLoss : Bool) {name : String} (mem : name ∈ names) :
    (loadStep agenticDir acceptDataLoss name : SchemaProgram Hash MigrationStep).Moves True Eq
      (LoadFails agenticDir t acceptDataLoss names)
      (fun step _ => step.name = name ∧ t.file? (sqlPath name) = some (some step.sql)) t := by
  refine Program.Moves.bind Eq.trans (Program.Moves.ofExcept rfl (fun _ bad => .name mem bad)) ?_
  rintro _ _ rfl _
  refine Program.Moves.bind Eq.trans (pathExists_moves _) ?_
  rintro (_ | _) _ rfl _
  · exact Program.Moves.fail rfl (.missing mem)
  · refine Program.Moves.bind Eq.trans (Program.Moves.read rfl ?_ (.unread mem)) ?_
    · intro e failed
      split at failed
      · cases failed
      · cases failed
        exact .unread mem
    · rintro sql _ rfl read
      have found : t.file? (sqlPath name) = some (some sql) := by
        split at read
        · next found =>
          cases read
          exact found
        · cases read
      refine Program.Moves.bind Eq.trans (Program.Moves.ofExcept rfl
        (fun _ bad => .irreversible mem found bad)) ?_
      rintro _ _ rfl _
      exact Program.Moves.value rfl ⟨rfl, found⟩

theorem loadEach_moves {names : List String} (acceptDataLoss : Bool) (rest : List String)
    (among : ∀ name ∈ rest, name ∈ names) :
    (loadEach agenticDir acceptDataLoss rest : SchemaProgram Hash _).Moves True Eq
      (LoadFails agenticDir t acceptDataLoss names) (fun steps _ => StepsAre t rest steps) t := by
  induction rest with
  | nil => exact Program.Moves.value rfl .nil
  | cons name rest ih =>
    refine Program.Moves.bind Eq.trans (loadStep_moves acceptDataLoss (among name List.mem_cons_self)) ?_
    rintro step _ rfl first
    refine Program.Moves.bind Eq.trans (ih (fun n mem => among n (List.mem_cons_of_mem name mem))) ?_
    rintro steps _ rfl others
    exact Program.Moves.value rfl (.cons first others)

theorem loadSteps_moves (names : List String) (acceptDataLoss : Bool) :
    (loadSteps agenticDir names acceptDataLoss : SchemaProgram Hash _).Moves True Eq
      (LoadFails agenticDir t acceptDataLoss names) (fun steps _ => StepsAre t names steps) t := by
  unfold loadSteps
  split
  · next none_ =>
    subst none_
    exact Program.Moves.value rfl .nil
  · refine Program.Moves.bind Eq.trans (pathExists_moves _) ?_
    rintro (_ | _) _ rfl _
    · exact Program.Moves.fail rfl .noDirectory
    · exact loadEach_moves acceptDataLoss names (fun _ mem => mem)

end Migrate

/- Writing the prompts. -/

namespace Rollback

variable {Hash M : Type} (repoRoot : String)

/-- The files are among those of before, or at one of these paths. -/
def FilesAmong (paths : TreePath → Prop) (t t' : FileTree Bytes) : Prop :=
  ∀ q, (t'.file? q).isSome = true → (t.file? q).isSome = true ∨ paths q

theorem FilesAmong.refl {paths : TreePath → Prop} (t : FileTree Bytes) : FilesAmong paths t t :=
  fun _ => .inl

theorem FilesAmong.trans {paths : TreePath → Prop} {t t' t'' : FileTree Bytes}
    (first : FilesAmong paths t t') (second : FilesAmong paths t' t'') : FilesAmong paths t t'' :=
  fun q there => (second q there).elim (first q) .inr

/-- Where an entry of the tree is written: at its temporary name, then at its own. -/
def EntryPaths (entries : List (String × TypedRef Hash)) (q : TreePath) : Prop :=
  ∃ e ∈ entries, q = withTmp (entryPath e.1) ∨ q = entryPath e.1

inductive WriteFails (name : String) : DaemonError Hash → Prop
  | checking : WriteFails name (.context ("checking for symlink at " ++ shown repoRoot name ++
      " before prompt write") .io)
  | writing : WriteFails name (.context ("writing temp file " ++ shown repoRoot (shownTmp name)) .io)
  | renaming : WriteFails name (.context ("renaming " ++ shown repoRoot (shownTmp name) ++ " → " ++
      shown repoRoot name) .io)

/-- A file that is removed was there before, or was written for an entry. -/
inductive SweepFails (paths : TreePath → Prop) (t : FileTree Bytes) : DaemonError Hash → Prop
  | io : SweepFails paths t .io
  | orphan {path : TreePath} (there : (t.file? path).isSome = true ∨ paths path) :
      SweepFails paths t (.context ("removing orphan prompt " ++ repoRoot ++ "/" ++ joinSlash path) .io)

inductive RestoreFails (P : Platform Hash) [DecidableEq Hash] (files : Files) (work : FileTree Bytes)
    (hash : Hash) : DaemonError Hash → Prop
  | io : RestoreFails P files work hash .io
  | tree {e : DaemonError Hash} (failed : LoadFails P files "tree" .tree hash e) :
      RestoreFails P files work hash e
  | entry {tree : Tree Hash} {name : String} {r : TypedRef Hash} {e : DaemonError Hash}
      (found : get P files hash = .ok (.tree tree)) (mem : (name, r) ∈ tree.entries.entries)
      (failed : validateTreeEntryName name = .error e ∨ LoadFails P files "blob" .blob r.hash e ∨
        WriteFails repoRoot name e) : RestoreFails P files work hash e
  | sweep {tree : Tree Hash} {e : DaemonError Hash} (found : get P files hash = .ok (.tree tree))
      (failed : SweepFails repoRoot (EntryPaths tree.entries.entries) work e) :
      RestoreFails P files work hash e

variable {repoRoot}

theorem writeBlobSafely_moves {paths : TreePath → Prop} (name : String) (bytes : Bytes)
    (tmp : paths (withTmp (entryPath name))) (own : paths (entryPath name)) (t : FileTree Bytes) :
    (writeBlobSafely repoRoot name bytes : WorkProgram Hash Unit).Moves True (FilesAmong paths)
      (WriteFails repoRoot name) (fun _ _ => True) t := by
  refine Program.Moves.bind FilesAmong.trans (Program.Moves.read (.refl t) ?_ .checking) ?_
  · intro e failed
    split at failed
    · cases failed
      exact .checking
    · cases failed
  intro _ t _ _
  refine Program.Moves.bind FilesAmong.trans ((FileTree.perform_moves _ (.refl t) ?_).weaken ?_
    (fun _ _ _ h => h)) ?_
  · intro t' written q there
    obtain ⟨_, put⟩ := FileTree.write_node? written
    by_cases here : q = withTmp (entryPath name)
    · exact .inr (here ▸ tmp)
    · refine .inl ?_
      rwa [FileTree.file?, put q, if_neg here] at there
  · rintro _ rfl
    exact .writing
  intro _ t _ _
  refine (FileTree.perform_moves _ (.refl t) ?_).weaken ?_ (fun _ _ _ h => h)
  · intro t' renamed q there
    split at renamed
    · cases renamed
    · obtain ⟨_, held, _, moved⟩ := FileTree.rename_node? renamed
      by_cases here : q = entryPath name
      · exact .inr (here ▸ own)
      · rw [FileTree.file?, moved q, if_neg here] at there
        by_cases gone : q = withTmp (entryPath name)
        · rw [if_pos gone] at there
          cases there
        · rw [if_neg gone] at there
          exact .inl there
  · rintro _ rfl
    exact .renaming

theorem FilesAmong.of_removed {paths : TreePath → Prop} {t t' : FileTree Bytes} {path : TreePath}
    (gone : ∀ q, t'.node? q = if q = path then none else t.node? q) : FilesAmong paths t t' := by
  intro q there
  rw [FileTree.file?, gone q] at there
  by_cases here : q = path
  · rw [if_pos here] at there
    cases there
  · rw [if_neg here] at there
    exact .inl there

theorem createParents_moves {paths : TreePath → Prop} (name : String) (t : FileTree Bytes) :
    (createParents name : WorkProgram Hash Unit).Moves True (FilesAmong paths) (· = .io)
      (fun _ _ => True) t := by
  unfold createParents
  dsimp only
  split
  · exact Program.Moves.fail (.refl t) rfl
  · refine (FileTree.createDirAll_moves _ [] _ t).relate (fun t' same q there => .inl ?_)
    rwa [← same q]

theorem readDir_moves {paths : TreePath → Prop} (here : TreePath) (t : FileTree Bytes) :
    (readDir here : WorkProgram Hash _).Moves True (FilesAmong paths) (· = .io)
      (fun entries _ => entries = t.readDir here) t := by
  refine (Program.Moves.read (.refl t) ?_ rfl).weaken (fun _ h => h.symm) ?_
  · intro e failed
    split at failed
    · cases failed
    · cases failed
      rfl
  · intro entries _ _ read
    split at read
    · cases read
      rfl
    · cases read

theorem removeIfEmpty_moves {paths : TreePath → Prop} (root path : TreePath) (t : FileTree Bytes) :
    (removeIfEmpty root path : WorkProgram Hash Unit).Moves True (FilesAmong paths) (· = .io)
      (fun _ _ => True) t := by
  unfold removeIfEmpty
  split
  · exact Program.Moves.value (.refl t) trivial
  · refine Program.Moves.bind FilesAmong.trans (readDir_moves path t) (fun left t' _ _ => ?_)
    split
    · refine Program.Moves.bind FilesAmong.trans (FileTree.perform_moves _ (.refl t') ?_).attempt
        (fun _ u _ _ => Program.Moves.value (.refl u) trivial)
      exact fun u removed => .of_removed (FileTree.removeDir_node? removed).2.2
    · exact Program.Moves.value (.refl t') trivial

theorem removeOrphan_moves {paths : TreePath → Prop} {t₀ : FileTree Bytes} (wanted : List TreePath)
    (path : TreePath) (was : (t₀.file? path).isSome = true ∨ paths path) (t : FileTree Bytes) :
    (removeOrphan repoRoot wanted path : WorkProgram Hash Unit).Moves True (FilesAmong paths)
      (SweepFails repoRoot paths t₀) (fun _ _ => True) t := by
  unfold removeOrphan
  split
  · exact Program.Moves.value (.refl t) trivial
  · refine (FileTree.perform_moves _ (.refl t) ?_).weaken ?_ (fun _ _ _ h => h)
    · exact fun u removed => .of_removed (FileTree.removeFile_node? removed).2
    · rintro _ rfl
      exact .orphan was

theorem sweepOrphans_moves {paths : TreePath → Prop} {t₀ : FileTree Bytes} (root : TreePath)
    (wanted : List TreePath) (fuel : Nat) (here : TreePath) {t : FileTree Bytes}
    (from_ : FilesAmong paths t₀ t) :
    (sweepOrphans repoRoot root wanted fuel here : WorkProgram Hash Unit).Moves True (FilesAmong paths)
      (SweepFails repoRoot paths t₀) (fun _ _ => True) t := by
  have io : ∀ e : DaemonError Hash, e = .io → SweepFails repoRoot paths t₀ e := by
    rintro _ rfl
    exact .io
  induction fuel generalizing here t with
  | zero => exact Program.Moves.value (.refl t) trivial
  | succ fuel ih =>
    refine Program.Moves.bind FilesAmong.trans ((readDir_moves here t).weaken io (fun _ _ _ h => h)) ?_
    rintro _ t' same rfl
    refine Program.Moves.forEach _ (fun u (_ : FilesAmong paths t₀ u) => .refl u) FilesAmong.trans
      (fun u v moved held => held.trans moved) (from_.trans same) (fun entry mem u held => ?_)
    obtain ⟨name, n⟩ := entry
    cases n with
    | dir =>
      refine Program.Moves.bind FilesAmong.trans (ih _ held) (fun _ v _ _ => ?_)
      exact (removeIfEmpty_moves root _ v).weaken io (fun _ _ _ h => h)
    | file c =>
      refine removeOrphan_moves wanted _ ?_ u
      refine from_ _ ?_
      rw [FileTree.file?, FileTree.mem_readDir.mp mem]
      rfl

theorem sweep_moves {paths : TreePath → Prop} {t₀ t : FileTree Bytes} (wanted : List TreePath)
    (from_ : FilesAmong paths t₀ t) :
    (sweep repoRoot wanted : WorkProgram Hash Unit).Moves True (FilesAmong paths)
      (SweepFails repoRoot paths t₀) (fun _ _ => True) t := by
  refine Program.Moves.bind FilesAmong.trans (Program.Moves.read (.refl t) ?_ .io) ?_
  · rintro _ ⟨⟩
  · exact fun depth u moved _ => sweepOrphans_moves _ wanted _ _ (from_.trans moved)

/-- The repository is left alone, and the files at work are among those of before, or at these paths. -/
structure AtWork (paths : TreePath → Prop) (d d' : Daemon M) : Prop where
  repo : d'.repo = d.repo
  files : FilesAmong paths d.work d'.work

theorem AtWork.refl {paths : TreePath → Prop} (d : Daemon M) : AtWork paths d d := ⟨rfl, .refl d.work⟩

theorem AtWork.trans {paths : TreePath → Prop} {d d' d'' : Daemon M} (first : AtWork paths d d')
    (second : AtWork paths d' d'') : AtWork paths d d'' :=
  ⟨second.repo.trans first.repo, first.files.trans second.files⟩

theorem onWork_moves {paths : TreePath → Prop} {p : WorkProgram Hash Unit}
    {fails : DaemonError Hash → Prop} {d : Daemon M}
    (moves : p.Moves True (FilesAmong paths) fails (fun _ _ => True) d.work) :
    (onWork p : DaemonProgram Hash M Unit).Moves True (AtWork paths) fails (fun _ _ => True) d := by
  exact Program.Moves.focus (fun _ _ => rfl) (fun _ _ _ => rfl) (fun _ => rfl) (fun _ among => ⟨rfl, among⟩)
    moves

variable [DecidableEq Hash] {P : Platform Hash}

theorem restoreEntry_moves {entries : List (String × TypedRef Hash)} {name : String} {r : TypedRef Hash}
    (mem : (name, r) ∈ entries) (d : Daemon M) :
    (restoreEntry repoRoot P name r : DaemonProgram Hash M Unit).Moves True
      (AtWork (EntryPaths entries)) (fun e => e = .io ∨ validateTreeEntryName name = .error e ∨
        LoadFails P d.repo.objects "blob" .blob r.hash e ∨ WriteFails repoRoot name e)
      (fun _ _ => True) d := by
  refine Program.Moves.bind AtWork.trans (Program.Moves.ofExcept (.refl d)
    (fun _ bad => .inr (.inl bad))) (fun _ d₁ at₁ _ => ?_)
  refine Program.Moves.bind AtWork.trans ((onWork_moves (createParents_moves name d₁.work)).weaken
    (fun _ => .inl) (fun _ _ _ h => h)) (fun _ d₂ at₂ _ => ?_)
  have repo : d₂.repo = d.repo := at₂.repo.trans at₁.repo
  refine Program.Moves.bind AtWork.trans (((loadBlob_moves r.hash).relate ?_).weaken ?_
    (fun _ _ _ h => h)) (fun b d₃ _ _ => ?_)
  · rintro _ rfl
    exact .refl d₂
  · rw [repo]
    exact fun _ failed => .inr (.inr (.inl failed))
  · refine (onWork_moves (writeBlobSafely_moves name b.bytes ?_ ?_ d₃.work)).weaken
      (fun _ failed => .inr (.inr (.inr failed))) (fun _ _ _ h => h)
    · exact ⟨_, mem, .inl rfl⟩
    · exact ⟨_, mem, .inr rfl⟩

theorem restorePrompts_moves (hash : Hash) (d : Daemon M) :
    (restorePrompts repoRoot P hash : DaemonProgram Hash M Unit).Moves True
      (fun d d' => d'.repo = d.repo) (RestoreFails repoRoot P d.repo.objects d.work hash)
      (fun _ _ => True) d := by
  have dirs : (onWork (FileTree.createDirAll .io [] promptsDir) : DaemonProgram Hash M Unit).Moves True
      (AtWork (fun _ => False)) (RestoreFails repoRoot P d.repo.objects d.work hash) (fun _ _ => True) d := by
    refine onWork_moves (((FileTree.createDirAll_moves _ [] _ d.work).relate ?_).weaken ?_
      (fun _ _ _ h => h))
    · intro t same q there
      refine .inl ?_
      rwa [← same q]
    · rintro _ rfl
      exact .io
  refine Program.Moves.andThen dirs (fun _ moved => moved.repo) (fun _ _ moved failed => ⟨moved.repo, failed⟩)
    (fun _ d₁ at₁ _ => ?_)
  refine Program.Moves.andThen (loadTree_moves hash) ?_ ?_ ?_
  · rintro _ rfl
    exact at₁.repo
  · rintro e _ rfl failed
    exact ⟨at₁.repo, .tree (at₁.repo ▸ failed)⟩
  rintro tree _ rfl found
  rw [at₁.repo] at found
  have rest : (do
      Program.forEach (fun e => restoreEntry repoRoot P e.1 e.2) tree.entries.entries
      onWork (sweep repoRoot (tree.entries.entries.map (fun e => entryPath e.1))) :
      DaemonProgram Hash M Unit).Moves True (AtWork (EntryPaths tree.entries.entries))
      (RestoreFails repoRoot P d.repo.objects d.work hash) (fun _ _ => True) d₁ := by
    refine Program.Moves.bind AtWork.trans (Program.Moves.forEach _
      (fun u (_ : u.repo = d.repo) => .refl u) AtWork.trans (fun u v moved held => moved.repo.trans held)
      at₁.repo (fun entry mem u held => ?_)) (fun _ d₂ at₂ _ => ?_)
    · refine (restoreEntry_moves mem u).weaken ?_ (fun _ _ _ h => h)
      rw [held]
      rintro e (rfl | failed)
      · exact .io
      · exact .entry found mem failed
    · refine (onWork_moves (sweep_moves _ ?_)).weaken (fun _ failed => .sweep found failed)
        (fun _ _ _ h => h)
      intro q there
      exact (at₂.files q there).elim (fun was => (at₁.files q was).imp_right False.elim) .inr
  refine Program.Safe.mono rest (fun _ moved => moved.repo.trans at₁.repo) ?_
  exact fun _ _ ended => ⟨ended.1.repo.trans at₁.repo, ended.2⟩

end Rollback

end GitAgentic
