import GitAgentic.Core.ApprovalBinding
import GitAgentic.Daemon.Dispatch
import GitAgentic.Daemon.Envelopes
import GitAgentic.Daemon.Undisturbed

/-! The gate before destructive rollbacks: what reaches the backend, and what a refusal
leaves behind. -/
namespace GitAgentic

/-- The first line that is not blank starts with the marker. -/
def FirstLineMarked (sql : String) : Prop :=
  ∃ before line after, Migrate.lines sql.toList = before ++ line :: after ∧
    (∀ blank ∈ before, trim blank = []) ∧ trim line ≠ [] ∧ Migrate.marker.toList <+: trim line

theorem Migrate.marked_iff (ls : List (List Char)) : marked ls = true ↔
    ∃ before line after, ls = before ++ line :: after ∧ (∀ blank ∈ before, trim blank = []) ∧
      trim line ≠ [] ∧ marker.toList <+: trim line := by
  induction ls with
  | nil => simp [marked]
  | cons line rest ih =>
    unfold marked
    by_cases blank : trim line = []
    · rw [if_pos blank, ih]
      constructor
      · rintro ⟨before, found, after, rfl, blanks, shape⟩
        exact ⟨line :: before, found, after, rfl, List.forall_mem_cons.mpr ⟨blank, blanks⟩, shape⟩
      · rintro ⟨before, found, after, split, blanks, shape⟩
        cases before with
        | nil =>
          cases split
          exact absurd blank shape.1
        | cons b before =>
          cases split
          exact ⟨before, found, after, rfl, fun l hl => blanks l (List.mem_cons_of_mem _ hl), shape⟩
    · rw [if_neg blank, List.isPrefixOf_iff_prefix]
      constructor
      · exact fun starts => ⟨[], line, rest, rfl, nofun, blank, starts⟩
      · rintro ⟨before, found, after, split, blanks, _, starts⟩
        cases before with
        | nil =>
          cases split
          exact starts
        | cons b before =>
          cases split
          exact absurd (blanks line List.mem_cons_self) blank

theorem isIrreversible_iff (sql : String) :
    Migrate.isIrreversible sql = true ↔ FirstLineMarked sql := Migrate.marked_iff _

/-- The steps that are loaded for a request which accepts no data loss are unmarked. -/
def Loadable (acceptDataLoss : Bool) (step : MigrationStep) : Prop :=
  FirstLineMarked step.sql → acceptDataLoss = true

section

variable {Hash M : Type}

/-- An error of the gate: no approval, or a step that could not be loaded, above all a
marked one. -/
def Refused : DaemonError Hash → Prop
  | .approval _ => True
  | .context message _ => message = "loading reverse migration files"
  | _ => False

theorem checkIrreversible_ok {name sql : String} {acceptDataLoss : Bool}
    (passed : (Migrate.checkIrreversible name sql acceptDataLoss : Except (DaemonError Hash) Unit) =
      .ok ()) : Loadable acceptDataLoss { name, sql } := by
  intro marked
  unfold Migrate.checkIrreversible at passed
  split at passed
  · assumption
  · rw [if_pos ((isIrreversible_iff sql).mpr marked)] at passed
    cases passed

/-- Whatever happens, an error the program ends with and a value it returns are as
described. -/
def Ends {σ ε α : Type} (fails : ε → Prop) (given : α → Prop) (p : Program σ ε α) : Prop :=
  ∀ s, p.Moves True (fun _ _ => True) fails (fun a _ => given a) s

abbrev Gives {σ ε α : Type} (given : α → Prop) (p : Program σ ε α) : Prop :=
  Ends (fun _ => True) given p

namespace Ends

variable {σ ε δ α β : Type} {fails : ε → Prop} {given : α → Prop} {given' : β → Prop}

theorem value {a : α} (h : given a) : Ends fails given (.done (.ok a) : Program σ ε α) :=
  fun _ => Program.Moves.value trivial h

theorem fail {e : ε} (h : fails e) : Ends fails given (.done (.error e) : Program σ ε α) :=
  fun _ => Program.Moves.fail trivial h

theorem bind {p : Program σ ε α} {k : α → Program σ ε β} (first : Ends fails given p)
    (next : ∀ a, given a → Ends fails given' (k a)) : Ends fails given' (p.bind k) :=
  fun s => Program.Moves.bind (fun _ _ => trivial) (first s) (fun a s' _ h => next a h s')

theorem anything (p : Program σ ε α) : Ends (fun _ => True) (fun _ => True) p := by
  intro s
  refine (Program.Safe.anything p s).mono (fun _ h => h) ?_
  rintro (e | a) _ _
  · exact ⟨trivial, trivial⟩
  · exact ⟨trivial, trivial⟩

theorem call {f : σ → Except ε α × σ} {fault : ε} (failed : fails fault)
    (errors : ∀ s e, (f s).1 = .error e → fails e) :
    Ends fails (fun _ => True) (Program.call f fault) := by
  intro s
  refine ⟨trivial, ⟨trivial, ?_⟩, fun _ => ⟨trivial, failed⟩⟩
  cases outcome : (f s).1 with
  | ok a => trivial
  | error e => exact errors s e outcome

theorem attempt {fails' : δ → Prop} (p : Program σ ε α) :
    Ends fails' (fun _ => True) (p.attempt : Program σ δ (Except ε α)) := by
  intro s
  refine Program.Safe.attempt ((Program.Safe.anything p s).mono (fun _ h => h) ?_)
  exact fun _ _ _ => ⟨trivial, trivial⟩

theorem mapError {f : ε → δ} {p : Program σ ε α} (h : Gives given p) : Gives given (p.mapError f) :=
  fun s => Program.Moves.mapError (fun _ _ => trivial) (h s)

theorem focus {τ : Type} {get : σ → τ} {set : τ → σ → σ} {p : Program τ ε α}
    (h : Ends fails given p) (lens : ∀ t s, get (set t s) = t)
    (again : ∀ t t' s, set t (set t' s) = set t s) (same : ∀ s, set (get s) s = s) :
    Ends fails given (p.focus get set) :=
  fun s => Program.Safe.focus lens again same (h (get s))

theorem forEach {f : β → Program σ ε Unit} (bs : List β)
    (each : ∀ b, Ends fails (fun _ => True) (f b)) :
    Ends fails (fun _ => True) (Program.forEach f bs) := by
  induction bs with
  | nil => exact value trivial
  | cons b bs ih => exact bind (each b) (fun _ _ => ih)

end Ends

theorem loadStep_gives (agenticDir : String) (acceptDataLoss : Bool) (name : String) :
    Gives (Loadable acceptDataLoss)
      (Migrate.loadStep agenticDir acceptDataLoss name : Migrate.SchemaProgram Hash MigrationStep) := by
  refine Ends.bind (Ends.anything _) (fun _ _ => Ends.bind (Ends.anything _) (fun found _ => ?_))
  split
  · refine Ends.bind (Ends.anything _) (fun sql _ => ?_)
    cases checked : (Migrate.checkIrreversible name sql acceptDataLoss :
      Except (DaemonError Hash) Unit) with
    | error e => exact Ends.fail trivial
    | ok passed => exact Ends.value (checkIrreversible_ok checked)
  · exact Ends.fail trivial

theorem loadSteps_gives (agenticDir : String) (names : List String) (acceptDataLoss : Bool) :
    Gives (fun steps => ∀ step ∈ steps, Loadable acceptDataLoss step)
      (Migrate.loadSteps agenticDir names acceptDataLoss : Migrate.SchemaProgram Hash _) := by
  have each : ∀ names, Gives (fun steps => ∀ step ∈ steps, Loadable acceptDataLoss step)
      (Migrate.loadEach agenticDir acceptDataLoss names : Migrate.SchemaProgram Hash _) := by
    intro names
    induction names with
    | nil => exact Ends.value nofun
    | cons name names ih =>
      refine Ends.bind (loadStep_gives agenticDir acceptDataLoss name) (fun step first => ?_)
      exact Ends.bind ih (fun steps others =>
        Ends.value (List.forall_mem_cons.mpr ⟨first, others⟩))
  unfold Migrate.loadSteps
  split
  · exact Ends.value nofun
  · refine Ends.bind (Ends.anything _) (fun found _ => ?_)
    split
    · exact each names
    · exact Ends.fail trivial

/- Errors of other origin. -/

theorem message_ne {a b : String} {c : Char} (first : a.toList.head? = some c) (other : c ≠ 'l') :
    a ++ b ≠ "loading reverse migration files" := by
  intro same
  have chars := congrArg (fun s : String => s.toList.head?) same
  simp only [String.toList_append, List.head?_append, first, Option.some_or] at chars
  exact other (Option.some.inj chars)

theorem not_refused_context {message : String} {cause : DaemonError Hash}
    (h : message ≠ "loading reverse migration files") : ¬ Refused (.context message cause) := h

abbrev Unrefused (p : Rollback.WorkProgram Hash Unit) : Prop :=
  Ends (fun e => ¬ Refused e) (fun _ => True) p

theorem perform_unrefused {e : DaemonError Hash} (h : ¬ Refused e)
    (f : FileTree Bytes → Option (FileTree Bytes)) : Unrefused (FileTree.perform e f) := by
  refine Ends.call h (fun t e' failed => ?_)
  cases done : f t with
  | none =>
    rw [done] at failed
    cases failed
    exact h
  | some t' =>
    rw [done] at failed
    cases failed

theorem createDirAll_unrefused (base : TreePath) (names : List String) :
    Unrefused (FileTree.createDirAll (.io : DaemonError Hash) base names) := by
  induction names generalizing base with
  | nil => exact Ends.value trivial
  | cons name rest ih =>
    refine Ends.bind (Ends.call nofun (fun _ _ failed => by cases failed)) (fun found _ => ?_)
    rcases found with _ | (_ | text)
    · exact Ends.bind (perform_unrefused (e := .io) nofun _) (fun _ _ => ih _)
    · exact ih _
    · exact Ends.fail nofun

variable {repoRoot : String}

theorem writeBlobSafely_unrefused (name : String) (bytes : Bytes) :
    Unrefused (Rollback.writeBlobSafely repoRoot name bytes : Rollback.WorkProgram Hash Unit) := by
  have checking : "checking for symlink at " ++ Rollback.shown repoRoot name ++
      " before prompt write" ≠ "loading reverse migration files" := by
    rw [String.append_assoc]
    exact message_ne rfl (by decide)
  refine Ends.bind (Ends.call checking (fun t e failed => ?_)) (fun _ _ => ?_)
  · dsimp only at failed
    split at failed
    · cases failed
      exact checking
    · cases failed
  refine Ends.bind (perform_unrefused (not_refused_context (message_ne rfl (by decide))) _) (fun _ _ => ?_)
  refine perform_unrefused (not_refused_context ?_) _
  rw [String.append_assoc, String.append_assoc]
  exact message_ne rfl (by decide)

theorem sweep_unrefused (wanted : List TreePath) :
    Unrefused (Rollback.sweep repoRoot wanted : Rollback.WorkProgram Hash Unit) := by
  have readDir : ∀ here, Ends (fun e => ¬ Refused e) (fun _ => True)
      (Rollback.readDir here : Rollback.WorkProgram Hash _) := by
    refine fun here => Ends.call nofun (fun t e failed => ?_)
    dsimp only at failed
    split at failed
    · cases failed
    · cases failed
      exact nofun
  have each : ∀ fuel here, Unrefused
      (Rollback.sweepOrphans repoRoot Rollback.promptsDir wanted fuel here : Rollback.WorkProgram Hash _) := by
    intro fuel
    induction fuel with
    | zero => exact fun _ => Ends.value trivial
    | succ fuel ih =>
      intro here
      refine Ends.bind (readDir here) (fun entries _ => Ends.forEach entries (fun e => ?_))
      rcases e with ⟨name, _ | content⟩
      · refine Ends.bind (ih _) (fun _ _ => ?_)
        unfold Rollback.removeIfEmpty
        split
        · exact Ends.value trivial
        refine Ends.bind (readDir _) (fun left _ => ?_)
        split
        · exact Ends.bind (Ends.attempt _) (fun _ _ => Ends.value trivial)
        · exact Ends.value trivial
      · dsimp only
        unfold Rollback.removeOrphan
        split
        · exact Ends.value trivial
        · refine perform_unrefused (not_refused_context ?_) _
          rw [String.append_assoc, String.append_assoc]
          exact message_ne rfl (by decide)
  exact Ends.bind (Ends.call nofun (fun _ _ => nofun)) (fun depth _ => each _ _)

end

section

variable {Hash M : Type} {approved : Prop} {fails : DaemonError Hash → Prop}

/-- Steps were handed to the backend in between, marked ones only with approval. -/
def Gated (approved : Prop) (d d' : Daemon M) : Prop :=
  ∃ steps, d'.reversed = d.reversed ++ steps ∧ ∀ step ∈ steps, FirstLineMarked step.sql → approved

theorem Gated.of_same {d d' : Daemon M} (h : d'.reversed = d.reversed) : Gated approved d d' :=
  ⟨[], h.trans (List.append_nil _).symm, nofun⟩

theorem Gated.trans {d d' d'' : Daemon M} (first : Gated approved d d') (second : Gated approved d' d'') :
    Gated approved d d'' := by
  obtain ⟨steps, grown, ok⟩ := first
  obtain ⟨more, further, ok'⟩ := second
  refine ⟨steps ++ more, by rw [further, grown, List.append_assoc], ?_⟩
  exact List.forall_mem_append.mpr ⟨ok, ok'⟩

theorem Gated.imp {more : Prop} {d d' : Daemon M} (h : approved → more) (gated : Gated approved d d') :
    Gated more d d' := by
  obtain ⟨steps, grown, ok⟩ := gated
  exact ⟨steps, grown, fun step mem marked => h (ok step mem marked)⟩

/-- No marked step is handed over without approval, and an error is as described. -/
abbrev Keeps {α : Type} (approved : Prop) (fails : DaemonError Hash → Prop)
    (p : DaemonProgram Hash M α) (d : Daemon M) : Prop :=
  p.Moves True (Gated approved) fails (fun _ _ => True) d

namespace Keeps

variable {α β : Type} {d : Daemon M}

theorem value {a : α} : Keeps approved fails (.done (.ok a)) d :=
  Program.Moves.value (Gated.of_same rfl) trivial

theorem fail {e : DaemonError Hash} (h : fails e) :
    Keeps approved fails (.done (.error e) : DaemonProgram Hash M α) d :=
  Program.Moves.fail (Gated.of_same rfl) h

theorem bind {p : DaemonProgram Hash M α} {k : α → DaemonProgram Hash M β}
    (first : Keeps approved fails p d) (next : ∀ a d', Keeps approved fails (k a) d') :
    Keeps approved fails (p.bind k) d :=
  Program.Moves.bind Gated.trans first (fun a d' _ _ => next a d')

theorem context {p : DaemonProgram Hash M α} {message : String}
    (h : message ≠ "loading reverse migration files") (kept : Keeps approved (fun _ => True) p d) :
    Keeps approved (fun e => ¬ Refused e) (withContext message p) d :=
  Program.Moves.mapError (fun _ _ => h) kept

theorem anyError {p : DaemonProgram Hash M α} (kept : Keeps approved fails p d) :
    Keeps approved (fun _ => True) p d := by
  refine Program.Safe.mono kept (fun _ h => h) ?_
  rintro (e | a) _ ⟨gated, _⟩
  · exact ⟨gated, trivial⟩
  · exact ⟨gated, trivial⟩

theorem attempt {p : DaemonProgram Hash M α} {fails' : DaemonError Hash → Prop}
    (kept : Keeps approved fails p d) :
    Keeps approved fails' (p.attempt : DaemonProgram Hash M _) d := by
  refine Program.Moves.mono (Program.Moves.attempt kept) ?_
  exact fun _ _ _ _ => trivial

theorem onRepository (p : Program Repository (Error Hash) α) :
    Keeps approved (fun e => ¬ Refused e) (onRepository p : DaemonProgram Hash M α) d := by
  refine Program.Safe.mapError (Program.Safe.focus (fun _ _ => rfl) (fun _ _ _ => rfl)
    (fun _ => rfl) ((Program.Safe.anything p d.repo).mono (fun _ _ => Gated.of_same rfl) ?_))
  rintro (e | a) _ _
  · exact ⟨Gated.of_same rfl, nofun⟩
  · exact ⟨Gated.of_same rfl, trivial⟩

theorem onStore {ε : Type} (p : Program Files ε α) :
    Keeps approved fails (onStore p.attempt : DaemonProgram Hash M _) d := by
  refine Program.Safe.focus (fun _ _ => rfl) (fun _ _ _ => rfl) (fun _ => rfl)
    (Program.Safe.attempt ((Program.Safe.anything p d.repo.objects).mono
      (fun _ _ => Gated.of_same rfl) ?_))
  exact fun _ _ _ => ⟨Gated.of_same rfl, trivial⟩

theorem onDaemonObjects (p : Program Files (Error Hash) α) :
    Keeps approved (fun e => ¬ Refused e) (onDaemonObjects p : DaemonProgram Hash M α) d := by
  refine Program.Safe.mapError (Program.Safe.focus (fun _ _ => rfl) (fun _ _ _ => rfl)
    (fun _ => rfl) ?_)
  refine (Program.Safe.anything p d.repo.objects).mono (fun _ _ => Gated.of_same rfl) ?_
  rintro (e | a) _ _
  · exact ⟨Gated.of_same rfl, nofun⟩
  · exact ⟨Gated.of_same rfl, trivial⟩

theorem onWork {p : Rollback.WorkProgram Hash Unit} (h : Unrefused p) :
    Keeps approved (fun e => ¬ Refused e) (onWork p : DaemonProgram Hash M Unit) d := by
  refine Program.Safe.focus (fun _ _ => rfl) (fun _ _ _ => rfl) (fun _ => rfl)
    (Program.Safe.mono (h d.work) (fun _ _ => Gated.of_same rfl) ?_)
  exact fun _ _ ended => ⟨Gated.of_same rfl, ended.2⟩

theorem forEach {f : β → DaemonProgram Hash M Unit} (bs : List β)
    (each : ∀ b d', Keeps approved fails (f b) d') : Keeps approved fails (Program.forEach f bs) d := by
  induction bs generalizing d with
  | nil => exact value
  | cons b bs ih => exact bind (each b d) (fun _ _ => ih)

variable [DecidableEq Hash] {P : Platform Hash} {S : FsObjectStore Hash}

theorem toProgram (p : AdapterProgram Hash M α) : Keeps approved (fun _ => True) (p.toProgram P S) d := by
  induction p generalizing d with
  | done r =>
    cases r with
    | error e => exact fail trivial
    | ok a => exact value
  | act step next fault ih ihFault =>
    exact ⟨Gated.of_same rfl, Program.Safe.mono (ih d.memory) (fun _ h => h) (fun _ _ h => h),
      fun _ => ihFault⟩
  | putSegment segment next ih => exact bind (onStore _) (fun stored d' => ih stored)
  | getSegment hash next ih => exact bind (onStore _) (fun found d' => ih found)

variable {config : DaemonConfig Hash M}

theorem loadTree (hash : Hash) :
    Keeps approved (fun e => ¬ Refused e) (Rollback.loadTree P hash : DaemonProgram Hash M _) d := by
  refine bind (onDaemonObjects _) (fun object d' => ?_)
  cases object with
  | tree t => exact value
  | blob _ | commit _ => exact fail nofun

theorem loadBlob (hash : Hash) :
    Keeps approved (fun e => ¬ Refused e) (Rollback.loadBlob P hash : DaemonProgram Hash M _) d := by
  refine bind (onDaemonObjects _) (fun object d' => ?_)
  cases object with
  | blob b => exact value
  | tree _ | commit _ => exact fail nofun

theorem collect (hash : Hash) (entries : List (String × TypedRef Hash)) (out : BTreeMap String Bytes) :
    Keeps approved (fun e => ¬ Refused e)
      (Rollback.treeToMap.collect P hash entries out : DaemonProgram Hash M _) d := by
  induction entries generalizing d out with
  | nil => exact value
  | cons e rest ih =>
    unfold Rollback.treeToMap.collect
    split
    · exact fail (fun refused => False.elim refused)
    · exact bind (loadBlob e.2.hash) (fun blob d' => ih _)

theorem readTextBlobs (hash : Option Hash) :
    Keeps approved (fun e => ¬ Refused e)
      (Rollback.readTextBlobs P hash : DaemonProgram Hash M _) d := by
  cases hash with
  | none => exact value
  | some hash => exact bind (loadTree hash) (fun tree d' => collect _ _ _)

theorem readModelText (target : Commit Hash) :
    Keeps approved (fun e => ¬ Refused e)
      (Rollback.readModelText P target : DaemonProgram Hash M _) d := by
  unfold Rollback.readModelText
  split
  · exact value
  · refine bind (loadBlob _) (fun blob d' => ?_)
    split
    · exact value
    · refine fail (not_refused_context ?_)
      rw [String.append_assoc]
      exact message_ne rfl (by decide)

theorem forwardRecord (targetHash : Hash) (target : Commit Hash) (branch : String)
    (currentTip : Option Hash) (peerUid : Option UInt32) (now : Int) :
    Keeps approved (fun e => ¬ Refused e)
      (Rollback.forwardRecord P config targetHash target branch currentTip peerUid now) d := by
  refine bind (readTextBlobs _) (fun prompts d₁ => bind (readTextBlobs _) (fun tools d₂ => ?_))
  refine bind (readModelText target) (fun model d₃ => context (by decide) ?_)
  exact anyError (onRepository _)

theorem restorePrompts (promptsHash : Hash) :
    Keeps approved (fun e => ¬ Refused e) (Rollback.restorePrompts config.repoRoot P promptsHash) d := by
  refine bind (onWork (createDirAll_unrefused _ _)) (fun _ d₁ => ?_)
  refine bind (loadTree promptsHash) (fun tree d₂ => bind (forEach _ (fun e d₃ => ?_)) (fun _ d₃ =>
    onWork (sweep_unrefused _)))
  have named : Keeps approved (fun e => ¬ Refused e) (Program.ofExcept
      (Rollback.validateTreeEntryName e.1) : DaemonProgram Hash M Unit) d₃ := by
    unfold Rollback.validateTreeEntryName
    split
    · exact fail nofun
    split
    · exact value
    · exact fail nofun
  have parents : Unrefused (Rollback.createParents e.1 : Rollback.WorkProgram Hash Unit) := by
    unfold Rollback.createParents
    dsimp only
    split
    · exact Ends.fail nofun
    · exact createDirAll_unrefused _ _
  refine bind named (fun _ d₄ => bind (onWork parents) (fun _ d₅ => ?_))
  exact bind (loadBlob _) (fun blob d₆ => onWork (writeBlobSafely_unrefused _ _))

theorem promptsStep (args : RollbackArgs) (target : Commit Hash) :
    Keeps approved (fun e => ¬ Refused e) (Rollback.promptsStep P config args target) d := by
  unfold Rollback.promptsStep
  split
  · exact value
  rename_i promptsHash _
  by_cases dry : args.dryRun = true
  · rw [if_pos dry]
    exact value
  · rw [if_neg dry]
    exact bind (restorePrompts promptsHash) (fun _ _ => value)

theorem restoreMemory (adapter : MemoryAdapter Hash M) (manifestHash : Hash) (targetSchema : String) :
    Keeps approved (fun e => ¬ Refused e)
      (Rollback.restoreMemory P config adapter manifestHash targetSchema) d := by
  have decoded : Keeps approved (fun e => ¬ Refused e)
      (Rollback.loadManifest P manifestHash : DaemonProgram Hash M _) d := by
    refine bind (onDaemonObjects _) (fun bytes d' => context (message_ne rfl (by decide)) ?_)
    cases SegmentManifest.fromCanonicalBytes P bytes with
    | error e => exact fail trivial
    | ok m => exact value
  refine bind decoded (fun manifest d₁ => ?_)
  refine bind (context (by decide) (toProgram adapter.beginRestore)) (fun _ d₂ => ?_)
  refine Program.Moves.bind Gated.trans (Program.Moves.attempt (context (by decide) (toProgram _)))
    (fun restored d₃ _ given => ?_)
  cases restored with
  | ok _ => exact ⟨Gated.of_same rfl, ⟨Gated.of_same rfl, trivial⟩, fun _ => ⟨Gated.of_same rfl, trivial⟩⟩
  | error _ => exact ⟨Gated.of_same rfl, ⟨Gated.of_same rfl, given⟩, fun _ => ⟨Gated.of_same rfl, given⟩⟩

end Keeps

/-- Besides, a refused request has changed nothing. -/
def Guarded {α : Type} (approved : Prop) (p : DaemonProgram Hash M α) (d : Daemon M) : Prop :=
  p.Safe True (Gated approved d)
    (fun r d' => Gated approved d d' ∧ ∀ e, r = .error e → Refused e → d' = d) d

namespace Guarded

variable {α β : Type} {d : Daemon M}

theorem still {p : DaemonProgram Hash M α} {k : α → DaemonProgram Hash M β} (first : p.Still)
    (next : ∀ a, Guarded approved (k a) d) : Guarded approved (p.bind k) d := by
  refine Program.Safe.bind ((first.safe d).mono ?_ ?_)
  · rintro _ rfl
    exact Gated.of_same rfl
  · rintro (e | a) _ rfl
    · exact ⟨Gated.of_same rfl, fun _ _ _ => rfl⟩
    · exact next a

theorem of_still {p : DaemonProgram Hash M α} (unmoved : p.Still) : Guarded approved p d := by
  refine (unmoved.safe d).mono ?_ ?_
  · rintro _ rfl
    exact Gated.of_same rfl
  · rintro _ _ rfl
    exact ⟨Gated.of_same rfl, fun _ _ _ => rfl⟩

theorem ended {r : Except (DaemonError Hash) α} : Guarded approved (.done r) d :=
  ⟨Gated.of_same rfl, fun _ _ _ => rfl⟩

theorem ofExcept {r : Except (DaemonError Hash) α} {k : α → DaemonProgram Hash M β}
    (next : ∀ a, r = .ok a → Guarded approved (k a) d) :
    Guarded approved ((Program.ofExcept r).bind k) d := by
  cases r with
  | error e => exact ended
  | ok a => exact next a rfl

theorem of_keeps {p : DaemonProgram Hash M α} (kept : Keeps approved (fun e => ¬ Refused e) p d) :
    Guarded approved p d := by
  refine Program.Safe.mono kept (fun _ h => h) ?_
  rintro (e | a) _ ⟨gated, ended⟩
  · exact ⟨gated, fun _ same refused => absurd refused (Except.error.inj same ▸ ended)⟩
  · exact ⟨gated, nofun⟩

theorem still_gives {p : DaemonProgram Hash M α} {k : α → DaemonProgram Hash M β} {given : α → Prop}
    (first : p.Still) (gives : Gives given p) (next : ∀ a, given a → Guarded approved (k a) d) :
    Guarded approved (p.bind k) d := by
  refine Program.Safe.bind (((first.safe d).and (gives d)).mono ?_ ?_)
  · rintro _ ⟨rfl, _⟩
    exact Gated.of_same rfl
  · rintro (e | a) _ ⟨rfl, _, given⟩
    · exact ⟨Gated.of_same rfl, fun _ _ _ => rfl⟩
    · exact next a given

theorem bind {p : DaemonProgram Hash M α} {k : α → DaemonProgram Hash M β}
    (first : Guarded approved p d)
    (next : ∀ a d', Keeps approved (fun e => ¬ Refused e) (k a) d') :
    Guarded approved (p.bind k) d := by
  refine Program.Safe.bind (Program.Safe.mono first (fun _ h => h) ?_)
  rintro (e | a) d' ⟨gated, unchanged⟩
  · exact ⟨gated, fun _ same refused => unchanged e rfl (Except.error.inj same ▸ refused)⟩
  · refine Program.Safe.mono (next a d') (fun _ h => gated.trans h) ?_
    rintro (e | b) d'' ⟨later, ended⟩
    · exact ⟨gated.trans later, fun _ same refused => absurd refused (Except.error.inj same ▸ ended)⟩
    · exact ⟨gated.trans later, nofun⟩

variable [DecidableEq Hash] {P : Platform Hash} {config : DaemonConfig Hash M} {args : RollbackArgs}

theorem applySteps (adapter : MemoryAdapter Hash M) {steps : List MigrationStep}
    (loadable : ∀ step ∈ steps, FirstLineMarked step.sql → approved) :
    Keeps approved (fun e => ¬ Refused e) (Rollback.applySteps P config adapter steps) d := by
  have handed : Gated approved d { d with reversed := d.reversed ++ steps } := ⟨steps, rfl, loadable⟩
  refine Keeps.context (by decide) ⟨Gated.of_same rfl, ?_, fun _ => Keeps.fail trivial⟩
  refine Program.Safe.mono (Keeps.toProgram _) (fun _ h => handed.trans h) ?_
  exact fun _ _ h => ⟨handed.trans h.1, h.2⟩

theorem reverseMigrations (adapter : MemoryAdapter Hash M) (targetSchema : String)
    (accepted : args.acceptDataLoss = true → approved) :
    Guarded approved (Rollback.reverseMigrations P config adapter args targetSchema) d := by
  refine still (Program.Still.read _ _).mapError (fun live => ?_)
  dsimp only
  split
  · exact ended
  refine still (Program.Still.read _ _).mapError (fun names => ?_)
  have gives : Gives (fun steps => ∀ step ∈ steps, Loadable args.acceptDataLoss step)
      (withContext "loading reverse migration files" (Rollback.onAgentic
        (Migrate.loadSteps config.agenticDir names args.acceptDataLoss)) : DaemonProgram Hash M _) :=
    Ends.mapError (Ends.focus (loadSteps_gives _ _ _) (fun _ _ => rfl) (fun _ _ _ => rfl)
      (fun _ => rfl))
  refine still_gives ((Migrate.loadSteps_still _ _ _).focus (fun _ => rfl)).mapError gives
    (fun steps loaded => ?_)
  by_cases dry : args.dryRun = true
  · rw [if_pos dry]
    exact ended
  · rw [if_neg dry]
    refine of_keeps (Keeps.bind (applySteps adapter (fun step mem marked => ?_)) (fun _ _ => Keeps.value))
    exact accepted (loaded step mem marked)

theorem memoryStep (target : Commit Hash) (accepted : args.acceptDataLoss = true → approved) :
    Guarded approved (Rollback.memoryStep P config args target) d := by
  unfold Rollback.memoryStep
  split
  · exact ended
  split
  · exact ended
  rename_i adapter _
  refine bind (reverseMigrations adapter _ accepted) (fun planned d' => ?_)
  dsimp only
  split
  · exact Keeps.value
  by_cases dry : args.dryRun = true
  · rw [if_pos dry]
    exact Keeps.value
  · rw [if_neg dry]
    exact Keeps.bind (Keeps.restoreMemory adapter _ _) (fun _ _ => Keeps.value)

end Guarded

variable [DecidableEq Hash]

/-- The request accepts data loss, and its token verifies for the commit its target resolves
to and for the user at the socket. -/
structure Approved (P : Platform Hash) (hmac : Hmac) (config : DaemonConfig Hash M)
    (args : RollbackArgs) (peerUid : Option UInt32) (now : UInt64) (t : FileTree TextFile) : Prop where
  accepted : args.acceptDataLoss = true
  verified : ∃ key uid token hash, config.approvalKey = some key ∧ peerUid = some uid ∧
    args.approvalToken = some token ∧ ((Refs.resolve P args.target).run t).1 = .ok (some hash) ∧
    verifyToken hmac key (P.toHex hash) uid token now = .ok ()

variable {P : Platform Hash} {hmac : Hmac} {config : DaemonConfig Hash M} {args : RollbackArgs}
  {peerUid : Option UInt32} {nowSeconds : UInt64} {d : Daemon M}

omit [DecidableEq Hash] in
theorem approved_of_check {hash : Hash} {t : FileTree TextFile}
    (passed : Rollback.checkApproval P hmac config args hash peerUid nowSeconds = .ok ())
    (resolved : ((Refs.resolve P args.target).run t).1 = .ok (some hash))
    (accepted : args.acceptDataLoss = true) :
    Approved P hmac config args peerUid nowSeconds t := by
  refine ⟨accepted, ?_⟩
  rw [Rollback.checkApproval, if_pos accepted] at passed
  unfold Rollback.approvalGate at passed
  cases configured : config.approvalKey with
  | none =>
    rw [configured] at passed
    cases passed
  | some key =>
  cases peer : peerUid with
  | none =>
    rw [configured, peer] at passed
    cases passed
  | some uid =>
  cases given : args.approvalToken with
  | none =>
    rw [configured, peer, given] at passed
    cases passed
  | some token =>
  rw [configured, peer, given] at passed
  cases verified : verifyToken hmac key (P.toHex hash) uid token nowSeconds with
  | error e =>
    simp only [verified] at passed
    cases passed
  | ok _ => exact ⟨key, uid, token, hash, rfl, rfl, rfl, resolved, verified⟩

omit [DecidableEq Hash] in
theorem resolveTarget_safe (target : String) :
    (Rollback.resolveTarget P target : DaemonProgram Hash M Hash).Safe True (· = d)
      (fun r d' => d' = d ∧ ∀ hash, r = .ok hash →
        ((Refs.resolve P target).run d.repo.agentic).1 = .ok (some hash)) d := by
  refine Program.Safe.bind (Program.Safe.mapError (Program.Safe.focus (fun _ _ => rfl)
    (fun _ _ _ => rfl) (fun _ => rfl) (onRefs_safe ((((Refs.resolve_still target).safe _).and
      (Refs.resolve_sure target d.repo.agentic)).mono ?_ ?_))))
  · rintro _ ⟨rfl, _⟩
    rfl
  · rintro (e | found) _ ⟨rfl, sure⟩
    · exact ⟨rfl, nofun⟩
    · cases found with
      | none => exact ⟨rfl, nofun⟩
      | some hash =>
        refine ⟨rfl, ?_⟩
        rintro _ ⟨⟩
        exact sure hash rfl

theorem loadCommit_still (hash : Hash) : (Rollback.loadCommit P hash : DaemonProgram Hash M _).Still := by
  refine Program.Still.bind (readObjects_still _) (fun object => ?_)
  cases object with
  | commit c => trivial
  | blob _ | tree _ => trivial

omit [DecidableEq Hash] in
theorem headBranch_still : (Rollback.headBranch P : DaemonProgram Hash M _).Still := by
  refine Program.Still.bind (onDaemonRefs_still Refs.readHead_still) (fun head => ?_)
  rcases head with _ | (branch | hash)
  · trivial
  · trivial
  · trivial

theorem Rollback.execute_guarded (now : Int) :
    Guarded (Approved P hmac config args peerUid nowSeconds d.repo.agentic)
      (Rollback.execute P hmac config args peerUid nowSeconds now) d := by
  refine Program.Safe.bind ((resolveTarget_safe args.target).mono ?_ ?_)
  · rintro _ rfl
    exact Gated.of_same rfl
  rintro (e | hash) d ⟨rfl, resolved⟩
  · exact Guarded.ended
  refine Guarded.ofExcept (fun _ passed => ?_)
  have approval := approved_of_check passed (resolved hash rfl)
  refine Guarded.still (loadCommit_still hash) (fun target => Guarded.ofExcept (fun _ _ => ?_))
  refine Guarded.still headBranch_still (fun branch => ?_)
  refine Guarded.still (onDaemonRefs_still (Refs.readBranch_still branch)) (fun currentTip => ?_)
  refine Guarded.bind (Guarded.memoryStep target approval) (fun memoryPlan d₁ => ?_)
  refine Keeps.bind (Keeps.promptsStep args target) (fun promptsPlan d₂ => ?_)
  by_cases dry : args.dryRun = true
  · rw [if_pos dry]
    exact Keeps.value
  · rw [if_neg dry]
    exact Keeps.bind (Keeps.forwardRecord hash target branch currentTip peerUid now)
      (fun _ _ => Keeps.value)

omit [DecidableEq Hash] in
theorem fingerprintTools_unrefused {servers : List McpServerSpec}
    {fingerprints : List (Except (DaemonError Hash) Bytes)} {e : DaemonError Hash}
    (failed : Commit.fingerprintTools servers fingerprints = .error e) : ¬ Refused e := by
  unfold Commit.fingerprintTools at failed
  split at failed
  · cases failed
  split at failed
  · cases failed
    exact nofun
  generalize servers.zip fingerprints = answers at failed
  generalize (BTreeMap.empty : BTreeMap String Bytes) = tools at failed
  induction answers generalizing tools with
  | nil => cases failed
  | cons answer rest ih =>
    rw [List.foldlM_cons] at failed
    cases given : answer.2 with
    | ok manifest =>
      rw [given] at failed
      exact ih _ failed
    | error cause =>
      rw [given] at failed
      cases failed
      exact not_refused_context (message_ne rfl (by decide))

theorem Commit.execute_keeps (input : CommitInput)
    (fingerprints : List (Except (DaemonError Hash) Bytes)) (now : Int) :
    Keeps False (fun e => ¬ Refused e) (Commit.executeWithNow P config input peerUid fingerprints now) d := by
  refine Keeps.bind (Keeps.context (by decide) (Keeps.anyError (Keeps.onRepository _))) (fun head d₁ => ?_)
  have reading : "reading branch ref " ++ debugText (Commit.branchOf input head) ++
      " before commit" ≠ "loading reverse migration files" := by
    rw [String.append_assoc]
    exact message_ne rfl (by decide)
  refine Keeps.bind (Keeps.context reading (Keeps.anyError (Keeps.onRepository _))) (fun parent d₂ => ?_)
  have snapshot : Keeps False (fun e => ¬ Refused e)
      (Commit.snapshotMemory P config input.noMemory) d₂ := by
    unfold Commit.snapshotMemory
    split
    · exact Keeps.value
    split
    · exact Keeps.value
    · refine Keeps.bind (Keeps.context (by decide) (Keeps.toProgram _)) (fun handle d₃ => ?_)
      exact Keeps.bind (Keeps.context (by decide) (Keeps.anyError (Keeps.onDaemonObjects _)))
        (fun hash d₄ => Keeps.value)
  have tools : ∀ d', Keeps False (fun e => ¬ Refused e) (Program.ofExcept
      (Commit.fingerprintTools config.mcpServers fingerprints) : DaemonProgram Hash M _) d' := by
    intro d'
    cases answered : Commit.fingerprintTools config.mcpServers fingerprints with
    | error e => exact Keeps.fail (fingerprintTools_unrefused answered)
    | ok _ => exact Keeps.value
  refine Keeps.bind snapshot (fun memory d₃ => Keeps.bind (tools d₃) (fun tools d₄ => ?_))
  have staging : "2PC staging on branch " ++ debugText (Commit.branchOf input head) ≠
      "loading reverse migration files" := message_ne rfl (by decide)
  refine Keeps.bind (Keeps.context staging (Keeps.anyError (Keeps.onRepository _))) (fun out d₅ => ?_)
  have published : Keeps False (fun e => ¬ Refused e) (Commit.publishHead
      (Commit.branchOf input head) head.isNone : DaemonProgram Hash M Unit) d₅ := by
    unfold Commit.publishHead
    split
    · exact Keeps.bind (Keeps.attempt (Keeps.onRepository _)) (fun _ _ => Keeps.value)
    · exact Keeps.value
  exact Keeps.bind published (fun _ _ => Keeps.value)

namespace Daemon

/-- The operation that a frame asks for. -/
def served (codec : WireCodec) (P : Platform Hash) (bytes : Bytes) (peerUid : Option UInt32)
    (fingerprints : List (Except (DaemonError Hash) Bytes)) (nowSeconds : UInt64) (now : Int) :
    Option (Operation Hash) :=
  match parseEnvelopeWithV0Shim codec P bytes with
  | .ok (_, request) => Operation.ofRequest peerUid fingerprints nowSeconds now request
  | .error _ => none

/-- The frame is a request for a rollback, of version 0 or 1, that has been approved. -/
def ApprovedFrame (codec : WireCodec) (P : Platform Hash) (hmac : Hmac)
    (config : DaemonConfig Hash M) (bytes : Bytes) (peerUid : Option UInt32) (nowSeconds : UInt64)
    (t : FileTree TextFile) : Prop :=
  ∃ correlationId target dryRun acceptDataLoss approvalToken,
    parseEnvelopeWithV0Shim codec P bytes =
      .ok (correlationId, .rollback target dryRun acceptDataLoss approvalToken) ∧
    Approved P hmac config { target, dryRun, acceptDataLoss, approvalToken } peerUid nowSeconds t

theorem Operation.guarded (codec : WireCodec) {bytes : Bytes}
    {fingerprints : List (Except (DaemonError Hash) Bytes)} {now : Int} {o : Operation Hash}
    (asked : served codec P bytes peerUid fingerprints nowSeconds now = some o) :
    Guarded (ApprovedFrame codec P hmac config bytes peerUid nowSeconds d.repo.agentic)
      (o.program P hmac config) d := by
  cases parsed : parseEnvelopeWithV0Shim codec P bytes with
  | error e =>
    rw [served, parsed] at asked
    cases asked
  | ok pair =>
  obtain ⟨correlationId, request⟩ := pair
  rw [served, parsed] at asked
  cases request with
  | commit input =>
    cases asked
    refine Guarded.of_keeps (Keeps.bind ?_ (fun _ _ => Keeps.value))
    refine Program.Safe.mono (Commit.execute_keeps input fingerprints now) ?_ ?_
    · exact fun _ h => h.imp False.elim
    · exact fun _ _ h => ⟨h.1.imp False.elim, h.2⟩
  | rollback target dryRun acceptDataLoss approvalToken =>
    cases asked
    refine Guarded.bind (Program.Safe.mono (Rollback.execute_guarded now) ?_ ?_) (fun _ _ => Keeps.value)
    · exact fun _ h => h.imp (fun approved => ⟨correlationId, target, dryRun, acceptDataLoss,
        approvalToken, parsed, approved⟩)
    · exact fun _ _ h => ⟨h.1.imp (fun approved => ⟨correlationId, target, dryRun, acceptDataLoss,
        approvalToken, parsed, approved⟩), h.2⟩
  | diff source target =>
    cases asked
    exact Guarded.of_still (Operation.diff_still P)
  | ping | log _ | resolveRef _ | readObject _ => cases asked

/-- Whatever a frame holds and wherever its operation stops: a marked step went to the backend
only for a rollback that was approved for the very commit and user, and a request that the
gate refused has changed nothing. -/
theorem destructive_gate (codec : WireCodec) {bytes : Bytes}
    {fingerprints : List (Except (DaemonError Hash) Bytes)} {now : Int} {o : Operation Hash}
    (asked : served codec P bytes peerUid fingerprints nowSeconds now = some o)
    {p : DaemonProgram Hash M Unit} {d' : Daemon M}
    (reaches : Program.Reaches (o.program P hmac config, d) (p, d')) :
    (∃ steps, d'.reversed = d.reversed ++ steps ∧ ∀ step ∈ steps, FirstLineMarked step.sql →
      ApprovedFrame codec P hmac config bytes peerUid nowSeconds d.repo.agentic) ∧
    ∀ e, p.result? = some (.error e) → Refused e → d' = d := by
  have stopped := (Operation.guarded codec asked).stopped reaches
  cases outcome : p.result? with
  | none =>
    rw [outcome] at stopped
    exact ⟨stopped, nofun⟩
  | some r =>
    rw [outcome] at stopped
    exact ⟨stopped.1, fun e same refused => stopped.2 e (Option.some.inj same) refused⟩

/- A request that accepts data loss, without a token and with one. -/

namespace Lossy

/-- The names of the applied migrations are the memory. -/
def namesAdapter : MemoryAdapter Bytes (List String) where
  snapshot := .done (.error (.backend .undecodable))
  currentSchemaVersion applied := .ok (applied.getLast?.getD "0.0.0")
  migrationsAfter target applied := .ok (applied.reverse.takeWhile (· ≠ target))
  beginRestore := .done (.ok ())
  restoreWithGuard _ := .done (.error (.backend .undecodable))
  resume applied := applied
  applyReverseMigrations steps :=
    .act (fun applied => applied.take (applied.length - steps.length)) (fun _ => .done (.ok ()))
      (.done (.error (.backend .undecodable)))

def operatorKey : ApprovalKey where
  bytes := List.replicate approvalKeyLen 7
  length := rfl

/-- 32 bytes of the key and the message. -/
def sumHmac : Hmac := fun key message => (List.range 32).map (fun i => key.getD i 0 + message.getD i 0)

def guardedConfig : DaemonConfig Bytes (List String) where
  store := .silent
  memory := some namesAdapter
  mcpServers := []
  approvalKey := some operatorKey
  exemptEntropyPrefixes := []
  repoRoot := "."
  agenticDir := "./.agentic"

/-- A commit from before any migration. -/
def unmigrated : Commit Bytes where
  parent := none
  author := "a"
  timestamp := 0
  message := "m"
  codeSha := none
  prompts := none
  tools := none
  model := none
  memorySnapshot := none
  schemaVersion := some "0.0.0"
  intent := none
  plan := none
  transcript := none
  evals := none
  costCents := 0
  signatures := []
  peerUid := none

def unmigratedHash : Bytes := (Object.commit unmigrated).hash Platform.sample

def dropNotes : MigrationStep where
  name := "001_notes"
  sql := "\n-- IRREVERSIBLE\nDROP TABLE notes;"

def withSchema : FileTree TextFile :=
  ((Refs.opened.createDir Migrate.schemaDir).bind (fun t =>
    t.write (Migrate.schemaDir ++ [dropNotes.name ++ ".down.sql"]) (some dropNotes.sql))).getD FileTree.empty

theorem withSchema_fresh : Refs.Fresh withSchema where
  dir := by decide +kernel
  bare path under := by
    have listed : ∀ p ∈ withSchema.nodes.keys, ["refs", "heads"] <+: p → withSchema.file? p = none := by
      decide +kernel
    by_contra found
    refine found (listed path ?_ under)
    by_contra absent
    rw [FileTree.file?, FileTree.node?, AList.lookup_eq_none.mpr absent] at found
    exact found rfl

/-- `main` is at the commit. -/
def migrated : Daemon (List String) where
  repo := {
    objects := Function.update (fun _ => none) (pathFor Platform.sample unmigratedHash)
      (some (Platform.sample.toVec ((Object.commit unmigrated).toJson Platform.sample)))
    agentic := ((Refs.writeHeadSymbolic "main" : Refs.RefsProgram Bytes Unit).run
      ((Refs.writeBranch Platform.sample "main" unmigratedHash).run withSchema).2).2 }
  work := FileTree.empty
  memory := [dropNotes.name]
  reversed := []

def lossyFrame : Bytes :=
  Platform.sample.toVec (envelopeJson "c" none (RequestV0.rollback "main" false true).toJson)

def approvedFrame (token : String) : Bytes :=
  Platform.sample.toVec (envelopeJson "c" (some protocolVersion)
    ((Wire.Request.rollback "main" false true (some token)).toJson hexCodec))

def lossyArgs (approvalToken : Option String) : RollbackArgs where
  target := "main"
  dryRun := false
  acceptDataLoss := true
  approvalToken := approvalToken

def lossyRollback (approvalToken : Option String) : Operation Bytes :=
  .rollback (lossyArgs approvalToken) (some 0) 5 0

def operatorToken : String := generateToken sumHmac operatorKey (Platform.sample.toHex unmigratedHash) 0 5

theorem served_lossy :
    served hexCodec Platform.sample lossyFrame (some 0) [] 5 0 = some (lossyRollback none) := by
  have parsed := parseEnvelope_v0 Platform.sample hexCodec (r := .rollback "main" false true) trivial "c" (.inl rfl)
  rw [served, lossyFrame, parsed]
  rfl

theorem served_approved (token : String) :
    served hexCodec Platform.sample (approvedFrame token) (some 0) [] 5 0 = some (lossyRollback (some token)) := by
  have parsed := parseEnvelope_v1 Platform.sample hexCodec (r := .rollback "main" false true (some token)) trivial "c"
  rw [served, approvedFrame, parsed]
  rfl

theorem main_written : ((Refs.writeBranch Platform.sample "main" unmigratedHash).run withSchema).1 = .ok () := by
  decide +kernel

theorem migrated_refines : Refs.Refines Platform.sample (Function.update (fun _ => none) "main" (some unmigratedHash))
    migrated.repo.agentic := by
  have first := (Refs.writeBranch_safe (P := Platform.sample) withSchema_fresh.refines "main" unmigratedHash :
    Program.Safe False _ _ _ _).run
  rw [main_written] at first
  have second := (Refs.writeHeadSymbolic_safe first.2.2 "main" : Program.Safe False _ _ _ _).run
  exact second.2.1

theorem migrated_tip : (Refs.readBranch Platform.sample "main").run migrated.repo.agentic =
    (.ok (some unmigratedHash), migrated.repo.agentic) :=
  migrated_refines.readBranch (Function.update_self _ _ _)

theorem gate_passed : Rollback.checkApproval Platform.sample sumHmac guardedConfig (lossyArgs (some operatorToken))
    unmigratedHash (some 0) 5 = .ok () := by
  have width : ∀ key message, (sumHmac key message).length = 32 := by
    intro key message
    rw [sumHmac, List.length_map, List.length_range]
  have verified : verifyToken sumHmac operatorKey (Platform.sample.toHex unmigratedHash) 0 operatorToken 5 = .ok () :=
    (verifyToken_eq_ok_iff operatorKey _ 0 operatorToken 5).mpr
      ⟨5, _, tokenParts_generateToken width operatorKey _ 0 5, by decide, rfl⟩
  have passed : Rollback.approvalGate Platform.sample sumHmac guardedConfig unmigratedHash (some 0)
      (some operatorToken) 5 = .ok () := by
    simp only [Rollback.approvalGate, guardedConfig, verified]
    rfl
  rw [Rollback.checkApproval, if_pos (show (lossyArgs (some operatorToken)).acceptDataLoss = true from rfl)]
  exact congrArg (Except.mapError DaemonError.approval) passed

theorem step_loaded : (Rollback.onAgentic (Migrate.loadSteps "./.agentic" [dropNotes.name] true) :
    DaemonProgram Bytes (List String) _).run migrated = (.ok [dropNotes], migrated) := by
  have read : (Migrate.loadSteps "./.agentic" [dropNotes.name] true :
      Program (FileTree TextFile) (DaemonError Bytes) _).run migrated.repo.agentic =
      (.ok [dropNotes], migrated.repo.agentic) :=
    Prod.ext (by decide +kernel) ((Migrate.loadSteps_still _ _ _).run _)
  rw [Rollback.run_onAgentic, read]

theorem step_applied : ∃ plan, (Rollback.memoryStep Platform.sample guardedConfig (lossyArgs (some operatorToken))
    unmigrated).run migrated = (.ok plan, { migrated with memory := [], reversed := [dropNotes] }) := by
  have version : (withContext "reading live schema version" (readMemory namesAdapter.currentSchemaVersion) :
      DaemonProgram Bytes (List String) String).run migrated = (.ok dropNotes.name, migrated) := rfl
  have pending : (withContext "querying pending reverse migrations" (readMemory
      (namesAdapter.migrationsAfter "0.0.0")) : DaemonProgram Bytes (List String) (List String)).run migrated =
      (.ok [dropNotes.name], migrated) := rfl
  have steps : (withContext "loading reverse migration files" (Rollback.onAgentic (Migrate.loadSteps "./.agentic"
      [dropNotes.name] true)) : DaemonProgram Bytes (List String) _).run migrated = (.ok [dropNotes], migrated) :=
    Program.run_mapError_eq_ok_iff.mpr step_loaded
  have applied : (Rollback.applySteps Platform.sample guardedConfig namesAdapter [dropNotes]).run migrated =
      (.ok (), { migrated with memory := [], reversed := [dropNotes] }) := rfl
  have planned : (Rollback.reverseMigrations Platform.sample guardedConfig namesAdapter
      (lossyArgs (some operatorToken)) "0.0.0").run migrated =
      (.ok ["reverse schema migrations: 001_notes → 0.0.0"],
        { migrated with memory := [], reversed := [dropNotes] }) := by
    refine (Program.run_bind_of_ok version).trans ((Program.run_bind_of_ok pending).trans ?_)
    refine (Program.run_bind_of_ok steps).trans ((Program.run_bind_of_ok applied).trans rfl)
  exact ⟨_, (Program.run_bind_of_ok planned).trans rfl⟩

theorem main_resolved : (Refs.resolve Platform.sample "main").run migrated.repo.agentic =
    (.ok (some unmigratedHash), migrated.repo.agentic) := by
  rw [Refs.resolve, if_neg (by decide), if_neg (by decide)]
  exact migrated_tip

theorem token_missing :
    (((lossyRollback none).program Platform.sample sumHmac guardedConfig).run migrated).1 =
      .error (.approval .tokenRequired) := by
  have read : (onDaemonRefs (Refs.resolve Platform.sample "main") : DaemonProgram Bytes (List String) _).run migrated =
      (.ok (some unmigratedHash), migrated) := by
    rw [run_onDaemonRefs, main_resolved]
    rfl
  have target : (Rollback.resolveTarget Platform.sample "main" : DaemonProgram Bytes (List String) _).run migrated =
      (.ok unmigratedHash, migrated) := Program.run_bind_of_ok read
  exact Program.run_bind_of_error (congrArg Prod.fst (Program.run_bind_of_ok target))

theorem approved_run : ∃ d',
    ((lossyRollback (some operatorToken)).program Platform.sample sumHmac guardedConfig).run migrated =
      (.ok (), d') ∧ d'.reversed = [dropNotes] := by
  have head : (Refs.readHead Platform.sample).run migrated.repo.agentic =
      (.ok (some (.branch "main")), migrated.repo.agentic) :=
    Prod.ext (by decide +kernel) (Refs.readHead_still.run _)
  have slot : slots Platform.sample migrated.repo.objects unmigratedHash =
      some (Platform.sample.toVec ((Object.commit unmigrated).toJson Platform.sample)) := by
    simp only [slots, migrated, Function.update_self]
  have has : Has Platform.sample migrated.repo.objects unmigratedHash (.commit unmigrated) := by
    rw [unmigratedHash] at slot ⊢
    exact has_of_slot slot
  obtain ⟨plan, restored⟩ := step_applied
  let again := Rollback.recordInputs Platform.sample guardedConfig unmigratedHash unmigrated (some unmigratedHash)
    (some 0) BTreeMap.empty BTreeMap.empty none
  obtain ⟨objects, staged, _⟩ := stageCommit_puts (FsObjectStore.silent_accepts again) 0 migrated.repo.objects
  have recorded : (Refs.writeBranch Platform.sample "main"
      ((Object.commit (again.commit Platform.sample 0)).hash Platform.sample)).run migrated.repo.agentic =
      (.ok (), _) := outcome_of (by decide +kernel)
  let after : Daemon (List String) := { migrated with memory := [], reversed := [dropNotes] }
  have record : (Rollback.forwardRecord Platform.sample guardedConfig unmigratedHash unmigrated "main"
      (some unmigratedHash) (some 0) 0).run after = (.ok _, _) :=
    Rollback.run_forwardRecord rfl rfl rfl staged recorded
  have rolled : ∃ out, _ ∧ (Rollback.execute Platform.sample sumHmac guardedConfig (lossyArgs (some operatorToken))
      (some 0) 5 0).run migrated = (.ok out, _) :=
    Rollback.run_execute_stages gate_passed rfl rfl main_resolved has head migrated_tip restored rfl record
  obtain ⟨out, _, ran⟩ := rolled
  exact ⟨_, Program.run_bind_of_ok ran, rfl⟩

end Lossy

open Lossy in
theorem destructive_gate_lossy :
    (let after := ((lossyRollback none).program Platform.sample sumHmac guardedConfig).run migrated
     after.1 = .error (.approval .tokenRequired) ∧ after.2 = migrated) ∧
    ∃ d', ((lossyRollback (some operatorToken)).program Platform.sample sumHmac guardedConfig).run migrated =
        (.ok (), d') ∧ d'.reversed = [dropNotes] ∧
      ApprovedFrame hexCodec Platform.sample sumHmac guardedConfig (approvedFrame operatorToken) (some 0) 5
        migrated.repo.agentic := by
  constructor
  · refine ⟨token_missing, (destructive_gate hexCodec served_lossy (Program.reaches_run _ migrated)).2
      (.approval .tokenRequired) ?_ trivial⟩
    rw [token_missing]
    rfl
  · obtain ⟨d', ran, reversed⟩ := approved_run
    have reaches := Program.reaches_run ((lossyRollback (some operatorToken)).program Platform.sample sumHmac
      guardedConfig) migrated
    rw [ran] at reaches
    obtain ⟨steps, same, gated⟩ := (destructive_gate hexCodec (served_approved operatorToken) reaches).1
    have all : steps = [dropNotes] := same.symm.trans reversed
    have marked : FirstLineMarked dropNotes.sql := (isIrreversible_iff dropNotes.sql).mp (by decide +kernel)
    exact ⟨d', ran, reversed, gated dropNotes (all ▸ List.mem_singleton_self dropNotes) marked⟩

end Daemon

end

end GitAgentic
