import GitAgentic.Daemon.Commit
import GitAgentic.Daemon.Graph
import GitAgentic.Daemon.Rollback

/-! Everything a request does before its branch moves: objects are added to the store, the
refs stay, however it is cut off. -/
namespace GitAgentic

variable {Hash M : Type}

/-- Objects were added, the refs are as they were. -/
structure Ahead (P : Platform Hash) (d d' : Daemon M) : Prop where
  kept : Retains (canonicalKinds P) d.repo.objects d'.repo.objects
  refs : d'.repo.agentic = d.repo.agentic

/-- The program adds objects at most, and a value it returns is as described. -/
abbrev Adds {α : Type} (faults : Prop) (P : Platform Hash) (gives : α → Daemon M → Prop)
    (p : DaemonProgram Hash M α) (d : Daemon M) : Prop :=
  p.Moves faults (Ahead P) (fun _ => True) gives d

variable {P : Platform Hash} {d d' d'' : Daemon M} {faults : Prop} {α β ε : Type}

theorem Ahead.refl (typed : (canonicalKinds P).Typed d.repo.objects) : Ahead P d d :=
  ⟨Retains.refl typed, rfl⟩

theorem Ahead.trans (first : Ahead P d d') (second : Ahead P d' d'') : Ahead P d d'' :=
  ⟨first.kept.trans second.kept, second.refs.trans first.refs⟩

theorem Ahead.typed (h : Ahead P d d') : (canonicalKinds P).Typed d'.repo.objects := h.kept.typed

namespace Adds

variable {gives : α → Daemon M → Prop} {gives' : β → Daemon M → Prop}

theorem value {a : α} (typed : (canonicalKinds P).Typed d.repo.objects) (h : gives a d) :
    Adds faults P gives (.done (.ok a)) d := Program.Moves.value (Ahead.refl typed) h

theorem fail {e : DaemonError Hash} (typed : (canonicalKinds P).Typed d.repo.objects) :
    Adds faults P gives (.done (.error e)) d := Program.Moves.fail (Ahead.refl typed) trivial

theorem bind {p : DaemonProgram Hash M α} {k : α → DaemonProgram Hash M β}
    (first : Adds faults P gives p d)
    (next : ∀ a d', Ahead P d d' → gives a d' → Adds faults P gives' (k a) d') :
    Adds faults P gives' (p.bind k) d := Program.Moves.bind Ahead.trans first next

theorem andThen {p : DaemonProgram Hash M α} {k : α → DaemonProgram Hash M β}
    {inv : Daemon M → Prop} {post : Except (DaemonError Hash) β → Daemon M → Prop}
    (first : Adds faults P gives p d) (stop : ∀ d', Ahead P d d' → inv d')
    (failed : ∀ e d', Ahead P d d' → post (.error e) d')
    (next : ∀ a d', Ahead P d d' → gives a d' → (k a).Safe faults inv post d') :
    (p.bind k).Safe faults inv post d :=
  Program.Moves.andThen first stop (fun e d' ahead _ => failed e d' ahead) next

theorem context {p : DaemonProgram Hash M α} {message : String} (h : Adds faults P gives p d) :
    Adds faults P gives (withContext message p) d := Program.Moves.mapError (fun _ _ => trivial) h

theorem still {p : DaemonProgram Hash M α} (typed : (canonicalKinds P).Typed d.repo.objects)
    (still : p.Still) : Adds faults P (fun _ _ => True) p d :=
  Program.Moves.still (Ahead.refl typed) still

theorem onAgentic_still {p : Program (FileTree TextFile) (DaemonError Hash) α}
    (typed : (canonicalKinds P).Typed d.repo.objects) (still : p.Still) :
    Adds faults P (fun _ _ => True) (Rollback.onAgentic p : DaemonProgram Hash M α) d := by
  refine Program.Safe.focus (fun _ _ => rfl) (fun _ _ _ => rfl) (fun _ => rfl)
    ((still.safe d.repo.agentic).mono ?_ ?_)
  · rintro _ rfl
    exact Ahead.refl typed
  · rintro (e | a) _ rfl
    · exact ⟨Ahead.refl typed, trivial⟩
    · exact ⟨Ahead.refl typed, trivial⟩

theorem onDaemonRefs {p : Refs.RefsProgram Hash α} {found : α → Prop}
    (typed : (canonicalKinds P).Typed d.repo.objects)
    (safe : p.Safe faults (· = d.repo.agentic)
      (fun r t => t = d.repo.agentic ∧ ∀ a, r = .ok a → found a) d.repo.agentic) :
    Adds faults P (fun a _ => found a) (onDaemonRefs p : DaemonProgram Hash M α) d := by
  refine Program.Safe.mapError (Program.Safe.focus (fun _ _ => rfl) (fun _ _ _ => rfl)
    (fun _ => rfl) (onRefs_safe (safe.mono ?_ ?_)))
  · rintro _ rfl
    exact Ahead.refl typed
  · rintro (e | a) _ ⟨rfl, given⟩
    · exact ⟨Ahead.refl typed, trivial⟩
    · exact ⟨Ahead.refl typed, given a rfl⟩

theorem onDaemonRefs_still {p : Refs.RefsProgram Hash α}
    (typed : (canonicalKinds P).Typed d.repo.objects) (still : p.Still) :
    Adds faults P (fun _ _ => True) (GitAgentic.onDaemonRefs p : DaemonProgram Hash M α) d :=
  onDaemonRefs typed ((still.safe _).mono (fun _ h => h) (fun _ _ h => ⟨h, fun _ _ => trivial⟩))

theorem onDaemonObjects {p : Program Files (Error Hash) α} {found : α → Files → Prop}
    (safe : p.Safe faults (Retains (canonicalKinds P) d.repo.objects)
      (fun r files => Retains (canonicalKinds P) d.repo.objects files ∧ ∀ a, r = .ok a → found a files)
      d.repo.objects) :
    Adds faults P (fun a d' => found a d'.repo.objects) (onDaemonObjects p) d := by
  refine Program.Safe.mapError (Program.Safe.focus (fun _ _ => rfl) (fun _ _ _ => rfl)
    (fun _ => rfl) (safe.mono (fun _ kept => ⟨kept, rfl⟩) ?_))
  rintro (e | a) files ⟨kept, given⟩
  · exact ⟨⟨kept, rfl⟩, trivial⟩
  · exact ⟨⟨kept, rfl⟩, given a rfl⟩

theorem readObjects {f : Files → Except (Error Hash) α}
    (typed : (canonicalKinds P).Typed d.repo.objects) :
    Adds faults P (fun a d' => f d'.repo.objects = .ok a) (readObjects f) d := by
  have safe : (Program.read f .io).Safe faults (Retains (canonicalKinds P) d.repo.objects)
      (fun r files => Retains (canonicalKinds P) d.repo.objects files ∧ ∀ a, r = .ok a → f files = .ok a)
      d.repo.objects :=
    Program.Safe.call (Retains.refl typed) ⟨Retains.refl typed, fun _ h => h⟩
      (fun _ => ⟨Retains.refl typed, nofun⟩)
  exact onDaemonObjects safe

theorem readMemory {f : M → Except (MemoryError Hash) α}
    (typed : (canonicalKinds P).Typed d.repo.objects) :
    Adds faults P (fun _ _ => True) (readMemory f) d :=
  still typed (Program.Still.read _ _)

theorem onWork {p : Program (FileTree Bytes) (DaemonError Hash) α}
    (typed : (canonicalKinds P).Typed d.repo.objects) :
    Adds faults P (fun _ _ => True) (onWork p : DaemonProgram Hash M α) d := by
  refine Program.Safe.focus (fun _ _ => rfl) (fun _ _ _ => rfl) (fun _ => rfl)
    ((Program.Safe.anything p d.work).mono ?_ ?_)
  · exact fun _ _ => ⟨Retains.refl typed, rfl⟩
  · rintro (e | a) _ _
    · exact ⟨⟨Retains.refl typed, rfl⟩, trivial⟩
    · exact ⟨⟨Retains.refl typed, rfl⟩, trivial⟩

theorem forEach {f : β → DaemonProgram Hash M Unit} (bs : List β)
    (typed : (canonicalKinds P).Typed d.repo.objects)
    (each : ∀ b ∈ bs, ∀ d', (canonicalKinds P).Typed d'.repo.objects →
      Adds faults P (fun _ _ => True) (f b) d') :
    Adds faults P (fun _ _ => True) (Program.forEach f bs) d :=
  Program.Moves.forEach bs (fun _ (typed : (canonicalKinds P).Typed _) => Ahead.refl typed) Ahead.trans
    (fun _ _ ahead _ => ahead.typed) typed each

theorem toProgram [DecidableEq Hash] {S : FsObjectStore Hash} (p : AdapterProgram Hash M α)
    (typed : (canonicalKinds P).Typed d.repo.objects) :
    Adds faults P (fun _ _ => True) (p.toProgram P S) d := by
  have inStore : ∀ {γ : Type} {q : Program Files (Error Hash) γ} {d : Daemon M},
      q.Safe faults (Retains (canonicalKinds P) d.repo.objects)
        (fun _ files => Retains (canonicalKinds P) d.repo.objects files) d.repo.objects →
      Adds faults P (fun _ _ => True) (onStore q.attempt : DaemonProgram Hash M _) d := by
    intro γ q d safe
    refine Program.Safe.focus (fun _ _ => rfl) (fun _ _ _ => rfl) (fun _ => rfl)
      (Program.Safe.attempt (safe.mono (fun _ kept => ⟨kept, rfl⟩) ?_))
    exact fun _ _ kept => ⟨⟨kept, rfl⟩, trivial⟩
  induction p generalizing d with
  | done r =>
    cases r with
    | error e => exact fail typed
    | ok a => exact value typed trivial
  | act step next fault ih ihFault =>
    exact ⟨Ahead.refl typed, Program.Safe.mono (ih d.memory typed) (fun _ h => ⟨h.kept, h.refs⟩)
      (fun _ _ h => ⟨⟨h.1.kept, h.1.refs⟩, h.2⟩), fun _ => ihFault typed⟩
  | putSegment segment next ih =>
    refine bind (inStore ((putRaw_safe S (kindOf_segment P segment) (Retains.refl typed)).mono
      (fun _ h => h) (fun _ _ h => h.1))) (fun stored d' ahead _ => ih stored ahead.typed)
  | getSegment hash next ih =>
    refine bind (inStore (Program.Safe.call (Retains.refl typed) (Retains.refl typed)
      (fun _ => Retains.refl typed))) (fun found d' ahead _ => ih found ahead.typed)

end Adds

end GitAgentic
