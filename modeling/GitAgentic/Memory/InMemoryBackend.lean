import GitAgentic.Daemon.Undisturbed
import GitAgentic.Memory.InMemorySnapshot

/-! The backend in memory, as the daemon sees it. -/
namespace GitAgentic

namespace InMemoryAdapter

section

variable {Hash : Type} (P : Platform Hash)

/-- Under the lock of the state. Only where a step is taken to fail by itself does this end in an
error; the code has none for it. -/
def locked {α : Type} (step : InMemoryState → InMemoryState)
    (next : InMemoryState → AdapterProgram Hash InMemoryState α) : AdapterProgram Hash InMemoryState α :=
  .act step next (.done (.error (.other "")))

def putTables (version : String) : List (String × InMemoryTable) → SegmentManifest Hash →
    AdapterProgram Hash InMemoryState (SnapshotHandle Hash)
  | [], manifest => .done (.ok { manifest, schemaVersion := version })
  | (table, t) :: rest, manifest =>
    if t.rows = [] then putTables version rest manifest
    else .putSegment (segmentOf version table t.rows) (fun stored =>
      match stored with
      | .error e => .done (.error (.core e))
      | .ok segment => putTables version rest (manifest.push P (refOf table t.rows segment)))

/-- All tables are there before any is replaced. -/
def getTables : List (SegmentRef Hash) → AList (fun _ : String => InMemoryTable) →
    AdapterProgram Hash InMemoryState Unit
  | [], tables => locked (fun st => { st with tables }) (fun _ => .done (.ok ()))
  | entry :: rest, tables => .getSegment entry.segment (fun found =>
      match found with
      | .error e => .done (.error (.core e))
      | .ok bytes =>
        match Segment.fromSlice P bytes with
        | none => .done (.error (.backend .undecodable))
        | some segment => getTables rest (extendRows entry.table segment.rows tables))

def adapter : MemoryAdapter Hash InMemoryState where
  snapshot := locked id (fun st => putTables P st.schemaVersion (sortedTables st) (.new st.schemaVersion))
  currentSchemaVersion st := .ok st.schemaVersion
  migrationsAfter target st := migrationsAfter target st
  beginRestore := .done (.ok ())
  restoreWithGuard target := locked id (fun st =>
    if st.schemaVersion ≠ target.schemaVersion then
      .done (.error (.schemaMismatch st.schemaVersion target.schemaVersion))
    else getTables P target.manifest.entries ∅)
  resume st := st
  applyReverseMigrations steps := locked (fun st => (@applyReverseMigrations Hash steps st).2)
    (fun st => .done (applyReverseMigrations steps st).1)

end

variable {Hash : Type} [DecidableEq Hash] {P : Platform Hash} {S : FsObjectStore Hash} {d d' : Daemon InMemoryState}

theorem run_putSegment {α : Type} (segment : Segment)
    (next : Except (Error Hash) Hash → AdapterProgram Hash InMemoryState α) (d : Daemon InMemoryState) :
    ∃ stored objects, ((AdapterProgram.putSegment segment next).toProgram P S).run d =
        ((next stored).toProgram P S).run { d with repo := { d.repo with objects } } ∧
      ∀ hash, stored = .ok hash → hash = segment.hash P := by
  have ran : (onStore (S.putRawProgram P .segment (segment.toCanonicalBytes P)).attempt :
      DaemonProgram Hash InMemoryState (Except (Error Hash) Hash)).run d = _ := run_onStore _ d
  rw [Program.run_attempt, run_putRawProgram] at ran
  refine ⟨_, _, Program.run_bind_of_ok ran, fun hash accepted => ?_⟩
  rcases putRaw_cases P S .segment (segment.toCanonicalBytes P) d.repo.objects with ⟨hits, refused⟩ | ⟨files, ok, _⟩
  · rw [refused] at accepted
    cases accepted
  · rw [ok] at accepted
    exact (Except.ok.inj accepted).symm

theorem run_getSegment {α : Type} (hash : Hash)
    (next : Except (Error Hash) Bytes → AdapterProgram Hash InMemoryState α) (d : Daemon InMemoryState) :
    ((AdapterProgram.getSegment hash next).toProgram P S).run d =
      ((next (getRaw P d.repo.objects hash)).toProgram P S).run d := by
  have ran : (onStore (Program.read (fun files => getRaw P files hash) .io).attempt :
      DaemonProgram Hash InMemoryState (Except (Error Hash) Bytes)).run d =
      (.ok (getRaw P d.repo.objects hash), d) := by
    rw [run_onStore, Program.run_attempt, Program.run_read]
  exact Program.run_bind_of_ok ran

theorem putTables_run {version : String} {tables : List (String × InMemoryTable)} {manifest : SegmentManifest Hash}
    {handle : SnapshotHandle Hash}
    (ran : ((putTables P version tables manifest).toProgram P S).run d = (.ok handle, d')) :
    handle = {
      manifest := (((tables.filter (fun t => t.2.rows ≠ [])).map (fun t => (t.1, t.2.rows))).map
        (refIn P version)).foldl (SegmentManifest.push P) manifest
      schemaVersion := version } ∧ d'.memory = d.memory := by
  induction tables generalizing manifest d with
  | nil =>
    cases ran
    exact ⟨rfl, rfl⟩
  | cons t rest ih =>
    obtain ⟨table, t⟩ := t
    rw [putTables] at ran
    by_cases empty : t.rows = []
    · rw [if_pos empty] at ran
      rw [List.filter_cons_of_neg (by simpa using empty)]
      exact ih ran
    · rw [if_neg empty] at ran
      obtain ⟨stored, objects, step, address⟩ := run_putSegment (P := P) (S := S) (segmentOf version table t.rows)
        (fun stored => match stored with
          | .error e => .done (.error (.core e))
          | .ok segment => putTables P version rest (manifest.push P (refOf table t.rows segment))) d
      rw [step] at ran
      cases stored with
      | error e => cases ran
      | ok segment =>
        obtain rfl := address segment rfl
        rw [List.filter_cons_of_pos (by simpa using empty)]
        have others := ih ran
        exact others

theorem snapshot_run {handle : SnapshotHandle Hash}
    (ran : ((adapter P).snapshot.toProgram P S).run d = (.ok handle, d')) :
    handle.schemaVersion = d.memory.schemaVersion ∧
    handle.manifest.entries = Arrange.arrange (SegmentManifest.keyOf P)
      ((filled d.memory).map (refIn P d.memory.schemaVersion)) ∧ d'.memory = d.memory := by
  obtain ⟨rfl, same⟩ := putTables_run (d := { d with memory := id d.memory }) ran
  refine ⟨rfl, ?_, same⟩
  dsimp only
  rw [SegmentManifest.foldl_push]
  rfl

theorem getTables_run (entries : List (SegmentRef Hash)) (tables : AList (fun _ : String => InMemoryTable))
    (d : Daemon InMemoryState) :
    ((getTables P entries tables).toProgram P S).run d =
      match rebuild P (getRaw P d.repo.objects) entries tables with
      | .ok tables => (.ok (), { d with memory := { d.memory with tables } })
      | .error e => (.error (.memory e), d) := by
  induction entries generalizing tables with
  | nil => rfl
  | cons entry rest ih =>
    rw [getTables, run_getSegment, rebuild]
    cases getRaw P d.repo.objects entry.segment with
    | error e => rfl
    | ok bytes =>
      dsimp only
      cases Segment.fromSlice P bytes with
      | none => rfl
      | some segment => exact ih _

theorem restore_run (target : SnapshotHandle Hash) (d : Daemon InMemoryState) :
    (((adapter P).restoreWithGuard target).toProgram P S).run d =
      ((restoreWithGuard P (getRaw P d.repo.objects) target d.memory).1.mapError .memory,
        { d with memory := (restoreWithGuard P (getRaw P d.repo.objects) target d.memory).2 }) := by
  show Program.run (AdapterProgram.toProgram P S (if _ then _ else _)) _ = _
  unfold restoreWithGuard
  by_cases other : d.memory.schemaVersion ≠ target.schemaVersion
  · rw [if_pos other, if_pos other]
    rfl
  · rw [if_neg other, if_neg other, getTables_run]
    dsimp only [id]
    cases rebuild P (getRaw P d.repo.objects) target.manifest.entries ∅ <;> rfl

omit [DecidableEq Hash] in
theorem read_of_rebuild {getRaw : Hash → Except (Error Hash) Bytes} {entries : List (SegmentRef Hash)}
    {tables tables' : AList (fun _ : String => InMemoryTable)}
    (rebuilt : rebuild P getRaw entries tables = .ok tables') :
    ∀ e ∈ entries, ∃ bytes, getRaw e.segment = .ok bytes := by
  induction entries generalizing tables with
  | nil => exact fun _ mem => absurd mem List.not_mem_nil
  | cons entry rest ih =>
    rw [rebuild] at rebuilt
    cases read : getRaw entry.segment with
    | error e =>
      rw [read] at rebuilt
      cases rebuilt
    | ok bytes =>
      rw [read] at rebuilt
      dsimp only at rebuilt
      cases decoded : Segment.fromSlice P bytes with
      | none =>
        rw [decoded] at rebuilt
        cases rebuilt
      | some segment =>
        rw [decoded] at rebuilt
        rintro e mem
        rcases List.mem_cons.mp mem with rfl | mem
        · exact ⟨bytes, read⟩
        · exact ih rebuilt e mem

end InMemoryAdapter

end GitAgentic
