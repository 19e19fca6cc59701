import GitAgentic.Daemon.State

/-! The backend that keeps its tables in memory: snapshots go through segments in the object
store as with a database, migrations are names only. -/
namespace GitAgentic

structure InMemoryTable where
  rows : List Value

/-- The tables are in no particular order. Migrations are listed oldest first. -/
structure InMemoryState where
  schemaVersion : String
  tables : AList (fun _ : String => InMemoryTable)
  appliedMigrations : List String

namespace InMemoryAdapter

def baseline : String := "0.0.0"

def new : InMemoryState := { schemaVersion := baseline, tables := ∅, appliedMigrations := [] }

def setSchemaVersion (version : String) (st : InMemoryState) : InMemoryState :=
  { st with schemaVersion := version }

def applyMigration (name : String) (st : InMemoryState) : InMemoryState :=
  { st with appliedMigrations := st.appliedMigrations ++ [name], schemaVersion := name }

/-- `entry(table).or_default().rows.extend(rows)` -/
def extendRows (table : String) (rows : List Value) (tables : AList (fun _ : String => InMemoryTable)) :
    AList (fun _ : String => InMemoryTable) :=
  tables.insert table { rows := ((tables.lookup table).map InMemoryTable.rows).getD [] ++ rows }

def insertRows (table : String) (rows : List Value) (st : InMemoryState) : InMemoryState :=
  { st with tables := extendRows table rows st.tables }

def rowsOf (table : String) (st : InMemoryState) : List Value :=
  ((st.tables.lookup table).map InMemoryTable.rows).getD []

/-- What comes after the target, newest first. -/
def migrationsAfter {Hash : Type} (target : String) (st : InMemoryState) :
    Except (MemoryError Hash) (List String) :=
  if target = baseline then .ok st.appliedMigrations.reverse
  else match st.appliedMigrations.findIdx? (· = target) with
    | some pos => .ok (st.appliedMigrations.drop (pos + 1)).reverse
    | none =>
      if target = st.schemaVersion then .ok []
      else .error (.other ("InMemoryAdapter::migrations_after: target schema_version " ++
        debugText target ++ " is not the baseline ('0.0.0'), not a recorded migration, and not the " ++
        "live schema (" ++ debugText st.schemaVersion ++ "); reversing an unknown target is unsafe"))

/-- The steps take the applied migrations from the newest on. -/
def checkSteps {Hash : Type} : List String → List MigrationStep → Except (MemoryError Hash) Unit
  | _, [] => .ok ()
  | applied :: expected, step :: steps =>
    if applied = step.name then checkSteps expected steps
    else .error (.other ("InMemoryAdapter::apply_reverse_migrations: step " ++ debugText step.name ++
      " does not match the most recent unreversed migration " ++ debugText applied ++
      "; state unchanged"))
  | [], step :: _ =>
    .error (.other ("InMemoryAdapter::apply_reverse_migrations: step " ++ debugText step.name ++
      " has no corresponding applied migration; state unchanged"))

def applyReverseMigrations {Hash : Type} (steps : List MigrationStep) (st : InMemoryState) :
    Except (MemoryError Hash) Unit × InMemoryState :=
  if steps = [] then (.ok (), st)
  else match checkSteps st.appliedMigrations.reverse steps with
    | .error e => (.error e, st)
    | .ok () =>
      let kept := st.appliedMigrations.take (st.appliedMigrations.length - steps.length)
      (.ok (), { st with appliedMigrations := kept, schemaVersion := kept.getLast?.getD baseline })

/- Migrations. -/

/-- The calls that change which migrations are applied. -/
inductive MigrationCall where
  | apply (name : String)
  | reverse (steps : List MigrationStep)

def MigrationCall.step (Hash : Type) (st : InMemoryState) : MigrationCall → InMemoryState
  | .apply name => applyMigration name st
  | .reverse steps => (applyReverseMigrations steps st : Except (MemoryError Hash) Unit × InMemoryState).2

section

variable {Hash : Type}

theorem checkSteps_eq_ok_iff (expected : List String) (steps : List MigrationStep) :
    (checkSteps expected steps : Except (MemoryError Hash) Unit) = .ok () ↔
      steps.map MigrationStep.name <+: expected := by
  induction steps generalizing expected with
  | nil => simp [checkSteps]
  | cons step steps ih =>
    cases expected with
    | nil => simp [checkSteps]
    | cons applied expected =>
      rw [checkSteps, List.map_cons, List.cons_prefix_cons]
      by_cases same : applied = step.name
      · rw [if_pos same, ih expected]
        exact (and_iff_right same.symm).symm
      · rw [if_neg same]
        simp [Ne.symm same]

theorem applyReverseMigrations_cases (steps : List MigrationStep) (st : InMemoryState) :
    (¬ steps.map MigrationStep.name <+: st.appliedMigrations.reverse ∧
      ∃ e : MemoryError Hash, applyReverseMigrations steps st = (.error e, st)) ∨
    ∃ st', (applyReverseMigrations steps st : Except (MemoryError Hash) Unit × InMemoryState) =
        (.ok (), st') ∧
      st'.appliedMigrations ++ (steps.map MigrationStep.name).reverse = st.appliedMigrations ∧
      st'.tables = st.tables ∧
      (steps = [] ∧ st' = st ∨ st'.schemaVersion = st'.appliedMigrations.getLast?.getD baseline) := by
  unfold applyReverseMigrations
  by_cases none_ : steps = []
  · subst none_
    exact Or.inr ⟨st, if_pos rfl, by simp, rfl, Or.inl ⟨rfl, rfl⟩⟩
  · rw [if_neg none_]
    have checked : (checkSteps _ steps : Except (MemoryError Hash) Unit) = .ok () ↔ _ :=
      checkSteps_eq_ok_iff st.appliedMigrations.reverse steps
    cases result : (checkSteps st.appliedMigrations.reverse steps : Except (MemoryError Hash) Unit) with
    | error e =>
      refine Or.inl ⟨fun newest => ?_, e, rfl⟩
      rw [checked.mpr newest] at result
      cases result
    | ok _ =>
      obtain ⟨older, split⟩ := checked.mp result
      have whole : st.appliedMigrations = older.reverse ++ (steps.map MigrationStep.name).reverse := by
        rw [← List.reverse_append, split, List.reverse_reverse]
      refine Or.inr ⟨_, rfl, ?_, rfl, Or.inr rfl⟩
      show st.appliedMigrations.take _ ++ _ = _
      have kept : st.appliedMigrations.length - steps.length = older.reverse.length := by
        rw [whole]
        simp
      rw [kept, whole, List.take_left]

/-- The live version is the newest migration, or the baseline. -/
def Live (st : InMemoryState) : Prop :=
  st.schemaVersion = st.appliedMigrations.getLast?.getD baseline

theorem Live.step {st : InMemoryState} (live : Live st) (call : MigrationCall) :
    Live (call.step Hash st) := by
  cases call with
  | apply name => simp [Live, MigrationCall.step, applyMigration]
  | reverse steps =>
    rcases applyReverseMigrations_cases steps st with ⟨_, e, refused⟩ | ⟨st', ran, _, _, ended⟩
    · rw [MigrationCall.step, refused]
      exact live
    · rw [MigrationCall.step, ran]
      rcases ended with ⟨_, rfl⟩ | version
      · exact live
      · exact version

theorem Live.run {st : InMemoryState} (live : Live st) (calls : List MigrationCall) :
    Live (calls.foldl (MigrationCall.step Hash) st) := by
  induction calls generalizing st with
  | nil => exact live
  | cons call calls ih => exact ih (live.step call)

theorem migrationsAfter_cases {st : InMemoryState} (live : Live st) {target : String}
    {names : List String}
    (planned : (migrationsAfter target st : Except (MemoryError Hash) (List String)) = .ok names) :
    ∃ kept, kept ++ names.reverse = st.appliedMigrations ∧ kept.getLast?.getD baseline = target ∧
      ∀ st' : InMemoryState, st'.appliedMigrations = kept →
        (migrationsAfter target st' : Except (MemoryError Hash) (List String)) = .ok [] := by
  unfold migrationsAfter at planned
  by_cases base : target = baseline
  · rw [if_pos base] at planned
    cases planned
    refine ⟨[], by simp, base.symm, fun st' same => ?_⟩
    rw [migrationsAfter, if_pos base, same]
    rfl
  · rw [if_neg base] at planned
    cases found : st.appliedMigrations.findIdx? (· = target) with
    | some pos =>
      rw [found] at planned
      cases planned
      obtain ⟨below, here, before⟩ := List.findIdx?_eq_some_iff_getElem.mp found
      have here : st.appliedMigrations[pos] = target := by simpa using here
      have newest : st.appliedMigrations.take (pos + 1) = st.appliedMigrations.take pos ++ [target] := by
        rw [List.take_succ_eq_append_getElem below, here]
      refine ⟨st.appliedMigrations.take (pos + 1), by simp, by rw [newest]; simp, fun st' same => ?_⟩
      have again : st'.appliedMigrations.findIdx? (· = target) = some pos := by
        rw [same, List.findIdx?_take, found]
        simp
      rw [migrationsAfter, if_neg base, again, same]
      simp
    | none =>
      rw [found] at planned
      simp only at planned
      split at planned
      · rename_i same
        have last : st.appliedMigrations.getLast?.getD baseline = target := live.symm.trans same.symm
        cases newest : st.appliedMigrations.getLast? with
        | none =>
          rw [newest] at last
          exact absurd last.symm base
        | some name =>
          rw [newest] at last
          obtain rfl : name = target := last
          have absent := List.findIdx?_eq_none_iff.mp found name (List.mem_of_getLast? newest)
          simp at absent
      · cases planned

/-- Reversing what comes after a target leaves the rest, at the target's version; steps that
are not the newest migrations, newest first, are refused. -/
theorem reverse_reaches_target (calls : List MigrationCall) :
    let st := calls.foldl (MigrationCall.step Hash) new
    (∀ target names, (migrationsAfter target st : Except (MemoryError Hash) _) = .ok names →
      ∀ steps : List MigrationStep, steps.map MigrationStep.name = names →
        ∃ st', (applyReverseMigrations steps st : Except (MemoryError Hash) Unit × _) = (.ok (), st') ∧
          st'.appliedMigrations ++ names.reverse = st.appliedMigrations ∧
          st'.schemaVersion = target ∧
          (migrationsAfter target st' : Except (MemoryError Hash) _) = .ok []) ∧
    ∀ steps : List MigrationStep, ¬ steps.map MigrationStep.name <+: st.appliedMigrations.reverse →
      ∃ e : MemoryError Hash, applyReverseMigrations steps st = (.error e, st) := by
  intro st
  have start : Live new := rfl
  have live : Live st := start.run calls
  constructor
  · rintro target names planned steps rfl
    obtain ⟨kept, split, version, nothing⟩ := migrationsAfter_cases live planned
    have newest : steps.map MigrationStep.name <+: st.appliedMigrations.reverse := by
      rw [← split, List.reverse_append, List.reverse_reverse]
      exact List.prefix_append _ _
    rcases applyReverseMigrations_cases steps st with ⟨other, _⟩ | ⟨st', ran, rest, _, ended⟩
    · exact absurd newest other
    · have same : st'.appliedMigrations = kept := List.append_cancel_right (rest.trans split.symm)
      refine ⟨st', ran, rest, ?_, nothing st' same⟩
      rcases ended with ⟨rfl, rfl⟩ | derived
      · rw [live, same, version]
      · rw [derived, same, version]
  · intro steps other
    rcases applyReverseMigrations_cases steps st with ⟨_, refused⟩ | ⟨st', _, rest, _, _⟩
    · exact refused
    · rw [← rest, List.reverse_append, List.reverse_reverse] at other
      exact absurd (List.prefix_append _ _) other

/-- A name that was applied twice. -/
theorem reverse_reaches_target_twice :
    ∃ st', applyReverseMigrations [⟨"a", ""⟩, ⟨"b", ""⟩]
        { new with appliedMigrations := ["a", "b", "a"], schemaVersion := "a" } =
        ((.ok () : Except (MemoryError Bytes) Unit), st') ∧ st'.schemaVersion = "a" := by
  have planned : (migrationsAfter "a" { new with
      appliedMigrations := ["a", "b", "a"], schemaVersion := "a" } : Except (MemoryError Bytes) _) =
      .ok ["a", "b"] := by decide
  obtain ⟨st', ran, _, version, _⟩ := (reverse_reaches_target [.apply "a", .apply "b", .apply "a"]).1
    "a" ["a", "b"] planned [⟨"a", ""⟩, ⟨"b", ""⟩] rfl
  exact ⟨st', ran, version⟩

end

end InMemoryAdapter

end GitAgentic
