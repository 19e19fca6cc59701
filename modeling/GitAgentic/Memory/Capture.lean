import GitAgentic.Memory.ChangeLog
import GitAgentic.Memory.FullRows

/-! Change capture. Every row operation on a tracked table leaves one image of the row
in the log: the old row for a delete, the new one otherwise. An update that gives a row
another key therefore leaves no trace of the old key. -/
namespace GitAgentic

open LastWriter

/-- A tracked table as the database declares it. Its names have been checked when the
adapter started. -/
structure TableSchema where
  table : TrackedTable
  cols : List String
  sorted : cols.Pairwise (· < ·)
  pk_mem : table.pk ∈ cols
  name_identifier : Restore.isIdentifier table.name = true
  pk_identifier : Restore.isIdentifier table.pk = true

namespace TableSchema

variable (sch : TableSchema)

/-- A row of the table: nothing outside its columns, and a key. -/
structure RowOk (row : Row) : Prop where
  normal : ∀ c, (row c).toValue = row c
  outside : ∀ c, c ∉ sch.cols → row c = .null
  key : (row sch.table.pk).isNull = false

/-- Every row lies at its key. -/
def TableOk (t : Table) : Prop :=
  ∀ key row, t key = some row → row sch.table.pk = key ∧ sch.RowOk row

def members (row : Row) : List (String × Json) := sch.cols.map (fun c => (c, row c))

/-- `to_jsonb` of a row. -/
def image (row : Row) : Value := .ofJson (.object (sch.members row))

variable {sch} {row : Row}

theorem image_json (ok : sch.RowOk row) : (sch.image row).json = .object (sch.members row) := by
  refine Json.normal_object ?_ ?_
  · exact List.pairwise_map.mpr sch.sorted
  · intro m hm
    obtain ⟨c, _, rfl⟩ := List.mem_map.mp hm
    exact ok.normal c

theorem column_members (c : String) :
    Restore.column (sch.members row) c = if c ∈ sch.cols then some (row c) else none := by
  have found : (sch.members row).find? (fun m => m.1 == c) =
      if c ∈ sch.cols then some (c, row c) else none := by
    unfold members
    induction sch.cols with
    | nil => rfl
    | cons d cols ih =>
      rw [List.map_cons, List.find?_cons]
      by_cases here : d = c
      · simp [here]
      · have other : (d == c) = false := by simpa using here
        simp only [other, ih, List.mem_cons, Ne.symm here, false_or]
  simp only [Restore.column, Json.get?, found]
  split <;> rfl

theorem rowOf_members (ok : sch.RowOk row) : rowOf (sch.members row) = row := by
  funext c
  rw [rowOf, column_members]
  by_cases among : c ∈ sch.cols
  · rw [if_pos among, Option.getD_some]
  · rw [if_neg among, Option.getD_none, ok.outside c among]

theorem members_full (ok : sch.RowOk row) : FullRow sch.table.pk sch.cols (sch.members row) where
  columns c := by simp [Restore.columns, members]
  key := by
    rw [rowOf_members ok]
    exact ok.key

end TableSchema

/-- One row operation of a statement. -/
inductive RowOp where
  | insert (row : Row)
  | update (key : Json) (row : Row)
  | delete (key : Json)

/-- What a row operation came to. -/
inductive Effect where
  | nothing
  | inserted (row : Row)
  | updated (old row : Row)
  | deleted (old : Row)

namespace RowOp

variable (sch : TableSchema)

/-- An operation whose key is taken fails, one that finds no row affects none. -/
def effect (t : Table) : RowOp → Effect
  | .insert row =>
    match t (row sch.table.pk) with
    | some _ => .nothing
    | none => .inserted row
  | .update key row =>
    match t key with
    | none => .nothing
    | some old =>
      if row sch.table.pk ≠ key ∧ (t (row sch.table.pk)).isSome then .nothing else .updated old row
  | .delete key =>
    match t key with
    | none => .nothing
    | some old => .deleted old

def RowsOk : RowOp → Prop
  | .insert row => sch.RowOk row
  | .update _ row => sch.RowOk row
  | .delete _ => True

end RowOp

/-- `agentic_capture`, called with the operation and the old and the new row. -/
def agenticCapture (sch : TableSchema) (relation : String) (tgOp : Op) (old new : Row) : LogRow where
  tableName := some relation
  op := some tgOp.name
  row := match tgOp with
    | .delete => some (sch.image old)
    | _ => some (sch.image new)

namespace Effect

variable (sch : TableSchema)

def apply (t : Table) : Effect → Table
  | .nothing => t
  | .inserted row => Function.update t (row sch.table.pk) (some row)
  | .updated old row =>
    Function.update (Function.update t (old sch.table.pk) none) (row sch.table.pk) (some row)
  | .deleted old => Function.update t (old sch.table.pk) none

def captured (relation : String) : Effect → List LogRow
  | .nothing => []
  | .inserted row => [agenticCapture sch relation .insert row row]
  | .updated old row => [agenticCapture sch relation .update old row]
  | .deleted old => [agenticCapture sch relation .delete old old]

/-- The change that the captured image stands for. -/
def change : Effect → List (Change Json Row)
  | .nothing => []
  | .inserted row => [.upsert (row sch.table.pk) row]
  | .updated _ row => [.upsert (row sch.table.pk) row]
  | .deleted old => [.delete (old sch.table.pk)]

/-- The rows an effect speaks of belong to the table. -/
def Fits (t : Table) : Effect → Prop
  | .nothing => True
  | .inserted row => sch.RowOk row
  | .updated old row => sch.RowOk row ∧ sch.RowOk old ∧ t (old sch.table.pk) = some old
  | .deleted old => sch.RowOk old ∧ t (old sch.table.pk) = some old

/-- Whether the last operation on a key was an update that took its row to another key. -/
def movedAway (moved : Json → Bool) : Effect → Json → Bool
  | .nothing => moved
  | .inserted row => Function.update moved (row sch.table.pk) false
  | .updated old row =>
    Function.update (Function.update moved (old sch.table.pk) true) (row sch.table.pk) false
  | .deleted old => Function.update moved (old sch.table.pk) false

end Effect

/-- The table after a sequence of operations, and the log they leave. -/
def execute (sch : TableSchema) (relation : String) : List RowOp → Table → Table × List LogRow
  | [], t => (t, [])
  | op :: ops, t =>
    let effect := op.effect sch t
    let (t, log) := execute sch relation ops (effect.apply sch t)
    (t, effect.captured sch relation ++ log)

/-- The keys whose last operation was an update away from them. -/
def movedKeys (sch : TableSchema) : List RowOp → Table → (Json → Bool) → Json → Bool
  | [], _, moved => moved
  | op :: ops, t, moved =>
    let effect := op.effect sch t
    movedKeys sch ops (effect.apply sch t) (effect.movedAway sch moved)

/-- The row as the streamer wraps it. -/
def LogRow.envelope (r : LogRow) : Value :=
  Value.envelope (r.op.getD "") (r.row.getD .null)

section

variable {sch : TableSchema} {t : Table}

theorem RowOp.effect_ok (ok : sch.TableOk t) {op : RowOp} (rows : op.RowsOk sch) :
    (op.effect sch t).Fits sch t := by
  cases op with
  | insert row =>
    cases found : t (row sch.table.pk) with
    | some old => simp only [effect, found, Effect.Fits]
    | none =>
      simp only [effect, found, Effect.Fits]
      exact rows
  | update key row =>
    cases found : t key with
    | none => simp only [effect, found, Effect.Fits]
    | some old =>
      obtain ⟨lies, good⟩ := ok key old found
      by_cases taken : row sch.table.pk ≠ key ∧ (t (row sch.table.pk)).isSome
      · simp only [effect, found, if_pos taken, Effect.Fits]
      · simp only [effect, found, if_neg taken, Effect.Fits]
        exact ⟨rows, good, lies ▸ found⟩
  | delete key =>
    cases found : t key with
    | none => simp only [effect, found, Effect.Fits]
    | some old =>
      obtain ⟨lies, good⟩ := ok key old found
      simp only [effect, found, Effect.Fits]
      exact ⟨good, lies ▸ found⟩

theorem tableOk_update (ok : sch.TableOk t) {row : Row} (good : sch.RowOk row) :
    sch.TableOk (Function.update t (row sch.table.pk) (some row)) := by
  intro key r found
  by_cases here : key = row sch.table.pk
  · subst here
    rw [Function.update_self] at found
    cases found
    exact ⟨rfl, good⟩
  · rw [Function.update_of_ne here] at found
    exact ok key r found

theorem tableOk_remove (ok : sch.TableOk t) (k : Json) : sch.TableOk (Function.update t k none) := by
  intro key r found
  by_cases here : key = k
  · subst here
    rw [Function.update_self] at found
    cases found
  · rw [Function.update_of_ne here] at found
    exact ok key r found

theorem Effect.Fits.tableOk {effect : Effect} (fits : effect.Fits sch t) (ok : sch.TableOk t) :
    sch.TableOk (effect.apply sch t) := by
  cases effect with
  | nothing => exact ok
  | inserted row => exact tableOk_update ok fits
  | updated old row => exact tableOk_update (tableOk_remove ok _) fits.1
  | deleted old => exact tableOk_remove ok _

/-- The tables agree except at keys that were moved away, where only the replay still
has a row. -/
def Trails (moved : Json → Bool) (t c : Table) : Prop :=
  ∀ k, if moved k then t k = none ∧ (c k).isSome else c k = t k

theorem Trails.update {moved : Json → Bool} {c : Table} (h : Trails moved t c) (k : Json)
    (r : Option Row) :
    Trails (Function.update moved k false) (Function.update t k r) (Function.update c k r) := by
  intro j
  by_cases here : j = k
  · subst here
    simp
  · have same := h j
    simp only [Function.update_of_ne here]
    exact same

theorem Trails.move {moved : Json → Bool} {c : Table} (h : Trails moved t c) {k : Json}
    (found : (t k).isSome) :
    Trails (Function.update moved k true) (Function.update t k none) c := by
  intro j
  by_cases here : j = k
  · subst here
    have same := h j
    simp only [Function.update_self, if_true, true_and]
    split at same
    · exact same.2
    · rw [same]
      exact found
  · have same := h j
    simp only [Function.update_of_ne here]
    exact same

theorem Trails.step {moved : Json → Bool} {c : Table} (h : Trails moved t c) {effect : Effect}
    (fits : effect.Fits sch t) :
    Trails (effect.movedAway sch moved) (effect.apply sch t) (replay c (effect.change sch)) := by
  cases effect with
  | nothing => exact h
  | inserted row => exact h.update _ _
  | updated old row => exact (h.move (by rw [fits.2.2]; rfl)).update _ _
  | deleted old => exact h.update _ _

def Effect.changeTo (sch : TableSchema) (op : Op) (row : Row) : Change Json Row :=
  match Restore.batchModeOf op with
  | .upsert => .upsert (row sch.table.pk) row
  | .delete => .delete (row sch.table.pk)

theorem captured_image (Hash : Type) {row : Row} (ok : sch.RowOk row) (op : Op) {r : LogRow}
    (holds : r.envelope = Value.envelope op.name (sch.image row)) :
    (∀ v ∈ [r].map LogRow.envelope, FullEnvelope Hash sch.table.pk sch.cols v) ∧
      ([r].map LogRow.envelope).filterMap (changeOf Hash sch.table.pk) =
        [Effect.changeTo sch op row] := by
  have full : FullEvent sch.table.pk sch.cols ⟨"", sch.image row, op, ""⟩ :=
    ⟨sch.members row, TableSchema.image_json ok, TableSchema.members_full ok⟩
  obtain ⟨envelope, change⟩ : _ ∧ changeOf Hash _ _ = _ := full.envelope
  have same : ChangeEvent.change sch.table.pk ⟨"", sch.image row, op, ""⟩ =
      Effect.changeTo sch op row := by
    rw [ChangeEvent.change, TableSchema.image_json ok]
    simp only [Json.asObject?, Option.getD_some, changeOfRow, TableSchema.rowOf_members ok]
    rfl
  rw [same] at change
  have here : r.envelope = ChangeEvent.envelope ⟨"", sch.image row, op, ""⟩ := holds
  simp only [List.map_singleton, List.forall_mem_singleton, here, List.filterMap_cons, change,
    List.filterMap_nil]
  exact ⟨envelope, trivial⟩

theorem captured_full (Hash : Type) {effect : Effect} (fits : effect.Fits sch t) (relation : String) :
    (∀ v ∈ (effect.captured sch relation).map LogRow.envelope,
        FullEnvelope Hash sch.table.pk sch.cols v) ∧
      ((effect.captured sch relation).map LogRow.envelope).filterMap
        (changeOf Hash sch.table.pk) = effect.change sch := by
  cases effect with
  | nothing => simp [Effect.captured, Effect.change]
  | inserted row => exact captured_image Hash fits .insert rfl
  | updated old row => exact captured_image Hash fits.1 .update rfl
  | deleted old => exact captured_image Hash fits.1 .delete rfl

/-- The changes a sequence of operations leaves in the log. -/
def loggedChanges (sch : TableSchema) : List RowOp → Table → List (Change Json Row)
  | [], _ => []
  | op :: ops, t =>
    let effect := op.effect sch t
    effect.change sch ++ loggedChanges sch ops (effect.apply sch t)

theorem execute_full (Hash : Type) (ok : sch.TableOk t) (ops : List RowOp)
    (rows : ∀ op ∈ ops, op.RowsOk sch) (relation : String) :
    (∀ v ∈ (execute sch relation ops t).2.map LogRow.envelope,
        FullEnvelope Hash sch.table.pk sch.cols v) ∧
      ((execute sch relation ops t).2.map LogRow.envelope).filterMap
        (changeOf Hash sch.table.pk) = loggedChanges sch ops t := by
  induction ops generalizing t with
  | nil => exact ⟨by simp [execute], rfl⟩
  | cons op ops ih =>
    have fits := RowOp.effect_ok ok (rows op List.mem_cons_self)
    obtain ⟨first, change⟩ := captured_full Hash fits relation
    obtain ⟨rest, changes⟩ := ih (fits.tableOk ok) (fun o ho => rows o (List.mem_cons_of_mem _ ho))
    simp only [execute, List.map_append, List.filterMap_append, change, changes]
    refine ⟨?_, rfl⟩
    intro v hv
    exact (List.mem_append.mp hv).elim (first v) (rest v)

theorem execute_trails (ok : sch.TableOk t) (ops : List RowOp) (rows : ∀ op ∈ ops, op.RowsOk sch)
    (relation : String) {moved : Json → Bool} {c : Table} (h : Trails moved t c) :
    Trails (movedKeys sch ops t moved) (execute sch relation ops t).1
      (replay c (loggedChanges sch ops t)) := by
  induction ops generalizing t moved c with
  | nil => exact h
  | cons op ops ih =>
    have fits := RowOp.effect_ok ok (rows op List.mem_cons_self)
    have rest := ih (fits.tableOk ok) (fun o ho => rows o (List.mem_cons_of_mem _ ho)) (h.step fits)
    rw [← replay_append] at rest
    exact rest

theorem Trails.eq_iff {moved : Json → Bool} {c : Table} (h : Trails moved t c) :
    c = t ↔ ∀ k, moved k = false := by
  constructor
  · rintro rfl k
    have same := h k
    split at same
    · rw [same.1] at same
      cases same.2
    · rename_i stays
      simpa using stays
  · intro stays
    funext k
    have same := h k
    rw [stays k] at same
    simpa using same

theorem TableSchema.TableOk.kept (ok : sch.TableOk t) : Kept sch.table.pk sch.cols t :=
  fun key row found => ⟨(ok key row found).1, (ok key row found).2.outside⟩

variable {Hash : Type} (P : Platform Hash)

theorem replay_captured (sch : TableSchema) {t : Table} (ok : sch.TableOk t) {ops : List RowOp}
    (rows : ∀ op ∈ ops, op.RowsOk sch) (relation : String) :
    (Restore.applySegmentRows P sch.table.pk
        ((execute sch relation ops t).2.map LogRow.envelope) t).toOption =
      if (loggedChanges sch ops t).all (storable sch.cols) then
        some (replay t (loggedChanges sch ops t)) else none := by
  obtain ⟨full, changes⟩ := execute_full Hash ok ops rows relation
  rw [Restore.applySegmentRows_toOption P sch.pk_identifier, applyRows_full ok.kept full, changes]

/-- That is the final contents exactly when the rows can be written and no key was last
moved away from. -/
theorem capture_faithful_iff (sch : TableSchema) {t : Table} (ok : sch.TableOk t)
    {ops : List RowOp} (rows : ∀ op ∈ ops, op.RowsOk sch) (relation : String) :
    let r := execute sch relation ops t
    (Restore.applySegmentRows P sch.table.pk (r.2.map LogRow.envelope) t).toOption = some r.1 ↔
      (loggedChanges sch ops t).all (storable sch.cols) = true ∧
        ∀ k, movedKeys sch ops t (fun _ => false) k = false := by
  intro r
  have start : Trails (fun _ => false) t t := fun k => by simp
  have trails := execute_trails ok ops rows relation start
  rw [replay_captured P sch ok rows relation]
  by_cases written : (loggedChanges sch ops t).all (storable sch.cols) = true
  · simp only [written, if_true, Option.some.injEq, true_and]
    exact trails.eq_iff
  · simp [written]

end

def episodesSchema : TableSchema where
  table := { name := "episodes", pk := "id" }
  cols := ["id", "note"]
  sorted := by
    have order : "id" < "note" := by decide
    exact List.pairwise_pair.mpr order
  pk_mem := by decide
  name_identifier := by decide
  pk_identifier := by decide

def episodeRow (key : UInt64) (note : String) : Row := fun c =>
  if c = "id" then .number (.posInt key) else if c = "note" then .string note else .null

theorem episodeRow_ok (key : UInt64) (note : String) :
    episodesSchema.RowOk (episodeRow key note) where
  normal c := by
    unfold episodeRow
    split
    · rfl
    · split <;> rfl
  outside c hc := by
    have id : c ≠ "id" := fun e => hc (e ▸ List.mem_cons_self)
    have note : c ≠ "note" := fun e => hc (e ▸ List.mem_cons_of_mem _ List.mem_cons_self)
    simp only [episodeRow, if_neg id, if_neg note]
  key := rfl

theorem no_rows (sch : TableSchema) : sch.TableOk (fun _ => none) := by
  intro key row found
  cases found

def firstKey : Json := .number (.posInt 1)

def secondKey : Json := .number (.posInt 2)

/-- A row is written and changed, another one written and deleted. -/
def noteChanges : List RowOp :=
  [.insert (episodeRow 1 "a"), .update firstKey (episodeRow 1 "b"), .insert (episodeRow 2 "c"), .delete secondKey]

theorem noteChanges_ok : ∀ op ∈ noteChanges, op.RowsOk episodesSchema := by
  intro op mem
  simp only [noteChanges, List.mem_cons, List.not_mem_nil, or_false] at mem
  rcases mem with rfl | rfl | rfl | rfl
  · exact episodeRow_ok 1 "a"
  · exact episodeRow_ok 1 "b"
  · exact episodeRow_ok 2 "c"
  · trivial

theorem capture_faithful_iff_episode :
    let r := execute episodesSchema "public.episodes" noteChanges (fun _ => none)
    (Restore.applySegmentRows Platform.sample "id" (r.2.map LogRow.envelope) (fun _ => none)).toOption =
      some r.1 := by
  refine (capture_faithful_iff Platform.sample episodesSchema (no_rows _) noteChanges_ok "public.episodes").mpr
    ⟨by decide +kernel, fun k => ?_⟩
  -- the update leaves its key where it was
  have moves : movedKeys episodesSchema noteChanges (fun _ => none) (fun _ => false) =
      Function.update (Function.update (Function.update (Function.update (Function.update (fun _ => false)
        firstKey false) firstKey true) firstKey false) secondKey false) secondKey false := rfl
  rw [moves]
  simp [Function.update_apply]

/-- An update of the key: the row of the old key stays behind. -/
theorem capture_not_always_faithful :
    ¬ ∀ (sch : TableSchema) (t : Table) (ops : List RowOp) (relation : String),
      sch.TableOk t → (∀ op ∈ ops, op.RowsOk sch) →
      let r := execute sch relation ops t
      (Restore.applySegmentRows Platform.sample sch.table.pk (r.2.map LogRow.envelope) t).toOption =
        some r.1 := by
  intro always
  let ops : List RowOp :=
    [.insert (episodeRow 1 "a"), .update (.number (.posInt 1)) (episodeRow 2 "a")]
  have rows : ∀ op ∈ ops, op.RowsOk episodesSchema := by
    intro op hop
    rcases List.mem_cons.mp hop with rfl | hop
    · exact episodeRow_ok 1 "a"
    · cases List.mem_singleton.mp hop
      exact episodeRow_ok 2 "a"
  have faithful := (replay_captured Platform.sample episodesSchema (no_rows _) rows
    "public.episodes").symm.trans
      (always episodesSchema (fun _ => none) ops "public.episodes" (no_rows _) rows)
  have stays := congrArg (Option.map (fun t : Table => (t (.number (.posInt 1))).isSome)) faithful
  revert stays
  decide

end GitAgentic
