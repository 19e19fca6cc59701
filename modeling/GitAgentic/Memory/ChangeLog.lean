import GitAgentic.Memory.Streamer

/-! The change log of a database and its drain: a batch is read in id order, its rows
are sent to the streamer, then everything up to the greatest id read is deleted. -/
namespace GitAgentic

/-- A row of the log without its id. A column that fails to decode is `none`. -/
structure LogRow where
  tableName : Option String
  op : Option String
  row : Option Value
  deriving DecidableEq

/-- Rows by id. -/
abbrev ChangeLog := BTreeMap Nat LogRow

namespace Triggers

def pollBatchSize : Nat := 1000

/-- What follows the last dot. -/
def bareName (s : String) : String :=
  String.ofList (s.toList.reverse.takeWhile (· ≠ '.')).reverse

/-- The configured names, each under itself. -/
def keyOf (tables : List TrackedTable) : BTreeMap String String :=
  BTreeMap.ofList (tables.map (fun t => (t.name, t.name)))

def bareLookup (tables : List TrackedTable) : BTreeMap String String :=
  BTreeMap.ofList ((tables.filter (fun t =>
    (tables.filter (fun u => bareName u.name = bareName t.name)).length = 1)).map
      (fun t => (bareName t.name, t.name)))

/-- The head an emitted table name belongs to. -/
def resolve (tables : List TrackedTable) (tableName : String) : Option String :=
  ((keyOf tables).get? tableName).or ((bareLookup tables).get? (bareName tableName))

def parseOp (s : String) : Option Op :=
  if s = "insert" then some .insert
  else if s = "update" then some .update
  else if s = "delete" then some .delete
  else none

theorem parseOp_name (op : Op) : parseOp op.name = some op := by cases op <;> rfl

/-- Why a strict drain refuses a row, one constructor for each message. -/
inductive BadRow where
  | tableName | op | row
  | untracked (tableName : String)
  | unknownOp (tableName op : String)
  deriving DecidableEq

/-- The check of a strict drain on one row. -/
def prevalidate (tables : List TrackedTable) (r : LogRow) : Except BadRow Unit :=
  match r.tableName with
  | none => .error .tableName
  | some tableName =>
    match r.op with
    | none => .error .op
    | some op =>
      match r.row with
      | none => .error .row
      | some _ =>
        match resolve tables tableName with
        | none => .error (.untracked tableName)
        | some _ =>
          if op = "insert" ∨ op = "update" ∨ op = "delete" then .ok ()
          else .error (.unknownOp tableName op)

def forwarded (tables : List TrackedTable) (schemaVersion : String) (r : LogRow) :
    Option ChangeEvent := do
  let tableName ← r.tableName
  let opStr ← r.op
  let row ← r.row
  let table ← resolve tables tableName
  let op ← parseOp opStr
  some { table, row, op, schemaVersion }

theorem forwarded_eq_some_iff {tables : List TrackedTable} {schemaVersion : String} {r : LogRow}
    {ev : ChangeEvent} :
    forwarded tables schemaVersion r = some ev ↔
      ∃ tableName, r = ⟨some tableName, some ev.op.name, some ev.row⟩ ∧
        resolve tables tableName = some ev.table ∧ ev.schemaVersion = schemaVersion := by
  constructor
  · intro h
    simp only [forwarded, Option.bind_eq_bind, Option.bind_eq_some_iff] at h
    obtain ⟨tableName, hname, opStr, hop, row, hrow, table, found, op, known, same⟩ := h
    cases same
    have name : opStr = op.name := by
      unfold parseOp at known
      split at known
      · rename_i e
        cases known
        exact e
      split at known
      · rename_i e
        cases known
        exact e
      split at known
      · rename_i e
        cases known
        exact e
      · cases known
    refine ⟨tableName, ?_, found, rfl⟩
    cases r
    simp only at hname hop hrow
    rw [hname, hop, hrow, name]
  · rintro ⟨tableName, rfl, found, rfl⟩
    simp [forwarded, found, parseOp_name]

theorem prevalidate_ok_iff (tables : List TrackedTable) (schemaVersion : String) (r : LogRow) :
    prevalidate tables r = .ok () ↔ (forwarded tables schemaVersion r).isSome := by
  unfold prevalidate forwarded
  cases r.tableName with
  | none => simp
  | some tableName => cases r.op with
    | none => simp
    | some op => cases r.row with
      | none => simp
      | some row =>
        simp only [Option.bind_eq_bind, Option.bind_some]
        cases resolve tables tableName with
        | none => simp
        | some table =>
          by_cases known : op = "insert" ∨ op = "update" ∨ op = "delete"
          · rcases known with rfl | rfl | rfl <;> simp [parseOp]
          · have unknown : parseOp op = none := by
              simp only [not_or] at known
              simp [parseOp, known]
            simp [known, unknown]

inductive DrainMode where
  | lenient | strict
  deriving DecidableEq, Repr

structure DrainOutcome where
  processed : Nat
  forwarded : Nat
  deriving DecidableEq, Repr

inductive DrainError where
  | schemaVersion
  | badRow (id : Nat) (cause : BadRow)
  deriving DecidableEq

/-- The first rows by id. -/
def select (log : ChangeLog) : List (Nat × LogRow) := log.entries.take pollBatchSize

def prevalidateAll (tables : List TrackedTable) : List (Nat × LogRow) → Except DrainError Unit
  | [] => .ok ()
  | r :: rs =>
    match prevalidate tables r.2 with
    | .error cause => .error (.badRow r.1 cause)
    | .ok _ => prevalidateAll tables rs

def maxId (rows : List (Nat × LogRow)) : Nat := rows.foldl (fun m r => max m r.1) 0

/-- `DELETE … WHERE id <= max_id` -/
def deleteUpTo (id : Nat) (log : ChangeLog) : ChangeLog where
  entries := log.entries.filter (fun r => ¬ r.1 ≤ id)
  sorted := log.sorted.filter _

/-- One batch: the events sent, and the log left. The live schema version may fail
to be read. -/
def drainOnce (tables : List TrackedTable) (liveVersion : Option String) (mode : DrainMode)
    (log : ChangeLog) : Except DrainError (DrainOutcome × List ChangeEvent × ChangeLog) :=
  let rows := select log
  if rows = [] then .ok (⟨0, 0⟩, [], log)
  else
    match liveVersion with
    | none => .error .schemaVersion
    | some schemaVersion => do
      if mode = .strict then prevalidateAll tables rows
      let events := rows.filterMap (fun r => Triggers.forwarded tables schemaVersion r.2)
      return (⟨rows.length, events.length⟩, events, deleteUpTo (maxId rows) log)

theorem le_foldl_max (rows : List (Nat × LogRow)) (m : Nat) :
    m ≤ rows.foldl (fun m r => max m r.1) m ∧
      ∀ r ∈ rows, r.1 ≤ rows.foldl (fun m r => max m r.1) m := by
  induction rows generalizing m with
  | nil => simp
  | cons r rows ih =>
    obtain ⟨above, rest⟩ := ih (max m r.1)
    refine ⟨(le_max_left m r.1).trans above, ?_⟩
    intro q hq
    rcases List.mem_cons.mp hq with rfl | hq
    · exact (le_max_right m q.1).trans above
    · exact rest q hq

theorem le_maxId {rows : List (Nat × LogRow)} {r : Nat × LogRow} (h : r ∈ rows) :
    r.1 ≤ maxId rows := (le_foldl_max rows 0).2 r h

theorem foldl_max_lt {rows : List (Nat × LogRow)} {m id : Nat} (start : m < id)
    (below : ∀ r ∈ rows, r.1 < id) : rows.foldl (fun m r => max m r.1) m < id := by
  induction rows generalizing m with
  | nil => exact start
  | cons r rows ih =>
    exact ih (max_lt start (below r List.mem_cons_self))
      (fun q hq => below q (List.mem_cons_of_mem _ hq))

theorem deleteUpTo_select (log : ChangeLog) (nonempty : select log ≠ []) :
    (deleteUpTo (maxId (select log)) log).entries = log.entries.drop pollBatchSize := by
  have split := List.take_append_drop pollBatchSize log.entries
  have sorted := log.sorted
  rw [← split] at sorted
  obtain ⟨_, _, below⟩ := List.pairwise_append.mp sorted
  have gone : (select log).filter (fun r => ¬ r.1 ≤ maxId (select log)) = [] := by
    rw [List.filter_eq_nil_iff]
    intro r hr
    simpa using le_maxId hr
  have kept : (log.entries.drop pollBatchSize).filter (fun r => ¬ r.1 ≤ maxId (select log)) =
      log.entries.drop pollBatchSize := by
    rw [List.filter_eq_self]
    intro r hr
    obtain ⟨q, hq⟩ := List.exists_mem_of_ne_nil _ nonempty
    have above : maxId (select log) < r.1 :=
      foldl_max_lt (Nat.zero_le _ |>.trans_lt (below q hq r hr)) (fun q hq => below q hq r hr)
    simpa using above
  have parts := congrArg (List.filter (fun r => ¬ r.1 ≤ maxId (select log))) split
  rw [List.filter_append, kept] at parts
  exact parts.symm.trans (by rw [← select, gone, List.nil_append])

theorem prevalidateAll_ok_iff (tables : List TrackedTable) (rows : List (Nat × LogRow)) :
    prevalidateAll tables rows = .ok () ↔ ∀ r ∈ rows, prevalidate tables r.2 = .ok () := by
  induction rows with
  | nil => simp [prevalidateAll]
  | cons r rows ih =>
    rw [List.forall_mem_cons, ← ih, prevalidateAll]
    cases prevalidate tables r.2 <;> simp

theorem drainOnce_ok {tables : List TrackedTable} {liveVersion : Option String} {mode : DrainMode}
    {log : ChangeLog} {outcome : DrainOutcome} {events : List ChangeEvent} {log' : ChangeLog}
    (ok : drainOnce tables liveVersion mode log = .ok (outcome, events, log')) :
    outcome.processed = (select log).length ∧
      log'.entries = log.entries.drop pollBatchSize ∧
      (mode = .strict → ∀ r ∈ select log, prevalidate tables r.2 = .ok ()) ∧
      ∃ schemaVersion, (select log ≠ [] → liveVersion = some schemaVersion) ∧
        events = (select log).filterMap (fun r => forwarded tables schemaVersion r.2) := by
  unfold drainOnce at ok
  by_cases empty : select log = []
  · simp only [empty, if_true, Except.ok.injEq, Prod.mk.injEq] at ok
    obtain ⟨rfl, rfl, rfl⟩ := ok
    have none : log.entries = [] := by
      simpa [select, pollBatchSize] using empty
    simp [empty, none]
  · simp only [if_neg empty] at ok
    cases liveVersion with
    | none => cases ok
    | some schemaVersion =>
      have left := deleteUpTo_select log empty
      by_cases strict : mode = .strict
      · simp only [strict, if_true] at ok
        cases valid : prevalidateAll tables (select log) with
        | error e =>
          rw [valid] at ok
          cases ok
        | ok u =>
          rw [valid] at ok
          cases ok
          exact ⟨rfl, left, fun _ => (prevalidateAll_ok_iff tables _).mp valid,
            schemaVersion, fun _ => rfl, rfl⟩
      · simp only [if_neg strict] at ok
        cases ok
        exact ⟨rfl, left, fun h => absurd h strict, schemaVersion, fun _ => rfl, rfl⟩

theorem drainOnce_shrinks {tables : List TrackedTable} {liveVersion : Option String}
    {mode : DrainMode} {log : ChangeLog} {outcome : DrainOutcome} {events : List ChangeEvent}
    {log' : ChangeLog} (ok : drainOnce tables liveVersion mode log = .ok (outcome, events, log'))
    (some_ : outcome.processed ≠ 0) : log'.entries.length < log.entries.length := by
  obtain ⟨processed, left, _⟩ := drainOnce_ok ok
  rw [left, List.length_drop]
  rw [processed, select, List.length_take] at some_
  have positive : 0 < pollBatchSize := by decide
  omega

/-- Strict batches until the log is empty. The events are sent batch by batch, also
when a later batch fails. -/
def drainToCompletion (tables : List TrackedTable) (liveVersion : Option String) (log : ChangeLog) :
    Except DrainError Unit × List ChangeEvent × ChangeLog :=
  match _done : drainOnce tables liveVersion .strict log with
  | .error e => (.error e, [], log)
  | .ok (outcome, events, log') =>
    if _more : outcome.processed = 0 then (.ok (), events, log')
    else
      let (result, later, log'') := drainToCompletion tables liveVersion log'
      (result, events ++ later, log'')
  termination_by log.entries.length
  decreasing_by exact drainOnce_shrinks ‹_› ‹_›

end Triggers

end GitAgentic
