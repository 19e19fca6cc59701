import GitAgentic.Data.Runs
import GitAgentic.Memory.ChangeLog

/-! The change log between its writers and its two drains. A transaction gets the ids
of its rows when they are inserted, and the rows become visible when it commits. The
poller and the fence of a snapshot each read a batch, send its rows one by one, and
delete up to the greatest id read; the pause lock keeps neither from the other, and each
can stop midway. -/
namespace GitAgentic

namespace Drainers

inductive Who where
  | poller | fence
  deriving DecidableEq, Repr

def mode : Who → Triggers.DrainMode
  | .poller => .lenient
  | .fence => .strict

/-- A batch as it was read, and the part of it not yet sent. -/
structure Batch where
  schemaVersion : String
  rows : List (Nat × LogRow)
  rest : List (Nat × LogRow)

/-- What was sent and what was committed is kept for the statements only. -/
structure World where
  lastId : Nat
  pending : Nat → List (Nat × LogRow)
  log : ChangeLog
  drain : Who → Option Batch
  sent : List (Nat × ChangeEvent)
  committed : List (Nat × LogRow)

inductive Act where
  | insert (tx : Nat) (row : LogRow)
  | commit (tx : Nat)
  | rollback (tx : Nat)
  | select (who : Who) (liveVersion : Option String)
  | forward (who : Who)
  | delete (who : Who)
  | stop (who : Who)

variable (tables : List TrackedTable)

/-- The batch a drain starts with; none when there is nothing to do or it fails. -/
def startBatch (who : Who) (liveVersion : Option String) (log : ChangeLog) : Option Batch :=
  if Triggers.select log = [] then none
  else
    match liveVersion with
    | none => none
    | some schemaVersion =>
      if mode who = .strict ∧
          (Triggers.prevalidateAll tables (Triggers.select log)).toOption = none then none
      else some ⟨schemaVersion, Triggers.select log, Triggers.select log⟩

def eventOf (schemaVersion : String) (r : Nat × LogRow) : Option (Nat × ChangeEvent) :=
  (Triggers.forwarded tables schemaVersion r.2).map (fun ev => (r.1, ev))

def commitRows (rows : List (Nat × LogRow)) (log : ChangeLog) : ChangeLog :=
  rows.foldl (fun log r => log.insert r.1 r.2) log

/-- A step that is not possible changes nothing. -/
def step (w : World) : Act → World
  | .insert tx row =>
    { w with
      lastId := w.lastId + 1
      pending := Function.update w.pending tx (w.pending tx ++ [(w.lastId + 1, row)]) }
  | .commit tx =>
    { w with
      log := commitRows (w.pending tx) w.log
      committed := w.committed ++ w.pending tx
      pending := Function.update w.pending tx [] }
  | .rollback tx => { w with pending := Function.update w.pending tx [] }
  | .select who liveVersion =>
    match w.drain who with
    | some _ => w
    | none => { w with drain := Function.update w.drain who (startBatch tables who liveVersion w.log) }
  | .forward who =>
    match w.drain who with
    | some ⟨schemaVersion, rows, r :: rest⟩ =>
      { w with
        sent := w.sent ++ (eventOf tables schemaVersion r).toList
        drain := Function.update w.drain who (some ⟨schemaVersion, rows, rest⟩) }
    | _ => w
  | .delete who =>
    match w.drain who with
    | some ⟨_, rows, []⟩ =>
      { w with
        log := Triggers.deleteUpTo (Triggers.maxId rows) w.log
        drain := Function.update w.drain who none }
    | _ => w
  -- a send or the DELETE fails; the rows are still in the log and are read again
  | .stop who => { w with drain := Function.update w.drain who none }

def run (acts : List Act) (w : World) : World := Runs.run (step tables) acts w

theorem run_append (as bs : List Act) (w : World) :
    run tables (as ++ bs) w = run tables bs (run tables as w) := Runs.run_append as bs w

variable {tables}

theorem startBatch_cases {who : Who} {liveVersion : Option String} {log : ChangeLog} {b : Batch}
    (h : startBatch tables who liveVersion log = some b) :
    b.rows = Triggers.select log ∧ b.rest = Triggers.select log := by
  unfold startBatch at h
  split at h
  · cases h
  · split at h
    · cases h
    · split at h
      · cases h
      · cases h
        exact ⟨rfl, rfl⟩

variable (tables) in
theorem forward_cases (w : World) (who : Who) :
    (∃ schemaVersion rows r rest, w.drain who = some ⟨schemaVersion, rows, r :: rest⟩) ∨
      step tables w (.forward who) = w := by
  simp only [step]
  split
  · rename_i holds
    exact Or.inl ⟨_, _, _, _, holds⟩
  · exact Or.inr rfl

variable (tables) in
theorem delete_cases (w : World) (who : Who) :
    (∃ schemaVersion rows, w.drain who = some ⟨schemaVersion, rows, []⟩) ∨
      step tables w (.delete who) = w := by
  simp only [step]
  split
  · rename_i holds
    exact Or.inl ⟨_, _, holds⟩
  · exact Or.inr rfl

variable (tables) in
theorem run_finish (who : Who) {w : World} {schemaVersion : String}
    {rows rest : List (Nat × LogRow)} (holds : w.drain who = some ⟨schemaVersion, rows, rest⟩) :
    run tables (List.replicate rest.length (.forward who) ++ [.delete who]) w =
      { w with
        log := Triggers.deleteUpTo (Triggers.maxId rows) w.log
        sent := w.sent ++ rest.filterMap (eventOf tables schemaVersion)
        drain := Function.update w.drain who none } := by
  induction rest generalizing w with
  | nil =>
    simp only [List.length_nil, List.replicate_zero, List.nil_append, run, Runs.run,
      List.foldl_cons, List.foldl_nil, step, holds, List.filterMap_nil, List.append_nil]
  | cons r rest ih =>
    have first : step tables w (.forward who) =
        { w with
          sent := w.sent ++ (eventOf tables schemaVersion r).toList
          drain := Function.update w.drain who (some ⟨schemaVersion, rows, rest⟩) } := by
      simp only [step, holds]
    have next := @ih (step tables w (.forward who)) (by rw [first]; simp)
    rw [List.length_cons, List.replicate_succ, List.cons_append]
    refine next.trans ?_
    rw [first]
    simp only [Function.update_idem, List.append_assoc, List.filterMap_cons]
    cases eventOf tables schemaVersion r <;> rfl

def wholeDrain (who : Who) (liveVersion : Option String) (log : ChangeLog) : List Act :=
  .select who liveVersion ::
    (List.replicate (Triggers.select log).length (.forward who) ++ [.delete who])

theorem run_wholeDrain (who : Who) {liveVersion : Option String} {w : World}
    (idle : w.drain who = none) (nonempty : Triggers.select w.log ≠ [])
    {outcome : Triggers.DrainOutcome} {events : List ChangeEvent} {log : ChangeLog}
    (ok : Triggers.drainOnce tables liveVersion (mode who) w.log = .ok (outcome, events, log)) :
    let w' := run tables (wholeDrain who liveVersion w.log) w
    w'.log = log ∧ w'.drain who = none ∧
      ∃ batch, w'.sent = w.sent ++ batch ∧ batch.map Prod.snd = events := by
  obtain ⟨_, left, valid, schemaVersion, live, rfl⟩ := Triggers.drainOnce_ok ok
  obtain rfl := live nonempty
  have started : startBatch tables who (some schemaVersion) w.log =
      some ⟨schemaVersion, Triggers.select w.log, Triggers.select w.log⟩ := by
    have passes : ¬ (mode who = .strict ∧
        (Triggers.prevalidateAll tables (Triggers.select w.log)).toOption = none) := by
      rintro ⟨strict, fails⟩
      rw [(Triggers.prevalidateAll_ok_iff tables _).mpr (valid strict)] at fails
      cases fails
    simp only [startBatch, if_neg nonempty, if_neg passes]
  have deleted : log = Triggers.deleteUpTo (Triggers.maxId (Triggers.select w.log)) w.log :=
    BTreeMap.ext (left.trans (Triggers.deleteUpTo_select w.log nonempty).symm)
  subst deleted
  have first : step tables w (.select who (some schemaVersion)) =
      { w with
        drain := Function.update w.drain who
          (some ⟨schemaVersion, Triggers.select w.log, Triggers.select w.log⟩) } := by
    simp only [step, idle, started]
  have started : (step tables w (.select who (some schemaVersion))).drain who =
      some ⟨schemaVersion, Triggers.select w.log, Triggers.select w.log⟩ := by
    rw [first]
    exact Function.update_self _ _ _
  have whole : run tables (wholeDrain who (some schemaVersion) w.log) w = _ :=
    run_finish tables who started
  rw [first] at whole
  simp only [whole]
  refine ⟨trivial, by simp, _, rfl, ?_⟩
  rw [List.map_filterMap]
  exact List.filterMap_congr (fun r _ => by simp [eventOf, Option.map_map])

end Drainers

end GitAgentic
