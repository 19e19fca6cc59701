import GitAgentic.Memory.Fence

/-! A drain as the code runs it: a pass that checks the rows of the batch, where it is
strict, and a second pass that sends them one by one. The two passes decide alike, and the
deletion by greatest id takes exactly the batch. -/
namespace GitAgentic

namespace Triggers

variable (tables : List TrackedTable)

/-- What a drain changes: the log, and the events the streamer got. -/
structure DrainState where
  log : ChangeLog
  sent : List ChangeEvent

structure Progress where
  maxId : Nat
  processed : Nat
  forwarded : Nat
  deriving DecidableEq, Repr

def Progress.skip (p : Progress) (id : Nat) : Progress :=
  { p with maxId := max p.maxId id, processed := p.processed + 1 }

def Progress.forward (p : Progress) (id : Nat) : Progress :=
  { p.skip id with forwarded := p.forwarded + 1 }

/-- One row of the second pass. A row that cannot be read, has no table or an unknown
operation is skipped. -/
def forwardRow (schemaVersion : String) (state : Progress × DrainState) (r : Nat × LogRow) :
    Progress × DrainState :=
  let (p, d) := state
  match r.2.tableName with
  | none => (p.skip r.1, d)
  | some tableName =>
    match r.2.op with
    | none => (p.skip r.1, d)
    | some opStr =>
      match r.2.row with
      | none => (p.skip r.1, d)
      | some row =>
        match resolve tables tableName with
        | none => (p.skip r.1, d)
        | some table =>
          match parseOp opStr with
          | none => (p.skip r.1, d)
          | some op => (p.forward r.1, { d with sent := d.sent ++ [{ table, row, op, schemaVersion }] })

/-- `drain_once`. The live schema version may fail to be read. -/
def drainBatch (liveVersion : Option String) (mode : DrainMode) (d : DrainState) :
    Except DrainError DrainOutcome × DrainState :=
  let rows := select d.log
  if rows = [] then (.ok ⟨0, 0⟩, d)
  else
    match liveVersion with
    | none => (.error .schemaVersion, d)
    | some schemaVersion =>
      match if mode = .strict then prevalidateAll tables rows else .ok () with
      | .error e => (.error e, d)
      | .ok _ =>
        let (p, d) := rows.foldl (forwardRow tables schemaVersion) (⟨0, 0, 0⟩, d)
        (.ok ⟨p.processed, p.forwarded⟩, { d with log := deleteUpTo p.maxId d.log })

variable {tables}

theorem forwardRow_eq (schemaVersion : String) (p : Progress) (d : DrainState) (r : Nat × LogRow) :
    forwardRow tables schemaVersion (p, d) r =
      match forwarded tables schemaVersion r.2 with
      | none => (p.skip r.1, d)
      | some ev => (p.forward r.1, { d with sent := d.sent ++ [ev] }) := by
  unfold forwardRow forwarded
  cases r.2.tableName with
  | none => rfl
  | some tableName => cases r.2.op with
    | none => rfl
    | some opStr => cases r.2.row with
      | none => rfl
      | some row =>
        simp only [Option.bind_eq_bind, Option.bind_some]
        cases resolve tables tableName with
        | none => rfl
        | some table => cases parseOp opStr with
          | none => rfl
          | some op => rfl

theorem foldl_forwardRow (schemaVersion : String) (rows : List (Nat × LogRow)) (p : Progress)
    (d : DrainState) :
    rows.foldl (forwardRow tables schemaVersion) (p, d) =
      (⟨rows.foldl (fun m r => max m r.1) p.maxId, p.processed + rows.length,
        p.forwarded + (rows.filterMap (fun r => forwarded tables schemaVersion r.2)).length⟩,
        { d with sent := d.sent ++ rows.filterMap (fun r => forwarded tables schemaVersion r.2) }) := by
  induction rows generalizing p d with
  | nil => simp
  | cons r rows ih =>
    rw [List.foldl_cons, forwardRow_eq, List.filterMap_cons]
    cases forwarded tables schemaVersion r.2 with
    | none =>
      rw [ih]
      simp only [Progress.skip, List.foldl_cons, List.length_cons]
      congr 2
      omega
    | some ev =>
      rw [ih]
      simp only [Progress.forward, Progress.skip, List.foldl_cons, List.length_cons,
        List.append_assoc, List.singleton_append]
      congr 2 <;> omega

theorem drainBatch_eq (liveVersion : Option String) (mode : DrainMode) (d : DrainState) :
    drainBatch tables liveVersion mode d =
      match drainOnce tables liveVersion mode d.log with
      | .error e => (.error e, d)
      | .ok (outcome, events, log) => (.ok outcome, ⟨log, d.sent ++ events⟩) := by
  unfold drainBatch drainOnce
  by_cases empty : select d.log = []
  · simp [empty]
  · simp only [if_neg empty]
    cases liveVersion with
    | none => rfl
    | some schemaVersion =>
      by_cases strict : mode = .strict
      · simp only [if_pos strict]
        cases prevalidateAll tables (select d.log) with
        | error e => rfl
        | ok u =>
          simp [foldl_forwardRow, maxId]
      · simp [if_neg strict, foldl_forwardRow, maxId]
        rfl

theorem drainBatch_shrinks {liveVersion : Option String} {mode : DrainMode} {d d' : DrainState}
    {outcome : DrainOutcome} (done : drainBatch tables liveVersion mode d = (.ok outcome, d'))
    (more : outcome.processed ≠ 0) : d'.log.entries.length < d.log.entries.length := by
  rw [drainBatch_eq] at done
  split at done
  · cases done
  · rename_i batch
    cases done
    exact drainOnce_shrinks batch more

variable (tables) in
/-- `drain_to_completion`, with the number of events sent so far. -/
def drainAll (liveVersion : Option String) (total : Nat) (d : DrainState) :
    Except DrainError Nat × DrainState :=
  match _done : drainBatch tables liveVersion .strict d with
  | (.error e, d) => (.error e, d)
  | (.ok outcome, d) =>
    if _more : outcome.processed = 0 then (.ok total, d)
    else drainAll liveVersion (total + outcome.forwarded) d
  termination_by d.log.entries.length
  decreasing_by exact drainBatch_shrinks ‹_› ‹_›

variable (tables) in
/-- A column that cannot be decoded, an operation or a table that nobody knows. -/
def Offends (r : LogRow) : Prop :=
  r.tableName = none ∨ r.op = none ∨ r.row = none ∨
    (∃ tableName, r.tableName = some tableName ∧ resolve tables tableName = none) ∨
    ∃ op, r.op = some op ∧ parseOp op = none

variable (tables) in
theorem offends_iff (schemaVersion : String) (r : LogRow) :
    Offends tables r ↔ forwarded tables schemaVersion r = none := by
  unfold Offends forwarded
  cases r.tableName with
  | none => simp
  | some tableName => cases r.op with
    | none => simp
    | some op => cases r.row with
      | none => simp
      | some row =>
        cases found : resolve tables tableName <;> cases known : parseOp op <;> simp [found, known]

instance (r : LogRow) : Decidable (Offends tables r) := decidable_of_iff _ (offends_iff tables "" r).symm

variable (tables) in
theorem prevalidate_error_iff (r : LogRow) :
    (∃ cause, prevalidate tables r = .error cause) ↔ Offends tables r := by
  rw [offends_iff tables "", ← Option.not_isSome_iff_eq_none, ← prevalidate_ok_iff]
  cases prevalidate tables r <;> simp

theorem prevalidateAll_error_iff (rows : List (Nat × LogRow)) :
    (∃ e, prevalidateAll tables rows = .error e) ↔ ∃ r ∈ rows, Offends tables r.2 := by
  have valid := prevalidateAll_ok_iff tables rows
  constructor
  · rintro ⟨e, refused⟩
    by_contra none
    push Not at none
    have ok := valid.mpr (fun r hr => by
      have passes := mt (prevalidate_error_iff tables r.2).mp (none r hr)
      cases checked : prevalidate tables r.2 with
      | ok u => rfl
      | error cause => exact absurd ⟨cause, checked⟩ passes)
    rw [refused] at ok
    cases ok
  · rintro ⟨r, hr, offends⟩
    obtain ⟨cause, refused⟩ := (prevalidate_error_iff tables r.2).mpr offends
    cases checked : prevalidateAll tables rows with
    | error e => exact ⟨e, rfl⟩
    | ok u =>
      rw [valid.mp checked r hr] at refused
      cases refused

variable (tables) in
/-- What a batch that went through did: its valid rows were sent in order of their ids,
and exactly its rows left the log. -/
structure Taken (schemaVersion : String) (outcome : DrainOutcome) (d d' : DrainState) : Prop where
  sent : d'.sent = d.sent ++ (select d.log).filterMap (fun r => forwarded tables schemaVersion r.2)
  deleted : d.log.entries = select d.log ++ d'.log.entries
  processed : outcome.processed = (select d.log).length
  forwarded : outcome.forwarded =
    ((select d.log).filterMap (fun r => forwarded tables schemaVersion r.2)).length

theorem drainBatch_taken {schemaVersion : String} {mode : DrainMode} {d d' : DrainState}
    {outcome : DrainOutcome} (done : drainBatch tables (some schemaVersion) mode d = (.ok outcome, d')) :
    Taken tables schemaVersion outcome d d' := by
  have whole := List.take_append_drop pollBatchSize d.log.entries
  unfold drainBatch at done
  by_cases empty : select d.log = []
  · simp only [if_pos empty] at done
    cases done
    refine ⟨?_, ?_, ?_, ?_⟩ <;> simp [empty]
  · have left := deleteUpTo_select d.log empty
    simp only [if_neg empty, foldl_forwardRow] at done
    split at done
    · cases done
    · cases done
      refine ⟨rfl, ?_, by simp, by simp⟩
      exact (whole.symm.trans (congrArg (select d.log ++ ·) left.symm))

variable (tables) in
theorem length_filterMap_forwarded (schemaVersion : String) (rows : List (Nat × LogRow)) :
    (rows.filterMap (fun r => forwarded tables schemaVersion r.2)).length +
      (rows.filter (fun r => Offends tables r.2)).length = rows.length := by
  induction rows with
  | nil => rfl
  | cons r rows ih =>
    rw [List.filterMap_cons, List.filter_cons]
    have step := offends_iff tables schemaVersion r.2
    cases found : forwarded tables schemaVersion r.2 with
    | none =>
      rw [if_pos (decide_eq_true (step.mpr found))]
      simp only [List.length_cons]
      omega
    | some ev =>
      have valid : ¬ Offends tables r.2 := fun offends => by
        rw [step.mp offends] at found
        cases found
      rw [if_neg (by simpa using valid)]
      simp only [List.length_cons]
      omega

variable (tables) in
/-- A strict drain fails exactly on a batch with an offending row, and has done nothing
then; otherwise all rows of the batch were sent and deleted. -/
def StrictDrain (schemaVersion : String) (d : DrainState) : Prop :=
  let r := drainBatch tables (some schemaVersion) .strict d
  ((∃ e, r.1 = .error e) ↔ ∃ x ∈ select d.log, Offends tables x.2) ∧
    (∀ e, r.1 = .error e → r.2 = d) ∧
    ∀ outcome, r.1 = .ok outcome →
      Taken tables schemaVersion outcome d r.2 ∧ outcome.forwarded = outcome.processed

variable (tables) in
theorem strictDrain (schemaVersion : String) (d : DrainState) : StrictDrain tables schemaVersion d := by
  unfold StrictDrain
  have refused : (∃ e, (drainBatch tables (some schemaVersion) .strict d).1 = .error e) ↔
      ∃ x ∈ select d.log, Offends tables x.2 := by
    rw [← prevalidateAll_error_iff, drainBatch]
    by_cases empty : select d.log = []
    · simp [empty, prevalidateAll]
    · simp only [if_neg empty, if_true]
      cases prevalidateAll tables (select d.log) <;> simp
  refine ⟨refused, ?_, ?_⟩
  · intro e failed
    rw [drainBatch_eq] at failed ⊢
    split at failed
    · rfl
    · cases failed
  · intro outcome ok
    have taken : Taken tables schemaVersion outcome d
        (drainBatch tables (some schemaVersion) .strict d).2 := drainBatch_taken (Prod.ext ok rfl)
    refine ⟨taken, ?_⟩
    have none : (select d.log).filter (fun r => Offends tables r.2) = [] := by
      rw [List.filter_eq_nil_iff]
      intro x hx offends
      obtain ⟨e, failed⟩ := refused.mpr ⟨x, hx, of_decide_eq_true offends⟩
      rw [ok] at failed
      cases failed
    have counts := length_filterMap_forwarded tables schemaVersion (select d.log)
    rw [taken.forwarded, taken.processed, ← counts, none]
    rfl

variable (tables) in
/-- A lenient drain always takes its batch, and skips the offending rows. -/
def LenientDrain (schemaVersion : String) (d : DrainState) : Prop :=
  ∃ outcome d', drainBatch tables (some schemaVersion) .lenient d = (.ok outcome, d') ∧
    Taken tables schemaVersion outcome d d' ∧
    outcome.processed - outcome.forwarded =
      ((select d.log).filter (fun r => Offends tables r.2)).length

variable (tables) in
theorem lenientDrain (schemaVersion : String) (d : DrainState) :
    LenientDrain tables schemaVersion d := by
  obtain ⟨outcome, d', done⟩ : ∃ outcome d',
      drainBatch tables (some schemaVersion) .lenient d = (.ok outcome, d') := by
    unfold drainBatch
    by_cases empty : select d.log = []
    · exact ⟨_, _, if_pos empty⟩
    · simp [empty]
  have taken := drainBatch_taken done
  have counts := length_filterMap_forwarded tables schemaVersion (select d.log)
  refine ⟨outcome, d', done, taken, ?_⟩
  rw [taken.processed, taken.forwarded]
  omega

variable (tables) in
/-- The fence ends, with an empty log and every row sent once in order of the ids, or
before the first batch that holds an offending row. -/
def CompleteDrain (schemaVersion : String) (total : Nat) (d : DrainState) : Prop :=
  let r := drainAll tables (some schemaVersion) total d
  (∀ n, r.1 = .ok n → r.2.log.entries = [] ∧ n = total + d.log.entries.length ∧
    ∃ events, d.log.entries.map (fun x => forwarded tables schemaVersion x.2) = events.map some ∧
      r.2.sent = d.sent ++ events) ∧
  ∀ e, r.1 = .error e → ∃ k,
    let before := d.log.entries.take (k * pollBatchSize)
    let after := d.log.entries.drop (k * pollBatchSize)
    (∀ x ∈ before, ¬ Offends tables x.2) ∧ (∃ x ∈ after.take pollBatchSize, Offends tables x.2) ∧
      r.2.log.entries = after ∧
      r.2.sent = d.sent ++ before.filterMap (fun x => forwarded tables schemaVersion x.2)

theorem map_forwarded {schemaVersion : String} {rows : List (Nat × LogRow)}
    (valid : ∀ x ∈ rows, ¬ Offends tables x.2) :
    rows.map (fun x => forwarded tables schemaVersion x.2) =
      (rows.filterMap (fun x => forwarded tables schemaVersion x.2)).map some := by
  induction rows with
  | nil => rfl
  | cons r rows ih =>
    have first := mt (offends_iff tables schemaVersion r.2).mpr (valid r List.mem_cons_self)
    obtain ⟨ev, found⟩ := Option.ne_none_iff_exists'.mp first
    rw [List.map_cons, List.filterMap_cons, found, ih (fun x hx => valid x (List.mem_cons_of_mem _ hx)),
      List.map_cons]

variable (tables) in
theorem completeDrain (schemaVersion : String) (total : Nat) (d : DrainState) :
    CompleteDrain tables schemaVersion total d := by
  induction size : d.log.entries.length using Nat.strong_induction_on generalizing total d with
  | _ n ih =>
    obtain ⟨refused, unchanged, taken⟩ := strictDrain tables schemaVersion d
    have whole := List.take_append_drop pollBatchSize d.log.entries
    unfold CompleteDrain
    rw [drainAll]
    split
    · rename_i e d' failed
      have same : d' = d := by
        have kept := unchanged e
        rw [failed] at kept
        exact kept rfl
      subst same
      refine ⟨fun n ok => (by cases ok), fun e' _ => ⟨0, ?_⟩⟩
      simp only [Nat.zero_mul, List.take_zero, List.drop_zero, List.filterMap_nil, List.append_nil]
      exact ⟨by simp, refused.mp ⟨e, by rw [failed]⟩, trivial, trivial⟩
    · rename_i outcome d' done
      rw [done] at taken refused
      obtain ⟨batch, all⟩ := taken outcome rfl
      have valid : ∀ x ∈ select d.log, ¬ Offends tables x.2 := fun x hx offends => by
        obtain ⟨e, failed⟩ := refused.mpr ⟨x, hx, offends⟩
        cases failed
      have left : d'.log.entries = d.log.entries.drop pollBatchSize :=
        List.append_cancel_left (batch.deleted.symm.trans whole.symm)
      split
      · rename_i none
        have empty : select d.log = [] := by
          rw [batch.processed] at none
          exact List.length_eq_zero_iff.mp none
        have vacant : d.log.entries = [] := by simpa [select, pollBatchSize] using empty
        have sent := batch.sent
        rw [empty, List.filterMap_nil] at sent
        refine ⟨fun n ok => ?_, fun e failed => (by cases failed)⟩
        cases ok
        exact ⟨by rw [left, vacant, List.drop_nil], by rw [vacant]; rfl, [], by rw [vacant]; rfl, sent⟩
      · rename_i more
        have smaller : d'.log.entries.length < n := size ▸ drainBatch_shrinks done more
        obtain ⟨complete, stopped⟩ := ih _ smaller (total + outcome.forwarded) d' rfl
        refine ⟨fun n ok => ?_, fun e failed => ?_⟩
        · obtain ⟨none, count, events, sends, sent⟩ := complete n ok
          refine ⟨none, ?_, (select d.log).filterMap (fun x => forwarded tables schemaVersion x.2) ++ events,
            ?_, ?_⟩
          · rw [count, all, batch.processed, batch.deleted, List.length_append, Nat.add_assoc]
          · rw [batch.deleted, List.map_append, List.map_append, sends, map_forwarded valid]
          · rw [sent, batch.sent, List.append_assoc]
        · obtain ⟨k, before, offends, rest, sent⟩ := stopped e failed
          have cut : d.log.entries.take ((k + 1) * pollBatchSize) =
              select d.log ++ d'.log.entries.take (k * pollBatchSize) := by
            rw [Nat.succ_mul, Nat.add_comm, List.take_add, ← left]
            rfl
          have after : d.log.entries.drop ((k + 1) * pollBatchSize) =
              d'.log.entries.drop (k * pollBatchSize) := by
            rw [left, List.drop_drop, Nat.succ_mul, Nat.add_comm]
          refine ⟨k + 1, ?_⟩
          simp only [cut, after]
          refine ⟨?_, offends, rest, ?_⟩
          · intro x hx
            rcases List.mem_append.mp hx with hx | hx
            · exact valid x hx
            · exact before x hx
          · rw [sent, batch.sent, List.filterMap_append, List.append_assoc]

/-- A drain in either mode and the fence, on any log and any configuration. -/
theorem drains_atomically (tables : List TrackedTable) (schemaVersion : String) (d : DrainState) :
    StrictDrain tables schemaVersion d ∧ LenientDrain tables schemaVersion d ∧
      CompleteDrain tables schemaVersion 0 d :=
  ⟨strictDrain tables schemaVersion d, lenientDrain tables schemaVersion d,
    completeDrain tables schemaVersion 0 d⟩

end Triggers

end GitAgentic
