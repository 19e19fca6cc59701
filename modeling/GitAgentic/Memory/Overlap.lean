import GitAgentic.Memory.Capture
import GitAgentic.Data.Redelivery

/-! The baseline and the log overlap. The triggers are in place before the baseline is
scanned, so the log repeats what the baseline holds, and a drain that fails sends a part
of its batch before it sends it whole. The last change to every key decides nonetheless. -/
namespace GitAgentic

open LastWriter Redelivery

/-- An update that leaves its row at its key. -/
def RowOp.KeepsKey (sch : TableSchema) : RowOp → Prop
  | .update key row => row sch.table.pk = key
  | _ => True

/-- The event is one a drain sends for the row, under whatever version it read. -/
def LogRow.SentAs (tables : List TrackedTable) (r : LogRow) (ev : ChangeEvent) : Prop :=
  ∃ schemaVersion, Triggers.forwarded tables schemaVersion r = some ev

theorem Triggers.name_of_parseOp {s : String} {op : Op} (h : parseOp s = some op) : op.name = s := by
  unfold parseOp at h
  split at h
  · rename_i known
    cases h
    exact known.symm
  · split at h
    · rename_i known
      cases h
      exact known.symm
    · split at h
      · rename_i known
        cases h
        exact known.symm
      · cases h

theorem LogRow.SentAs.envelope {tables : List TrackedTable} {r : LogRow} {ev : ChangeEvent}
    (h : r.SentAs tables ev) : ev.envelope = r.envelope := by
  obtain ⟨schemaVersion, h⟩ := h
  simp only [Triggers.forwarded, Option.bind_eq_bind, Option.bind_eq_some_iff] at h
  obtain ⟨tableName, _, opStr, foundOp, row, foundRow, table, _, op, parsed, h⟩ := h
  cases h
  rw [ChangeEvent.envelope, LogRow.envelope, foundOp, foundRow, Triggers.name_of_parseOp parsed]
  rfl

theorem map_envelope_sentAs {tables : List TrackedTable} {rows : List LogRow}
    {events : List ChangeEvent} (sent : List.Forall₂ (LogRow.SentAs tables) rows events) :
    events.map ChangeEvent.envelope = rows.map LogRow.envelope := by
  induction sent with
  | nil => rfl
  | cons first _ ih => rw [List.map_cons, List.map_cons, first.envelope, ih]

theorem sentAs_forwarded (tables : List TrackedTable) (schemaVersion : String) {rows : List LogRow}
    (valid : ∀ r ∈ rows, Triggers.prevalidate tables r = .ok ()) :
    List.Forall₂ (LogRow.SentAs tables) rows
      (rows.filterMap (Triggers.forwarded tables schemaVersion)) := by
  induction rows with
  | nil => exact .nil
  | cons r rows ih =>
    have passes := (Triggers.prevalidate_ok_iff tables schemaVersion r).mp (valid r List.mem_cons_self)
    obtain ⟨ev, found⟩ := Option.isSome_iff_exists.mp passes
    rw [List.filterMap_cons, found]
    exact .cons ⟨schemaVersion, found⟩ (ih (fun q hq => valid q (List.mem_cons_of_mem _ hq)))

section

variable {sch : TableSchema} {t : Table}

theorem execute_append (sch : TableSchema) (relation : String) (ops more : List RowOp) (t : Table) :
    execute sch relation (ops ++ more) t =
      ((execute sch relation more (execute sch relation ops t).1).1,
        (execute sch relation ops t).2 ++
          (execute sch relation more (execute sch relation ops t).1).2) := by
  induction ops generalizing t with
  | nil => rfl
  | cons op ops ih =>
    simp only [List.cons_append, execute, ih]
    rw [List.append_assoc]

theorem loggedChanges_append (relation : String) (ops more : List RowOp) (t : Table) :
    loggedChanges sch (ops ++ more) t =
      loggedChanges sch ops t ++ loggedChanges sch more (execute sch relation ops t).1 := by
  induction ops generalizing t with
  | nil => rfl
  | cons op ops ih =>
    simp only [List.cons_append, loggedChanges, execute, ih]
    rw [List.append_assoc]

theorem execute_tableOk (ok : sch.TableOk t) {ops : List RowOp} (rows : ∀ op ∈ ops, op.RowsOk sch)
    (relation : String) : sch.TableOk (execute sch relation ops t).1 := by
  induction ops generalizing t with
  | nil => exact ok
  | cons op ops ih =>
    have fits := RowOp.effect_ok ok (rows op List.mem_cons_self)
    exact ih (fits.tableOk ok) (fun o ho => rows o (List.mem_cons_of_mem _ ho))

theorem RowOp.KeepsKey.apply (ok : sch.TableOk t) {op : RowOp} (keeps : op.KeepsKey sch) :
    (op.effect sch t).apply sch t = replay t ((op.effect sch t).change sch) := by
  cases op with
  | insert row =>
    cases found : t (row sch.table.pk) with
    | some old =>
      simp only [effect, found]
      rfl
    | none =>
      simp only [effect, found]
      rfl
  | update key row =>
    cases found : t key with
    | none =>
      simp only [effect, found]
      rfl
    | some old =>
      have lies : old sch.table.pk = key := (ok key old found).1
      have stays : ¬ (row sch.table.pk ≠ key ∧ (t (row sch.table.pk)).isSome) := fun h => h.1 keeps
      have same : old sch.table.pk = row sch.table.pk := lies.trans (Eq.symm keeps)
      simp only [effect, found, if_neg stays, Effect.apply, same, Function.update_idem]
      rfl
  | delete key =>
    cases found : t key with
    | none =>
      simp only [effect, found]
      rfl
    | some old =>
      simp only [effect, found]
      rfl

theorem execute_replay (ok : sch.TableOk t) {ops : List RowOp} (rows : ∀ op ∈ ops, op.RowsOk sch)
    (keeps : ∀ op ∈ ops, op.KeepsKey sch) (relation : String) :
    (execute sch relation ops t).1 = replay t (loggedChanges sch ops t) := by
  induction ops generalizing t with
  | nil => rfl
  | cons op ops ih =>
    have fits := RowOp.effect_ok ok (rows op List.mem_cons_self)
    have first := (keeps op List.mem_cons_self).apply ok
    rw [loggedChanges, replay_append, ← first]
    exact ih (fits.tableOk ok) (fun o ho => rows o (List.mem_cons_of_mem _ ho))
      (fun o ho => keeps o (List.mem_cons_of_mem _ ho))

theorem FullEnvelope.event {Hash : Type} {pkCol : String} {cols : List String} {ev : ChangeEvent}
    (full : FullEnvelope Hash pkCol cols ev.envelope) : FullEvent pkCol cols ev := by
  obtain ⟨op, obj, peeled, row⟩ := full
  rw [peelEnvelope_envelope] at peeled
  exact ⟨obj, congrArg Prod.snd (Except.ok.inj peeled), row⟩

theorem sentAs_full (Hash : Type) {pkCol : String} {cols : List String} {tables : List TrackedTable}
    {rows : List LogRow} {events : List ChangeEvent}
    (sent : List.Forall₂ (LogRow.SentAs tables) rows events)
    (full : ∀ v ∈ rows.map LogRow.envelope, FullEnvelope Hash pkCol cols v) :
    ∀ ev ∈ events, FullEvent pkCol cols ev := by
  intro ev hev
  refine FullEnvelope.event (full _ ?_)
  rw [← map_envelope_sentAs sent]
  exact List.mem_map.mpr ⟨ev, hev, rfl⟩

theorem redelivered_changes (Hash : Type) (ok : sch.TableOk t) {ops : List RowOp}
    (rows : ∀ op ∈ ops, op.RowsOk sch) (relation : String) {tables : List TrackedTable}
    {delivered : List LogRow} {events : List ChangeEvent}
    (delivery : Redelivered (execute sch relation ops t).2 delivered)
    (sent : List.Forall₂ (LogRow.SentAs tables) delivered events) :
    (∀ ev ∈ events, FullEvent sch.table.pk sch.cols ev) ∧
      Redelivered (loggedChanges sch ops t) (events.map (ChangeEvent.change sch.table.pk)) := by
  obtain ⟨full, stands⟩ := execute_full Hash ok ops rows relation
  have events_full : ∀ ev ∈ events, FullEvent sch.table.pk sch.cols ev := by
    refine sentAs_full Hash sent ?_
    intro v hv
    obtain ⟨r, hr, rfl⟩ := List.mem_map.mp hv
    exact full _ (List.mem_map.mpr ⟨r, delivery.subset hr, rfl⟩)
  refine ⟨events_full, ?_⟩
  have kept := delivery.filterMap (changeOf Hash sch.table.pk ∘ LogRow.envelope)
  rw [← List.filterMap_map, ← List.filterMap_map, stands, ← map_envelope_sentAs sent,
    filterMap_envelopes events_full] at kept
  exact kept

theorem replay_over_baseline (ok : sch.TableOk t) {between after : List RowOp}
    (rows : ∀ op ∈ between ++ after, op.RowsOk sch) (keeps : ∀ op ∈ between ++ after, op.KeepsKey sch)
    (relation : String) {changes : List (Change Json Row)}
    (delivered : Redelivered (loggedChanges sch (between ++ after) t) changes) :
    replay (execute sch relation between t).1 changes = (execute sch relation (between ++ after) t).1 := by
  have baseline : (execute sch relation between t).1 = replay t (loggedChanges sch between t) :=
    execute_replay ok (fun op hop => rows op (List.mem_append_left _ hop))
      (fun op hop => keeps op (List.mem_append_left _ hop)) relation
  rw [loggedChanges_append relation] at delivered
  rw [execute_replay ok rows keeps relation, loggedChanges_append relation, baseline]
  rw [baseline] at delivered
  exact delivered.replay_overlap t

theorem cut_history (ops : List RowOp) {s p : Nat} (earlier : s ≤ p) :
    ∃ between, ops.take p = ops.take s ++ between ∧ ops.drop s = between ++ ops.drop p := by
  obtain ⟨n, rfl⟩ := Nat.exists_eq_add_of_le earlier
  refine ⟨(ops.drop s).take n, List.take_add, ?_⟩
  rw [← List.drop_drop]
  exact (List.take_append_drop n _).symm

/-- The events of a log that starts before the baseline, delivered with retries. Replayed
over the baseline they give the final contents, and so does a restore of them unless a
column has a name that no statement may name. -/
theorem overlap_converges {Hash : Type} (P : Platform Hash) (sch : TableSchema) {t : Table}
    (ok : sch.TableOk t) {ops : List RowOp} (rows : ∀ op ∈ ops, op.RowsOk sch)
    (keeps : ∀ op ∈ ops, op.KeepsKey sch) (relation : String) {s p : Nat} (earlier : s ≤ p)
    (tables : List TrackedTable) {delivered : List LogRow} {events : List ChangeEvent}
    (delivery : Redelivered
      (execute sch relation (ops.drop s) (execute sch relation (ops.take s) t).1).2 delivered)
    (sent : List.Forall₂ (LogRow.SentAs tables) delivered events) :
    let baseline := (execute sch relation (ops.take p) t).1
    let final := (execute sch relation ops t).1
    let changes := events.map (ChangeEvent.change sch.table.pk)
    replay baseline changes = final ∧
      (Restore.applySegmentRows P sch.table.pk (events.map ChangeEvent.envelope) baseline).toOption =
        if changes.all (storable sch.cols) then some final else none := by
  intro baseline final changes
  obtain ⟨between, untilP, fromS⟩ := cut_history ops earlier
  have rowsAfter : ∀ op ∈ ops.drop s, op.RowsOk sch := fun op hop => rows op (List.mem_of_mem_drop hop)
  have keepsAfter : ∀ op ∈ ops.drop s, op.KeepsKey sch :=
    fun op hop => keeps op (List.mem_of_mem_drop hop)
  have okStart : sch.TableOk (execute sch relation (ops.take s) t).1 :=
    execute_tableOk ok (fun op hop => rows op (List.mem_of_mem_take hop)) relation
  obtain ⟨full, repeated⟩ := redelivered_changes Hash okStart rowsAfter relation delivery sent
  have atBaseline : baseline =
      (execute sch relation between (execute sch relation (ops.take s) t).1).1 := by
    simp only [baseline, untilP, execute_append]
  have atEnd : final =
      (execute sch relation (ops.drop s) (execute sch relation (ops.take s) t).1).1 := by
    have whole := execute_append sch relation (ops.take s) (ops.drop s) t
    rw [List.take_append_drop] at whole
    simp only [final, whole]
  have converges : replay baseline changes = final := by
    rw [atBaseline, atEnd]
    rw [fromS] at rowsAfter keepsAfter repeated ⊢
    exact replay_over_baseline okStart rowsAfter keepsAfter relation repeated
  refine ⟨converges, ?_⟩
  have okBaseline : sch.TableOk baseline :=
    execute_tableOk ok (fun op hop => rows op (List.mem_of_mem_take hop)) relation
  have envelopes : ∀ v ∈ events.map ChangeEvent.envelope,
      FullEnvelope Hash sch.table.pk sch.cols v := by
    intro v hv
    obtain ⟨ev, hev, rfl⟩ := List.mem_map.mp hv
    exact (full ev hev).envelope.1
  rw [Restore.applySegmentRows_toOption P sch.pk_identifier, applyRows_full okBaseline.kept envelopes,
    filterMap_envelopes full, converges]

/-- An insert captured twice, once before the baseline was scanned, then an update. -/
theorem overlap_converges_episode :
    let ops : List RowOp :=
      [.insert (episodeRow 1 "a"), .update (.number (.posInt 1)) (episodeRow 1 "b")]
    let log := (execute episodesSchema "public.episodes" ops (fun _ => none)).2
    let events := (log.take 1 ++ log).filterMap (Triggers.forwarded [episodesSchema.table] "1")
    replay (execute episodesSchema "public.episodes" (ops.take 1) (fun _ => none)).1
        (events.map (ChangeEvent.change "id")) =
      (execute episodesSchema "public.episodes" ops (fun _ => none)).1 := by
  intro ops log events
  have rows : ∀ op ∈ ops, op.RowsOk episodesSchema := by
    intro op hop
    rcases List.mem_cons.mp hop with rfl | hop
    · exact episodeRow_ok 1 "a"
    · cases List.mem_singleton.mp hop
      exact episodeRow_ok 1 "b"
  have keeps : ∀ op ∈ ops, op.KeepsKey episodesSchema := by
    intro op hop
    rcases List.mem_cons.mp hop with rfl | hop
    · trivial
    · cases List.mem_singleton.mp hop
      rfl
  have delivery : Redelivered log (log.take 1 ++ log) := by
    have once := Redelivered.batch log [log.take 1]
      (fun r hr => List.mem_singleton.mp hr ▸ List.take_prefix 1 log) .nil
    simpa using once
  have sent : List.Forall₂ (LogRow.SentAs [episodesSchema.table]) (log.take 1 ++ log) events := by
    refine sentAs_forwarded _ "1" ?_
    decide
  exact (overlap_converges Platform.sample episodesSchema (no_rows _) rows keeps "public.episodes"
    (Nat.zero_le 1) [episodesSchema.table] delivery sent).1

end

end GitAgentic
