import GitAgentic.Memory.Replay

/-! Full rows. Where every row carries all columns of its table and a key, restoring
is a run of upserts and deletes of whole rows, unless a column name is refused. -/
namespace GitAgentic

open LastWriter

def rowOf (obj : List (String × Json)) : Row := fun c => (Restore.column obj c).getD .null

/-- Exactly the given columns, among them a key that is not null. -/
structure FullRow (pkCol : String) (cols : List String) (obj : List (String × Json)) : Prop where
  columns : ∀ c, c ∈ Restore.columns obj ↔ c ∈ cols
  key : (rowOf obj pkCol).isNull = false

def changeOfRow (pkCol : String) (op : Op) (obj : List (String × Json)) : Change Json Row :=
  match Restore.batchModeOf op with
  | .upsert => .upsert (rowOf obj pkCol) (rowOf obj)
  | .delete => .delete (rowOf obj pkCol)

/-- Only an upsert names the columns in its statement. -/
def storable (cols : List String) : Change Json Row → Bool
  | .upsert _ _ => cols.all Restore.isIdentifier
  | .delete _ => true

section

variable (Hash : Type)

def changeOf (pkCol : String) (v : Value) : Option (Change Json Row) :=
  match (Restore.decodeEntry pkCol v : Except (MemoryError Hash) (Option Restore.Entry)) with
  | .ok (some e) => some (changeOfRow pkCol e.1 e.2)
  | _ => none

/-- A row of a segment that holds a full row. -/
def FullEnvelope (pkCol : String) (cols : List String) (v : Value) : Prop :=
  ∃ op obj, (Restore.peelEnvelope v.json : Except (MemoryError Hash) (Op × Json)) =
    .ok (op, .object obj) ∧ FullRow pkCol cols obj

end

namespace FullRow

variable {pkCol : String} {cols : List String} {obj : List (String × Json)}

theorem key_column (full : FullRow pkCol cols obj) :
    Restore.column obj pkCol = some (rowOf obj pkCol) := by
  have key := full.key
  unfold rowOf at key ⊢
  cases found : Restore.column obj pkCol with
  | none =>
    rw [found] at key
    cases key
  | some v => rfl

theorem nonempty (full : FullRow pkCol cols obj) : obj ≠ [] := by
  rintro rfl
  have key := full.key_column
  cases key

theorem identifiers (full : FullRow pkCol cols obj) :
    (Restore.columns obj).all Restore.isIdentifier = cols.all Restore.isIdentifier := by
  rw [Bool.eq_iff_iff, List.all_eq_true, List.all_eq_true]
  exact forall_congr' (fun c => by rw [full.columns c])

theorem outside (full : FullRow pkCol cols obj) {c : String} (hc : c ∉ cols) :
    rowOf obj c = .null := by
  rw [← full.columns c, ← Restore.column_isSome_iff, Option.not_isSome_iff_eq_none] at hc
  simp only [rowOf, hc, Option.getD_none]

theorem inside (full : FullRow pkCol cols obj) {c : String} (hc : c ∈ cols) (other : Json) :
    (Restore.column obj c).getD other = rowOf obj c := by
  rw [← full.columns c, ← Restore.column_isSome_iff] at hc
  obtain ⟨v, found⟩ := Option.isSome_iff_exists.mp hc
  simp only [rowOf, found, Option.getD_some]

end FullRow

/-- Every row of the table lies at its key and sets no other column. -/
def Kept (pkCol : String) (cols : List String) (t : Table) : Prop :=
  ∀ key row, t key = some row → row pkCol = key ∧ ∀ c, c ∉ cols → row c = .null

theorem kept_empty (pkCol : String) (cols : List String) : Kept pkCol cols (fun _ => none) := by
  intro key row found
  cases found

section

variable {pkCol : String} {cols : List String} {obj : List (String × Json)} {t : Table}

theorem Kept.apply (kept : Kept pkCol cols t) (full : FullRow pkCol cols obj) (op : Op) :
    Kept pkCol cols ((changeOfRow pkCol op obj).apply t) := by
  intro key row found
  unfold changeOfRow at found
  split at found
  · by_cases here : key = rowOf obj pkCol
    · subst here
      simp only [Change.apply, Change.key, Change.result, Function.update_self,
        Option.some.injEq] at found
      subst found
      exact ⟨rfl, fun c hc => full.outside hc⟩
    · rw [Change.apply, Change.key, Function.update_of_ne here] at found
      exact kept key row found
  · by_cases here : key = rowOf obj pkCol
    · subst here
      simp [Change.apply, Change.key, Change.result] at found
    · rw [Change.apply, Change.key, Function.update_of_ne here] at found
      exact kept key row found

theorem Kept.merge (kept : Kept pkCol cols t) (full : FullRow pkCol cols obj) :
    Restore.merge pkCol (t (rowOf obj pkCol)) obj = rowOf obj := by
  unfold Restore.merge
  cases found : t (rowOf obj pkCol) with
  | none => rfl
  | some row =>
    obtain ⟨key, outside⟩ := kept _ row found
    funext c
    by_cases isKey : c = pkCol
    · subst isKey
      simp only [if_true, key]
    · simp only [if_neg isKey]
      by_cases among : c ∈ cols
      · exact full.inside among _
      · have absent : Restore.column obj c = none := by
          rw [← full.columns c, ← Restore.column_isSome_iff, Option.not_isSome_iff_eq_none] at among
          exact among
        rw [full.outside among, absent, Option.getD_none, outside c among]

variable {Hash : Type}

theorem applyEntry_full (kept : Kept pkCol cols t) (full : FullRow pkCol cols obj) (op : Op) :
    (Restore.applyEntry pkCol t (op, obj) : Except (MemoryError Hash) Table).toOption =
      if storable cols (changeOfRow pkCol op obj) then some ((changeOfRow pkCol op obj).apply t)
      else none := by
  unfold Restore.applyEntry changeOfRow
  cases Restore.batchModeOf op with
  | upsert =>
    have stored : (Restore.upsertRow pkCol obj t : Except (MemoryError Hash) Table) =
        .ok (Function.update t (rowOf obj pkCol) (some (rowOf obj))) := by
      simp only [Restore.upsertRow, full.key_column, full.key, kept.merge full]
      rfl
    simp only [Restore.toOption_bind, Restore.toOption_forM_validateIdentifier, full.identifiers,
      stored]
    by_cases ok : cols.all Restore.isIdentifier = true
    · rw [if_pos ok]
      exact (if_pos ok).symm
    · rw [if_neg ok]
      exact (if_neg ok).symm
  | delete =>
    simp only [Restore.deleteRow, Restore.deleteKey, full.key_column, full.key, storable]
    rfl

theorem FullEnvelope.change {v : Value} (full : FullEnvelope Hash pkCol cols v) :
    ∃ op obj, FullRow pkCol cols obj ∧ changeOf Hash pkCol v = some (changeOfRow pkCol op obj) ∧
      (Restore.decodeEntry pkCol v : Except (MemoryError Hash) (Option Restore.Entry)) =
        .ok (some (op, obj)) := by
  obtain ⟨op, obj, peeled, row⟩ := full
  have decoded : (Restore.decodeEntry pkCol v : Except (MemoryError Hash) (Option Restore.Entry)) =
      .ok (some (op, obj)) := by
    rw [Restore.decodeEntry, peeled]
    exact if_neg row.nonempty
  refine ⟨op, obj, row, ?_, decoded⟩
  rw [changeOf, decoded]

theorem applyRows_full (kept : Kept pkCol cols t) {rows : List Value}
    (full : ∀ v ∈ rows, FullEnvelope Hash pkCol cols v) :
    (rows.foldlM (Restore.applyRow pkCol) t : Except (MemoryError Hash) Table).toOption =
      if (rows.filterMap (changeOf Hash pkCol)).all (storable cols) then
        some (replay t (rows.filterMap (changeOf Hash pkCol))) else none := by
  induction rows generalizing t with
  | nil => rfl
  | cons v rows ih =>
    obtain ⟨op, obj, row, change, decoded⟩ := (full v List.mem_cons_self).change
    have rest := ih (kept.apply row op) (fun w hw => full w (List.mem_cons_of_mem _ hw))
    have first : (Restore.applyRow pkCol t v : Except (MemoryError Hash) Table) =
        Restore.applyEntry pkCol t (op, obj) := by
      rw [Restore.applyRow, decoded]
      rfl
    rw [List.foldlM_cons, Restore.toOption_bind, first, applyEntry_full kept row,
      List.filterMap_cons, change]
    by_cases ok : storable cols (changeOfRow pkCol op obj) = true
    · simp only [ok, if_true, Option.bind_some, rest, List.all_cons, Bool.true_and]
      rfl
    · simp [ok]

/- Events that carry full rows. -/

theorem peelEnvelope_envelope (ev : ChangeEvent) :
    (Restore.peelEnvelope ev.envelope.json : Except (MemoryError Hash) (Op × Json)) =
      .ok (ev.op, ev.row.json) := by
  cases op : ev.op <;> simp [ChangeEvent.envelope, Value.envelope, op, Op.name] <;> rfl

def FullEvent (pkCol : String) (cols : List String) (ev : ChangeEvent) : Prop :=
  ∃ obj, ev.row.json = .object obj ∧ FullRow pkCol cols obj

def ChangeEvent.change (pkCol : String) (ev : ChangeEvent) : Change Json Row :=
  changeOfRow pkCol ev.op (ev.row.json.asObject?.getD [])

theorem FullEvent.envelope {pkCol : String} {cols : List String} {ev : ChangeEvent}
    (full : FullEvent pkCol cols ev) :
    FullEnvelope Hash pkCol cols ev.envelope ∧
      changeOf Hash pkCol ev.envelope = some (ev.change pkCol) := by
  obtain ⟨obj, row, full⟩ := full
  have peeled : (Restore.peelEnvelope ev.envelope.json : Except (MemoryError Hash) (Op × Json)) =
      .ok (ev.op, .object obj) := by
    rw [peelEnvelope_envelope, row]
  refine ⟨⟨ev.op, obj, peeled, full⟩, ?_⟩
  have decoded : (Restore.decodeEntry pkCol ev.envelope :
      Except (MemoryError Hash) (Option Restore.Entry)) = .ok (some (ev.op, obj)) := by
    rw [Restore.decodeEntry, peeled]
    exact if_neg full.nonempty
  rw [changeOf, decoded, ChangeEvent.change, row]
  rfl

theorem filterMap_envelopes {pkCol : String} {cols : List String} {evs : List ChangeEvent}
    (full : ∀ ev ∈ evs, FullEvent pkCol cols ev) :
    (evs.map ChangeEvent.envelope).filterMap (changeOf Hash pkCol) =
      evs.map (ChangeEvent.change pkCol) := by
  rw [List.filterMap_map, ← List.filterMap_eq_map]
  exact List.filterMap_congr (fun ev hev => (full ev hev).envelope.2)

variable (P : Platform Hash)

theorem restoreTable_full (table : TrackedTable) (segments : List (SegmentRef Hash × Segment))
    (full : ∀ e ∈ segments, e.1.table = table.name →
      ∀ v ∈ e.2.rows, FullEnvelope Hash table.pk cols v) :
    let changes := ((segments.filter (fun e => e.1.table = table.name)).flatMap
      (fun e => e.2.rows)).filterMap (changeOf Hash table.pk)
    (Restore.restoreTable P segments table).toOption =
      if Restore.isIdentifier table.name ∧ Restore.isIdentifier table.pk ∧
          changes.all (storable cols) then some (replay (fun _ => none) changes) else none := by
  intro changes
  simp only [Restore.restoreTable, Restore.toOption_bind, Restore.toOption_validateIdentifier]
  by_cases name : Restore.isIdentifier table.name = true
  · by_cases pk : Restore.isIdentifier table.pk = true
    · simp only [name, pk, if_true, Option.bind_some, true_and]
      have own : ∀ v ∈ (segments.filter (fun e => e.1.table = table.name)).flatMap
          (fun e => e.2.rows), FullEnvelope Hash table.pk cols v := by
        intro v hv
        obtain ⟨e, he, hv⟩ := List.mem_flatMap.mp hv
        obtain ⟨he, same⟩ := List.mem_filter.mp he
        exact full e he (by simpa using same) v hv
      rw [← applyRows_full (kept_empty table.pk cols) own, Restore.toOption_foldlM]
      generalize segments.filter (fun e => e.1.table = table.name) = own
      generalize (fun _ => none : Table) = start
      induction own generalizing start with
      | nil => rfl
      | cons e own ih =>
        rw [List.foldlM_cons, List.flatMap_cons, List.foldlM_append, Restore.toOption_bind,
          Restore.applySegmentRows_toOption P pk]
        exact congrArg _ (funext fun t => ih t)
    · simp [name, pk]
  · simp [name]

end

end GitAgentic
