import GitAgentic.Memory.Restore
import GitAgentic.Data.LastWriter

/-! Restoring row by row. The batches of a restore succeed exactly when the rows do
one at a time, and leave the same table; on full rows that is a run of upserts and
deletes of whole rows. -/
namespace GitAgentic

namespace Restore

@[simp] theorem toOption_bind {ε α β : Type} (x : Except ε α) (f : α → Except ε β) :
    (x >>= f).toOption = x.toOption.bind (fun a => (f a).toOption) := by
  cases x <;> rfl

@[simp] theorem toOption_pure {ε α : Type} (a : α) : (pure a : Except ε α).toOption = some a := rfl

@[simp] theorem toOption_ok {ε α : Type} (a : α) : (Except.ok a : Except ε α).toOption = some a := rfl

@[simp] theorem toOption_error {ε α : Type} (e : ε) :
    (Except.error e : Except ε α).toOption = none := rfl

@[simp] theorem toOption_throw {ε α : Type} (e : ε) :
    (throw e : Except ε α).toOption = none := rfl

theorem toOption_foldlM {ε α β : Type} (f : β → α → Except ε β) (l : List α) (b : β) :
    (l.foldlM f b).toOption = l.foldlM (fun b a => (f b a).toOption) b := by
  induction l generalizing b with
  | nil => rfl
  | cons a l ih =>
    simp only [List.foldlM_cons, toOption_bind, ih]
    rfl

theorem foldlM_congr {α β : Type} {f g : β → α → Option β} (l : List α) (b : β)
    (h : ∀ a ∈ l, ∀ b, f b a = g b a) : l.foldlM f b = l.foldlM g b := by
  induction l generalizing b with
  | nil => rfl
  | cons a l ih =>
    simp only [List.foldlM_cons, h a List.mem_cons_self]
    exact congrArg _ (funext fun b => ih b (fun x hx => h x (List.mem_cons_of_mem _ hx)))

theorem toOption_mapM {ε α β : Type} (f : α → Except ε β) (l : List α) :
    (l.mapM f).toOption = l.mapM (fun a => (f a).toOption) := by
  induction l with
  | nil => rfl
  | cons a l ih =>
    simp only [List.mapM_cons, toOption_bind, ih, toOption_pure]
    rfl

section

variable {Hash : Type}

theorem toOption_validateIdentifier (s : String) :
    (validateIdentifier s : Except (MemoryError Hash) Unit).toOption =
      if isIdentifier s then some () else none := by
  unfold validateIdentifier isIdentifier
  by_cases empty : s = ""
  · simp [empty]
  · by_cases chars : s.toList.all (fun c => c.isAlphanum || c = '_' || c = '.') = true
    · simp [empty, chars]
    · simp [empty, chars]

theorem toOption_forM_validateIdentifier (cols : List String) :
    (cols.forM validateIdentifier : Except (MemoryError Hash) Unit).toOption =
      if cols.all isIdentifier then some () else none := by
  induction cols with
  | nil => rfl
  | cons c cols ih =>
    have step : ((c :: cols).forM validateIdentifier : Except (MemoryError Hash) Unit) =
        validateIdentifier c >>= fun _ => cols.forM validateIdentifier := rfl
    rw [step, toOption_bind, toOption_validateIdentifier, ih, List.all_cons]
    by_cases first : isIdentifier c = true <;> simp [first]

/- One row at a time. -/

def deleteRow (pkCol : String) (obj : List (String × Json)) (t : Table) :
    Except (MemoryError Hash) Table := do
  let key ← deleteKey pkCol obj
  return Function.update t key none

def applyEntry (pkCol : String) (t : Table) (e : Entry) : Except (MemoryError Hash) Table :=
  match batchModeOf e.1 with
  | .upsert => do
    (columns e.2).forM validateIdentifier
    upsertRow pkCol e.2 t
  | .delete => deleteRow pkCol e.2 t

def applyRow (pkCol : String) (t : Table) (env : Value) : Except (MemoryError Hash) Table := do
  match ← decodeEntry pkCol env with
  | none => return t
  | some e => applyEntry pkCol t e

/-- An upsert batch: every row sets the same columns, and no key comes twice. -/
structure UpsertBatch (pkCol : String) (cols : List String) (rows : List Entry) : Prop where
  mode : ∀ e ∈ rows, batchModeOf e.1 = .upsert
  columns : ∀ e ∈ rows, ∀ c, c ∈ columns e.2 ↔ c ∈ cols
  keys : (rows.filterMap (fun e => column e.2 pkCol)).Nodup

theorem column_isSome_iff (obj : List (String × Json)) (c : String) :
    (column obj c).isSome ↔ c ∈ columns obj := by
  simp only [column, Json.get?, Option.isSome_map, List.find?_isSome, columns, List.mem_map,
    beq_iff_eq]

theorem batchUpsert_toOption {pkCol : String} {cols : List String} {first : Entry}
    {rows : List Entry} (batch : UpsertBatch pkCol cols (first :: rows)) (t : Table) :
    (batchUpsert pkCol cols (first :: rows) t : Except (MemoryError Hash) Table).toOption =
      ((first :: rows).foldlM (applyEntry pkCol) t : Except (MemoryError Hash) Table).toOption := by
  have whole : cols.find? (fun c => (first :: rows).any (fun e => (column e.2 c).isNone)) = none := by
    rw [List.find?_eq_none]
    intro c hc missing
    obtain ⟨e, he, absent⟩ := List.any_eq_true.mp missing
    have present := (column_isSome_iff e.2 c).mpr ((batch.columns e he c).mpr hc)
    rw [Option.isNone_iff_eq_none] at absent
    rw [absent] at present
    cases present
  have valid : ∀ e ∈ first :: rows, (columns e.2).all isIdentifier = cols.all isIdentifier := by
    intro e he
    rw [Bool.eq_iff_iff, List.all_eq_true, List.all_eq_true]
    exact forall_congr' (fun c => by rw [batch.columns e he c])
  have step : ∀ e ∈ first :: rows, ∀ t,
      (applyEntry pkCol t e : Except (MemoryError Hash) Table).toOption =
        if cols.all isIdentifier then (upsertRow pkCol e.2 t : Except (MemoryError Hash) Table).toOption
        else none := by
    intro e he t
    simp only [applyEntry, batch.mode e he, toOption_bind, toOption_forM_validateIdentifier,
      valid e he]
    split <;> rfl
  have distinct : ¬ (cols.filter (fun c => c ≠ pkCol) ≠ [] ∧
      ¬ ((first :: rows).filterMap (fun e => column e.2 pkCol)).Nodup) := fun h => h.2 batch.keys
  rw [toOption_foldlM, foldlM_congr _ t step]
  simp only [batchUpsert, toOption_bind, toOption_forM_validateIdentifier, whole, if_neg distinct]
  by_cases ok : cols.all isIdentifier = true
  · simp only [if_pos ok, Option.bind_some]
    exact toOption_foldlM _ _ t
  · simp only [if_neg ok]
    rfl

theorem batchDelete_toOption {pkCol : String} {rows : List Entry}
    (mode : ∀ e ∈ rows, batchModeOf e.1 = .delete) (t : Table) :
    (batchDelete pkCol rows t : Except (MemoryError Hash) Table).toOption =
      (rows.foldlM (applyEntry pkCol) t : Except (MemoryError Hash) Table).toOption := by
  induction rows generalizing t with
  | nil => rfl
  | cons e rows ih =>
    have others := ih (fun x hx => mode x (List.mem_cons_of_mem _ hx))
    simp only [batchDelete, toOption_bind, toOption_pure, List.foldlM_cons, List.mapM_cons] at others ⊢
    simp only [applyEntry, mode e List.mem_cons_self, deleteRow, toOption_bind, toOption_pure,
      ← others]
    cases (deleteKey pkCol e.2 : Except (MemoryError Hash) Json).toOption with
    | none => rfl
    | some key =>
      cases (rows.mapM (fun e => deleteKey pkCol e.2) : Except (MemoryError Hash) (List Json)).toOption with
      | none => rfl
      | some keys =>
        refine congrArg some (funext fun k => ?_)
        by_cases here : k = key
        · subst here
          simp
        · simp [here]

variable (P : Platform Hash)

theorem joins_upsert {cols : List String} {pkCol : String} {seen seen' : List String} {e : Entry}
    (nodup : (columns e.2).Nodup) (h : joins P .upsert cols pkCol seen e = some seen') :
    batchModeOf e.1 = .upsert ∧ (∀ c, c ∈ columns e.2 ↔ c ∈ cols) ∧
      ∃ v, column e.2 pkCol = some v ∧ pkSignature P v ∉ seen ∧ seen' = pkSignature P v :: seen := by
  unfold joins at h
  by_cases mode : batchModeOf e.1 = .upsert
  · simp only [ne_eq, mode, not_true_eq_false, if_false] at h
    by_cases size : e.2.length = cols.length
    · by_cases among : (columns e.2).all (fun c => c ∈ cols) = true
      · simp only [size, not_true_eq_false, among, if_false] at h
        have subset : columns e.2 ⊆ cols := by
          intro c hc
          simpa using List.all_eq_true.mp among c hc
        have perm : (columns e.2).Perm cols :=
          (nodup.subperm subset).perm_of_length_le (by simp [columns, size])
        cases key : column e.2 pkCol with
        | none =>
          rw [key] at h
          cases h
        | some v =>
          rw [key] at h
          by_cases met : pkSignature P v ∈ seen
          · simp [met] at h
          · simp only [met, if_false, Option.some.injEq] at h
            exact ⟨mode, fun c => perm.mem_iff, v, rfl, met, h.symm⟩
      · simp [size, among] at h
    · simp [size] at h
  · simp [mode] at h

theorem takeRun_upsert (cols : List String) (pkCol : String) (room : Nat) (seen : List String)
    (es : List Entry) (nodup : ∀ e ∈ es, (columns e.2).Nodup) :
    let run := (takeRun P .upsert cols pkCol room seen es).1
    (∀ e ∈ run, batchModeOf e.1 = .upsert ∧ (∀ c, c ∈ columns e.2 ↔ c ∈ cols)) ∧
      (∀ k ∈ run.filterMap (fun e => column e.2 pkCol), pkSignature P k ∉ seen) ∧
      (run.filterMap (fun e => column e.2 pkCol)).Nodup := by
  induction es generalizing room seen with
  | nil => cases room <;> simp [takeRun]
  | cons e es ih => cases room with
    | zero => simp [takeRun]
    | succ room =>
      unfold takeRun
      cases joined : joins P .upsert cols pkCol seen e with
      | none => simp
      | some seen' =>
        obtain ⟨mode, same, v, key, fresh, rfl⟩ :=
          joins_upsert P (nodup e List.mem_cons_self) joined
        obtain ⟨shape, unseen, distinct⟩ := ih room (pkSignature P v :: seen)
          (fun x hx => nodup x (List.mem_cons_of_mem _ hx))
        simp only [List.filterMap_cons, key]
        refine ⟨?_, ?_, ?_⟩
        · intro x hx
          rcases List.mem_cons.mp hx with rfl | hx
          · exact ⟨mode, same⟩
          · exact shape x hx
        · intro k hk
          rcases List.mem_cons.mp hk with rfl | hk
          · exact fresh
          · exact fun met => unseen k hk (List.mem_cons_of_mem _ met)
        · refine List.nodup_cons.mpr ⟨?_, distinct⟩
          intro again
          exact unseen v again List.mem_cons_self

theorem takeRun_delete (cols : List String) (pkCol : String) (room : Nat) (seen : List String)
    (es : List Entry) :
    ∀ e ∈ (takeRun P .delete cols pkCol room seen es).1, batchModeOf e.1 = .delete := by
  induction es generalizing room seen with
  | nil => cases room <;> simp [takeRun]
  | cons e es ih => cases room with
    | zero => simp [takeRun]
    | succ room =>
      unfold takeRun
      cases joined : joins P .delete cols pkCol seen e with
      | none => simp
      | some seen' =>
        intro x hx
        rcases List.mem_cons.mp hx with rfl | hx
        · unfold joins at joined
          by_contra other
          simp [other] at joined
        · exact ih room seen' x hx

theorem nextBatch_upsert {pkCol : String} {first : Entry} {es : List Entry}
    (mode : batchModeOf first.1 = .upsert) (nodup : ∀ e ∈ es, (columns e.2).Nodup) :
    UpsertBatch pkCol (columns first.2) (first :: (nextBatch P pkCol first es).1) := by
  simp only [nextBatch, mode]
  generalize max (min batchMaxRows (batchMaxParams / max (columns first.2).length 1)) 1 - 1 = room
  obtain ⟨shape, unseen, distinct⟩ := takeRun_upsert P (columns first.2) pkCol room
    (((column first.2 pkCol).map (pkSignature P)).toList) es nodup
  refine ⟨?_, ?_, ?_⟩
  · intro e he
    rcases List.mem_cons.mp he with rfl | he
    · exact mode
    · exact (shape e he).1
  · intro e he
    rcases List.mem_cons.mp he with rfl | he
    · exact fun c => Iff.rfl
    · exact (shape e he).2
  · cases key : column first.2 pkCol with
    | none =>
      rw [List.filterMap_cons, key]
      rw [key] at distinct
      exact distinct
    | some v =>
      rw [List.filterMap_cons, key]
      rw [key] at distinct unseen
      refine List.nodup_cons.mpr ⟨?_, distinct⟩
      intro again
      exact unseen v again (by simp)

theorem applyBatches_toOption (pkCol : String) (es : List Entry) (t : Table)
    (nodup : ∀ e ∈ es, (columns e.2).Nodup) :
    (applyBatches P pkCol es t).toOption =
      (es.foldlM (applyEntry pkCol) t : Except (MemoryError Hash) Table).toOption := by
  induction size : es.length using Nat.strong_induction_on generalizing es t with
  | _ n ih =>
    cases es with
    | nil =>
      rw [applyBatches]
      rfl
    | cons first es =>
      have parts := nextBatch_append P pkCol first es
      have shorter : (nextBatch P pkCol first es).2.length < n := by
        have sum := congrArg List.length parts
        simp only [List.length_append] at sum
        simp only [List.length_cons] at size
        omega
      have rest : ∀ e ∈ (nextBatch P pkCol first es).2, (columns e.2).Nodup := by
        intro e he
        refine nodup e (List.mem_cons_of_mem _ ?_)
        rw [← parts]
        exact List.mem_append_right _ he
      have whole : first :: es =
          (first :: (nextBatch P pkCol first es).1) ++ (nextBatch P pkCol first es).2 := by
        rw [List.cons_append, parts]
      have batch : (applyBatch pkCol first (nextBatch P pkCol first es).1 t
            : Except (MemoryError Hash) Table).toOption =
          ((first :: (nextBatch P pkCol first es).1).foldlM (applyEntry pkCol) t
            : Except (MemoryError Hash) Table).toOption := by
        unfold applyBatch
        cases mode : batchModeOf first.1 with
        | upsert =>
          exact batchUpsert_toOption (nextBatch_upsert P mode
            (fun e he => nodup e (List.mem_cons_of_mem _ he))) t
        | delete =>
          refine batchDelete_toOption ?_ t
          intro e he
          rcases List.mem_cons.mp he with rfl | he
          · exact mode
          · simp only [nextBatch, mode] at he
            exact takeRun_delete P _ _ _ _ _ e he
      rw [applyBatches, whole, List.foldlM_append, toOption_bind, toOption_bind]
      rw [batch]
      exact congrArg _ (funext fun t => ih _ shorter _ t rest rfl)

theorem nodup_columns_of_normal {ms : List (String × Json)}
    (h : (Json.object ms).toValue = .object ms) : (columns ms).Nodup := by
  simp only [Json.toValue, Json.object.injEq] at h
  have sorted := (BTreeMap.ofList (Json.toMembers ms)).sorted
  rw [h] at sorted
  exact (List.pairwise_map.mpr sorted).imp (fun lt => ne_of_lt lt)

theorem peelEnvelope_normal {v : Value} {op : Op} {row : Json}
    (h : (peelEnvelope v.json : Except (MemoryError Hash) (Op × Json)) = .ok (op, row)) :
    row.toValue = row := by
  unfold peelEnvelope at h
  split at h
  · rename_i o r found foundRow
    have normal := Json.normal_get? v.normal foundRow
    split at h
    · split at h
      · cases h
        exact normal
      · split at h
        · cases h
          exact normal
        · split at h
          · cases h
            exact normal
          · cases h
    · cases h
  · cases h
    exact v.normal

theorem decodeEntry_nodup {pkCol : String} {v : Value} {e : Entry}
    (h : (decodeEntry pkCol v : Except (MemoryError Hash) (Option Entry)) = .ok (some e)) :
    (columns e.2).Nodup := by
  unfold decodeEntry at h
  cases peeled : (peelEnvelope v.json : Except (MemoryError Hash) (Op × Json)) with
  | error cause =>
    rw [peeled] at h
    cases h
  | ok parts =>
    have normal := peelEnvelope_normal peeled
    rw [peeled] at h
    have entry : (entryOf pkCol parts.1 parts.2 : Except (MemoryError Hash) (Option Entry)) =
        .ok (some e) := h
    unfold entryOf at entry
    cases object : parts.2.asObject? with
    | none =>
      rw [object] at entry
      cases entry
    | some ms =>
      simp only [object] at entry
      split at entry
      · split at entry <;> cases entry
      · cases entry
        cases row : parts.2 with
        | object ms' =>
          rw [row] at object normal
          cases object
          exact nodup_columns_of_normal normal
        | _ =>
          rw [row] at object
          cases object

theorem decodeEntries_nodup {pkCol : String} {rows : List Value} {es : List (Option Entry)}
    (h : (rows.mapM (decodeEntry pkCol) : Except (MemoryError Hash) (List (Option Entry))).toOption =
      some es) : ∀ e ∈ es.filterMap id, (columns e.2).Nodup := by
  rw [toOption_mapM] at h
  induction rows generalizing es with
  | nil =>
    cases h
    intro e he
    cases he
  | cons v rows ih =>
    simp only [List.mapM_cons, Option.bind_eq_bind, Option.bind_eq_some_iff] at h
    obtain ⟨first, decoded, rest, more, h⟩ := h
    cases h
    intro e he
    cases first with
    | none => exact ih more e he
    | some entry =>
      rcases List.mem_cons.mp he with rfl | he
      · cases found : (decodeEntry pkCol v : Except (MemoryError Hash) (Option Entry)) with
        | error cause =>
          rw [found] at decoded
          cases decoded
        | ok value =>
          rw [found] at decoded
          cases decoded
          exact decodeEntry_nodup found
      · exact ih more e he

theorem decoded_foldlM (pkCol : String) (rows : List Value) (t : Table) :
    (rows.mapM (decodeEntry pkCol) : Except (MemoryError Hash) (List (Option Entry))).toOption.bind
        (fun es => ((es.filterMap id).foldlM (applyEntry pkCol) t
          : Except (MemoryError Hash) Table).toOption) =
      (rows.foldlM (applyRow pkCol) t : Except (MemoryError Hash) Table).toOption := by
  induction rows generalizing t with
  | nil => rfl
  | cons v rows ih =>
    simp only [List.mapM_cons, List.foldlM_cons, toOption_bind, toOption_pure, applyRow]
    cases (decodeEntry pkCol v : Except (MemoryError Hash) (Option Entry)).toOption with
    | none => rfl
    | some decoded => cases decoded with
      | none =>
        simp only [Option.bind_some, toOption_pure, ← ih t]
        cases (rows.mapM (decodeEntry pkCol)
          : Except (MemoryError Hash) (List (Option Entry))).toOption <;> rfl
      | some e =>
        simp only [Option.bind_some, ← ih]
        cases (rows.mapM (decodeEntry pkCol)
          : Except (MemoryError Hash) (List (Option Entry))).toOption with
        | none => cases (applyEntry pkCol t e : Except (MemoryError Hash) Table).toOption <;> rfl
        | some es =>
          simp only [Option.bind_some, List.filterMap_cons, id, List.foldlM_cons, toOption_bind]

theorem applySegmentRows_toOption {pkCol : String} (identifier : isIdentifier pkCol = true)
    (rows : List Value) (t : Table) :
    (applySegmentRows P pkCol rows t).toOption =
      (rows.foldlM (applyRow pkCol) t : Except (MemoryError Hash) Table).toOption := by
  unfold applySegmentRows
  split
  · rename_i empty
    subst empty
    rfl
  · simp only [toOption_bind, toOption_validateIdentifier, identifier, if_true, Option.bind_some]
    rw [← decoded_foldlM]
    refine Option.bind_congr ?_
    intro es decoded
    exact applyBatches_toOption P pkCol _ t (decodeEntries_nodup decoded)

end

end Restore

end GitAgentic
