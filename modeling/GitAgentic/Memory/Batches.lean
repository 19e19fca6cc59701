import GitAgentic.Memory.Replay

/-! The statements of a restore as a list. They cut the entries of a segment into
runs, in order and without loss; no run meets one key twice in an upsert, and none
outgrows what one statement may bind. -/
namespace GitAgentic

namespace Restore

section

variable {Hash : Type} (P : Platform Hash)

/-- The statements that `applyBatches` sends, each as its rows. -/
def batches (pkCol : String) : List Entry → List (List Entry)
  | [] => []
  | first :: es =>
    (first :: (nextBatch P pkCol first es).1) :: batches pkCol (nextBatch P pkCol first es).2
  termination_by es => es.length
  decreasing_by
    have split := congrArg List.length (nextBatch_append P pkCol first es)
    simp only [List.length_append] at split
    simp only [List.length_cons]
    omega

def applyStatement (pkCol : String) (t : Table) : List Entry → Except (MemoryError Hash) Table
  | [] => .ok t
  | first :: others => applyBatch pkCol first others t

/-- The values bound by a statement: every column of every row of an upsert, one
key for every row of a delete. -/
def boundParams : List Entry → Nat
  | [] => 0
  | first :: others =>
    match batchModeOf first.1 with
    | .upsert => (columns first.2).length * (first :: others).length
    | .delete => (first :: others).length

def upsertKeys (pkCol : String) (b : List Entry) : List Json :=
  (b.filter (fun e => batchModeOf e.1 = .upsert)).filterMap (fun e => column e.2 pkCol)

/-- One statement: rows of one mode, no key upserted twice, within both limits. -/
structure Statement (pkCol : String) (b : List Entry) : Prop where
  nonempty : b ≠ []
  mode : ∃ mode, ∀ e ∈ b, batchModeOf e.1 = mode
  keys : (upsertKeys pkCol b).Nodup
  rows : b.length ≤ batchMaxRows
  params : boundParams b ≤ batchMaxParams ∨ b.length = 1

/-- The decoded envelopes one at a time, after the checks of the whole segment. -/
def applyOneByOne (pkCol : String) (rows : List Value) (t : Table) : Except (MemoryError Hash) Table :=
  if rows = [] then .ok t
  else do
    validateIdentifier pkCol
    let entries ← rows.mapM (decodeEntry pkCol)
    (entries.filterMap id).foldlM (applyEntry pkCol) t

theorem pkSignature_eq_iff (a b : Json) : pkSignature P a = pkSignature P b ↔ a = b :=
  P.toText_injective.eq_iff

theorem applyBatches_eq (pkCol : String) (es : List Entry) (t : Table) :
    applyBatches P pkCol es t = (batches P pkCol es).foldlM (applyStatement pkCol) t := by
  induction es using batches.induct P pkCol generalizing t with
  | case1 =>
    rw [applyBatches, batches]
    rfl
  | case2 first es ih =>
    rw [applyBatches, batches, List.foldlM_cons]
    exact congrArg _ (funext ih)

theorem batches_flatten (pkCol : String) (es : List Entry) : (batches P pkCol es).flatten = es := by
  induction es using batches.induct P pkCol with
  | case1 =>
    rw [batches]
    rfl
  | case2 first es ih =>
    rw [batches, List.flatten_cons, ih, List.cons_append, nextBatch_append]

theorem takeRun_length (mode : BatchMode) (firstCols : List String) (pkCol : String) (room : Nat)
    (seen : List String) (es : List Entry) :
    (takeRun P mode firstCols pkCol room seen es).1.length ≤ room := by
  induction es generalizing room seen with
  | nil => cases room <;> simp [takeRun]
  | cons e es ih => cases room with
    | zero => simp [takeRun]
    | succ room =>
      unfold takeRun
      split
      · simp
      · exact Nat.succ_le_succ (ih _ _)

def rowCap (width : Nat) : Nat := max (min batchMaxRows (batchMaxParams / max width 1)) 1

theorem rowCap_le (width : Nat) : rowCap width ≤ batchMaxRows := by
  simp only [rowCap, batchMaxRows]
  omega

theorem rowCap_params {width rows : Nat} (within : rows ≤ rowCap width) (some_row : 0 < rows) :
    width * rows ≤ batchMaxParams ∨ rows = 1 := by
  by_cases single : rows = 1
  · exact .inr single
  · have many : 1 < rowCap width := by omega
    have quotient : rows ≤ batchMaxParams / max width 1 := by
      simp only [rowCap] at within many
      omega
    have fits : rows * max width 1 ≤ batchMaxParams :=
      (Nat.le_div_iff_mul_le (by omega)).mp quotient
    refine .inl ?_
    calc width * rows = rows * width := Nat.mul_comm _ _
      _ ≤ rows * max width 1 := Nat.mul_le_mul_left rows (le_max_left _ _)
      _ ≤ batchMaxParams := fits

theorem nextBatch_statement (pkCol : String) (first : Entry) (es : List Entry)
    (nodup : ∀ e ∈ es, (columns e.2).Nodup) :
    Statement pkCol (first :: (nextBatch P pkCol first es).1) := by
  cases mode : batchModeOf first.1 with
  | upsert =>
    have batch : UpsertBatch pkCol (columns first.2) (first :: (nextBatch P pkCol first es).1) :=
      nextBatch_upsert P mode nodup
    have length : (first :: (nextBatch P pkCol first es).1).length ≤
        rowCap (columns first.2).length := by
      have run := takeRun_length P .upsert (columns first.2) pkCol (rowCap (columns first.2).length - 1)
        (((column first.2 pkCol).map (pkSignature P)).toList) es
      have positive : 1 ≤ rowCap (columns first.2).length := le_max_right _ _
      simp only [nextBatch, mode, List.length_cons, rowCap] at run positive ⊢
      omega
    have all : (first :: (nextBatch P pkCol first es).1).filter
        (fun e => batchModeOf e.1 = .upsert) = first :: (nextBatch P pkCol first es).1 :=
      List.filter_eq_self.mpr (fun e he => decide_eq_true (batch.mode e he))
    exact {
      nonempty := List.cons_ne_nil _ _
      mode := ⟨.upsert, batch.mode⟩
      keys := by
        rw [upsertKeys, all]
        exact batch.keys
      rows := le_trans length (rowCap_le _)
      params := by
        simp only [boundParams, mode]
        exact rowCap_params length (Nat.succ_pos _) }
  | delete =>
    have deletes : ∀ e ∈ first :: (nextBatch P pkCol first es).1, batchModeOf e.1 = .delete := by
      intro e he
      rcases List.mem_cons.mp he with rfl | he
      · exact mode
      · simp only [nextBatch, mode] at he
        exact takeRun_delete P _ _ _ _ _ e he
    have length : (first :: (nextBatch P pkCol first es).1).length ≤ rowCap 1 := by
      have run := takeRun_length P .delete (columns first.2) pkCol (rowCap 1 - 1) [] es
      have positive : 1 ≤ rowCap 1 := le_max_right _ _
      simp only [nextBatch, mode, List.length_cons, rowCap] at run positive ⊢
      omega
    have upserts : (first :: (nextBatch P pkCol first es).1).filter
        (fun e => batchModeOf e.1 = .upsert) = [] := by
      refine List.filter_eq_nil_iff.mpr (fun e he => ?_)
      simp [deletes e he]
    exact {
      nonempty := List.cons_ne_nil _ _
      mode := ⟨.delete, deletes⟩
      keys := by
        rw [upsertKeys, upserts]
        exact List.nodup_nil
      rows := le_trans length (rowCap_le _)
      params := by
        simp only [boundParams, mode]
        rcases rowCap_params length (Nat.succ_pos _) with fits | single
        · exact .inl (by simpa using fits)
        · exact .inr single }

theorem batches_statement (pkCol : String) (es : List Entry)
    (nodup : ∀ e ∈ es, (columns e.2).Nodup) : ∀ b ∈ batches P pkCol es, Statement pkCol b := by
  induction es using batches.induct P pkCol with
  | case1 =>
    rw [batches]
    nofun
  | case2 first es ih =>
    have rest : ∀ e ∈ (nextBatch P pkCol first es).2, (columns e.2).Nodup := by
      intro e he
      refine nodup e (List.mem_cons_of_mem _ ?_)
      rw [← nextBatch_append P pkCol first es]
      exact List.mem_append_right _ he
    rw [batches]
    intro b hb
    rcases List.mem_cons.mp hb with rfl | hb
    · exact nextBatch_statement P pkCol first es
        (fun e he => nodup e (List.mem_cons_of_mem _ he))
    · exact ih rest b hb

theorem applyStatement_single (pkCol : String) (e : Entry) (t : Table) :
    (applyStatement pkCol t [e] : Except (MemoryError Hash) Table).toOption =
      (applyEntry pkCol t e : Except (MemoryError Hash) Table).toOption := by
  have alone : ([e].foldlM (applyEntry pkCol) t : Except (MemoryError Hash) Table) =
      applyEntry pkCol t e := by simp
  rw [← alone, applyStatement, applyBatch]
  cases mode : batchModeOf e.1 with
  | upsert =>
    refine batchUpsert_toOption ⟨?_, ?_, ?_⟩ t
    · simp [mode]
    · simp
    · cases key : column e.2 pkCol <;> simp [key]
  | delete => exact batchDelete_toOption (by simp [mode]) t

theorem applyOneByOne_toOption (pkCol : String) (rows : List Value) (t : Table) :
    (applySegmentRows P pkCol rows t).toOption =
      (applyOneByOne pkCol rows t : Except (MemoryError Hash) Table).toOption := by
  unfold applySegmentRows applyOneByOne
  split
  · rfl
  · simp only [toOption_bind]
    refine congrArg _ (funext fun _ => Option.bind_congr ?_)
    intro es decoded
    exact applyBatches_toOption P pkCol _ t (decodeEntries_nodup decoded)

/-- A restore in batches is the restore row by row, and its batches are statements. -/
theorem applySegmentRows_batched (pkCol : String) (rows : List Value) (t : Table) :
    (applySegmentRows P pkCol rows t).toOption =
        (applyOneByOne pkCol rows t : Except (MemoryError Hash) Table).toOption ∧
      ∀ entries, rows.mapM (decodeEntry pkCol) =
          (.ok entries : Except (MemoryError Hash) (List (Option Entry))) →
        applyBatches P pkCol (entries.filterMap id) t =
            (batches P pkCol (entries.filterMap id)).foldlM (applyStatement pkCol) t ∧
          (batches P pkCol (entries.filterMap id)).flatten = entries.filterMap id ∧
          ∀ b ∈ batches P pkCol (entries.filterMap id), Statement pkCol b := by
  refine ⟨applyOneByOne_toOption P pkCol rows t, ?_⟩
  intro entries decoded
  have nodup := decodeEntries_nodup (congrArg Except.toOption decoded)
  exact ⟨applyBatches_eq P pkCol _ t, batches_flatten P pkCol _, batches_statement P pkCol _ nodup⟩

/-- Two writes of one key, then its deletion. -/
theorem applySegmentRows_batched_rewrite :
    let row (note : String) : Value := .ofJson (.object [("id", .string "k"), ("note", .string note)])
    let rows := [Value.envelope "insert" (row "a"), Value.envelope "update" (row "b"),
      Value.envelope "delete" (row "b")]
    let entries : List Entry := [(.insert, [("id", .string "k"), ("note", .string "a")]),
      (.update, [("id", .string "k"), ("note", .string "b")]),
      (.delete, [("id", .string "k"), ("note", .string "b")])]
    rows.mapM (decodeEntry "id") =
        (.ok (entries.map some) : Except (MemoryError Bytes) (List (Option Entry))) ∧
      (applySegmentRows Platform.sample "id" rows (fun _ => none)).toOption =
        (applyOneByOne "id" rows (fun _ => none) : Except (MemoryError Bytes) Table).toOption ∧
      (batches Platform.sample "id" entries).flatten = entries ∧
      ∀ b ∈ batches Platform.sample "id" entries, Statement "id" b := by
  intro row rows entries
  have decoded : rows.mapM (decodeEntry "id") =
      (.ok (entries.map some) : Except (MemoryError Bytes) (List (Option Entry))) := by
    decide +kernel
  obtain ⟨same, planned⟩ := applySegmentRows_batched Platform.sample "id" rows (fun _ => none)
  obtain ⟨-, whole, shaped⟩ := planned _ decoded
  exact ⟨decoded, same, whole, shaped⟩

end

end Restore

end GitAgentic
