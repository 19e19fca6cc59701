import GitAgentic.Memory.InMemory

/-! Snapshots of the in-memory backend: a segment for each table that has rows, a manifest
over them, and a restore that rebuilds all tables before it replaces any. -/
namespace GitAgentic

namespace InMemoryAdapter

section

variable {Hash σ : Type} (P : Platform Hash) (store : RawStore Hash σ)

def sortedTables (st : InMemoryState) : List (String × InMemoryTable) :=
  (st.tables.entries.map (fun e => (e.1, e.2))).mergeSort (fun a b => a.1 ≤ b.1)

def segmentOf (version table : String) (rows : List Value) : Segment where
  table := table
  schemaVersion := version
  pkLo := .null
  pkHi := .null
  rowCount := rows.length.toUInt64
  rows := rows
  embeddings := []
  metadata := .empty

def refOf (table : String) (rows : List Value) (segment : Hash) : SegmentRef Hash where
  table := table
  pkLo := .null
  pkHi := .null
  segment := segment
  rowCount := rows.length.toUInt64

/-- Tables without rows are passed over. -/
def snapshotTables (version : String) : List (String × InMemoryTable) → SegmentManifest Hash → σ →
    Except (MemoryError Hash) (SegmentManifest Hash) × σ
  | [], manifest, s => (.ok manifest, s)
  | (table, t) :: rest, manifest, s =>
    if t.rows = [] then snapshotTables version rest manifest s
    else
      match store.putRaw .segment ((segmentOf version table t.rows).toCanonicalBytes P) s with
      | (.error e, s) => (.error (.core e), s)
      | (.ok segment, s) =>
        snapshotTables version rest (manifest.push P (refOf table t.rows segment)) s

def snapshot (st : InMemoryState) (s : σ) : Except (MemoryError Hash) (SnapshotHandle Hash) × σ :=
  match snapshotTables P store st.schemaVersion (sortedTables st) (.new st.schemaVersion) s with
  | (.error e, s) => (.error e, s)
  | (.ok manifest, s) => (.ok { manifest, schemaVersion := st.schemaVersion }, s)

/-- The rows of the entries, table by table. -/
def rebuild (getRaw : Hash → Except (Error Hash) Bytes) : List (SegmentRef Hash) →
    AList (fun _ : String => InMemoryTable) →
    Except (MemoryError Hash) (AList (fun _ : String => InMemoryTable))
  | [], tables => .ok tables
  | entry :: rest, tables =>
    match getRaw entry.segment with
    | .error e => .error (.core e)
    | .ok bytes =>
      match Segment.fromSlice P bytes with
      | none => .error (.backend .undecodable)
      | some segment => rebuild getRaw rest (extendRows entry.table segment.rows tables)

/-- The guard holds nothing back. Tables are replaced when all of them are there. -/
def restoreWithGuard (getRaw : Hash → Except (Error Hash) Bytes) (target : SnapshotHandle Hash)
    (st : InMemoryState) : Except (MemoryError Hash) Unit × InMemoryState :=
  if st.schemaVersion ≠ target.schemaVersion then
    (.error (.schemaMismatch st.schemaVersion target.schemaVersion), st)
  else
    match rebuild P getRaw target.manifest.entries ∅ with
    | .error e => (.error e, st)
    | .ok tables => (.ok (), { st with tables })

/-- What else the backend may be asked for. -/
inductive Call (Hash : Type) where
  | insertRows (table : String) (rows : List Value)
  | setSchemaVersion (version : String)
  | migration (call : MigrationCall)
  | snapshot
  | restore (target : SnapshotHandle Hash)

def Call.step (now : InMemoryState × σ) : Call Hash → InMemoryState × σ
  | .insertRows table rows => (InMemoryAdapter.insertRows table rows now.1, now.2)
  | .setSchemaVersion version => (InMemoryAdapter.setSchemaVersion version now.1, now.2)
  | .migration call => (call.step Hash now.1, now.2)
  | .snapshot => (now.1, (InMemoryAdapter.snapshot P store now.1 now.2).2)
  | .restore target => ((restoreWithGuard P (store.getRaw now.2) target now.1).2, now.2)

end

/- The tables of a state. -/

theorem lookup_extendRows (table other : String) (rows : List Value)
    (tables : AList (fun _ : String => InMemoryTable)) :
    (((extendRows table rows tables).lookup other).map InMemoryTable.rows).getD [] =
      ((tables.lookup other).map InMemoryTable.rows).getD [] ++ if other = table then rows else [] := by
  unfold extendRows
  by_cases same : other = table
  · subst same
    rw [AList.lookup_insert, if_pos rfl]
    rfl
  · rw [AList.lookup_insert_ne same, if_neg same, List.append_nil]

def filled (st : InMemoryState) : List (String × List Value) :=
  ((sortedTables st).filter (fun t => t.2.rows ≠ [])).map (fun t => (t.1, t.2.rows))

theorem mem_sortedTables {st : InMemoryState} {table : String} {t : InMemoryTable} :
    (table, t) ∈ sortedTables st ↔ st.tables.lookup table = some t := by
  rw [sortedTables, List.mem_mergeSort, List.mem_map, ← Option.mem_def, AList.mem_lookup_iff]
  constructor
  · rintro ⟨⟨_, _⟩, mem, ⟨⟩⟩
    exact mem
  · intro mem
    exact ⟨_, mem, rfl⟩

theorem mem_filled {st : InMemoryState} {table : String} {rows : List Value} :
    (table, rows) ∈ filled st ↔ rowsOf table st = rows ∧ rows ≠ [] := by
  simp only [filled, List.mem_map, List.mem_filter, decide_eq_true_eq, rowsOf]
  constructor
  · rintro ⟨⟨_, t⟩, ⟨mem, some_⟩, ⟨⟩⟩
    rw [mem_sortedTables.mp mem]
    exact ⟨rfl, some_⟩
  · rintro ⟨found, some_⟩
    cases there : st.tables.lookup table with
    | none =>
      rw [there] at found
      exact absurd found.symm some_
    | some t =>
      rw [there] at found
      obtain rfl : t.rows = rows := found
      exact ⟨(table, t), ⟨mem_sortedTables.mpr there, some_⟩, rfl⟩

theorem filled_sorted (st : InMemoryState) : (filled st).Pairwise (fun a b => a.1 < b.1) := by
  have ordered : (sortedTables st).Pairwise (fun a b => a.1 ≤ b.1) := by
    refine (List.pairwise_mergeSort ?_ ?_ _).imp of_decide_eq_true
    · intro a b c first second
      exact decide_eq_true ((of_decide_eq_true first).trans (of_decide_eq_true second))
    · intro a b
      simpa using le_total a.1 b.1
  have once : (sortedTables st).Pairwise (fun a b => a.1 ≠ b.1) := by
    have perm : (sortedTables st).Perm (st.tables.entries.map (fun e => (e.1, e.2))) :=
      List.mergeSort_perm _ _
    refine (perm.pairwise_iff (fun different => different.symm)).mpr ?_
    have keys : (st.tables.entries.map Sigma.fst).Nodup := st.tables.nodupKeys
    rw [List.pairwise_map]
    exact List.pairwise_map.mp keys
  refine List.pairwise_map.mpr (((ordered.and once).filter _).imp ?_)
  exact fun both => lt_of_le_of_ne both.1 both.2

theorem filled_nodup (st : InMemoryState) : (filled st).Nodup :=
  (filled_sorted st).imp (fun below whole => absurd (whole ▸ below) (lt_irrefl _))

theorem filled_filter (st : InMemoryState) (table : String) :
    (filled st).filter (fun t => t.1 = table) =
      if rowsOf table st = [] then [] else [(table, rowsOf table st)] := by
  have member : ∀ t, t ∈ (filled st).filter (fun t => t.1 = table) ↔
      t = (table, rowsOf table st) ∧ rowsOf table st ≠ [] := by
    rintro ⟨name, rows⟩
    simp only [List.mem_filter, mem_filled, decide_eq_true_eq, Prod.mk.injEq]
    constructor
    · rintro ⟨⟨rfl, some_⟩, rfl⟩
      exact ⟨⟨rfl, rfl⟩, some_⟩
    · rintro ⟨⟨rfl, rfl⟩, some_⟩
      exact ⟨⟨rfl, some_⟩, rfl⟩
  by_cases empty : rowsOf table st = []
  · rw [if_pos empty]
    refine List.eq_nil_iff_forall_not_mem.mpr (fun t mem => ?_)
    exact ((member t).mp mem).2 empty
  · rw [if_neg empty]
    refine List.perm_singleton.mp ((List.perm_ext_iff_of_nodup ((filled_nodup st).filter _)
      (List.nodup_singleton _)).mpr (fun t => ?_))
    rw [member, List.mem_singleton, and_iff_left empty]

theorem filled_congr {st st' : InMemoryState} (same : ∀ table, rowsOf table st' = rowsOf table st) :
    filled st' = filled st := by
  have perm : (filled st').Perm (filled st) := by
    refine (List.perm_ext_iff_of_nodup (filled_nodup st') (filled_nodup st)).mpr ?_
    rintro ⟨table, rows⟩
    rw [mem_filled, mem_filled, same]
  refine perm.eq_of_pairwise (fun a b _ _ ab ba => ?_) (filled_sorted st') (filled_sorted st)
  exact absurd ab (lt_asymm ba)

section

variable {Hash σ : Type} {P : Platform Hash} {store : RawStore Hash σ}

def refIn (P : Platform Hash) (version : String) (t : String × List Value) : SegmentRef Hash :=
  refOf t.1 t.2 ((segmentOf version t.1 t.2).hash P)

/-- Every segment is accepted, at the hash of its bytes. -/
def Accepts (P : Platform Hash) (store : RawStore Hash σ) : Prop :=
  ∀ bytes s, (store.putRaw .segment bytes s).1 = .ok (P.of bytes)

/-- Whatever could be read in the first state can be read in the second. -/
def Keeps (store : RawStore Hash σ) (s s' : σ) : Prop :=
  ∀ hash bytes, store.getRaw s hash = .ok bytes → store.getRaw s' hash = .ok bytes

theorem snapshotTables_accepted (accepts : Accepts P store) (version : String)
    (tables : List (String × InMemoryTable)) (manifest : SegmentManifest Hash) (s : σ) :
    ∃ s', snapshotTables P store version tables manifest s =
        (.ok ((((tables.filter (fun t => t.2.rows ≠ [])).map (fun t => (t.1, t.2.rows))).map
          (refIn P version)).foldl (SegmentManifest.push P) manifest), s') ∧
      Keeps store s s' ∧
      ∀ t ∈ tables, t.2.rows ≠ [] →
        store.getRaw s' ((segmentOf version t.1 t.2.rows).hash P) =
          .ok ((segmentOf version t.1 t.2.rows).toCanonicalBytes P) := by
  induction tables generalizing manifest s with
  | nil => exact ⟨s, rfl, fun _ _ h => h, nofun⟩
  | cons t rest ih =>
    obtain ⟨table, t⟩ := t
    rw [snapshotTables]
    by_cases empty : t.rows = []
    · rw [if_pos empty]
      obtain ⟨s', ran, keeps, held⟩ := ih manifest s
      refine ⟨s', ?_, keeps, ?_⟩
      · rw [ran, List.filter_cons_of_neg (by simpa using empty)]
      · intro t' mem some_
        rcases List.mem_cons.mp mem with rfl | mem
        · exact absurd empty some_
        · exact held t' mem some_
    · rw [if_neg empty]
      have put := accepts ((segmentOf version table t.rows).toCanonicalBytes P) s
      rcases written : store.putRaw .segment ((segmentOf version table t.rows).toCanonicalBytes P) s with
        ⟨result, s₁⟩
      rw [written] at put
      obtain rfl : result = .ok ((segmentOf version table t.rows).hash P) := put
      obtain ⟨s', ran, keeps, held⟩ :=
        ih (manifest.push P (refOf table t.rows ((segmentOf version table t.rows).hash P))) s₁
      have stored := store.stored _ _ _ _ _ written
      refine ⟨s', ?_, ?_, ?_⟩
      · rw [List.filter_cons_of_pos (by simpa using empty)]
        exact ran
      · intro hash bytes found
        apply keeps
        have kept := store.kept .segment ((segmentOf version table t.rows).toCanonicalBytes P) s
          hash bytes found
        rw [written] at kept
        exact kept
      · intro t' mem some_
        rcases List.mem_cons.mp mem with rfl | mem
        · exact keeps _ _ stored
        · exact held t' mem some_

theorem snapshot_accepted (accepts : Accepts P store) (st : InMemoryState) (s : σ) :
    ∃ s', snapshot P store st s = (.ok {
        manifest := {
          schemaVersion := st.schemaVersion
          entries := Arrange.arrange (SegmentManifest.keyOf P)
            ((filled st).map (refIn P st.schemaVersion)) }
        schemaVersion := st.schemaVersion }, s') ∧
      Keeps store s s' ∧
      ∀ t ∈ filled st, store.getRaw s' ((segmentOf st.schemaVersion t.1 t.2).hash P) =
        .ok ((segmentOf st.schemaVersion t.1 t.2).toCanonicalBytes P) := by
  obtain ⟨s', ran, keeps, held⟩ := snapshotTables_accepted accepts st.schemaVersion
    (sortedTables st) (.new st.schemaVersion) s
  refine ⟨s', ?_, keeps, ?_⟩
  · rw [snapshot, ran, SegmentManifest.foldl_push]
    rfl
  · intro t mem
    obtain ⟨t', found, rfl⟩ := List.mem_map.mp mem
    obtain ⟨there, some_⟩ := List.mem_filter.mp found
    exact held t' there (by simpa using some_)

theorem rebuild_read (getRaw : Hash → Except (Error Hash) Bytes) (version : String)
    (entries : List (String × List Value)) (tables : AList (fun _ : String => InMemoryTable))
    (read : ∀ t ∈ entries, getRaw ((segmentOf version t.1 t.2).hash P) =
      .ok ((segmentOf version t.1 t.2).toCanonicalBytes P)) :
    ∃ tables', rebuild P getRaw (entries.map (refIn P version)) tables = .ok tables' ∧
      ∀ table, ((tables'.lookup table).map InMemoryTable.rows).getD [] =
        ((tables.lookup table).map InMemoryTable.rows).getD [] ++
          (entries.filter (fun t => t.1 = table)).flatMap Prod.snd := by
  induction entries generalizing tables with
  | nil => exact ⟨tables, rfl, fun table => by simp⟩
  | cons t entries ih =>
    obtain ⟨tables', rebuilt, rows⟩ := ih (extendRows t.1 t.2 tables)
      (fun t' mem => read t' (List.mem_cons_of_mem t mem))
    refine ⟨tables', ?_, ?_⟩
    · have first : getRaw (refIn P version t).segment = _ := read t List.mem_cons_self
      rw [List.map_cons, rebuild, first]
      simp only [Segment.fromSlice_toCanonicalBytes]
      exact rebuilt
    · intro table
      rw [rows table, lookup_extendRows, List.append_assoc, List.filter_cons]
      by_cases here : t.1 = table
      · simp [here]
      · simp [here, Ne.symm here]

theorem restore_read (getRaw : Hash → Except (Error Hash) Bytes) {st now : InMemoryState}
    {target : SnapshotHandle Hash} (version : now.schemaVersion = target.schemaVersion)
    (entries : target.manifest.entries = Arrange.arrange (SegmentManifest.keyOf P)
      ((filled st).map (refIn P st.schemaVersion)))
    (read : ∀ t ∈ filled st, getRaw ((segmentOf st.schemaVersion t.1 t.2).hash P) =
      .ok ((segmentOf st.schemaVersion t.1 t.2).toCanonicalBytes P)) :
    ∃ restored, restoreWithGuard P getRaw target now = (.ok (), restored) ∧
      ∀ table, rowsOf table restored = rowsOf table st := by
  let key := fun t => SegmentManifest.keyOf P (refIn P st.schemaVersion t)
  have arranged : target.manifest.entries =
      (Arrange.arrange key (filled st)).map (refIn P st.schemaVersion) := by
    rw [entries]
    exact (Arrange.arrange_map key (SegmentManifest.keyOf P) (refIn P st.schemaVersion) (filled st)
      (fun _ _ _ _ => Iff.rfl)).symm
  obtain ⟨tables, rebuilt, rows⟩ := rebuild_read getRaw st.schemaVersion (Arrange.arrange key (filled st)) ∅
    (fun t mem => read t ((Arrange.mem_arrange key).mp mem))
  refine ⟨{ now with tables }, ?_, fun table => ?_⟩
  · rw [restoreWithGuard, if_neg (not_not_intro version), arranged, rebuilt]
  · have here : rowsOf table { now with tables } = _ := rows table
    rw [here, Arrange.arrange_filter, filled_filter]
    by_cases empty : rowsOf table st = []
    · rw [if_pos empty, empty]
      rfl
    · rw [if_neg empty]
      show [] ++ (rowsOf table st ++ []) = _
      rw [List.nil_append, List.append_nil]

theorem Call.keeps (accepts : Accepts P store) (call : Call Hash) (now : InMemoryState × σ) :
    Keeps store now.2 (call.step P store now).2 := by
  cases call with
  | snapshot =>
    obtain ⟨s', ran, keeps, _⟩ := snapshot_accepted accepts now.1 now.2
    rw [Call.step, ran]
    exact keeps
  | _ => exact fun _ _ h => h

theorem Call.run_keeps (accepts : Accepts P store) (calls : List (Call Hash)) (now : InMemoryState × σ) :
    Keeps store now.2 (calls.foldl (Call.step P store) now).2 := by
  induction calls generalizing now with
  | nil => exact fun _ _ h => h
  | cons call calls ih =>
    exact fun hash bytes h => ih _ hash bytes (call.keeps accepts now hash bytes h)

theorem snapshot_decodes (st : InMemoryState) (version : st.schemaVersion ≠ "") :
    let manifest : SegmentManifest Hash := {
      schemaVersion := st.schemaVersion
      entries := Arrange.arrange (SegmentManifest.keyOf P)
        ((filled st).map (refIn P st.schemaVersion)) }
    SegmentManifest.fromCanonicalBytes P (manifest.toCanonicalBytes P) = .ok manifest := by
  intro manifest
  rw [SegmentManifest.fromCanonicalBytes_iff]
  refine ⟨version, (Arrange.arrange_strict_iff _ _).mpr (List.pairwise_map.mpr ?_)⟩
  refine (filled_sorted st).imp ?_
  intro a b below same
  have tables : b.1 = a.1 := congrArg (fun key => (ofLex key).1) same
  exact absurd tables below.ne'

/-- A snapshot gives every table its rows back as long as the schema is the one it was taken
at, whatever happened in between; equal states have equal manifests, which decode; and a
restore that fails changes nothing. -/
theorem snapshot_restores (accepts : Accepts P store) (st : InMemoryState) (s : σ)
    (version : st.schemaVersion ≠ "") :
    (∃ handle s₁, snapshot P store st s = (.ok handle, s₁) ∧
      handle.schemaVersion = st.schemaVersion ∧
      (∀ calls : List (Call Hash), let now := calls.foldl (Call.step P store) (st, s₁)
        now.1.schemaVersion = handle.schemaVersion →
        ∃ restored, restoreWithGuard P (store.getRaw now.2) handle now.1 = (.ok (), restored) ∧
          ∀ table, rowsOf table restored = rowsOf table st) ∧
      (∀ st₂ s₂, st₂.schemaVersion = st.schemaVersion →
        (∀ table, rowsOf table st₂ = rowsOf table st) →
        ∃ handle₂, (snapshot P store st₂ s₂).1 = .ok handle₂ ∧
          handle₂.manifest.toCanonicalBytes P = handle.manifest.toCanonicalBytes P) ∧
      SegmentManifest.fromCanonicalBytes P (handle.manifest.toCanonicalBytes P) = .ok handle.manifest) ∧
    ∀ (getRaw : Hash → Except (Error Hash) Bytes) (target : SnapshotHandle Hash) (e : MemoryError Hash),
      (restoreWithGuard P getRaw target st).1 = .error e →
      (restoreWithGuard P getRaw target st).2 = st := by
  constructor
  · obtain ⟨s₁, ran, _, held⟩ := snapshot_accepted accepts st s
    refine ⟨_, s₁, ran, rfl, ?_, ?_, snapshot_decodes st version⟩
    · intro calls now same
      refine restore_read _ same rfl (fun t mem => ?_)
      exact Call.run_keeps accepts calls (st, s₁) _ _ (held t mem)
    · intro st₂ s₂ sameVersion sameRows
      obtain ⟨s', ran₂, _, _⟩ := snapshot_accepted accepts st₂ s₂
      refine ⟨_, by rw [ran₂], ?_⟩
      rw [filled_congr sameRows, sameVersion]
  · intro getRaw target e failed
    unfold restoreWithGuard at failed ⊢
    split at failed
    · rename_i other
      rw [if_pos other]
    · rename_i same
      rw [if_neg same]
      split at failed
      · rfl
      · cases failed

end

/-- Two tables, one of them empty, in the local store. -/
theorem snapshot_restores_sample :
    let S : FsObjectStore Bytes := { scanner := .silent, allowlist := [] }
    let st := insertRows "notes" [.null] (insertRows "empty" [] new)
    let s : RawFiles Platform.sample := { files := fun _ => none, addressed := by nofun }
    ∃ handle s₁, snapshot Platform.sample (S.rawStore Platform.sample) st s = (.ok handle, s₁) ∧
      ∃ restored, restoreWithGuard Platform.sample
          ((S.rawStore Platform.sample).getRaw s₁) handle (insertRows "notes" [.null] st) =
          (.ok (), restored) ∧
        rowsOf "notes" restored = [.null] := by
  intro S st s
  have accepts : Accepts Platform.sample (S.rawStore Platform.sample) := by
    intro bytes s
    have clean : S.scanner.scan bytes = [] := Scanner.scanWith_silent bytes {}
    show (S.putRaw Platform.sample .segment bytes s.files).1 = _
    rw [FsObjectStore.putRaw, if_neg (fun refused => refused.1 clean)]
  obtain ⟨handle, s₁, ran, version, restores, _⟩ := (snapshot_restores accepts st s (by decide)).1
  obtain ⟨restored, ok, rows⟩ := restores [.insertRows "notes" [.null]] version.symm
  exact ⟨handle, s₁, ran, restored, ok, rows "notes"⟩

end InMemoryAdapter

end GitAgentic
