import GitAgentic.Daemon.WireError

/-! What the class of an error reply depends on: the way an error of the object store takes
through a memory backend. -/
namespace GitAgentic

/- The words that decide. -/

theorem not_mentions_of_not_mem {needle s : String} {c : Char} (some : c ∈ needle.toList)
    (none : c ∉ s.toList) : mentions needle s = false := by
  refine decide_eq_false ?_
  intro inside
  exact none (inside.subset some)

/-- No character of the text is a `w`, which every mention of a row has. -/
def Rowless (s : String) : Prop := ∀ c ∈ s.toList, c.toLower ≠ 'w'

theorem Rowless.append {s t : String} (hs : Rowless s) (ht : Rowless t) : Rowless (s ++ t) := by
  intro c mem
  rw [String.toList_append, List.mem_append] at mem
  exact mem.elim (hs c) (ht c)

theorem rowless_hexDigit : ∀ n < 16, (Json.hexDigit n).toLower ≠ 'w' := by decide

theorem rowless_toHex {Hash : Type} (P : Platform Hash) (h : Hash) : Rowless (P.toHex h) := by
  intro c mem
  rw [Platform.toHex, String.toList_ofList] at mem
  obtain ⟨b, _, digit⟩ := List.mem_flatMap.mp mem
  have size := b.toNat_lt
  simp only [Platform.hexByte, List.mem_cons, List.not_mem_nil, or_false] at digit
  rcases digit with rfl | rfl
  · exact rowless_hexDigit _ (by omega)
  · exact rowless_hexDigit _ (by omega)

theorem rowless_debug (kind : ObjectKind) : Rowless kind.debug := by
  cases kind <;> simp [Rowless, ObjectKind.debug]

theorem Rowless.not_mentions {s : String} (h : Rowless s) :
    mentions "segment row is not a json object" (toAsciiLowercase s) = false := by
  refine not_mentions_of_not_mem (c := 'w') (by simp) ?_
  intro mem
  rw [toAsciiLowercase, String.toList_ofList] at mem
  obtain ⟨c, inside, lower⟩ := List.mem_map.mp mem
  exact h c inside lower

/-- The words of a bad identifier come first. -/
structure NamesIdentifier (lower : String) : Prop where
  pgvector : mentions "pgvector extension is not installed" lower = false
  identifier : (mentions "empty identifier" lower ||
    mentions "invalid character in identifier" lower) = true

/-- The words of a malformed row come first. -/
structure NamesRow (lower : String) : Prop where
  pgvector : mentions "pgvector extension is not installed" lower = false
  identifier : (mentions "empty identifier" lower ||
    mentions "invalid character in identifier" lower) = false
  init : (mentions "called before init" lower || mentions "not initialised" lower ||
    mentions "not initialized" lower) = false
  configuration : (mentions "misconfigured" lower || mentions "invalid configuration" lower) = false
  streamer : (mentions "streamer task has shut down" lower ||
    mentions "streamer dropped reply channel" lower) = false
  row : mentions "segment row is not a json object" lower = true

theorem backend_validation_iff (msg : String) :
    (classifyMemoryBackendMessage msg).1 = .validation ↔ NamesIdentifier (toAsciiLowercase msg) := by
  unfold classifyMemoryBackendMessage
  simp only
  split_ifs with pgvector identifier
  · exact ⟨nofun, fun h => absurd pgvector (by simp [h.pgvector])⟩
  · exact ⟨fun _ => ⟨by simpa using pgvector, identifier⟩, fun _ => rfl⟩
  all_goals exact ⟨nofun, fun h => absurd h.identifier identifier⟩

theorem backend_storage_iff (msg : String) :
    (classifyMemoryBackendMessage msg).1 = .storage ↔ NamesRow (toAsciiLowercase msg) := by
  unfold classifyMemoryBackendMessage
  simp only
  split_ifs with pgvector identifier init configuration streamer row
  · exact ⟨nofun, fun h => absurd pgvector (by simp [h.pgvector])⟩
  · exact ⟨nofun, fun h => absurd identifier (by simp [h.identifier])⟩
  · exact ⟨nofun, fun h => absurd init (by simp [h.init])⟩
  · exact ⟨nofun, fun h => absurd configuration (by simp [h.configuration])⟩
  · exact ⟨nofun, fun h => absurd streamer (by simp [h.streamer])⟩
  · refine ⟨fun _ => ⟨?_, ?_, ?_, ?_, ?_, row⟩, fun _ => rfl⟩
    · exact eq_false_of_ne_true pgvector
    · exact eq_false_of_ne_true identifier
    · exact eq_false_of_ne_true init
    · exact eq_false_of_ne_true configuration
    · exact eq_false_of_ne_true streamer
  · exact ⟨nofun, fun h => absurd h.row row⟩

theorem backend_retryable {msg : String} (h : (classifyMemoryBackendMessage msg).2.2 = true) :
    (classifyMemoryBackendMessage msg).1 = .memory := by
  unfold classifyMemoryBackendMessage at h ⊢
  simp only at h ⊢
  split_ifs at h ⊢
  rfl

theorem backend_class (msg : String) :
    (classifyMemoryBackendMessage msg).1 = .memory ∨
      (classifyMemoryBackendMessage msg).1 = .validation ∨
      (classifyMemoryBackendMessage msg).1 = .storage := by
  unfold classifyMemoryBackendMessage
  simp only
  split_ifs <;> simp

/- The way of an error. -/

inductive AdapterKind where
  | postgres | inMemory

section

variable {Hash σ : Type} (P : Platform Hash) (store : RawStore Hash σ)

/-- A call of the object store, made for a snapshot or for a restore, fails with `e`, and the
adapter with `m`: the streamer seals a head, a segment is loaded; a table is stored, or
rebuilt from its segment. -/
inductive StoreFails : AdapterKind → Error Hash → MemoryError Hash → Prop
  | sealing {e : Error Hash} {m : MemoryError Hash} {head : TableHead Hash} {s s' : σ}
      (nonempty : head.active.rows ≠ [])
      (failed : store.putRaw .segment (head.active.toCanonicalBytes P) s = (.error e, s'))
      (raised : (head.sealIfNonempty P store s).1 = .error m) : StoreFails .postgres e m
  | loading {e : Error Hash} {m : MemoryError Hash} {s : σ} {hash : Hash}
      (failed : store.getRaw s hash = .error e)
      (raised : Restore.loadSegment P store s hash = .error m) : StoreFails .postgres e m
  | storing {e : Error Hash} {m : MemoryError Hash} {version table : String} {t : InMemoryTable}
      {rest : List (String × InMemoryTable)} {manifest : SegmentManifest Hash} {s s' : σ}
      (nonempty : t.rows ≠ [])
      (failed : store.putRaw .segment
        ((InMemoryAdapter.segmentOf version table t.rows).toCanonicalBytes P) s = (.error e, s'))
      (raised : (InMemoryAdapter.snapshotTables P store version ((table, t) :: rest) manifest s).1 =
        .error m) : StoreFails .inMemory e m
  | rebuilding {e : Error Hash} {m : MemoryError Hash} {s : σ} {entry : SegmentRef Hash}
      {rest : List (SegmentRef Hash)} {tables : AList (fun _ : String => InMemoryTable)}
      (failed : store.getRaw s entry.segment = .error e)
      (raised : InMemoryAdapter.rebuild P (store.getRaw s) (entry :: rest) tables = .error m) :
      StoreFails .inMemory e m

variable {P store}

theorem StoreFails.wrapped {kind : AdapterKind} {e : Error Hash} {m : MemoryError Hash}
    (h : StoreFails P store kind e m) :
    (kind = .inMemory ∧ m = .core e) ∨
      (kind = .postgres ∧ (m = .backend (.persistingSegment e) ∨
        ∃ hash, m = .backend (.loadingSegment hash e))) := by
  cases h with
  | sealing nonempty failed raised =>
    rw [TableHead.sealIfNonempty, if_neg nonempty, failed] at raised
    cases raised
    exact .inr ⟨rfl, .inl rfl⟩
  | loading failed raised =>
    rw [Restore.loadSegment, failed] at raised
    cases raised
    exact .inr ⟨rfl, .inr ⟨_, rfl⟩⟩
  | storing nonempty failed raised =>
    rw [InMemoryAdapter.snapshotTables, if_neg nonempty, failed] at raised
    cases raised
    exact .inl ⟨rfl, rfl⟩
  | rebuilding failed raised =>
    rw [InMemoryAdapter.rebuild, failed] at raised
    cases raised
    exact .inl ⟨rfl, rfl⟩

/- Whole calls fail so. -/

theorem sealAll_fails {heads : List (String × TableHead Hash)} {s : σ} {m : MemoryError Hash}
    (failed : (Streamer.sealAll P store heads s).1 = .error m) :
    ∃ e, StoreFails P store .postgres e m := by
  induction heads generalizing s with
  | nil => cases failed
  | cons entry rest ih =>
    obtain ⟨name, head⟩ := entry
    unfold Streamer.sealAll at failed
    rcases sealed : head.sealIfNonempty P store s with ⟨result, head', s'⟩
    rw [sealed] at failed
    cases result with
    | ok _ => exact ih failed
    | error m' =>
      cases failed
      have raised : (head.sealIfNonempty P store s).1 = .error m := by rw [sealed]
      have nonempty : head.active.rows ≠ [] := by
        intro empty
        rw [TableHead.sealIfNonempty, if_pos empty] at raised
        cases raised
      rcases put : store.putRaw .segment (head.active.toCanonicalBytes P) s with ⟨stored, s''⟩
      cases stored with
      | error e => exact ⟨e, .sealing nonempty put raised⟩
      | ok hash =>
        rw [TableHead.sealIfNonempty, if_neg nonempty, put] at raised
        cases raised

theorem onSnapshot_fails {st : Streamer Hash} {schemaVersion : String} {s : σ} {m : MemoryError Hash}
    (failed : (st.onSnapshot P store schemaVersion s).1 = .snapshot (.error m)) :
    ∃ e, StoreFails P store .postgres e m := by
  simp only [Streamer.onSnapshot, Outcome.snapshot.injEq] at failed
  cases sealed : (Streamer.sealAll P store st.heads.entries s).1 with
  | ok _ =>
    rw [sealed] at failed
    cases failed
  | error m' =>
    rw [sealed] at failed
    cases failed
    exact sealAll_fails sealed

theorem loadSegment_fails {s : σ} {hash : Hash} {m : MemoryError Hash}
    (failed : Restore.loadSegment P store s hash = .error m) :
    (∃ e, StoreFails P store .postgres e m) ∨ ∃ hash, m = .backend (.decodingSegment hash) := by
  cases found : store.getRaw s hash with
  | error e => exact .inl ⟨e, .loading found failed⟩
  | ok bytes =>
    rw [Restore.loadSegment, found] at failed
    cases decoded : Segment.fromSlice P bytes with
    | none =>
      simp only [decoded] at failed
      cases failed
      exact .inr ⟨hash, rfl⟩
    | some segment =>
      simp only [decoded] at failed
      cases failed

theorem loadSegments_fails {s : σ} {manifest : SegmentManifest Hash} {m : MemoryError Hash}
    (failed : Restore.loadSegments P store s manifest = .error m) :
    (∃ e, StoreFails P store .postgres e m) ∨ ∃ hash, m = .backend (.decodingSegment hash) := by
  unfold Restore.loadSegments at failed
  generalize manifest.entries = entries at failed
  induction entries with
  | nil => cases failed
  | cons entry rest ih =>
    rw [List.mapM_cons] at failed
    cases loaded : Restore.loadSegment P store s entry.segment with
    | error m' =>
      simp only [loaded, bind, Except.bind] at failed
      cases failed
      exact loadSegment_fails loaded
    | ok segment =>
      refine ih ?_
      simp only [loaded, bind, Except.bind, pure, Except.pure] at failed ⊢
      split at failed
      · rename_i rest_failed
        cases failed
        exact rest_failed
      · cases failed

theorem snapshotTables_fails {version : String} {tables : List (String × InMemoryTable)}
    {manifest : SegmentManifest Hash} {s : σ} {m : MemoryError Hash}
    (failed : (InMemoryAdapter.snapshotTables P store version tables manifest s).1 = .error m) :
    ∃ e, StoreFails P store .inMemory e m := by
  induction tables generalizing manifest s with
  | nil => cases failed
  | cons entry rest ih =>
    obtain ⟨table, t⟩ := entry
    by_cases empty : t.rows = []
    · rw [InMemoryAdapter.snapshotTables, if_pos empty] at failed
      exact ih failed
    · have raised := failed
      rw [InMemoryAdapter.snapshotTables, if_neg empty] at failed
      rcases put : store.putRaw .segment
        ((InMemoryAdapter.segmentOf version table t.rows).toCanonicalBytes P) s with ⟨stored, s'⟩
      rw [put] at failed
      cases stored with
      | ok segment => exact ih failed
      | error e => exact ⟨e, .storing empty put raised⟩

theorem rebuild_fails {s : σ} {entries : List (SegmentRef Hash)}
    {tables : AList (fun _ : String => InMemoryTable)} {m : MemoryError Hash}
    (failed : InMemoryAdapter.rebuild P (store.getRaw s) entries tables = .error m) :
    (∃ e, StoreFails P store .inMemory e m) ∨ m = .backend .undecodable := by
  induction entries generalizing tables with
  | nil => cases failed
  | cons entry rest ih =>
    cases found : store.getRaw s entry.segment with
    | error e => exact .inl ⟨e, .rebuilding found failed⟩
    | ok bytes =>
      rw [InMemoryAdapter.rebuild, found] at failed
      cases decoded : Segment.fromSlice P bytes with
      | none =>
        simp only [decoded] at failed
        cases failed
        exact .inr rfl
      | some segment =>
        simp only [decoded] at failed
        exact ih failed

end

section

variable {Hash σ : Type} {P : Platform Hash} {store : RawStore Hash σ} (w : Words)

/-- The words of the text give the class that the error has. -/
def ReadsAlike (text : String) : Error Hash → Prop
  | .secretDetected _ | .invalidBranchName _ _ => NamesIdentifier (toAsciiLowercase text)
  | .serialize => NamesRow (toAsciiLowercase text)
  | _ => False

/-- The text of the catch-all error. -/
def MemoryError.backendText (P : Platform Hash) : MemoryError Hash → String
  | .backend cause => cause.message P w
  | _ => ""

/-- The class and the retryable flag are those of the error of the core. -/
def KeepsClass (reply : ErrorReply) (e : Error Hash) : Prop :=
  reply.errorClass = (classifyCoreError e).1 ∧ reply.retryable = (classifyCoreError e).2.2

theorem keeps_backend_iff (cause : BackendError Hash) {e : Error Hash} (context : String)
    (quoted : Rowless (e.message P w) → Rowless (cause.message P w)) :
    KeepsClass (mapAnyhowToResponseError P w (.context context (.memory (.backend cause)))) e ↔
      ReadsAlike (cause.message P w) e := by
  generalize reached : mapAnyhowToResponseError P w (.context context (.memory (.backend cause))) =
    reply
  have classed : reply.errorClass = (classifyMemoryBackendMessage (cause.message P w)).1 := by
    rw [← reached, mapAnyhowToResponseError, classify_memory, classifyMemoryError]
  have retryable : reply.retryable = (classifyMemoryBackendMessage (cause.message P w)).2.2 := by
    rw [← reached, mapAnyhowToResponseError, classify_memory, classifyMemoryError]
  generalize cause.message P w = text at classed retryable quoted ⊢
  have once : ∀ cls : ErrorClass, cls ≠ .memory → reply.errorClass = cls → reply.retryable = false := by
    intro cls other same
    rw [retryable]
    refine eq_false_of_ne_true (fun again => other ?_)
    rw [← same, classed]
    exact backend_retryable again
  have known := backend_class text
  rw [← classed] at known
  have validation : reply.errorClass = .validation ↔ NamesIdentifier (toAsciiLowercase text) := by
    rw [classed]
    exact backend_validation_iff text
  have storage : reply.errorClass = .storage ↔ NamesRow (toAsciiLowercase text) := by
    rw [classed]
    exact backend_storage_iff text
  have rowless : Rowless (e.message P w) → reply.errorClass ≠ .storage := by
    intro plain same
    have row := (storage.mp same).row
    rw [(quoted plain).not_mentions] at row
    cases row
  cases e with
  | secretDetected hits =>
    exact ⟨fun h => validation.mp h.1,
      fun h => ⟨validation.mpr h, once .validation nofun (validation.mpr h)⟩⟩
  | invalidBranchName name reason =>
    exact ⟨fun h => validation.mp h.1,
      fun h => ⟨validation.mpr h, once .validation nofun (validation.mpr h)⟩⟩
  | serialize =>
    exact ⟨fun h => storage.mp h.1, fun h => ⟨storage.mpr h, once .storage nofun (storage.mpr h)⟩⟩
  | io =>
    refine ⟨fun h => ?_, False.elim⟩
    have never := once .storage nofun h.1
    rw [h.2] at never
    cases never
  | kindMismatch expected actual =>
    refine ⟨fun h => rowless ?_ h.1, False.elim⟩
    have front : Rowless "object kind mismatch: expected " := by simp [Rowless]
    have middle : Rowless ", got " := by simp [Rowless]
    exact ((front.append (rowless_debug expected)).append middle).append (rowless_debug actual)
  | integrityError declared computed =>
    refine ⟨fun h => rowless ?_ h.1, False.elim⟩
    have front : Rowless "object integrity error: declared " := by simp [Rowless]
    have middle : Rowless ", computed " := by simp [Rowless]
    exact ((front.append (rowless_toHex P declared)).append middle).append (rowless_toHex P computed)
  | notFound hash =>
    refine ⟨fun h => ?_, False.elim⟩
    rw [h.1] at known
    rcases known with known | known | known <;> cases known
  | other message =>
    refine ⟨fun h => ?_, False.elim⟩
    rw [h.1] at known
    rcases known with known | known | known <;> cases known

/-- An error of the store keeps its class through the in-memory backend; through Postgres it
does when the words of its text happen to be read as that class. -/
theorem class_kept_iff {kind : AdapterKind} {e : Error Hash} {m : MemoryError Hash}
    (fails : StoreFails P store kind e m) (context : String) :
    KeepsClass (mapAnyhowToResponseError P w (.context context (.memory m))) e ↔
      kind = .inMemory ∨ ReadsAlike (m.backendText w P) e := by
  rcases fails.wrapped with ⟨rfl, rfl⟩ | ⟨rfl, rfl | ⟨hash, rfl⟩⟩
  · exact ⟨fun _ => .inl rfl, fun _ => ⟨rfl, rfl⟩⟩
  · have quoted : Rowless (e.message P w) →
        Rowless ((BackendError.persistingSegment e).message P w) := by
      intro plain
      have front : Rowless "persisting segment: " := by simp [Rowless]
      rw [BackendError.message_persistingSegment]
      exact front.append plain
    exact (keeps_backend_iff w _ context quoted).trans ⟨.inr, fun h => h.resolve_left nofun⟩
  · have quoted : Rowless (e.message P w) →
        Rowless ((BackendError.loadingSegment hash e).message P w) := by
      intro plain
      have front : Rowless "loading segment " := by simp [Rowless]
      have colon : Rowless ": " := by simp [Rowless]
      rw [BackendError.message_loadingSegment]
      exact ((front.append (rowless_toHex P hash)).append colon).append plain
    exact (keeps_backend_iff w _ context quoted).trans ⟨.inr, fun h => h.resolve_left nofun⟩

end

/- A store that is out of order. -/

/-- Every call fails with the same error. -/
def RawStore.failing {Hash : Type} (e : Error Hash) : RawStore Hash Unit where
  putRaw _ _ s := (.error e, s)
  getRaw _ _ := .error e
  stored := nofun
  kept := nofun

def oneRow : TableHead Bytes where
  table := "episodes"
  active := { blankSegment "episodes" "1" with rows := [Value.null] }
  sealed := []
  sealThresholdBytes := 0

theorem oneRow_fails (e : Error Bytes) :
    StoreFails Platform.sample (.failing e) .postgres e (.backend (.persistingSegment e)) := by
  have nonempty : oneRow.active.rows ≠ [] := List.cons_ne_nil _ _
  have failed : (RawStore.failing e).putRaw .segment
      (oneRow.active.toCanonicalBytes Platform.sample) () = (.error e, ()) := rfl
  have raised : (oneRow.sealIfNonempty Platform.sample (.failing e) ()).1 =
      .error (.backend (.persistingSegment e)) := rfl
  exact .sealing nonempty failed raised

theorem class_kept_iff_memory :
    KeepsClass (mapAnyhowToResponseError Platform.sample wordless
        (.context "restoring memory snapshot" (.memory (.core (.integrityError [1] [2])))))
      (.integrityError [1] [2]) := by
  let store : RawStore Bytes Unit := .failing (.integrityError [1] [2])
  have failed : store.getRaw () [3] = .error (.integrityError [1] [2]) := rfl
  have raised : InMemoryAdapter.rebuild Platform.sample (store.getRaw ())
      [InMemoryAdapter.refOf "episodes" [] [3]] ∅ = .error (.core (.integrityError [1] [2])) := rfl
  have fails : StoreFails Platform.sample store .inMemory (.integrityError [1] [2])
      (.core (.integrityError [1] [2])) := .rebuilding failed raised
  exact (class_kept_iff wordless fails "restoring memory snapshot").mpr (.inl rfl)

def suspiciousRun : Hit where
  kind := .highEntropy
  offset := 12
  length := 20

theorem secret_text :
    toAsciiLowercase ((BackendError.persistingSegment (.secretDetected [suspiciousRun]) : BackendError Bytes).message
        Platform.sample wordless) = "persisting segment: blob rejected by secret scanner: " ++
      "[hit \x7b kind: highentropy, offset: 12, length: 20 \x7d]" := by
  have hits : debugHits [suspiciousRun] = "[Hit \x7b kind: HighEntropy, offset: 12, length: 20 \x7d]" := by
    decide +kernel
  have quoted : (Error.secretDetected [suspiciousRun] : Error Bytes).message Platform.sample wordless =
      "blob rejected by secret scanner: " ++ debugHits [suspiciousRun] := rfl
  rw [BackendError.message_persistingSegment, quoted, hits]
  simp [toAsciiLowercase]

theorem secret_retried :
    ¬ ∀ (kind : AdapterKind) (e : Error Bytes) (m : MemoryError Bytes) (context : String),
      StoreFails Platform.sample (.failing e) kind e m →
        KeepsClass (mapAnyhowToResponseError Platform.sample wordless (.context context (.memory m)))
          e := by
  intro all
  have kept := all _ _ _ "taking memory snapshot" (oneRow_fails (.secretDetected [suspiciousRun]))
  have retried : (classifyMemoryBackendMessage
      ((BackendError.persistingSegment (.secretDetected [suspiciousRun]) : BackendError Bytes).message
        Platform.sample wordless)).2.2 = true := by
    rw [classifyMemoryBackendMessage, secret_text]
    decide +kernel
  have flag := kept.2
  rw [mapAnyhowToResponseError, classify_memory, classifyMemoryError, retried] at flag
  cases flag

end GitAgentic
