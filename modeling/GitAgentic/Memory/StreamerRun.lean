import GitAgentic.Memory.Restore

/-! What a run of the streamer keeps. For every table the rows of the sealed segments
followed by those of the active one are the baseline and the accepted events, in
the order in which they came. -/
namespace GitAgentic

section

variable {Hash σ : Type} (P : Platform Hash) (store : RawStore Hash σ)

/-- The rows of a segment as they are read back, none when it cannot be loaded. -/
def rowsOf (s : σ) (r : SegmentRef Hash) : List Value :=
  match Restore.loadSegment P store s r.segment with
  | .ok segment => segment.rows
  | .error _ => []

def Loads (s : σ) (r : SegmentRef Hash) : Prop :=
  ∃ segment, Restore.loadSegment P store s r.segment = .ok segment

/-- Whatever could be loaded still can, and is the same. -/
def Extends (s s' : σ) : Prop :=
  ∀ hash bytes, store.getRaw s hash = .ok bytes → store.getRaw s' hash = .ok bytes

variable {P store}

theorem Extends.refl (s : σ) : Extends store s s := fun _ _ h => h

theorem Extends.trans {s s' s'' : σ} (h : Extends store s s') (h' : Extends store s' s'') :
    Extends store s s'' := fun hash bytes found => h' hash bytes (h hash bytes found)

theorem Extends.load {s s' : σ} (h : Extends store s s') {hash : Hash} {segment : Segment}
    (loaded : Restore.loadSegment P store s hash = .ok segment) :
    Restore.loadSegment P store s' hash = .ok segment := by
  unfold Restore.loadSegment at loaded ⊢
  cases found : store.getRaw s hash with
  | error e =>
    rw [found] at loaded
    cases loaded
  | ok bytes =>
    rw [found] at loaded
    rw [h hash bytes found]
    exact loaded

theorem Extends.loads {s s' : σ} (h : Extends store s s') {r : SegmentRef Hash}
    (loads : Loads P store s r) : Loads P store s' r := by
  obtain ⟨segment, loaded⟩ := loads
  exact ⟨segment, h.load loaded⟩

theorem Extends.rowsOf {s s' : σ} (h : Extends store s s') {r : SegmentRef Hash}
    (loads : Loads P store s r) : rowsOf P store s' r = rowsOf P store s r := by
  obtain ⟨segment, loaded⟩ := loads
  simp only [GitAgentic.rowsOf, loaded, h.load loaded]

structure HeadNamed (name : String) (head : TableHead Hash) : Prop where
  table : head.table = name
  active : head.active.table = name
  refs : ∀ r ∈ head.sealed, r.table = name

/-- Key bounds in the order in which the segments were or will be sealed. -/
def ranges (head : TableHead Hash) : List (Value × Value) :=
  head.sealed.map (fun r => (r.pkLo, r.pkHi)) ++
    if head.active.rows = [] then [] else [(head.active.pkLo, head.active.pkHi)]

structure Piece where
  pkLo : Value
  rows : List Value
  deriving DecidableEq

variable (P store)

def pieces (s : σ) (head : TableHead Hash) : List Piece :=
  head.sealed.map (fun r => ⟨r.pkLo, rowsOf P store s r⟩) ++
    if head.active.rows = [] then [] else [⟨head.active.pkLo, head.active.rows⟩]

def headLog (s : σ) (head : TableHead Hash) : List Value :=
  head.sealed.flatMap (rowsOf P store s) ++ head.active.rows

theorem flatMap_pieces (s : σ) (head : TableHead Hash) :
    (pieces P store s head).flatMap Piece.rows = headLog P store s head := by
  simp only [pieces, headLog, List.flatMap_append, List.flatMap_map]
  by_cases empty : head.active.rows = []
  · rw [if_pos empty, empty]
    rfl
  · rw [if_neg empty, List.flatMap_singleton]

variable {P store}

theorem Extends.pieces {s s' : σ} (h : Extends store s s') {head : TableHead Hash}
    (loads : ∀ r ∈ head.sealed, Loads P store s r) :
    pieces P store s' head = pieces P store s head := by
  simp only [GitAgentic.pieces]
  congr 1
  refine List.map_congr_left (fun r hr => ?_)
  rw [h.rowsOf (loads r hr)]

theorem Extends.headLog {s s' : σ} (h : Extends store s s') {head : TableHead Hash}
    (loads : ∀ r ∈ head.sealed, Loads P store s r) :
    headLog P store s' head = headLog P store s head := by
  rw [← flatMap_pieces, ← flatMap_pieces, h.pieces loads]

namespace TableHead

theorem apply_cases (head : TableHead Hash) (ev : ChangeEvent) (pkCol : String) :
    (∃ e head', head.apply ev pkCol = (.error e, head') ∧ head'.table = head.table ∧
        head'.sealed = head.sealed ∧ head'.active.table = head.active.table ∧
        head'.active.rows = head.active.rows) ∨
      ∃ pk head', head.apply ev pkCol = (.ok (), head') ∧ ev.row.get? pkCol = some pk ∧
        pk.isNull = false ∧ head'.table = head.table ∧ head'.sealed = head.sealed ∧
        head'.active.table = head.active.table ∧
        head'.active.rows = head.active.rows ++ [ev.envelope] := by
  have adopted := adoptVersion_table head.active ev.schemaVersion
  have rows := adoptVersion_rows head.active ev.schemaVersion
  unfold apply
  cases found : ev.row.get? pkCol with
  | none => exact Or.inl ⟨_, _, rfl, rfl, rfl, adopted, rows⟩
  | some pk =>
    by_cases null : pk.isNull = true
    · exact Or.inl ⟨_, _, if_pos null, rfl, rfl, adopted, rows⟩
    · exact Or.inr ⟨pk, _, if_neg null, rfl, by simpa using null, rfl, rfl, adopted,
        congrArg (· ++ [ev.envelope]) rows⟩

variable (P store) in
theorem sealIfNonempty_cases (head : TableHead Hash) (s : σ) :
    (head.active.rows = [] ∧ head.sealIfNonempty P store s = (.ok none, head, s)) ∨
      (∃ e s', head.active.rows ≠ [] ∧
        store.putRaw .segment (head.active.toCanonicalBytes P) s = (.error e, s') ∧
        head.sealIfNonempty P store s = (.error (.backend (.persistingSegment e)), head, s')) ∨
      ∃ r s', head.active.rows ≠ [] ∧
        store.putRaw .segment (head.active.toCanonicalBytes P) s = (.ok r.segment, s') ∧
        r.table = head.active.table ∧ r.pkLo = head.active.pkLo ∧ r.pkHi = head.active.pkHi ∧
        head.sealIfNonempty P store s = (.ok (some r),
          { head with
            sealed := head.sealed ++ [r]
            active := blankSegment head.table head.active.schemaVersion }, s') := by
  unfold sealIfNonempty
  by_cases empty : head.active.rows = []
  · exact Or.inl ⟨empty, if_pos empty⟩
  · rw [if_neg empty]
    cases put : store.putRaw .segment (head.active.toCanonicalBytes P) s with
    | mk result s' => cases result with
      | error e => exact Or.inr (Or.inl ⟨e, s', empty, rfl, rfl⟩)
      | ok hash => exact Or.inr (Or.inr ⟨_, s', empty, rfl, rfl, rfl, rfl, rfl⟩)

end TableHead

variable (P store)

/-- What sealing a head keeps, whether it succeeds or not. -/
structure Sealing (s : σ) (head : TableHead Hash) (s' : σ) (head' : TableHead Hash) : Prop where
  named : ∀ name, HeadNamed name head → HeadNamed name head'
  ranges : ranges head' = ranges head
  loads : (∀ r ∈ head.sealed, Loads P store s r) → ∀ r ∈ head'.sealed, Loads P store s' r
  pieces : (∀ r ∈ head.sealed, Loads P store s r) → pieces P store s' head' = pieces P store s head

variable {P store}

theorem Sealing.same {s s' : σ} (h : Extends store s s') (head : TableHead Hash) :
    Sealing P store s head s' head where
  named _ ok := ok
  ranges := rfl
  loads ok r hr := h.loads (ok r hr)
  pieces ok := h.pieces ok

theorem Sealing.trans {s s' s'' : σ} {head head' head'' : TableHead Hash}
    (h : Sealing P store s head s' head') (h' : Sealing P store s' head' s'' head'') :
    Sealing P store s head s'' head'' where
  named name ok := h'.named name (h.named name ok)
  ranges := h'.ranges.trans h.ranges
  loads ok := h'.loads (h.loads ok)
  pieces ok := (h'.pieces (h.loads ok)).trans (h.pieces ok)

theorem extends_putRaw {kind : ObjectKind} {bytes : Bytes} {s s' : σ}
    {result : Except (Error Hash) Hash} (h : store.putRaw kind bytes s = (result, s')) :
    Extends store s s' := by
  intro hash found held
  have kept := store.kept kind bytes s hash found held
  rwa [h] at kept

namespace TableHead

variable (P store) in
theorem sealIfNonempty_spec (head : TableHead Hash) (s : σ) :
    Extends store s (head.sealIfNonempty P store s).2.2 ∧
      Sealing P store s head (head.sealIfNonempty P store s).2.2
        (head.sealIfNonempty P store s).2.1 := by
  rcases head.sealIfNonempty_cases P store s with
    ⟨_, same⟩ | ⟨e, s', _, put, failed⟩ | ⟨r, s', nonempty, put, table, lo, hi, done⟩
  · rw [same]
    exact ⟨.refl s, .same (.refl s) head⟩
  · rw [failed]
    exact ⟨extends_putRaw put, .same (extends_putRaw put) head⟩
  · rw [done]
    have grows := extends_putRaw put
    have loaded : Restore.loadSegment P store s' r.segment = .ok head.active := by
      simp only [Restore.loadSegment, store.stored _ _ _ _ _ put,
        Segment.fromSlice_toCanonicalBytes]
    have blank : (blankSegment head.table head.active.schemaVersion).rows = [] := rfl
    refine ⟨grows, ⟨?_, ?_, ?_, ?_⟩⟩
    · intro name ok
      refine ⟨ok.table, ok.table, ?_⟩
      intro q hq
      rcases List.mem_append.mp hq with hq | hq
      · exact ok.refs q hq
      · rw [List.mem_singleton.mp hq, table, ok.active]
    · simp [GitAgentic.ranges, blank, nonempty, lo, hi]
    · intro ok q hq
      rcases List.mem_append.mp hq with hq | hq
      · exact grows.loads (ok q hq)
      · rw [List.mem_singleton.mp hq]
        exact ⟨_, loaded⟩
    · intro ok
      have rows : rowsOf P store s' r = head.active.rows := by
        simp only [rowsOf, loaded]
      rw [← grows.pieces ok]
      simp [GitAgentic.pieces, blank, nonempty, lo, rows]

variable (P store) in
theorem sealIfNonempty_ok (head : TableHead Hash) (s : σ) (o : Option (SegmentRef Hash))
    (ok : (head.sealIfNonempty P store s).1 = .ok o) :
    (head.sealIfNonempty P store s).2.1.active.rows = [] := by
  rcases head.sealIfNonempty_cases P store s with
    ⟨empty, same⟩ | ⟨e, s', _, _, failed⟩ | ⟨r, s', _, _, _, _, _, done⟩
  · rw [same]
    exact empty
  · rw [failed] at ok
    cases ok
  · rw [done]
    rfl

variable (P store) in
theorem maybeSealOnThreshold_spec (head : TableHead Hash) (s : σ) :
    Extends store s (head.maybeSealOnThreshold P store s).2.2 ∧
      Sealing P store s head (head.maybeSealOnThreshold P store s).2.2
        (head.maybeSealOnThreshold P store s).2.1 := by
  unfold maybeSealOnThreshold
  split
  · exact head.sealIfNonempty_spec P store s
  · exact ⟨.refl s, .same (.refl s) head⟩

end TableHead

namespace Streamer

variable (P store) in
theorem sealAll_spec (heads : List (String × TableHead Hash)) (s : σ) :
    Extends store s (sealAll P store heads s).2.2 ∧
      List.Forall₂ (fun e e' => e'.1 = e.1 ∧
          Sealing P store s e.2 (sealAll P store heads s).2.2 e'.2 ∧
          ((sealAll P store heads s).1 = .ok () → e'.2.active.rows = []))
        heads (sealAll P store heads s).2.1 := by
  induction heads generalizing s with
  | nil => exact ⟨.refl s, .nil⟩
  | cons entry rest ih =>
    obtain ⟨name, head⟩ := entry
    obtain ⟨grows, kept⟩ := head.sealIfNonempty_spec P store s
    have emptied := head.sealIfNonempty_ok P store s
    unfold sealAll
    cases done : head.sealIfNonempty P store s with
    | mk result after =>
      obtain ⟨head', s'⟩ := after
      rw [done] at grows kept emptied
      cases result with
      | error e =>
        refine ⟨grows, .cons ⟨rfl, kept, by intro h; cases h⟩ ?_⟩
        refine List.forall₂_same.mpr (fun e' _ => ⟨rfl, .same grows e'.2, by intro h; cases h⟩)
      | ok o =>
        obtain ⟨further, others⟩ := ih s'
        refine ⟨grows.trans further, .cons ⟨rfl, kept.trans (.same further head'), ?_⟩ ?_⟩
        · intro _
          exact emptied o rfl
        · refine others.imp ?_
          rintro e e' ⟨same, sealing, empty⟩
          exact ⟨same, (Sealing.same grows e.2).trans sealing, empty⟩

def Named (st : Streamer Hash) : Prop :=
  ∀ name head, st.heads.get? name = some head → HeadNamed name head

variable (P store)

def Loaded (s : σ) (st : Streamer Hash) : Prop :=
  ∀ name head, st.heads.get? name = some head → ∀ r ∈ head.sealed, Loads P store s r

def logOf (s : σ) (st : Streamer Hash) (name : String) : List Value :=
  match st.heads.get? name with
  | none => []
  | some head => headLog P store s head

def sealedOf (st : Streamer Hash) (name : String) : List (SegmentRef Hash) :=
  (st.heads.get? name).elim [] TableHead.sealed

theorem sealed_filter {st : Streamer Hash} (named : Named st) (name : String) :
    (st.heads.entries.flatMap (fun h => h.2.sealed)).filter (fun r => r.table = name) =
      st.sealedOf name := by
  have found : ∀ e ∈ st.heads.entries, st.heads.get? e.1 = some e.2 :=
    fun e he => BTreeMap.get?_eq_some_iff.mpr he
  rw [List.filter_flatMap, BTreeMap.flatMap_entries (k := name), sealedOf]
  · cases present : st.heads.get? name with
    | none => rfl
    | some head =>
      refine List.filter_eq_self.mpr (fun r hr => ?_)
      simpa using (named name head present).refs r hr
  · intro e he other
    rw [List.filter_eq_nil_iff]
    intro r hr
    simpa [(named e.1 e.2 (found e he)).refs r hr] using other

variable {P store}

def withHead (st : Streamer Hash) (name : String) (head : TableHead Hash) : Streamer Hash :=
  { st with heads := st.heads.insert name head }

theorem get?_withHead (st : Streamer Hash) (name n : String) (head : TableHead Hash) :
    (st.withHead name head).heads.get? n = if name = n then some head else st.heads.get? n :=
  BTreeMap.get?_insert _ _ _ _

theorem Named.withHead {st : Streamer Hash} (h : Named st) {name : String} {head : TableHead Hash}
    (ok : HeadNamed name head) : Named (st.withHead name head) := by
  intro n head' found
  rw [get?_withHead] at found
  split at found
  · rename_i same
    cases found
    exact same ▸ ok
  · exact h n head' found

theorem Loaded.withHead {s s' : σ} {st : Streamer Hash} (h : Loaded P store s st)
    (grows : Extends store s s') {name : String} {head : TableHead Hash}
    (ok : ∀ r ∈ head.sealed, Loads P store s' r) : Loaded P store s' (st.withHead name head) := by
  intro n head' found
  rw [get?_withHead] at found
  split at found
  · cases found
    exact ok
  · exact fun r hr => grows.loads (h n head' found r hr)

theorem logOf_withHead {s s' : σ} {st : Streamer Hash} (h : Loaded P store s st)
    (grows : Extends store s s') {name : String} {head head' : TableHead Hash}
    (found : st.heads.get? name = some head) {extra : List Value}
    (log : headLog P store s' head' = headLog P store s head ++ extra) (n : String) :
    logOf P store s' (st.withHead name head') n =
      logOf P store s st n ++ if name = n then extra else [] := by
  simp only [logOf, get?_withHead]
  by_cases same : name = n
  · subst same
    simp only [if_true, found, log]
  · simp only [if_neg same, List.append_nil]
    cases other : st.heads.get? n with
    | none => rfl
    | some head => exact grows.headLog (h n head other)

def received (ev : ChangeEvent) (outcome : Outcome Hash) (name : String) : List Value :=
  match outcome with
  | .accepted _ => if ev.table = name then [ev.envelope] else []
  | _ => []

variable (P store) in
theorem onEvent_spec (st : Streamer Hash) (ev : ChangeEvent) (s : σ) :
    let r := st.onEvent P store ev s
    (Named st → Named r.2.1) ∧ r.2.1.pkFor = st.pkFor ∧ Extends store s r.2.2 ∧
      (Loaded P store s st → Loaded P store r.2.2 r.2.1 ∧
        ∀ name, logOf P store r.2.2 r.2.1 name =
          logOf P store s st name ++ received ev r.1 name) := by
  unfold onEvent
  cases found : st.heads.get? ev.table with
  | none => exact ⟨id, rfl, .refl s, fun ok => ⟨ok, fun name => (List.append_nil _).symm⟩⟩
  | some head =>
    cases keyed : st.pkFor.get? ev.table with
    | none => exact ⟨id, rfl, .refl s, fun ok => ⟨ok, fun name => (List.append_nil _).symm⟩⟩
    | some pk =>
      rcases head.apply_cases ev pk with
        ⟨e, head', rejected, table, sealed, active, rows⟩ |
        ⟨key, head', accepted, _, _, table, sealed, active, rows⟩
      · simp only [rejected]
        refine ⟨?_, trivial, .refl s, ?_⟩
        · intro named
          have ok := named _ _ found
          exact named.withHead ⟨table.trans ok.table, active.trans ok.active, sealed ▸ ok.refs⟩
        · intro loaded
          refine ⟨loaded.withHead (.refl s) (sealed ▸ loaded _ _ found), ?_⟩
          intro name
          have log : headLog P store s head' = headLog P store s head ++ [] := by
            simp [headLog, sealed, rows]
          have after := logOf_withHead loaded (.refl s) found log name
          rw [ite_self] at after
          exact after
      · simp only [accepted]
        obtain ⟨grows, sealing⟩ := head'.maybeSealOnThreshold_spec P store s
        refine ⟨?_, trivial, grows, ?_⟩
        · intro named
          have ok := named _ _ found
          exact named.withHead (sealing.named _
            ⟨table.trans ok.table, active.trans ok.active, sealed ▸ ok.refs⟩)
        · intro loaded
          have loads : ∀ r ∈ head'.sealed, Loads P store s r := sealed ▸ loaded _ _ found
          refine ⟨loaded.withHead grows (sealing.loads loads), ?_⟩
          intro name
          refine logOf_withHead loaded grows found ?_ name
          rw [← flatMap_pieces, sealing.pieces loads, flatMap_pieces]
          simp [headLog, sealed, rows]

variable (P store) in
theorem onSnapshot_forall₂ (st : Streamer Hash) (schemaVersion : String) (s : σ) :
    let r := st.onSnapshot P store schemaVersion s
    Extends store s r.2.2 ∧ r.2.1.pkFor = st.pkFor ∧
      List.Forall₂ (fun e e' => e'.1 = e.1 ∧ Sealing P store s e.2 r.2.2 e'.2 ∧
          ((∃ m, r.1 = .snapshot (.ok m)) → e'.2.active.rows = []))
        st.heads.entries r.2.1.heads.entries ∧
      ∀ m, r.1 = .snapshot (.ok m) → m = manifestOf P schemaVersion r.2.1.heads.entries := by
  obtain ⟨grows, each⟩ := sealAll_spec P store st.heads.entries s
  have success : ∀ m, (st.onSnapshot P store schemaVersion s).1 = .snapshot (.ok m) →
      (sealAll P store st.heads.entries s).1 = .ok () ∧
        m = manifestOf P schemaVersion (sealAll P store st.heads.entries s).2.1 := by
    intro m h
    simp only [onSnapshot, Outcome.snapshot.injEq] at h
    cases result : (sealAll P store st.heads.entries s).1 with
    | error e =>
      rw [result] at h
      cases h
    | ok u =>
      rw [result] at h
      cases h
      exact ⟨rfl, rfl⟩
  refine ⟨grows, rfl, each.imp ?_, fun m h => (success m h).2⟩
  rintro e e' ⟨name, sealing, empty⟩
  exact ⟨name, sealing, fun ⟨m, h⟩ => empty (success m h).1⟩

variable (P store) in
theorem onSnapshot_spec (st : Streamer Hash) (schemaVersion : String) (s : σ) :
    let r := st.onSnapshot P store schemaVersion s
    Extends store s r.2.2 ∧ r.2.1.pkFor = st.pkFor ∧
      ∀ name, Option.Rel (fun head head' => Sealing P store s head r.2.2 head' ∧
          ((∃ m, r.1 = .snapshot (.ok m)) → head'.active.rows = []))
        (st.heads.get? name) (r.2.1.heads.get? name) := by
  obtain ⟨grows, pk, each, _⟩ := st.onSnapshot_forall₂ P store schemaVersion s
  exact ⟨grows, pk, BTreeMap.get?_rel each⟩

variable (P store) in
theorem onSnapshot_head (st : Streamer Hash) (schemaVersion : String) (s : σ) (name : String) :
    let r := st.onSnapshot P store schemaVersion s
    st.heads.get? name = none ∧ r.2.1.heads.get? name = none ∨
      ∃ head head', st.heads.get? name = some head ∧ r.2.1.heads.get? name = some head' ∧
        Sealing P store s head r.2.2 head' ∧
        ((∃ m, r.1 = .snapshot (.ok m)) → head'.active.rows = []) := by
  intro r
  obtain ⟨_, _, each⟩ := st.onSnapshot_spec P store schemaVersion s
  have related := each name
  generalize st.heads.get? name = before at related ⊢
  generalize r.2.1.heads.get? name = after at related ⊢
  cases related with
  | none => exact Or.inl ⟨rfl, rfl⟩
  | some h => exact Or.inr ⟨_, _, rfl, rfl, h⟩

variable (P store) in
theorem onSnapshot_named {st : Streamer Hash} (h : Named st) (schemaVersion : String) (s : σ) :
    Named (st.onSnapshot P store schemaVersion s).2.1 := by
  intro name head' found
  rcases st.onSnapshot_head P store schemaVersion s name with
    ⟨_, absent⟩ | ⟨head, after, before, present, sealing, _⟩
  · rw [absent] at found
    cases found
  · rw [present] at found
    cases found
    exact sealing.named name (h name head before)

theorem onSnapshot_log {st : Streamer Hash} {s : σ} (h : Loaded P store s st) (schemaVersion : String) :
    let r := st.onSnapshot P store schemaVersion s
    Loaded P store r.2.2 r.2.1 ∧ ∀ name, logOf P store r.2.2 r.2.1 name = logOf P store s st name := by
  refine ⟨?_, ?_⟩
  · intro name head' found
    rcases st.onSnapshot_head P store schemaVersion s name with
      ⟨_, absent⟩ | ⟨head, after, before, present, sealing, _⟩
    · rw [absent] at found
      cases found
    · rw [present] at found
      cases found
      exact sealing.loads (h name head before)
  · intro name
    rcases st.onSnapshot_head P store schemaVersion s name with
      ⟨absent, gone⟩ | ⟨head, after, before, present, sealing, _⟩
    · simp only [logOf, absent, gone]
    · simp only [logOf, before, present]
      rw [← flatMap_pieces, sealing.pieces (h name head before), flatMap_pieces]

/- The start: spawned, then seeded with the baseline. -/

theorem spawn_head {tables : List TrackedTable} {threshold : Nat} {version name : String}
    {head : TableHead Hash} (found : (spawn tables threshold version).heads.get? name = some head) :
    head = TableHead.new name version threshold := by
  have mem := BTreeMap.mem_ofList (BTreeMap.get?_eq_some_iff.mp found)
  obtain ⟨t, _, same⟩ := List.mem_map.mp mem
  cases same
  rfl

theorem spawn_named (tables : List TrackedTable) (threshold : Nat) (version : String) :
    Named (spawn tables threshold version : Streamer Hash) := by
  intro name head found
  rw [spawn_head found]
  exact ⟨rfl, rfl, by intro r hr; cases hr⟩

theorem seedOne_cases (st : Streamer Hash) (r : SegmentRef Hash) :
    st.heads.get? r.table = none ∧ st.seedOne r = st ∨
      ∃ head, st.heads.get? r.table = some head ∧
        st.seedOne r = st.withHead r.table { head with sealed := head.sealed ++ [r] } := by
  unfold seedOne
  cases found : st.heads.get? r.table with
  | none => exact Or.inl ⟨rfl, rfl⟩
  | some head => exact Or.inr ⟨head, rfl, rfl⟩

theorem seedOne_named {st : Streamer Hash} (h : Named st) (r : SegmentRef Hash) :
    Named (st.seedOne r) := by
  rcases st.seedOne_cases r with ⟨_, same⟩ | ⟨head, found, seeded⟩
  · rw [same]
    exact h
  · have ok := h _ _ found
    rw [seeded]
    refine h.withHead ⟨ok.table, ok.active, ?_⟩
    intro q hq
    rcases List.mem_append.mp hq with hq | hq
    · exact ok.refs q hq
    · rw [List.mem_singleton.mp hq]

theorem seeds_named {st : Streamer Hash} (h : Named st) (refs : List (SegmentRef Hash)) :
    Named (refs.foldl seedOne st) := by
  induction refs generalizing st with
  | nil => exact h
  | cons r refs ih => exact ih (seedOne_named h r)

def Idle (st : Streamer Hash) : Prop :=
  ∀ name head, st.heads.get? name = some head → head.active.rows = []

theorem seedOne_spec {st : Streamer Hash} {s : σ} (idle : Idle st) (loaded : Loaded P store s st)
    {r : SegmentRef Hash} (loads : Loads P store s r) :
    Idle (st.seedOne r) ∧ Loaded P store s (st.seedOne r) ∧
      (st.seedOne r).pkFor = st.pkFor ∧
      ∀ name, ((st.seedOne r).heads.get? name).isSome = (st.heads.get? name).isSome ∧
        ((st.heads.get? name).isSome → logOf P store s (st.seedOne r) name =
          logOf P store s st name ++ if r.table = name then rowsOf P store s r else []) := by
  rcases st.seedOne_cases r with ⟨absent, same⟩ | ⟨head, found, seeded⟩
  · rw [same]
    refine ⟨idle, loaded, rfl, fun name => ⟨rfl, fun present => ?_⟩⟩
    have other : r.table ≠ name := by
      rintro rfl
      rw [absent] at present
      cases present
    rw [if_neg other, List.append_nil]
  · rw [seeded]
    refine ⟨?_, ?_, rfl, ?_⟩
    · intro name head' got
      rw [get?_withHead] at got
      split at got
      · cases got
        exact idle r.table head found
      · exact idle name head' got
    · refine loaded.withHead (.refl s) ?_
      intro q hq
      rcases List.mem_append.mp hq with hq | hq
      · exact loaded _ _ found q hq
      · rw [List.mem_singleton.mp hq]
        exact loads
    · intro name
      refine ⟨?_, fun _ => ?_⟩
      · rw [get?_withHead]
        split
        · rename_i same
          rw [← same, found]
          rfl
        · rfl
      · refine logOf_withHead loaded (.refl s) found ?_ name
        simp [headLog, idle _ _ found]

theorem seeds_spec {st : Streamer Hash} {s : σ} (idle : Idle st) (loaded : Loaded P store s st)
    {refs : List (SegmentRef Hash)} (loads : ∀ r ∈ refs, Loads P store s r) :
    Loaded P store s (refs.foldl seedOne st) ∧ (refs.foldl seedOne st).pkFor = st.pkFor ∧
      ∀ name, (st.heads.get? name).isSome → logOf P store s (refs.foldl seedOne st) name =
        logOf P store s st name ++
          (refs.filter (fun r => r.table = name)).flatMap (rowsOf P store s) := by
  induction refs generalizing st with
  | nil => exact ⟨loaded, rfl, fun name _ => (List.append_nil _).symm⟩
  | cons r refs ih =>
    obtain ⟨idle', loaded', pk, each⟩ := seedOne_spec idle loaded (loads r List.mem_cons_self)
    obtain ⟨loaded'', pk', log⟩ := ih idle' loaded' (fun q hq => loads q (List.mem_cons_of_mem _ hq))
    refine ⟨loaded'', pk'.trans pk, ?_⟩
    intro name present
    obtain ⟨still, first⟩ := each name
    rw [List.foldl_cons, log name (still ▸ present), first present, List.append_assoc]
    by_cases same : r.table = name <;> simp [same]

/-- The streamer as an adapter starts it. -/
def start (tables : List TrackedTable) (threshold : Nat) (version : String)
    (refs : List (SegmentRef Hash)) : Streamer Hash :=
  refs.foldl seedOne (spawn tables threshold version)

theorem start_spec (tables : List TrackedTable) (threshold : Nat) (version : String) {s : σ}
    {refs : List (SegmentRef Hash)} (loads : ∀ r ∈ refs, Loads P store s r) :
    Loaded P store s (start tables threshold version refs) ∧
      (start tables threshold version refs).pkFor =
        (spawn tables threshold version : Streamer Hash).pkFor ∧
      ∀ t ∈ tables, logOf P store s (start tables threshold version refs) t.name =
        (refs.filter (fun r => r.table = t.name)).flatMap (rowsOf P store s) := by
  have idle : Idle (spawn tables threshold version : Streamer Hash) := by
    intro name head found
    rw [spawn_head found]
    rfl
  have loaded : Loaded P store s (spawn tables threshold version) := by
    intro name head found
    rw [spawn_head found]
    intro r hr
    cases hr
  obtain ⟨loaded', pk, log⟩ := seeds_spec idle loaded loads
  refine ⟨loaded', pk, ?_⟩
  intro t mem
  have present : ((spawn tables threshold version : Streamer Hash).heads.get? t.name).isSome := by
    refine (BTreeMap.get?_ofList_isSome _ _).mpr ?_
    rw [List.map_map]
    exact List.mem_map.mpr ⟨t, mem, rfl⟩
  obtain ⟨head, found⟩ := Option.isSome_iff_exists.mp present
  have blank : logOf P store s (spawn tables threshold version) t.name = [] := by
    simp only [logOf, found, spawn_head found]
    rfl
  rw [start, log t.name present, blank, List.nil_append]

end Streamer

/-- What reaches a started streamer. -/
inductive Request where
  | event (ev : ChangeEvent)
  | takeSnapshot (schemaVersion : String)

def Request.cmd : Request → Cmd Hash
  | .event ev => .event ev
  | .takeSnapshot schemaVersion => .takeSnapshot schemaVersion

namespace Streamer

/-- The events of a table that were appended to its head, in arrival order. -/
def acceptedEvents (name : String) : List Request → List (Outcome Hash) → List ChangeEvent
  | .event ev :: rs, .accepted _ :: os =>
    if ev.table = name then ev :: acceptedEvents name rs os else acceptedEvents name rs os
  | _ :: rs, _ :: os => acceptedEvents name rs os
  | _, _ => []

theorem acceptedEvents_cons (name : String) (ev : ChangeEvent) (rs : List Request)
    (o : Outcome Hash) (os : List (Outcome Hash)) :
    (acceptedEvents name (.event ev :: rs) (o :: os)).map ChangeEvent.envelope =
      received ev o name ++ (acceptedEvents name rs os).map ChangeEvent.envelope := by
  cases o with
  | accepted sealing =>
    simp only [acceptedEvents, received]
    split <;> rfl
  | _ => rfl

variable (P store) in
theorem run_named {st : Streamer Hash} (h : Named st) (cmds : List (Cmd Hash)) (s : σ) :
    Named (run P store cmds st s).2.1 := by
  induction cmds generalizing st s with
  | nil => exact h
  | cons cmd cmds ih =>
    refine ih ?_ _
    cases cmd with
    | event ev => exact (st.onEvent_spec P store ev s).1 h
    | seedSealed refs => exact seeds_named h refs
    | takeSnapshot schemaVersion => exact onSnapshot_named P store h schemaVersion s

theorem run_log {st : Streamer Hash} {s : σ} (h : Loaded P store s st) (rs : List Request) :
    let r := run P store (rs.map Request.cmd) st s
    Loaded P store r.2.2 r.2.1 ∧ r.2.1.pkFor = st.pkFor ∧ Extends store s r.2.2 ∧
      ∀ name, logOf P store r.2.2 r.2.1 name = logOf P store s st name ++
        (acceptedEvents name rs r.1).map ChangeEvent.envelope := by
  induction rs generalizing st s with
  | nil => exact ⟨h, rfl, .refl s, fun name => (List.append_nil _).symm⟩
  | cons request rs ih => cases request with
    | event ev =>
      obtain ⟨_, pk, grows, log⟩ := st.onEvent_spec P store ev s
      obtain ⟨loaded, first⟩ := log h
      obtain ⟨loaded', pk', grows', rest⟩ := ih loaded
      refine ⟨loaded', pk'.trans pk, grows.trans grows', ?_⟩
      intro name
      have step := acceptedEvents_cons name ev rs (st.onEvent P store ev s).1
        (run P store (rs.map Request.cmd) (st.onEvent P store ev s).2.1
          (st.onEvent P store ev s).2.2).1
      refine (rest name).trans ?_
      rw [first name, List.append_assoc, ← step]
      rfl
    | takeSnapshot schemaVersion =>
      obtain ⟨grows, pk, _⟩ := st.onSnapshot_spec P store schemaVersion s
      obtain ⟨loaded, same⟩ := onSnapshot_log h schemaVersion
      obtain ⟨loaded', pk', grows', rest⟩ := ih loaded
      refine ⟨loaded', pk'.trans pk, grows.trans grows', ?_⟩
      intro name
      refine (rest name).trans ?_
      rw [same name]
      rfl

theorem sealAll_identity (P : Platform Bytes) (heads : List (String × TableHead Bytes)) (s : Unit) :
    (sealAll P RawStore.identity heads s).1 = .ok () := by
  induction heads generalizing s with
  | nil => rfl
  | cons e rest ih =>
    unfold sealAll
    rcases e.2.sealIfNonempty_cases P RawStore.identity s with
      ⟨_, same⟩ | ⟨_, _, _, put, _⟩ | ⟨_, _, _, _, _, _, _, done⟩
    · rw [same]
      exact ih s
    · cases put
    · rw [done]
      exact ih _

theorem onSnapshot_identity (P : Platform Bytes) (st : Streamer Bytes) (schemaVersion : String)
    (s : Unit) :
    (st.onSnapshot P RawStore.identity schemaVersion s).1 = .snapshot (.ok
      (manifestOf P schemaVersion (st.onSnapshot P RawStore.identity schemaVersion s).2.1.heads.entries)) := by
  simp only [onSnapshot, sealAll_identity]
  rfl

end Streamer

end

end GitAgentic
