import GitAgentic.Memory.Accounting
import GitAgentic.Memory.Drainers

/-! Schema versions between capture and seal. A row is captured by a trigger and stamped
with a version only when a drain reads the live one; a segment takes over the version of
an event only while it is empty. -/
namespace GitAgentic

namespace SchemaDrift

/-- A row of the log. The version that was live at its capture is kept for the statements
only, here and in the messages. -/
structure Captured where
  row : LogRow
  version : String
  deriving DecidableEq

/-- A batch as it was read, the version once that was read too, and what is left to send. -/
structure Batch where
  rows : List (Nat × Captured)
  schemaVersion : Option String
  rest : List (Nat × Captured)
  deriving DecidableEq

/-- What stands in the channel of the streamer. -/
inductive Message where
  | event (ev : ChangeEvent) (version : String)
  | takeSnapshot (schemaVersion : String)
  deriving DecidableEq

def Message.cmd {Hash : Type} : Message → Cmd Hash
  | .event ev _ => .event ev
  | .takeSnapshot schemaVersion => .takeSnapshot schemaVersion

/-- What the streamer has received, and the refs it has sealed for a table, are kept for
the statements only. -/
structure World (Hash σ : Type) where
  live : String
  lastId : Nat
  pending : Nat → List (Nat × Captured)
  log : BTreeMap Nat Captured
  drain : Drainers.Who → Option Batch
  channel : List Message
  streamer : Streamer Hash
  store : σ
  received : List Message
  sealed : String → List (SegmentRef Hash)

inductive Act where
  | insert (tx : Nat) (row : LogRow)
  | commit (tx : Nat)
  | rollback (tx : Nat)
  | migrate (version : String)
  | select (who : Drainers.Who)
  | readVersion (who : Drainers.Who)
  | forward (who : Drainers.Who)
  | delete (who : Drainers.Who)
  | fail (who : Drainers.Who)
  | takeSnapshot (schemaVersion : String)
  | receive

def logRows (rows : List (Nat × Captured)) : List (Nat × LogRow) :=
  rows.map (fun r => (r.1, r.2.row))

section

variable {Hash σ : Type} (P : Platform Hash) (store : RawStore Hash σ) (tables : List TrackedTable)

def stamp (who : Drainers.Who) (live : String) (b : Batch) : Option Batch :=
  if Drainers.mode who = .strict ∧
      (Triggers.prevalidateAll tables (logRows b.rows)).toOption = none then none
  else some { b with schemaVersion := some live, rest := b.rows }

def messageOf (schemaVersion : String) (r : Nat × Captured) : Option Message :=
  (Triggers.forwarded tables schemaVersion r.2.row).map (fun ev => .event ev r.2.version)

/-- A step that is not possible changes nothing. -/
def step (w : World Hash σ) : Act → World Hash σ
  | .insert tx row =>
    { w with
      lastId := w.lastId + 1
      pending := Function.update w.pending tx (w.pending tx ++ [(w.lastId + 1, ⟨row, w.live⟩)]) }
  | .commit tx =>
    { w with
      log := (w.pending tx).foldl (fun log r => log.insert r.1 r.2) w.log
      pending := Function.update w.pending tx [] }
  | .rollback tx => { w with pending := Function.update w.pending tx [] }
  | .migrate version => { w with live := version }
  | .select who =>
    match w.drain who with
    | some _ => w
    | none =>
      let rows := w.log.entries.take Triggers.pollBatchSize
      { w with drain := Function.update w.drain who (if rows = [] then none else some ⟨rows, none, []⟩) }
  | .readVersion who =>
    match w.drain who with
    | some ⟨rows, none, _⟩ =>
      { w with drain := Function.update w.drain who (stamp tables who w.live ⟨rows, none, []⟩) }
    | _ => w
  | .forward who =>
    match w.drain who with
    | some ⟨rows, some schemaVersion, r :: rest⟩ =>
      { w with
        channel := w.channel ++ (messageOf tables schemaVersion r).toList
        drain := Function.update w.drain who (some ⟨rows, some schemaVersion, rest⟩) }
    | _ => w
  | .delete who =>
    match w.drain who with
    | some ⟨rows, some _, []⟩ =>
      { w with
        log := { entries := w.log.entries.filter (fun r => ¬ r.1 ≤ Triggers.maxId (logRows rows))
                 sorted := w.log.sorted.filter _ }
        drain := Function.update w.drain who none }
    | _ => w
  | .fail who => { w with drain := Function.update w.drain who none }
  | .takeSnapshot schemaVersion => { w with channel := w.channel ++ [.takeSnapshot schemaVersion] }
  | .receive =>
    match w.channel with
    | [] => w
    | m :: channel =>
      let r := w.streamer.step P store m.cmd w.store
      { w with
        channel
        streamer := r.2.1
        store := r.2.2
        received := w.received ++ [m]
        sealed := fun name => w.sealed name ++ Streamer.sealedBy name m.cmd w.streamer r.2.1 }

def run (acts : List Act) (w : World Hash σ) : World Hash σ := Runs.run (step P store tables) acts w

/-- A streamer just spawned, whatever the change log holds. -/
structure Initial (w : World Hash σ) : Prop where
  drain : ∀ who, w.drain who = none
  channel : w.channel = []
  streamer : ∃ threshold version, w.streamer = Streamer.spawn tables threshold version
  received : w.received = []
  sealed : ∀ name, w.sealed name = []

def acceptedAt (pkFor : BTreeMap String String) (name : String) : Message → List (ChangeEvent × String)
  | .event ev version =>
    if ev.table = name ∧ hasKey pkFor name ev.row = true then [(ev, version)] else []
  | .takeSnapshot _ => []

/-- The ref stands for a segment of these rows, all of them captured at its version. -/
def SameVersion (s : σ) (r : SegmentRef Hash) (chunk : List (ChangeEvent × String)) : Prop :=
  ∃ segment, Restore.loadSegment P store s r.segment = .ok segment ∧
    segment.rows = chunk.map (fun x => x.1.envelope) ∧ ∀ x ∈ chunk, x.2 = segment.schemaVersion

/-- Every row of every segment sealed for the table was captured while the version of the
segment was live. -/
def Homogeneous (w : World Hash σ) (name : String) : Prop :=
  ∃ chunks rest, w.received.flatMap (acceptedAt w.streamer.pkFor name) = chunks.flatten ++ rest ∧
    List.Forall₂ (SameVersion P store w.store) (w.sealed name) chunks

/-- A drain reads the version at which the rows it will send were captured, and an event
whose table has unsealed rows comes with their version. -/
def Timely (w : World Hash σ) : Act → Prop
  | .readVersion who => ∀ rows rest, w.drain who = some ⟨rows, none, rest⟩ →
    ∀ r ∈ rows, (Triggers.forwarded tables w.live r.2.row).isSome = true → r.2.version = w.live
  | .receive => ∀ ev version channel, w.channel = .event ev version :: channel →
    ∀ head, w.streamer.heads.get? ev.table = some head → head.active.rows ≠ [] →
      head.active.schemaVersion = ev.schemaVersion
  | _ => True

end

section

variable {Hash σ : Type} {P : Platform Hash} {store : RawStore Hash σ} {tables : List TrackedTable}
  {fits : ChangeEvent → String → Prop} {w : World Hash σ}

variable (P store tables fits) in
/-- The books of every tracked table, over what the streamer has received. -/
def Kept (w : World Hash σ) : Prop :=
  ∀ t ∈ tables, Streamer.Books P store fits w.store t.name w.streamer [] (w.sealed t.name)
    ((w.received.flatMap (acceptedAt w.streamer.pkFor t.name)).map Prod.fst)

theorem Initial.kept (h : Initial tables w) : Kept P store tables fits w := by
  intro t mem
  obtain ⟨threshold, version, spawned⟩ := h.streamer
  rw [h.sealed, h.received, spawned]
  exact Streamer.Books.spawned P store fits threshold version w.store mem

theorem acceptedAt_fst (pkFor : BTreeMap String String) (name : String) (m : Message) :
    (acceptedAt pkFor name m).map Prod.fst = Streamer.accepts pkFor name (m.cmd : Cmd Hash) := by
  cases m with
  | event ev version =>
    simp only [acceptedAt, Message.cmd, Streamer.accepts]
    split <;> rfl
  | takeSnapshot schemaVersion => rfl

theorem seeds_cmd (name : String) (m : Message) : Streamer.seeds name (m.cmd : Cmd Hash) = [] := by
  cases m <;> rfl

theorem Kept.receive (h : Kept P store tables fits w) {m : Message} {channel : List Message}
    (next : w.channel = m :: channel)
    (fit : ∀ t ∈ tables, Streamer.Fitting fits t.name w.streamer (m.cmd : Cmd Hash)) :
    Kept P store tables fits (step P store tables w .receive) := by
  intro t mem
  obtain ⟨pk, books⟩ := (h t mem).step m.cmd (fit t mem)
  rw [seeds_cmd, ← acceptedAt_fst, ← List.map_append] at books
  simp only [step, next, pk, List.flatMap_append, List.flatMap_singleton]
  exact books

theorem Kept.step (h : Kept P store tables fits w) {act : Act}
    (fit : act = .receive → ∀ m channel, w.channel = m :: channel →
      ∀ t ∈ tables, Streamer.Fitting fits t.name w.streamer (m.cmd : Cmd Hash)) :
    Kept P store tables fits (step P store tables w act) := by
  cases act with
  | receive =>
    cases next : w.channel with
    | nil =>
      simp only [SchemaDrift.step, next]
      exact h
    | cons m channel => exact h.receive next (fit rfl m channel next)
  | insert tx row => exact h
  | commit tx => exact h
  | rollback tx => exact h
  | migrate version => exact h
  | fail who => exact h
  | takeSnapshot schemaVersion => exact h
  | select who =>
    simp only [SchemaDrift.step]
    split <;> exact h
  | readVersion who =>
    simp only [SchemaDrift.step]
    split <;> exact h
  | forward who =>
    simp only [SchemaDrift.step]
    split <;> exact h
  | delete who =>
    simp only [SchemaDrift.step]
    split <;> exact h

variable (tables) in
/-- Whatever is on its way to the streamer was captured at the version it is stamped with. -/
structure Stamped (w : World Hash σ) : Prop where
  batch : ∀ who rows version rest, w.drain who = some ⟨rows, some version, rest⟩ →
    ∀ r ∈ rest, (Triggers.forwarded tables version r.2.row).isSome = true → r.2.version = version
  channel : ∀ ev version, .event ev version ∈ w.channel → ev.schemaVersion = version
  received : ∀ ev version, .event ev version ∈ w.received → ev.schemaVersion = version

theorem Initial.stamped (h : Initial tables w) : Stamped tables w where
  batch who rows version rest held := by simp [h.drain who] at held
  channel := by simp [h.channel]
  received := by simp [h.received]

theorem Stamped.update {w' : World Hash σ} (h : Stamped tables w) (who : Drainers.Who)
    {b : Option Batch} (drain : w'.drain = Function.update w.drain who b)
    (own : ∀ rows version rest, b = some ⟨rows, some version, rest⟩ →
      ∀ r ∈ rest, (Triggers.forwarded tables version r.2.row).isSome = true → r.2.version = version)
    (channel : ∀ ev version, .event ev version ∈ w'.channel → ev.schemaVersion = version)
    (received : w'.received = w.received) : Stamped tables w' where
  batch who' rows version rest held := by
    rw [drain] at held
    by_cases same : who' = who
    · subst same
      rw [Function.update_self] at held
      exact own rows version rest held
    · rw [Function.update_of_ne same] at held
      exact h.batch who' rows version rest held
  channel := channel
  received := received ▸ h.received

theorem Stamped.step (h : Stamped tables w) {act : Act} (timely : Timely tables w act) :
    Stamped tables (step P store tables w act) := by
  cases act with
  | insert tx row => exact ⟨h.batch, h.channel, h.received⟩
  | commit tx => exact ⟨h.batch, h.channel, h.received⟩
  | rollback tx => exact ⟨h.batch, h.channel, h.received⟩
  | migrate version => exact ⟨h.batch, h.channel, h.received⟩
  | takeSnapshot schemaVersion =>
    refine ⟨h.batch, fun ev version mem => ?_, h.received⟩
    rcases List.mem_append.mp mem with mem | mem
    · exact h.channel ev version mem
    · cases List.mem_singleton.mp mem
  | fail who => exact h.update who rfl (by simp) h.channel rfl
  | select who =>
    simp only [SchemaDrift.step]
    split
    · exact h
    · refine h.update who rfl ?_ h.channel rfl
      intro rows version rest started
      split at started <;> cases started
  | readVersion who =>
    simp only [SchemaDrift.step]
    split
    · rename_i rows rest held
      refine h.update who rfl ?_ h.channel rfl
      intro rows' version rest' stamped
      unfold stamp at stamped
      split at stamped
      · cases stamped
      · cases stamped
        exact timely rows rest held
    · exact h
  | forward who =>
    simp only [SchemaDrift.step]
    split
    · rename_i rows schemaVersion r rest held
      have batch := h.batch who rows schemaVersion (r :: rest) held
      refine h.update who rfl ?_ ?_ rfl
      · intro rows' version rest' same
        cases same
        exact fun q hq => batch q (List.mem_cons_of_mem _ hq)
      · intro ev version mem
        rcases List.mem_append.mp mem with mem | mem
        · exact h.channel ev version mem
        · obtain ⟨ev', found, same⟩ := Option.map_eq_some_iff.mp (Option.mem_toList.mp mem)
          cases same
          rw [batch r List.mem_cons_self (by rw [found]; rfl)]
          obtain ⟨_, _, _, stampedAt⟩ := Triggers.forwarded_eq_some_iff.mp found
          exact stampedAt
    · exact h
  | delete who =>
    simp only [SchemaDrift.step]
    split
    · exact h.update who rfl (by simp) h.channel rfl
    · exact h
  | receive =>
    simp only [SchemaDrift.step]
    split
    · exact h
    · rename_i m channel next
      refine ⟨h.batch, fun ev version mem => ?_, fun ev version mem => ?_⟩
      · exact h.channel ev version (next ▸ List.mem_cons_of_mem _ mem)
      · rcases List.mem_append.mp mem with mem | mem
        · exact h.received ev version mem
        · refine h.channel ev version ?_
          rw [next, List.mem_singleton.mp mem]
          exact List.mem_cons_self

theorem Timely.fitting (timely : Timely tables w .receive) {m : Message} {channel : List Message}
    (next : w.channel = m :: channel) (name : String) :
    Streamer.Fitting (fun ev version => ev.schemaVersion = version) name w.streamer
      (m.cmd : Cmd Hash) := by
  cases m with
  | takeSnapshot schemaVersion => trivial
  | event ev version =>
    rintro rfl head found
    unfold TableHead.adoptVersion
    split
    · rfl
    · rename_i kept
      by_cases empty : head.active.rows = []
      · by_contra other
        exact kept ⟨fun same => other same.symm, empty⟩
      · exact (timely ev version channel next head found empty).symm

theorem Kept.sameVersion
    (h : Kept P store tables (fun ev version => ev.schemaVersion = version) w)
    (stamped : Stamped tables w) {t : TrackedTable} (mem : t ∈ tables) :
    Homogeneous P store w t.name := by
  obtain ⟨pk, head, _, _, acc⟩ := h t mem
  obtain ⟨chunks, rest, split, _, sealed⟩ := acc.chunks
  let tag : ChangeEvent → ChangeEvent × String := fun ev => (ev, ev.schemaVersion)
  have tagged : w.received.flatMap (acceptedAt w.streamer.pkFor t.name) =
      ((w.received.flatMap (acceptedAt w.streamer.pkFor t.name)).map Prod.fst).map tag := by
    rw [List.map_map]
    refine (List.map_id _).symm.trans (List.map_congr_left ?_)
    rintro ⟨ev, version⟩ hx
    obtain ⟨m, hm, hx⟩ := List.mem_flatMap.mp hx
    cases m with
    | takeSnapshot schemaVersion => cases hx
    | event ev' version' =>
      simp only [acceptedAt] at hx
      split at hx
      · cases List.mem_singleton.mp hx
        exact congrArg (Prod.mk ev) (stamped.received ev version hm).symm
      · cases hx
  refine ⟨chunks.map (List.map tag), rest.map tag, ?_, ?_⟩
  · rw [tagged, split, List.map_append, List.map_flatten]
  · refine List.forall₂_map_right_iff.mpr (sealed.imp ?_)
    rintro r chunk ⟨segment, stored⟩
    refine ⟨segment, stored.loaded, ?_, ?_⟩
    · rw [stored.holds.rows, List.map_map]
      rfl
    · intro x hx
      obtain ⟨ev, hev, rfl⟩ := List.mem_map.mp hx
      exact stored.holds.fit ev hev

/-- In a run in which no migration comes between capture and stamp, nor between the rows
of one segment, all segments are homogeneous in every state. -/
theorem homogeneous {acts : List Act} (start : Initial tables w)
    (timely : Runs.Along (step P store tables) (Timely tables) acts w) {t : TrackedTable}
    (mem : t ∈ tables) : Homogeneous P store (run P store tables acts w) t.name := by
  have keeps : ∀ (w : World Hash σ) act,
      (Stamped tables w ∧ Kept P store tables (fun ev version => ev.schemaVersion = version) w) →
      Timely tables w act → Stamped tables (step P store tables w act) ∧
        Kept P store tables (fun ev version => ev.schemaVersion = version)
          (step P store tables w act) := by
    rintro w act ⟨stamped, kept⟩ timely
    refine ⟨stamped.step timely, kept.step ?_⟩
    rintro rfl m channel next t _
    exact timely.fitting next t.name
  obtain ⟨stamped, kept⟩ := timely.invariant keeps ⟨start.stamped, start.kept⟩
  exact kept.sameVersion stamped mem

theorem Kept.run (h : Kept P store tables (fun _ _ => True) w) (acts : List Act) :
    Kept P store tables (fun _ _ => True) (run P store tables acts w) := by
  induction acts generalizing w with
  | nil => exact h
  | cons act acts ih =>
    exact ih (h.step (fun _ m _ _ t _ => Streamer.Fitting.of_free (fun _ _ => trivial) _ _ _))

end

/-- A streamer that seals every event on its own. -/
def fresh : World Bytes Unit where
  live := "1"
  lastId := 0
  pending _ := []
  log := .empty
  drain _ := none
  channel := []
  streamer := Streamer.spawn [episodes] 0 "1"
  store := ()
  received := []
  sealed _ := []

theorem fresh_initial : Initial [episodes] fresh where
  drain _ := rfl
  channel := rfl
  streamer := ⟨0, "1", rfl⟩
  received := rfl
  sealed _ := rfl

def runFresh (acts : List Act) : World Bytes Unit :=
  run Platform.sample RawStore.identity [episodes] acts fresh

def writtenRow (key : UInt64) : LogRow := ⟨some "public.episodes", some "insert", some (episode key "a")⟩

/-- A row is drained at version 1, and after a migration another one at version 2. -/
def migrated : List Act :=
  [.insert 1 (writtenRow 1), .commit 1, .select .poller, .readVersion .poller, .forward .poller, .receive,
    .delete .poller, .migrate "2", .insert 2 (writtenRow 2), .commit 2, .select .poller, .readVersion .poller,
    .forward .poller, .receive, .delete .poller]

def allSealed (acts : List Act) : Bool :=
  (runFresh acts).streamer.heads.entries.all (fun e => e.2.active.rows.isEmpty)

theorem unsealed_none {acts : List Act} (sealed : allSealed acts = true) {name : String} {head : TableHead Bytes}
    (found : (runFresh acts).streamer.heads.get? name = some head) : head.active.rows = [] := by
  have each := List.all_eq_true.mp sealed _ (BTreeMap.get?_eq_some_iff.mp found)
  exact List.isEmpty_iff.mp each

theorem homogeneous_episode :
    Homogeneous Platform.sample RawStore.identity (runFresh migrated) episodes.name := by
  refine homogeneous fresh_initial ?_ List.mem_cons_self
  have first : (runFresh (migrated.take 3)).drain .poller = some ⟨[(1, ⟨writtenRow 1, "1"⟩)], none, []⟩ := by
    decide +kernel
  have second : (runFresh (migrated.take 11)).drain .poller = some ⟨[(2, ⟨writtenRow 2, "2"⟩)], none, []⟩ := by
    decide +kernel
  have empty₁ : allSealed (migrated.take 5) = true := by decide +kernel
  have empty₂ : allSealed (migrated.take 13) = true := by decide +kernel
  simp only [migrated, Runs.Along, Timely, true_and, and_true]
  refine ⟨?_, ?_, ?_, ?_⟩
  · intro rows rest read r mem _
    cases first.symm.trans read
    cases List.mem_singleton.mp mem
    rfl
  · intro ev version channel _ head found occupied
    exact absurd (unsealed_none empty₁ found) occupied
  · intro rows rest read r mem _
    cases second.symm.trans read
    cases List.mem_singleton.mp mem
    rfl
  · intro ev version channel _ head found occupied
    exact absurd (unsealed_none empty₂ found) occupied

/-- A row is written and read by the poller, which sends it after what happens in between. -/
def writeAndPoll (between : List Act) : List Act :=
  [.insert 1 (writtenRow 1), .commit 1, .select .poller] ++
    (between ++ [.readVersion .poller, .forward .poller, .receive])

/-- A row that is stamped after a migration lies in a segment of a version at which it
was not captured. -/
theorem not_always_homogeneous :
    ¬ ∀ (w : World Bytes Unit) (acts : List Act), Initial [episodes] w →
      Homogeneous Platform.sample RawStore.identity
        (run Platform.sample RawStore.identity [episodes] acts w) episodes.name := by
  intro always
  let ev : ChangeEvent := { episodeEvent .insert 1 "a" with schemaVersion := "2" }
  let w := runFresh (writeAndPoll [.migrate "2"])
  have accepted : w.received.flatMap (acceptedAt w.streamer.pkFor episodes.name) = [(ev, "1")] := by
    decide +kernel
  have once : (w.sealed episodes.name).length = 1 := by
    decide +kernel
  obtain ⟨r, one⟩ := List.length_eq_one_iff.mp once
  have same : Homogeneous Platform.sample RawStore.identity w episodes.name :=
    always fresh (writeAndPoll [.migrate "2"]) fresh_initial
  have kept : Kept Platform.sample RawStore.identity [episodes] (fun _ _ => True) w :=
    fresh_initial.kept.run (writeAndPoll [.migrate "2"])
  obtain ⟨chunks, rest, whole, sealed⟩ := same
  obtain ⟨pk, head, _, _, acc⟩ := kept episodes List.mem_cons_self
  obtain ⟨chunks', rest', whole', _, sealed'⟩ := acc.chunks
  rw [accepted] at whole whole'
  rw [one] at sealed sealed'
  obtain ⟨chunk, _, ⟨segment, loaded, rows, captured⟩, none, rfl⟩ := List.forall₂_cons_left_iff.mp sealed
  obtain ⟨chunk', _, ⟨segment', stored⟩, none', rfl⟩ := List.forall₂_cons_left_iff.mp sealed'
  cases none
  cases none'
  rw [stored.loaded] at loaded
  cases loaded
  simp only [List.flatten_cons, List.flatten_nil, List.append_nil] at whole whole'
  obtain ⟨x, xs, shape⟩ := List.exists_cons_of_ne_nil stored.nonempty
  subst shape
  cases chunk with
  | nil =>
    rw [stored.holds.rows] at rows
    cases rows
  | cons y ys =>
    obtain ⟨rfl, _⟩ := List.cons.inj whole
    obtain ⟨rfl, _⟩ := List.cons.inj whole'
    have late : ev.schemaVersion = segment.schemaVersion := stored.holds.version ev rfl
    have early : "1" = segment.schemaVersion := captured (ev, "1") List.mem_cons_self
    exact absurd (early.trans late.symm) (by decide)

end SchemaDrift

end GitAgentic
