import GitAgentic.Memory.Fence

/-! The books of a run of the streamer. Every accepted event of a table is in exactly one
place: in a segment that the streamer sealed, or in the active one. -/
namespace GitAgentic

section

variable {Hash σ : Type} (P : Platform Hash) (store : RawStore Hash σ)

variable (fits : ChangeEvent → String → Prop)

/-- The segment of a table that consists of the given events, which fit its version. -/
structure SegmentOf (pk name : String) (chunk : List ChangeEvent) (segment : Segment) : Prop where
  table : segment.table = name
  rows : segment.rows = chunk.map ChangeEvent.envelope
  rowCount : segment.rowCount = chunk.length.toUInt64
  pkLo : ∀ ev ∈ chunk.head?, ev.row.get? pk = some segment.pkLo
  pkHi : ∀ ev ∈ chunk.getLast?, ev.row.get? pk = some segment.pkHi
  version : ∀ ev ∈ chunk.head?, ev.schemaVersion = segment.schemaVersion
  fit : ∀ ev ∈ chunk, fits ev segment.schemaVersion

/-- The ref stands for a stored segment of these events. -/
structure SealedAs (s : σ) (pk name : String) (r : SegmentRef Hash) (chunk : List ChangeEvent)
    (segment : Segment) : Prop where
  loaded : Restore.loadSegment P store s r.segment = .ok segment
  nonempty : chunk ≠ []
  holds : SegmentOf fits pk name chunk segment
  table : r.table = name
  pkLo : r.pkLo = segment.pkLo
  pkHi : r.pkHi = segment.pkHi
  rowCount : r.rowCount = segment.rowCount

/-- One list holds the elements of the two others, each in its own order. -/
structure Interleaved {α : Type} (xs ys zs : List α) : Prop where
  left : xs.Sublist zs
  right : ys.Sublist zs
  all : zs.Perm (xs ++ ys)

/-- The head of a table after it was given the seeds and accepted the events; `own` are
the refs it sealed, each for the next events that were accepted. -/
structure Accounts (s : σ) (pk name : String) (head : TableHead Hash)
    (seeds own : List (SegmentRef Hash)) (accepted : List ChangeEvent) : Prop where
  table : head.table = name
  sealed : Interleaved seeds own head.sealed
  chunks : ∃ chunks rest, accepted = chunks.flatten ++ rest ∧ SegmentOf fits pk name rest head.active ∧
    List.Forall₂ (fun r chunk => ∃ segment, SealedAs P store fits s pk name r chunk segment) own chunks

end

section

variable {α : Type}

theorem Interleaved.nil : Interleaved ([] : List α) [] [] := ⟨.refl [], .refl [], .refl []⟩

theorem Interleaved.left_append {xs ys zs : List α} (h : Interleaved xs ys zs) (new : List α) :
    Interleaved (xs ++ new) ys (zs ++ new) where
  left := h.left.append_right new
  right := h.right.trans (List.sublist_append_left zs new)
  all := by
    refine (h.all.append_right new).trans ?_
    rw [List.append_assoc, List.append_assoc]
    exact List.perm_append_comm.append_left xs

theorem Interleaved.right_append {xs ys zs : List α} (h : Interleaved xs ys zs) (new : List α) :
    Interleaved xs (ys ++ new) (zs ++ new) where
  left := h.left.trans (List.sublist_append_left zs new)
  right := h.right.append_right new
  all := by
    rw [← List.append_assoc]
    exact h.all.append_right new

end

section

variable {Hash σ : Type} {P : Platform Hash} {store : RawStore Hash σ}
  {fits : ChangeEvent → String → Prop}

theorem SegmentOf.blank (pk name version : String) :
    SegmentOf fits pk name [] (blankSegment name version) where
  table := rfl
  rows := rfl
  rowCount := rfl
  pkLo := by simp
  pkHi := by simp
  version := by simp
  fit := by simp

theorem SealedAs.mono {s s' : σ} {pk name : String} {r : SegmentRef Hash} {chunk : List ChangeEvent}
    {segment : Segment} (h : SealedAs P store fits s pk name r chunk segment)
    (grows : Extends store s s') : SealedAs P store fits s' pk name r chunk segment :=
  { h with loaded := grows.load h.loaded }

namespace Accounts

variable {s s' : σ} {pk name : String} {head : TableHead Hash} {seeds own : List (SegmentRef Hash)}
  {accepted : List ChangeEvent}

theorem spawned (threshold : Nat) (version : String) :
    Accounts P store fits s pk name (TableHead.new name version threshold) [] [] [] where
  table := rfl
  sealed := .nil
  chunks := ⟨[], [], rfl, .blank pk name version, .nil⟩

theorem mono (h : Accounts P store fits s pk name head seeds own accepted) (grows : Extends store s s') :
    Accounts P store fits s' pk name head seeds own accepted := by
  obtain ⟨chunks, rest, split, active, sealed⟩ := h.chunks
  refine { h with chunks := ⟨chunks, rest, split, active, sealed.imp ?_⟩ }
  rintro r chunk ⟨segment, stored⟩
  exact ⟨segment, stored.mono grows⟩

theorem seed (h : Accounts P store fits s pk name head seeds own accepted)
    (refs : List (SegmentRef Hash)) :
    Accounts P store fits s pk name { head with sealed := head.sealed ++ refs } (seeds ++ refs) own
      accepted :=
  { table := h.table, sealed := h.sealed.left_append refs, chunks := h.chunks }

/-- An event goes into the active segment when its row has a key. -/
theorem apply (h : Accounts P store fits s pk name head seeds own accepted) (ev : ChangeEvent)
    (fit : fits ev (TableHead.adoptVersion head.active ev.schemaVersion).schemaVersion) :
    let r := head.apply ev pk
    (∃ e, r.1 = .error e ∧ (∀ key, ev.row.get? pk = some key → key.isNull = true) ∧
        r.2.sealed = head.sealed ∧ Accounts P store fits s pk name r.2 seeds own accepted) ∨
      r.1 = .ok () ∧ (∃ key, ev.row.get? pk = some key ∧ key.isNull = false) ∧
        r.2.sealed = head.sealed ∧
        Accounts P store fits s pk name r.2 seeds own (accepted ++ [ev]) := by
  obtain ⟨chunks, rest, split, active, sealed⟩ := h.chunks
  have adopted : SegmentOf fits pk name rest (TableHead.adoptVersion head.active ev.schemaVersion) ∧
      (rest = [] → (TableHead.adoptVersion head.active ev.schemaVersion).schemaVersion =
        ev.schemaVersion) := by
    unfold TableHead.adoptVersion
    split
    · rename_i taken
      have none : rest = [] := by
        have rows := active.rows
        rw [taken.2] at rows
        exact List.map_eq_nil_iff.mp rows.symm
      subst none
      exact ⟨{ active with version := by simp, fit := by simp }, fun _ => rfl⟩
    · rename_i kept
      refine ⟨active, fun none => ?_⟩
      by_contra other
      exact kept ⟨other, by rw [active.rows, none]; rfl⟩
  obtain ⟨segment, version⟩ := adopted
  generalize new : TableHead.adoptVersion head.active ev.schemaVersion = current at segment version fit
  have empty : current.rows = [] ↔ rest = [] := by rw [segment.rows, List.map_eq_nil_iff]
  unfold TableHead.apply
  simp only [new]
  cases found : ev.row.get? pk with
  | none =>
    exact Or.inl ⟨_, rfl, by simp, rfl, h.table, h.sealed, chunks, rest, split, segment, sealed⟩
  | some key =>
    by_cases null : key.isNull = true
    · simp only [null, if_true]
      exact Or.inl ⟨_, rfl, by simpa using null, trivial, h.table, h.sealed, chunks, rest, split,
        segment, sealed⟩
    · simp only [if_neg null]
      refine Or.inr ⟨trivial, ⟨key, rfl, by simpa using null⟩, trivial, h.table, h.sealed, chunks,
        rest ++ [ev], ?_, ?_, sealed⟩
      · rw [split, List.append_assoc]
      · refine ⟨segment.table, ?_, ?_, ?_, ?_, ?_, ?_⟩
        · simp [segment.rows]
        · simp [segment.rows]
        · intro first hfirst
          cases rest with
          | nil =>
            cases hfirst
            simp only [empty.mpr rfl, if_true, found]
          | cons ev' rest =>
            have rows : current.rows ≠ [] := fun none => by simpa using empty.mp none
            simp only [if_neg rows]
            exact segment.pkLo first hfirst
        · intro last hlast
          rw [List.getLast?_concat] at hlast
          cases hlast
          exact found
        · intro first hfirst
          cases rest with
          | nil =>
            cases hfirst
            exact (version rfl).symm
          | cons ev' rest => exact segment.version first hfirst
        · intro ev' hev
          rcases List.mem_append.mp hev with hev | hev
          · exact segment.fit ev' hev
          · rw [List.mem_singleton.mp hev]
            exact fit

theorem sealIfNonempty (h : Accounts P store fits s pk name head seeds own accepted) :
    let r := head.sealIfNonempty P store s
    ∃ new, r.2.1.sealed = head.sealed ++ new ∧
      Accounts P store fits r.2.2 pk name r.2.1 seeds (own ++ new) accepted := by
  obtain ⟨grows, _⟩ := head.sealIfNonempty_spec P store s
  have kept := h.mono grows
  intro r
  simp only [r] at kept ⊢
  unfold TableHead.sealIfNonempty at grows kept ⊢
  by_cases empty : head.active.rows = []
  · simp only [if_pos empty] at kept ⊢
    exact ⟨[], by simp, by simpa using kept⟩
  · simp only [if_neg empty] at kept ⊢
    cases put : store.putRaw .segment (head.active.toCanonicalBytes P) s with
    | mk result s' =>
      rw [put] at kept
      cases result with
      | error e => exact ⟨[], by simp, by simpa using kept⟩
      | ok hash =>
        obtain ⟨chunks, rest, split, active, sealed⟩ := kept.chunks
        have loaded : Restore.loadSegment P store s' hash = .ok head.active := by
          simp only [Restore.loadSegment, store.stored _ _ _ _ _ put,
            Segment.fromSlice_toCanonicalBytes]
        refine ⟨_, rfl, h.table, h.sealed.right_append _, chunks ++ [rest], [], ?_, ?_, ?_⟩
        · simpa using split
        · rw [h.table]
          exact .blank pk name _
        · refine List.rel_append sealed (.cons ⟨head.active, loaded, ?_, active, active.table,
            rfl, rfl, rfl⟩ .nil)
          rintro rfl
          exact empty active.rows

theorem maybeSealOnThreshold (h : Accounts P store fits s pk name head seeds own accepted) :
    let r := head.maybeSealOnThreshold P store s
    ∃ new, r.2.1.sealed = head.sealed ++ new ∧
      Accounts P store fits r.2.2 pk name r.2.1 seeds (own ++ new) accepted := by
  unfold TableHead.maybeSealOnThreshold
  split
  · exact h.sealIfNonempty
  · exact ⟨[], by simp, by simpa using h⟩

end Accounts

namespace Streamer

/-- What a command adds to the sealed list, unless it is a seeding: the refs of the
segments the streamer has sealed itself. -/
def sealedBy (name : String) (cmd : Cmd Hash) (st st' : Streamer Hash) : List (SegmentRef Hash) :=
  match cmd with
  | .seedSealed _ => []
  | _ => (st'.sealedOf name).drop (st.sealedOf name).length

variable (P store) in
/-- The segments a run sealed for a table, in that order. -/
def ownRefs (name : String) : List (Cmd Hash) → Streamer Hash → σ → List (SegmentRef Hash)
  | [], _, _ => []
  | cmd :: cmds, st, s =>
    sealedBy name cmd st (st.step P store cmd s).2.1 ++
      ownRefs name cmds (st.step P store cmd s).2.1 (st.step P store cmd s).2.2

def seeds (name : String) : Cmd Hash → List (SegmentRef Hash)
  | .event _ => []
  | .seedSealed refs => refs.filter (fun r => r.table = name)
  | .takeSnapshot _ => []

def seededRefs (name : String) (cmds : List (Cmd Hash)) : List (SegmentRef Hash) :=
  cmds.flatMap (seeds name)

def accepts (pkFor : BTreeMap String String) (name : String) : Cmd Hash → List ChangeEvent
  | .event ev => if ev.table = name ∧ hasKey pkFor name ev.row = true then [ev] else []
  | .seedSealed _ => []
  | .takeSnapshot _ => []

/-- The events of a table whose rows have a key, in arrival order. -/
def acceptedOf (pkFor : BTreeMap String String) (name : String) (cmds : List (Cmd Hash)) :
    List ChangeEvent := cmds.flatMap (accepts pkFor name)

variable (P store fits) in
/-- The books of a table: the seeds, the refs sealed so far and the events accepted. -/
def Books (s : σ) (name : String) (st : Streamer Hash) (seeds own : List (SegmentRef Hash))
    (accepted : List ChangeEvent) : Prop :=
  ∃ pk head, st.pkFor.get? name = some pk ∧ st.heads.get? name = some head ∧
    Accounts P store fits s pk name head seeds own accepted

section

variable {st : Streamer Hash} {s : σ} {name : String} {seeded own : List (SegmentRef Hash)}
  {accepted : List ChangeEvent}

theorem sealedBy_append {cmd : Cmd Hash} (other : ∀ refs, cmd ≠ .seedSealed refs)
    {st' : Streamer Hash} {new : List (SegmentRef Hash)}
    (grown : st'.sealedOf name = st.sealedOf name ++ new) : sealedBy name cmd st st' = new := by
  cases cmd with
  | seedSealed refs => exact absurd rfl (other refs)
  | _ => simp only [sealedBy, grown, List.drop_left]

theorem Books.mono {s' : σ} (h : Books P store fits s name st seeded own accepted)
    (grows : Extends store s s') : Books P store fits s' name st seeded own accepted := by
  obtain ⟨pk, head, keyed, found, acc⟩ := h
  exact ⟨pk, head, keyed, found, acc.mono grows⟩

variable (P store) in
theorem onEvent_head {ev : ChangeEvent} {head : TableHead Hash} {pk : String}
    (found : st.heads.get? ev.table = some head) (keyed : st.pkFor.get? ev.table = some pk) (s : σ) :
    (st.onEvent P store ev s).2 = match (head.apply ev pk).1 with
      | .error _ => (st.withHead ev.table (head.apply ev pk).2, s)
      | .ok _ =>
        let r := (head.apply ev pk).2.maybeSealOnThreshold P store s
        (st.withHead ev.table r.2.1, r.2.2) := by
  unfold onEvent
  simp only [found, keyed]
  cases head.apply ev pk with
  | mk result head' => cases result <;> rfl

variable (P store) in
theorem onEvent_other (ev : ChangeEvent) (other : ev.table ≠ name) (s : σ) :
    (st.onEvent P store ev s).2.1.heads.get? name = st.heads.get? name := by
  cases found : st.heads.get? ev.table with
  | none => simp only [onEvent, found]
  | some head => cases keyed : st.pkFor.get? ev.table with
    | none => simp only [onEvent, found, keyed]
    | some pk =>
      rw [onEvent_head P store found keyed]
      split <;> exact (get?_withHead st _ _ _).trans (if_neg other)

theorem sealedOf_withHead (head : TableHead Hash) : (st.withHead name head).sealedOf name = head.sealed := by
  simp only [sealedOf, get?_withHead, if_true, Option.elim]

theorem Books.withHead {cmd : Cmd Hash} (other : ∀ refs, cmd ≠ .seedSealed refs) {pk : String}
    {head head' : TableHead Hash} {new : List (SegmentRef Hash)}
    (keyed : st.pkFor.get? name = some pk) (found : st.heads.get? name = some head)
    (grown : head'.sealed = head.sealed ++ new)
    (acc : Accounts P store fits s pk name head' seeded (own ++ new) accepted) :
    Books P store fits s name (st.withHead name head') seeded
      (own ++ sealedBy name cmd st (st.withHead name head')) accepted := by
  have added : sealedBy name cmd st (st.withHead name head') = new := by
    refine sealedBy_append other ?_
    rw [sealedOf_withHead, grown, sealedOf, found, Option.elim]
  rw [added]
  exact ⟨pk, head', keyed, (get?_withHead st _ _ head').trans (if_pos rfl), acc⟩

variable (fits) in
def Fitting (name : String) (st : Streamer Hash) : Cmd Hash → Prop
  | .event ev => ev.table = name → ∀ head, st.heads.get? name = some head →
    fits ev (TableHead.adoptVersion head.active ev.schemaVersion).schemaVersion
  | .seedSealed _ => True
  | .takeSnapshot _ => True

theorem Books.event (h : Books P store fits s name st seeded own accepted) (ev : ChangeEvent)
    (fit : Fitting fits name st (.event ev : Cmd Hash)) :
    Books P store fits (st.onEvent P store ev s).2.2 name (st.onEvent P store ev s).2.1 seeded
      (own ++ sealedBy name (.event ev) st (st.onEvent P store ev s).2.1)
      (accepted ++ accepts st.pkFor name (.event ev : Cmd Hash)) := by
  obtain ⟨_, pkSame, grows, _⟩ := st.onEvent_spec P store ev s
  have kept := h.mono grows
  obtain ⟨pk, head, keyed, found, acc⟩ := h
  by_cases about : ev.table = name
  · subst about
    rw [onEvent_head P store found keyed]
    rcases acc.apply ev (fit rfl head found) with ⟨e, failed, null, same, acc'⟩ | ⟨ok, ⟨key, present, valid⟩, same, acc'⟩
    · have rejected : ¬ hasKey st.pkFor ev.table ev.row = true := by
        rw [hasKey_iff]
        rintro ⟨pk', key, keyed', present, valid⟩
        rw [keyed] at keyed'
        cases keyed'
        exact Bool.false_ne_true (valid.symm.trans (null key present))
      rw [accepts, if_neg (fun both => rejected both.2), List.append_nil]
      simp only [failed]
      have grown : (head.apply ev pk).2.sealed = head.sealed ++ [] := by simp [same]
      exact Books.withHead (by simp) keyed found grown (by simpa using acc')
    · have took : hasKey st.pkFor ev.table ev.row = true :=
        hasKey_iff.mpr ⟨pk, key, keyed, present, valid⟩
      obtain ⟨new, grown, acc''⟩ := acc'.maybeSealOnThreshold
      simp only [ok, accepts, took, and_self, if_true]
      exact Books.withHead (by simp) keyed found (by rw [grown, same]) acc''
  · have untouched : (st.onEvent P store ev s).2.1.heads.get? name = st.heads.get? name :=
      onEvent_other P store ev about s
    have nothing : sealedBy name (.event ev) st (st.onEvent P store ev s).2.1 = [] := by
      refine sealedBy_append (by simp) ?_
      rw [sealedOf, untouched, ← sealedOf, List.append_nil]
    obtain ⟨pk, head, keyed, found, acc⟩ := kept
    refine ⟨pk, head, by rw [pkSame]; exact keyed, untouched.trans found, ?_⟩
    rw [nothing]
    simpa [accepts, about] using acc

/-- Sealing, seen by the books of a head. -/
def Sealed (P : Platform Hash) (store : RawStore Hash σ) (s : σ) (head : TableHead Hash) (s' : σ)
    (head' : TableHead Hash) : Prop :=
  ∀ fits pk name seeds own accepted, Accounts P store fits s pk name head seeds own accepted →
    ∃ new, head'.sealed = head.sealed ++ new ∧
      Accounts P store fits s' pk name head' seeds (own ++ new) accepted

theorem Sealed.same {s' : σ} (grows : Extends store s s') (head : TableHead Hash) :
    Sealed P store s head s' head :=
  fun _ _ _ _ _ _ acc => ⟨[], by simp, by simpa using acc.mono grows⟩

theorem Sealed.trans {s' s'' : σ} {head head' head'' : TableHead Hash}
    (first : Sealed P store s head s' head') (second : Sealed P store s' head' s'' head'') :
    Sealed P store s head s'' head'' := by
  intro fits pk name seeds own accepted acc
  obtain ⟨new, grown, acc'⟩ := first fits pk name seeds own accepted acc
  obtain ⟨more, grown', acc''⟩ := second fits pk name seeds (own ++ new) accepted acc'
  exact ⟨new ++ more, by rw [grown', grown, List.append_assoc], by simpa using acc''⟩

variable (P store) in
theorem sealAll_sealed (heads : List (String × TableHead Hash)) (s : σ) :
    List.Forall₂ (fun e e' => e'.1 = e.1 ∧ Sealed P store s e.2 (sealAll P store heads s).2.2 e'.2)
      heads (sealAll P store heads s).2.1 := by
  induction heads generalizing s with
  | nil => exact .nil
  | cons entry rest ih =>
    obtain ⟨name, head⟩ := entry
    obtain ⟨grows, _⟩ := head.sealIfNonempty_spec P store s
    have first : Sealed P store s head (head.sealIfNonempty P store s).2.2
        (head.sealIfNonempty P store s).2.1 := fun _ _ _ _ _ _ acc => acc.sealIfNonempty
    unfold sealAll
    cases done : head.sealIfNonempty P store s with
    | mk result after =>
      obtain ⟨head', s'⟩ := after
      rw [done] at grows first
      cases result with
      | error e =>
        refine .cons ⟨rfl, first⟩ (List.forall₂_same.mpr (fun e' _ => ⟨rfl, .same grows e'.2⟩))
      | ok o =>
        have further := (sealAll_spec P store rest s').1
        refine .cons ⟨rfl, first.trans (.same further head')⟩ ((ih s').imp ?_)
        rintro e e' ⟨same, sealed⟩
        exact ⟨same, (Sealed.same grows e.2).trans sealed⟩

theorem Books.snapshot (h : Books P store fits s name st seeded own accepted) (schemaVersion : String) :
    let r := st.onSnapshot P store schemaVersion s
    Books P store fits r.2.2 name r.2.1 seeded
      (own ++ sealedBy name (.takeSnapshot schemaVersion) st r.2.1) accepted := by
  intro r
  obtain ⟨pk, head, keyed, found, acc⟩ := h
  have sealed : List.Forall₂ (fun e e' => e'.1 = e.1 ∧ Sealed P store s e.2 r.2.2 e'.2)
      st.heads.entries r.2.1.heads.entries := sealAll_sealed P store st.heads.entries s
  have each := BTreeMap.get?_rel (R := fun head head' => Sealed P store s head r.2.2 head')
    sealed name
  rw [found] at each
  generalize present : r.2.1.heads.get? name = after at each
  cases each with
  | some sealed =>
    rename_i head'
    obtain ⟨new, grown, acc'⟩ := sealed fits pk name seeded own accepted acc
    have added : sealedBy name (.takeSnapshot schemaVersion) st r.2.1 = new := by
      refine sealedBy_append (by simp) ?_
      simp only [sealedOf, present, found, Option.elim, grown]
    rw [added]
    exact ⟨pk, head', keyed, present, acc'⟩

theorem Books.seedOne (h : Books P store fits s name st seeded own accepted) (r : SegmentRef Hash) :
    (st.seedOne r).pkFor = st.pkFor ∧ Books P store fits s name (st.seedOne r)
      (seeded ++ [r].filter (fun r => r.table = name)) own accepted := by
  obtain ⟨pk, head, keyed, found, acc⟩ := h
  rcases st.seedOne_cases r with ⟨absent, same⟩ | ⟨other, held, grown⟩
  · rw [same]
    refine ⟨rfl, pk, head, keyed, found, ?_⟩
    have elsewhere : r.table ≠ name := by
      rintro rfl
      rw [absent] at found
      cases found
    simpa [elsewhere] using acc
  · rw [grown]
    refine ⟨rfl, ?_⟩
    by_cases here : r.table = name
    · subst here
      rw [found] at held
      cases held
      refine ⟨pk, _, keyed, (get?_withHead st _ _ _).trans (if_pos rfl), ?_⟩
      simpa using acc.seed [r]
    · refine ⟨pk, head, keyed, (get?_withHead st _ _ _).trans ((if_neg here).trans found), ?_⟩
      simpa [here] using acc

theorem Books.seed (h : Books P store fits s name st seeded own accepted)
    (refs : List (SegmentRef Hash)) :
    (refs.foldl Streamer.seedOne st).pkFor = st.pkFor ∧
      Books P store fits s name (refs.foldl Streamer.seedOne st)
        (seeded ++ refs.filter (fun r => r.table = name)) own accepted := by
  induction refs generalizing st seeded with
  | nil => exact ⟨rfl, by simpa using h⟩
  | cons r refs ih =>
    obtain ⟨pk, first⟩ := h.seedOne r
    obtain ⟨pk', rest⟩ := ih first
    refine ⟨pk'.trans pk, ?_⟩
    rw [List.append_assoc, ← List.filter_append] at rest
    exact rest

theorem Books.step (h : Books P store fits s name st seeded own accepted) (cmd : Cmd Hash)
    (fit : Fitting fits name st cmd) :
    let r := st.step P store cmd s
    r.2.1.pkFor = st.pkFor ∧ Books P store fits r.2.2 name r.2.1 (seeded ++ seeds name cmd)
      (own ++ sealedBy name cmd st r.2.1) (accepted ++ accepts st.pkFor name cmd) := by
  cases cmd with
  | event ev =>
    refine ⟨(st.onEvent_spec P store ev s).2.1, ?_⟩
    rw [seeds, List.append_nil]
    exact h.event ev fit
  | seedSealed refs =>
    obtain ⟨pk, books⟩ := h.seed refs
    refine ⟨pk, ?_⟩
    rw [sealedBy, accepts, List.append_nil, List.append_nil]
    exact books
  | takeSnapshot schemaVersion =>
    refine ⟨rfl, ?_⟩
    rw [seeds, accepts, List.append_nil, List.append_nil]
    exact h.snapshot schemaVersion

theorem Fitting.of_free (free : ∀ ev version, fits ev version) (name : String) (st : Streamer Hash)
    (cmd : Cmd Hash) : Fitting fits name st cmd := by
  cases cmd with
  | event ev => exact fun _ _ _ => free ev _
  | seedSealed refs => trivial
  | takeSnapshot schemaVersion => trivial

theorem Books.run (h : Books P store fits s name st seeded own accepted) (cmds : List (Cmd Hash))
    (free : ∀ ev version, fits ev version) :
    let r := run P store cmds st s
    r.2.1.pkFor = st.pkFor ∧ Books P store fits r.2.2 name r.2.1 (seeded ++ seededRefs name cmds)
      (own ++ ownRefs P store name cmds st s) (accepted ++ acceptedOf st.pkFor name cmds) := by
  induction cmds generalizing st s seeded own accepted with
  | nil =>
    refine ⟨rfl, ?_⟩
    rw [seededRefs, ownRefs, acceptedOf, List.flatMap_nil, List.flatMap_nil, List.append_nil,
      List.append_nil, List.append_nil]
    exact h
  | cons cmd cmds ih =>
    obtain ⟨pk, first⟩ := h.step cmd (Fitting.of_free free name st cmd)
    obtain ⟨pk', rest⟩ := ih first
    refine ⟨pk'.trans pk, ?_⟩
    rw [pk, List.append_assoc, List.append_assoc, List.append_assoc] at rest
    exact rest

end

variable (P store fits) in
theorem Books.spawned {tables : List TrackedTable} (threshold : Nat) (version : String) (s : σ)
    {t : TrackedTable} (mem : t ∈ tables) :
    Books P store fits s t.name (spawn tables threshold version) [] [] [] := by
  have keyed : ((spawn tables threshold version : Streamer Hash).pkFor.get? t.name).isSome := by
    refine (BTreeMap.get?_ofList_isSome _ _).mpr ?_
    rw [List.map_map]
    exact List.mem_map.mpr ⟨t, mem, rfl⟩
  have present : ((spawn tables threshold version : Streamer Hash).heads.get? t.name).isSome := by
    refine (BTreeMap.get?_ofList_isSome _ _).mpr ?_
    rw [List.map_map]
    exact List.mem_map.mpr ⟨t, mem, rfl⟩
  obtain ⟨pk, keyed⟩ := Option.isSome_iff_exists.mp keyed
  obtain ⟨head, found⟩ := Option.isSome_iff_exists.mp present
  refine ⟨pk, head, keyed, found, ?_⟩
  rw [spawn_head found]
  exact .spawned threshold version

end Streamer

section

variable (P : Platform Hash) (store : RawStore Hash σ)

/-- The count of a ref is the number of rows of its segment, where that fits in a word. -/
def CountsRows (s : σ) (r : SegmentRef Hash) : Prop :=
  ∃ segment, Restore.loadSegment P store s r.segment = .ok segment ∧
    (segment.rows.length < UInt64.size → r.rowCount.toNat = segment.rows.length)

/-- Nothing is missing and nothing is there twice. -/
structure Balanced (s : σ) (head : TableHead Hash) (seeds own : List (SegmentRef Hash))
    (accepted : List ChangeEvent) : Prop where
  sealed : Interleaved seeds own head.sealed
  rows : own.flatMap (rowsOf P store s) ++ head.active.rows = accepted.map ChangeEvent.envelope
  counts : ∀ r ∈ own, CountsRows P store s r
  seedCounts : (∀ r ∈ seeds, CountsRows P store s r) → ∀ r ∈ head.sealed, CountsRows P store s r

end

theorem SealedAs.rows {s : σ} {pk name : String} {r : SegmentRef Hash} {chunk : List ChangeEvent}
    {segment : Segment} (h : SealedAs P store fits s pk name r chunk segment) :
    rowsOf P store s r = chunk.map ChangeEvent.envelope := by
  simp only [rowsOf, h.loaded, h.holds.rows]

theorem SealedAs.counts {s : σ} {pk name : String} {r : SegmentRef Hash} {chunk : List ChangeEvent}
    {segment : Segment} (h : SealedAs P store fits s pk name r chunk segment) :
    CountsRows P store s r := by
  refine ⟨segment, h.loaded, fun small => ?_⟩
  have size : segment.rows.length = chunk.length := by rw [h.holds.rows, List.length_map]
  rw [h.rowCount, h.holds.rowCount, size]
  exact UInt64.toNat_ofNat_of_lt (size ▸ small)

section

variable {s : σ} {pk name : String} {own : List (SegmentRef Hash)} {chunks : List (List ChangeEvent)}

theorem rows_of_chunks
    (sealed : List.Forall₂ (fun r chunk => ∃ segment, SealedAs P store fits s pk name r chunk segment)
      own chunks) :
    own.flatMap (rowsOf P store s) = chunks.flatten.map ChangeEvent.envelope := by
  induction sealed with
  | nil => rfl
  | cons stored _ ih =>
    obtain ⟨segment, stored⟩ := stored
    rw [List.flatMap_cons, List.flatten_cons, List.map_append, stored.rows, ih]

theorem counts_of_chunks
    (sealed : List.Forall₂ (fun r chunk => ∃ segment, SealedAs P store fits s pk name r chunk segment)
      own chunks) : ∀ r ∈ own, CountsRows P store s r := by
  induction sealed with
  | nil => simp
  | cons stored _ ih =>
    obtain ⟨segment, stored⟩ := stored
    exact List.forall_mem_cons.mpr ⟨stored.counts, ih⟩

theorem Accounts.balanced {head : TableHead Hash} {seeds : List (SegmentRef Hash)}
    {accepted : List ChangeEvent} (h : Accounts P store fits s pk name head seeds own accepted) :
    Balanced P store s head seeds own accepted := by
  obtain ⟨chunks, rest, split, active, sealed⟩ := h.chunks
  have counts := counts_of_chunks sealed
  refine ⟨h.sealed, ?_, counts, ?_⟩
  · rw [rows_of_chunks sealed, active.rows, split, List.map_append]
  · intro seeded r hr
    rcases List.mem_append.mp (h.sealed.all.mem_iff.mp hr) with hr | hr
    · exact seeded r hr
    · exact counts r hr

end

namespace Streamer

variable (P store)

theorem run_append (cmds cmds' : List (Cmd Hash)) (st : Streamer Hash) (s : σ) :
    (run P store (cmds ++ cmds') st s).2 =
      (run P store cmds' (run P store cmds st s).2.1 (run P store cmds st s).2.2).2 := by
  induction cmds generalizing st s with
  | nil => rfl
  | cons cmd cmds ih => exact ih _ _

theorem onSnapshot_lists {st : Streamer Hash} (named : Named st) {s : σ} {schemaVersion : String}
    {m : SegmentManifest Hash} (ok : (st.onSnapshot P store schemaVersion s).1 = .snapshot (.ok m))
    (name : String) :
    (m.entries.filter (fun r => r.table = name)).Perm
      ((st.onSnapshot P store schemaVersion s).2.1.sealedOf name) := by
  have named' := onSnapshot_named P store named schemaVersion s
  obtain ⟨_, _, _, manifest⟩ := st.onSnapshot_forall₂ P store schemaVersion s
  have entries := congrArg SegmentManifest.entries (manifest m ok)
  rw [manifestOf, SegmentManifest.foldl_push] at entries
  rw [entries, ← sealed_filter named' name]
  exact (Arrange.arrange_perm _ _).filter _

/-- The books of a table balance after a run, and a snapshot that succeeds next lists the
seeds and all accepted events. -/
def RunBalanced (tables : List TrackedTable) (threshold : Nat) (version : String)
    (cmds : List (Cmd Hash)) (s : σ) (name : String) : Prop :=
  let start : Streamer Hash := spawn tables threshold version
  let r := run P store cmds start s
  let seeds := seededRefs name cmds
  let accepted := acceptedOf start.pkFor name cmds
  (∃ head, r.2.1.heads.get? name = some head ∧
    Balanced P store r.2.2 head seeds (ownRefs P store name cmds start s) accepted) ∧
  ∀ schemaVersion m, (r.2.1.onSnapshot P store schemaVersion r.2.2).1 = .snapshot (.ok m) →
    let own := ownRefs P store name (cmds ++ [.takeSnapshot schemaVersion]) start s
    let after := (r.2.1.onSnapshot P store schemaVersion r.2.2).2.2
    (m.entries.filter (fun e => e.table = name)).Perm (seeds ++ own) ∧
      own.flatMap (rowsOf P store after) = accepted.map ChangeEvent.envelope

/-- Whatever commands a streamer gets, wherever segments are sealed and whenever its store
fails, in the middle of a snapshot or not, the books of every tracked table balance. -/
theorem run_balanced (tables : List TrackedTable) (threshold : Nat) (version : String)
    (cmds : List (Cmd Hash)) (s : σ) {t : TrackedTable} (mem : t ∈ tables) :
    RunBalanced P store tables threshold version cmds s t.name := by
  unfold RunBalanced
  intro start r seeds accepted
  have spawned := Books.spawned P store (fun _ _ => True) threshold version s mem
  have free : ∀ (ev : ChangeEvent) (version : String), True := fun _ _ => trivial
  refine ⟨?_, ?_⟩
  · obtain ⟨_, pk, head, _, found, acc⟩ := spawned.run cmds free
    exact ⟨head, found, acc.balanced⟩
  · intro schemaVersion m ok own after
    have last : (run P store (cmds ++ [.takeSnapshot schemaVersion]) start s).2 =
        (r.2.1.onSnapshot P store schemaVersion r.2.2).2 := run_append P store cmds _ start s
    obtain ⟨_, pk, head, _, found, acc⟩ := spawned.run (cmds ++ [.takeSnapshot schemaVersion]) free
    rw [last] at found acc
    have sameSeeds : seededRefs t.name (cmds ++ [.takeSnapshot schemaVersion]) = seeds := by
      simp [seeds, seededRefs, Streamer.seeds]
    have sameEvents : acceptedOf start.pkFor t.name (cmds ++ [.takeSnapshot schemaVersion]) =
        accepted := by
      simp [accepted, acceptedOf, accepts]
    rw [sameSeeds, sameEvents, List.nil_append, List.nil_append, List.nil_append] at acc
    have balanced := acc.balanced
    have named : Named r.2.1 := run_named P store (spawn_named tables threshold version) cmds s
    refine ⟨?_, ?_⟩
    · refine (onSnapshot_lists P store named ok t.name).trans ?_
      rw [sealedOf, found, Option.elim]
      exact balanced.sealed.all
    · rcases r.2.1.onSnapshot_head P store schemaVersion r.2.2 t.name with
        ⟨_, absent⟩ | ⟨_, head', _, present, _, empty⟩
      · rw [absent] at found
        cases found
      · rw [present] at found
        cases found
        have rows := balanced.rows
        rw [empty ⟨m, ok⟩, List.append_nil] at rows
        exact rows

theorem run_balanced_episode :
    RunBalanced Platform.sample RawStore.identity [episodes] 100 "1"
      [.event (episodeEvent .insert 1 "a"), .takeSnapshot "1", .event (episodeEvent .delete 1 "a")]
      () episodes.name :=
  run_balanced Platform.sample RawStore.identity [episodes] 100 "1" _ () List.mem_cons_self

end Streamer

end

end GitAgentic
