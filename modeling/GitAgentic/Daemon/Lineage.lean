import GitAgentic.Daemon.CrashSafety
import GitAgentic.Data.Descent

/-! Histories only grow. However often the daemon is killed, what a branch once led to it
leads to for ever, and what could be read can be read. -/

namespace GitAgentic

variable {Hash M : Type} [DecidableEq Hash] {P : Platform Hash}

/-- The first is a stored commit on top of the second. -/
def OnTop (P : Platform Hash) (files : Files) (child parent : Hash) : Prop :=
  ∃ c, Has P files child (.commit c) ∧ c.parent = some parent

theorem OnTop.mono {files files' : Files} (more : Widens P files files') {child parent : Hash}
    (h : OnTop P files child parent) : OnTop P files' child parent := by
  obtain ⟨c, has, top⟩ := h
  exact ⟨c, has.mono more, top⟩

theorem walkLog_cons {files : Files} {h : Hash} {c : Commit Hash} {limit : ℕ} {older : List (Hash × Commit Hash)}
    (has : Has P files h (.commit c)) (rest : walkLog P files limit c.parent = .ok older) :
    walkLog P files (limit + 1) (some h) = .ok ((h, c) :: older) := by
  have found : get P files h = .ok (.commit c) := has
  rw [walkLog]
  simp only [found, bind, Except.bind, rest]
  rfl

theorem Whole.walkLog {files : Files} {h : Hash} (whole : Whole P files h) (limit : ℕ) :
    ∃ log, walkLog P files limit (some h) = .ok log := by
  induction whole generalizing limit with
  | first has _ root =>
    cases limit with
    | zero => exact ⟨[], rfl⟩
    | succ limit =>
      have nothing : GitAgentic.walkLog P files limit none = .ok [] := by cases limit <;> rfl
      exact ⟨_, walkLog_cons has (root ▸ nothing)⟩
  | next has _ top _ ih =>
    cases limit with
    | zero => exact ⟨[], rfl⟩
    | succ limit =>
      obtain ⟨older, walked⟩ := ih limit
      exact ⟨_, walkLog_cons has (top ▸ walked)⟩

theorem walkLog_mono {files files' : Files} (more : Widens P files files') {limit : ℕ} {start : Option Hash}
    {log : List (Hash × Commit Hash)} (walked : walkLog P files limit start = .ok log) :
    walkLog P files' limit start = .ok log := by
  induction limit generalizing start log with
  | zero => exact walked
  | succ limit ih =>
    cases start with
    | none => exact walked
    | some h =>
      unfold walkLog at walked ⊢
      cases found : get P files h with
      | error e =>
        rw [found] at walked
        cases walked
      | ok o =>
        have later : get P files' h = .ok o := Has.mono found more
        rw [found] at walked
        rw [later]
        cases o with
        | blob b => cases walked
        | tree t => cases walked
        | commit c =>
          cases rest : walkLog P files limit c.parent with
          | error e =>
            have failed : (Except.error e : Except (Error Hash) _) = .ok log := by
              rw [← walked]
              simp only [bind, Except.bind, rest]
            cases failed
          | ok older =>
            have whole : (Except.ok ((h, c) :: older) : Except (Error Hash) _) = .ok log := by
              rw [← walked]
              simp only [bind, Except.bind, rest]
              rfl
            simp only [bind, Except.bind, ih rest]
            exact whole

theorem walkLog_descendant {files : Files} {newest start : Hash}
    (line : Relation.ReflTransGen (OnTop P files) newest start) :
    ∃ newer, ∀ limit log, walkLog P files limit (some start) = .ok log →
      walkLog P files (newer.length + limit) (some newest) = .ok (newer ++ log) := by
  induction line using Relation.ReflTransGen.head_induction_on with
  | refl => exact ⟨[], fun limit log walked => by simpa using walked⟩
  | @head h parent step _ ih =>
    obtain ⟨newer, rest⟩ := ih
    obtain ⟨c, has, top⟩ := step
    refine ⟨(h, c) :: newer, fun limit log walked => ?_⟩
    have more : ((h, c) :: newer).length + limit = newer.length + limit + 1 := by
      rw [List.length_cons]
      omega
    rw [more]
    exact walkLog_cons has (top ▸ rest limit log walked)

theorem Landed.descends {w : String → Option Hash} {d d' : Daemon M} {branch : String}
    {inputs : CommitInputs Hash} {now : Int} (landed : Landed False P w d d' branch inputs now) :
    Descends (OnTop P d'.repo.objects) w
      (Function.update w branch (some ((Object.commit (inputs.commit P now)).hash P))) := by
  refine Descends.update w (fun parent at_ => ⟨inputs.commit P now, landed.has, ?_⟩)
  exact (landed.current id).trans at_

namespace Daemon

section

variable (P) (hmac : Hmac) (config : DaemonConfig Hash M)

/-- The daemon is killed after any number of the steps of an operation, and started anew.
Between the operations the backend stores segments, and the working directory and the backend's
state change at will. -/
inductive Lived (d₀ : Daemon M) : Daemon M → Prop where
  | opened : Lived d₀ d₀
  | operated {d} (o : Operation Hash) (n : ℕ) : Lived d₀ d → o.Plain P →
      Lived d₀ ((o.program P hmac config).after n d)
  | sealed {d} (b : AdapterProgram Hash M Unit) (n : ℕ) : Lived d₀ d →
      Lived d₀ ((b.toProgram P config.store).after n d)
  | changed {d} (work : FileTree Bytes) (memory : M) : Lived d₀ d → Lived d₀ { d with work, memory }

end

variable {hmac : Hmac} {config : DaemonConfig Hash M}

/-- What one life of the daemon does to a repository: objects are added, heads go to descendants. -/
structure Onwards (P : Platform Hash) (w : String → Option Hash) (d : Daemon M) (w' : String → Option Hash)
    (d' : Daemon M) : Prop where
  intact : Intact P w' d'
  widens : Widens P d.repo.objects d'.repo.objects
  descends : Descends (OnTop P d'.repo.objects) w w'

theorem Onwards.refl {w : String → Option Hash} {d : Daemon M} (intact : Intact P w d) : Onwards P w d w d :=
  ⟨intact, Widens.refl _, Descends.refl w⟩

theorem Onwards.trans {w w' w'' : String → Option Hash} {d d' d'' : Daemon M} (first : Onwards P w d w' d')
    (second : Onwards P w' d' w'' d'') : Onwards P w d w'' d'' where
  intact := second.intact
  widens := first.widens.trans second.widens
  descends := (first.descends.mono (fun _ _ => OnTop.mono second.widens)).trans second.descends

theorem Onwards.of_progress {w : String → Option Hash} {d d' : Daemon M} (intact : Intact P w d)
    (progress : Progress False P w d d') : ∃ w', Onwards P w d w' d' := by
  rcases progress with untouched | ⟨branch, inputs, now, landed⟩
  · exact ⟨w, intact.untouched untouched, untouched.kept.widens, Descends.refl w⟩
  · exact ⟨_, landed.intact intact, landed.kept.widens, landed.descends⟩

theorem Lived.onwards {w : String → Option Hash} {d₀ d : Daemon M} (intact : Intact P w d₀)
    (lived : Lived P hmac config d₀ d) : ∃ w', Onwards P w d₀ w' d := by
  induction lived with
  | opened => exact ⟨w, .refl intact⟩
  | @operated d o n _ plain ih =>
    obtain ⟨w₁, before⟩ := ih
    have progress : Progress False P w₁ d ((o.program P hmac config).after n d) := by
      refine Program.Safe.after (Operation.safe before.intact o plain) ?_ n
      rintro (e | u) d' ended
      · exact Or.inl ended
      · exact ended
    obtain ⟨w₂, step⟩ := Onwards.of_progress before.intact progress
    exact ⟨w₂, before.trans step⟩
  | @sealed d b n _ ih =>
    obtain ⟨w₁, before⟩ := ih
    have ahead : Ahead P d ((b.toProgram P config.store).after n d) := by
      have added : (b.toProgram P config.store).Safe False (Ahead P d) _ d := Adds.toProgram b before.intact.typed
      exact Program.Safe.after added (fun _ _ ended => ended.1) n
    exact ⟨w₁, before.trans ⟨before.intact.ahead ahead, ahead.kept.widens, Descends.refl w₁⟩⟩
  | changed work memory _ ih =>
    obtain ⟨w₁, before⟩ := ih
    exact ⟨w₁, ⟨before.intact.typed, before.intact.refs, before.intact.whole⟩, before.widens, before.descends⟩

/-- Nothing is lost. Every object that could be read can be read later, and the log of a branch
goes on below the commits that have been added as it was. -/
theorem history_only_grows {d₀ d₁ d₂ : Daemon M} (bare : Bare d₀) (before : Lived P hmac config d₀ d₁)
    (after : Lived P hmac config d₁ d₂) :
    (∀ hash o, Has P d₁.repo.objects hash o → Has P d₂.repo.objects hash o) ∧
      (∀ hash bytes, HasRaw P d₁.repo.objects hash bytes → HasRaw P d₂.repo.objects hash bytes) ∧
      ∃ w₁ w₂, Refs.Serves P w₁ d₁.repo.agentic ∧ Refs.Serves P w₂ d₂.repo.agentic ∧
        ∀ branch start, w₁ branch = some start → ∃ newest newer, w₂ branch = some newest ∧
          ∀ limit, ∃ log, walkLog P d₁.repo.objects limit (some start) = .ok log ∧
            walkLog P d₂.repo.objects (newer.length + limit) (some newest) = .ok (newer ++ log) := by
  obtain ⟨w₁, first⟩ := before.onwards bare.intact
  obtain ⟨w₂, second⟩ := after.onwards first.intact
  refine ⟨fun _ _ has => has.mono second.widens, fun _ _ has => has.mono second.widens,
    w₁, w₂, first.intact.refs.serves, second.intact.refs.serves, ?_⟩
  intro branch start at_
  obtain ⟨newest, now, line⟩ := second.descends branch start at_
  obtain ⟨newer, longer⟩ := walkLog_descendant line
  refine ⟨newest, newer, now, fun limit => ?_⟩
  obtain ⟨log, walked⟩ := (first.intact.whole branch start at_).walkLog limit
  exact ⟨log, walked, longer limit log (walkLog_mono second.widens walked)⟩

/-- The daemon commits, is killed at the seventh step of the next commit, and starts anew. -/
theorem history_only_grows_hello :
    let commit := (helloOperation.program Platform.sample (fun _ m => m) quiet)
    let d₁ := commit.after 100 start
    ∃ w₁ w₂, Refs.Serves Platform.sample w₁ d₁.repo.agentic ∧
      Refs.Serves Platform.sample w₂ (commit.after 7 d₁).repo.agentic ∧
      ∀ branch tip, w₁ branch = some tip → (w₂ branch).isSome = true := by
  intro commit d₁
  have bare : Bare start := ⟨fun _ => rfl, Refs.opened_fresh⟩
  have first : Lived Platform.sample (fun _ m => m) quiet start d₁ :=
    Lived.operated helloOperation 100 .opened hello_plain
  have second : Lived Platform.sample (fun _ m => m) quiet d₁ (commit.after 7 d₁) :=
    Lived.operated helloOperation 7 .opened hello_plain
  obtain ⟨_, _, w₁, w₂, serves₁, serves₂, grows⟩ := history_only_grows bare first second
  refine ⟨w₁, w₂, serves₁, serves₂, ?_⟩
  intro branch tip at_
  obtain ⟨newest, _, now, _⟩ := grows branch tip at_
  rw [now]
  rfl

end Daemon

end GitAgentic
