import Mathlib

/-! Programs over a shared state, one primitive operation at a time. Between any two
operations the program may be stopped, and any operation may fail. -/

inductive Program (σ ε α : Type) where
  | done (result : Except ε α)
  | op (act : σ → σ) (next : σ → Program σ ε α) (fault : Program σ ε α)

namespace Program

variable {σ τ ε δ α β γ : Type}

def bind : Program σ ε α → (α → Program σ ε β) → Program σ ε β
  | done (.ok a), k => k a
  | done (.error e), _ => done (.error e)
  | op act next fault, k => op act (fun s => (next s).bind k) (fault.bind k)

instance : Monad (Program σ ε) where
  pure a := done (.ok a)
  bind := bind

/-- One operation. Where it fails by itself, it says so and says what is left. -/
def call (f : σ → Except ε α × σ) (fault : ε) : Program σ ε α :=
  op (fun s => (f s).2) (fun s => done (f s).1) (done (.error fault))

def read (f : σ → Except ε α) (fault : ε) : Program σ ε α := call (fun s => (f s, s)) fault

def fail (e : ε) : Program σ ε α := done (.error e)

def ofExcept (r : Except ε α) : Program σ ε α := done r

def attempt : Program σ ε α → Program σ δ (Except ε α)
  | done r => done (.ok r)
  | op act next fault => op act (fun s => (next s).attempt) fault.attempt

def mapError (f : ε → δ) : Program σ ε α → Program σ δ α
  | done r => done (r.mapError f)
  | op act next fault => op act (fun s => (next s).mapError f) (fault.mapError f)

def focus (get : σ → τ) (set : τ → σ → σ) : Program τ ε α → Program σ ε α
  | done r => done r
  | op act next fault =>
    op (fun s => set (act (get s)) s) (fun s => (next (get s)).focus get set) (fault.focus get set)

def forEach (f : β → Program σ ε Unit) : List β → Program σ ε Unit
  | [] => done (.ok ())
  | b :: bs => (f b).bind (fun _ => forEach f bs)

/-- Left alone, from start to end. -/
def run : Program σ ε α → σ → Except ε α × σ
  | done r, s => (r, s)
  | op act next _, s => (next s).run (act s)

/-- Left alone and stopped after so many operations. -/
def after : Program σ ε α → Nat → σ → σ
  | op act next _, n + 1, s => (next s).after n (act s)
  | _, _, s => s

/-- How many operations it carries out when left alone. -/
def ops : Program σ ε α → σ → Nat
  | done _, _ => 0
  | op act next _, s => (next s).ops (act s) + 1

def result? : Program σ ε α → Option (Except ε α)
  | done r => some r
  | op .. => none

/-- The next operation is carried out, or it fails and changes nothing. -/
inductive Step : Program σ ε α × σ → Program σ ε α × σ → Prop where
  | acts (act : σ → σ) (next : σ → Program σ ε α) (fault : Program σ ε α) (s : σ) :
      Step (op act next fault, s) (next s, act s)
  | fails (act : σ → σ) (next : σ → Program σ ε α) (fault : Program σ ε α) (s : σ) :
      Step (op act next fault, s) (fault, s)

def Reaches : Program σ ε α × σ → Program σ ε α × σ → Prop := Relation.ReflTransGen Step

/-- However its operations go, the invariant holds whenever the program may be stopped,
and the postcondition when it has ended. Failures count only where there are faults. -/
def Safe (faults : Prop) (inv : σ → Prop) (post : Except ε α → σ → Prop) :
    Program σ ε α → σ → Prop
  | done r, s => post r s
  | op act next fault, s =>
    inv s ∧ (next s).Safe faults inv post (act s) ∧ (faults → fault.Safe faults inv post s)

/-- No operation changes the state. -/
def Still : Program σ ε α → Prop
  | done _ => True
  | op act next fault => act = id ∧ (∀ s, (next s).Still) ∧ fault.Still

section

@[simp] theorem run_done (r : Except ε α) (s : σ) : (done r : Program σ ε α).run s = (r, s) := rfl

@[simp] theorem run_call (f : σ → Except ε α × σ) (fault : ε) (s : σ) :
    (call f fault).run s = f s := rfl

@[simp] theorem run_read (f : σ → Except ε α) (fault : ε) (s : σ) :
    (read f fault).run s = (f s, s) := rfl

theorem run_bind (p : Program σ ε α) (k : α → Program σ ε β) (s : σ) :
    (p.bind k).run s = match p.run s with
      | (.ok a, s') => (k a).run s'
      | (.error e, s') => (.error e, s') := by
  induction p generalizing s with
  | done r => cases r <;> rfl
  | op act next fault ih _ => exact ih s (act s)

theorem run_bind_eq_ok_iff {p : Program σ ε α} {k : α → Program σ ε β} {s s' : σ} {b : β} :
    (p.bind k).run s = (.ok b, s') ↔
      ∃ a s₁, p.run s = (.ok a, s₁) ∧ (k a).run s₁ = (.ok b, s') := by
  rw [run_bind]
  obtain ⟨outcome, s₁⟩ := p.run s
  cases outcome with
  | error e => simp
  | ok a => simp

theorem run_bind_of_ok {p : Program σ ε α} {k : α → Program σ ε β} {s s' : σ} {a : α}
    (first : p.run s = (.ok a, s')) : (p.bind k).run s = (k a).run s' := by
  rw [run_bind, first]

theorem ofExcept_ok_bind (a : α) (k : α → Program σ ε β) : (ofExcept (.ok a) >>= k) = k a := rfl

theorem run_bind_of_error {p : Program σ ε α} {k : α → Program σ ε β} {s : σ} {e : ε}
    (first : (p.run s).1 = .error e) : ((p.bind k).run s).1 = .error e := by
  rw [run_bind]
  rcases ran : p.run s with ⟨outcome, s'⟩
  rw [ran] at first
  rw [show outcome = .error e from first]

theorem run_mapError_eq_ok_iff {p : Program σ ε α} {f : ε → δ} {s s' : σ} {a : α} :
    (p.mapError f).run s = (.ok a, s') ↔ p.run s = (.ok a, s') := by
  induction p generalizing s with
  | done r =>
    cases r with
    | error e => simp [mapError, run, Except.mapError]
    | ok b => simp [mapError, run, Except.mapError]
  | op act next fault ih _ => exact ih s

@[simp] theorem after_zero (p : Program σ ε α) (s : σ) : p.after 0 s = s := by
  cases p <;> rfl

@[simp] theorem after_done (r : Except ε α) (n : Nat) (s : σ) :
    (done r : Program σ ε α).after n s = s := rfl

theorem after_call (f : σ → Except ε α × σ) (fault : ε) (n : Nat) (s : σ) :
    (call f fault).after n s = s ∨ (call f fault).after n s = (f s).2 := by
  cases n with
  | zero => exact Or.inl rfl
  | succ n => exact Or.inr rfl

theorem after_bind (p : Program σ ε α) (k : α → Program σ ε β) (n : Nat) (s : σ) :
    (∃ m, (p.bind k).after n s = p.after m s) ∨
      ∃ a s₁ m, p.run s = (.ok a, s₁) ∧ (p.bind k).after n s = (k a).after m s₁ := by
  induction p generalizing n s with
  | done r =>
    cases r with
    | error e => exact Or.inl ⟨0, rfl⟩
    | ok a => exact Or.inr ⟨a, s, n, rfl, rfl⟩
  | op act next fault ih _ =>
    cases n with
    | zero => exact Or.inl ⟨0, rfl⟩
    | succ n =>
      rcases ih s n (act s) with ⟨m, same⟩ | later
      · exact Or.inl ⟨m + 1, same⟩
      · exact Or.inr later

theorem after_focus {get : σ → τ} {set : τ → σ → σ} (lens : ∀ t s, get (set t s) = t)
    (again : ∀ t t' s, set t (set t' s) = set t s) (same : ∀ s, set (get s) s = s)
    (p : Program τ ε α) (n : Nat) (s : σ) :
    (p.focus get set).after n s = set (p.after n (get s)) s := by
  induction p generalizing n s with
  | done r => exact (same s).symm
  | op act next fault ih _ =>
    cases n with
    | zero => exact (same s).symm
    | succ n =>
      refine (ih (get s) n _).trans ?_
      rw [lens, again]
      rfl

theorem bind_assoc (p : Program σ ε α) (f : α → Program σ ε β) (g : β → Program σ ε γ) :
    (p.bind f).bind g = p.bind (fun a => (f a).bind g) := by
  induction p with
  | done r => cases r <;> rfl
  | op act next fault ih ihFault =>
    show op act _ _ = op act _ _
    rw [ihFault]
    exact congrArg (op act · _) (funext ih)

theorem bind_done (p : Program σ ε α) : p.bind (fun a => done (.ok a)) = p := by
  induction p with
  | done r => cases r <;> rfl
  | op act next fault ih ihFault =>
    show op act _ _ = op act _ _
    rw [ihFault]
    exact congrArg (op act · _) (funext ih)

@[simp] theorem run_attempt (p : Program σ ε α) (s : σ) :
    (p.attempt : Program σ δ (Except ε α)).run s = (.ok (p.run s).1, (p.run s).2) := by
  induction p generalizing s with
  | done r => rfl
  | op act next fault ih _ => exact ih s (act s)

@[simp] theorem run_mapError (p : Program σ ε α) (f : ε → δ) (s : σ) :
    (p.mapError f).run s = ((p.run s).1.mapError f, (p.run s).2) := by
  induction p generalizing s with
  | done r => rfl
  | op act next fault ih _ => exact ih s (act s)

theorem run_focus {get : σ → τ} {set : τ → σ → σ} (lens : ∀ t s, get (set t s) = t)
    (again : ∀ t t' s, set t (set t' s) = set t s) (same : ∀ s, set (get s) s = s)
    (p : Program τ ε α) (s : σ) :
    (p.focus get set).run s = ((p.run (get s)).1, set (p.run (get s)).2 s) := by
  induction p generalizing s with
  | done r => simp [focus, run, same]
  | op act next fault ih _ =>
    refine (ih (get s) _).trans ?_
    simp only [lens, again]
    rfl

end

section

variable {faults : Prop} {inv inv' : σ → Prop} {post post' : Except ε α → σ → Prop}

theorem Safe.step {p p' : Program σ ε α} {s s' : σ} (safe : p.Safe True inv post s)
    (step : Step (p, s) (p', s')) : p'.Safe True inv post s' := by
  cases step with
  | acts act next fault => exact safe.2.1
  | fails act next fault => exact safe.2.2 trivial

theorem Safe.reaches {p p' : Program σ ε α} {s s' : σ} (safe : p.Safe True inv post s)
    (reaches : Reaches (p, s) (p', s')) : p'.Safe True inv post s' := by
  generalize start : (p, s) = c at reaches
  generalize stop : (p', s') = c' at reaches
  induction reaches generalizing p' s' with
  | refl =>
    cases start
    cases stop
    exact safe
  | tail _ step ih =>
    subst stop
    have before := ih rfl
    exact before.step step

theorem Safe.stopped {p p' : Program σ ε α} {s s' : σ} (safe : p.Safe True inv post s)
    (reaches : Reaches (p, s) (p', s')) :
    match p'.result? with
    | some r => post r s'
    | none => inv s' := by
  have there := safe.reaches reaches
  cases p' with
  | done r => exact there
  | op act next fault => exact there.1

theorem Safe.run {p : Program σ ε α} {s : σ} (safe : p.Safe faults inv post s) :
    post (p.run s).1 (p.run s).2 := by
  induction p generalizing s with
  | done r => exact safe
  | op act next fault ih _ => exact ih s safe.2.1

theorem Safe.after {p : Program σ ε α} {s : σ} (safe : p.Safe faults inv post s)
    (ends : ∀ r s', post r s' → inv s') (n : ℕ) : inv (p.after n s) := by
  induction p generalizing s n with
  | done r => exact ends r s safe
  | op act next fault ih _ =>
    cases n with
    | zero => exact safe.1
    | succ n => exact ih s safe.2.1 n

theorem reaches_run (p : Program σ ε α) (s : σ) :
    Reaches (p, s) (done (p.run s).1, (p.run s).2) := by
  induction p generalizing s with
  | done r => exact Relation.ReflTransGen.refl
  | op act next fault ih _ => exact (ih s (act s)).head (Step.acts act next fault s)

theorem reaches_after (p : Program σ ε α) (n : Nat) (s : σ) : ∃ p', Reaches (p, s) (p', p.after n s) := by
  induction n generalizing p s with
  | zero =>
    have stays : p.after 0 s = s := by cases p <;> rfl
    rw [stays]
    exact ⟨p, Relation.ReflTransGen.refl⟩
  | succ n ih =>
    cases p with
    | done r => exact ⟨.done r, Relation.ReflTransGen.refl⟩
    | op act next fault =>
      obtain ⟨p', reaches⟩ := ih (next s) (act s)
      exact ⟨p', reaches.head (Step.acts act next fault s)⟩

theorem reaches_of_run {p : Program σ ε α} {s s' : σ} {r : Except ε α} (ran : p.run s = (r, s')) :
    Reaches (p, s) (done r, s') := by
  have reaches := reaches_run p s
  rwa [ran] at reaches

theorem Safe.mono {p : Program σ ε α} {s : σ} (safe : p.Safe faults inv post s)
    (weaker : ∀ s, inv s → inv' s) (after : ∀ r s, post r s → post' r s) :
    p.Safe faults inv' post' s := by
  induction p generalizing s with
  | done r => exact after r s safe
  | op act next fault ih ihFault => exact ⟨weaker s safe.1, ih s safe.2.1, fun bad => ihFault (safe.2.2 bad)⟩

theorem Safe.ends {p : Program σ ε α} {s : σ} (safe : p.Safe True inv post s) :
    p.Safe True inv (fun r s' => post r s' ∧ Reaches (p, s) (done r, s')) s := by
  induction p generalizing s with
  | done r => exact ⟨safe, Relation.ReflTransGen.refl⟩
  | op act next fault ih ihFault =>
    refine ⟨safe.1, (ih s safe.2.1).mono (fun _ h => h) ?_, fun bad => ?_⟩
    · exact fun r s' ended => ⟨ended.1, ended.2.head (Step.acts act next fault s)⟩
    · refine (ihFault (safe.2.2 bad)).mono (fun _ h => h) ?_
      exact fun r s' ended => ⟨ended.1, ended.2.head (Step.fails act next fault s)⟩

theorem Safe.call {f : σ → Except ε α × σ} {fault : ε} {s : σ} (stop : inv s)
    (acted : post (f s).1 (f s).2) (failed : faults → post (.error fault) s) :
    (call f fault).Safe faults inv post s := ⟨stop, acted, failed⟩

theorem Safe.value {r : Except ε α} {s : σ} (ended : post r s) : (ofExcept r).Safe faults inv post s := ended

theorem Safe.bind {p : Program σ ε α} {k : α → Program σ ε β} {post : Except ε β → σ → Prop}
    {s : σ} (safe : p.Safe faults inv (fun r s => match r with
      | .ok a => (k a).Safe faults inv post s
      | .error e => post (.error e) s) s) : (p.bind k).Safe faults inv post s := by
  induction p generalizing s with
  | done r =>
    cases r with
    | ok a => exact safe
    | error e => exact safe
  | op act next fault ih ihFault => exact ⟨safe.1, ih s safe.2.1, fun bad => ihFault (safe.2.2 bad)⟩

theorem Safe.attempt {p : Program σ ε α} {post : Except δ (Except ε α) → σ → Prop} {s : σ}
    (safe : p.Safe faults inv (fun r s => post (.ok r) s) s) : p.attempt.Safe faults inv post s := by
  induction p generalizing s with
  | done r => exact safe
  | op act next fault ih ihFault => exact ⟨safe.1, ih s safe.2.1, fun bad => ihFault (safe.2.2 bad)⟩

theorem Safe.mapError {p : Program σ ε α} {f : ε → δ} {post : Except δ α → σ → Prop} {s : σ}
    (safe : p.Safe faults inv (fun r s => post (r.mapError f) s) s) : (p.mapError f).Safe faults inv post s := by
  induction p generalizing s with
  | done r => exact safe
  | op act next fault ih ihFault => exact ⟨safe.1, ih s safe.2.1, fun bad => ihFault (safe.2.2 bad)⟩

theorem Safe.focus {get : σ → τ} {set : τ → σ → σ} {p : Program τ ε α} {s : σ}
    (lens : ∀ t s, get (set t s) = t) (again : ∀ t t' s, set t (set t' s) = set t s)
    (same : ∀ s, set (get s) s = s)
    (safe : p.Safe faults (fun t => inv (set t s)) (fun r t => post r (set t s)) (get s)) :
    (p.focus get set).Safe faults inv post s := by
  induction p generalizing s with
  | done r =>
    have held : post r (set (get s) s) := safe
    rw [same] at held
    exact held
  | op act next fault ih ihFault =>
    refine ⟨?_, ih (get s) ?_, fun bad => ihFault (safe.2.2 bad)⟩
    · simpa only [same] using safe.1
    · simpa only [lens, again] using safe.2.1

theorem Safe.anything (p : Program σ ε α) (s : σ) :
    p.Safe faults (fun _ => True) (fun _ _ => True) s := by
  induction p generalizing s with
  | done r => trivial
  | op act next fault ih ihFault => exact ⟨trivial, ih s (act s), fun _ => ihFault s⟩

theorem Still.safe {p : Program σ ε α} (still : p.Still) (s : σ) :
    p.Safe faults (· = s) (fun _ s' => s' = s) s := by
  induction p with
  | done r => rfl
  | op act next fault ih ihFault =>
    obtain ⟨rfl, after, failed⟩ := still
    exact ⟨rfl, ih s (after s), fun _ => ihFault failed⟩

theorem Still.exact {p : Program σ ε α} (still : p.Still) (s : σ) :
    p.Safe faults (· = s) (fun r s' => s' = s ∧ (¬ faults → r = (p.run s).1)) s := by
  induction p with
  | done r => exact ⟨rfl, fun _ => rfl⟩
  | op act next fault ih _ =>
    obtain ⟨rfl, after, failed⟩ := still
    refine ⟨rfl, ih s (after s), fun bad => (failed.safe s).mono (fun _ h => h) ?_⟩
    exact fun _ _ same => ⟨same, fun sound => absurd bad sound⟩

theorem Still.read (f : σ → Except ε α) (fault : ε) : (read f fault).Still :=
  ⟨rfl, fun _ => trivial, trivial⟩

theorem Still.ofExcept (r : Except ε α) : (ofExcept r : Program σ ε α).Still := trivial

theorem Still.bind {p : Program σ ε α} {k : α → Program σ ε β} (still : p.Still)
    (next : ∀ a, (k a).Still) : (p.bind k).Still := by
  induction p with
  | done r =>
    cases r with
    | ok a => exact next a
    | error e => trivial
  | op act _ fault ih ihFault =>
    exact ⟨still.1, fun s => ih s (still.2.1 s), ihFault still.2.2⟩

theorem Still.mapError {p : Program σ ε α} {f : ε → δ} (still : p.Still) : (p.mapError f).Still := by
  induction p with
  | done r => trivial
  | op act _ fault ih ihFault =>
    exact ⟨still.1, fun s => ih s (still.2.1 s), ihFault still.2.2⟩

theorem Still.focus {p : Program τ ε α} {get : σ → τ} {set : τ → σ → σ}
    (same : ∀ s, set (get s) s = s) (still : p.Still) : (p.focus get set).Still := by
  induction p with
  | done r => trivial
  | op act _ fault ih ihFault =>
    obtain ⟨rfl, after, failed⟩ := still
    exact ⟨funext same, fun s => ih (get s) (after (get s)), ihFault failed⟩

theorem Safe.and {p : Program σ ε α} {s : σ} {more : Except ε α → σ → Prop}
    (safe : p.Safe faults inv post s) (also_ : p.Safe faults inv' more s) :
    p.Safe faults (fun s => inv s ∧ inv' s) (fun r s => post r s ∧ more r s) s := by
  induction p generalizing s with
  | done r => exact ⟨safe, also_⟩
  | op act next fault ih ihFault =>
    exact ⟨⟨safe.1, also_.1⟩, ih s safe.2.1 also_.2.1,
      fun bad => ihFault (safe.2.2 bad) (also_.2.2 bad)⟩

theorem Still.run {p : Program σ ε α} (still : p.Still) (s : σ) : (p.run s).2 = s :=
  (still.safe s : p.Safe False _ _ s).run

theorem Still.then_ok {p : Program σ ε α} {k : α → Program σ ε β} {s s' : σ} {b : β}
    (still : p.Still) (ran : (p.bind k).run s = (.ok b, s')) :
    ∃ a, p.run s = (.ok a, s) ∧ (k a).run s = (.ok b, s') := by
  obtain ⟨a, s₁, first, rest⟩ := run_bind_eq_ok_iff.mp ran
  have same : s₁ = s := by
    have unmoved := still.run s
    rw [first] at unmoved
    exact unmoved
  subst same
  exact ⟨a, first, rest⟩

theorem Still.reaches {p p' : Program σ ε α} {s s' : σ} (still : p.Still)
    (reaches : Reaches (p, s) (p', s')) : s' = s := by
  have stopped := (still.safe s).stopped reaches
  cases outcome : p'.result? with
  | none =>
    rw [outcome] at stopped
    exact stopped
  | some r =>
    rw [outcome] at stopped
    exact stopped

end

/-- From a state, the program stays in relation to it; a value and an error it ends with are
as described. -/
def Moves (faults : Prop) (R : σ → σ → Prop) (fails : ε → Prop) (gives : α → σ → Prop)
    (p : Program σ ε α) (s : σ) : Prop :=
  p.Safe faults (R s) (fun r s' => R s s' ∧ match r with
    | .ok a => gives a s'
    | .error e => fails e) s

section

variable {faults : Prop} {R : σ → σ → Prop} {fails : ε → Prop} {gives : α → σ → Prop}
  {gives' : β → σ → Prop} {s : σ}

theorem Moves.value {a : α} (refl : R s s) (given : gives a s) :
    (done (.ok a) : Program σ ε α).Moves faults R fails gives s := ⟨refl, given⟩

theorem Moves.fail {e : ε} (refl : R s s) (allowed : fails e) :
    (done (.error e) : Program σ ε α).Moves faults R fails gives s := ⟨refl, allowed⟩

theorem Moves.andThen {p : Program σ ε α} {k : α → Program σ ε β} {inv : σ → Prop}
    {post : Except ε β → σ → Prop} (first : p.Moves faults R fails gives s)
    (stop : ∀ s', R s s' → inv s') (failed : ∀ e s', R s s' → fails e → post (.error e) s')
    (next : ∀ a s', R s s' → gives a s' → (k a).Safe faults inv post s') :
    (p.bind k).Safe faults inv post s := by
  refine Safe.bind (Safe.mono first stop ?_)
  rintro (e | a) s' ⟨moved, ended⟩
  · exact failed e s' moved ended
  · exact next a s' moved ended

theorem Moves.bind {p : Program σ ε α} {k : α → Program σ ε β}
    (trans : ∀ {a b c}, R a b → R b c → R a c) (first : p.Moves faults R fails gives s)
    (next : ∀ a s', R s s' → gives a s' → (k a).Moves faults R fails gives' s') :
    (p.bind k).Moves faults R fails gives' s :=
  first.andThen (fun _ h => h) (fun _ _ moved allowed => ⟨moved, allowed⟩)
    (fun a s' moved given => Safe.mono (next a s' moved given) (fun _ h => trans moved h)
      (fun _ _ h => ⟨trans moved h.1, h.2⟩))

theorem Moves.mono {p : Program σ ε α} {more : α → σ → Prop} (h : p.Moves faults R fails gives s)
    (weaker : ∀ a s', R s s' → gives a s' → more a s') : p.Moves faults R fails more s := by
  refine Safe.mono h (fun _ h => h) ?_
  rintro (e | a) s' ⟨moved, ended⟩
  · exact ⟨moved, ended⟩
  · exact ⟨moved, weaker a s' moved ended⟩

theorem Moves.mapError {p : Program σ ε α} {f : ε → δ} {fails' : δ → Prop}
    (allowed : ∀ e, fails e → fails' (f e)) (h : p.Moves faults R fails gives s) :
    (p.mapError f).Moves faults R fails' gives s := by
  refine Safe.mapError (Safe.mono h (fun _ h => h) ?_)
  rintro (e | a) s' ⟨moved, ended⟩
  · exact ⟨moved, allowed e ended⟩
  · exact ⟨moved, ended⟩

theorem Moves.attempt {p : Program σ ε α} {fails' : δ → Prop} (h : p.Moves faults R fails gives s) :
    (p.attempt : Program σ δ (Except ε α)).Moves faults R fails'
      (fun r s' => match r with
        | .ok a => gives a s'
        | .error e => fails e) s :=
  Safe.attempt (Safe.mono h (fun _ h => h) (fun _ _ h => h))

theorem Moves.still {p : Program σ ε α} (refl : R s s) (still : p.Still) :
    p.Moves faults R (fun _ => True) (fun _ _ => True) s := by
  refine (still.safe s).mono ?_ ?_
  · rintro _ rfl
    exact refl
  · rintro (e | a) _ rfl
    · exact ⟨refl, trivial⟩
    · exact ⟨refl, trivial⟩

theorem Moves.forEach {f : β → Program σ ε Unit} {inv : σ → Prop} (bs : List β)
    (refl : ∀ s, inv s → R s s) (trans : ∀ {a b c}, R a b → R b c → R a c)
    (kept : ∀ s s', R s s' → inv s → inv s') (here : inv s)
    (each : ∀ b ∈ bs, ∀ s, inv s → (f b).Moves faults R fails (fun _ _ => True) s) :
    (forEach f bs).Moves faults R fails (fun _ _ => True) s := by
  induction bs generalizing s with
  | nil => exact value (refl s here) trivial
  | cons b bs ih =>
    refine bind trans (each b List.mem_cons_self s here) (fun _ s' moved _ => ?_)
    exact ih (kept s s' moved here) (fun b' mem => each b' (List.mem_cons_of_mem b mem))

end

/-- Failed operations can only make the program find nothing. -/
def Sure (p : Program σ ε (Option α)) (s : σ) : Prop :=
  p.Safe True (fun _ => True) (fun r _ => ∀ a, r = .ok (some a) → (p.run s).1 = .ok (some a)) s

theorem Sure.value (r : Except ε (Option α)) (s : σ) : (done r : Program σ ε (Option α)).Sure s :=
  fun _ h => h

theorem Sure.ofExcept {r : Except ε β} {k : β → Program σ ε (Option α)} {s : σ}
    (next : ∀ b, r = .ok b → (k b).Sure s) : ((ofExcept r).bind k).Sure s := by
  cases r with
  | error e => exact Sure.value _ s
  | ok b => exact next b rfl

theorem Sure.read {f : σ → Except ε β} {fault : ε} {k : β → Program σ ε (Option α)} {s : σ}
    (next : ∀ b, f s = .ok b → (k b).Sure s) : ((read f fault).bind k).Sure s := by
  have after : ((done (f s)).bind k).Sure s := Sure.ofExcept next
  exact ⟨trivial, after, fun _ => nofun⟩

end Program
