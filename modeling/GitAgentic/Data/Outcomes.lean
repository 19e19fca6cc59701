import GitAgentic.Data.Program

/-! What holds of a program however its operations go, failures included: rules that lose
nothing. And one program after another, chosen from outside. -/
namespace Program

variable {σ τ ε δ α β κ : Type}

/-- Whichever operations fail, the program ends as described. -/
def Always (p : Program σ ε α) (s : σ) (post : Except ε α → σ → Prop) : Prop :=
  p.Safe True (fun _ => True) post s

section

variable {s : σ}

theorem always_read {f : σ → Except ε α} {fault : ε} {post : Except ε α → σ → Prop} :
    (read f fault).Always s post ↔ post (f s) s ∧ post (.error fault) s := by
  constructor
  · rintro ⟨-, read, failed⟩
    exact ⟨read, failed trivial⟩
  · rintro ⟨read, failed⟩
    exact ⟨trivial, read, fun _ => failed⟩

theorem always_bind {p : Program σ ε α} {k : α → Program σ ε β} {post : Except ε β → σ → Prop} :
    (p.bind k).Always s post ↔ p.Always s (fun r s' => match r with
      | .ok a => (k a).Always s' post
      | .error e => post (.error e) s') := by
  induction p generalizing s with
  | done r => cases r <;> exact Iff.rfl
  | op act next fault ih ihFault =>
    exact and_congr Iff.rfl (and_congr (ih s) (imp_congr_right fun _ => ihFault))

theorem always_attempt {p : Program σ ε α} {post : Except δ (Except ε α) → σ → Prop} :
    p.attempt.Always s post ↔ p.Always s (fun r s' => post (.ok r) s') := by
  induction p generalizing s with
  | done r => exact Iff.rfl
  | op act next fault ih ihFault =>
    exact and_congr Iff.rfl (and_congr (ih s) (imp_congr_right fun _ => ihFault))

end

/- More rules of `Moves`. -/

section

variable {faults : Prop} {R R' : σ → σ → Prop} {fails fails' : ε → Prop} {gives gives' : α → σ → Prop}
  {s : σ}

theorem Moves.ofExcept {r : Except ε α} (refl : R s s) (failed : ∀ e, r = .error e → fails e) :
    (ofExcept r).Moves faults R fails (fun a _ => r = .ok a) s := by
  cases r with
  | ok a => exact value refl rfl
  | error e => exact fail refl (failed e rfl)

theorem Moves.read {f : σ → Except ε α} {fault : ε} (refl : R s s)
    (failed : ∀ e, f s = .error e → fails e) (faulted : fails fault) :
    (read f fault).Moves faults R fails (fun a _ => f s = .ok a) s :=
  ⟨refl, ofExcept refl failed, fun _ => ⟨refl, faulted⟩⟩

theorem Moves.weaken {p : Program σ ε α} (h : p.Moves faults R fails gives s)
    (allowed : ∀ e, fails e → fails' e) (given : ∀ a s', R s s' → gives a s' → gives' a s') :
    p.Moves faults R fails' gives' s := by
  refine Safe.mono h (fun _ h => h) ?_
  rintro (e | a) s' ⟨moved, ended⟩
  · exact ⟨moved, allowed e ended⟩
  · exact ⟨moved, given a s' moved ended⟩

theorem Moves.focus {get : σ → τ} {set : τ → σ → σ} {p : Program τ ε α} {T : τ → τ → Prop}
    {gives : α → Prop} (lens : ∀ t s, get (set t s) = t) (again : ∀ t t' s, set t (set t' s) = set t s)
    (same : ∀ s, set (get s) s = s) (related : ∀ t, T (get s) t → R s (set t s))
    (h : p.Moves faults T fails (fun a _ => gives a) (get s)) :
    (p.focus get set).Moves faults R fails (fun a _ => gives a) s := by
  refine Safe.focus lens again same (Safe.mono h related ?_)
  rintro (e | a) t ⟨moved, ended⟩
  · exact ⟨related t moved, ended⟩
  · exact ⟨related t moved, ended⟩

theorem Moves.relate {p : Program σ ε α} (h : p.Moves faults R fails gives s)
    (related : ∀ s', R s s' → R' s s') : p.Moves faults R' fails gives s :=
  Safe.mono h related (fun _ _ ended => ⟨related _ ended.1, ended.2⟩)

end

/- One program after another. -/

variable (serve : κ → Program σ ε α)

/-- A condition holds in every state in which the next program is started, whatever failed
before. -/
def Throughout (cond : σ → κ → Prop) : List κ → σ → Prop
  | [], _ => True
  | a :: as, s => cond s a ∧ (serve a).Always s (fun _ s' => Throughout cond as s')

variable {serve}

theorem Throughout.mono {cond cond' : σ → κ → Prop} (weaker : ∀ s a, cond s a → cond' s a)
    {as : List κ} {s : σ} (held : Throughout serve cond as s) : Throughout serve cond' as s := by
  induction as generalizing s with
  | nil => trivial
  | cons a as ih =>
    exact ⟨weaker s a held.1, Safe.mono held.2 (fun _ h => h) (fun _ _ later => ih later)⟩

end Program
