import GitAgentic.Data.Program

/-! Two programs over different states. Left alone, each from its own state, they come to the
same and leave states that are related. -/

namespace Program

variable {σ σ' τ ε δ α β α' β' : Type}

/-- They return the same value, as the second sees it, or fail alike. -/
def Alike (R : σ → τ → Prop) (see : α → β) (p : Program σ ε α) (q : Program τ ε β) (s : σ) (t : τ) : Prop :=
  (q.run t).1 = (p.run s).1.map see ∧ R (p.run s).2 (q.run t).2

section

variable {R R' : σ → τ → Prop} {see : α → β} {p : Program σ ε α} {q : Program τ ε β} {s : σ} {t : τ}

theorem Alike.mono (alike : Alike R see p q s t) (weaker : ∀ s t, R s t → R' s t) : Alike R' see p q s t :=
  ⟨alike.1, weaker _ _ alike.2⟩

theorem Alike.value {a : α} (related : R s t) :
    Alike R see (.done (.ok a) : Program σ ε α) (.done (.ok (see a))) s t := ⟨rfl, related⟩

theorem Alike.fail {e : ε} (related : R s t) : Alike R see (.done (.error e)) (.done (.error e)) s t :=
  ⟨rfl, related⟩

theorem Alike.bind {see' : α' → β'} {k : α → Program σ ε α'} {l : β → Program τ ε β'}
    (first : Alike R see p q s t)
    (rest : ∀ a s' t', p.run s = (.ok a, s') → R s' t' → Alike R' see' (k a) (l (see a)) s' t')
    (failed : ∀ s t, R s t → R' s t) : Alike R' see' (p.bind k) (q.bind l) s t := by
  obtain ⟨same, related⟩ := first
  unfold Alike
  rw [run_bind, run_bind]
  rcases ran : p.run s with ⟨outcome, s'⟩
  rcases ran' : q.run t with ⟨outcome', t'⟩
  rw [ran, ran'] at same related
  cases outcome with
  | error e =>
    obtain rfl : outcome' = .error e := same
    exact ⟨rfl, failed s' t' related⟩
  | ok a =>
    obtain rfl : outcome' = .ok (see a) := same
    exact rest a s' t' ran related

theorem Alike.read {f : σ → Except ε α} {g : τ → Except ε β} {fault fault' : ε} (related : R s t)
    (same : g t = (f s).map see) : Alike R see (.read f fault) (.read g fault') s t := ⟨same, related⟩

theorem Alike.mapError (f : ε → δ) (alike : Alike R see p q s t) :
    Alike R see (p.mapError f) (q.mapError f) s t := by
  unfold Alike
  rw [run_mapError, run_mapError, alike.1]
  exact ⟨by cases (p.run s).1 <;> rfl, alike.2⟩

theorem Alike.attempt {q : Program τ δ β} {γ : Type}
    (related : R (p.run s).2 (q.run t).2) (c : γ) :
    Alike R id ((p.attempt : Program σ ε _).bind (fun _ => .done (.ok c)))
      ((q.attempt : Program τ ε _).bind (fun _ => .done (.ok c))) s t := by
  unfold Alike
  rw [run_bind, run_bind, run_attempt, run_attempt]
  exact ⟨rfl, related⟩

theorem Alike.focus {get : σ' → σ} {set : σ → σ' → σ'} {s' : σ'} (lens : ∀ s s', get (set s s') = s)
    (again : ∀ s₁ s₂ s', set s₁ (set s₂ s') = set s₁ s') (same : ∀ s', set (get s') s' = s')
    (alike : Alike R see p q (get s') t) :
    Alike (fun s t => R (get s) t ∧ s = set (get s) s') see (p.focus get set) q s' t := by
  unfold Alike
  rw [run_focus lens again same]
  refine ⟨alike.1, ?_, ?_⟩
  · rw [lens]
    exact alike.2
  · rw [lens]

theorem Alike.forEach {f : α → Program σ ε Unit} {g : β → Program τ ε Unit} (as : List α)
    (each : ∀ a ∈ as, ∀ s t, R s t → Alike R id (f a) (g (see a)) s t) (related : R s t) :
    Alike R id (Program.forEach f as) (Program.forEach g (as.map see)) s t := by
  induction as generalizing s t with
  | nil => exact ⟨rfl, related⟩
  | cons a as ih =>
    refine (each a List.mem_cons_self s t related).bind (fun _ s' t' _ related' => ?_) (fun _ _ h => h)
    exact ih (fun b hb => each b (List.mem_cons_of_mem a hb)) related'

end

end Program
