import GitAgentic.Data.Program

/-! What a program leaves when it succeeds, whatever failed on the way. -/

namespace Program

variable {σ τ ε δ α β : Type} {faults : Prop}

/-- A value it ends with and the state it then leaves are as described. -/
def Yields (faults : Prop) (p : Program σ ε α) (post : α → σ → Prop) (s : σ) : Prop :=
  p.Safe faults (fun _ => True) (fun r s' => ∀ a, r = .ok a → post a s') s

namespace Yields

variable {p : Program σ ε α} {post post' : α → σ → Prop} {s s' : σ}

theorem value {a : α} (given : post a s) : (done (.ok a) : Program σ ε α).Yields faults post s := by
  rintro _ ⟨⟩
  exact given

theorem fail (e : ε) : (done (.error e) : Program σ ε α).Yields faults post s := by
  rintro _ ⟨⟩

theorem mono (h : p.Yields faults post s) (weaker : ∀ a s', post a s' → post' a s') :
    p.Yields faults post' s := by
  refine Safe.mono h (fun _ _ => trivial) ?_
  intro r s' ended a ok
  exact weaker a s' (ended a ok)

theorem bind {k : α → Program σ ε β} {post : β → σ → Prop} {mid : α → σ → Prop}
    (first : p.Yields faults mid s) (next : ∀ a s', mid a s' → (k a).Yields faults post s') :
    (p.bind k).Yields faults post s := by
  refine Safe.bind (Safe.mono first (fun _ _ => trivial) ?_)
  intro r s' ended
  cases r with
  | ok a => exact next a s' (ended a rfl)
  | error e =>
    rintro _ ⟨⟩

theorem call {f : σ → Except ε α × σ} {fault : ε} (acted : ∀ a s', f s = (.ok a, s') → post a s') :
    (Program.call f fault).Yields faults post s := by
  refine Safe.call trivial (fun a ok => acted a _ (Prod.ext ok rfl)) ?_
  rintro _ _ ⟨⟩

theorem read {f : σ → Except ε α} {fault : ε} (found : ∀ a, f s = .ok a → post a s) :
    (Program.read f fault).Yields faults post s := by
  refine call (fun a s' ran => ?_)
  obtain ⟨given, rfl⟩ := Prod.mk.inj ran
  exact found a given

theorem ofExcept {r : Except ε α} (given : ∀ a, r = .ok a → post a s) :
    (Program.ofExcept r).Yields faults post s := given

theorem attempt {post : Except ε α → σ → Prop}
    (h : p.Safe faults (fun _ => True) post s) : (p.attempt : Program σ δ _).Yields faults post s := by
  refine Safe.attempt (Safe.mono h (fun _ _ => trivial) ?_)
  rintro r s' ended _ ⟨⟩
  exact ended

theorem mapError {f : ε → δ} (h : p.Yields faults post s) : (p.mapError f).Yields faults post s := by
  refine Safe.mapError (Safe.mono h (fun _ _ => trivial) ?_)
  intro r s' ended a ok
  cases r with
  | error e => cases ok
  | ok b =>
    obtain rfl := Except.ok.inj ok
    exact ended b rfl

theorem focus {p : Program τ ε α} {get : σ → τ} {set : τ → σ → σ} {post : α → σ → Prop}
    (lens : ∀ t s, get (set t s) = t) (again : ∀ t t' s, set t (set t' s) = set t s)
    (same : ∀ s, set (get s) s = s) (h : p.Yields faults (fun a t => post a (set t s)) (get s)) :
    (p.focus get set).Yields faults post s := Safe.focus lens again same h

theorem forEach_from {f : β → Program σ ε Unit} {left : List β → σ → Prop} {bs done : List β}
    (start : left done s)
    (each : ∀ before b after s, done ++ bs = before ++ b :: after → left before s →
      (f b).Yields faults (fun _ s' => left (before ++ [b]) s') s) :
    (forEach f bs).Yields faults (fun _ s' => left (done ++ bs) s') s := by
  induction bs generalizing done s with
  | nil => exact value (by rwa [List.append_nil])
  | cons b bs ih =>
    refine bind (each done b bs s rfl start) (fun _ s' there => ?_)
    have split : done ++ [b] ++ bs = done ++ b :: bs := (List.append_cons done b bs).symm
    have rest := ih there (fun before b' after s'' whole => each before b' after s'' (split ▸ whole))
    rwa [split] at rest

theorem forEach {f : β → Program σ ε Unit} {bs : List β} (left : List β → σ → Prop) (start : left [] s)
    (each : ∀ before b after s, bs = before ++ b :: after → left before s →
      (f b).Yields faults (fun _ s' => left (before ++ [b]) s') s) :
    (forEach f bs).Yields faults (fun _ s' => left bs s') s :=
  forEach_from start each

theorem reached {a : α} (h : p.Yields True post s) (reached : Reaches (p, s) (done (.ok a), s')) :
    post a s' := Safe.reaches h reached a rfl

theorem ran {a : α} (h : p.Yields faults post s) (ran : p.run s = (.ok a, s')) : post a s' := by
  have ended := Safe.run h
  rw [ran] at ended
  exact ended a rfl

end Yields

end Program
