import GitAgentic.Data.FileTree

/-! Programs that may be stopped anywhere and run again. Where the parts that are repeated
find their work done, the second run ends as the first one would have. -/
namespace Program

variable {σ τ ε α β : Type}

/-- Stopped anywhere and run again, it ends as when it is left alone. -/
def Resumable (p : Program σ ε α) : Prop := ∀ n s, p.run (p.after n s) = p.run s

def Advances (R : σ → σ → Prop) (p : Program σ ε α) : Prop := ∀ n s, R s (p.after n s)

/-- What the program does stays done: in every state that is further on it finds nothing
left to do and returns the same value. -/
structure Settling (R : σ → σ → Prop) (p : Program σ ε α) : Prop where
  resumes : p.Resumable
  moves : p.Advances R
  settles : ∀ s a s', p.run s = (.ok a, s') → ∀ u, R s' u → p.run u = (.ok a, u)

/-- Only its start and its end are seen from outside. -/
def Atomic (p : Program σ ε α) : Prop := ∀ n s, p.after n s = s ∨ p.after n s = (p.run s).2

theorem after_of_ops_le (p : Program σ ε α) {n : Nat} {s : σ} (enough : p.ops s ≤ n) :
    p.after n s = (p.run s).2 := by
  induction p generalizing n s with
  | done r => rfl
  | op act next fault ih _ =>
    cases n with
    | zero => exact absurd enough (Nat.not_succ_le_zero _)
    | succ n => exact ih s (Nat.le_of_succ_le_succ enough)

theorem after_ops (p : Program σ ε α) (s : σ) : p.after (p.ops s) s = (p.run s).2 :=
  after_of_ops_le p le_rfl

theorem Resumable.rerun {p : Program σ ε α} (resumes : p.Resumable) (s : σ) :
    p.run (p.run s).2 = p.run s := by
  rw [← after_ops]
  exact resumes _ s

theorem Resumable.again {p : Program σ ε α} (resumes : p.Resumable) (stops : List Nat) (k : Nat)
    (s : σ) : p.run ((fun s => (p.run s).2)^[k] (stops.foldl (fun s n => p.after n s) s)) = p.run s := by
  induction k with
  | zero =>
    induction stops generalizing s with
    | nil => rfl
    | cons n stops ih => exact (ih (p.after n s)).trans (resumes n s)
  | succ k ih =>
    rw [Function.iterate_succ_apply', resumes.rerun]
    exact ih

theorem Atomic.done (r : Except ε α) : (done r : Program σ ε α).Atomic := fun _ _ => Or.inl rfl

theorem Atomic.call (f : σ → Except ε α × σ) (fault : ε) : (call f fault).Atomic := after_call f fault

theorem Atomic.read {f : σ → Except ε α} {fault : ε} {k : α → Program σ ε β}
    (rest : ∀ a, (k a).Atomic) : ((read f fault).bind k).Atomic := by
  intro n s
  cases n with
  | zero => exact Or.inl (after_zero _ s)
  | succ n =>
    show ((ofExcept (f s)).bind k).after n s = s ∨
      ((ofExcept (f s)).bind k).after n s = (((ofExcept (f s)).bind k).run s).2
    cases f s with
    | error e => exact Or.inl rfl
    | ok a => exact rest a n s

theorem Atomic.resumes {p : Program σ ε α} (atomic : p.Atomic)
    (rerun : ∀ s, p.run (p.run s).2 = p.run s) : p.Resumable := by
  intro n s
  rcases atomic n s with same | ended
  · rw [same]
  · rw [ended, rerun]

section

variable {R : σ → σ → Prop}

theorem Atomic.advances {p : Program σ ε α} (atomic : p.Atomic) (refl : ∀ s, R s s)
    (moves : ∀ s, R s (p.run s).2) : p.Advances R := by
  intro n s
  rcases atomic n s with same | ended
  · rw [same]
    exact refl s
  · rw [ended]
    exact moves s

theorem Advances.run {p : Program σ ε α} (moves : p.Advances R) (s : σ) : R s (p.run s).2 := by
  rw [← after_ops]
  exact moves _ s

theorem Advances.bind {p : Program σ ε α} {k : α → Program σ ε β}
    (trans : ∀ {a b c}, R a b → R b c → R a c) (first : p.Advances R)
    (rest : ∀ a, (k a).Advances R) : (p.bind k).Advances R := by
  intro n s
  rcases after_bind p k n s with ⟨m, stopped⟩ | ⟨a, s₁, m, ran, stopped⟩
  · rw [stopped]
    exact first m s
  · have before := first.run s
    rw [ran] at before
    rw [stopped]
    exact trans before (rest a m s₁)

theorem Settling.done (refl : ∀ s, R s s) (r : Except ε α) :
    (done r : Program σ ε α).Settling R where
  resumes _ _ := rfl
  moves _ s := refl s
  settles s a s' ran u _ := by
    cases ran
    rfl

theorem after_map (p : Program σ ε α) (f : α → β) (n : Nat) (s : σ) :
    (p.bind (fun a => .done (.ok (f a)))).after n s = p.after n s := by
  induction p generalizing n s with
  | done r => cases r <;> rfl
  | op act next fault ih _ =>
    cases n with
    | zero => rfl
    | succ n => exact ih s n (act s)

theorem Resumable.map {p : Program σ ε α} (resumes : p.Resumable) (f : α → β) :
    (p.bind (fun a => .done (.ok (f a)))).Resumable := by
  intro n s
  rw [after_map, run_bind, resumes n s, ← run_bind]

theorem Settling.then {p : Program σ ε α} {k : α → Program σ ε β} (first : p.Settling R)
    (moves : ∀ a, (k a).Advances R) (rest : ∀ a, (k a).Resumable) :
    (p.bind k).Resumable := by
  intro n s
  rcases after_bind p k n s with ⟨m, stopped⟩ | ⟨a, s₁, m, ran, stopped⟩
  · rw [stopped, run_bind, first.resumes m s, ← run_bind]
  · have settled := first.settles s a s₁ ran _ (moves a m s₁)
    rw [stopped, run_bind_of_ok settled, rest a m s₁, run_bind_of_ok ran]

theorem Settling.bind {p : Program σ ε α} {k : α → Program σ ε β}
    (trans : ∀ {a b c}, R a b → R b c → R a c) (first : p.Settling R)
    (rest : ∀ a, (k a).Settling R) : (p.bind k).Settling R where
  resumes := first.then (fun a => (rest a).moves) (fun a => (rest a).resumes)
  moves := first.moves.bind trans (fun a => (rest a).moves)
  settles s b s' ran u further := by
    obtain ⟨a, s₁, ran₁, ran₂⟩ := run_bind_eq_ok_iff.mp ran
    have between := (rest a).moves.run s₁
    rw [ran₂] at between
    have settled := first.settles s a s₁ ran₁ u (trans between further)
    rw [run_bind_of_ok settled]
    exact (rest a).settles s₁ b s' ran₂ u further

end

section

variable {get : σ → τ} {set : τ → σ → σ} (lens : ∀ t s, get (set t s) = t)
  (again : ∀ t t' s, set t (set t' s) = set t s) (same : ∀ s, set (get s) s = s)

include lens again same

theorem Resumable.focus {p : Program τ ε α} (resumes : p.Resumable) :
    (p.focus get set).Resumable := by
  intro n s
  rw [after_focus lens again same, run_focus lens again same, run_focus lens again same, lens,
    resumes n (get s), again]

theorem Settling.focus {R : τ → τ → Prop} {p : Program τ ε α} (h : p.Settling R) :
    (p.focus get set).Settling (fun s s' => R (get s) (get s')) where
  resumes := h.resumes.focus lens again same
  moves n s := by
    dsimp only
    rw [after_focus lens again same, lens]
    exact h.moves n (get s)
  settles s a s' ran u further := by
    rw [run_focus lens again same] at ran
    obtain ⟨ok, rfl⟩ := Prod.mk.inj ran
    rw [lens] at further
    rw [run_focus lens again same, h.settles _ a _ (Prod.ext ok rfl) _ further, same]

end

end Program

namespace FileTree

variable {α ε : Type} (e : ε)

def KeepsDirs (t t' : FileTree α) : Prop := ∀ p, t.isDir p = true → t'.isDir p = true

theorem KeepsDirs.refl (t : FileTree α) : KeepsDirs t t := fun _ h => h

theorem KeepsDirs.trans {t t' t'' : FileTree α} (first : KeepsDirs t t') (second : KeepsDirs t' t'') :
    KeepsDirs t t'' := fun p h => second p (first p h)

theorem ext_nodes {t t' : FileTree α} (same : t.nodes = t'.nodes) : t = t' := by
  cases t
  cases t'
  cases same
  rfl

theorem createDir_keepsDirs {t t' : FileTree α} {p : TreePath} (h : t.createDir p = some t') :
    KeepsDirs t t' := by
  obtain ⟨free, made⟩ := createDir_node? h
  intro q dir
  rw [isDir_iff] at dir ⊢
  rw [made q]
  split
  · rfl
  · exact dir

theorem write_keepsDirs {t t' : FileTree α} {p : TreePath} {c : α} (h : t.write p c = some t') :
    KeepsDirs t t' := by
  obtain ⟨free, put⟩ := write_node? h
  intro q dir
  have other : q ≠ p := by
    rintro rfl
    rw [dir] at free
    cases free
  rw [isDir_iff, put q, if_neg other]
  exact isDir_iff.mp dir

theorem rename_keepsDirs {t t' : FileTree α} {p q : TreePath} (h : t.rename p q = some t') :
    KeepsDirs t t' := by
  obtain ⟨c, held, free, moved⟩ := rename_node? h
  intro r dir
  have target : r ≠ q := by
    rintro rfl
    rw [dir] at free
    cases free
  have source : r ≠ p := by
    rintro rfl
    rw [isDir_iff, file?_eq_some_iff.mp held] at dir
    cases dir
  rw [isDir_iff, moved r, if_neg target, if_neg source]
  exact isDir_iff.mp dir

theorem run_perform (f : FileTree α → Option (FileTree α)) (t : FileTree α) :
    (perform e f).run t = match f t with
      | some t' => (.ok (), t')
      | none => (.error e, t) := by
  cases done : f t with
  | some t' => simp [perform, done]
  | none => simp [perform, done]

theorem perform_atomic (f : FileTree α → Option (FileTree α)) : (perform e f).Atomic :=
  Program.Atomic.call _ _

theorem run_perform_some {f : FileTree α → Option (FileTree α)} {t t' : FileTree α}
    (done : f t = some t') : (perform e f).run t = (.ok (), t') := by
  rw [run_perform, done]

theorem run_perform_none {f : FileTree α → Option (FileTree α)} {t : FileTree α}
    (done : f t = none) : (perform e f).run t = (.error e, t) := by
  rw [run_perform, done]

theorem perform_advances {R : FileTree α → FileTree α → Prop} {f : FileTree α → Option (FileTree α)}
    (refl : ∀ t, R t t) (acted : ∀ t t', f t = some t' → R t t') : (perform e f).Advances R := by
  refine (perform_atomic e f).advances refl (fun t => ?_)
  cases done : f t with
  | some t' =>
    rw [run_perform_some e done]
    exact acted t t' done
  | none =>
    rw [run_perform_none e done]
    exact refl t

/-- One step of `createDirAll`. -/
def ensureDir (p : TreePath) : Program (FileTree α) ε Unit :=
  (Program.read (fun t => .ok (t.node? p)) e).bind (fun found =>
    match found with
    | some .dir => .done (.ok ())
    | some (.file _) => .fail e
    | none => perform e (fun t => t.createDir p))

theorem createDirAll_cons (base : TreePath) (name : String) (rest : List String) :
    (createDirAll e base (name :: rest) : Program (FileTree α) ε Unit) =
      (ensureDir e (base ++ [name])).bind (fun _ => createDirAll e (base ++ [name]) rest) := by
  rw [ensureDir, Program.bind_assoc, createDirAll]
  congr
  funext found
  cases found with
  | none => rfl
  | some n => cases n <;> rfl

theorem ensureDir_atomic (p : TreePath) : (ensureDir e p : Program (FileTree α) ε Unit).Atomic := by
  refine Program.Atomic.read (fun found => ?_)
  cases found with
  | none => exact perform_atomic e _
  | some n =>
    cases n with
    | dir => exact Program.Atomic.done _
    | file c => exact Program.Atomic.done _

theorem run_ensureDir (p : TreePath) (t : FileTree α) :
    (ensureDir e p).run t = match t.node? p with
      | some .dir => (.ok (), t)
      | some (.file _) => (.error e, t)
      | none => match t.createDir p with
        | some t' => (.ok (), t')
        | none => (.error e, t) := by
  rw [ensureDir, Program.run_bind, Program.run_read]
  cases found : t.node? p with
  | none => exact run_perform e _ t
  | some n => cases n <;> rfl

theorem run_ensureDir_of_isDir {p : TreePath} {t : FileTree α} (dir : t.isDir p = true) :
    (ensureDir e p).run t = (.ok (), t) := by
  rw [run_ensureDir, isDir_iff.mp dir]

theorem ensureDir_ended (p : TreePath) (t : FileTree α) :
    (ensureDir e p).run t = (.error e, t) ∨ ∃ t', (ensureDir e p).run t = (.ok (), t') ∧
      KeepsDirs t t' ∧ t'.isDir p = true := by
  cases found : t.node? p with
  | some n =>
    cases n with
    | dir =>
      have dir := isDir_iff.mpr found
      exact Or.inr ⟨t, run_ensureDir_of_isDir e dir, KeepsDirs.refl t, dir⟩
    | file c =>
      refine Or.inl ?_
      rw [run_ensureDir, found]
  | none =>
    cases made : t.createDir p with
    | none =>
      refine Or.inl ?_
      rw [run_ensureDir, found]
      dsimp only
      rw [made]
    | some t' =>
      refine Or.inr ⟨t', ?_, createDir_keepsDirs made, ?_⟩
      · rw [run_ensureDir, found]
        dsimp only
        rw [made]
      · rw [isDir_iff, (createDir_node? made).2 p, if_pos rfl]

theorem ensureDir_settling (p : TreePath) :
    (ensureDir e p : Program (FileTree α) ε Unit).Settling KeepsDirs where
  resumes := by
    refine (ensureDir_atomic e p).resumes (fun t => ?_)
    rcases ensureDir_ended e p t with failed | ⟨t', made, _, dir⟩
    · rw [failed, failed]
    · rw [made]
      exact run_ensureDir_of_isDir e dir
  moves := by
    refine (ensureDir_atomic e p).advances KeepsDirs.refl (fun t => ?_)
    rcases ensureDir_ended e p t with failed | ⟨t', made, kept, _⟩
    · rw [failed]
      exact KeepsDirs.refl t
    · rw [made]
      exact kept
  settles t a t' ran u further := by
    rcases ensureDir_ended e p t with failed | ⟨t'', made, _, dir⟩
    · rw [failed] at ran
      cases ran
    · rw [made] at ran
      cases ran
      exact run_ensureDir_of_isDir e (further p dir)

theorem createDirAll_settling (base : TreePath) (names : List String) :
    (createDirAll e base names : Program (FileTree α) ε Unit).Settling KeepsDirs := by
  induction names generalizing base with
  | nil => exact .done KeepsDirs.refl _
  | cons name rest ih =>
    rw [createDirAll_cons]
    exact (ensureDir_settling e _).bind KeepsDirs.trans (fun _ => ih _)

def replace (tmp path : TreePath) (content : α) : Program (FileTree α) ε Unit :=
  (perform e (fun t => t.write tmp content)).bind (fun _ => perform e (fun t => t.rename tmp path))

theorem replace_advances (tmp path : TreePath) (content : α) :
    (replace e tmp path content).Advances KeepsDirs :=
  (perform_advances e KeepsDirs.refl (fun _ _ => write_keepsDirs)).bind KeepsDirs.trans
    (fun _ => perform_advances e KeepsDirs.refl (fun _ _ => rename_keepsDirs))

theorem write_nodes {t u : FileTree α} {p : TreePath} {c : α} (h : t.write p c = some u) :
    u.nodes = t.nodes.insert p (.file c) := by
  unfold write at h
  split at h
  · cases h
    rfl
  · cases h

theorem removeFile_nodes {t u : FileTree α} {p : TreePath} (h : t.removeFile p = some u) :
    u.nodes = t.nodes.erase p := by
  unfold removeFile at h
  split at h
  · cases h
    rfl
  · cases h

theorem rename_nodes {t u : FileTree α} {p q : TreePath} {c : α} (held : t.file? p = some c)
    (h : t.rename p q = some u) : u.nodes = (t.nodes.erase p).insert q (.file c) := by
  simp only [rename, held] at h
  split at h
  · cases h
  · obtain ⟨v, removed, written⟩ := Option.bind_eq_some_iff.mp h
    rw [write_nodes written, removeFile_nodes removed]

theorem erase_insert (nodes : AList (fun _ : TreePath => TreeNode α)) (p : TreePath) (n : TreeNode α) :
    (nodes.insert p n).erase p = nodes.erase p := by
  refine AList.ext ?_
  exact List.kerase_cons_eq rfl

theorem write_below {t u : FileTree α} {p : TreePath} {c : α} (h : t.write p c = some u) :
    p ≠ [] ∧ t.isDir p.dropLast = true := by
  unfold write at h
  split at h
  · rename_i free
    exact ⟨free.1, free.2.1⟩
  · cases h

theorem isDir_of_node? {t : FileTree α} {p : TreePath} {n : TreeNode α} (found : t.node? p = some n)
    (other : n ≠ .dir) : t.isDir p = false := by
  cases dir : t.isDir p with
  | false => rfl
  | true =>
    rw [isDir_iff.mp dir] at found
    cases found
    exact absurd rfl other

theorem write_again {t u : FileTree α} {p : TreePath} {c : α} (h : t.write p c = some u) :
    u.write p c = some u := by
  obtain ⟨proper, below⟩ := write_below h
  have there : u.node? p = some (.file c) := by rw [(write_node? h).2 p, if_pos rfl]
  have free := isDir_of_node? there nofun
  obtain ⟨v, again⟩ := Option.isSome_iff_exists.mp
    (write_isSome (c := c) proper (write_keepsDirs h _ below) free)
  have same : v.nodes = u.nodes := by rw [write_nodes again, write_nodes h, AList.insert_insert]
  rw [again, ext_nodes same]

theorem replaced_again {t u v : FileTree α} {tmp path : TreePath} {c : α} (apart : tmp ≠ path)
    (written : t.write tmp c = some u) (renamed : u.rename tmp path = some v) :
    ∃ w, v.write tmp c = some w ∧ w.rename tmp path = some v := by
  have held : u.file? tmp = some c :=
    file?_eq_some_iff.mpr (by rw [(write_node? written).2 tmp, if_pos rfl])
  obtain ⟨c', held', _, moved⟩ := rename_node? renamed
  obtain rfl : c = c' := Option.some.inj (held.symm.trans held')
  have gone : v.node? tmp = none := by rw [moved tmp, if_neg apart, if_pos rfl]
  have there : v.node? path = some (.file c) := by rw [moved path, if_pos rfl]
  obtain ⟨proper, below⟩ := write_below written
  have free : v.isDir tmp = false := by rw [isDir, gone]
  obtain ⟨w, again⟩ := Option.isSome_iff_exists.mp (write_isSome (c := c) proper
    (rename_keepsDirs renamed _ (write_keepsDirs written _ below)) free)
  have put := (write_node? again).2
  have heldW : w.file? tmp = some c := file?_eq_some_iff.mpr (by rw [put tmp, if_pos rfl])
  have thereW : w.node? path = some (.file c) := by rw [put path, if_neg (Ne.symm apart), there]
  have properPath : path ≠ [] := file?_ne_root (file?_eq_some_iff.mpr there)
  have belowPath : w.isDir path.dropLast = true := by
    rw [← List.dropLast_append_getLast properPath] at thereW
    exact isDir_iff.mpr (parent_isDir thereW)
  obtain ⟨v', renamed'⟩ := Option.isSome_iff_exists.mp (rename_isSome (q := path)
    (by rw [heldW]; rfl) properPath belowPath (isDir_of_node? thereW nofun))
  have same : v'.nodes = v.nodes := by
    have absent : v.nodes.erase tmp = v.nodes := by
      refine AList.ext (List.kerase_of_notMem_keys ?_)
      exact AList.mem_keys.not.mp (AList.lookup_eq_none.mp gone)
    have last : v.nodes.insert path (.file c) = v.nodes := by
      rw [rename_nodes held renamed, AList.insert_insert]
    rw [rename_nodes heldW renamed', write_nodes again, erase_insert, absent, last]
  exact ⟨w, again, by rw [renamed', ext_nodes same]⟩

theorem run_replace {t u : FileTree α} {tmp path : TreePath} {c : α}
    (written : t.write tmp c = some u) :
    (replace e tmp path c).run t = (perform e (fun t => t.rename tmp path)).run u := by
  rw [replace, Program.run_bind_of_ok (run_perform_some e written)]

theorem write_resumes (p : TreePath) (c : α) : (perform e (fun t => t.write p c)).Resumable := by
  refine (perform_atomic e _).resumes (fun t => ?_)
  cases written : t.write p c with
  | none =>
    have ran : (perform e (fun t => t.write p c)).run t = (.error e, t) := run_perform_none e written
    rw [ran, ran]
  | some u =>
    have ran : (perform e (fun t => t.write p c)).run t = (.ok (), u) := run_perform_some e written
    rw [ran]
    exact run_perform_some e (write_again written)

theorem replace_resumes {tmp path : TreePath} (apart : tmp ≠ path) (c : α) :
    (replace e tmp path c).Resumable := by
  intro n t
  rcases Program.after_bind (perform e (fun t => t.write tmp c))
      (fun _ => perform e (fun t => t.rename tmp path)) n t with ⟨m, stopped⟩ | ⟨a, u, m, ran, stopped⟩
  · rw [replace, stopped, Program.run_bind, write_resumes e tmp c m t, ← Program.run_bind]
  · cases written : t.write tmp c with
    | none =>
      rw [run_perform_none e written] at ran
      cases ran
    | some u' =>
      rw [run_perform_some e written] at ran
      cases ran
      rw [show (replace e tmp path c).after n t = _ from stopped, run_replace e written]
      -- the file beside the path is there, or it has been renamed already
      rcases perform_atomic e (fun t => t.rename tmp path) m u with same | ended
      · rw [same]
        exact run_replace e (write_again written)
      · rw [ended]
        cases renamed : u.rename tmp path with
        | none =>
          have ran : (perform e (fun t => t.rename tmp path)).run u = (.error e, u) :=
            run_perform_none e renamed
          rw [ran, run_replace e (write_again written), ran]
        | some v =>
          obtain ⟨w, again, renamed'⟩ := replaced_again apart written renamed
          rw [run_perform_some e renamed, run_replace e again, run_perform_some e renamed']

end FileTree
