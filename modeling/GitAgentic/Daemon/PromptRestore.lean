import GitAgentic.Daemon.ForwardRecord
import GitAgentic.Daemon.PromptLinks
import GitAgentic.Data.Yields

/-! What a rollback leaves below `prompts`: the files of the target's tree, the directories on
the way to them, and nothing else of what was there. -/

namespace FileTree

variable {α ε : Type} {faults : Prop} {t t' : FileTree α}

theorem file?_congr {q : TreePath} (same : t'.node? q = t.node? q) : t'.file? q = t.file? q := by
  rw [file?, file?, same]

theorem isDir_congr {q : TreePath} (same : t'.node? q = t.node? q) : t'.isDir q = t.isDir q := by
  rw [isDir, isDir, same]

theorem file?_of_isDir {q : TreePath} (dir : t.isDir q = true) : t.file? q = none := by
  rw [file?, isDir_iff.mp dir]

theorem isDir_of_file {q : TreePath} {c : α} (held : t.node? q = some (.file c)) : t.isDir q = false := by
  rw [isDir, held]

theorem node?_below {p q : TreePath} (leaf : t.isDir p = false) (below : p <+: q) (other : q ≠ p) :
    t.node? q = none := by
  obtain ⟨rest, rfl⟩ := below
  cases found : t.node? (p ++ rest) with
  | none => rfl
  | some n =>
    have proper : rest ≠ [] := by
      rintro rfl
      exact other (List.append_nil p)
    rw [isDir_iff.mpr (prefix_isDir found proper)] at leaf
    cases leaf

theorem isDir_above {p q : TreePath} (there : (t.node? q).isSome = true) (below : p <+: q) (other : q ≠ p) :
    t.isDir p = true := by
  cases dir : t.isDir p with
  | true => rfl
  | false =>
    rw [node?_below dir below other] at there
    cases there

theorem perform_yields {e : ε} {f : FileTree α → Option (FileTree α)} {post : Unit → FileTree α → Prop}
    (acted : ∀ t', f t = some t' → post () t') : (perform e f).Yields faults post t := by
  refine Program.Yields.call (fun _ t' ran => ?_)
  cases done : f t with
  | none =>
    rw [done] at ran
    cases ran
  | some u =>
    rw [done] at ran
    cases ran
    exact acted _ done

theorem perform_yields_self {e : ε} (f : FileTree α → Option (FileTree α)) :
    (perform e f).Yields faults (fun _ t' => f t = some t') t := perform_yields (fun _ done => done)

end FileTree

namespace GitAgentic

namespace Rollback

variable {Hash : Type} {faults : Prop} {repoRoot : String} {wanted : List TreePath}
  {t t' u : FileTree Bytes}

/- The sweep. -/

/-- In a part of the tree the files are gone that are not wanted; elsewhere everything is as it
was. Where nothing fails by itself, no directory of that part is left without a file below it. -/
structure Cleared (faults : Prop) (wanted : List TreePath) (part : TreePath → Prop)
    (t t' : FileTree Bytes) : Prop where
  outside : ∀ q, ¬ part q → t'.node? q = t.node? q
  files : ∀ q, part q → t'.file? q = if q ∈ wanted then t.file? q else none
  dirs : ∀ q, part q → t'.isDir q = true → t.isDir q = true
  bare : ¬ faults → ∀ q, part q → t'.isDir q = true → ∃ r, q <+: r ∧ (t'.file? r).isSome = true

def Below (here q : TreePath) : Prop := here <+: q ∧ q ≠ here

namespace Cleared

variable {part part' : TreePath → Prop}

theorem nothing (none : ∀ q, ¬ part q) : Cleared faults wanted part t t where
  outside := fun _ _ => rfl
  files := fun q here => absurd here (none q)
  dirs := fun _ _ dir => dir
  bare := fun _ q here => absurd here (none q)

theorem extend (h : Cleared faults wanted part t t') (more : ∀ q, part q → part' q)
    (empty : ∀ q, part' q → ¬ part q → t.node? q = none) : Cleared faults wanted part' t t' where
  outside := fun q out => h.outside q (fun here => out (more q here))
  files := by
    intro q here
    by_cases inner : part q
    · exact h.files q inner
    · have gone := empty q here inner
      have before : t.file? q = none := by rw [FileTree.file?, gone]
      rw [FileTree.file?_congr (h.outside q inner), before, ite_self]
  dirs := by
    intro q here dir
    by_cases inner : part q
    · exact h.dirs q inner dir
    · rwa [FileTree.isDir_congr (h.outside q inner)] at dir
  bare := by
    intro sound q here dir
    by_cases inner : part q
    · exact h.bare sound q inner dir
    · rw [FileTree.isDir_iff, h.outside q inner, empty q here inner] at dir
      cases dir

theorem union (first : Cleared faults wanted part t u) (second : Cleared faults wanted part' u t')
    (apart : ∀ q, part q → ¬ part' q) (down : ∀ q r, part q → q <+: r → part r) :
    Cleared faults wanted (fun q => part q ∨ part' q) t t' where
  outside := by
    intro q out
    rw [second.outside q (fun here => out (Or.inr here)), first.outside q (fun here => out (Or.inl here))]
  files := by
    rintro q (here | here)
    · rw [FileTree.file?_congr (second.outside q (apart q here))]
      exact first.files q here
    · rw [second.files q here, FileTree.file?_congr (first.outside q (fun also_ => apart q also_ here))]
  dirs := by
    rintro q (here | here) dir
    · rw [FileTree.isDir_congr (second.outside q (apart q here))] at dir
      exact first.dirs q here dir
    · have before := second.dirs q here dir
      rwa [FileTree.isDir_congr (first.outside q (fun also_ => apart q also_ here))] at before
  bare := by
    rintro sound q (here | here) dir
    · rw [FileTree.isDir_congr (second.outside q (apart q here))] at dir
      obtain ⟨r, below, held⟩ := first.bare sound q here dir
      refine ⟨r, below, ?_⟩
      rwa [FileTree.file?_congr (second.outside r (apart r (down q r here below)))]
    · exact second.bare sound q here dir

theorem above {p : TreePath} (h : Cleared faults wanted (Below p) t u) (dir : t.isDir p = true)
    (used : ¬ faults → ∃ r, p <+: r ∧ (u.file? r).isSome = true) : Cleared faults wanted (p <+: ·) t u := by
  have top : u.node? p = t.node? p := h.outside p (fun below => below.2 rfl)
  constructor
  · exact fun q out => h.outside q (fun below => out below.1)
  · intro q here
    by_cases same : q = p
    · subst same
      rw [FileTree.file?_congr top, FileTree.file?_of_isDir dir, ite_self]
    · exact h.files q ⟨here, same⟩
  · intro q here dir'
    by_cases same : q = p
    · rw [same]
      exact dir
    · exact h.dirs q ⟨here, same⟩ dir'
  · intro sound q here dir'
    by_cases same : q = p
    · rw [same]
      exact used sound
    · exact h.bare sound q ⟨here, same⟩ dir'

/-- An empty directory goes with all below it. -/
theorem remove {p : TreePath} (h : Cleared faults wanted (Below p) t u) (dir : t.isDir p = true)
    (empty : ∀ name, u.node? (p ++ [name]) = none)
    (gone : ∀ q, t'.node? q = if q = p then none else u.node? q) : Cleared faults wanted (p <+: ·) t t' := by
  have bare : ∀ q, p <+: q → t'.node? q = none := by
    intro q below
    rw [gone q]
    split
    · rfl
    rename_i other
    obtain ⟨rest, rfl⟩ := below
    cases rest with
    | nil => exact absurd (List.append_nil p) other
    | cons name rest =>
      have split : p ++ name :: rest = p ++ [name] ++ rest := List.append_cons p name rest
      cases found : u.node? (p ++ name :: rest) with
      | none => rfl
      | some n =>
        rw [split] at found
        by_cases last : rest = []
        · rw [last, List.append_nil, empty name] at found
          cases found
        · have above := FileTree.prefix_isDir found last
          rw [empty name] at above
          cases above
  constructor
  · intro q out
    have other : q ≠ p := by
      rintro rfl
      exact out (List.prefix_refl q)
    rw [gone q, if_neg other]
    exact h.outside q (fun below => out below.1)
  · intro q here
    have after : t'.file? q = none := by rw [FileTree.file?, bare q here]
    rw [after]
    by_cases same : q = p
    · rw [same, FileTree.file?_of_isDir dir, ite_self]
    · rw [← h.files q ⟨here, same⟩, ← after]
      refine FileTree.file?_congr ?_
      rw [gone q, if_neg same]
  · intro q here dir'
    rw [FileTree.isDir_iff, bare q here] at dir'
    cases dir'
  · intro _ q here dir'
    rw [FileTree.isDir_iff, bare q here] at dir'
    cases dir'

end Cleared

theorem readWork_yields {α : Type} (f : FileTree Bytes → Except (DaemonError Hash) α) {e : DaemonError Hash} :
    (Program.read f e : WorkProgram Hash α).Yields faults (fun _ t' => t' = t) t :=
  Program.Yields.read (fun _ _ => rfl)

theorem readDir_yields {here : TreePath} :
    (readDir here : WorkProgram Hash _).Yields faults
      (fun listed t' => t' = t ∧ t.isDir here = true ∧ listed = t.readDir here) t := by
  refine Program.Yields.read (fun listed found => ?_)
  split at found
  · rename_i dir
    exact ⟨rfl, dir, (Except.ok.inj found).symm⟩
  · cases found

theorem removeOrphan_yields {p : TreePath} {c : Bytes} (held : t.node? p = some (.file c)) :
    (removeOrphan repoRoot wanted p : WorkProgram Hash Unit).Yields faults
      (fun _ t' => Cleared faults wanted (p <+: ·) t t') t := by
  have leaf := FileTree.isDir_of_file held
  have noDir : ∀ q, p <+: q → t.isDir q = false := by
    intro q below
    by_cases same : q = p
    · rw [same, leaf]
    · rw [FileTree.isDir, FileTree.node?_below leaf below same]
  unfold removeOrphan
  split
  · rename_i kept
    refine Program.Yields.value ⟨fun _ _ => rfl, fun q below => ?_, fun _ _ dir => dir, fun _ q below dir => ?_⟩
    · by_cases same : q = p
      · rw [same, if_pos kept]
      · have none : t.file? q = none := by rw [FileTree.file?, FileTree.node?_below leaf below same]
        rw [none, ite_self]
    · rw [noDir q below] at dir
      cases dir
  · rename_i orphan
    refine FileTree.perform_yields (fun t' removed => ?_)
    obtain ⟨_, gone⟩ := FileTree.removeFile_node? removed
    have bare : ∀ q, p <+: q → t'.node? q = none := by
      intro q below
      rw [gone q]
      split
      · rfl
      · rename_i other
        exact FileTree.node?_below leaf below other
    refine ⟨fun q out => ?_, fun q below => ?_, fun q below dir => ?_, fun _ q below dir => ?_⟩
    · rw [gone q, if_neg]
      rintro rfl
      exact out (List.prefix_refl q)
    · have after : t'.file? q = none := by rw [FileTree.file?, bare q below]
      rw [after]
      by_cases same : q = p
      · rw [same, if_neg orphan]
      · rw [FileTree.file?, FileTree.node?_below leaf below same, ite_self]
    · rw [FileTree.isDir_iff, bare q below] at dir
      cases dir
    · rw [FileTree.isDir_iff, bare q below] at dir
      cases dir

theorem removeIfEmpty_yields {p : TreePath} (other : p ≠ promptsDir) (proper : p ≠ []) (dir : t.isDir p = true)
    (cleared : Cleared faults wanted (Below p) t u) :
    (removeIfEmpty promptsDir p : WorkProgram Hash Unit).Yields faults
      (fun _ t' => Cleared faults wanted (p <+: ·) t t') u := by
  unfold removeIfEmpty
  rw [if_neg other]
  refine Program.Yields.bind readDir_yields ?_
  rintro left u ⟨rfl, there, rfl⟩
  split
  · rename_i empty
    have tried : (FileTree.perform (.io : DaemonError Hash) (fun t => t.removeDir p)).Safe faults
        (fun _ => True) (fun _ t' => Cleared faults wanted (p <+: ·) t t') u := by
      refine FileTree.perform_safe _ trivial (fun t' removed => ?_) (fun failed => ?_)
      · obtain ⟨_, bare, gone⟩ := FileTree.removeDir_node? removed
        exact cleared.remove dir bare gone
      · refine cleared.above dir (fun sound => ?_)
        rcases failed with bad | refused
        · exact absurd bad sound
        · simp [FileTree.removeDir, proper, there, empty] at refused
    exact Program.Yields.bind (Program.Yields.attempt tried) (fun _ _ done => Program.Yields.value done)
  · rename_i occupied
    refine Program.Yields.value (cleared.above dir (fun sound => ?_))
    obtain ⟨⟨name, node⟩, listed⟩ := List.exists_mem_of_ne_nil _ occupied
    have found := FileTree.mem_readDir.mp listed
    cases node with
    | file c => exact ⟨p ++ [name], List.prefix_append _ _, by rw [FileTree.file?_eq_some_iff.mpr found]; rfl⟩
    | dir =>
      have below : Below p (p ++ [name]) := ⟨List.prefix_append _ _, by simp⟩
      obtain ⟨r, further, held⟩ := cleared.bare sound _ below (FileTree.isDir_iff.mpr found)
      exact ⟨r, below.1.trans further, held⟩

theorem same_below {here q : TreePath} {a b : String} (first : here ++ [a] <+: q)
    (second : here ++ [b] <+: q) : a = b := by
  have same := (List.prefix_of_prefix_length_le first second (by simp)).eq_of_length (by simp)
  simpa using same

def Shallow (t : FileTree Bytes) (here : TreePath) (n : ℕ) : Prop :=
  ∀ q, here <+: q → (t.node? q).isSome = true → q.length ≤ here.length + n

/-- Every directory is swept to its depth; of what is listed, one name after the other is done with. -/
theorem sweepOrphans_yields {fuel : ℕ} {here : TreePath} (inside : promptsDir <+: here)
    (shallow : Shallow t here fuel) :
    (sweepOrphans repoRoot promptsDir wanted fuel here : WorkProgram Hash Unit).Yields faults
      (fun _ t' => Cleared faults wanted (Below here) t t' ∧ (0 < fuel → t.isDir here = true)) t := by
  induction fuel generalizing here t with
  | zero =>
    refine Program.Yields.value ⟨Cleared.extend (Cleared.nothing (fun _ => id)) (fun _ => False.elim) ?_, by simp⟩
    rintro q ⟨⟨rest, rfl⟩, other⟩ _
    cases found : t.node? (here ++ rest) with
    | none => rfl
    | some n =>
      have short := shallow _ (List.prefix_append here rest) (by rw [found]; rfl)
      rw [List.length_append] at short
      have bare : rest = [] := List.eq_nil_of_length_eq_zero (by omega)
      exact absurd (by rw [bare, List.append_nil]) other
  | succ fuel ih =>
    refine Program.Yields.bind readDir_yields ?_
    rintro entries t ⟨rfl, dir, rfl⟩
    have names := List.pairwise_map.mp (FileTree.readDir_nodup t here)
    refine Program.Yields.mono (Program.Yields.forEach
      (fun done u => Cleared faults wanted (fun q => ∃ e ∈ done, here ++ [e.1] <+: q) t u)
      (Cleared.nothing (by simp)) ?_) ?_
    · rintro before ⟨name, node⟩ after u split cleared
      -- nothing below this name was touched yet
      have fresh : ∀ q, here ++ [name] <+: q → ¬ ∃ e ∈ before, here ++ [e.1] <+: q := by
        rintro q below ⟨e, mem, also_⟩
        have apart := (List.pairwise_append.mp (split ▸ names)).2.2 e mem (name, node) List.mem_cons_self
        exact apart (same_below also_ below)
      have found : u.node? (here ++ [name]) = some node := by
        rw [cleared.outside _ (fresh _ (List.prefix_refl _)), ← FileTree.mem_readDir, split]
        exact List.mem_append_right before List.mem_cons_self
      have further : ∀ t', Cleared faults wanted (here ++ [name] <+: ·) u t' →
          Cleared faults wanted (fun q => ∃ e ∈ before ++ [(name, node)], here ++ [e.1] <+: q) t t' := by
        intro t' next
        have both := cleared.union next (fun q old new => fresh q new old)
          (fun q r ⟨e, mem, above⟩ below => ⟨e, mem, above.trans below⟩)
        refine both.extend ?_ ?_
        · rintro q (⟨e, mem, above⟩ | above)
          · exact ⟨e, List.mem_append_left _ mem, above⟩
          · exact ⟨(name, node), by simp, above⟩
        · rintro q ⟨e, mem, above⟩ out
          rcases List.mem_append.mp mem with old | new
          · exact absurd (Or.inl ⟨e, old, above⟩) out
          · rw [List.mem_singleton.mp new] at above
            exact absurd (Or.inr above) out
      cases node with
      | file c => exact Program.Yields.mono (removeOrphan_yields found) (fun _ t' => further t')
      | dir =>
        have deeper : Shallow u (here ++ [name]) fuel := by
          intro q below there
          rw [cleared.outside q (fresh q below)] at there
          have bound := shallow q ((List.prefix_append here [name]).trans below) there
          rw [List.length_append, List.length_singleton]
          omega
        have within : promptsDir <+: here ++ [name] := inside.trans (List.prefix_append _ _)
        have other : here ++ [name] ≠ promptsDir := by
          intro same
          have short := inside.length_le
          rw [← same, List.length_append, List.length_singleton] at short
          omega
        refine Program.Yields.bind (ih within deeper) (fun _ v swept => ?_)
        refine Program.Yields.mono (removeIfEmpty_yields other (by simp) (FileTree.isDir_iff.mpr found) swept.1)
          (fun _ t' => further t')
    · intro _ t' cleared
      refine ⟨cleared.extend ?_ ?_, fun _ => dir⟩
      · rintro q ⟨e, _, above⟩
        refine ⟨(List.prefix_append here [e.1]).trans above, ?_⟩
        rintro rfl
        have long := above.length_le
        simp at long
      · rintro q ⟨⟨rest, rfl⟩, other⟩ out
        cases rest with
        | nil => exact absurd (List.append_nil here) other
        | cons name rest =>
          cases found : t.node? (here ++ name :: rest) with
          | none => rfl
          | some n =>
            have split : here ++ name :: rest = here ++ [name] ++ rest := List.append_cons here name rest
            rw [split] at found
            obtain ⟨node, there⟩ : ∃ node, t.node? (here ++ [name]) = some node := by
              by_cases last : rest = []
              · rw [last, List.append_nil] at found
                exact ⟨n, found⟩
              · exact ⟨_, FileTree.prefix_isDir found last⟩
            refine absurd ⟨(name, node), ?_, split ▸ List.prefix_append _ rest⟩ out
            exact FileTree.mem_readDir.mpr there

theorem sweep_yields :
    (sweep repoRoot wanted : WorkProgram Hash Unit).Yields faults
      (fun _ t' => Cleared faults wanted (Below promptsDir) t t' ∧ t.isDir promptsDir = true) t := by
  have measured : (Program.read (fun t => .ok t.depth) .io : WorkProgram Hash ℕ).Yields faults
      (fun depth t' => t' = t ∧ depth = t.depth) t :=
    Program.Yields.read (fun depth found => ⟨rfl, (Except.ok.inj found).symm⟩)
  refine Program.Yields.bind measured ?_
  rintro depth t ⟨rfl, rfl⟩
  refine Program.Yields.mono (sweepOrphans_yields (List.prefix_refl _) (fun q _ there => ?_)) ?_
  · have bound := FileTree.length_le_depth there
    omega
  · exact fun _ t' swept => ⟨swept.1, swept.2 (Nat.succ_pos _)⟩

/- The entries. -/

/-- The files after one is written beside its place and renamed. -/
def leave (files : TreePath → Option Bytes) (e : TreePath × Bytes) : TreePath → Option Bytes := fun q =>
  if q = e.1 then some e.2 else if q = withTmp e.1 then none else files q

/-- The files that writing the entries in turn leaves in an empty place. A temporary file can be in
the place of an earlier entry, which is then gone. -/
def leftBy (entries : List (TreePath × Bytes)) : TreePath → Option Bytes :=
  entries.foldl leave (fun _ => none)

theorem leftBy_append (before : List (TreePath × Bytes)) (e : TreePath × Bytes) :
    leftBy (before ++ [e]) = leave (leftBy before) e := by
  rw [leftBy, List.foldl_append]
  rfl

theorem mem_of_leftBy {entries : List (TreePath × Bytes)} {q : TreePath} {c : Bytes}
    (left : leftBy entries q = some c) : (q, c) ∈ entries := by
  induction entries using List.reverseRecOn with
  | nil => cases left
  | append_singleton before e ih =>
    rw [leftBy_append, leave] at left
    split at left
    · rename_i here
      rw [here, ← Option.some.inj left]
      exact List.mem_append_right before (List.mem_singleton_self e)
    · split at left
      · cases left
      · exact List.mem_append_left [e] (ih left)

theorem foldl_leave {entries : List (TreePath × Bytes)} (files : TreePath → Option Bytes) {q : TreePath}
    (written : q ∈ entries.map Prod.fst) : entries.foldl leave files q = leftBy entries q := by
  induction entries using List.reverseRecOn with
  | nil => cases written
  | append_singleton before e ih =>
    rw [leftBy_append, List.foldl_append]
    show leave (before.foldl leave files) e q = _
    rw [leave, leave]
    split
    · rfl
    split
    · rfl
    · rename_i other _
      rw [List.map_append, List.mem_append] at written
      rcases written with old | new
      · exact ih old
      · exact absurd (List.mem_singleton.mp new) other

/-- The entries are written one after the other. -/
structure Written (entries : List (TreePath × Bytes)) (t t' : FileTree Bytes) : Prop where
  outside : ∀ q, ¬ promptsDir <+: q → t'.node? q = t.node? q
  files : ∀ q, t'.file? q = entries.foldl leave t.file? q

theorem grown_outside {p : TreePath} (grown : FileTree.Grown p t t') (below : promptsDir <+: p) {q : TreePath}
    (out : ¬ promptsDir <+: q) : t'.node? q = t.node? q := by
  rcases grown q with same | ⟨above, missing, _⟩
  · exact same
  · -- it is a way to the prompts directory, so it is the root
    rcases List.prefix_or_prefix_of_prefix below above with here | here
    · exact absurd here out
    · have root : q = [] := by
        rcases List.prefix_cons_iff.mp here with nil | ⟨rest, split, nil⟩
        · exact nil
        · rw [List.prefix_nil.mp nil] at split
          exact absurd (split ▸ List.prefix_refl _) out
      rw [root] at missing
      exact absurd (missing.symm.trans t.root) (by simp)

theorem createParents_yields {name : String} :
    (createParents name : WorkProgram Hash Unit).Yields faults
      (fun _ t' => FileTree.Grown (entryPath name).dropLast t t') t := by
  unfold createParents
  dsimp only
  split
  · exact Program.Yields.fail _
  · have above : [] ++ (entryPath name).dropLast <+: (entryPath name).dropLast := List.prefix_refl _
    exact Program.Safe.mono (FileTree.createDirAll_safe _ above t.isDir_root (FileTree.Grown.refl _ t))
      (fun _ _ => trivial) (fun _ _ made _ _ => made.1)

theorem writeBlobSafely_yields {name : String} {bytes : Bytes} :
    (writeBlobSafely repoRoot name bytes : WorkProgram Hash Unit).Yields faults
      (fun _ t' => ∀ q, t'.node? q = if q = entryPath name then some (.file bytes)
        else if q = withTmp (entryPath name) then none else t.node? q) t := by
  unfold writeBlobSafely
  generalize entryPath name = p
  dsimp only
  refine Program.Yields.bind (readWork_yields _) ?_
  rintro _ t rfl
  refine Program.Yields.bind (FileTree.perform_yields_self _) (fun _ u wrote => ?_)
  obtain ⟨_, put⟩ := FileTree.write_node? wrote
  refine FileTree.perform_yields (fun v moved => ?_)
  split at moved
  · cases moved
  obtain ⟨c, held, _, nodes⟩ := FileTree.rename_node? moved
  intro q
  rw [FileTree.file?_eq_some_iff, put, if_pos rfl] at held
  cases held
  rw [nodes q, put q]
  split
  · rfl
  split
  · rfl
  · rfl

variable {M : Type} {P : Platform Hash} {d d' : Daemon M} {α : Type}

theorem onWork_yields {p : WorkProgram Hash α} {post : α → FileTree Bytes → Prop}
    (h : p.Yields faults post d.work) :
    (onWork p : DaemonProgram Hash M α).Yields faults
      (fun a d' => d' = { d with work := d'.work } ∧ post a d'.work) d := by
  refine Program.Yields.focus (fun _ _ => rfl) (fun _ _ _ => rfl) (fun _ => rfl) ?_
  exact Program.Yields.mono h (fun _ _ given => ⟨rfl, given⟩)

theorem readObjects_yields (f : Files → Except (Error Hash) α) :
    (readObjects f : DaemonProgram Hash M α).Yields faults
      (fun a d' => d' = d ∧ f d.repo.objects = .ok a) d := by
  refine Program.Yields.mapError (Program.Yields.focus (fun _ _ => rfl) (fun _ _ _ => rfl) (fun _ => rfl) ?_)
  exact Program.Yields.read (fun a found => ⟨rfl, found⟩)

variable [DecidableEq Hash]

theorem loadTree_yields (hash : Hash) :
    (loadTree P hash : DaemonProgram Hash M _).Yields faults
      (fun tree d' => d' = d ∧ get P d.repo.objects hash = .ok (.tree tree)) d := by
  refine Program.Yields.bind (readObjects_yields _) ?_
  rintro object d ⟨rfl, found⟩
  cases object with
  | tree t => exact Program.Yields.value ⟨rfl, found⟩
  | blob _ | commit _ => exact Program.Yields.fail _

theorem loadBlob_yields (hash : Hash) :
    (loadBlob P hash : DaemonProgram Hash M _).Yields faults
      (fun blob d' => d' = d ∧ get P d.repo.objects hash = .ok (.blob blob)) d := by
  refine Program.Yields.bind (readObjects_yields _) ?_
  rintro object d ⟨rfl, found⟩
  cases object with
  | blob b => exact Program.Yields.value ⟨rfl, found⟩
  | tree _ | commit _ => exact Program.Yields.fail _

/-- The name is a way down, and the store has these bytes for it. -/
structure Holds (P : Platform Hash) (files : Files) (e : String × TypedRef Hash) (bytes : Bytes) : Prop where
  valid : (validateTreeEntryName e.1 : Except (DaemonError Hash) Unit) = .ok ()
  content : get P files e.2.hash = .ok (.blob ⟨bytes⟩)

theorem restoreEntry_yields (name : String) (r : TypedRef Hash) :
    (restoreEntry repoRoot P name r : DaemonProgram Hash M Unit).Yields faults
      (fun _ d' => d' = { d with work := d'.work } ∧ ∃ bytes, Holds P d.repo.objects (name, r) bytes ∧
        Written [(entryPath name, bytes)] d.work d'.work) d := by
  have named : (Program.ofExcept (validateTreeEntryName name) : DaemonProgram Hash M Unit).Yields faults
      (fun _ d' => d' = d ∧ (validateTreeEntryName name : Except (DaemonError Hash) Unit) = .ok ()) d :=
    Program.Yields.ofExcept (fun _ valid => ⟨rfl, valid⟩)
  refine Program.Yields.bind named ?_
  rintro _ d ⟨rfl, valid⟩
  refine Program.Yields.bind (onWork_yields createParents_yields) ?_
  rintro _ d₁ ⟨same, grown⟩
  refine Program.Yields.bind (loadBlob_yields r.hash) ?_
  rintro ⟨bytes⟩ d₁ ⟨rfl, content⟩
  refine Program.Yields.mono (onWork_yields writeBlobSafely_yields) ?_
  rintro _ d₂ ⟨same', nodes⟩
  rw [same] at content
  have below : promptsDir <+: (entryPath name).dropLast := OnDisk.below_of_valid valid
  have within : promptsDir <+: withTmp (entryPath name) := below.trans (List.prefix_append _ _)
  refine ⟨by rw [same', same], bytes, ⟨valid, content⟩, fun q out => ?_, fun q => ?_⟩
  · rw [nodes q, if_neg, if_neg, grown_outside grown below out]
    · rintro rfl
      exact out within
    · rintro rfl
      exact out (below.trans (List.dropLast_prefix _))
  · show _ = leave _ _ q
    rw [leave, FileTree.file?, nodes q]
    dsimp only
    by_cases here : q = entryPath name
    · rw [if_pos here, if_pos here]
    · rw [if_neg here, if_neg here]
      by_cases temp : q = withTmp (entryPath name)
      · rw [if_pos temp, if_pos temp]
      · rw [if_neg temp, if_neg temp]
        exact grown.file? q

/-- The entries as files. -/
def placed (entries : List (String × TypedRef Hash)) (contents : List Bytes) : List (TreePath × Bytes) :=
  List.zipWith (fun e c => (entryPath e.1, c)) entries contents

theorem restoreEntries_yields (entries : List (String × TypedRef Hash)) :
    (Program.forEach (fun e => restoreEntry repoRoot P e.1 e.2) entries : DaemonProgram Hash M Unit).Yields faults
      (fun _ d' => d' = { d with work := d'.work } ∧ ∃ contents,
        List.Forall₂ (Holds P d.repo.objects) entries contents ∧
        Written (placed entries contents) d.work d'.work) d := by
  refine Program.Yields.forEach (fun done (d' : Daemon M) => d' = { d with work := d'.work } ∧ ∃ contents,
    List.Forall₂ (Holds P d.repo.objects) done contents ∧ Written (placed done contents) d.work d'.work)
    ⟨rfl, [], List.Forall₂.nil, fun _ _ => rfl, fun _ => rfl⟩ ?_
  rintro before ⟨name, r⟩ _ d₁ _ ⟨same, contents, held, written⟩
  refine Program.Yields.mono (restoreEntry_yields name r) ?_
  rintro _ d₂ ⟨same', bytes, holds, next⟩
  rw [same] at holds
  refine ⟨by rw [same', same], contents ++ [bytes],
    List.rel_append held (List.Forall₂.cons holds List.Forall₂.nil), ?_⟩
  have split : placed (before ++ [(name, r)]) (contents ++ [bytes]) =
      placed before contents ++ [(entryPath name, bytes)] := List.zipWith_append held.length_eq
  rw [split]
  constructor
  · exact fun q out => (next.outside q out).trans (written.outside q out)
  · intro q
    rw [next.files q, List.foldl_append, funext written.files]

/-- The prompts directory has these files, directories on the way to them, and nothing else; all
around it is as it was. -/
structure Restored (faults : Prop) (entries : List (TreePath × Bytes)) (t t' : FileTree Bytes) : Prop where
  outside : ∀ q, ¬ promptsDir <+: q → t'.node? q = t.node? q
  root : t'.isDir promptsDir = true
  files : ∀ q, promptsDir <+: q → t'.file? q = leftBy entries q
  dirs : ¬ faults → ∀ q, Below promptsDir q → (t'.isDir q = true ↔ ∃ r, Below q r ∧ (t'.file? r).isSome = true)

omit [DecidableEq Hash] in
theorem placed_paths {entries : List (String × TypedRef Hash)} {contents : List Bytes}
    (same : entries.length = contents.length) :
    (placed entries contents).map Prod.fst = entries.map (fun e => entryPath e.1) := by
  rw [placed, List.map_zipWith]
  induction entries generalizing contents with
  | nil => rfl
  | cons e entries ih =>
    cases contents with
    | nil => cases same
    | cons c contents =>
      rw [List.zipWith_cons_cons, List.map_cons, ih (Nat.succ.inj same)]

theorem restored_of_swept {entries : List (TreePath × Bytes)} {wanted : List TreePath}
    (paths : entries.map Prod.fst = wanted) (written : Written entries t u)
    (cleared : Cleared faults wanted (Below promptsDir) u t') (root : u.isDir promptsDir = true) :
    Restored faults entries t t' := by
  subst paths
  have top : t'.isDir promptsDir = true := by
    rw [FileTree.isDir_congr (cleared.outside _ (fun below => below.2 rfl))]
    exact root
  constructor
  · intro q out
    rw [cleared.outside q (fun below => out below.1), written.outside q out]
  · exact top
  · intro q inside
    have unwritten : q ∉ entries.map Prod.fst → leftBy entries q = none := by
      intro other
      cases left : leftBy entries q with
      | none => rfl
      | some c => exact absurd (List.mem_map_of_mem (mem_of_leftBy left)) other
    by_cases here : q = promptsDir
    · have bare : t'.file? q = none := FileTree.file?_of_isDir (here ▸ top)
      by_cases wanted : q ∈ entries.map Prod.fst
      · rw [bare, ← foldl_leave t.file? wanted, ← written.files, here, FileTree.file?_of_isDir root]
      · rw [bare, unwritten wanted]
    · rw [cleared.files q ⟨inside, here⟩]
      split
      · rename_i wanted
        rw [written.files, foldl_leave _ wanted]
      · rename_i other
        exact (unwritten other).symm
  · intro sound q below
    constructor
    · intro dir
      obtain ⟨r, above, held⟩ := cleared.bare sound q below dir
      refine ⟨r, ⟨above, ?_⟩, held⟩
      rintro rfl
      rw [FileTree.file?_of_isDir dir] at held
      cases held
    · rintro ⟨r, ⟨above, other⟩, held⟩
      obtain ⟨c, hc⟩ := Option.isSome_iff_exists.mp held
      exact FileTree.isDir_above (Option.isSome_of_eq_some (FileTree.file?_eq_some_iff.mp hc)) above other

theorem restorePrompts_yields (promptsHash : Hash) :
    (restorePrompts repoRoot P promptsHash : DaemonProgram Hash M Unit).Yields faults
      (fun _ d' => d' = { d with work := d'.work } ∧ ∃ tree contents,
        get P d.repo.objects promptsHash = .ok (.tree tree) ∧
        List.Forall₂ (Holds P d.repo.objects) tree.entries.entries contents ∧
        Restored faults (placed tree.entries.entries contents) d.work d'.work) d := by
  have made : (FileTree.createDirAll (.io : DaemonError Hash) [] promptsDir).Yields faults
      (fun _ t' => FileTree.Grown promptsDir d.work t') d.work :=
    Program.Safe.mono (FileTree.createDirAll_safe _ (List.prefix_refl _) d.work.isDir_root
      (FileTree.Grown.refl _ _)) (fun _ _ => trivial) (fun _ _ ended _ _ => ended.1)
  refine Program.Yields.bind (onWork_yields made) ?_
  rintro _ d₁ ⟨same, grown⟩
  refine Program.Yields.bind (loadTree_yields promptsHash) ?_
  rintro tree d₁ ⟨rfl, found⟩
  refine Program.Yields.bind (restoreEntries_yields _) ?_
  rintro _ d₂ ⟨same', contents, held, written⟩
  refine Program.Yields.mono (onWork_yields sweep_yields) ?_
  rintro _ d₃ ⟨same'', cleared, root⟩
  rw [same] at found held
  refine ⟨by rw [same'', same', same], tree, contents, found, held, ?_⟩
  refine restored_of_swept (placed_paths held.length_eq) ⟨fun q out => ?_, fun q => ?_⟩ cleared root
  · rw [written.outside q out, grown_outside grown (List.prefix_refl _) out]
  · rw [written.files q, show d₁.work.file? = d.work.file? from funext grown.file?]

theorem restorePrompts_run {promptsHash : Hash} (ran : (restorePrompts repoRoot P promptsHash).run d = (.ok (), d')) :
    d' = { d with work := d'.work } ∧ ∃ tree contents,
      get P d.repo.objects promptsHash = .ok (.tree tree) ∧
      List.Forall₂ (Holds P d.repo.objects) tree.entries.entries contents ∧
      Restored False (placed tree.entries.entries contents) d.work d'.work := by
  have left : (restorePrompts repoRoot P promptsHash : DaemonProgram Hash M Unit).Yields False _ d :=
    restorePrompts_yields promptsHash
  exact left.ran ran

/-- Whatever was in the prompts directory and whatever operations failed: a restore that succeeds
leaves in it the files that writing the entries of the tree in an empty place leaves, and no other;
undisturbed it leaves no directory either but those on the way to a file. Around it nothing has
changed, and neither have the repository and the memory. -/
theorem restored_exactly {promptsHash : Hash}
    (reached : Program.Reaches (restorePrompts repoRoot P promptsHash, d) (.done (.ok ()), d')) :
    d' = { d with work := d'.work } ∧ ∃ tree contents,
      get P d.repo.objects promptsHash = .ok (.tree tree) ∧
      List.Forall₂ (Holds P d.repo.objects) tree.entries.entries contents ∧
      Restored True (placed tree.entries.entries contents) d.work d'.work ∧
      ((restorePrompts repoRoot P promptsHash).run d = (.ok (), d') →
        Restored False (placed tree.entries.entries contents) d.work d'.work) := by
  obtain ⟨same, tree, contents, found, held, restored⟩ := (restorePrompts_yields promptsHash).reached reached
  refine ⟨same, tree, contents, found, held, restored, fun ran => ?_⟩
  obtain ⟨_, _, _, _, _, sound⟩ := restorePrompts_run ran
  exact ⟨restored.outside, restored.root, restored.files, sound.dirs⟩

/- The steps of a rollback that succeeds. -/

variable {hmac : Hmac} {config : DaemonConfig Hash M}

theorem promptsStep_run {args : RollbackArgs} {target : Commit Hash} {promptsHash : Hash} {plan : List String}
    (named : target.prompts = some promptsHash)
    (ran : (promptsStep P config args.live target).run d = (.ok plan, d')) :
    (restorePrompts config.repoRoot P promptsHash).run d = (.ok (), d') := by
  unfold promptsStep at ran
  simp only [named] at ran
  obtain ⟨_, d₁, restored, ended⟩ := Program.run_bind_eq_ok_iff.mp ran
  cases ended
  exact restored

theorem forwardRecord_repo {targetHash : Hash} {target : Commit Hash} {branch : String} {tip : Option Hash}
    {peerUid : Option UInt32} {now : Int} {out : CommitOutputs Hash}
    (ran : (forwardRecord P config targetHash target branch tip peerUid now).run d = (.ok out, d')) :
    d' = { d with repo := d'.repo } := by
  obtain ⟨prompts, _, ran⟩ := (readTextBlobs_still _).then_ok ran
  obtain ⟨tools, _, ran⟩ := (readTextBlobs_still _).then_ok ran
  obtain ⟨model, _, ran⟩ := (readModelText_still _).then_ok ran
  have staged := Program.run_mapError_eq_ok_iff.mp ran
  rw [run_onRepository] at staged
  rw [← (Prod.mk.inj staged).2]

theorem execute_run {c : Commit Hash} {args : RollbackArgs} {peerUid : Option UInt32} {nowSeconds : UInt64}
    {now : Int} {out : RollbackOutput}
    (resolved : ((Refs.resolve P args.target).run d.repo.agentic).1 = .ok (some ((Object.commit c).hash P)))
    (ran : (execute P hmac config args.live peerUid nowSeconds now).run d = (.ok out, d')) :
    ∃ branch tip memoryPlan promptsPlan recorded d₁ d₂,
      (memoryStep P config args.live c).run d = (.ok memoryPlan, d₁) ∧
      (promptsStep P config args.live c).run d₁ = (.ok promptsPlan, d₂) ∧
      (forwardRecord P config ((Object.commit c).hash P) c branch tip peerUid now).run d₂ = (.ok recorded, d') := by
  obtain ⟨hash, looked, ran⟩ := (resolveTarget_still _).then_ok ran
  have same := Except.ok.inj ((resolveTarget_run looked).symm.trans resolved)
  obtain rfl := Option.some.inj same
  obtain ⟨_, _, ran⟩ := (Program.Still.ofExcept _).then_ok ran
  obtain ⟨loaded, fetched, ran⟩ := (loadCommit_still _).then_ok ran
  obtain rfl : loaded = c :=
    Object.commit.inj (Object.preimage_inj P rfl (P.of_injective (hash_of_get (loadCommit_run fetched))))
  obtain ⟨_, _, ran⟩ := (Program.Still.ofExcept _).then_ok ran
  obtain ⟨branch, _, ran⟩ := headBranch_still.then_ok ran
  obtain ⟨tip, _, ran⟩ := (onDaemonRefs_still (Refs.readBranch_still branch)).then_ok ran
  obtain ⟨memoryPlan, d₁, restored, ran⟩ := Program.run_bind_eq_ok_iff.mp ran
  obtain ⟨promptsPlan, d₂, rewritten, ran⟩ := Program.run_bind_eq_ok_iff.mp ran
  obtain ⟨recorded, d₃, staged, ended⟩ := Program.run_bind_eq_ok_iff.mp ran
  cases ended
  exact ⟨branch, tip, memoryPlan, promptsPlan, recorded, d₁, d₂, restored, rewritten, staged⟩

/- A prompt that is not in the tree, and a directory for none. -/

def staleWork : FileTree Bytes :=
  [(["prompts"], .dir), (["prompts", "old"], .dir), (["prompts", "old", "system.md"], .file [111]),
    (["notes.md"], .file [110])].foldl (fun t (e : TreePath × TreeNode Bytes) => match e.2 with
      | .dir => (t.createDir e.1).getD t
      | .file c => (t.write e.1 c).getD t) FileTree.empty

def stale : Daemon Unit where
  repo := { objects := OnDisk.onePromptFiles, agentic := FileTree.empty }
  work := staleWork
  memory := ()
  reversed := []

theorem restored_exactly_stale : ∃ d', (restorePrompts "." Platform.sample
      ((Object.tree OnDisk.onePrompt).hash Platform.sample) : DaemonProgram Bytes Unit Unit).run stale = (.ok (), d') ∧
    Restored False [(["prompts", "system.md"], [104, 105])] staleWork d'.work := by
  have ended : ((restorePrompts "." Platform.sample ((Object.tree OnDisk.onePrompt).hash Platform.sample) :
      DaemonProgram Bytes Unit Unit).run stale).1 = .ok () := by decide +kernel
  have ran := outcome_of ended
  refine ⟨_, ran, ?_⟩
  obtain ⟨_, tree, contents, found, held, _, undisturbed⟩ := restored_exactly (Program.reaches_of_run ran)
  cases OnDisk.get_onePrompt.symm.trans found
  have entries : OnDisk.onePrompt.entries.entries = [("system.md", ⟨.blob, [104, 105]⟩)] := by decide +kernel
  rw [entries] at held undisturbed
  cases held with
  | cons first rest =>
    cases rest
    have content : get Platform.sample OnDisk.onePromptFiles [104, 105] = .ok (.blob ⟨[104, 105]⟩) := by decide +kernel
    cases content.symm.trans first.content
    have path : entryPath "system.md" = ["prompts", "system.md"] := by decide +kernel
    have restored := undisturbed ran
    rwa [placed, List.zipWith_cons_cons, path] at restored

end Rollback

end GitAgentic
