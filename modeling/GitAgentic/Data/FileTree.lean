import GitAgentic.Data.Program

/-! A directory tree as a finite map from paths to nodes. A path is its list of names
from the root; whatever is in the tree lies in a directory of it. -/

inductive TreeNode (α : Type) where
  | dir
  | file (content : α)
  deriving DecidableEq, Repr

abbrev TreePath := List String

structure FileTree (α : Type) where
  nodes : AList (fun _ : TreePath => TreeNode α)
  root : nodes.lookup [] = some .dir
  within : ∀ p name, (nodes.lookup (p ++ [name])).isSome → nodes.lookup p = some .dir

namespace FileTree

variable {α : Type}

def node? (t : FileTree α) (p : TreePath) : Option (TreeNode α) := t.nodes.lookup p

def file? (t : FileTree α) (p : TreePath) : Option α :=
  match t.node? p with
  | some (.file c) => some c
  | _ => none

def isDir (t : FileTree α) (p : TreePath) : Bool :=
  match t.node? p with
  | some .dir => true
  | _ => false

def empty : FileTree α where
  nodes := AList.singleton [] .dir
  root := rfl
  within p name h := by
    rw [AList.lookup_isSome, AList.mem_keys, AList.keys_singleton] at h
    simp at h

theorem node?_empty {p : TreePath} (proper : p ≠ []) : (empty : FileTree α).node? p = none := by
  rw [node?, empty, AList.lookup_eq_none, AList.mem_keys, AList.keys_singleton]
  simpa using proper

theorem file?_empty (p : TreePath) : (empty : FileTree α).file? p = none := by
  by_cases root : p = []
  · subst root
    rfl
  · rw [file?, node?_empty root]

theorem isDir_iff {t : FileTree α} {p : TreePath} : t.isDir p = true ↔ t.node? p = some .dir := by
  unfold isDir
  split <;> simp_all

theorem file?_eq_some_iff {t : FileTree α} {p : TreePath} {c : α} :
    t.file? p = some c ↔ t.node? p = some (.file c) := by
  unfold file?
  split <;> simp_all

theorem isDir_root (t : FileTree α) : t.isDir [] = true := isDir_iff.mpr t.root

theorem parent_isDir {t : FileTree α} {p : TreePath} {name : String} {n : TreeNode α}
    (h : t.node? (p ++ [name]) = some n) : t.node? p = some .dir :=
  t.within p name (Option.isSome_of_eq_some h)

theorem prefix_isDir {t : FileTree α} {p q : TreePath} {n : TreeNode α} (h : t.node? (p ++ q) = some n)
    (proper : q ≠ []) : t.node? p = some .dir := by
  induction q using List.reverseRecOn generalizing n with
  | nil => exact absurd rfl proper
  | append_singleton q name ih =>
    rw [← List.append_assoc] at h
    have parent := parent_isDir h
    by_cases last : q = []
    · subst last
      simpa using parent
    · exact ih parent last

/-- Puts a node at a path that is not a directory, below a directory. -/
def put (t : FileTree α) (p : TreePath) (n : TreeNode α) (proper : p ≠ []) (below : t.isDir p.dropLast)
    (free : t.isDir p = false) : FileTree α where
  nodes := t.nodes.insert p n
  root := by
    rw [AList.lookup_insert_ne (Ne.symm proper)]
    exact t.root
  within q name h := by
    have parent : t.nodes.lookup q = some .dir := by
      by_cases here : q ++ [name] = p
      · subst here
        rw [List.dropLast_concat] at below
        exact isDir_iff.mp below
      · rw [AList.lookup_insert_ne here] at h
        exact t.within q name h
    have other : q ≠ p := by
      rintro rfl
      rw [isDir_iff.mpr parent] at free
      cases free
    rw [AList.lookup_insert_ne other]
    exact parent

/-- Takes away a node that is not the root and has nothing below it. -/
def drop (t : FileTree α) (p : TreePath) (proper : p ≠ [])
    (bare : ∀ name, t.node? (p ++ [name]) = none) : FileTree α where
  nodes := t.nodes.erase p
  root := by
    rw [AList.lookup_erase_ne (Ne.symm proper)]
    exact t.root
  within q name h := by
    have here : q ++ [name] ≠ p := by
      rintro rfl
      simp at h
    rw [AList.lookup_erase_ne here] at h
    have other : q ≠ p := by
      rintro rfl
      rw [show t.nodes.lookup (q ++ [name]) = none from bare name] at h
      cases h
    rw [AList.lookup_erase_ne other]
    exact t.within q name h

theorem node?_put {t : FileTree α} {p : TreePath} {n : TreeNode α} {proper : p ≠ []}
    {below : t.isDir p.dropLast} {free : t.isDir p = false} (q : TreePath) :
    (t.put p n proper below free).node? q = if q = p then some n else t.node? q := by
  unfold node? put
  split
  · rename_i here
    subst here
    exact AList.lookup_insert _
  · rename_i other
    exact AList.lookup_insert_ne other

theorem node?_drop {t : FileTree α} {p : TreePath} {proper : p ≠ []}
    {bare : ∀ name, t.node? (p ++ [name]) = none} (q : TreePath) :
    (t.drop p proper bare).node? q = if q = p then none else t.node? q := by
  unfold node? drop
  split
  · rename_i here
    subst here
    exact AList.lookup_erase _ _
  · rename_i other
    exact AList.lookup_erase_ne other

theorem bare_of_not_dir {t : FileTree α} {p : TreePath} (h : t.isDir p = false) (name : String) :
    t.node? (p ++ [name]) = none := by
  cases found : t.node? (p ++ [name]) with
  | none => rfl
  | some n =>
    rw [isDir_iff.mpr (parent_isDir found)] at h
    cases h

/-- `mkdir`: the parent is there and the name is free. -/
def createDir (t : FileTree α) (p : TreePath) : Option (FileTree α) :=
  if h : p ≠ [] ∧ t.isDir p.dropLast = true ∧ (t.node? p).isNone = true then
    some (t.put p .dir h.1 h.2.1 (by
      cases found : t.node? p with
      | none => simp [isDir, found]
      | some n => simp [found] at h))
  else none

def write (t : FileTree α) (p : TreePath) (content : α) : Option (FileTree α) :=
  if h : p ≠ [] ∧ t.isDir p.dropLast = true ∧ t.isDir p = false then
    some (t.put p (.file content) h.1 h.2.1 h.2.2)
  else none

/-- `unlink` -/
def removeFile (t : FileTree α) (p : TreePath) : Option (FileTree α) :=
  if h : p ≠ [] ∧ (t.file? p).isSome = true then
    some (t.drop p h.1 (bare_of_not_dir (by
      obtain ⟨c, hc⟩ := Option.isSome_iff_exists.mp h.2
      simp [isDir, file?_eq_some_iff.mp hc])))
  else none

def nameIn (p q : TreePath) : Option String := if q.dropLast = p then q.getLast? else none

theorem nameIn_eq_some_iff {p q : TreePath} {name : String} :
    nameIn p q = some name ↔ q = p ++ [name] := by
  unfold nameIn
  constructor
  · intro h
    split at h
    · rename_i here
      rw [← here, List.dropLast_append_getLast? name h]
    · cases h
  · rintro rfl
    simp

def readDir (t : FileTree α) (p : TreePath) : List (String × TreeNode α) :=
  t.nodes.entries.filterMap (fun e => (nameIn p e.1).map (fun name => (name, e.2)))

theorem mem_readDir {t : FileTree α} {p : TreePath} {name : String} {n : TreeNode α} :
    (name, n) ∈ t.readDir p ↔ t.node? (p ++ [name]) = some n := by
  unfold readDir node?
  rw [List.mem_filterMap, ← Option.mem_def, AList.mem_lookup_iff]
  constructor
  · rintro ⟨e, he, h⟩
    obtain ⟨name', listed, same⟩ := Option.map_eq_some_iff.mp h
    cases same
    rw [← nameIn_eq_some_iff.mp listed]
    exact he
  · intro he
    exact ⟨⟨p ++ [name], n⟩, he, by simp [nameIn]⟩

theorem readDir_nodup (t : FileTree α) (p : TreePath) : ((t.readDir p).map Prod.fst).Nodup := by
  have names : (t.readDir p).map Prod.fst = t.nodes.keys.filterMap (nameIn p) := by
    rw [readDir, List.map_filterMap, AList.keys, List.keys, List.filterMap_map]
    refine List.filterMap_congr (fun e _ => ?_)
    cases h : nameIn p e.1 <;> simp [h]
  rw [names]
  refine List.Nodup.filterMap ?_ t.nodes.keys_nodup
  intro q q' name h h'
  rw [nameIn_eq_some_iff.mp h, nameIn_eq_some_iff.mp h']

/-- `rmdir`: only an empty directory goes. -/
def removeDir (t : FileTree α) (p : TreePath) : Option (FileTree α) :=
  if h : p ≠ [] ∧ t.isDir p = true ∧ t.readDir p = [] then
    some (t.drop p h.1 (fun name => by
      cases found : t.node? (p ++ [name]) with
      | none => rfl
      | some n =>
        have listed := mem_readDir.mpr found
        rw [h.2.2] at listed
        cases listed))
  else none

/-- `rename` of a file, over a file or to a free name. -/
def rename (t : FileTree α) (p q : TreePath) : Option (FileTree α) :=
  match t.file? p with
  | none => none
  | some content =>
    if t.isDir q then none
    else do
      let t ← t.removeFile p
      t.write q content

theorem createDir_node? {t t' : FileTree α} {p : TreePath} (h : t.createDir p = some t') :
    t.node? p = none ∧ ∀ q, t'.node? q = if q = p then some .dir else t.node? q := by
  unfold createDir at h
  split at h
  · rename_i free
    cases h
    exact ⟨by simpa using free.2.2, node?_put⟩
  · cases h

theorem createDir_isSome {t : FileTree α} {p : TreePath} (proper : p ≠ [])
    (below : t.isDir p.dropLast = true) (free : t.node? p = none) :
    (t.createDir p).isSome = true := by
  simp [createDir, proper, below, free]

theorem write_node? {t t' : FileTree α} {p : TreePath} {c : α} (h : t.write p c = some t') :
    t.isDir p = false ∧ ∀ q, t'.node? q = if q = p then some (.file c) else t.node? q := by
  unfold write at h
  split at h
  · rename_i free
    cases h
    exact ⟨free.2.2, node?_put⟩
  · cases h

theorem write_isSome {t : FileTree α} {p : TreePath} {c : α} (proper : p ≠ [])
    (below : t.isDir p.dropLast = true) (free : t.isDir p = false) :
    (t.write p c).isSome = true := by
  simp [write, proper, below, free]

theorem removeFile_node? {t t' : FileTree α} {p : TreePath} (h : t.removeFile p = some t') :
    (t.file? p).isSome = true ∧ ∀ q, t'.node? q = if q = p then none else t.node? q := by
  unfold removeFile at h
  split at h
  · rename_i held
    cases h
    exact ⟨held.2, node?_drop⟩
  · cases h

theorem file?_ne_root {t : FileTree α} {p : TreePath} {c : α} (h : t.file? p = some c) : p ≠ [] := by
  rintro rfl
  have both := (file?_eq_some_iff.mp h).symm.trans t.root
  cases both

theorem removeDir_node? {t t' : FileTree α} {p : TreePath} (h : t.removeDir p = some t') :
    t.isDir p = true ∧ (∀ name, t.node? (p ++ [name]) = none) ∧
      ∀ q, t'.node? q = if q = p then none else t.node? q := by
  unfold removeDir at h
  split at h
  · rename_i held
    cases h
    refine ⟨held.2.1, fun name => ?_, node?_drop⟩
    cases found : t.node? (p ++ [name]) with
    | none => rfl
    | some n =>
      have listed := mem_readDir.mpr found
      rw [held.2.2] at listed
      cases listed
  · cases h

theorem rename_node? {t t' : FileTree α} {p q : TreePath} (h : t.rename p q = some t') :
    ∃ c, t.file? p = some c ∧ t.isDir q = false ∧ ∀ r, t'.node? r =
      if r = q then some (.file c) else if r = p then none else t.node? r := by
  unfold rename at h
  split at h
  · cases h
  · rename_i c held
    split at h
    · cases h
    · rename_i free
      obtain ⟨u, removed, written⟩ := Option.bind_eq_some_iff.mp h
      obtain ⟨_, gone⟩ := removeFile_node? removed
      obtain ⟨_, put⟩ := write_node? written
      refine ⟨c, held, by simpa using free, fun r => ?_⟩
      rw [put r, gone r]

theorem rename_isSome {t : FileTree α} {p q : TreePath} (held : (t.file? p).isSome = true)
    (proper : q ≠ []) (below : t.isDir q.dropLast = true) (free : t.isDir q = false) :
    (t.rename p q).isSome = true := by
  obtain ⟨c, hc⟩ := Option.isSome_iff_exists.mp held
  have removed : (t.removeFile p).isSome = true := by
    simp [removeFile, file?_ne_root hc, held]
  obtain ⟨u, hu⟩ := Option.isSome_iff_exists.mp removed
  obtain ⟨_, gone⟩ := removeFile_node? hu
  have kept : ∀ r, t.isDir r = true → u.isDir r = true := by
    intro r hr
    have other : r ≠ p := by
      rintro rfl
      rw [isDir_iff, file?_eq_some_iff.mp hc] at hr
      cases hr
    rw [isDir_iff, gone r, if_neg other]
    exact isDir_iff.mp hr
  have still : u.isDir q = false := by
    cases dir : u.isDir q with
    | false => rfl
    | true =>
      have node := isDir_iff.mp dir
      rw [gone q] at node
      split at node
      · cases node
      · rw [isDir_iff.mpr node] at free
        cases free
  simp only [rename, hc, free, Bool.false_eq_true, if_false, hu]
  exact write_isSome proper (kept _ below) still

/-- The length of the longest path. -/
def depth (t : FileTree α) : Nat := (t.nodes.keys.map List.length).foldr max 0

theorem length_le_depth {t : FileTree α} {p : TreePath} (h : (t.node? p).isSome = true) :
    p.length ≤ t.depth := by
  have listed : p ∈ t.nodes.keys := AList.mem_keys.mp (AList.lookup_isSome.mp h)
  unfold depth
  generalize t.nodes.keys = keys at listed
  induction keys with
  | nil => cases listed
  | cons q qs ih =>
    rcases List.mem_cons.mp listed with rfl | listed
    · exact le_max_left _ _
    · exact (ih listed).trans (le_max_right _ _)

/-- The files below a directory that are to be kept, each directory entered where it is
listed. -/
def walk (t : FileTree α) (keep : String → Bool) : Nat → TreePath → List TreePath
  | 0, _ => []
  | n + 1, here =>
    (t.readDir here).flatMap (fun e =>
      match e.2 with
      | .dir => walk t keep n (here ++ [e.1])
      | .file _ => if keep e.1 then [here ++ [e.1]] else [])

theorem mem_walk {t : FileTree α} {keep : String → Bool} {n : Nat} {here q : TreePath} :
    q ∈ t.walk keep n here ↔ (t.file? q).isSome = true ∧ ∃ names last,
      q = here ++ (names ++ [last]) ∧ names.length < n ∧ keep last = true := by
  induction n generalizing here with
  | zero => simp [walk]
  | succ n ih =>
    simp only [walk, List.mem_flatMap]
    constructor
    · rintro ⟨⟨name, node⟩, listed, inside⟩
      have found := mem_readDir.mp listed
      cases node with
      | dir =>
        obtain ⟨held, names, last, rfl, short, kept⟩ := ih.mp inside
        exact ⟨held, name :: names, last, by simp, by simpa using short, kept⟩
      | file c =>
        dsimp only at inside
        split at inside
        · rename_i kept
          obtain rfl := List.mem_singleton.mp inside
          exact ⟨by rw [file?_eq_some_iff.mpr found]; rfl, [], name, rfl, Nat.succ_pos n, kept⟩
        · cases inside
    · rintro ⟨held, names, last, rfl, short, kept⟩
      obtain ⟨c, hc⟩ := Option.isSome_iff_exists.mp held
      have node := file?_eq_some_iff.mp hc
      cases names with
      | nil =>
        refine ⟨(last, .file c), mem_readDir.mpr (by simpa using node), ?_⟩
        simp [kept]
      | cons name names =>
        have split : here ++ (name :: names ++ [last]) = here ++ [name] ++ (names ++ [last]) := by
          simp
        rw [split] at node
        refine ⟨(name, .dir), mem_readDir.mpr (prefix_isDir node (by simp)), ?_⟩
        exact ih.mpr ⟨held, names, last, split, Nat.lt_of_succ_lt_succ short, kept⟩

theorem walk_nodup (t : FileTree α) (keep : String → Bool) (n : Nat) (here : TreePath) :
    (t.walk keep n here).Nodup := by
  induction n generalizing here with
  | zero => exact List.nodup_nil
  | succ n ih =>
    have starts : ∀ e : String × TreeNode α, ∀ q ∈ (match e.2 with
        | .dir => t.walk keep n (here ++ [e.1])
        | .file _ => if keep e.1 then [here ++ [e.1]] else []), here ++ [e.1] <+: q := by
      rintro ⟨name, node⟩ q hq
      cases node with
      | dir =>
        obtain ⟨_, names, last, rfl, _⟩ := mem_walk.mp hq
        exact List.prefix_append _ _
      | file c =>
        dsimp only at hq
        split at hq
        · rw [List.mem_singleton.mp hq]
        · cases hq
    refine List.nodup_flatMap.mpr ⟨?_, ?_⟩
    · rintro ⟨name, node⟩ _
      cases node with
      | dir => exact ih _
      | file c =>
        dsimp only
        split
        · exact List.nodup_singleton _
        · exact List.nodup_nil
    · have names := List.pairwise_map.mp (readDir_nodup t here)
      refine names.imp (fun {e e'} other q hq hq' => other ?_)
      have first := List.prefix_of_prefix_length_le (starts e q hq) (starts e' q hq') (by simp)
      have same := first.eq_of_length (by simp)
      simpa using same

/- The operations as steps of a program. -/

variable {ε : Type} (e : ε) {faults : Prop}

def perform (f : FileTree α → Option (FileTree α)) : Program (FileTree α) ε Unit :=
  Program.call (fun t => match f t with
    | some t' => (.ok (), t')
    | none => (.error e, t)) e

theorem perform_safe {f : FileTree α → Option (FileTree α)} {inv : FileTree α → Prop}
    {post : Except ε Unit → FileTree α → Prop} {t : FileTree α} (stop : inv t)
    (acted : ∀ t', f t = some t' → post (.ok ()) t')
    (failed : faults ∨ f t = none → post (.error e) t) : (perform e f).Safe faults inv post t := by
  refine Program.Safe.call stop ?_ (fun bad => failed (Or.inl bad))
  cases done : f t with
  | none => exact failed (Or.inr done)
  | some t' => exact acted t' done

/-- Below a directory that is there, every missing directory of the path is made. -/
def createDirAll (base : TreePath) : List String → Program (FileTree α) ε Unit
  | [] => .done (.ok ())
  | name :: rest =>
    (Program.read (fun t => .ok (t.node? (base ++ [name]))) e).bind (fun found =>
      match found with
      | some .dir => createDirAll (base ++ [name]) rest
      | some (.file _) => .fail e
      | none =>
        (perform e (fun t => t.createDir (base ++ [name]))).bind (fun _ =>
          createDirAll (base ++ [name]) rest))

def Grown (path : TreePath) (t t' : FileTree α) : Prop :=
  ∀ q, t'.node? q = t.node? q ∨ (q <+: path ∧ t.node? q = none ∧ t'.node? q = some .dir)

theorem Grown.refl (path : TreePath) (t : FileTree α) : Grown path t t := fun _ => Or.inl rfl

theorem Grown.file? {path : TreePath} {t t' : FileTree α} (h : Grown path t t') (q : TreePath) :
    t'.file? q = t.file? q := by
  unfold FileTree.file?
  rcases h q with same | ⟨_, before, after⟩
  · rw [same]
  · rw [before, after]

theorem Grown.isDir {path : TreePath} {t t' : FileTree α} (h : Grown path t t') {q : TreePath}
    (dir : t.isDir q = true) : t'.isDir q = true := by
  rw [isDir_iff] at dir ⊢
  rcases h q with same | ⟨_, before, _⟩
  · rw [same, dir]
  · rw [before] at dir
    cases dir

theorem Grown.trans {path : TreePath} {t u v : FileTree α} (first : Grown path t u)
    (second : Grown path u v) : Grown path t v := by
  intro q
  rcases second q with same | ⟨above, before, after⟩
  · rw [same]
    exact first q
  · rcases first q with same | ⟨_, _, made⟩
    · exact Or.inr ⟨above, same ▸ before, after⟩
    · rw [made] at before
      cases before

theorem Grown.createDir {path p : TreePath} {t t' : FileTree α} (above : p <+: path)
    (h : t.createDir p = some t') : Grown path t t' := by
  obtain ⟨free, put⟩ := createDir_node? h
  intro q
  rw [put q]
  split
  · rename_i here
    subst here
    exact Or.inr ⟨above, free, rfl⟩
  · exact Or.inl rfl

theorem createDirAll_safe {path base : TreePath} {names : List String} {t₀ t : FileTree α}
    (above : base ++ names <+: path) (dir : t.isDir base = true) (grown : Grown path t₀ t) :
    (createDirAll e base names).Safe faults (Grown path t₀)
      (fun r t' => Grown path t₀ t' ∧ (r = .ok () → t'.isDir (base ++ names) = true)) t := by
  induction names generalizing base t with
  | nil => exact ⟨grown, fun _ => by simpa using dir⟩
  | cons name rest ih =>
    have next : base ++ [name] ++ rest <+: path := by simpa using above
    have here : base ++ [name] <+: path := (List.prefix_append _ _).trans next
    have whole : base ++ [name] ++ rest = base ++ name :: rest := by simp
    refine Program.Safe.bind (Program.Safe.call grown ?_ (fun _ => ⟨grown, nofun⟩))
    dsimp only
    cases found : t.node? (base ++ [name]) with
    | some n =>
      cases n with
      | dir => simpa only [whole] using ih next (isDir_iff.mpr found) grown
      | file c => exact ⟨grown, nofun⟩
    | none =>
      refine Program.Safe.bind (perform_safe e grown (fun t' made => ?_) (fun _ => ⟨grown, nofun⟩))
      have there : t'.isDir (base ++ [name]) = true := by
        rw [isDir_iff, (createDir_node? made).2, if_pos rfl]
      simpa only [whole] using ih next there (grown.trans (Grown.createDir here made))

theorem run_createDirAll {base : TreePath} {names : List String} {t : FileTree α}
    (dir : t.isDir base = true)
    (clear : ∀ above, above <+: names → t.file? (base ++ above) = none) :
    ∃ t', (createDirAll e base names).run t = (.ok (), t') ∧ Grown (base ++ names) t t' ∧
      t'.isDir (base ++ names) = true := by
  induction names generalizing base t with
  | nil => exact ⟨t, rfl, Grown.refl _ t, by simpa using dir⟩
  | cons name rest ih =>
    have whole : base ++ [name] ++ rest = base ++ name :: rest := by simp
    have below : ∀ u : FileTree α, (∀ q, u.file? q = t.file? q) → ∀ above, above <+: rest →
        u.file? (base ++ [name] ++ above) = none := by
      intro u same above hab
      rw [same]
      simpa using clear (name :: above) (by simpa using hab)
    rw [createDirAll, Program.run_bind, Program.run_read]
    dsimp only
    cases found : t.node? (base ++ [name]) with
    | some n =>
      cases n with
      | dir =>
        simpa only [whole] using ih (isDir_iff.mpr found) (below t (fun _ => rfl))
      | file c =>
        have held := clear [name] (by simp)
        rw [file?_eq_some_iff.mpr found] at held
        cases held
    | none =>
      have possible := createDir_isSome (p := base ++ [name]) (by simp) (by simpa using dir) found
      obtain ⟨u, made⟩ := Option.isSome_iff_exists.mp possible
      have there : u.isDir (base ++ [name]) = true := by
        rw [isDir_iff, (createDir_node? made).2, if_pos rfl]
      have first : Grown (base ++ name :: rest) t u :=
        Grown.createDir (whole ▸ List.prefix_append _ _) made
      obtain ⟨t', ok, grown, dir'⟩ := ih there (below u first.file?)
      rw [whole] at grown dir'
      refine ⟨t', ?_, first.trans grown, dir'⟩
      rw [Program.run_bind, perform, Program.run_call, made]
      exact ok

end FileTree
