import GitAgentic.Data.FileTree

/-! Symbolic links in a directory tree. A file of the tree is a regular one or a link. A path
starts in a directory and is resolved one part after another. -/

inductive LinkPart where
  | up
  | name (name : String)
  deriving DecidableEq, Repr

structure LinkTarget where
  absolute : Bool
  parts : List LinkPart
  deriving DecidableEq, Repr

inductive Linked (α : Type) where
  | regular (content : α)
  | link (target : LinkTarget)
  deriving DecidableEq, Repr

abbrev LinkTree (α : Type) := FileTree (Linked α)

/-- `ENOENT`, or any other error. -/
inductive LinkFault where
  | notFound
  | other
  deriving DecidableEq, Repr

namespace LinkTree

variable {α : Type}

def LinkTarget.base (target : LinkTarget) (here : TreePath) : TreePath :=
  if target.absolute then [] else here

section

variable (t : LinkTree α)

/-- The directory at the end of the parts; what comes after a link is left to `follow`. -/
def enterWith (follow : TreePath → List LinkPart → Except LinkFault TreePath) :
    TreePath → List LinkPart → Except LinkFault TreePath
  | here, [] => .ok here
  | here, .up :: rest => enterWith follow here.dropLast rest
  | here, .name n :: rest =>
    match t.node? (here ++ [n]) with
    | none => .error .notFound
    | some .dir => enterWith follow (here ++ [n]) rest
    | some (.file (.regular _)) => .error .other
    | some (.file (.link target)) => follow (LinkTarget.base target here) (target.parts ++ rest)

def enter : Nat → TreePath → List LinkPart → Except LinkFault TreePath
  | 0 => t.enterWith (fun _ _ => .error .other)
  | n + 1 => t.enterWith (enter n)

/-- Where the last part would be opened for writing; it need not be there. -/
def locateWith (follow : TreePath → List LinkPart → Except LinkFault TreePath) :
    TreePath → List LinkPart → Except LinkFault TreePath
  | _, [] => .error .other
  | here, .up :: rest => locateWith follow here.dropLast rest
  | here, .name n :: rest =>
    match t.node? (here ++ [n]) with
    | none => if rest = [] then .ok (here ++ [n]) else .error .notFound
    | some .dir => if rest = [] then .error .other else locateWith follow (here ++ [n]) rest
    | some (.file (.regular _)) => if rest = [] then .ok (here ++ [n]) else .error .other
    | some (.file (.link target)) => follow (LinkTarget.base target here) (target.parts ++ rest)

def locate : Nat → TreePath → List LinkPart → Except LinkFault TreePath
  | 0 => t.locateWith (fun _ _ => .error .other)
  | n + 1 => t.locateWith (locate n)

def followLimit : Nat := 40

/- A path below a directory `start` that is not reached through links. -/

def resolveDir (start : TreePath) (path : List String) : Except LinkFault TreePath :=
  t.enter followLimit start (path.map .name)

def resolveFile (start : TreePath) (dir : List String) (name : String) : Except LinkFault TreePath :=
  t.locate followLimit start ((dir ++ [name]).map .name)

/- System calls. Only `write` follows a link at the end of its path. -/

def lstat (start : TreePath) (dir : List String) (name : String) :
    Except LinkFault (TreeNode (Linked α)) := do
  let d ← t.resolveDir start dir
  match t.node? (d ++ [name]) with
  | none => .error .notFound
  | some node => .ok node

def mkdir (start : TreePath) (dir : List String) (name : String) : Except LinkFault (LinkTree α) := do
  let d ← t.resolveDir start dir
  match t.createDir (d ++ [name]) with
  | none => .error .other
  | some t' => .ok t'

def writeFile (start : TreePath) (dir : List String) (name : String) (content : α) :
    Except LinkFault (LinkTree α) := do
  let l ← t.resolveFile start dir name
  match t.write l (.regular content) with
  | none => .error .other
  | some t' => .ok t'

def renameIn (start : TreePath) (dir : List String) (old new : String) : Except LinkFault (LinkTree α) := do
  let d ← t.resolveDir start dir
  match t.rename (d ++ [old]) (d ++ [new]) with
  | none => .error .other
  | some t' => .ok t'

def unlink (start : TreePath) (dir : List String) (name : String) : Except LinkFault (LinkTree α) := do
  let d ← t.resolveDir start dir
  match t.removeFile (d ++ [name]) with
  | none => .error .other
  | some t' => .ok t'

def rmdir (start : TreePath) (dir : List String) (name : String) : Except LinkFault (LinkTree α) := do
  let d ← t.resolveDir start dir
  match t.removeDir (d ++ [name]) with
  | none => .error .other
  | some t' => .ok t'

def list (start : TreePath) (path : List String) : Except LinkFault (List (String × TreeNode (Linked α))) := do
  let d ← t.resolveDir start path
  return t.readDir d

end

/-- One call. It is carried out, or it fails and changes nothing. -/
def call (f : LinkTree α → Except LinkFault (LinkTree α)) : Program (LinkTree α) LinkFault Unit :=
  Program.call (fun t => match f t with
    | .ok t' => (.ok (), t')
    | .error e => (.error e, t)) .other

/-- `path.is_dir()` -/
def isDirAt (start : TreePath) (path : List String) : Program (LinkTree α) LinkFault Bool :=
  Program.read (fun t => .ok (t.resolveDir start path).toBool) .other

/-- `create_dir_all`, of the path whose names are given from the last to the first: where the
directory above is missing, it is made and the call is repeated. -/
def createDirAllRev (start : TreePath) : List String → Program (LinkTree α) LinkFault Unit
  | [] => .done (.ok ())
  | name :: above => do
    let make := call (fun t => t.mkdir start above.reverse name)
    let unless_ (e : LinkFault) : Program (LinkTree α) LinkFault Unit := do
      if ← isDirAt start (above.reverse ++ [name]) then return () else Program.fail e
    match ← make.attempt with
    | .ok () => return ()
    | .error .notFound => do
      createDirAllRev start above
      match ← make.attempt with
      | .ok () => return ()
      | .error e => unless_ e
    | .error e => unless_ e

def createDirAll (start : TreePath) (path : List String) : Program (LinkTree α) LinkFault Unit :=
  createDirAllRev start path.reverse

/- Resolution in two trees. -/

section

variable {t t' : LinkTree α}

def NoLink (t : LinkTree α) (p : TreePath) : Prop := ∀ target, t.node? p ≠ some (.file (.link target))

/-- Directories and links are the same where the first tree has them. -/
structure Keeps (t t' : LinkTree α) : Prop where
  dir : ∀ p, t.node? p = some .dir → t'.node? p = some .dir
  link : ∀ p target, t.node? p = some (.file (.link target)) → t'.node? p = some (.file (.link target))

theorem enterWith_mono {follow follow' : TreePath → List LinkPart → Except LinkFault TreePath}
    (keeps : Keeps t t')
    (onward : ∀ here parts d, follow here parts = .ok d → follow' here parts = .ok d)
    {here d : TreePath} {parts : List LinkPart} (entered : t.enterWith follow here parts = .ok d) :
    t'.enterWith follow' here parts = .ok d := by
  induction parts generalizing here with
  | nil => exact entered
  | cons part rest ih =>
    cases part with
    | up => exact ih entered
    | name n =>
      simp only [enterWith] at entered ⊢
      split at entered
      · cases entered
      · rename_i dir
        rw [keeps.dir _ dir]
        exact ih entered
      · cases entered
      · rename_i target link
        rw [keeps.link _ target link]
        exact onward _ _ _ entered

theorem enter_mono (keeps : Keeps t t') {n : Nat} {here d : TreePath} {parts : List LinkPart}
    (entered : t.enter n here parts = .ok d) : t'.enter n here parts = .ok d := by
  induction n generalizing here parts d with
  | zero => exact enterWith_mono keeps (fun _ _ _ none => by cases none) entered
  | succ n ih => exact enterWith_mono keeps (fun _ _ _ => ih) entered

theorem enterWith_snoc {follow : TreePath → List LinkPart → Except LinkFault TreePath} {here d : TreePath}
    {parts : List LinkPart} {name : String}
    (onward : ∀ here parts, follow here parts = .ok d → follow here (parts ++ [.name name]) = .ok (d ++ [name]))
    (there : t.node? (d ++ [name]) = some .dir) (entered : t.enterWith follow here parts = .ok d) :
    t.enterWith follow here (parts ++ [.name name]) = .ok (d ++ [name]) := by
  induction parts generalizing here with
  | nil =>
    cases entered
    simp only [List.nil_append, enterWith, there]
  | cons part rest ih =>
    cases part with
    | up => exact ih entered
    | name n =>
      simp only [List.cons_append, enterWith] at entered ⊢
      split at entered
      · cases entered
      · exact ih entered
      · cases entered
      · rw [← List.append_assoc]
        exact onward _ _ entered

theorem enter_snoc {n : Nat} {here d : TreePath} {parts : List LinkPart} {name : String}
    (there : t.node? (d ++ [name]) = some .dir) (entered : t.enter n here parts = .ok d) :
    t.enter n here (parts ++ [.name name]) = .ok (d ++ [name]) := by
  induction n generalizing here parts with
  | zero => exact enterWith_snoc (fun _ _ => nofun) there entered
  | succ n ih => exact enterWith_snoc (fun _ _ => ih) there entered

theorem enterWith_of_snoc {follow : TreePath → List LinkPart → Except LinkFault TreePath} {here e : TreePath}
    {parts : List LinkPart} {name : String}
    (onward : ∀ here parts, follow here (parts ++ [.name name]) = .ok e →
      ∃ d, follow here parts = .ok d ∧ t.node? (d ++ [name]) ≠ none)
    (entered : t.enterWith follow here (parts ++ [.name name]) = .ok e) :
    ∃ d, t.enterWith follow here parts = .ok d ∧ t.node? (d ++ [name]) ≠ none := by
  induction parts generalizing here with
  | nil =>
    refine ⟨here, rfl, fun missing => ?_⟩
    simp only [List.nil_append, enterWith, missing] at entered
    cases entered
  | cons part rest ih =>
    cases part with
    | up => exact ih entered
    | name n =>
      simp only [List.cons_append, enterWith] at entered ⊢
      split at entered
      · cases entered
      · exact ih entered
      · cases entered
      · rw [← List.append_assoc] at entered
        exact onward _ _ entered

theorem enter_of_snoc {n : Nat} {here e : TreePath} {parts : List LinkPart} {name : String}
    (entered : t.enter n here (parts ++ [.name name]) = .ok e) :
    ∃ d, t.enter n here parts = .ok d ∧ t.node? (d ++ [name]) ≠ none := by
  induction n generalizing here parts with
  | zero => exact enterWith_of_snoc (fun _ _ => nofun) entered
  | succ n ih => exact enterWith_of_snoc (fun _ _ => ih) entered

theorem locateWith_snoc (follow follow' : TreePath → List LinkPart → Except LinkFault TreePath) {here d l : TreePath}
    {parts : List LinkPart} {name : String}
    (onward : ∀ here parts, follow' here parts = .ok d → follow here (parts ++ [.name name]) = .ok l →
      l = d ++ [name])
    (plain : t.NoLink (d ++ [name])) (entered : t.enterWith follow' here parts = .ok d)
    (located : t.locateWith follow here (parts ++ [.name name]) = .ok l) : l = d ++ [name] := by
  induction parts generalizing here with
  | nil =>
    cases entered
    simp only [List.nil_append, locateWith] at located
    split at located
    · exact (Except.ok.inj located).symm
    · cases located
    · exact (Except.ok.inj located).symm
    · rename_i target link
      exact absurd link (plain target)
  | cons part rest ih =>
    cases part with
    | up => exact ih entered located
    | name n =>
      have more : rest ++ [.name name] ≠ [] := by simp
      simp only [List.cons_append, enterWith, locateWith, if_neg more] at entered located
      split at entered
      · cases entered
      · rename_i dir
        rw [dir] at located
        exact ih entered located
      · cases entered
      · rename_i target link
        rw [link] at located
        simp only [← List.append_assoc] at located
        exact onward _ _ entered located

theorem locate_snoc {n : Nat} {here d l : TreePath} {parts : List LinkPart} {name : String}
    (plain : t.NoLink (d ++ [name])) (entered : t.enter n here parts = .ok d)
    (located : t.locate n here (parts ++ [.name name]) = .ok l) : l = d ++ [name] := by
  induction n generalizing here parts with
  | zero => exact locateWith_snoc _ (fun _ _ => .error .other) (fun _ _ => nofun) plain entered located
  | succ n ih => exact locateWith_snoc _ (t.enter n) (fun _ _ => ih) plain entered located

theorem enterWith_plain {follow : TreePath → List LinkPart → Except LinkFault TreePath} {here d : TreePath}
    {path : List String} (plain : ∀ q, q <+: path → q ≠ [] → t.NoLink (here ++ q))
    (entered : t.enterWith follow here (path.map .name) = .ok d) : d = here ++ path := by
  induction path generalizing here with
  | nil => simpa using (Except.ok.inj entered).symm
  | cons name rest ih =>
    simp only [List.map_cons, enterWith] at entered
    split at entered
    · cases entered
    · have deeper : ∀ q, q <+: rest → q ≠ [] → t.NoLink (here ++ [name] ++ q) := by
        intro q hq _
        simpa using plain (name :: q) (by simpa using hq) (by simp)
      simpa using ih deeper entered
    · cases entered
    · rename_i target link
      exact absurd link (plain [name] (by simp) (by simp) target)

theorem enter_plain {n : Nat} {here d : TreePath} {path : List String}
    (plain : ∀ q, q <+: path → q ≠ [] → t.NoLink (here ++ q))
    (entered : t.enter n here (path.map .name) = .ok d) : d = here ++ path := by
  cases n <;> exact enterWith_plain plain entered

theorem locateWith_plain {follow : TreePath → List LinkPart → Except LinkFault TreePath} {here l : TreePath}
    {path : List String} (plain : ∀ q, q <+: path → q ≠ [] → t.NoLink (here ++ q))
    (located : t.locateWith follow here (path.map .name) = .ok l) : l = here ++ path := by
  induction path generalizing here with
  | nil => cases located
  | cons name rest ih =>
    have ended : rest.map LinkPart.name = [] → rest = [] := List.map_eq_nil_iff.mp
    simp only [List.map_cons, locateWith] at located
    split at located
    · split at located
      · rename_i last
        rw [ended last]
        exact (Except.ok.inj located).symm
      · cases located
    · split at located
      · cases located
      · have deeper : ∀ q, q <+: rest → q ≠ [] → t.NoLink (here ++ [name] ++ q) := by
          intro q hq _
          simpa using plain (name :: q) (by simpa using hq) (by simp)
        simpa using ih deeper located
    · split at located
      · rename_i last
        rw [ended last]
        exact (Except.ok.inj located).symm
      · cases located
    · rename_i target link
      exact absurd link (plain [name] (by simp) (by simp) target)

theorem locate_plain {n : Nat} {here l : TreePath} {path : List String}
    (plain : ∀ q, q <+: path → q ≠ [] → t.NoLink (here ++ q))
    (located : t.locate n here (path.map .name) = .ok l) : l = here ++ path := by
  cases n <;> exact locateWith_plain plain located

end

/- What a call changes. -/

section

variable {t t' : LinkTree α} {start : TreePath} {dir : List String} {name : String}

theorem mkdir_eq_ok (made : t.mkdir start dir name = .ok t') :
    ∃ d, t.resolveDir start dir = .ok d ∧ t.node? (d ++ [name]) = none ∧
      ∀ q, t'.node? q = if q = d ++ [name] then some .dir else t.node? q := by
  unfold mkdir at made
  cases entered : t.resolveDir start dir with
  | error e =>
    rw [entered] at made
    cases made
  | ok d =>
    rw [entered] at made
    dsimp only [bind, Except.bind] at made
    split at made
    · cases made
    · rename_i u created
      cases made
      exact ⟨d, rfl, FileTree.createDir_node? created⟩

theorem writeFile_eq_ok {content : α} (written : t.writeFile start dir name content = .ok t') :
    ∃ l, t.resolveFile start dir name = .ok l ∧ t.isDir l = false ∧
      ∀ q, t'.node? q = if q = l then some (.file (.regular content)) else t.node? q := by
  unfold writeFile at written
  cases located : t.resolveFile start dir name with
  | error e =>
    rw [located] at written
    cases written
  | ok l =>
    rw [located] at written
    dsimp only [bind, Except.bind] at written
    split at written
    · cases written
    · rename_i u wrote
      cases written
      exact ⟨l, rfl, FileTree.write_node? wrote⟩

theorem renameIn_eq_ok {old new : String} (moved : t.renameIn start dir old new = .ok t') :
    ∃ d c, t.resolveDir start dir = .ok d ∧ t.node? (d ++ [old]) = some (.file c) ∧
      ∀ q, t'.node? q = if q = d ++ [new] then some (.file c) else if q = d ++ [old] then none
        else t.node? q := by
  unfold renameIn at moved
  cases entered : t.resolveDir start dir with
  | error e =>
    rw [entered] at moved
    cases moved
  | ok d =>
    rw [entered] at moved
    dsimp only [bind, Except.bind] at moved
    split at moved
    · cases moved
    · rename_i u renamed
      cases moved
      obtain ⟨c, held, _, nodes⟩ := FileTree.rename_node? renamed
      exact ⟨d, c, rfl, FileTree.file?_eq_some_iff.mp held, nodes⟩

theorem unlink_eq_ok (removed : t.unlink start dir name = .ok t') :
    ∃ d, t.resolveDir start dir = .ok d ∧ t.removeFile (d ++ [name]) = some t' := by
  unfold unlink at removed
  cases entered : t.resolveDir start dir with
  | error e =>
    rw [entered] at removed
    cases removed
  | ok d =>
    rw [entered] at removed
    dsimp only [bind, Except.bind] at removed
    split at removed
    · cases removed
    · rename_i u gone
      cases removed
      exact ⟨d, rfl, gone⟩

theorem rmdir_eq_ok (removed : t.rmdir start dir name = .ok t') :
    ∃ d, t.resolveDir start dir = .ok d ∧ ∀ q, t'.node? q = if q = d ++ [name] then none else t.node? q := by
  unfold rmdir at removed
  cases entered : t.resolveDir start dir with
  | error e =>
    rw [entered] at removed
    cases removed
  | ok d =>
    rw [entered] at removed
    dsimp only [bind, Except.bind] at removed
    split at removed
    · cases removed
    · rename_i u gone
      cases removed
      exact ⟨d, rfl, (FileTree.removeDir_node? gone).2.2⟩

theorem call_safe {f : LinkTree α → Except LinkFault (LinkTree α)} {faults : Prop} {inv : LinkTree α → Prop}
    {post : Except LinkFault Unit → LinkTree α → Prop} (stop : inv t)
    (acted : ∀ t', f t = .ok t' → post (.ok ()) t') (failed : ∀ e, post (.error e) t) :
    (call f).Safe faults inv post t := by
  refine Program.Safe.call stop ?_ (fun _ => failed .other)
  cases done : f t with
  | error e => exact failed e
  | ok t' => exact acted t' done

/-- Nothing outside of the directory is changed. -/
def Within (root : TreePath) (t t' : LinkTree α) : Prop := ∀ p, ¬ root <+: p → t'.node? p = t.node? p

variable {root : TreePath}

theorem Within.refl (root : TreePath) (t : LinkTree α) : Within root t t := fun _ _ => rfl

theorem Within.trans {u : LinkTree α} (first : Within root t t') (second : Within root t' u) :
    Within root t u := fun p outside => (second p outside).trans (first p outside)

theorem keeps_unlink {l : TreePath} (removed : t.removeFile l = some t') : Keeps t' t := by
  obtain ⟨_, nodes⟩ := FileTree.removeFile_node? removed
  have other : ∀ q n, t'.node? q = some n → t.node? q = some n := by
    intro q n there
    rw [nodes q] at there
    split at there
    · cases there
    · exact there
  exact ⟨fun q => other q _, fun q target => other q _⟩

theorem keeps_write {l : TreePath} {content : α}
    (nodes : ∀ q, t'.node? q = if q = l then some (.file (.regular content)) else t.node? q) : Keeps t' t := by
  constructor
  · intro q there
    rw [nodes q] at there
    split at there
    · cases there
    · exact there
  · intro q target there
    rw [nodes q] at there
    split at there
    · cases there
    · exact there

theorem Within.at {l : TreePath} (inside : root <+: l) (only : ∀ q, q ≠ l → t'.node? q = t.node? q) :
    Within root t t' := fun p outside => only p (fun same => outside (same ▸ inside))

/-- Every missing directory of the path would be made inside. -/
def MakesWithin (root : TreePath) (t : LinkTree α) (start : TreePath) (path : List String) : Prop :=
  ∀ above name d, above ++ [name] <+: path → t.resolveDir start above = .ok d →
    t.node? (d ++ [name]) = none → root <+: d ++ [name]

/-- The path ends in a directory inside that has nothing in it yet. -/
def Fresh (root : TreePath) (t : LinkTree α) (start : TreePath) (path : List String) : Prop :=
  ∃ d, t.resolveDir start path = .ok d ∧ root <+: d ∧ ∀ name, t.node? (d ++ [name]) = none

theorem keeps_mkdir {d : TreePath} (free : t.node? (d ++ [name]) = none)
    (nodes : ∀ q, t'.node? q = if q = d ++ [name] then some .dir else t.node? q) : Keeps t t' := by
  have other : ∀ q n, t.node? q = some n → t'.node? q = some n := by
    intro q n there
    rw [nodes q, if_neg]
    · exact there
    · rintro rfl
      rw [free] at there
      cases there
  exact ⟨fun q => other q _, fun q target => other q _⟩

theorem mkdir_fresh (made : t.mkdir start dir name = .ok t')
    (inside : ∀ d, t.resolveDir start dir = .ok d → t.node? (d ++ [name]) = none → root <+: d ++ [name]) :
    Within root t t' ∧ Fresh root t' start (dir ++ [name]) := by
  obtain ⟨d, entered, free, nodes⟩ := mkdir_eq_ok made
  have here := inside d entered free
  refine ⟨Within.at here (fun q other => by rw [nodes q, if_neg other]), d ++ [name], ?_, here, ?_⟩
  · have there : t'.node? (d ++ [name]) = some .dir := by rw [nodes, if_pos rfl]
    rw [resolveDir, List.map_append]
    exact enter_snoc there (enter_mono (keeps_mkdir free nodes) entered)
  · intro below
    have bare := FileTree.bare_of_not_dir (t := t) (p := d ++ [name]) (by simp [FileTree.isDir, free]) below
    rw [nodes, if_neg (by simp), bare]

theorem not_entered_of_fresh (fresh : Fresh root t start dir) (e : TreePath) :
    t.resolveDir start (dir ++ [name]) ≠ .ok e := by
  intro entered
  obtain ⟨d, here, _, bare⟩ := fresh
  rw [resolveDir, List.map_append] at entered
  obtain ⟨d', there, held⟩ := enter_of_snoc entered
  have same : d = d' := Except.ok.inj (here.symm.trans there)
  exact held (same ▸ bare name)

theorem isDirAt_safe {inv : LinkTree α → Prop} {post : Except LinkFault Bool → LinkTree α → Prop}
    {path : List String} (stop : inv t) (failed : post (.error .other) t)
    (there : ∀ d, t.resolveDir start path = .ok d → post (.ok true) t)
    (absent : ∀ e, t.resolveDir start path = .error e → post (.ok false) t) :
    (isDirAt start path).Safe True inv post t := by
  refine Program.Safe.call stop ?_ (fun _ => failed)
  cases found : t.resolveDir start path with
  | ok d =>
    simp only [found, Except.toBool]
    exact there d found
  | error e =>
    simp only [found, Except.toBool]
    exact absent e found

/-- `create_dir_all` makes directories inside only. It is done when nothing was missing, or when
the path ends in a new directory. -/
theorem createDirAllRev_safe {rev : List String} (makes : MakesWithin root t start rev.reverse) :
    (createDirAllRev start rev).Safe True (Within root t)
      (fun r t' => Within root t t' ∧ (r = .ok () → t' = t ∨ Fresh root t' start rev.reverse)) t := by
  have unchanged := Within.refl root t
  induction rev with
  | nil => exact ⟨unchanged, fun _ => Or.inl rfl⟩
  | cons name above ih =>
    rw [List.reverse_cons] at makes ⊢
    have fromStart : ∀ d, t.resolveDir start above.reverse = .ok d → t.node? (d ++ [name]) = none →
        root <+: d ++ [name] := fun d => makes above.reverse name d (List.prefix_refl _)
    -- what is left when the directory was not made
    have checked : ∀ e u, Within root t u → (u = t ∨ Fresh root u start above.reverse) →
        (isDirAt start (above.reverse ++ [name])).Safe True (Within root t) (fun r u =>
          match r with
          | .ok a => (if a = true then (.done (.ok ()) : Program (LinkTree α) LinkFault Unit)
              else .done (.error e)).Safe True (Within root t) (fun r t' => Within root t t' ∧
                (r = .ok () → t' = t ∨ Fresh root t' start (above.reverse ++ [name]))) u
          | .error e' => Within root t u ∧ ((.error e' : Except LinkFault Unit) = .ok () →
              u = t ∨ Fresh root u start (above.reverse ++ [name]))) u := by
      intro e u within before
      refine isDirAt_safe within ⟨within, nofun⟩ (fun d entered => ?_) (fun e' _ => ⟨within, nofun⟩)
      refine ⟨within, fun _ => ?_⟩
      rcases before with same | fresh
      · exact Or.inl same
      · exact absurd entered (not_entered_of_fresh fresh d)
    refine Program.Safe.bind (Program.Safe.attempt (call_safe unchanged (fun t' made => ?_) (fun e => ?_)))
    · obtain ⟨within, fresh⟩ := mkdir_fresh made fromStart
      exact ⟨within, fun _ => Or.inr fresh⟩
    · cases e with
      | other => exact Program.Safe.bind (checked .other t unchanged (Or.inl rfl))
      | notFound =>
        have upper : MakesWithin root t start above.reverse :=
          fun a n d short => makes a n d (short.trans (List.prefix_append _ _))
        refine Program.Safe.bind ((ih upper).mono (fun _ h => h) ?_)
        rintro (e | _) u ⟨within, provided⟩
        · exact ⟨within, nofun⟩
        · refine Program.Safe.bind (Program.Safe.attempt (call_safe within (fun u' made => ?_) (fun e => ?_)))
          · have inside : ∀ d, u.resolveDir start above.reverse = .ok d → u.node? (d ++ [name]) = none →
                root <+: d ++ [name] := by
              rcases provided rfl with same | ⟨d, entered, inside, _⟩
              · rw [same]
                exact fromStart
              · intro d' entered' _
                rw [Except.ok.inj (entered'.symm.trans entered)]
                exact inside.trans (List.prefix_append _ _)
            obtain ⟨more, fresh⟩ := mkdir_fresh made inside
            exact ⟨within.trans more, fun _ => Or.inr fresh⟩
          · exact Program.Safe.bind (checked e u within (provided rfl))

theorem createDirAll_safe {path : List String} (makes : MakesWithin root t start path) :
    (createDirAll start path).Safe True (Within root t)
      (fun r t' => Within root t t' ∧ (r = .ok () → t' = t ∨ Fresh root t' start path)) t := by
  have back : MakesWithin root t start path.reverse.reverse := by rwa [List.reverse_reverse]
  have safe := createDirAllRev_safe back
  rwa [List.reverse_reverse] at safe

theorem createDirAllRev_moves {R : LinkTree α → LinkTree α → Prop} (refl : ∀ t, R t t)
    (trans : ∀ {t u v}, R t u → R u v → R t v)
    (made : ∀ t dir name t', t.mkdir start dir name = .ok t' → R t t') (rev : List String) (t : LinkTree α) :
    (createDirAllRev start rev).Moves True R (fun _ => True) (fun _ _ => True) t := by
  induction rev generalizing t with
  | nil => exact ⟨refl t, trivial⟩
  | cons name above ih =>
    have make : ∀ u, (call (fun t => t.mkdir start above.reverse name)).Moves True R (fun _ => True)
        (fun _ _ => True) u :=
      fun u => call_safe (refl u) (fun u' done => ⟨made u _ _ u' done, trivial⟩) (fun _ => ⟨refl u, trivial⟩)
    have checked : ∀ e u, ((isDirAt start (above.reverse ++ [name])).bind (fun there =>
        if there = true then (.done (.ok ()) : Program (LinkTree α) LinkFault Unit)
        else .done (.error e))).Moves True R (fun _ => True) (fun _ _ => True) u := by
      intro e u
      exact Program.Safe.bind (isDirAt_safe (refl u) ⟨refl u, trivial⟩ (fun _ _ => ⟨refl u, trivial⟩)
        (fun _ _ => ⟨refl u, trivial⟩))
    refine Program.Moves.bind trans (Program.Moves.attempt (make t)) (fun outcome u _ _ => ?_)
    rcases outcome with e | _
    · cases e with
      | other => exact checked .other u
      | notFound =>
        refine Program.Moves.bind trans (ih u) (fun _ v _ _ => ?_)
        refine Program.Moves.bind trans (Program.Moves.attempt (make v)) (fun outcome w _ _ => ?_)
        rcases outcome with e | _
        · exact checked e w
        · exact ⟨refl w, trivial⟩
    · exact ⟨refl u, trivial⟩

def NoNewLink (t t' : LinkTree α) : Prop := ∀ p, t.NoLink p → t'.NoLink p

theorem NoNewLink.refl (t : LinkTree α) : NoNewLink t t := fun _ h => h

theorem NoNewLink.trans {u : LinkTree α} (first : NoNewLink t t') (second : NoNewLink t' u) :
    NoNewLink t u := fun p h => second p (first p h)

theorem NoNewLink.at {l : TreePath} {node : Option (TreeNode (Linked α))}
    (nodes : ∀ q, t'.node? q = if q = l then node else t.node? q)
    (plain : ∀ target, node ≠ some (.file (.link target))) : NoNewLink t t' := by
  intro p noLink target there
  rw [nodes p] at there
  split at there
  · exact plain target there
  · exact noLink target there

theorem createDirAll_noNewLink (path : List String) (t : LinkTree α) :
    (createDirAll start path).Moves True NoNewLink (fun _ => True) (fun _ _ => True) t := by
  refine createDirAllRev_moves NoNewLink.refl NoNewLink.trans ?_ path.reverse t
  intro t dir name t' made
  obtain ⟨d, _, _, nodes⟩ := mkdir_eq_ok made
  exact NoNewLink.at nodes nofun

end

def ofNodes (nodes : List (TreePath × TreeNode (Linked α))) : LinkTree α :=
  nodes.foldl (fun t e => match e.2 with
    | .dir => (t.createDir e.1).getD t
    | .file c => (t.write e.1 c).getD t) FileTree.empty

end LinkTree
