import GitAgentic.Data.Alike
import GitAgentic.Data.Links

/-! A part of a tree in which nothing is a link. Below one name of a directory it lists what a
plain tree lists, in the same order, and there the calls of both come to the same. -/

namespace TreeNode

variable {α : Type}

def regular : TreeNode α → TreeNode (Linked α)
  | .dir => .dir
  | .file c => .file (.regular c)

theorem regular_inj {n n' : TreeNode α} (same : n.regular = n'.regular) : n = n' := by
  cases n <;> cases n' <;> simp_all [regular]

end TreeNode

namespace FileTree

variable {α : Type}

theorem kerase_eq_filter {β : TreePath → Type} (p : TreePath) {l : List (Sigma β)} (keys : l.NodupKeys) :
    l.kerase p = l.filter (fun e => p ≠ e.1) := by
  induction l with
  | nil => rfl
  | cons e l ih =>
    obtain ⟨fresh, keys⟩ := List.nodupKeys_cons.mp keys
    by_cases here : p = e.1
    · have others : ∀ e' ∈ l, p ≠ e'.1 := by
        rintro e' listed same
        exact fresh (here ▸ same ▸ List.mem_keys_of_mem listed)
      rw [List.kerase_cons_eq here, List.filter_cons_of_neg (by simp [here])]
      exact (List.filter_eq_self.mpr (fun e' listed => by simpa using others e' listed)).symm
    · rw [List.kerase_cons_ne here, ih keys, List.filter_cons_of_pos (by simpa using here)]

def besides (p q : TreePath) (listed : List (String × TreeNode α)) : List (String × TreeNode α) :=
  listed.filter (fun e => q ++ [e.1] ≠ p)

theorem filterMap_kerase (t : FileTree α) (p q : TreePath) :
    (t.nodes.entries.kerase p).filterMap (fun e => (nameIn q e.1).map (fun name => (name, e.2))) =
      besides p q (t.readDir q) := by
  rw [kerase_eq_filter p t.nodes.nodupKeys, List.filterMap_filter, besides, readDir, List.filter_filterMap]
  refine List.filterMap_congr (fun e _ => ?_)
  cases named : nameIn q e.1 with
  | none => simp
  | some name =>
    rw [nameIn_eq_some_iff.mp named]
    by_cases here : p = q ++ [name]
    · simp [here, Option.filter]
    · have other : q ++ [name] ≠ p := Ne.symm here
      simp [here, other, Option.filter]

theorem readDir_put {t : FileTree α} {p : TreePath} {n : TreeNode α} {proper : p ≠ []}
    {below : t.isDir p.dropLast} {free : t.isDir p = false} (q : TreePath) :
    (t.put p n proper below free).readDir q =
      ((nameIn q p).map (fun name => (name, n))).toList ++ besides p q (t.readDir q) := by
  rw [← filterMap_kerase]
  cases named : nameIn q p <;> simp [readDir, put, AList.entries_insert, named]

theorem readDir_drop {t : FileTree α} {p : TreePath} {proper : p ≠ []}
    {bare : ∀ name, t.node? (p ++ [name]) = none} (q : TreePath) :
    (t.drop p proper bare).readDir q = besides p q (t.readDir q) := filterMap_kerase t p q

theorem nameIn_append (start : TreePath) (p : TreePath) {q : TreePath} (proper : q ≠ []) :
    nameIn (start ++ p) (start ++ q) = nameIn p q := by
  unfold nameIn
  rw [List.dropLast_append_of_ne_nil proper, List.getLast?_append_of_ne_nil _ proper]
  simp only [List.append_cancel_left_eq]

end FileTree

namespace LinkTree

open FileTree

variable {α : Type}

/-- Below the name in the directory the tree is the plain tree; elsewhere it has not changed. -/
structure Mirrors (start : TreePath) (top : String) (t₀ : LinkTree α) (u : FileTree α) (t : LinkTree α) : Prop where
  base : t.isDir start = true
  head : t.node? (start ++ [top]) = (u.node? [top]).map TreeNode.regular
  list : ∀ q, [top] <+: q →
    t.readDir (start ++ q) = (u.readDir q).map (fun e => (e.1, e.2.regular))
  within : Within (start ++ [top]) t₀ t

section

variable {start : TreePath} {top : String} {u : FileTree α} {t₀ t : LinkTree α} {p : TreePath}

theorem Mirrors.node (mirrors : Mirrors start top t₀ u t) (own : [top] <+: p) :
    t.node? (start ++ p) = (u.node? p).map TreeNode.regular := by
  rcases List.eq_nil_or_concat' p with rfl | ⟨q, name, rfl⟩
  · cases List.prefix_nil.mp own
  · rcases List.prefix_concat_iff.mp own with same | above
    · rw [← same]
      exact mirrors.head
    · refine Option.ext (fun n => ?_)
      rw [← List.append_assoc, ← mem_readDir, mirrors.list q above, List.mem_map, Option.map_eq_some_iff]
      constructor
      · rintro ⟨⟨name', n'⟩, listed, same⟩
        cases same
        exact ⟨n', mem_readDir.mp listed, rfl⟩
      · rintro ⟨n', found, rfl⟩
        exact ⟨(name, n'), mem_readDir.mpr found, rfl⟩

theorem Mirrors.isDir (mirrors : Mirrors start top t₀ u t) (own : [top] <+: p) :
    t.isDir (start ++ p) = u.isDir p := by
  unfold FileTree.isDir
  rw [mirrors.node own]
  cases u.node? p with
  | none => rfl
  | some n => cases n <;> rfl

theorem Mirrors.file (mirrors : Mirrors start top t₀ u t) (own : [top] <+: p) :
    t.file? (start ++ p) = (u.file? p).map Linked.regular := by
  unfold FileTree.file?
  rw [mirrors.node own]
  cases u.node? p with
  | none => rfl
  | some n => cases n <;> rfl

theorem proper_of_own (own : [top] <+: p) : p ≠ [] := by
  rintro rfl
  cases List.prefix_nil.mp own

theorem Mirrors.above (mirrors : Mirrors start top t₀ u t) (own : [top] <+: p) :
    t.isDir (start ++ p).dropLast = u.isDir p.dropLast := by
  rw [List.dropLast_append_of_ne_nil (proper_of_own own)]
  rcases List.eq_nil_or_concat' p with rfl | ⟨q, name, rfl⟩
  · cases List.prefix_nil.mp own
  · rw [List.dropLast_concat]
    rcases List.prefix_concat_iff.mp own with same | above
    · have root : q = [] := by
        cases q with
        | nil => rfl
        | cons first q => simp at same
      rw [root, List.append_nil, mirrors.base, isDir_root]
    · exact mirrors.isDir above

theorem besides_regular (start p q : TreePath) (listed : List (String × TreeNode α)) :
    besides (start ++ p) (start ++ q) (listed.map (fun e => (e.1, e.2.regular))) =
      (besides p q listed).map (fun e => (e.1, e.2.regular)) := by
  unfold besides
  rw [List.filter_map]
  congr 2
  funext e
  simp

/- A node comes or goes in both. -/

theorem Mirrors.put {n : TreeNode α} (mirrors : Mirrors start top t₀ u t) (own : [top] <+: p)
    {proper : p ≠ []} {below : u.isDir p.dropLast} {free : u.isDir p = false}
    {proper' : start ++ p ≠ []} {below' : t.isDir (start ++ p).dropLast} {free' : t.isDir (start ++ p) = false} :
    Mirrors start top t₀ (u.put p n proper below free) (t.put (start ++ p) n.regular proper' below' free') where
  base := by
    rw [isDir_iff, node?_put, if_neg (by simpa using proper)]
    exact isDir_iff.mp mirrors.base
  head := by
    rw [node?_put, node?_put, mirrors.head]
    by_cases here : [top] = p
    · rw [if_pos here, if_pos (by rw [here])]
      rfl
    · rw [if_neg here, if_neg (by simpa using here)]
  list q above := by
    rw [readDir_put, readDir_put, nameIn_append start q proper, mirrors.list q above, besides_regular]
    cases nameIn q p <;> rfl
  within := mirrors.within.trans (Within.at ((List.prefix_append_right_inj start).mpr own)
    (fun q other => by rw [node?_put, if_neg other]))

theorem Mirrors.drop (mirrors : Mirrors start top t₀ u t) (own : [top] <+: p) {proper : p ≠ []}
    {bare : ∀ name, u.node? (p ++ [name]) = none} {proper' : start ++ p ≠ []}
    {bare' : ∀ name, t.node? (start ++ p ++ [name]) = none} :
    Mirrors start top t₀ (u.drop p proper bare) (t.drop (start ++ p) proper' bare') where
  base := by
    rw [isDir_iff, node?_drop, if_neg (by simpa using proper)]
    exact isDir_iff.mp mirrors.base
  head := by
    rw [node?_drop, node?_drop, mirrors.head]
    by_cases here : [top] = p
    · rw [if_pos here, if_pos (by rw [here])]
      rfl
    · rw [if_neg here, if_neg (by simpa using here)]
  list q above := by
    rw [readDir_drop, readDir_drop, mirrors.list q above, besides_regular]
  within := mirrors.within.trans (Within.at ((List.prefix_append_right_inj start).mpr own)
    (fun q other => by rw [node?_drop, if_neg other]))

/- The operations are carried out in both, or in neither. -/

theorem Mirrors.createDir (mirrors : Mirrors start top t₀ u t) (own : [top] <+: p) :
    Option.Rel (Mirrors start top t₀) (u.createDir p) (t.createDir (start ++ p)) := by
  have conditions : (start ++ p ≠ [] ∧ t.isDir (start ++ p).dropLast = true ∧
      (t.node? (start ++ p)).isNone = true) ↔
      (p ≠ [] ∧ u.isDir p.dropLast = true ∧ (u.node? p).isNone = true) := by
    rw [mirrors.above own, mirrors.node own, Option.isNone_map]
    simp [proper_of_own own]
  unfold FileTree.createDir
  by_cases free : p ≠ [] ∧ u.isDir p.dropLast = true ∧ (u.node? p).isNone = true
  · rw [dif_pos free, dif_pos (conditions.mpr free)]
    exact .some (mirrors.put own)
  · rw [dif_neg free, dif_neg (fun both => free (conditions.mp both))]
    exact .none

theorem Mirrors.write {c : α} (mirrors : Mirrors start top t₀ u t) (own : [top] <+: p) :
    Option.Rel (Mirrors start top t₀) (u.write p c) (t.write (start ++ p) (.regular c)) := by
  have conditions : (start ++ p ≠ [] ∧ t.isDir (start ++ p).dropLast = true ∧ t.isDir (start ++ p) = false) ↔
      (p ≠ [] ∧ u.isDir p.dropLast = true ∧ u.isDir p = false) := by
    rw [mirrors.above own, mirrors.isDir own]
    simp [proper_of_own own]
  unfold FileTree.write
  by_cases free : p ≠ [] ∧ u.isDir p.dropLast = true ∧ u.isDir p = false
  · rw [dif_pos free, dif_pos (conditions.mpr free)]
    exact .some (mirrors.put own)
  · rw [dif_neg free, dif_neg (fun both => free (conditions.mp both))]
    exact .none

theorem Mirrors.removeFile (mirrors : Mirrors start top t₀ u t) (own : [top] <+: p) :
    Option.Rel (Mirrors start top t₀) (u.removeFile p) (t.removeFile (start ++ p)) := by
  have conditions : (start ++ p ≠ [] ∧ (t.file? (start ++ p)).isSome = true) ↔
      (p ≠ [] ∧ (u.file? p).isSome = true) := by
    rw [mirrors.file own, Option.isSome_map]
    simp [proper_of_own own]
  unfold FileTree.removeFile
  by_cases held : p ≠ [] ∧ (u.file? p).isSome = true
  · rw [dif_pos held, dif_pos (conditions.mpr held)]
    exact .some (mirrors.drop own)
  · rw [dif_neg held, dif_neg (fun both => held (conditions.mp both))]
    exact .none

theorem Mirrors.removeDir (mirrors : Mirrors start top t₀ u t) (own : [top] <+: p) :
    Option.Rel (Mirrors start top t₀) (u.removeDir p) (t.removeDir (start ++ p)) := by
  have conditions : (start ++ p ≠ [] ∧ t.isDir (start ++ p) = true ∧ t.readDir (start ++ p) = []) ↔
      (p ≠ [] ∧ u.isDir p = true ∧ u.readDir p = []) := by
    rw [mirrors.isDir own, mirrors.list p own, List.map_eq_nil_iff]
    simp [proper_of_own own]
  unfold FileTree.removeDir
  by_cases empty : p ≠ [] ∧ u.isDir p = true ∧ u.readDir p = []
  · rw [dif_pos empty, dif_pos (conditions.mpr empty)]
    exact .some (mirrors.drop own)
  · rw [dif_neg empty, dif_neg (fun both => empty (conditions.mp both))]
    exact .none

theorem Mirrors.rename {q : TreePath} (mirrors : Mirrors start top t₀ u t) (own : [top] <+: p) (own' : [top] <+: q) :
    Option.Rel (Mirrors start top t₀) (u.rename p q) (t.rename (start ++ p) (start ++ q)) := by
  unfold FileTree.rename
  rw [mirrors.file own, mirrors.isDir own']
  cases u.file? p with
  | none => exact .none
  | some c =>
    dsimp only [Option.map_some]
    split
    · exact .none
    · have removed := mirrors.removeFile own
      generalize u.removeFile p = u', t.removeFile (start ++ p) = t' at removed
      cases removed with
      | none => exact .none
      | some mirrors' => exact mirrors'.write own'

end

end LinkTree

namespace FileTree

variable {α : Type}

/-- Where the names lead from a directory, or at which kind of place they stop. -/
def reach (u : FileTree α) : TreePath → List String → Except LinkFault TreePath
  | here, [] => .ok here
  | here, name :: rest =>
    match u.node? (here ++ [name]) with
    | none => .error .notFound
    | some .dir => u.reach (here ++ [name]) rest
    | some (.file _) => .error .other

section

variable {u : FileTree α} {here : TreePath} {rest : List String} {ε : Type} (e : ε)

theorem reach_of_isDir (dir : u.isDir (here ++ rest) = true) : u.reach here rest = .ok (here ++ rest) := by
  induction rest generalizing here with
  | nil => rw [reach, List.append_nil]
  | cons name rest ih =>
    have whole : here ++ name :: rest = here ++ [name] ++ rest := by simp
    rw [whole] at dir ⊢
    have next : u.node? (here ++ [name]) = some .dir := by
      cases rest with
      | nil => simpa using isDir_iff.mp dir
      | cons first rest => exact prefix_isDir (isDir_iff.mp dir) (by simp)
    rw [reach, next]
    exact ih dir

theorem isDir_of_reach {d : TreePath} (dir : u.isDir here = true) (reached : u.reach here rest = .ok d) :
    u.isDir (here ++ rest) = true := by
  induction rest generalizing here with
  | nil => rwa [List.append_nil]
  | cons name rest ih =>
    unfold reach at reached
    split at reached
    · cases reached
    · rename_i next
      have deeper := ih (isDir_iff.mpr next) reached
      simpa using deeper
    · cases reached

theorem toBool_reach (p : TreePath) : (u.reach [] p).toBool = u.isDir p := by
  cases reached : u.reach [] p with
  | ok d => exact (isDir_of_reach u.isDir_root reached).symm
  | error fault =>
    cases dir : u.isDir p with
    | false => rfl
    | true =>
      rw [reach_of_isDir dir] at reached
      cases reached

theorem reach_concat {name : String} (dir : u.isDir (here ++ rest) = true) :
    u.reach here (rest ++ [name]) = match u.node? (here ++ rest ++ [name]) with
      | none => .error .notFound
      | some .dir => .ok (here ++ rest ++ [name])
      | some (.file _) => .error .other := by
  induction rest generalizing here with
  | nil =>
    rw [List.nil_append, List.append_nil, reach]
    rfl
  | cons next rest ih =>
    have whole : here ++ next :: rest = here ++ [next] ++ rest := by simp
    rw [whole] at dir ⊢
    have there : u.node? (here ++ [next]) = some .dir := by
      cases rest with
      | nil => simpa using isDir_iff.mp dir
      | cons second rest => exact prefix_isDir (isDir_iff.mp dir) (by simp)
    rw [List.cons_append, reach, there]
    exact ih dir

/- What `create_dir_all` does, by what is on the way. -/

theorem createDirAll_concat (base : TreePath) (names : List String) (name : String) :
    createDirAll (α := α) e base (names ++ [name]) =
      (createDirAll e base names).bind (fun _ => createDirAll e (base ++ names) [name]) := by
  induction names generalizing base with
  | nil => rw [List.nil_append, List.append_nil, createDirAll, Program.bind]
  | cons first names ih =>
    have whole : base ++ first :: names = base ++ [first] ++ names := by simp
    rw [List.cons_append, createDirAll, createDirAll, Program.bind_assoc, whole]
    congr 1
    funext found
    rcases found with _ | _ | _
    · rw [Program.bind_assoc]
      exact congrArg (Program.bind _) (funext (fun _ => ih _))
    · exact ih _
    · rfl

theorem createDirAll_reached {d : TreePath} (reached : u.reach here rest = .ok d) :
    (createDirAll e here rest).run u = (.ok (), u) := by
  induction rest generalizing here with
  | nil => rfl
  | cons name rest ih =>
    unfold reach at reached
    rw [createDirAll, Program.run_bind, Program.run_read]
    split at reached
    · cases reached
    · rename_i next
      simp only [next]
      exact ih reached
    · cases reached

theorem isDir_of_created {names : List String} (dir : u.isDir here = true) :
    ((createDirAll e here names).run u).1 = .ok () →
      ((createDirAll e here names).run u).2.isDir (here ++ names) = true := by
  have made : (createDirAll e here names).Safe False _ _ u :=
    createDirAll_safe e (List.prefix_refl _) dir (Grown.refl _ u)
  exact made.run.2

theorem createDirAll_blocked (blocked : u.reach here rest = .error .other) :
    (createDirAll e here rest).run u = (.error e, u) := by
  induction rest generalizing here with
  | nil => cases blocked
  | cons name rest ih =>
    unfold reach at blocked
    rw [createDirAll, Program.run_bind, Program.run_read]
    split at blocked
    · cases blocked
    · rename_i next
      simp only [next]
      exact ih blocked
    · rename_i c next
      simp only [next]
      rfl

end

end FileTree

namespace LinkTree

open FileTree

variable {α : Type} {start : TreePath} {top : String} {u : FileTree α} {t₀ t : LinkTree α}

/- Paths resolve to themselves. -/

theorem Mirrors.enterWith (mirrors : Mirrors start top t₀ u t)
    {follow : TreePath → List LinkPart → Except LinkFault TreePath} {here : TreePath} {rest : List String}
    (own : ∀ name more, rest = name :: more → [top] <+: here ++ [name]) :
    t.enterWith follow (start ++ here) (rest.map .name) = (u.reach here rest).map (start ++ ·) := by
  induction rest generalizing here with
  | nil => rfl
  | cons name rest ih =>
    have first := own name rest rfl
    rw [List.map_cons, LinkTree.enterWith, reach, List.append_assoc, mirrors.node first]
    cases u.node? (here ++ [name]) with
    | none => rfl
    | some n =>
      cases n with
      | file c => rfl
      | dir =>
        have deeper := @ih (here ++ [name]) (fun more _ _ => first.trans (List.prefix_append _ _))
        simpa [TreeNode.regular] using deeper

theorem Mirrors.resolveDir (mirrors : Mirrors start top t₀ u t) {p : List String} (own : p = [] ∨ [top] <+: p) :
    t.resolveDir start p = (u.reach [] p).map (start ++ ·) := by
  have from_ : ∀ name more, p = name :: more → [top] <+: [] ++ [name] := by
    rintro name more rfl
    rcases own with none_ | own
    · cases none_
    · simpa using List.cons_prefix_cons.mp own
  have entered : t.enterWith (t.enter 39) (start ++ []) (p.map .name) = _ := mirrors.enterWith from_
  rw [List.append_nil] at entered
  exact entered

theorem Mirrors.resolveDir_ok (mirrors : Mirrors start top t₀ u t) {p : List String} (own : p = [] ∨ [top] <+: p)
    (dir : u.isDir p = true) : t.resolveDir start p = .ok (start ++ p) := by
  have reached : u.reach [] p = .ok p := reach_of_isDir dir
  rw [mirrors.resolveDir own, reached]
  rfl

theorem Mirrors.toBool_resolveDir (mirrors : Mirrors start top t₀ u t) {p : List String}
    (own : p = [] ∨ [top] <+: p) : (t.resolveDir start p).toBool = u.isDir p := by
  rw [mirrors.resolveDir own, ← toBool_reach]
  cases u.reach [] p <;> rfl

theorem Mirrors.locateWith (mirrors : Mirrors start top t₀ u t)
    {follow : TreePath → List LinkPart → Except LinkFault TreePath} {here : TreePath} {rest : List String}
    {name : String} (own : ∀ first more, rest ++ [name] = first :: more → [top] <+: here ++ [first])
    (dir : u.isDir (here ++ rest) = true) :
    t.locateWith follow (start ++ here) ((rest ++ [name]).map .name) =
      if u.isDir (here ++ rest ++ [name]) = true then .error .other
      else .ok (start ++ (here ++ rest ++ [name])) := by
  induction rest generalizing here with
  | nil =>
    have first := own name [] rfl
    rw [List.nil_append, List.map_singleton, LinkTree.locateWith, List.append_assoc, mirrors.node first,
      List.append_nil, FileTree.isDir]
    cases u.node? (here ++ [name]) with
    | none => simp
    | some n => cases n <;> simp [TreeNode.regular]
  | cons next rest ih =>
    have first := own next _ rfl
    have whole : here ++ next :: rest = here ++ [next] ++ rest := by simp
    rw [whole] at dir ⊢
    have there : u.node? (here ++ [next]) = some .dir := by
      cases rest with
      | nil => simpa using isDir_iff.mp dir
      | cons second rest => exact prefix_isDir (isDir_iff.mp dir) (by simp)
    have more : (rest ++ [name]).map LinkPart.name ≠ [] := by simp
    rw [List.cons_append, List.map_cons, LinkTree.locateWith, List.append_assoc, mirrors.node first, there]
    have deeper := @ih (here ++ [next]) (fun _ _ _ => first.trans (List.prefix_append _ _)) dir
    simpa [TreeNode.regular, more] using deeper

theorem Mirrors.resolveFile (mirrors : Mirrors start top t₀ u t) {dir : List String} {name : String}
    (own : [top] <+: dir) (there : u.isDir dir = true) :
    t.resolveFile start dir name = if u.isDir (dir ++ [name]) = true then .error .other
      else .ok (start ++ (dir ++ [name])) := by
  have from_ : ∀ first more, dir ++ [name] = first :: more → [top] <+: [] ++ [first] := by
    intro first more same
    have longer := own.trans (List.prefix_append dir [name])
    rw [same] at longer
    simpa using List.cons_prefix_cons.mp longer
  have located : t.locateWith (t.locate 39) (start ++ []) ((dir ++ [name]).map .name) = _ :=
    mirrors.locateWith from_ there
  rw [List.append_nil] at located
  exact located

/- The calls. -/

section

variable {dir : List String} {name : String}

theorem own_concat (own : dir = [] ∧ name = top ∨ [top] <+: dir) : [top] <+: dir ++ [name] := by
  rcases own with ⟨rfl, rfl⟩ | own
  · exact List.prefix_refl _
  · exact own.trans (List.prefix_append _ _)

theorem own_dir (own : dir = [] ∧ name = top ∨ [top] <+: dir) : dir = [] ∨ [top] <+: dir :=
  own.imp And.left id

theorem Mirrors.answers (mirrors : Mirrors start top t₀ u t) (own : dir = [] ∨ [top] <+: dir)
    {o : Option (FileTree α)} {f : TreePath → Option (LinkTree α)}
    (there : ∀ u', o = some u' → u.isDir dir = true)
    (both : Option.Rel (Mirrors start top t₀) o (f (start ++ dir))) :
    Option.Rel (Mirrors start top t₀) o (do
      let d ← t.resolveDir start dir
      match f d with
      | none => .error .other
      | some t' => .ok t' : Except LinkFault (LinkTree α)).toOption := by
  cases resolved : t.resolveDir start dir with
  | ok d =>
    have dir_ := mirrors.toBool_resolveDir own
    rw [resolved] at dir_
    have itself := mirrors.resolveDir_ok own dir_.symm
    rw [resolved] at itself
    cases itself
    dsimp only [bind, Except.bind]
    generalize f (start ++ dir) = o' at both
    cases both with
    | none => exact .none
    | some mirrors' => exact .some mirrors'
  | error fault =>
    cases o with
    | none => exact .none
    | some u' =>
      have dir_ := mirrors.toBool_resolveDir own
      rw [resolved, there u' rfl] at dir_
      cases dir_

theorem Mirrors.unlink (mirrors : Mirrors start top t₀ u t) (own : [top] <+: dir) :
    Option.Rel (Mirrors start top t₀) (u.removeFile (dir ++ [name])) (t.unlink start dir name).toOption := by
  refine mirrors.answers (f := fun d => t.removeFile (d ++ [name])) (.inr own) (fun u' removed => ?_) ?_
  · obtain ⟨c, held⟩ := Option.isSome_iff_exists.mp (removeFile_node? removed).1
    exact isDir_iff.mpr (parent_isDir (file?_eq_some_iff.mp held))
  · rw [List.append_assoc]
    exact mirrors.removeFile (own.trans (List.prefix_append _ _))

theorem Mirrors.rmdir (mirrors : Mirrors start top t₀ u t) (own : [top] <+: dir) :
    Option.Rel (Mirrors start top t₀) (u.removeDir (dir ++ [name])) (t.rmdir start dir name).toOption := by
  refine mirrors.answers (f := fun d => t.removeDir (d ++ [name])) (.inr own) (fun u' removed => ?_) ?_
  · exact isDir_iff.mpr (parent_isDir (isDir_iff.mp (removeDir_node? removed).1))
  · rw [List.append_assoc]
    exact mirrors.removeDir (own.trans (List.prefix_append _ _))

theorem Mirrors.renameIn {old new : String} (mirrors : Mirrors start top t₀ u t) (own : [top] <+: dir) :
    Option.Rel (Mirrors start top t₀) (u.rename (dir ++ [old]) (dir ++ [new]))
      (t.renameIn start dir old new).toOption := by
  refine mirrors.answers (f := fun d => t.rename (d ++ [old]) (d ++ [new])) (.inr own) (fun u' moved => ?_) ?_
  · obtain ⟨c, held, _⟩ := rename_node? moved
    exact isDir_iff.mpr (parent_isDir (file?_eq_some_iff.mp held))
  · rw [List.append_assoc, List.append_assoc]
    exact mirrors.rename (own.trans (List.prefix_append _ _)) (own.trans (List.prefix_append _ _))

theorem Mirrors.list_ok (mirrors : Mirrors start top t₀ u t) (own : [top] <+: dir) :
    (LinkTree.list t start dir).toOption = if u.isDir dir = true then
      some ((u.readDir dir).map (fun e => (e.1, e.2.regular))) else none := by
  have dir_ := mirrors.toBool_resolveDir (.inr own)
  rw [LinkTree.list]
  cases resolved : t.resolveDir start dir with
  | ok d =>
    rw [resolved] at dir_
    have itself := mirrors.resolveDir_ok (.inr own) dir_.symm
    rw [resolved] at itself
    cases itself
    have there : u.isDir dir = true := dir_.symm
    rw [if_pos there, ← mirrors.list dir own]
    rfl
  | error fault =>
    rw [resolved] at dir_
    rw [if_neg (by rw [← dir_]; exact Bool.false_ne_true)]
    rfl

theorem Mirrors.writeFile {c : α} (mirrors : Mirrors start top t₀ u t) (own : [top] <+: dir)
    (there : u.isDir dir = true) :
    Option.Rel (Mirrors start top t₀) (u.write (dir ++ [name]) c) (t.writeFile start dir name c).toOption := by
  rw [LinkTree.writeFile, mirrors.resolveFile own there]
  cases taken : u.isDir (dir ++ [name]) with
  | true =>
    rw [FileTree.write, dif_neg (by simp [taken])]
    exact .none
  | false =>
    have owned : [top] <+: dir ++ [name] := own_concat (.inr own)
    have both := mirrors.write (c := c) owned
    dsimp only [bind, Except.bind]
    rw [if_neg (by simp)]
    dsimp only
    generalize u.write (dir ++ [name]) c = o, t.write (start ++ (dir ++ [name])) (.regular c) = o' at both
    cases both with
    | none => exact .none
    | some mirrors' => exact .some mirrors'

theorem Mirrors.lstat (mirrors : Mirrors start top t₀ u t) (own : [top] <+: dir) (there : u.isDir dir = true) :
    t.lstat start dir name = match u.node? (dir ++ [name]) with
      | none => .error .notFound
      | some n => .ok n.regular := by
  rw [LinkTree.lstat, mirrors.resolveDir_ok (.inr own) there]
  dsimp only [bind, Except.bind]
  rw [List.append_assoc, mirrors.node (own_concat (.inr own))]
  cases u.node? (dir ++ [name]) <;> rfl

theorem perform_alike {ε : Type} {R : FileTree α → LinkTree α → Prop} {e : ε}
    {f : FileTree α → Option (FileTree α)} {g : LinkTree α → Except LinkFault (LinkTree α)} (related : R u t)
    (both : Option.Rel R (f u) (g t).toOption) :
    Program.Alike R id (FileTree.perform e f) ((call g).mapError (fun _ => e)) u t := by
  unfold Program.Alike
  rw [Program.run_mapError, FileTree.perform, call, Program.run_call, Program.run_call]
  generalize f u = o at both
  cases answer : g t with
  | error fault =>
    rw [answer] at both
    cases both
    exact ⟨rfl, related⟩
  | ok t' =>
    rw [answer] at both
    cases both with
    | some related' => exact ⟨rfl, related'⟩

end

/- `create_dir_all` from above and from below. -/

theorem mkdir_error {dir : List String} {name : String} {fault : LinkFault}
    (stopped : t.resolveDir start dir = .error fault) : t.mkdir start dir name = .error fault := by
  rw [LinkTree.mkdir, stopped]
  rfl

def lastMade (t : LinkTree α) (start : TreePath) (dir : List String) (name : String) :
    Except LinkFault Unit × LinkTree α :=
  match t.mkdir start dir name with
  | .ok t' => (.ok (), t')
  | .error e => (if (t.resolveDir start (dir ++ [name])).toBool then .ok () else .error e, t)

theorem run_createDirAllRev (name : String) (above : List String) (t : LinkTree α) :
    (createDirAllRev start (name :: above)).run t =
      match t.mkdir start above.reverse name with
      | .error .notFound =>
        match (createDirAllRev start above).run t with
        | (.error e, t') => (.error e, t')
        | (.ok _, t') => t'.lastMade start above.reverse name
      | _ => t.lastMade start above.reverse name := by
  have checked : ∀ (e : LinkFault) (t : LinkTree α), ((isDirAt start (above.reverse ++ [name])).bind (fun there =>
      if there = true then (.done (.ok ()) : Program (LinkTree α) LinkFault Unit) else .done (.error e))).run t =
      (if (t.resolveDir start (above.reverse ++ [name])).toBool then .ok () else .error e, t) := by
    intro e t
    rw [Program.run_bind, isDirAt, Program.run_read]
    dsimp only
    split <;> rfl
  have make : ∀ t : LinkTree α, ((call (fun t => t.mkdir start above.reverse name)).attempt :
      Program (LinkTree α) LinkFault (Except LinkFault Unit)).run t =
      match t.mkdir start above.reverse name with
      | .ok t' => (.ok (.ok ()), t')
      | .error e => (.ok (.error e), t) := by
    intro t
    rw [Program.run_attempt, call, Program.run_call]
    cases t.mkdir start above.reverse name <;> rfl
  refine (Program.run_bind _ _ t).trans ?_
  rw [make, lastMade]
  cases t.mkdir start above.reverse name with
  | ok t' => rfl
  | error fault =>
    cases fault with
    | other => exact checked .other t
    | notFound =>
      refine (Program.run_bind _ _ t).trans ?_
      dsimp only
      rcases (createDirAllRev start above).run t with ⟨outcome, t'⟩
      cases outcome with
      | error e => rfl
      | ok done =>
        refine (Program.run_bind _ _ t').trans ?_
        rw [make]
        dsimp only [lastMade]
        cases t'.mkdir start above.reverse name with
        | ok t'' => rfl
        | error e => exact checked e t'

section

variable {ε : Type} (e : ε)

theorem Mirrors.lastMade {dir : List String} {name : String} (mirrors : Mirrors start top t₀ u t)
    (own : dir = [] ∧ name = top ∨ [top] <+: dir) (there : u.isDir dir = true) :
    t.mkdir start dir name ≠ .error .notFound ∧
      (t.lastMade start dir name).1.mapError (fun _ => e) = ((FileTree.createDirAll e dir [name]).run u).1 ∧
      Mirrors start top t₀ ((FileTree.createDirAll e dir [name]).run u).2 (t.lastMade start dir name).2 := by
  have both := mirrors.createDir (own_concat own)
  have called : t.mkdir start dir name =
      (t.createDir (start ++ (dir ++ [name]))).elim (.error .other) .ok := by
    rw [LinkTree.mkdir, mirrors.resolveDir_ok (own_dir own) there, ← List.append_assoc]
    simp only [bind, Except.bind]
    cases FileTree.createDir t (start ++ dir ++ [name]) <;> rfl
  rw [LinkTree.lastMade, called, mirrors.toBool_resolveDir (.inr (own_concat own)), FileTree.createDirAll,
    Program.run_bind, Program.run_read]
  cases found : u.node? (dir ++ [name]) with
  | none =>
    have possible : (u.createDir (dir ++ [name])).isSome = true :=
      createDir_isSome (by simp) (by simpa using there) found
    obtain ⟨u', made⟩ := Option.isSome_iff_exists.mp possible
    rw [made] at both
    simp only [perform]
    rw [Program.run_bind, Program.run_call, made]
    generalize t.createDir (start ++ (dir ++ [name])) = o at both
    cases both with
    | some mirrors' => exact ⟨by rintro ⟨⟩, rfl, mirrors'⟩
  | some n =>
    have taken : u.createDir (dir ++ [name]) = none := by
      rw [FileTree.createDir, dif_neg (by simp [found])]
    rw [taken] at both
    generalize t.createDir (start ++ (dir ++ [name])) = o at both
    cases both
    refine ⟨by rintro ⟨⟩, ?_⟩
    rw [FileTree.isDir, found]
    cases n with
    | dir => exact ⟨rfl, mirrors⟩
    | file c => exact ⟨rfl, mirrors⟩

/-- `create_dir_all` from above in the plain tree, from below in the other. -/
theorem Mirrors.createDirAllRev {rev : List String} (mirrors : Mirrors start top t₀ u t)
    (own : rev.reverse = [] ∨ [top] <+: rev.reverse) :
    Program.Alike (Mirrors start top t₀) id (FileTree.createDirAll e [] rev.reverse)
      ((LinkTree.createDirAllRev start rev).mapError (fun _ => e)) u t := by
  induction rev generalizing u t with
  | nil => exact ⟨rfl, mirrors⟩
  | cons name above ih =>
    rw [List.reverse_cons] at own ⊢
    have split : above.reverse = [] ∧ name = top ∨ [top] <+: above.reverse := by
      rcases own with none_ | own
      · simp at none_
      · rcases List.prefix_concat_iff.mp own with same | own
        · have parts := List.append_inj' (show [] ++ [top] = above.reverse ++ [name] from same) rfl
          exact .inl ⟨parts.1.symm, (List.singleton_inj.mp parts.2).symm⟩
        · exact .inr own
    unfold Program.Alike
    rw [Program.run_mapError, run_createDirAllRev, createDirAll_concat, List.nil_append, Program.run_bind]
    have id_ : ∀ r : Except ε Unit, r.map id = r := fun r => by cases r <;> rfl
    rw [id_]
    cases reached : u.reach [] above.reverse with
    | ok d =>
      have there := isDir_of_reach u.isDir_root reached
      obtain ⟨found, outcome, mirrors'⟩ := mirrors.lastMade e split there
      rw [createDirAll_reached e reached]
      split
      · exact absurd ‹_› found
      · exact ⟨outcome, mirrors'⟩
    | error fault =>
      have stopped : t.resolveDir start above.reverse = .error fault := by
        rw [mirrors.resolveDir (own_dir split), reached]
        rfl
      rw [mkdir_error stopped]
      cases fault with
      | other =>
        have absent : u.isDir (above.reverse ++ [name]) = false := by
          cases dir : u.isDir (above.reverse ++ [name]) with
          | false => rfl
          | true =>
            have above_ := parent_isDir (isDir_iff.mp dir)
            rw [reach_of_isDir (isDir_iff.mpr above_)] at reached
            cases reached
        rw [createDirAll_blocked e reached, LinkTree.lastMade, mkdir_error stopped,
          mirrors.toBool_resolveDir own, absent]
        exact ⟨rfl, mirrors⟩
      | notFound =>
        obtain ⟨same, mirrors'⟩ := ih mirrors (own_dir split)
        rw [Program.run_mapError] at same mirrors'
        dsimp only
        have there : ((FileTree.createDirAll e [] above.reverse).run u).1 = .ok () →
            ((FileTree.createDirAll e [] above.reverse).run u).2.isDir ([] ++ above.reverse) = true :=
          isDir_of_created e u.isDir_root
        generalize (LinkTree.createDirAllRev start above).run t = q at same mirrors' ⊢
        generalize (FileTree.createDirAll e [] above.reverse).run u = p at same mirrors' there ⊢
        obtain ⟨r, t'⟩ := q
        obtain ⟨r', u'⟩ := p
        cases r' with
        | error e' =>
          cases r with
          | ok done => cases same
          | error fault => exact ⟨same.trans rfl, mirrors'⟩
        | ok done' =>
          cases r with
          | error fault => cases same
          | ok done =>
            obtain ⟨_, outcome, mirrors''⟩ := mirrors'.lastMade e split (there rfl)
            exact ⟨outcome, mirrors''⟩

theorem Mirrors.createDirAll {path : List String} (mirrors : Mirrors start top t₀ u t)
    (own : path = [] ∨ [top] <+: path) :
    Program.Alike (Mirrors start top t₀) id (FileTree.createDirAll e [] path)
      ((LinkTree.createDirAll start path).mapError (fun _ => e)) u t := by
  have turned : path.reverse.reverse = [] ∨ [top] <+: path.reverse.reverse := by rwa [List.reverse_reverse]
  have made := mirrors.createDirAllRev e turned
  rwa [List.reverse_reverse] at made

end

/- The plain tree of a part without links. -/

section

variable (start : TreePath) (top : String) (t : LinkTree α)

def plainEntry (e : Sigma (fun _ : TreePath => TreeNode (Linked α))) :
    Option (Sigma (fun _ : TreePath => TreeNode α)) :=
  if start ++ [top] <+: e.1 then
    match e.2 with
    | .dir => some ⟨e.1.drop start.length, .dir⟩
    | .file (.regular c) => some ⟨e.1.drop start.length, .file c⟩
    | .file (.link _) => none
  else none

variable {start top t}

theorem plainEntry_eq_some_iff {e : Sigma (fun _ : TreePath => TreeNode (Linked α))} {p : TreePath} {n : TreeNode α} :
    plainEntry start top e = some ⟨p, n⟩ ↔ [top] <+: p ∧ e = ⟨start ++ p, n.regular⟩ := by
  obtain ⟨q, node⟩ := e
  unfold plainEntry
  constructor
  · intro h
    split at h
    · rename_i own
      obtain ⟨rest, rfl⟩ := own
      rw [List.append_assoc, List.drop_left] at h
      split at h
      · cases h
        rename_i dir
        cases dir
        exact ⟨List.prefix_append _ _, by rw [List.append_assoc]; rfl⟩
      · cases h
        rename_i file
        cases file
        exact ⟨List.prefix_append _ _, by rw [List.append_assoc]; rfl⟩
      · cases h
    · cases h
  · rintro ⟨own, same⟩
    cases same
    rw [if_pos ((List.prefix_append_right_inj start).mpr own), List.drop_left]
    cases n <;> rfl

variable (start top t)

theorem plainEntries_nodup : (t.nodes.entries.filterMap (plainEntry start top)).NodupKeys := by
  refine List.nodupKeys_iff_pairwise.mpr (List.pairwise_filterMap.mpr ?_)
  refine (List.nodupKeys_iff_pairwise.mp t.nodes.nodupKeys).imp ?_
  rintro e e' other ⟨p, n⟩ found ⟨p', n'⟩ found' same
  obtain ⟨_, rfl⟩ := plainEntry_eq_some_iff.mp found
  obtain ⟨_, rfl⟩ := plainEntry_eq_some_iff.mp found'
  exact other (congrArg (start ++ ·) same)

def plainNodes : AList (fun _ : TreePath => TreeNode α) where
  entries := ⟨[], .dir⟩ :: t.nodes.entries.filterMap (plainEntry start top)
  nodupKeys := by
    refine List.nodupKeys_cons.mpr ⟨fun listed => ?_, plainEntries_nodup start top t⟩
    obtain ⟨⟨p, n⟩, mem, root⟩ := List.mem_map.mp listed
    obtain ⟨e, _, found⟩ := List.mem_filterMap.mp mem
    exact proper_of_own (plainEntry_eq_some_iff.mp found).1 root

theorem lookup_plainNodes {p : TreePath} {n : TreeNode α} :
    (plainNodes start top t).lookup p = some n ↔
      p = [] ∧ n = .dir ∨ [top] <+: p ∧ t.node? (start ++ p) = some n.regular := by
  rw [← Option.mem_def, AList.mem_lookup_iff, plainNodes, List.mem_cons, List.mem_filterMap]
  refine or_congr (by simp) ?_
  constructor
  · rintro ⟨e, mem, found⟩
    obtain ⟨own, rfl⟩ := plainEntry_eq_some_iff.mp found
    exact ⟨own, AList.mem_lookup_iff.mpr mem⟩
  · rintro ⟨own, found⟩
    exact ⟨⟨start ++ p, n.regular⟩, AList.mem_lookup_iff.mp found, plainEntry_eq_some_iff.mpr ⟨own, rfl⟩⟩

/-- The part below the name, for itself. Links are left out. -/
def plainTree : FileTree α where
  nodes := plainNodes start top t
  root := (lookup_plainNodes start top t).mpr (.inl ⟨rfl, rfl⟩)
  within p name there := by
    obtain ⟨n, found⟩ := Option.isSome_iff_exists.mp there
    rcases (lookup_plainNodes start top t).mp found with ⟨root, _⟩ | ⟨own, held⟩
    · simp at root
    · refine (lookup_plainNodes start top t).mpr ?_
      rcases List.prefix_concat_iff.mp own with same | own
      · exact .inl ⟨(List.append_inj' (show [] ++ [top] = p ++ [name] from same) rfl).1.symm, rfl⟩
      · rw [← List.append_assoc] at held
        exact .inr ⟨own, parent_isDir held⟩

variable {start top t}

theorem regular_of_noLink {p : TreePath} {m : TreeNode (Linked α)} (unlinked : t.NoLink p)
    (found : t.node? p = some m) : ∃ n : TreeNode α, m = n.regular := by
  rcases m with _ | (c | target)
  · exact ⟨.dir, rfl⟩
  · exact ⟨.file c, rfl⟩
  · exact absurd found (unlinked target)

theorem mirrors_plainTree (base : t.isDir start = true) (unlinked : ∀ q, [top] <+: q → t.NoLink (start ++ q)) :
    Mirrors start top t (plainTree start top t) t where
  base := base
  head := by
    refine Option.ext (fun m => ?_)
    rw [Option.map_eq_some_iff]
    constructor
    · intro found
      obtain ⟨n, rfl⟩ := regular_of_noLink (unlinked [top] (List.prefix_refl _)) found
      exact ⟨n, (lookup_plainNodes start top t).mpr (.inr ⟨List.prefix_refl _, found⟩), rfl⟩
    · rintro ⟨n, found, rfl⟩
      rcases (lookup_plainNodes start top t).mp found with ⟨root, _⟩ | ⟨_, held⟩
      · cases root
      · exact held
  list q own := by
    have root : nameIn q [] = none := by
      cases named : nameIn q [] with
      | none => rfl
      | some name => simp [nameIn] at named
    have split : (plainTree start top t).readDir q = (t.nodes.entries.filterMap (plainEntry start top)).filterMap
        (fun e => (nameIn q e.1).map (fun name => (name, e.2))) := by
      simp only [FileTree.readDir, plainTree, plainNodes, List.filterMap_cons, root, Option.map_none]
    rw [split, List.filterMap_filterMap, List.map_filterMap, FileTree.readDir]
    refine List.filterMap_congr (fun e mem => ?_)
    cases entry : plainEntry start top e with
    | some e' =>
      obtain ⟨p, n⟩ := e'
      obtain ⟨inside, rfl⟩ := plainEntry_eq_some_iff.mp entry
      rw [nameIn_append start q (proper_of_own inside)]
      cases named : nameIn q p <;> simp [named]
    | none =>
      cases named : nameIn (start ++ q) e.1 with
      | none => rfl
      | some name =>
        obtain ⟨p, m⟩ := e
        obtain rfl := nameIn_eq_some_iff.mp named
        rw [List.append_assoc] at mem entry
        have inside := own.trans (List.prefix_append q [name])
        obtain ⟨n, rfl⟩ := regular_of_noLink (unlinked _ inside) (AList.mem_lookup_iff.mpr mem)
        rw [plainEntry_eq_some_iff.mpr ⟨inside, rfl⟩] at entry
        cases entry
  within := Within.refl _ t

end

end LinkTree
