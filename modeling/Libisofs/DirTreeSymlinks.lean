import Libisofs.DirTreePaths

/-!
# Resolution of symbolic links

iso_tree_resolve_symlink() of tree.c resolves inner links by recursion. What it shall find is told
by an expansion of one component after the other, where a link is replaced by the components of
its target.
-/

namespace DirTree

open Ancestry CellLists
open SymlinkTarget (Bytes slash dot splitAtSlash)

variable {Node : Type} [DecidableEq Node]

def libisoMaxLinkDepth : Nat := 100

/-- The targets of those nodes which are symbolic links. -/
structure Targets (t : Tree Node) where
  dest : Node → Option Bytes
  noDirectory : ∀ n, (dest n).isSome → t.isDir n = false

/-- ISO_DEAD_SYMLINK, ISO_DEEP_SYMLINK, or success with a node. -/
inductive Resolved (Node : Type) where
  | node (n : Node)
  | dead
  | deep

section Code

variable (t : Tree Node)

/-- The directory where the walk begins. -/
def startDir (root sym : Node) (dest : Bytes) : Node :=
  if dest.head? = some slash then root else (t.parent sym).getD root

/-- The texts between the slashes. An absolute target begins behind its first slash. -/
def linkParts (dest : Bytes) : List Bytes :=
  if dest.head? = some slash then splitAtSlash [] dest.tail else splitAtSlash [] dest

variable [Fintype Node]

/-- Search node in cur_dir. -/
def searchChild (dir : Node) (component : Bytes) : Option (Option Node) :=
  (seek Link.next t.cell (fun n => decide (t.name n ≠ component)) (steps Node)
    (.children dir)).map t.cell

variable {t} (links : Targets t) (root : Node)

/-- The label leaf_type. -/
def leafType (rest : List Bytes) (n : Node) (depth : Nat) : Option (Resolved Node × Nat) :=
  some (if rest ≠ [] then .dead else .node n, depth)

/-- The loop over the components of a target. Inner links are resolved by the given function. None
is for a loop which does not end. -/
def walkTarget (resolve : Node → Nat → Option (Resolved Node × Nat)) :
    List Bytes → (curDir : Node) → (depth : Nat) → Option (Resolved Node × Nat)
  | [], curDir, depth => some (.node curDir, depth)
  | component :: rest, curDir, depth =>
    if component = [] ∨ component = [dot] then walkTarget resolve rest curDir depth
    else if component = [dot, dot] then
      match t.parent curDir with
      | none => some (.dead, depth) -- link shoots over root
      | some up => walkTarget resolve rest up depth
    else
      match searchChild t curDir component with
      | none => none
      | some none => some (.dead, depth)
      | some (some n) =>
        if t.isDir n then walkTarget resolve rest n depth
        else if (links.dest n).isSome then
          if libisoMaxLinkDepth ≤ depth then some (.deep, depth)
          else
            match resolve n (depth + 1) with
            | none => none
            | some (.node resolvedNode, depth) =>
              if t.isDir resolvedNode = false then leafType rest resolvedNode depth
              else walkTarget resolve rest resolvedNode depth
            | some (error, depth) => some (error, depth)
        else leafType rest n depth

/-- iso_tree_resolve_symlink() with the result and the final value of *depth. None is for a loop
which does not end, or for more recursions than the given number. -/
def isoTreeResolveSymlink : (levels : Nat) → (sym : Node) → (depth : Nat) →
    Option (Resolved Node × Nat)
  | 0, _, _ => none
  | levels + 1, sym, depth =>
    let dest := (links.dest sym).getD []
    walkTarget links (isoTreeResolveSymlink levels) (linkParts dest) (startDir t root sym dest) depth

end Code

section Reference

variable {t : Tree Node}

/-- The child of a directory with the given name. -/
def ChildNamed (t : Tree Node) (d : Node) (name : Bytes) (c : Node) : Prop :=
  (t.parent c = some d ∧ c ≠ d) ∧ t.name c = name

/-- A component which is looked up. -/
def Plain (component : Bytes) : Prop :=
  component ≠ [] ∧ component ≠ [dot] ∧ component ≠ [dot, dot]

/-- The expansion of components from a directory on, after some links have been expanded. -/
inductive Expands (links : Targets t) (root : Node) :
    Node → List Bytes → (count : Nat) → Resolved Node → Prop where
  | done {d : Node} {count : Nat} : Expands links root d [] count (.node d)
  | stay {d : Node} {component : Bytes} {rest : List Bytes} {count : Nat} {r : Resolved Node}
      (skipped : component = [] ∨ component = [dot]) (further : Expands links root d rest count r) :
      Expands links root d (component :: rest) count r
  | up {d p : Node} {rest : List Bytes} {count : Nat} {r : Resolved Node}
      (parent : t.parent d = some p) (further : Expands links root p rest count r) :
      Expands links root d ([dot, dot] :: rest) count r
  | missing {d : Node} {component : Bytes} {rest : List Bytes} {count : Nat}
      (plain : Plain component) (nobody : ∀ c, ¬ ChildNamed t d component c) :
      Expands links root d (component :: rest) count .dead
  | directory {d c : Node} {component : Bytes} {rest : List Bytes} {count : Nat} {r : Resolved Node}
      (plain : Plain component) (child : ChildNamed t d component c) (isDir : t.isDir c = true)
      (further : Expands links root c rest count r) :
      Expands links root d (component :: rest) count r
  | leaf {d c : Node} {component : Bytes} {count : Nat}
      (plain : Plain component) (child : ChildNamed t d component c) (noDir : t.isDir c = false)
      (noLink : links.dest c = none) : Expands links root d [component] count (.node c)
  | intoLeaf {d c : Node} {component : Bytes} {rest : List Bytes} {count : Nat}
      (plain : Plain component) (child : ChildNamed t d component c) (noDir : t.isDir c = false)
      (noLink : links.dest c = none) (more : rest ≠ []) :
      Expands links root d (component :: rest) count .dead
  | link {d c : Node} {component dest : Bytes} {rest : List Bytes} {count : Nat} {r : Resolved Node}
      (plain : Plain component) (child : ChildNamed t d component c)
      (target : links.dest c = some dest) (allowed : count < libisoMaxLinkDepth)
      (further : Expands links root (startDir t root c dest) (linkParts dest ++ rest) (count + 1) r) :
      Expands links root d (component :: rest) count r
  | tooMany {d c : Node} {component dest : Bytes} {rest : List Bytes} {count : Nat}
      (plain : Plain component) (child : ChildNamed t d component c)
      (target : links.dest c = some dest) (exceeded : libisoMaxLinkDepth ≤ count) :
      Expands links root d (component :: rest) count .deep

/-- The result of a symbolic link. -/
def LinkResult (links : Targets t) (root sym : Node) (r : Resolved Node) : Prop :=
  ∃ dest, links.dest sym = some dest ∧
    Expands links root (startDir t root sym dest) (linkParts dest) 0 r

end Reference

section Uniqueness

variable {t : Tree Node} {links : Targets t} {root d c c' : Node} {component : Bytes}
  {comps : List Bytes} {count : Nat} {r r' : Resolved Node}

omit [DecidableEq Node] in
theorem Plain.not_skipped (plain : Plain component) : ¬ (component = [] ∨ component = [dot]) :=
  not_or.mpr ⟨plain.1, plain.2.1⟩

theorem ImageTree.childNamed_unique (image : ImageTree t root) (child : ChildNamed t d component c)
    (child' : ChildNamed t d component c') : c = c' :=
  image.child_unique child.1 child'.1 (child.2.trans child'.2.symm)

omit [DecidableEq Node] in
theorem Targets.dest_of_isDir (links : Targets t) (hdir : t.isDir c = true) :
    links.dest c = none := by
  by_contra hsome
  have hno := links.noDirectory c (Option.isSome_iff_ne_none.mpr hsome)
  exact Bool.false_ne_true (hno.symm.trans hdir)

variable {rest : List Bytes}

omit [DecidableEq Node] in
theorem Expands.of_missing (plain : Plain component) (nobody : ∀ c, ¬ ChildNamed t d component c)
    (h : Expands links root d (component :: rest) count r) : r = .dead := by
  cases h with
  | stay skipped _ => exact absurd skipped plain.not_skipped
  | up _ _ => exact absurd rfl plain.2.2
  | missing _ _ => rfl
  | _ => exact absurd ‹ChildNamed t _ _ _› (nobody _)

theorem Expands.of_directory (image : ImageTree t root) (plain : Plain component)
    (child : ChildNamed t d component c) (isDir : t.isDir c = true)
    (h : Expands links root d (component :: rest) count r) : Expands links root c rest count r := by
  have hlink := links.dest_of_isDir isDir
  cases h with
  | stay skipped _ => exact absurd skipped plain.not_skipped
  | up _ _ => exact absurd rfl plain.2.2
  | missing _ nobody => exact absurd child (nobody c)
  | directory _ child' _ further =>
    obtain rfl := image.childNamed_unique child child'
    exact further
  | leaf _ child' noDir _ | intoLeaf _ child' noDir _ _ =>
    obtain rfl := image.childNamed_unique child child'
    exact absurd (noDir.symm.trans isDir) Bool.false_ne_true
  | link _ child' target _ _ | tooMany _ child' target _ =>
    obtain rfl := image.childNamed_unique child child'
    exact absurd (target.symm.trans hlink) (Option.some_ne_none _)

theorem Expands.of_leaf (image : ImageTree t root) (plain : Plain component)
    (child : ChildNamed t d component c) (noDir : t.isDir c = false) (noLink : links.dest c = none)
    (h : Expands links root d (component :: rest) count r) :
    r = if rest ≠ [] then .dead else .node c := by
  cases h with
  | stay skipped _ => exact absurd skipped plain.not_skipped
  | up _ _ => exact absurd rfl plain.2.2
  | missing _ nobody => exact absurd child (nobody c)
  | directory _ child' isDir _ =>
    obtain rfl := image.childNamed_unique child child'
    exact absurd (noDir.symm.trans isDir) Bool.false_ne_true
  | leaf _ child' _ _ =>
    obtain rfl := image.childNamed_unique child child'
    rfl
  | intoLeaf _ _ _ _ more => rw [if_pos more]
  | link _ child' target _ _ | tooMany _ child' target _ =>
    obtain rfl := image.childNamed_unique child child'
    exact absurd (target.symm.trans noLink) (Option.some_ne_none _)

theorem Expands.of_link (image : ImageTree t root) (plain : Plain component)
    (child : ChildNamed t d component c) {dest : Bytes} (target : links.dest c = some dest)
    (h : Expands links root d (component :: rest) count r) :
    count < libisoMaxLinkDepth ∧
        Expands links root (startDir t root c dest) (linkParts dest ++ rest) (count + 1) r ∨
      libisoMaxLinkDepth ≤ count ∧ r = .deep := by
  have noDir : t.isDir c = false := links.noDirectory c (by rw [target]; rfl)
  cases h with
  | stay skipped _ => exact absurd skipped plain.not_skipped
  | up _ _ => exact absurd rfl plain.2.2
  | missing _ nobody => exact absurd child (nobody c)
  | directory _ child' isDir _ =>
    obtain rfl := image.childNamed_unique child child'
    exact absurd (noDir.symm.trans isDir) Bool.false_ne_true
  | leaf _ child' _ noLink | intoLeaf _ child' _ noLink _ =>
    obtain rfl := image.childNamed_unique child child'
    exact absurd (target.symm.trans noLink) (Option.some_ne_none _)
  | link _ child' target' allowed further =>
    obtain rfl := image.childNamed_unique child child'
    obtain rfl := Option.some.inj (target.symm.trans target')
    exact Or.inl ⟨allowed, further⟩
  | tooMany _ _ _ exceeded => exact Or.inr ⟨exceeded, rfl⟩

/-- The expansion has one result at most. -/
theorem Expands.unique (image : ImageTree t root) (first : Expands links root d comps count r)
    (second : Expands links root d comps count r') : r = r' := by
  induction first generalizing r' with
  | done =>
    cases second
    rfl
  | stay skipped _ ih =>
    cases second with
    | stay _ further => exact ih further
    | up _ _ => exact absurd skipped (by decide)
    | _ => exact absurd skipped (Plain.not_skipped ‹Plain _›)
  | up parent _ ih =>
    cases second with
    | stay skipped _ => exact absurd skipped (by decide)
    | up parent' further =>
      obtain rfl := Option.some.inj (parent.symm.trans parent')
      exact ih further
    | _ => exact absurd rfl (‹Plain _› : Plain [dot, dot]).2.2
  | missing plain nobody => exact (second.of_missing plain nobody).symm
  | directory plain child isDir _ ih => exact ih (second.of_directory image plain child isDir)
  | leaf plain child noDir noLink => exact (second.of_leaf image plain child noDir noLink).symm
  | intoLeaf plain child noDir noLink more =>
    rw [second.of_leaf image plain child noDir noLink, if_pos more]
  | link plain child target allowed _ ih =>
    rcases second.of_link image plain child target with ⟨-, further⟩ | ⟨exceeded, -⟩
    · exact ih further
    · exact absurd allowed (Nat.not_lt.mpr exceeded)
  | tooMany plain child target exceeded =>
    rcases second.of_link image plain child target with ⟨allowed, -⟩ | ⟨-, hdeep⟩
    · exact absurd allowed (Nat.not_lt.mpr exceeded)
    · exact hdeep.symm

end Uniqueness

section Walk

variable [Fintype Node] {t : Tree Node} {links : Targets t} {root d n : Node} {component : Bytes}
  {comps rest : List Bytes} {depth depth' count : Nat} {r r' : Resolved Node}

/-- What becomes of the rest of the components after a part of them has led to a node. -/
inductive Continues (links : Targets t) (root : Node) (n : Node) (rest : List Bytes) (count : Nat) :
    Resolved Node → Prop where
  | directory {r : Resolved Node} (isDir : t.isDir n = true)
      (further : Expands links root n rest count r) : Continues links root n rest count r
  | leaf (noDir : t.isDir n = false) :
      Continues links root n rest count (if rest ≠ [] then .dead else .node n)

/-- The result of some components, as far as the rest of the components matters for it. -/
def Leaves (links : Targets t) (root d : Node) (comps : List Bytes) (count : Nat) :
    Resolved Node → (count' : Nat) → Prop
  | .node n, count' => ∀ rest r, Continues links root n rest count' r →
      Expands links root d (comps ++ rest) count r
  | error, _ => ∀ rest, Expands links root d (comps ++ rest) count error

/-- A directory, all of which are in the image. -/
structure Place (t : Tree Node) (root d : Node) : Prop where
  beneath : Beneath t.parent root d
  isDir : t.isDir d = true

/-- Results are in the image, and they are no links. -/
def Fine (links : Targets t) (root : Node) : Resolved Node → Prop
  | .node n => Beneath t.parent root n ∧ links.dest n = none
  | _ => True

omit [Fintype Node] in
theorem ImageTree.live_of_beneath (image : ImageTree t root) (h : Beneath t.parent root n) :
    t.Live n := by
  cases h with
  | self => exact image.live_of_parent image.rootParent
  | child up _ => exact image.live_of_parent up

omit [Fintype Node] in
/-- The parent of a directory of the image is one, too. -/
theorem Place.up (image : ImageTree t root) (place : Place t root d) :
    ∃ p, t.parent d = some p ∧ Place t root p := by
  cases place.beneath with
  | self => exact ⟨root, image.rootParent, place⟩
  | @child _ p up beneath => exact ⟨p, up, beneath, (image.parents d p up).2⟩

omit [Fintype Node] in
theorem Place.start (image : ImageTree t root) (beneath : Beneath t.parent root n)
    (noDir : t.isDir n = false) (dest : Bytes) : Place t root (startDir t root n dest) := by
  rw [startDir]
  split
  · exact ⟨.self, image.rootDir⟩
  · cases beneath with
    | self => exact absurd (noDir.symm.trans image.rootDir) Bool.false_ne_true
    | @child _ p up beneath =>
      rw [up]
      exact ⟨beneath, (image.parents n p up).2⟩

/-- The search finds the child of the name, if there is one. -/
theorem searchChild_spec (image : ImageTree t root) (place : Place t root d) (component : Bytes) :
    ∃ found, searchChild t d component = some found ∧
      ∀ c, found = some c ↔ ChildNamed t d component c := by
  obtain ⟨l, hl⟩ := image.lists d (image.live_of_beneath place.beneath) place.isDir
  have hsplit : l.takeWhile (fun n => decide (t.name n ≠ component)) ++
      l.dropWhile (fun n => decide (t.name n ≠ component)) = l := List.takeWhile_append_dropWhile
  have hcell : t.cell (endCell Link.next (.children d)
      (l.takeWhile fun n => decide (t.name n ≠ component))) =
      l.find? fun n => decide (t.name n = component) := by
    have hchain := hl.chain
    rw [← hsplit] at hchain
    have hrest := hchain.drop
    rw [List.find?_eq_head?_dropWhile_not]
    simp only [decide_not] at hrest ⊢
    cases hdrop : l.dropWhile fun n => !decide (t.name n = component) with
    | nil =>
      rw [hdrop] at hrest
      exact hrest
    | cons c later =>
      rw [hdrop] at hrest
      exact hrest.1
  refine ⟨l.find? fun n => decide (t.name n = component), ?_, ?_⟩
  · rw [searchChild, seek_eq _ hl.chain (length_lt_steps hl.chain.nodup), Option.map_some, hcell]
  · intro c
    constructor
    · intro hfound
      have hname : t.name c = component := by simpa using List.find?_some hfound
      exact ⟨(hl.mem c).mp (List.mem_of_find?_eq_some hfound), hname⟩
    · intro child
      cases hfound : l.find? fun n => decide (t.name n = component) with
      | none =>
        have hno := List.find?_eq_none.mp hfound c ((hl.mem c).mpr child.1)
        exact absurd child.2 (by simpa using hno)
      | some c' =>
        have hname : t.name c' = component := by simpa using List.find?_some hfound
        have hmem := (hl.mem c').mp (List.mem_of_find?_eq_some hfound)
        rw [image.childNamed_unique ⟨hmem, hname⟩ child]

omit [DecidableEq Node] [Fintype Node] in
/-- One component more in front. -/
theorem Leaves.cons {d' : Node}
    (h : ∀ rest r, Expands links root d' (comps ++ rest) count r →
      Expands links root d (component :: comps ++ rest) depth r)
    (leaves : Leaves links root d' comps count r depth') :
    Leaves links root d (component :: comps) depth r depth' := by
  cases r with
  | node n => exact fun rest r continues => h rest r (leaves rest r continues)
  | dead => exact fun rest => h rest .dead (leaves rest)
  | deep => exact fun rest => h rest .deep (leaves rest)

/-- What the walk over components yields, from this depth on. -/
def WalkEnds (links : Targets t) (root d : Node) (comps : List Bytes) (depth : Nat)
    (result : Option (Resolved Node × Nat)) : Prop :=
  ∃ r depth', result = some (r, depth') ∧ depth ≤ depth' ∧ Fine links root r ∧
    Leaves links root d comps depth r depth'

omit [DecidableEq Node] [Fintype Node] in
/-- A node which is no directory ends the walk. -/
theorem leafType_ends (fine : Fine links root (.node n)) (noDir : t.isDir n = false)
    (hdepth : depth ≤ depth')
    (h : ∀ later r, Continues links root n (rest ++ later) depth' r →
      Expands links root d (component :: rest ++ later) depth r) :
    WalkEnds links root d (component :: rest) depth (leafType rest n depth') := by
  by_cases hrest : rest = []
  · subst hrest
    refine ⟨.node n, depth', rfl, hdepth, fine, ?_⟩
    exact fun later r continues => h later r continues
  · refine ⟨.dead, depth', ?_, hdepth, trivial, ?_⟩
    · rw [leafType, if_pos hrest]
    · intro later
      have continues : Continues links root n (rest ++ later) depth' .dead := by
        have hleaf : Continues links root n (rest ++ later) depth'
            (if rest ++ later ≠ [] then .dead else .node n) := .leaf noDir
        rwa [if_pos (List.append_ne_nil_of_left_ne_nil hrest later)] at hleaf
      exact h later .dead continues

omit [DecidableEq Node] [Fintype Node] in
/-- From the result of a link the walk goes on, if it is a directory. -/
theorem link_ends {linkDir : Node} {parts : List Bytes} {resolved : Option (Resolved Node × Nat)}
    {walk : Node → Nat → Option (Resolved Node × Nat)}
    (further : ∀ {n depth'}, depth < depth' → Place t root n →
      WalkEnds links root n rest depth' (walk n depth'))
    (hlink : ∀ later r, Expands links root linkDir (parts ++ (rest ++ later)) (depth + 1) r →
      Expands links root d (component :: rest ++ later) depth r) :
    WalkEnds links root linkDir parts (depth + 1) resolved →
    WalkEnds links root d (component :: rest) depth
      (match resolved with
      | none => none
      | some (.node n, depth) => if t.isDir n = false then leafType rest n depth else walk n depth
      | some (error, depth) => some (error, depth)) := by
  rintro ⟨r₁, depth₁, rfl, hle₁, fine₁, leaves₁⟩
  cases r₁ with
  | node n₁ =>
    dsimp only
    split
    next noDir =>
      exact leafType_ends fine₁ noDir (by omega) fun later r continues =>
        hlink later r (leaves₁ _ r continues)
    next isDir =>
      have isDir' : t.isDir n₁ = true := by simpa using isDir
      obtain ⟨r, depth', hrun, hle, fine, leaves⟩ := further hle₁ ⟨fine₁.1, isDir'⟩
      refine ⟨r, depth', hrun, by omega, fine, leaves.cons fun later r further => ?_⟩
      exact hlink later r (leaves₁ _ r (.directory isDir' further))
  | dead =>
    exact ⟨.dead, depth₁, rfl, by omega, trivial, fun later =>
      hlink later .dead (leaves₁ (rest ++ later))⟩
  | deep =>
    exact ⟨.deep, depth₁, rfl, by omega, trivial, fun later =>
      hlink later .deep (leaves₁ (rest ++ later))⟩

theorem walkTarget_ends (image : ImageTree t root)
    {resolve : Node → Nat → Option (Resolved Node × Nat)}
    (hresolve : ∀ n dest k, Beneath t.parent root n → links.dest n = some dest → depth < k →
      k ≤ libisoMaxLinkDepth →
      WalkEnds links root (startDir t root n dest) (linkParts dest) k (resolve n k))
    (place : Place t root d) :
    WalkEnds links root d comps depth (walkTarget links resolve comps d depth) := by
  induction comps generalizing d depth with
  | nil =>
    refine ⟨.node d, depth, rfl, Nat.le_refl _,
      ⟨place.beneath, links.dest_of_isDir place.isDir⟩, ?_⟩
    intro rest r continues
    cases continues with
    | directory _ further => exact further
    | leaf noDir => exact absurd (noDir.symm.trans place.isDir) Bool.false_ne_true
  | cons component rest ih =>
    rw [walkTarget]
    split
    next skipped =>
      obtain ⟨r, depth', hrun, hle, fine, leaves⟩ := ih hresolve place
      exact ⟨r, depth', hrun, hle, fine, leaves.cons fun _ _ further => .stay skipped further⟩
    next hskip =>
      split
      next hup =>
        subst hup
        obtain ⟨p, parent, place'⟩ := place.up image
        obtain ⟨r, depth', hrun, hle, fine, leaves⟩ := ih hresolve place'
        rw [parent]
        exact ⟨r, depth', hrun, hle, fine, leaves.cons fun _ _ further => .up parent further⟩
      next hup =>
        rw [not_or] at hskip
        have plain : Plain component := ⟨hskip.1, hskip.2, hup⟩
        obtain ⟨found, hsearch, hfound⟩ := searchChild_spec image place component
        rw [hsearch]
        cases found with
        | none =>
          refine ⟨.dead, depth, rfl, Nat.le_refl _, trivial, ?_⟩
          intro later
          exact .missing plain fun c child => Option.some_ne_none c ((hfound c).mpr child).symm
        | some n =>
          have child := (hfound n).mp rfl
          have beneath : Beneath t.parent root n := .child child.1.1 place.beneath
          dsimp only
          cases hdir : t.isDir n with
          | true =>
            obtain ⟨r, depth', hrun, hle, fine, leaves⟩ := ih hresolve ⟨beneath, hdir⟩
            rw [if_pos rfl]
            exact ⟨r, depth', hrun, hle, fine,
              leaves.cons fun _ _ further => .directory plain child hdir further⟩
          | false =>
            rw [if_neg Bool.false_ne_true]
            cases htarget : links.dest n with
            | none =>
              rw [if_neg (by decide)]
              refine leafType_ends ⟨beneath, htarget⟩ hdir (Nat.le_refl _) ?_
              intro later r continues
              cases continues with
              | directory isDir _ => exact absurd (hdir.symm.trans isDir) Bool.false_ne_true
              | leaf _ =>
                by_cases hmore : rest ++ later = []
                · rw [if_neg (not_not.mpr hmore), List.cons_append, hmore]
                  exact .leaf plain child hdir htarget
                · rw [if_pos hmore]
                  exact .intoLeaf plain child hdir htarget hmore
            | some dest =>
              rw [if_pos (show (some dest).isSome = true from rfl)]
              split
              next exceeded =>
                refine ⟨.deep, depth, rfl, Nat.le_refl _, trivial, ?_⟩
                exact fun later => .tooMany plain child htarget exceeded
              next hallowed =>
                have allowed := Nat.not_le.mp hallowed
                refine link_ends (fun hless place => ih (fun m dest k hm hdest hk hmax => ?_) place)
                  (fun later r further => .link plain child htarget allowed further)
                  (hresolve n dest _ beneath htarget (Nat.lt_succ_self _) allowed)
                exact hresolve m dest k hm hdest (by omega) hmax

/-- The recursion ends, as each level of it adds to the depth. -/
theorem resolve_ends (image : ImageTree t root) {levels : Nat} {dest : Bytes}
    (beneath : Beneath t.parent root n) (htarget : links.dest n = some dest)
    (hlevels : libisoMaxLinkDepth < levels + depth) (hdepth : depth ≤ libisoMaxLinkDepth) :
    WalkEnds links root (startDir t root n dest) (linkParts dest) depth
      (isoTreeResolveSymlink links root levels n depth) := by
  induction levels generalizing n dest depth with
  | zero => omega
  | succ levels ih =>
    have noDir : t.isDir n = false := links.noDirectory n (by rw [htarget]; rfl)
    rw [isoTreeResolveSymlink, htarget]
    apply walkTarget_ends image ?_ (Place.start image beneath noDir dest)
    intro m dest' k hm hdest hk hmax
    exact ih hm hdest (by omega) hmax

/-- For each symbolic link in the image, the call ends with the result of the expansion of its
target, and a resulting node is no symbolic link. -/
theorem resolve_symlink_result (image : ImageTree t root) (links : Targets t) {sym : Node}
    (beneath : Beneath t.parent root sym) (hlink : (links.dest sym).isSome) :
    ∃ r, (∀ levels > libisoMaxLinkDepth, ∃ depth,
        isoTreeResolveSymlink links root levels sym 0 = some (r, depth)) ∧
      (∀ r', LinkResult links root sym r' ↔ r' = r) ∧ ∀ n, r = .node n → links.dest n = none := by
  obtain ⟨dest, htarget⟩ := Option.isSome_iff_exists.mp hlink
  have hends : ∀ levels > libisoMaxLinkDepth, WalkEnds links root (startDir t root sym dest)
      (linkParts dest) 0 (isoTreeResolveSymlink links root levels sym 0) :=
    fun levels hlevels => resolve_ends image beneath htarget hlevels (Nat.zero_le _)
  have hresult : ∀ levels > libisoMaxLinkDepth, ∃ r depth,
      isoTreeResolveSymlink links root levels sym 0 = some (r, depth) ∧
        LinkResult links root sym r ∧ Fine links root r := by
    intro levels hlevels
    obtain ⟨r, depth, hrun, -, fine, leaves⟩ := hends levels hlevels
    refine ⟨r, depth, hrun, ⟨dest, htarget, ?_⟩, fine⟩
    rw [← List.append_nil (linkParts dest)]
    cases r with
    | node n =>
      apply leaves [] (.node n)
      cases hdir : t.isDir n with
      | true => exact .directory hdir .done
      | false => exact .leaf hdir
    | dead => exact leaves []
    | deep => exact leaves []
  have hunique : ∀ r r', LinkResult links root sym r → LinkResult links root sym r' → r = r' := by
    rintro r r' ⟨dest₁, htarget₁, first⟩ ⟨dest₂, htarget₂, second⟩
    obtain rfl := Option.some.inj (htarget₁.symm.trans htarget₂)
    exact first.unique image second
  obtain ⟨r, -, -, result, fine⟩ := hresult _ (Nat.lt_succ_self libisoMaxLinkDepth)
  refine ⟨r, ?_, ?_, ?_⟩
  · intro levels hlevels
    obtain ⟨r', depth, hrun, result', -⟩ := hresult levels hlevels
    obtain rfl := hunique r r' result result'
    exact ⟨depth, hrun⟩
  · intro r'
    constructor
    · exact fun result' => hunique r' r result' result
    · rintro rfl
      exact result
  · rintro n rfl
    exact fine.2

/-- The link /b leads to /a/a, which is a link to the root. -/
def linkDest (n : Fin 4) : Option Bytes :=
  if n.val = 3 then some [97, slash, 97] else if n.val = 2 then some [dot, dot] else none

theorem linkDest_file : ∀ n, (linkDest n).isSome → twoLevels.isDir n = false := by
  decide

def linkToLink : Targets twoLevels := ⟨linkDest, linkDest_file⟩

theorem linkToLink_resolved :
    ∃ r, (∀ levels > libisoMaxLinkDepth, ∃ depth,
        isoTreeResolveSymlink linkToLink 0 levels 3 0 = some (r, depth)) ∧
      (∀ r', LinkResult linkToLink 0 3 r' ↔ r' = r) ∧
        ∀ n, r = .node n → linkToLink.dest n = none := by
  have hup : twoLevels.parent 3 = some 0 := rfl
  exact resolve_symlink_result image_twoLevels linkToLink (.child hup .self) rfl

end Walk

end DirTree
