import Libisofs.DirTreeIters
import Libisofs.Lib.Ancestry

/-!
# Paths of nodes

iso_tree_path_to_node() and iso_tree_get_node_path() of tree.c. A path leads from the root to a
node, by one child for each component.
-/

namespace DirTree

open Ancestry CellLists
open SymlinkTarget (Bytes slash splitAtSlash isoNodeIsValidName)
open ThreeWay (strcmp strcmp_self strcmp_eq_zero)

variable {Node : Type} [DecidableEq Node]

section Code

variable [Fintype Node] (t : Tree Node)

namespace Tree

/-- iso_dir_get_node(). -/
def isoDirGetNode (dir : Node) (name : Bytes) : Option (Option Node) :=
  match t.isoDirFind dir name with
  | none => none
  | some pos =>
    match t.cell pos with
    | none => some none
    | some n => some (if strcmp (t.name n) name = 0 then some n else none)

/-- The loop over the results of strtok_r(). -/
def walkComponents : List Bytes → (n : Node) → (result : Int) → Option (Int × Option Node)
  | [], n, result => some (result, some n)
  | component :: rest, n, _ =>
    if t.isDir n = false then some (0, none)
    else
      match t.isoDirGetNode n component with
      | none => none
      | some none => some (0, none)
      | some (some n) => walkComponents rest n 1

/-- What strtok_r() with "/" delivers. -/
def components (path : Bytes) : List Bytes := (splitAtSlash [] path).filter (· ≠ [])

/-- The result and what is stored in *node. -/
def isoTreePathToNode (root : Node) (path : Bytes) : Option (Int × Option Node) :=
  if path = [slash] then some (isoSuccess, some root)
  else t.walkComponents (components path) root 0

/-- iso_tree_get_node_path(). The inner none stands for NULL, the outer one for more recursions
than the given number. -/
def isoTreeGetNodePath : (steps : Nat) → Node → Option (Option Bytes)
  | 0, _ => none
  | steps + 1, node =>
    match t.parent node with
    | none => some none
    | some parent =>
      if parent = node then some (some [slash])
      else
        match isoTreeGetNodePath steps parent with
        | none => none
        | some none => some none
        | some (some parentPath) =>
          if parentPath.length = 1 then some (some (slash :: t.name node))
          else some (some (parentPath ++ slash :: t.name node))

end Tree

end Code

section Components

open DirTree.Tree (components)

omit [DecidableEq Node]

theorem splitAtSlash_append_slash (part front back : Bytes) :
    splitAtSlash part (front ++ slash :: back) =
      splitAtSlash part front ++ splitAtSlash [] back := by
  induction front generalizing part with
  | nil => simp [splitAtSlash]
  | cons c front ih =>
    rw [List.cons_append, splitAtSlash, splitAtSlash]
    split
    · rw [ih, List.cons_append]
    · exact ih _

theorem splitAtSlash_of_not_mem (part : Bytes) {word : Bytes} (hword : slash ∉ word) :
    splitAtSlash part word = [part ++ word] := by
  induction word generalizing part with
  | nil => rw [splitAtSlash, List.append_nil]
  | cons c word ih =>
    rw [List.mem_cons, not_or] at hword
    rw [splitAtSlash, if_neg (Ne.symm hword.1), ih _ hword.2, List.append_assoc]
    rfl

theorem components_append {front name : Bytes} (hne : name ≠ []) (hslash : slash ∉ name) :
    components (front ++ slash :: name) = components front ++ [name] := by
  rw [components, splitAtSlash_append_slash, splitAtSlash_of_not_mem [] hslash, List.filter_append,
    List.nil_append]
  congr 1
  exact List.filter_cons_of_pos (by simpa using hne)

theorem components_eq_nil_iff (path : Bytes) : components path = [] ↔ ∀ b ∈ path, b = slash := by
  have hpart : ∀ part : Bytes, (splitAtSlash part path).filter (· ≠ []) = [] ↔
      part = [] ∧ ∀ b ∈ path, b = slash := by
    induction path with
    | nil =>
      intro part
      simp [splitAtSlash]
    | cons c path ih =>
      intro part
      rw [splitAtSlash]
      split
      next hc =>
        subst hc
        by_cases hpart : part = []
        · subst hpart
          rw [List.filter_cons_of_neg (by simp), ih []]
          simp
        · rw [List.filter_cons_of_pos (by simpa using hpart)]
          simp [hpart]
      next hc =>
        rw [ih]
        simp [hc]
  exact (hpart []).trans (by simp)

end Components

section Correspondence

variable {t : Tree Node} {root n m d : Node} {comps : List Bytes}

/-- The components lead from a node through directories to a node. -/
inductive Leads (t : Tree Node) : Node → List Bytes → Node → Prop where
  | here {n : Node} : Leads t n [] n
  | down {d c m : Node} {rest : List Bytes} (isDir : t.isDir d = true)
      (up : t.parent c = some d) (ne : c ≠ d) (further : Leads t c rest m) :
      Leads t d (t.name c :: rest) m

omit [DecidableEq Node] in
theorem Leads.append {rest : List Bytes} (first : Leads t n comps m) (second : Leads t m rest d) :
    Leads t n (comps ++ rest) d := by
  induction first with
  | here => exact second
  | down isDir up ne _ ih => exact .down isDir up ne (ih second)

/-- An image tree: the root is its own parent, all other nodes have valid names. -/
structure ImageTree (t : Tree Node) (root : Node) : Prop extends Orderly t where
  rootDir : t.isDir root = true
  rootParent : t.parent root = some root
  names : ∀ c d, t.parent c = some d → c ≠ d → isoNodeIsValidName (t.name c) = .ok ()

namespace ImageTree

theorem live_of_parent (image : ImageTree t root) (hup : t.parent n = some d) : t.Live n := by
  have hattached : t.parent n ≠ none := by
    rw [hup]
    exact Option.some_ne_none d
  exact (Tree.one_le_held hattached).trans (image.held n)

theorem name_ok (image : ImageTree t root) (hup : t.parent n = some d) (hne : n ≠ d) :
    t.name n ≠ [] ∧ slash ∉ t.name n := by
  have hvalid := image.names n d hup hne
  rw [isoNodeIsValidName] at hvalid
  split_ifs at hvalid with hnil hlong hdots hslash
  exact ⟨hnil, hslash⟩

/-- The name of a child tells which child it is. -/
theorem child_unique (image : ImageTree t root) {c c' : Node} (hc : t.parent c = some d ∧ c ≠ d)
    (hc' : t.parent c' = some d ∧ c' ≠ d) (hname : t.name c = t.name c') : c = c' := by
  obtain ⟨hlive, hdir⟩ := image.parents c d hc.1
  obtain ⟨l, hl⟩ := image.lists d hlive hdir
  have hnodup : (l.map t.name).Nodup := by
    apply List.pairwise_map.mpr
    apply (image.sorted d l hlive hdir hl).imp
    intro a b hlt heq
    rw [heq, strcmp_self] at hlt
    exact Int.lt_irrefl 0 hlt
  exact List.inj_on_of_nodup_map hnodup ((hl.mem c).mpr hc) ((hl.mem c').mpr hc') hname

theorem leads_unique (image : ImageTree t root) {m' : Node} (leads : Leads t n comps m)
    (leads' : Leads t n comps m') : m = m' := by
  induction leads with
  | here =>
    cases leads'
    rfl
  | @down d c m rest hdir up ne _ ih =>
    generalize hcomps : t.name c :: rest = comps' at leads'
    cases leads' with
    | here => cases hcomps
    | @down _ c' _ rest' hdir' up' ne' further' =>
      obtain ⟨hname, rfl⟩ := List.cons.inj hcomps
      obtain rfl := image.child_unique ⟨up, ne⟩ ⟨up', ne'⟩ hname
      exact ih further'

variable [Fintype Node]

theorem isoDirGetNode_spec (image : ImageTree t root) (hlive : t.Live d) (hdir : t.isDir d = true)
    (name : Bytes) : ∃ found, t.isoDirGetNode d name = some found ∧
      ∀ c, found = some c ↔ (t.parent c = some d ∧ c ≠ d) ∧ t.name c = name := by
  obtain ⟨l, hl⟩ := image.lists d hlive hdir
  obtain ⟨l₁, l₂, rfl, hfind, hbefore, hbehind⟩ :=
    isoDirFind_spec hl (image.sorted d l hlive hdir hl) name
  have hfirst : ∀ c ∈ l₁, t.name c ≠ name := by
    rintro c hc rfl
    have := hbefore c hc
    rw [strcmp_self] at this
    exact Int.lt_irrefl 0 this
  have hrest := hl.chain.drop
  rw [Tree.isoDirGetNode, hfind]
  cases l₂ with
  | nil =>
    have hnone : t.cell (endCell Link.next (.children d) l₁) = none := hrest
    refine ⟨none, by simp only [hnone],
      fun c => ⟨fun h => absurd h.symm (Option.some_ne_none c), ?_⟩⟩
    rintro ⟨hc, hname⟩
    have hmem := (hl.mem c).mpr hc
    rw [List.append_nil] at hmem
    exact absurd hname (hfirst c hmem)
  | cons old rest =>
    simp only [hrest.1]
    refine ⟨_, rfl, fun c => ?_⟩
    have hold := (hl.mem old).mp (List.mem_append_right _ List.mem_cons_self)
    constructor
    · intro h
      split at h
      next hname =>
        obtain rfl := Option.some.inj h
        exact ⟨hold, strcmp_eq_zero.mp hname⟩
      next => exact absurd h.symm (Option.some_ne_none c)
    · rintro ⟨hc, hname⟩
      have hmem := (hl.mem c).mpr hc
      rcases List.mem_append.mp hmem with hmem | hmem
      · exact absurd hname (hfirst c hmem)
      · rcases List.mem_cons.mp hmem with rfl | hlater
        · exact if_pos (strcmp_eq_zero.mpr hname)
        · have hsorted := (List.pairwise_append.mp (image.sorted d _ hlive hdir hl)).2.1
          have hlt := (List.pairwise_cons.mp hsorted).1 c hlater
          rw [hname] at hlt
          exact absurd hlt (hbehind old List.mem_cons_self)

/-- The walk over the components finds the node to which they lead, or there is none. -/
theorem walk_cases (image : ImageTree t root) (hlive : t.Live n) (result : Int) :
    (∃ m, Leads t n comps m ∧
      t.walkComponents comps n result = some (if comps = [] then result else 1, some m)) ∨
    (∀ m, ¬ Leads t n comps m) ∧ t.walkComponents comps n result = some (0, none) := by
  induction comps generalizing n result with
  | nil => exact Or.inl ⟨n, .here, rfl⟩
  | cons component rest ih =>
    rw [Tree.walkComponents]
    cases hdir : t.isDir n with
    | false =>
      right
      refine ⟨?_, if_pos rfl⟩
      intro m leads
      cases leads with
      | down isDir _ _ _ => exact Bool.false_ne_true (hdir.symm.trans isDir)
    | true =>
      obtain ⟨found, hget, hfound⟩ := image.isoDirGetNode_spec hlive hdir component
      rw [if_neg Bool.true_eq_false_eq_False, hget]
      cases found with
      | none =>
        right
        refine ⟨?_, rfl⟩
        intro m leads
        cases leads with
        | @down _ c _ _ _ up ne _ =>
          exact absurd ((hfound c).mpr ⟨⟨up, ne⟩, rfl⟩) (Option.some_ne_none c).symm
      | some c =>
        obtain ⟨⟨hup, hne⟩, hname⟩ := (hfound c).mp rfl
        rcases ih (image.live_of_parent hup) 1 with ⟨m, leads, hwalk⟩ | ⟨hnowhere, hwalk⟩
        · left
          refine ⟨m, hname ▸ Leads.down hdir hup hne leads, ?_⟩
          rw [if_neg (List.cons_ne_nil component rest)]
          simpa using hwalk
        · right
          refine ⟨?_, hwalk⟩
          intro m leads
          cases leads with
          | @down _ c' _ _ _ up ne further =>
            obtain rfl := Option.some.inj ((hfound c').mpr ⟨⟨up, ne⟩, rfl⟩)
            exact hnowhere m further

omit [Fintype Node] in
/-- The path of a node is found, and its components lead to the node. -/
theorem node_path (image : ImageTree t root) (beneath : Beneath t.parent root n) :
    ∃ steps path, t.isoTreeGetNodePath steps n = some (some path) ∧
      Leads t root (Tree.components path) n ∧ (n = root ∧ path = [slash] ∨
        n ≠ root ∧ 1 < path.length ∧ Tree.components path ≠ []) := by
  induction beneath with
  | self =>
    refine ⟨1, [slash], ?_, .here, Or.inl ⟨rfl, rfl⟩⟩
    rw [Tree.isoTreeGetNodePath, image.rootParent]
    exact if_pos rfl
  | @child n d up beneath ih =>
    obtain ⟨steps, parentPath, hrun, leads, hcase⟩ := ih
    by_cases hself : d = n
    · subst hself
      exact ⟨steps, parentPath, hrun, leads, hcase⟩
    · obtain ⟨hne, hslash⟩ := image.name_ok up (Ne.symm hself)
      have hroot : n ≠ root := by
        rintro rfl
        exact hself (Option.some.inj (up.symm.trans image.rootParent))
      have hlength := List.length_pos_iff.mpr hne
      have further : Leads t d [t.name n] n :=
        .down (image.parents n d up).2 up (Ne.symm hself) .here
      have hpath : t.isoTreeGetNodePath (steps + 1) n = if parentPath.length = 1 then
          some (some (slash :: t.name n)) else some (some (parentPath ++ slash :: t.name n)) := by
        rw [Tree.isoTreeGetNodePath, up]
        simp only [hself, if_false, hrun]
      have hcomps : ∀ front, Tree.components front = Tree.components parentPath →
          Leads t root (Tree.components (front ++ slash :: t.name n)) n ∧
            Tree.components (front ++ slash :: t.name n) ≠ [] := by
        intro front hfront
        rw [components_append hne hslash, hfront]
        exact ⟨leads.append further, List.append_ne_nil_of_right_ne_nil _ (List.cons_ne_nil _ _)⟩
      rcases hcase with ⟨-, rfl⟩ | ⟨-, hlong, -⟩
      · obtain ⟨hleads, hnonempty⟩ := hcomps [] rfl
        refine ⟨steps + 1, slash :: t.name n, hpath.trans (if_pos rfl), hleads,
          Or.inr ⟨hroot, ?_, hnonempty⟩⟩
        rw [List.length_cons]
        omega
      · obtain ⟨hleads, hnonempty⟩ := hcomps parentPath rfl
        refine ⟨steps + 1, parentPath ++ slash :: t.name n, hpath.trans (if_neg (by omega)), hleads,
          Or.inr ⟨hroot, ?_, hnonempty⟩⟩
        rw [List.length_append, List.length_cons]
        omega

end ImageTree

variable [Fintype Node]

/-- What iso_tree_path_to_node() shall return: 1 with the node to which the components of the path
lead, or 0 with NULL if there is no such node. -/
def PathFound (t : Tree Node) (root : Node) (path : Bytes) : Prop :=
  ∃ ret found, t.isoTreePathToNode root path = some (ret, found) ∧
    (∀ m, ret = 1 ∧ found = some m ↔ Leads t root (Tree.components path) m) ∧
    ((∀ m, ¬ Leads t root (Tree.components path) m) → ret = 0 ∧ found = none)

theorem path_found_iff (image : ImageTree t root) (path : Bytes) :
    PathFound t root path ↔ path = [slash] ∨ ∃ b ∈ path, b ≠ slash := by
  have hlive := image.live_of_parent image.rootParent
  by_cases hslash : path = [slash]
  · subst hslash
    refine ⟨fun _ => Or.inl rfl, fun _ => ⟨1, some root, if_pos rfl, ?_, ?_⟩⟩
    · intro m
      constructor
      · rintro ⟨-, hm⟩
        obtain rfl := Option.some.inj hm
        exact .here
      · intro leads
        have hroot : Leads t root (Tree.components [slash]) root := .here
        exact ⟨rfl, congrArg some (image.leads_unique hroot leads)⟩
    · intro hnowhere
      exact absurd .here (hnowhere root)
  · have hrun : t.isoTreePathToNode root path =
        t.walkComponents (Tree.components path) root 0 := if_neg hslash
    have hcond : (path = [slash] ∨ ∃ b ∈ path, b ≠ slash) ↔ Tree.components path ≠ [] := by
      rw [ne_eq, components_eq_nil_iff]
      simp [hslash]
    rw [hcond]
    rcases image.walk_cases hlive 0 with ⟨m, leads, hwalk⟩ | ⟨hnowhere, hwalk⟩
    · constructor
      · rintro ⟨ret, found, hrun', hiff, -⟩ hnil
        rw [hrun, hwalk, if_pos hnil] at hrun'
        obtain ⟨rfl, -⟩ := Prod.mk.inj (Option.some.inj hrun')
        exact absurd ((hiff m).mpr leads).1 (by decide)
      · intro hne
        rw [if_neg hne] at hwalk
        refine ⟨1, some m, hrun.trans hwalk, ?_, fun hnowhere => absurd leads (hnowhere m)⟩
        intro m'
        constructor
        · rintro ⟨-, hm⟩
          obtain rfl := Option.some.inj hm
          exact leads
        · intro leads'
          exact ⟨rfl, congrArg some (image.leads_unique leads leads')⟩
    · have hne : Tree.components path ≠ [] := by
        intro hnil
        exact hnowhere root (hnil ▸ .here)
      refine ⟨fun _ => hne, fun _ => ⟨0, none, hrun.trans hwalk, ?_, fun _ => ⟨rfl, rfl⟩⟩⟩
      intro m
      constructor
      · rintro ⟨hret, -⟩
        exact absurd hret (by decide)
      · intro leads
        exact absurd leads (hnowhere m)

/-- A path is found as it should if and only if it is / or has a component, and the path of each
node of the tree leads back to the node. -/
theorem paths_correspond (image : ImageTree t root) :
    (∀ path, PathFound t root path ↔ path = [slash] ∨ ∃ b ∈ path, b ≠ slash) ∧
      ∀ n, Beneath t.parent root n → ∃ steps path,
        t.isoTreeGetNodePath steps n = some (some path) ∧
          t.isoTreePathToNode root path = some (1, some n) := by
  refine ⟨path_found_iff image, fun n beneath => ?_⟩
  obtain ⟨steps, path, hpath, leads, hcase⟩ := image.node_path beneath
  refine ⟨steps, path, hpath, ?_⟩
  rcases hcase with ⟨rfl, rfl⟩ | ⟨-, hlong, hne⟩
  · exact if_pos rfl
  · have hslash : path ≠ [slash] := by
      rintro rfl
      exact absurd hlong (by decide)
    have hlive := image.live_of_parent image.rootParent
    rw [Tree.isoTreePathToNode, if_neg hslash]
    rcases image.walk_cases hlive 0 with ⟨m, leads', hwalk⟩ | ⟨hnowhere, -⟩
    · obtain rfl := image.leads_unique leads leads'
      rw [hwalk, if_neg hne]
    · exact absurd leads (hnowhere n)

theorem image_oneChild : ImageTree oneChild 0 where
  toOrderly := orderly_oneChild
  rootDir := rfl
  rootParent := rfl
  names c d up ne := by
    have hparents : ∀ c, oneChild.parent c = some 0 := by decide
    obtain rfl := Option.some.inj ((hparents c).symm.trans up)
    have hcases : ∀ c : Fin 2, c = 0 ∨ c = 1 := by decide
    obtain rfl := (hcases c).resolve_left ne
    rfl

/-- For the path // the result is 0, although the pointer to the root is returned. -/
theorem double_slash_not_found : ¬ ∀ (t : Tree (Fin 2)) (root : Fin 2) (path : Bytes),
    ImageTree t root → PathFound t root path := by
  intro claim
  rcases (path_found_iff image_oneChild [slash, slash]).mp (claim oneChild 0 _ image_oneChild) with
    hsingle | ⟨b, hb, hne⟩
  · exact absurd hsingle (by decide)
  · rcases List.mem_cons.mp hb with rfl | hb
    · exact hne rfl
    · exact hne (List.mem_singleton.mp hb)

theorem image_twoLevels : ImageTree twoLevels 0 where
  toOrderly := orderly_twoLevels
  rootDir := rfl
  rootParent := rfl
  names c d up ne := by
    have hnames : ∀ c d, twoLevels.parent c = some d → c ≠ d →
        isoNodeIsValidName (twoLevels.name c) = .ok () := by decide
    exact hnames c d up ne

theorem twoLevels_paths_correspond :
    Beneath twoLevels.parent 0 2 ∧
      (∀ path, PathFound twoLevels 0 path ↔ path = [slash] ∨ ∃ b ∈ path, b ≠ slash) ∧
      ∀ n, Beneath twoLevels.parent 0 n → ∃ steps path,
        twoLevels.isoTreeGetNodePath steps n = some (some path) ∧
          twoLevels.isoTreePathToNode 0 path = some (1, some n) :=
  ⟨.child (d := 1) rfl (.child (d := 0) rfl .self), paths_correspond image_twoLevels⟩

end Correspondence

end DirTree
