import Libisofs.StreamCmp

/-!
# Owners of blocks

iso_tree_get_node_of_block() of tree.c looks for the file to which a block of the imported image
belongs, and else for the next block at which a file begins.
-/

namespace BlockOwner

open StreamCmp (IsoFileSection)

universe u
variable {Id : Type u}

/-- A file has sections if it stems from an old image. -/
inductive IsoNode (Id : Type u) where
  | file (id : Id) (oldSections : Option (List IsoFileSection))
  | dir (id : Id) (children : List (IsoNode Id))
  | other (id : Id)

section Code

/-- The loop over the sections of a file. -/
def scanSections (block : Nat) (id : Id) : List IsoFileSection → (na : Nat) → Option Id × Nat
  | [], na => (none, na)
  | s :: rest, na =>
    if s.block ≤ block ∧ block - s.block < (s.size + 2047) / 2048 then (some id, na)
    else
      scanSections block id rest (if (na = 0 ∨ s.block < na) ∧ block < s.block then s.block else na)

/-- How a call hands out its number. Bit 0 of the flag tells that it is a recursion. -/
def storeNextAbove (recursion : Bool) (na nextAbove : Nat) : Nat :=
  if 0 < na ∨ recursion = false then
    if nextAbove = 0 ∨ na < nextAbove ∨ recursion = false then na else nextAbove
  else nextAbove

mutual

/-- The body of the loop over the children. -/
def visitNode (block : Nat) : IsoNode Id → (na : Nat) → Option Id × Nat
  | .file id oldSections, na =>
    match oldSections with
    | none => (none, na)
    | some sections => scanSections block id sections na
  | .dir _ children, na =>
    match visitNodes block children 0 with
    | (some found, _) => (some found, na)
    | (none, sub) => (none, storeNextAbove true sub na)
  | .other _, na => (none, na)

def visitNodes (block : Nat) : List (IsoNode Id) → (na : Nat) → Option Id × Nat
  | [], na => (none, na)
  | node :: rest, na =>
    match visitNode block node na with
    | (some found, na) => (some found, na)
    | (none, na) => visitNodes block rest na

end

/-- The return value, *found, and *next_above if this is not NULL. -/
structure Lookup (Id : Type u) where
  ret : Int
  found : Option Id
  nextAbove : Option Nat

/-- A call for a directory with these children. The recursion is made by visitNode. -/
def isoTreeGetNodeOfBlock (children : List (IsoNode Id)) (block : Nat) (nextAbove : Option Nat)
    (recursion : Bool) : Lookup Id :=
  match visitNodes block children 0 with
  | (some found, _) => ⟨1, some found, nextAbove⟩
  | (none, na) => ⟨0, none, nextAbove.map (storeNextAbove recursion na)⟩

end Code

section Spec

mutual

def filesOf : IsoNode Id → List (Id × List IsoFileSection)
  | .file id oldSections => [(id, oldSections.getD [])]
  | .dir _ children => filesBelow children
  | .other _ => []

/-- The files in a whole tree with their sections. -/
def filesBelow : List (IsoNode Id) → List (Id × List IsoFileSection)
  | [] => []
  | node :: rest => filesOf node ++ filesBelow rest

end

def Covers (s : IsoFileSection) (block : Nat) : Prop :=
  s.block ≤ block ∧ block < s.block + (s.size + 2047) / 2048

/-- One of the files has a section which covers the block. -/
def Owns (files : List (Id × List IsoFileSection)) (block : Nat) (id : Id) : Prop :=
  ∃ sections, (id, sections) ∈ files ∧ ∃ s ∈ sections, Covers s block

/-- Where the sections of files begin. -/
def starts (files : List (Id × List IsoFileSection)) : List Nat :=
  files.flatMap fun file => file.2.map IsoFileSection.block

/-- The smallest number above the block, or 0 if there is none. -/
def SmallestAbove (block : Nat) (starts : List Nat) (v : Nat) : Prop :=
  (v = 0 ∧ ∀ s ∈ starts, s ≤ block) ∨ v ∈ starts ∧ block < v ∧ ∀ s ∈ starts, block < s → v ≤ s

end Spec

section Minimum

variable {block na sub : Nat} {seen more : List Nat}

theorem smallestAbove_nil (block : Nat) : SmallestAbove block [] 0 :=
  Or.inl ⟨rfl, fun _ h => absurd h List.not_mem_nil⟩

theorem SmallestAbove.bound (h : SmallestAbove block seen na) :
    ∀ s ∈ seen, block < s → na ≠ 0 ∧ na ≤ s := by
  intro s hs hlt
  rcases h with ⟨-, hnone⟩ | ⟨-, habove, hmin⟩
  · exact absurd hlt (Nat.not_lt.mpr (hnone s hs))
  · exact ⟨Nat.ne_of_gt (Nat.zero_lt_of_lt habove), hmin s hs hlt⟩

/-- The number of a recursion is merged into the one of its caller. -/
theorem SmallestAbove.store (h : SmallestAbove block seen na)
    (hsub : SmallestAbove block more sub) :
    SmallestAbove block (seen ++ more) (storeNextAbove true sub na) := by
  have hbound : ∀ s ∈ seen ++ more, block < s → na ≠ 0 ∧ na ≤ s ∨ sub ≠ 0 ∧ sub ≤ s := by
    intro s hs hlt
    rcases List.mem_append.mp hs with hs | hs
    · exact Or.inl (h.bound s hs hlt)
    · exact Or.inr (hsub.bound s hs hlt)
  unfold storeNextAbove
  rcases h with ⟨rfl, hnone⟩ | ⟨hmem, habove, hmin⟩ <;>
    rcases hsub with ⟨rfl, hnone'⟩ | ⟨hmem', habove', hmin'⟩
  · left
    refine ⟨by simp, ?_⟩
    intro s hs
    rcases List.mem_append.mp hs with hs | hs
    · exact hnone s hs
    · exact hnone' s hs
  · right
    rw [if_pos (Or.inl (Nat.zero_lt_of_lt habove')), if_pos (Or.inl rfl)]
    refine ⟨List.mem_append_right _ hmem', habove', ?_⟩
    intro s hs hlt
    exact ((hbound s hs hlt).resolve_left fun hzero => hzero.1 rfl).2
  · right
    rw [if_neg (by simp)]
    refine ⟨List.mem_append_left _ hmem, habove, ?_⟩
    intro s hs hlt
    exact ((hbound s hs hlt).resolve_right fun hzero => hzero.1 rfl).2
  · right
    rw [if_pos (Or.inl (Nat.zero_lt_of_lt habove'))]
    split
    next hless =>
      have hle : sub ≤ na := by
        rcases hless with hzero | hlt | hflag
        · omega
        · exact Nat.le_of_lt hlt
        · cases hflag
      refine ⟨List.mem_append_right _ hmem', habove', ?_⟩
      intro s hs hlt
      rcases hbound s hs hlt with ⟨-, hbelow⟩ | ⟨-, hbelow⟩
      · exact hle.trans hbelow
      · exact hbelow
    next hmore =>
      have hle : na ≤ sub := by
        by_contra hlt
        exact hmore (Or.inr (Or.inl (Nat.not_le.mp hlt)))
      refine ⟨List.mem_append_left _ hmem, habove, ?_⟩
      intro s hs hlt
      rcases hbound s hs hlt with ⟨-, hbelow⟩ | ⟨-, hbelow⟩
      · exact hbelow
      · exact hle.trans hbelow

/-- One section more. -/
theorem SmallestAbove.next (h : SmallestAbove block seen na) (s : Nat) :
    SmallestAbove block (seen ++ [s]) (if (na = 0 ∨ s < na) ∧ block < s then s else na) := by
  have hone : SmallestAbove block [s] (if block < s then s else 0) := by
    split
    next hlt =>
      right
      refine ⟨List.mem_singleton_self s, hlt, ?_⟩
      intro s' hs' _
      exact Nat.le_of_eq (List.mem_singleton.mp hs').symm
    next hle =>
      left
      refine ⟨rfl, ?_⟩
      intro s' hs'
      rw [List.mem_singleton.mp hs']
      exact Nat.not_lt.mp hle
  have hstore := h.store hone
  have hsame : storeNextAbove true (if block < s then s else 0) na =
      if (na = 0 ∨ s < na) ∧ block < s then s else na := by
    unfold storeNextAbove
    by_cases hlt : block < s
    · have hpos : 0 < s := Nat.zero_lt_of_lt hlt
      simp [hlt, hpos]
    · simp [hlt]
  rw [← hsame]
  exact hstore

end Minimum

section Search

variable {block na : Nat} {seen : List Nat}

/-- What the search among some files yields, `seen` being the addresses from before. -/
def Searched (block : Nat) (seen : List Nat) (files : List (Id × List IsoFileSection)) :
    Option Id × Nat → Prop
  | (some id, _) => Owns files block id
  | (none, na) => (∀ id, ¬ Owns files block id) ∧ SmallestAbove block (seen ++ starts files) na

theorem scan_searched (id : Id) (sections : List IsoFileSection)
    (h : SmallestAbove block seen na) :
    Searched block seen [(id, sections)] (scanSections block id sections na) := by
  induction sections generalizing na seen with
  | nil =>
    refine ⟨?_, ?_⟩
    · rintro id' ⟨sections, hmem, s, hs, -⟩
      obtain ⟨-, rfl⟩ := Prod.mk.inj (List.mem_singleton.mp hmem)
      exact absurd hs List.not_mem_nil
    · simpa [starts] using h
  | cons s rest ih =>
    rw [scanSections]
    split
    next hcovers =>
      exact ⟨s :: rest, List.mem_singleton_self _, s, List.mem_cons_self, hcovers.1, by omega⟩
    next hnot =>
      have hmiss : ¬ Covers s block := by
        rintro ⟨hle, hlt⟩
        exact hnot ⟨hle, by omega⟩
      have hrest := ih (h.next s.block)
      generalize scanSections block id rest _ = result at hrest ⊢
      obtain ⟨found, na'⟩ := result
      cases found with
      | some found =>
        obtain ⟨sections, hmem, s', hs', hcovers⟩ := hrest
        obtain ⟨rfl, hsections⟩ := Prod.mk.inj (List.mem_singleton.mp hmem)
        rw [hsections] at hs'
        exact ⟨s :: rest, List.mem_singleton_self _, s', List.mem_cons_of_mem s hs', hcovers⟩
      | none =>
        obtain ⟨hnobody, hsmallest⟩ := hrest
        refine ⟨?_, by simpa [starts] using hsmallest⟩
        rintro id' ⟨sections, hmem, s', hs', hcovers⟩
        obtain ⟨rfl, rfl⟩ := Prod.mk.inj (List.mem_singleton.mp hmem)
        rcases List.mem_cons.mp hs' with rfl | hs'
        · exact hmiss hcovers
        · exact hnobody id' ⟨rest, List.mem_singleton_self _, s', hs', hcovers⟩

theorem Owns.append_iff {files files' : List (Id × List IsoFileSection)} {id : Id} :
    Owns (files ++ files') block id ↔ Owns files block id ∨ Owns files' block id := by
  constructor
  · rintro ⟨sections, hmem, hcovers⟩
    rcases List.mem_append.mp hmem with hmem | hmem
    · exact Or.inl ⟨sections, hmem, hcovers⟩
    · exact Or.inr ⟨sections, hmem, hcovers⟩
  · rintro (⟨sections, hmem, hcovers⟩ | ⟨sections, hmem, hcovers⟩)
    · exact ⟨sections, List.mem_append_left _ hmem, hcovers⟩
    · exact ⟨sections, List.mem_append_right _ hmem, hcovers⟩

theorem starts_append (files files' : List (Id × List IsoFileSection)) :
    starts (files ++ files') = starts files ++ starts files' := List.flatMap_append

mutual

theorem visitNode_searched (node : IsoNode Id) {na : Nat} {seen : List Nat}
    (h : SmallestAbove block seen na) :
    Searched block seen (filesOf node) (visitNode block node na) := by
  cases node with
  | file id oldSections =>
    rw [filesOf]
    cases oldSections with
    | none =>
      rw [visitNode]
      exact scan_searched id [] h
    | some sections =>
      rw [visitNode]
      exact scan_searched id sections h
  | dir id children =>
    have hchildren := visitNodes_searched children (smallestAbove_nil block)
    rw [visitNode, filesOf]
    generalize visitNodes block children 0 = result at hchildren ⊢
    obtain ⟨found, sub⟩ := result
    cases found with
    | some found => exact hchildren
    | none =>
      obtain ⟨hnobody, hsmallest⟩ := hchildren
      exact ⟨hnobody, h.store hsmallest⟩
  | other id =>
    rw [visitNode, filesOf]
    refine ⟨?_, by simpa [starts] using h⟩
    rintro id' ⟨sections, hmem, -⟩
    exact absurd hmem List.not_mem_nil

theorem visitNodes_searched (nodes : List (IsoNode Id)) {na : Nat} {seen : List Nat}
    (h : SmallestAbove block seen na) :
    Searched block seen (filesBelow nodes) (visitNodes block nodes na) := by
  cases nodes with
  | nil =>
    rw [visitNodes, filesBelow]
    refine ⟨?_, by simpa [starts] using h⟩
    rintro id' ⟨sections, hmem, -⟩
    exact absurd hmem List.not_mem_nil
  | cons node rest =>
    have hnode := visitNode_searched node h
    rw [visitNodes, filesBelow]
    generalize visitNode block node na = result at hnode ⊢
    obtain ⟨found, na'⟩ := result
    cases found with
    | some found => exact Owns.append_iff.mpr (Or.inl hnode)
    | none =>
      obtain ⟨hnobody, hsmallest⟩ := hnode
      have hrest := visitNodes_searched rest hsmallest
      dsimp only
      generalize visitNodes block rest na' = result at hrest ⊢
      obtain ⟨found, na''⟩ := result
      cases found with
      | some found => exact Owns.append_iff.mpr (Or.inr hrest)
      | none =>
        obtain ⟨hnobody', hsmallest'⟩ := hrest
        constructor
        · intro id howns
          rcases Owns.append_iff.mp howns with howns | howns
          · exact hnobody id howns
          · exact hnobody' id howns
        · rw [starts_append, ← List.append_assoc]
          exact hsmallest'

end

/-- The lookup returns 1 with an owner of the block, or 0 with the next start of a section if the
block has no owner. -/
theorem owner_or_next (children : List (IsoNode Id)) (block : Nat) (nextAbove : Option Nat) :
    ((isoTreeGetNodeOfBlock children block nextAbove false).ret = 1 ∧
      ∃ id, (isoTreeGetNodeOfBlock children block nextAbove false).found = some id ∧
        Owns (filesBelow children) block id) ∨
    (isoTreeGetNodeOfBlock children block nextAbove false).ret = 0 ∧
      (∀ id, ¬ Owns (filesBelow children) block id) ∧
      ∃ v, SmallestAbove block (starts (filesBelow children)) v ∧
        (isoTreeGetNodeOfBlock children block nextAbove false).nextAbove =
          nextAbove.map fun _ => v := by
  have hsearched := visitNodes_searched children (smallestAbove_nil block)
  unfold isoTreeGetNodeOfBlock
  generalize visitNodes block children 0 = result at hsearched ⊢
  obtain ⟨found, na⟩ := result
  cases found with
  | some found => exact Or.inl ⟨rfl, found, rfl, hsearched⟩
  | none =>
    obtain ⟨hnobody, hsmallest⟩ := hsearched
    refine Or.inr ⟨rfl, hnobody, na, hsmallest, ?_⟩
    cases nextAbove with
    | none => rfl
    | some _ => simp [storeNextAbove]

/-- Block 30 belongs to the second file. -/
example : (isoTreeGetNodeOfBlock [.file 1 (some [⟨40, 0⟩, ⟨20, 2049⟩]),
    .dir 2 [.file 3 (some [⟨30, 1⟩]), .file 4 none]] 30 none false).found = some 3 := by decide

end Search

end BlockOwner
