import Libisofs.HardLinks
import Mathlib.Data.Set.Card
import Mathlib.Order.Interval.Finset.Nat

/-!
# Fresh inode numbers

img_give_ino_number() counts until the end of the 32 bit range. Then it uses a bitmap of
the numbers which are in use in a window, which gets moved over the range again and again.
-/

namespace InoNumbers

open StreamCmp NodeCmp HardLinks

section Tree

/-- The nodes of a tree. -/
inductive InTree : IsoTree → IsoNode → Prop where
  | other {node : IsoNode} : InTree (.other node) node
  | dir {node : IsoNode} {children : List IsoTree} : InTree (.dir node children) node
  | inside {node inner : IsoNode} {children : List IsoTree} {child : IsoTree} :
      child ∈ children → InTree child inner → InTree (.dir node children) inner

/-- The node has the number. -/
def Numbered (node : IsoNode) (ino : Nat) : Prop :=
  0 < (isoNodeGetId node 1).1 ∧ (isoNodeGetId node 1).2.inoId = ino

/-- A node of the tree has the number. -/
def Bears (tree : IsoTree) (ino : Nat) : Prop := ∃ node, InTree tree node ∧ Numbered node ino

def tree (image : IsoImage) : IsoTree := .dir image.root image.children

/-- The numbers of the 32 bit range which are in use, 0 not being one of them. -/
def inUse (tree : IsoTree) : Set Nat := {ino | Bears tree ino ∧ 1 ≤ ino ∧ ino ≤ inoLimit}

theorem bears_other {node : IsoNode} {ino : Nat} :
    Bears (.other node) ino ↔ Numbered node ino := by
  constructor
  · rintro ⟨node', hin, hnumber⟩
    cases hin with
    | other => exact hnumber
  · exact fun hnumber => ⟨node, .other, hnumber⟩

theorem bears_dir {node : IsoNode} {children : List IsoTree} {ino : Nat} :
    Bears (.dir node children) ino ↔
      Numbered node ino ∨ ∃ child ∈ children, Bears child ino := by
  constructor
  · rintro ⟨node', hin, hnumber⟩
    cases hin with
    | dir => exact Or.inl hnumber
    | inside hchild hinner => exact Or.inr ⟨_, hchild, _, hinner, hnumber⟩
  · rintro (hnumber | ⟨child, hchild, inner, hinner, hnumber⟩)
    · exact ⟨node, .dir, hnumber⟩
    · exact ⟨inner, .inside hchild hinner, hnumber⟩

/-- Somewhere there is a number left. -/
theorem exists_free {tree : IsoTree} (hroom : (inUse tree).ncard < inoLimit) :
    ∃ free, 1 ≤ free ∧ free ≤ inoLimit ∧ ¬ Bears tree free := by
  by_contra hnone
  simp only [not_exists, not_and, not_not] at hnone
  have hall : inUse tree = Finset.Icc 1 inoLimit := by
    ext ino
    rw [Finset.coe_Icc, Set.mem_Icc]
    exact ⟨fun h => h.2, fun h => ⟨hnone ino h.1 h.2, h⟩⟩
  rw [hall, Set.ncard_coe_finset, Nat.card_Icc, Nat.add_sub_cancel] at hroom
  exact Nat.lt_irrefl _ hroom

end Tree

section Bitmap

theorem range_eq : isoUsedInodeRange = 262144 := rfl

theorem limit_eq : inoLimit = 4294967295 := rfl

/-- `start` is a multiple of the window size in the 32 bit range. -/
def WindowStart (start : Nat) : Prop := start % isoUsedInodeRange = 0 ∧ start ≤ inoLimit

def Inside (start ino : Nat) : Prop := start ≤ ino ∧ ino < start + isoUsedInodeRange

/-- In a window each number has a bit of its own. -/
theorem inodeBit_inj {start i j : Nat} (hstart : WindowStart start) (hi : start ≤ i)
    (hj : start ≤ j) (h : inodeBit start i = inodeBit start j) : i = j := by
  have haligned := hstart.1
  rw [range_eq] at haligned
  obtain ⟨hbyte, hbit⟩ := Prod.mk.inj h
  omega

theorem windowStart_end {start : Nat} (hstart : WindowStart start) :
    start + isoUsedInodeRange ≤ inoLimit + 1 := by
  obtain ⟨haligned, hle⟩ := hstart
  rw [range_eq] at haligned ⊢
  rw [limit_eq] at hle ⊢
  omega

/-- The bits which are set. -/
def marks (image : IsoImage) : List (Nat × Nat) := image.usedInodes.getD []

/-- The bits for these numbers got set in the bitmap. Nothing else changed. -/
structure Collected (image image' : IsoImage) (numbers : Nat → Prop) : Prop where
  same : image' = { image with usedInodes := some (marks image') }
  mem_marks : ∀ bit, bit ∈ marks image' ↔ bit ∈ marks image ∨
    ∃ ino, numbers ino ∧ Inside image.usedInodesStart ino ∧
      bit = inodeBit image.usedInodesStart ino

/-- All requests get memory. -/
def Ample (image : IsoImage) : Prop := image.memory = fun _ => true

theorem Collected.present {image image' : IsoImage} {numbers : Nat → Prop}
    (h : Collected image image' numbers) : image'.usedInodes = some (marks image') := by
  conv_lhs => rw [h.same]

theorem Collected.start {image image' : IsoImage} {numbers : Nat → Prop}
    (h : Collected image image' numbers) : image'.usedInodesStart = image.usedInodesStart := by
  rw [h.same]

theorem Collected.ample {image image' : IsoImage} {numbers : Nat → Prop}
    (h : Collected image image' numbers) (ample : Ample image) : Ample image' := by
  rw [Ample, h.same]
  exact ample

theorem Collected.trans {image image1 image2 : IsoImage} {numbers more : Nat → Prop}
    (h : Collected image image1 numbers) (h' : Collected image1 image2 more) :
    Collected image image2 fun ino => numbers ino ∨ more ino where
  same := by
    conv_lhs => rw [h'.same, h.same]
  mem_marks bit := by
    rw [h'.mem_marks, h.mem_marks, h.start, or_assoc]
    apply or_congr_right
    constructor
    · rintro (⟨ino, hnumber, hrest⟩ | ⟨ino, hnumber, hrest⟩)
      · exact ⟨ino, Or.inl hnumber, hrest⟩
      · exact ⟨ino, Or.inr hnumber, hrest⟩
    · rintro ⟨ino, hnumber | hnumber, hrest⟩
      · exact Or.inl ⟨ino, hnumber, hrest⟩
      · exact Or.inr ⟨ino, hnumber, hrest⟩

theorem Collected.congr {image image' : IsoImage} {numbers numbers' : Nat → Prop}
    (h : Collected image image' numbers) (hsame : ∀ ino, numbers ino ↔ numbers' ino) :
    Collected image image' numbers' where
  same := h.same
  mem_marks bit := by
    rw [h.mem_marks]
    simp only [hsame]

theorem imgRegisterIno_spec {image : IsoImage} (node : IsoNode)
    (hpresent : image.usedInodes = some (marks image)) :
    Collected image (imgRegisterIno node image) (Numbered node) := by
  have hrange : ∀ ino, ino ≤ image.usedInodesStart + (isoUsedInodeRange - 1) ↔
      ino < image.usedInodesStart + isoUsedInodeRange := by
    intro ino
    rw [range_eq]
    omega
  simp only [imgRegisterIno, hrange]
  by_cases hregister : 0 < (isoNodeGetId node 1).1 ∧
      image.usedInodesStart ≤ (isoNodeGetId node 1).2.inoId ∧
        (isoNodeGetId node 1).2.inoId < image.usedInodesStart + isoUsedInodeRange
  · rw [if_pos hregister]
    refine ⟨rfl, fun bit => ?_⟩
    rw [marks, Option.getD_some, List.mem_cons, or_comm]
    apply or_congr_right
    constructor
    · rintro rfl
      exact ⟨_, ⟨hregister.1, rfl⟩, hregister.2, rfl⟩
    · rintro ⟨ino, ⟨-, rfl⟩, -, rfl⟩
      rfl
  · rw [if_neg hregister]
    refine ⟨?_, fun bit => ?_⟩
    · rw [← hpresent]
    · rw [or_iff_left]
      rintro ⟨ino, ⟨hpos, rfl⟩, hin, -⟩
      exact hregister ⟨hpos, hin⟩

theorem Ample.allocate {image : IsoImage} (ample : Ample image) :
    allocate image = (true, image) := by
  rw [Ample] at ample
  rw [HardLinks.allocate, ample]
  simp only [← ample]

/-- The recursion for a subdirectory does not register it again. -/
theorem beginCollect_inner {image : IsoImage} (ample : Ample image)
    (hpresent : image.usedInodes = some (marks image)) (node : IsoNode) :
    beginCollect true node image = (true, image) := by
  rw [beginCollect, hpresent]
  exact ample.allocate

mutual

theorem collectChild_spec : (child : IsoTree) → {image : IsoImage} → Ample image →
    image.usedInodes = some (marks image) →
      ∃ image', collectChild child image = (true, image') ∧ Collected image image' (Bears child)
  | .other node, image, _, hpresent => by
    refine ⟨_, by rw [collectChild], ?_⟩
    exact (imgRegisterIno_spec node hpresent).congr fun _ => bears_other.symm
  | .dir node children, image, ample, hpresent => by
    have hself := imgRegisterIno_spec node hpresent
    obtain ⟨image', hrun, hbelow⟩ :=
      collectChildren_spec children (hself.ample ample) hself.present
    refine ⟨image', ?_, (hself.trans hbelow).congr fun _ => bears_dir.symm⟩
    rw [collectChild, beginCollect_inner (hself.ample ample) hself.present]
    exact hrun

theorem collectChildren_spec : (children : List IsoTree) → {image : IsoImage} → Ample image →
    image.usedInodes = some (marks image) →
      ∃ image', collectChildren children image = (true, image') ∧
        Collected image image' fun ino => ∃ child ∈ children, Bears child ino
  | [], image, _, hpresent => by
    refine ⟨image, by rw [collectChildren], by rw [← hpresent], fun bit => ?_⟩
    rw [or_iff_left]
    rintro ⟨ino, ⟨child, hchild, -⟩, -⟩
    exact List.not_mem_nil hchild
  | child :: rest, image, ample, hpresent => by
    obtain ⟨image1, hfirst, hcollected⟩ := collectChild_spec child ample hpresent
    obtain ⟨image2, hrest, hmore⟩ :=
      collectChildren_spec rest (hcollected.ample ample) hcollected.present
    refine ⟨image2, ?_, (hcollected.trans hmore).congr fun _ => ?_⟩
    · rw [collectChildren, hfirst]
      exact hrest
    · exact (List.exists_mem_cons_iff (Bears · _) child rest).symm

end

/-- With a new bitmap. -/
def blank (image : IsoImage) : IsoImage := { image with usedInodes := some [] }

/-- The bitmap gets the bits of the numbers in use and no others. -/
theorem imgCollectInos_spec {image : IsoImage} (ample : Ample image) :
    ∃ image', imgCollectInos image = (true, image') ∧
      Collected (blank image) image' (Bears (tree image)) := by
  have hroot := @imgRegisterIno_spec (blank image) image.root rfl
  have hroot' := hroot.ample ample
  have hbegin : beginCollect false image.root image =
      (true, imgRegisterIno image.root (blank image)) := by
    rw [beginCollect]
    split
    · rw [ample.allocate]
      exact hroot'.allocate
    · exact hroot'.allocate
  have hchildren : (imgRegisterIno image.root (blank image)).children = image.children := by
    rw [hroot.same]
    rfl
  obtain ⟨image', hrun, hbelow⟩ := collectChildren_spec image.children hroot' hroot.present
  refine ⟨image', ?_, (hroot.trans hbelow).congr fun _ => bears_dir.symm⟩
  rw [imgCollectInos, hbegin]
  simp only [hchildren]
  exact hrun

/-- The bitmap tells of all numbers in the window which the nodes have. -/
structure Window (image : IsoImage) : Prop where
  start : WindowStart image.usedInodesStart
  present : image.usedInodes = some (marks image)
  marked : ∀ ino, Bears (tree image) ino → Inside image.usedInodesStart ino →
    inodeBit image.usedInodesStart ino ∈ marks image

def nextStart (start : Nat) : Nat :=
  if start + isoUsedInodeRange > 0xffffffff then 0 else start + isoUsedInodeRange

/-- With another window. -/
def moveTo (start : Nat) (image : IsoImage) : IsoImage := { image with usedInodesStart := start }

theorem ample_moveTo (start : Nat) {image : IsoImage} (ample : Ample image) :
    Ample (moveTo start image) := ample

theorem tree_moveTo (start : Nat) (image : IsoImage) : tree (moveTo start image) = tree image := rfl

theorem Collected.start_moveTo {start : Nat} {image image' : IsoImage} {numbers : Nat → Prop}
    (h : Collected (blank (moveTo start image)) image' numbers) : image'.usedInodesStart = start :=
  h.start

theorem Collected.ample_moveTo {start : Nat} {image image' : IsoImage} {numbers : Nat → Prop}
    (h : Collected (blank (moveTo start image)) image' numbers) (ample : Ample image) :
    Ample image' :=
  h.ample ample

theorem Collected.tree_moveTo {start : Nat} {image image' : IsoImage} {numbers : Nat → Prop}
    (h : Collected (blank (moveTo start image)) image' numbers) : tree image' = tree image := by
  rw [h.same]
  rfl

/-- The next window, with a new bitmap. -/
def advance (image : IsoImage) : IsoImage :=
  (imgCollectInos (moveTo (nextStart image.usedInodesStart) image)).2

def firstIno (start : Nat) : Nat := start + if start = 0 then 1 else 0

theorem firstIno_le {start ino : Nat} (hpos : 1 ≤ ino) (hle : start ≤ ino) :
    firstIno start ≤ ino := by
  rw [firstIno]
  split <;> omega

theorem nextStart_eq {start : Nat} (hstart : WindowStart start) :
    WindowStart (nextStart start) ∧
      nextStart start = (start + isoUsedInodeRange) % (inoLimit + 1) := by
  have hend := windowStart_end hstart
  obtain ⟨haligned, hle⟩ := hstart
  rw [WindowStart, nextStart]
  rw [range_eq] at haligned hend ⊢
  rw [limit_eq] at hle hend ⊢
  split <;> omega

theorem advance_eq {image : IsoImage} (ample : Ample image) :
    imgCollectInos (moveTo (nextStart image.usedInodesStart) image) = (true, advance image) ∧
      Collected (blank (moveTo (nextStart image.usedInodesStart) image)) (advance image)
        (Bears (tree image)) := by
  obtain ⟨image', hrun, hcollected⟩ :=
    imgCollectInos_spec (ample_moveTo (nextStart image.usedInodesStart) ample)
  rw [tree_moveTo] at hcollected
  have hadvance : advance image = image' := by rw [advance, hrun]
  rw [hadvance]
  exact ⟨hrun, hcollected⟩

section Advance

variable {image : IsoImage} (ample : Ample image)

include ample

theorem advance_start : (advance image).usedInodesStart = nextStart image.usedInodesStart :=
  (advance_eq ample).2.start_moveTo

theorem advance_ample : Ample (advance image) :=
  (advance_eq ample).2.ample_moveTo ample

theorem advance_tree : tree (advance image) = tree image := (advance_eq ample).2.tree_moveTo

/-- A new bitmap has the bits of the numbers in use and no others. -/
theorem mem_advance {bit : Nat × Nat} :
    bit ∈ marks (advance image) ↔
      ∃ ino, Bears (tree image) ino ∧ Inside (advance image).usedInodesStart ino ∧
        bit = inodeBit (advance image).usedInodesStart ino := by
  have hcollected := (advance_eq ample).2
  rw [advance_start ample]
  generalize nextStart image.usedInodesStart = start at hcollected
  rw [hcollected.mem_marks]
  exact or_iff_right List.not_mem_nil

theorem advance_window (hstart : WindowStart image.usedInodesStart) : Window (advance image) where
  start := by
    rw [advance_start ample]
    exact (nextStart_eq hstart).1
  present := (advance_eq ample).2.present
  marked ino hbears hin := by
    rw [advance_tree ample] at hbears
    exact (mem_advance ample).mpr ⟨ino, hbears, hin, rfl⟩

theorem advance_free (hstart : WindowStart image.usedInodesStart) {free : Nat}
    (hin : Inside (advance image).usedInodesStart free) (hfree : ¬ Bears (tree image) free) :
    inodeBit (advance image).usedInodesStart free ∉ marks (advance image) := by
  intro hmem
  obtain ⟨ino, hbears, hin', hbit⟩ := (mem_advance ample).mp hmem
  obtain rfl := inodeBit_inj (advance_window ample hstart).start hin.1 hin'.1 hbit
  exact hfree hbears

end Advance

end Bitmap

section Search

/-- The number is taken from the bitmap. -/
def take (image : IsoImage) (ino : Nat) : IsoImage :=
  { image with
    usedInodes := some (inodeBit image.usedInodesStart ino :: marks image)
    inodeCounter := ino }

theorem nextRange_inside {newIno : Nat} {image : IsoImage} (hpos : 1 ≤ newIno)
    (hlimit : newIno ≤ inoLimit) (hin : newIno < image.usedInodesStart + isoUsedInodeRange) :
    nextRange newIno image = (true, newIno, image) := by
  rw [nextRange, if_neg]
  omega

/-- A turn of the search inside of the window. -/
theorem searchIno_inside {newIno : Nat} {image : IsoImage} (fuel : Nat) (hpos : 1 ≤ newIno)
    (hlimit : newIno ≤ inoLimit) (hlow : image.usedInodesStart ≤ newIno)
    (hin : newIno < image.usedInodesStart + isoUsedInodeRange) :
    searchIno (fuel + 1) newIno image =
      if inodeBit image.usedInodesStart newIno ∈ marks image then
        searchIno fuel (newIno + 1) image
      else some (newIno, take image newIno) := by
  have hmod : newIno % 2 ^ 32 = newIno := Nat.mod_eq_of_lt (Nat.lt_succ_of_le hlimit)
  rw [searchIno, nextRange_inside hpos hlimit hin]
  simp only [Bool.not_true, Bool.false_eq_true, if_false, if_neg (Nat.not_lt.mpr hlow),
    returnResult, hmod]
  rfl

/-- At the end of the window the search begins with the next one. -/
theorem searchIno_outside {newIno : Nat} {image : IsoImage} (ample : Ample image) (fuel : Nat)
    (hout : newIno > inoLimit ∨ newIno ≥ image.usedInodesStart + isoUsedInodeRange)
    (hstart : WindowStart image.usedInodesStart) :
    searchIno (fuel + 1) newIno image =
      searchIno (fuel + 1) (firstIno (nextStart image.usedInodesStart)) (advance image) := by
  have hnext : nextRange newIno image =
      (true, firstIno (nextStart image.usedInodesStart), advance image) := by
    rw [nextRange, if_pos (Or.inr hout)]
    have hfold : (if image.usedInodesStart + isoUsedInodeRange > 0xffffffff then 0
        else image.usedInodesStart + isoUsedInodeRange) = nextStart image.usedInodesStart := by
      rw [nextStart]
    have hcollect := (advance_eq ample).1
    simp only [hfold, firstIno]
    generalize nextStart image.usedInodesStart = start at hcollect
    rw [moveTo] at hcollect
    rw [hcollect]
    rfl
  have hwindow := (nextStart_eq hstart).1
  have hend := windowStart_end hwindow
  have hsame : nextRange (firstIno (nextStart image.usedInodesStart)) (advance image) =
      (true, firstIno (nextStart image.usedInodesStart), advance image) := by
    apply nextRange_inside
    · rw [firstIno]
      split <;> omega
    · rw [range_eq, limit_eq] at hend
      rw [firstIno, limit_eq]
      split <;> omega
    · rw [advance_start ample, firstIno, range_eq]
      split <;> omega
  rw [searchIno, searchIno, hnext, hsame]

/-- Inside of a window, the search finds a number or comes to the end of the window. -/
theorem searchIno_window {image : IsoImage} (hstart : WindowStart image.usedInodesStart)
    (fuel left : Nat) {newIno : Nat} (hpos : 1 ≤ newIno) (hlow : image.usedInodesStart ≤ newIno)
    (hleft : newIno + left = image.usedInodesStart + isoUsedInodeRange) :
    (∃ ino, searchIno (fuel + left) newIno image = some (ino, take image ino) ∧
      1 ≤ ino ∧ Inside image.usedInodesStart ino ∧
      inodeBit image.usedInodesStart ino ∉ marks image) ∨
    (searchIno (fuel + left) newIno image =
        searchIno fuel (image.usedInodesStart + isoUsedInodeRange) image ∧
      ∀ ino, newIno ≤ ino → ino < image.usedInodesStart + isoUsedInodeRange →
        inodeBit image.usedInodesStart ino ∈ marks image) := by
  induction left generalizing newIno with
  | zero =>
    right
    rw [Nat.add_zero] at hleft
    rw [← hleft]
    exact ⟨rfl, fun ino h h' => absurd h' (by omega)⟩
  | succ left ih =>
    have hend := windowStart_end hstart
    rw [← Nat.add_assoc, searchIno_inside (fuel + left) hpos (by omega) hlow (by omega)]
    by_cases hmarked : inodeBit image.usedInodesStart newIno ∈ marks image
    · rw [if_pos hmarked]
      rcases @ih (newIno + 1) (by omega) (by omega) (by omega) with hfound | ⟨hrun, hall⟩
      · exact Or.inl hfound
      · refine Or.inr ⟨hrun, fun ino h h' => ?_⟩
        rcases Nat.eq_or_lt_of_le h with rfl | hlt
        · exact hmarked
        · exact hall ino hlt h'
    · rw [if_neg hmarked]
      exact Or.inl ⟨newIno, rfl, hpos, ⟨hlow, by omega⟩, hmarked⟩

/-- The number is free according to a bitmap for the tree. -/
structure Free (image base : IsoImage) (ino : Nat) : Prop where
  window : Window base
  tree_eq : tree base = tree image
  pos : 1 ≤ ino
  inside : Inside base.usedInodesStart ino
  unmarked : inodeBit base.usedInodesStart ino ∉ marks base

/-- A search through the whole next window. -/
theorem searchIno_next {image : IsoImage} (ample : Ample image)
    (hstart : WindowStart image.usedInodesStart) {newIno : Nat}
    (hout : newIno > inoLimit ∨ newIno ≥ image.usedInodesStart + isoUsedInodeRange) (fuel : Nat) :
    (∃ base ino, searchIno (fuel + isoUsedInodeRange) newIno image = some (ino, take base ino) ∧
      Free image base ino) ∨
    (∃ more, searchIno (fuel + isoUsedInodeRange) newIno image =
        searchIno (fuel + more) ((advance image).usedInodesStart + isoUsedInodeRange)
          (advance image) ∧
      ∀ ino, 1 ≤ ino → Inside (advance image).usedInodesStart ino →
        inodeBit (advance image).usedInodesStart ino ∈ marks (advance image)) := by
  have hwindow := advance_window ample hstart
  -- number 0 is skipped
  generalize hskip : (if nextStart image.usedInodesStart = 0 then 1 else 0) = skipped
  have hskipped : skipped ≤ 1 := hskip.ge.trans (by split <;> decide)
  have hfirst : firstIno (nextStart image.usedInodesStart) =
      (advance image).usedInodesStart + skipped := by rw [advance_start ample, firstIno, hskip]
  have hpos : 1 ≤ firstIno (nextStart image.usedInodesStart) := by
    rw [firstIno]
    split
    · omega
    · omega
  have hfuel : fuel + isoUsedInodeRange = (fuel + skipped) + (isoUsedInodeRange - skipped) := by
    rw [range_eq]
    omega
  have hsucc : fuel + isoUsedInodeRange = (fuel + (isoUsedInodeRange - 1)) + 1 := by
    have hpos : 1 ≤ isoUsedInodeRange := by decide
    omega
  have henter : searchIno (fuel + isoUsedInodeRange) newIno image =
      searchIno ((fuel + skipped) + (isoUsedInodeRange - skipped))
        (firstIno (nextStart image.usedInodesStart)) (advance image) := by
    rw [← hfuel, hsucc]
    exact searchIno_outside ample _ hout hstart
  have hscan := searchIno_window hwindow.start (fuel + skipped) (isoUsedInodeRange - skipped)
    hpos (by omega) (by rw [hfirst, range_eq]; omega)
  rcases hscan with ⟨ino, hrun, hinoPos, hin, hunmarked⟩ | ⟨hrun, hall⟩
  · exact Or.inl ⟨advance image, ino, henter.trans hrun, hwindow, advance_tree ample, hinoPos,
      hin, hunmarked⟩
  · refine Or.inr ⟨skipped, henter.trans hrun, fun ino hinoPos hin => hall ino ?_ hin.2⟩
    exact firstIno_le hinoPos (advance_start ample ▸ hin.1)

theorem Free.of_tree {image image' base : IsoImage} {ino : Nat} (free : Free image base ino)
    (htree : tree image = tree image') : Free image' base ino :=
  ⟨free.window, free.tree_eq.trans htree, free.pos, free.inside, free.unmarked⟩

/-- The search comes to each window, and in a new bitmap the bit of a number which is not in use
is not set. -/
theorem searchIno_windows {free : Nat} (hfreePos : 1 ≤ free) (k : Nat) {image : IsoImage}
    (ample : Ample image) (hfree : ¬ Bears (tree image) free)
    (hstart : WindowStart image.usedInodesStart)
    (hreach : Inside ((image.usedInodesStart + (k + 1) * isoUsedInodeRange) % (inoLimit + 1)) free)
    {newIno : Nat}
    (hout : newIno > inoLimit ∨ newIno ≥ image.usedInodesStart + isoUsedInodeRange) (fuel : Nat) :
    ∃ base ino, searchIno (fuel + (k + 1) * isoUsedInodeRange) newIno image =
      some (ino, take base ino) ∧ Free image base ino := by
  have hnext := (nextStart_eq hstart).2
  induction k generalizing image newIno fuel with
  | zero =>
    rw [Nat.zero_add, Nat.one_mul] at hreach ⊢
    rw [← hnext, ← advance_start ample] at hreach
    rcases searchIno_next ample hstart hout fuel with hfound | ⟨more, -, hall⟩
    · exact hfound
    · exact absurd (hall free hfreePos hreach) (advance_free ample hstart hreach hfree)
  | succ k ih =>
    have hsplit : fuel + (k + 1 + 1) * isoUsedInodeRange =
        (fuel + (k + 1) * isoUsedInodeRange) + isoUsedInodeRange := by
      rw [Nat.succ_mul, Nat.add_assoc]
    have hwindow := (advance_window ample hstart).start
    have hreach' : Inside (((advance image).usedInodesStart + (k + 1) * isoUsedInodeRange) %
        (inoLimit + 1)) free := by
      have hsum : image.usedInodesStart + (k + 1 + 1) * isoUsedInodeRange =
          image.usedInodesStart + isoUsedInodeRange + (k + 1) * isoUsedInodeRange := by
        rw [Nat.succ_mul (k + 1), Nat.add_assoc, Nat.add_comm isoUsedInodeRange]
      rw [advance_start ample, hnext, Nat.mod_add_mod, ← hsum]
      exact hreach
    rw [hsplit]
    rcases searchIno_next ample hstart hout (fuel + (k + 1) * isoUsedInodeRange) with
      hfound | ⟨more, hrun, -⟩
    · exact hfound
    · have hfree' : ¬ Bears (tree (advance image)) free := by rwa [advance_tree ample]
      obtain ⟨base, ino, hfound, hbase⟩ := ih (advance_ample ample) hfree' hwindow hreach'
        (Or.inr (Nat.le_refl _)) (fuel + more) (nextStart_eq hwindow).2
      refine ⟨base, ino, ?_, hbase.of_tree (advance_tree ample)⟩
      rwa [hrun, Nat.add_right_comm]

/-- Some number of windows ahead, there is the one with the free number. -/
theorem exists_reach {start free : Nat} (hstart : WindowStart start) (hfree : free ≤ inoLimit) :
    ∃ k, (k + 1) * isoUsedInodeRange ≤ 2 * (inoLimit + 1) ∧
      Inside ((start + (k + 1) * isoUsedInodeRange) % (inoLimit + 1)) free := by
  have hend := windowStart_end hstart
  obtain ⟨haligned, hle⟩ := hstart
  refine ⟨(free / isoUsedInodeRange * isoUsedInodeRange + (inoLimit + 1) - start) /
    isoUsedInodeRange - 1, ?_⟩
  rw [Inside]
  rw [range_eq] at haligned hend ⊢
  rw [limit_eq] at hle hend hfree ⊢
  omega

theorem searchIno_outside_free {image : IsoImage} (ample : Ample image)
    (hstart : WindowStart image.usedInodesStart) {free : Nat} (hpos : 1 ≤ free)
    (hlimit : free ≤ inoLimit) (hfree : ¬ Bears (tree image) free) {newIno : Nat}
    (hout : newIno > inoLimit ∨ newIno ≥ image.usedInodesStart + isoUsedInodeRange)
    {fuel : Nat} (hfuel : 2 * (inoLimit + 1) ≤ fuel) :
    ∃ base ino, searchIno fuel newIno image = some (ino, take base ino) ∧
      Free image base ino := by
  obtain ⟨k, hk, hreach⟩ := exists_reach hstart hlimit
  obtain ⟨rest, rfl⟩ : ∃ rest, fuel = rest + (k + 1) * isoUsedInodeRange :=
    ⟨fuel - (k + 1) * isoUsedInodeRange, by omega⟩
  exact searchIno_windows hpos k ample hfree hstart hreach hout rest

/-- The search in used territory finds a number. -/
theorem searchIno_free {image : IsoImage} (ample : Ample image) (window : Window image)
    {free : Nat} (hpos : 1 ≤ free) (hlimit : free ≤ inoLimit)
    (hfree : ¬ Bears (tree image) free) {newIno : Nat} (hnewPos : 1 ≤ newIno)
    (hlow : image.usedInodesStart ≤ newIno)
    (hhigh : newIno ≤ image.usedInodesStart + isoUsedInodeRange) {fuel : Nat}
    (hfuel : 3 * (inoLimit + 1) ≤ fuel) :
    ∃ base ino, searchIno fuel newIno image = some (ino, take base ino) ∧
      Free image base ino := by
  obtain ⟨left, hleft⟩ : ∃ left, newIno + left = image.usedInodesStart + isoUsedInodeRange :=
    ⟨image.usedInodesStart + isoUsedInodeRange - newIno, by omega⟩
  have hend := windowStart_end window.start
  obtain ⟨rest, rfl⟩ : ∃ rest, fuel = rest + left := ⟨fuel - left, by omega⟩
  rcases searchIno_window window.start rest left hnewPos hlow hleft with
    ⟨ino, hrun, hinoPos, hin, hunmarked⟩ | ⟨hrun, -⟩
  · exact ⟨image, ino, hrun, window, rfl, hinoPos, hin, hunmarked⟩
  · rw [hrun]
    exact searchIno_outside_free ample window.start hpos hlimit hfree (Or.inr (Nat.le_refl _))
      (by omega)

end Search

section Numbering

/-- Before the first rollover: no number of the tree is larger than the counter. -/
structure Counting (image : IsoImage) : Prop where
  absent : image.usedInodes = none
  start : image.usedInodesStart = 0
  counter_le : image.inodeCounter ≤ inoLimit
  bounded : ∀ ino, Bears (tree image) ino → ino ≤ image.inodeCounter

/-- After it: the counter tells the most recent number in the window. -/
structure Recycling (image : IsoImage) : Prop where
  window : Window image
  counter : Inside image.usedInodesStart image.inodeCounter
  taken : inodeBit image.usedInodesStart image.inodeCounter ∈ marks image

/-- The bitmap of a call is the one of the call before, with one more bit. Without a bitmap,
all is one window. -/
def SameWindow (image image' : IsoImage) : Prop :=
  match image.usedInodes, image'.usedInodes with
  | none, none => True
  | some used, some used' =>
    used'.tail = used ∧ image'.usedInodesStart = image.usedInodesStart
  | _, _ => False

open Classical in
/-- Calls of img_give_ino_number() from allowed states while not all numbers are in use, with the
numbers which were given in the current window. Between the calls, nodes may leave the tree, nodes
may get the most recent number, and the memory situation may change. -/
inductive Numbering (Allowed : IsoImage → Prop) (first : IsoImage) :
    List Nat → IsoImage → Prop where
  | start : Numbering Allowed first [] first
  | give {given : List Nat} {image image' : IsoImage} {ino : Nat} :
      Numbering Allowed first given image → Allowed image →
      (inUse (tree image)).ncard < inoLimit →
      imgGiveInoNumber image = some (ino, image') →
      Numbering Allowed first (if SameWindow image image' then ino :: given else [ino]) image'
  | change {given : List Nat} {image : IsoImage} {root : IsoNode} {children : List IsoTree}
      {memory : Nat → Bool} :
      Numbering Allowed first given image →
      (∀ ino, Bears (.dir root children) ino →
        Bears (tree image) ino ∨ ino = image.inodeCounter) →
      Numbering Allowed first given
        { image with root := root, children := children, memory := memory }

/-- What holds between the calls. -/
def Consistent (given : List Nat) (image : IsoImage) : Prop :=
  (Counting image ∧ ∀ ino ∈ given, ino ≤ image.inodeCounter) ∨
  (Recycling image ∧ ∀ ino ∈ given, Inside image.usedInodesStart ino ∧
    inodeBit image.usedInodesStart ino ∈ marks image)

/-- A number which is not 0, not in use and not given before in its window. -/
structure Fresh (given : List Nat) (image : IsoImage) (ino : Nat) (image' : IsoImage) : Prop where
  pos : 1 ≤ ino
  limit : ino ≤ inoLimit
  unused : ¬ Bears (tree image) ino
  once : SameWindow image image' → ino ∉ given

theorem giveIno_counting {image : IsoImage} (counting : Counting image)
    (hroom : image.inodeCounter + 1 ≤ inoLimit) :
    imgGiveInoNumber image =
      some (image.inodeCounter + 1, { image with inodeCounter := image.inodeCounter + 1 }) := by
  rw [imgGiveInoNumber, if_pos ⟨counting.absent, hroom⟩]

/-- What the search gives is fresh. -/
theorem Free.fresh {given : List Nat} {image base : IsoImage} {ino : Nat}
    (free : Free image base ino) (consistent : Consistent given image) :
    Fresh given image ino (take base ino) := by
  have hend := windowStart_end free.window.start
  refine ⟨free.pos, ?_, ?_, ?_⟩
  · have := free.inside.2
    omega
  · intro hbears
    rw [← free.tree_eq] at hbears
    exact free.unmarked (free.window.marked ino hbears free.inside)
  · intro hsame hmem
    rcases consistent with ⟨counting, -⟩ | ⟨recycling, hgiven⟩
    · rw [SameWindow, counting.absent] at hsame
      exact hsame
    · rw [SameWindow, recycling.window.present] at hsame
      obtain ⟨hmarks, hstart⟩ := hsame
      have hmarked := (hgiven ino hmem).2
      rw [← hstart, ← hmarks] at hmarked
      exact free.unmarked hmarked

theorem giveIno_search {given : List Nat} {image : IsoImage} (ample : Ample image)
    (consistent : Consistent given image) (hroom : (inUse (tree image)).ncard < inoLimit)
    (hsearch : ¬ (image.usedInodes = none ∧ image.inodeCounter + 1 ≤ inoLimit)) :
    ∃ base ino, imgGiveInoNumber image = some (ino, take base ino) ∧
      Free image base ino := by
  obtain ⟨free, hpos, hlimit, hfree⟩ := exists_free hroom
  have hfuel : 3 * (inoLimit + 1) ≤ 2 ^ 34 := by decide
  rw [imgGiveInoNumber, if_neg hsearch]
  generalize 2 ^ 34 = fuel at hfuel ⊢
  rcases consistent with ⟨counting, -⟩ | ⟨recycling, -⟩
  · have hstart : WindowStart image.usedInodesStart := by
      rw [counting.start]
      exact ⟨by decide, by decide⟩
    have hover : image.inodeCounter + 1 > inoLimit :=
      Nat.not_le.mp fun h => hsearch ⟨counting.absent, h⟩
    exact searchIno_outside_free ample hstart hpos hlimit hfree (Or.inl hover) (by omega)
  · obtain ⟨hlow, hhigh⟩ := recycling.counter
    exact searchIno_free ample recycling.window hpos hlimit hfree (Nat.le_add_left 1 _) (by omega)
      hhigh hfuel

/-- A call with enough memory always gives a fresh number, as long as there is one which is not in
use. -/
theorem giveIno_fresh {given : List Nat} {image : IsoImage} (ample : Ample image)
    (consistent : Consistent given image) (hroom : (inUse (tree image)).ncard < inoLimit) :
    ∃ ino image', imgGiveInoNumber image = some (ino, image') ∧ Fresh given image ino image' := by
  by_cases hcount : image.usedInodes = none ∧ image.inodeCounter + 1 ≤ inoLimit
  · rcases consistent with ⟨counting, hgiven⟩ | ⟨recycling, -⟩
    · refine ⟨_, _, giveIno_counting counting hcount.2, Nat.le_add_left 1 _, hcount.2, ?_, ?_⟩
      · intro hbears
        have := counting.bounded _ hbears
        omega
      · intro _ hmem
        have := hgiven _ hmem
        omega
    · have := recycling.window.present
      rw [hcount.1] at this
      cases this
  · obtain ⟨base, ino, hrun, free⟩ := giveIno_search ample consistent hroom hcount
    exact ⟨ino, take base ino, hrun, free.fresh consistent⟩

theorem Counting.give {image : IsoImage} (counting : Counting image)
    (hroom : image.inodeCounter + 1 ≤ inoLimit) :
    Counting { image with inodeCounter := image.inodeCounter + 1 } where
  absent := counting.absent
  start := counting.start
  counter_le := hroom
  bounded ino hbears := Nat.le_succ_of_le (counting.bounded ino hbears)

section Change

variable {image : IsoImage} {root : IsoNode} {children : List IsoTree} {memory : Nat → Bool}
  (hnodes : ∀ ino, Bears (.dir root children) ino →
    Bears (tree image) ino ∨ ino = image.inodeCounter)

include hnodes

theorem Counting.change (counting : Counting image) :
    Counting { image with root := root, children := children, memory := memory } where
  absent := counting.absent
  start := counting.start
  counter_le := counting.counter_le
  bounded ino hbears := by
    rcases hnodes ino hbears with h | rfl
    · exact counting.bounded ino h
    · exact Nat.le_refl _

theorem Recycling.change (recycling : Recycling image) :
    Recycling { image with root := root, children := children, memory := memory } where
  window := by
    refine ⟨recycling.window.start, recycling.window.present, fun ino hbears hin => ?_⟩
    rcases hnodes ino hbears with h | rfl
    · exact recycling.window.marked ino h hin
    · exact recycling.taken
  counter := recycling.counter
  taken := recycling.taken

theorem Consistent.change {given : List Nat} (consistent : Consistent given image) :
    Consistent given { image with root := root, children := children, memory := memory } := by
  rcases consistent with ⟨counting, hgiven⟩ | ⟨recycling, hgiven⟩
  · exact Or.inl ⟨counting.change hnodes, hgiven⟩
  · exact Or.inr ⟨recycling.change hnodes, hgiven⟩

end Change

theorem Free.recycling {image base : IsoImage} {ino : Nat} (free : Free image base ino) :
    Recycling (take base ino) where
  window := ⟨free.window.start, rfl, fun other hbears hin =>
    List.mem_cons_of_mem _ (free.window.marked other hbears hin)⟩
  counter := free.inside
  taken := List.mem_cons_self ..

/-- All numbers of the window have their bits set after a search. -/
theorem Free.consistent {given : List Nat} {image base : IsoImage} {ino : Nat}
    (free : Free image base ino) (consistent : Consistent given image) :
    Consistent [ino] (take base ino) ∧
      (SameWindow image (take base ino) → Consistent (ino :: given) (take base ino)) := by
  have hself : Inside (take base ino).usedInodesStart ino ∧
      inodeBit (take base ino).usedInodesStart ino ∈ marks (take base ino) :=
    ⟨free.inside, List.mem_cons_self ..⟩
  constructor
  · exact Or.inr ⟨free.recycling, List.forall_mem_singleton.mpr hself⟩
  · intro hsame
    refine Or.inr ⟨free.recycling, List.forall_mem_cons.mpr ⟨hself, fun old hmem => ?_⟩⟩
    rcases consistent with ⟨counting, -⟩ | ⟨recycling, hgiven⟩
    · rw [SameWindow, counting.absent] at hsame
      exact hsame.elim
    · rw [SameWindow, recycling.window.present] at hsame
      obtain ⟨hmarks, hstart⟩ := hsame
      obtain ⟨hin, hmarked⟩ := hgiven old hmem
      rw [← hstart] at hin hmarked
      rw [← hmarks] at hmarked
      exact ⟨hin, List.mem_cons_of_mem _ hmarked⟩

open Classical in
theorem Consistent.give {given : List Nat} {image image' : IsoImage} {ino : Nat}
    (consistent : Consistent given image) (ample : Ample image)
    (hroom : (inUse (tree image)).ncard < inoLimit)
    (hgive : imgGiveInoNumber image = some (ino, image')) :
    Consistent (if SameWindow image image' then ino :: given else [ino]) image' := by
  by_cases hcount : image.usedInodes = none ∧ image.inodeCounter + 1 ≤ inoLimit
  · rcases consistent with ⟨counting, hgiven⟩ | ⟨recycling, -⟩
    · rw [giveIno_counting counting hcount.2, Option.some_inj, Prod.mk.injEq] at hgive
      obtain ⟨rfl, rfl⟩ := hgive
      have hall : ∀ old ∈ (image.inodeCounter + 1) :: given, old ≤ image.inodeCounter + 1 := by
        rintro old hmem
        rcases List.mem_cons.mp hmem with rfl | h
        · exact Nat.le_refl _
        · exact Nat.le_succ_of_le (hgiven old h)
      refine Or.inl ⟨counting.give hcount.2, fun old hmem => hall old ?_⟩
      split at hmem
      · exact hmem
      · exact List.mem_cons.mpr (Or.inl (List.mem_singleton.mp hmem))
    · have := recycling.window.present
      rw [hcount.1] at this
      cases this
  · obtain ⟨base, ino', hrun, free⟩ := giveIno_search ample consistent hroom hcount
    rw [hrun, Option.some_inj, Prod.mk.injEq] at hgive
    obtain ⟨rfl, rfl⟩ := hgive
    split
    · rename_i hsame
      exact (free.consistent consistent).2 hsame
    · exact (free.consistent consistent).1

theorem Numbering.consistent {first image : IsoImage} {given : List Nat} (counting : Counting first)
    (run : Numbering Ample first given image) : Consistent given image := by
  induction run with
  | start => exact Or.inl ⟨counting, List.forall_mem_nil _⟩
  | give _ ample hroom hgive ih => exact ih.give ample hroom hgive
  | change _ hnodes ih => exact ih.change hnodes

theorem Numbering.nodup {first image : IsoImage} {given : List Nat} (counting : Counting first)
    (run : Numbering Ample first given image) : given.Nodup := by
  induction run with
  | start => exact List.nodup_nil
  | @give given image image' ino before ample hroom hgive ih =>
    obtain ⟨ino', image'', hgive', fresh⟩ :=
      giveIno_fresh ample (before.consistent counting) hroom
    rw [hgive, Option.some_inj, Prod.mk.injEq] at hgive'
    obtain ⟨rfl, rfl⟩ := hgive'
    split
    · rename_i hsame
      exact List.nodup_cons.mpr ⟨fresh.once hsame, ih⟩
    · exact List.nodup_singleton _
  | change _ _ ih => exact ih

/-- After any number of calls with enough memory, the numbers of the current window differ, and
the next such call gives a fresh number if there is one which is not in use. -/
theorem numbering_fresh {first image : IsoImage} {given : List Nat} (counting : Counting first)
    (run : Numbering Ample first given image) (ample : Ample image)
    (hroom : (inUse (tree image)).ncard < inoLimit) :
    given.Nodup ∧ ∃ ino image', imgGiveInoNumber image = some (ino, image') ∧
      Fresh given image ino image' :=
  ⟨run.nodup counting, giveIno_fresh ample (run.consistent counting) hroom⟩

section Examples

/-- A node with an imported number. -/
def imported (body : NodeBody) (ino : Nat) : IsoNode where
  addr := ino
  body := body
  mode := 0
  uid := 0
  gid := 0
  atime := 0
  mtime := 0
  ctime := 0
  inoXinfo := some ino
  aaXinfo := none

/-- A loaded image with a special file in a subdirectory of the root directory. -/
def loaded (counter start : Nat) (memory : Nat → Bool) : IsoImage where
  root := imported .dir 1
  children := [.dir (imported .dir 2) [.other (imported (.special 0 0 0 0) 262144)]]
  inodeCounter := counter
  usedInodes := none
  usedInodesStart := start
  memory := memory

theorem bears_loaded {counter start : Nat} {memory : Nat → Bool} {ino : Nat} :
    Bears (tree (loaded counter start memory)) ino ↔ ino = 1 ∨ ino = 2 ∨ ino = 262144 := by
  have hnumbered : ∀ body n, Numbered (imported body n) ino ↔ ino = n := fun body n =>
    ⟨fun h => h.2.symm, fun h => ⟨Nat.two_pos, h.symm⟩⟩
  simp only [tree, loaded, bears_dir, bears_other, hnumbered, List.mem_singleton, exists_eq_left]

theorem room_loaded (counter start : Nat) (memory : Nat → Bool) :
    (inUse (tree (loaded counter start memory))).ncard < inoLimit := by
  have hsub : inUse (tree (loaded counter start memory)) ⊆ ({1, 2, 262144} : Finset Nat) := by
    rintro ino ⟨hbears, -⟩
    simpa using bears_loaded.mp hbears
  have hcard := Set.ncard_le_ncard hsub (Finset.finite_toSet _)
  rw [Set.ncard_coe_finset] at hcard
  exact lt_of_le_of_lt hcard (by decide)

theorem counting_loaded (counter : Nat) (memory : Nat → Bool) (hlow : 262144 ≤ counter)
    (hhigh : counter ≤ inoLimit) : Counting (loaded counter 0 memory) where
  absent := rfl
  start := rfl
  counter_le := hhigh
  bounded ino hbears := by
    refine le_trans ?_ hlow
    rcases bears_loaded.mp hbears with rfl | rfl | rfl
    · decide
    · decide
    · decide

/-- The last call before the rollover and the first one behind it. -/
theorem rollover_fresh :
    [0xffffffff].Nodup ∧ ∃ ino image',
      imgGiveInoNumber (loaded 0xffffffff 0 fun _ => true) = some (ino, image') ∧
        Fresh [0xffffffff] (loaded 0xffffffff 0 fun _ => true) ino image' := by
  have counting := counting_loaded 0xfffffffe (fun _ => true) (by decide) (by decide)
  have hgive : imgGiveInoNumber (loaded 0xfffffffe 0 fun _ => true) =
      some (0xffffffff, loaded 0xffffffff 0 fun _ => true) := giveIno_counting counting (by decide)
  have ample : Ample (loaded 0xfffffffe 0 fun _ => true) := rfl
  have hsame : SameWindow (loaded 0xfffffffe 0 fun _ => true) (loaded 0xffffffff 0 fun _ => true) :=
    trivial
  have hrun := Numbering.start.give ample (room_loaded _ _ _) hgive
  rw [if_pos hsame] at hrun
  exact numbering_fresh counting hrun rfl (room_loaded _ _ _)

/-- Without memory for the bitmap the counter rolls over. -/
theorem giveIno_short {image : IsoImage} (habsent : image.usedInodes = none)
    (hover : image.inodeCounter + 1 > inoLimit) (hshort : image.memory 0 = false) :
    imgGiveInoNumber image = some (returnResult (image.inodeCounter + 1)
      (moveTo (nextStart image.usedInodesStart) (allocate image).2)) := by
  obtain ⟨fuel, hfuel⟩ : ∃ fuel, 2 ^ 34 = fuel + 1 := ⟨2 ^ 34 - 1, by decide⟩
  have hcollect : ∀ start, imgCollectInos { image with usedInodesStart := start } =
      (false, moveTo start (allocate image).2) := by
    intro start
    simp only [imgCollectInos, beginCollect, habsent, allocate, hshort, Bool.not_false, if_true,
      moveTo]
  rw [imgGiveInoNumber, if_neg (by omega), hfuel, searchIno, nextRange,
    if_pos (Or.inr (Or.inl hover))]
  simp only [hcollect, Bool.not_false, if_true, Bool.false_eq_true, if_false, nextStart]

/-- There is no memory for the bitmap at the rollover, and img_give_ino_number() returns 0. Then it
begins to count again. -/
theorem shortage_not_fresh : ∃ first given image, Counting first ∧
    Numbering (fun _ => True) first given image ∧ (inUse (tree image)).ncard < inoLimit ∧
      ¬ ∃ ino image', imgGiveInoNumber image = some (ino, image') ∧
        Fresh given image ino image' := by
  have counting := counting_loaded 0xffffffff (fun i => decide (i ≠ 0)) (by decide)
    (by decide)
  have hstart : nextStart 0 = isoUsedInodeRange := by decide
  have hgive : imgGiveInoNumber (loaded 0xffffffff 0 fun i => decide (i ≠ 0)) =
      some (0, loaded 0 isoUsedInodeRange fun i => decide (i + 1 ≠ 0)) := by
    rw [giveIno_short rfl (by decide) (by decide), loaded, hstart]
    rfl
  have hsame : SameWindow (loaded 0xffffffff 0 fun i => decide (i ≠ 0))
      (loaded 0 isoUsedInodeRange fun i => decide (i + 1 ≠ 0)) := trivial
  have hrun := (Numbering.start : Numbering (fun _ => True) _ _ _).give trivial
    (room_loaded _ _ _) hgive
  rw [if_pos hsame] at hrun
  refine ⟨_, _, _, counting, hrun, room_loaded _ _ _, ?_⟩
  rintro ⟨ino, image', hnext, fresh⟩
  have hcounts : (0 : Nat) + 1 ≤ inoLimit := by decide
  have hone : imgGiveInoNumber (loaded 0 isoUsedInodeRange fun i => decide (i + 1 ≠ 0)) =
      some (1, loaded 1 isoUsedInodeRange fun i => decide (i + 1 ≠ 0)) := by
    rw [imgGiveInoNumber, if_pos ⟨rfl, hcounts⟩]
    rfl
  obtain ⟨rfl, -⟩ := Prod.mk.inj (Option.some.inj (hnext.symm.trans hone))
  exact fresh.unused (bears_loaded.mpr (Or.inl rfl))

end Examples

end Numbering

end InoNumbers
