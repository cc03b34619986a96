import Mathlib.Data.List.Basic

/-!
# Red-black trees and ways into them

The two children of a node are indexed by a direction, of which `true` leads to the labels behind
the node. A way from the root to a subtree is a list of frames, the innermost first.
-/

namespace RedBlack

universe u
variable {β : Type u}

inductive ColorTree (β : Type u) where
  | leaf
  | node (red : Bool) (label : β) (ch : Bool → ColorTree β)

namespace ColorTree

def isRed : ColorTree β → Bool
  | leaf => false
  | node red _ _ => red

def inorder : ColorTree β → List β
  | leaf => []
  | node _ label ch => (ch false).inorder ++ label :: (ch true).inorder

/-- The number of black nodes on the leftmost way to a leaf. -/
def rank : ColorTree β → Nat
  | leaf => 0
  | node red _ ch => (ch false).rank + if red then 0 else 1

def height : ColorTree β → Nat
  | leaf => 0
  | node _ _ ch => max (ch false).height (ch true).height + 1

/-- No red node has a red child, and all ways to the leaves have the same number of black nodes. -/
def Balanced : ColorTree β → Prop
  | leaf => True
  | node red _ ch =>
    (ch false).rank = (ch true).rank ∧ (red = true → ∀ d, (ch d).isRed = false) ∧
      ∀ d, (ch d).Balanced

def paint (red : Bool) : ColorTree β → ColorTree β
  | leaf => leaf
  | node _ label ch => node red label ch

@[simp] theorem inorder_paint (red : Bool) (t : ColorTree β) :
    (t.paint red).inorder = t.inorder := by
  cases t <;> rfl

@[simp] theorem height_paint (red : Bool) (t : ColorTree β) : (t.paint red).height = t.height := by
  cases t <;> rfl

@[simp] theorem isRed_paint_false (t : ColorTree β) : (t.paint false).isRed = false := by
  cases t <;> rfl

theorem height_child (red : Bool) (label : β) (ch : Bool → ColorTree β) (d : Bool) :
    (ch d).height < (node red label ch).height := by
  cases d
  · exact Nat.lt_succ_of_le (Nat.le_max_left _ _)
  · exact Nat.lt_succ_of_le (Nat.le_max_right _ _)

theorem Balanced.paint_false {t : ColorTree β} (balanced : t.Balanced) :
    (t.paint false).Balanced := by
  cases t with
  | leaf => exact trivial
  | node red label ch => exact ⟨balanced.1, fun h => absurd h Bool.false_ne_true, balanced.2.2⟩

theorem rank_paint_false {t : ColorTree β} (red : t.isRed = true) :
    (t.paint false).rank = t.rank + 1 := by
  cases t with
  | leaf => exact absurd red Bool.false_ne_true
  | node c label ch =>
    have hc : c = true := red
    rw [hc]
    rfl

/-- Both children are red. -/
def fourfold : ColorTree β → Bool
  | leaf => false
  | node _ _ ch => (ch false).isRed && (ch true).isRed

/-- The node becomes red and its children black. -/
def flip : ColorTree β → ColorTree β
  | leaf => leaf
  | node _ label ch => node true label (fun d => (ch d).paint false)

theorem fourfold_children {red : Bool} {label : β} {ch : Bool → ColorTree β}
    (four : (node red label ch).fourfold = true) (d : Bool) : (ch d).isRed = true := by
  have hboth := (Bool.and_eq_true _ _).mp four
  cases d
  · exact hboth.1
  · exact hboth.2

theorem Balanced.black_of_fourfold {t : ColorTree β} (balanced : t.Balanced)
    (four : t.fourfold = true) : t.isRed = false := by
  cases t with
  | leaf => rfl
  | node red label ch =>
    cases red with
    | false => rfl
    | true =>
      have hchild := (balanced.2.1 rfl false).symm.trans (fourfold_children four false)
      exact absurd hchild Bool.false_ne_true

@[simp] theorem fourfold_paint (red : Bool) (t : ColorTree β) :
    (t.paint red).fourfold = t.fourfold := by
  cases t <;> rfl

theorem Balanced.not_fourfold {t : ColorTree β} (balanced : t.Balanced) (red : t.isRed = true) :
    t.fourfold = false := by
  cases four : t.fourfold with
  | false => rfl
  | true => exact absurd (red.symm.trans (balanced.black_of_fourfold four)) Bool.noConfusion

/-- No flip and no violation is possible at such a tree. -/
structure Quiet (t : ColorTree β) : Prop where
  nonempty : t ≠ leaf
  black : t.isRed = false
  calm : t.fourfold = false

theorem Balanced.quiet_child {red : Bool} {label : β} {ch : Bool → ColorTree β}
    (balanced : (node red label ch).Balanced) (four : (node red label ch).fourfold = true)
    (d : Bool) : ((ch d).paint false).Quiet := by
  have hred := fourfold_children four d
  refine ⟨fun h => ?_, isRed_paint_false _, ?_⟩
  · cases hch : ch d with
    | leaf =>
      rw [hch] at hred
      exact absurd hred Bool.false_ne_true
    | node _ _ _ =>
      rw [hch] at h
      exact nomatch h
  · rw [fourfold_paint]
    exact (balanced.2.2 d).not_fourfold hred

@[simp] theorem inorder_flip (t : ColorTree β) : t.flip.inorder = t.inorder := by
  cases t with
  | leaf => rfl
  | node red label ch => simp only [flip, inorder, inorder_paint]

theorem Balanced.flip {t : ColorTree β} (balanced : t.Balanced) (four : t.fourfold = true) :
    t.flip.Balanced := by
  cases t with
  | leaf => exact trivial
  | node red label ch =>
    refine ⟨?_, fun _ d => isRed_paint_false (ch d), fun d => (balanced.2.2 d).paint_false⟩
    rw [rank_paint_false (fourfold_children four false),
      rank_paint_false (fourfold_children four true), balanced.1]

theorem Balanced.rank_flip {t : ColorTree β} (balanced : t.Balanced) (four : t.fourfold = true) :
    t.flip.rank = t.rank := by
  have hblack := balanced.black_of_fourfold four
  cases t with
  | leaf => rfl
  | node red label ch =>
    have hred : red = false := hblack
    simp only [ColorTree.flip, rank, rank_paint_false (fourfold_children four false), hred]
    rfl

end ColorTree

open ColorTree

/-- A node which gets passed in direction `dir`. -/
structure Frame (β : Type u) where
  dir : Bool
  red : Bool
  label : β
  sibling : ColorTree β

def Frame.fill (f : Frame β) (s : ColorTree β) : ColorTree β :=
  .node f.red f.label (fun d => if d = f.dir then s else f.sibling)

def Frame.redden (f : Frame β) : Frame β := { f with red := true }

def plug : List (Frame β) → ColorTree β → ColorTree β
  | [], s => s
  | f :: fs, s => plug fs (f.fill s)

/-- The labels before and behind the subtree to which the way leads. -/
def before : List (Frame β) → List β
  | [] => []
  | f :: fs => before fs ++ if f.dir then f.sibling.inorder ++ [f.label] else []

def after : List (Frame β) → List β
  | [] => []
  | f :: fs => (if f.dir then [] else f.label :: f.sibling.inorder) ++ after fs

theorem fill_child (red : Bool) (label : β) (ch : Bool → ColorTree β) (d : Bool) :
    (Frame.mk d red label (ch (!d))).fill (ch d) = .node red label ch := by
  have hch : (fun e => if e = d then ch d else ch (!d)) = ch := by
    funext e
    by_cases h : e = d
    · rw [if_pos h, h]
    · rw [if_neg h, Bool.eq_not_of_ne h]
  rw [Frame.fill, hch]

@[simp] theorem isRed_fill (f : Frame β) (s : ColorTree β) : (f.fill s).isRed = f.red := rfl

theorem inorder_fill (f : Frame β) (s : ColorTree β) :
    (f.fill s).inorder =
      (if f.dir then f.sibling.inorder ++ [f.label] else []) ++ s.inorder ++
        if f.dir then [] else f.label :: f.sibling.inorder := by
  obtain ⟨dir, red, label, sibling⟩ := f
  cases dir <;> simp [Frame.fill, inorder]

theorem inorder_plug (fs : List (Frame β)) (s : ColorTree β) :
    (plug fs s).inorder = before fs ++ s.inorder ++ after fs := by
  induction fs generalizing s with
  | nil => simp [plug, before, after]
  | cons f fs ih =>
    rw [plug, ih, inorder_fill]
    simp only [before, after, List.append_assoc]

section Balance

theorem rank_fill {f : Frame β} {s : ColorTree β} (same : f.sibling.rank = s.rank) :
    (f.fill s).rank = s.rank + if f.red then 0 else 1 := by
  obtain ⟨dir, red, label, sibling⟩ := f
  cases dir
  · rfl
  · exact congrArg (· + if red then 0 else 1) same

theorem balanced_fill (f : Frame β) (s : ColorTree β) :
    (f.fill s).Balanced ↔
      f.sibling.rank = s.rank ∧ f.sibling.Balanced ∧ s.Balanced ∧
        (f.red = true → s.isRed = false ∧ f.sibling.isRed = false) := by
  obtain ⟨dir, red, label, sibling⟩ := f
  cases dir <;> simp [Frame.fill, ColorTree.Balanced] <;> grind

/-- What the way demands of a subtree of rank `n`, and of its color. -/
def Fits : List (Frame β) → Nat → Bool → Prop
  | [], _, _ => True
  | f :: fs, n, red =>
    f.sibling.rank = n ∧ f.sibling.Balanced ∧
      (f.red = true → red = false ∧ f.sibling.isRed = false) ∧
      Fits fs (n + if f.red then 0 else 1) f.red

theorem balanced_plug (fs : List (Frame β)) (s : ColorTree β) :
    (plug fs s).Balanced ↔ s.Balanced ∧ Fits fs s.rank s.isRed := by
  induction fs generalizing s with
  | nil => exact ⟨fun h => ⟨h, trivial⟩, fun h => h.1⟩
  | cons f fs ih =>
    rw [plug, ih, balanced_fill, isRed_fill]
    refine ⟨fun h => ?_, fun h => ?_⟩
    · obtain ⟨⟨hrank, hsibling, hs, hred⟩, hfits⟩ := h
      rw [rank_fill hrank] at hfits
      exact ⟨hs, hrank, hsibling, hred, hfits⟩
    · obtain ⟨hs, hrank, hsibling, hred, hfits⟩ := h
      rw [rank_fill hrank]
      exact ⟨⟨hrank, hsibling, hs, hred⟩, hfits⟩

/-- A red subtree has its place below a black node. -/
theorem Fits.red {fs : List (Frame β)} {n : Nat} {red : Bool} (fits : Fits fs n red)
    (black : ∀ f ∈ fs.head?, f.red = false) : Fits fs n true := by
  cases fs with
  | nil => exact trivial
  | cons f fs =>
    obtain ⟨hrank, hsibling, -, hfits⟩ := fits
    refine ⟨hrank, hsibling, fun h => ?_, hfits⟩
    exact absurd ((black f rfl).symm.trans h) Bool.false_ne_true

theorem Fits.black {fs : List (Frame β)} {n : Nat} {red : Bool} (fits : Fits fs n red) :
    Fits fs n false := by
  cases fs with
  | nil => exact trivial
  | cons f fs =>
    obtain ⟨hrank, hsibling, hred, hfits⟩ := fits
    exact ⟨hrank, hsibling, fun h => ⟨rfl, (hred h).2⟩, hfits⟩

end Balance

section Rotations

variable {P G : Frame β} {fs : List (Frame β)}

/-- The frame by which a single rotation replaces the frames of parent and grandparent. -/
def single (P G : Frame β) : Frame β := ⟨G.dir, false, P.label, G.redden.fill P.sibling⟩

/-- The subtree which a double rotation puts at the place of the grandparent. -/
def double (P G : Frame β) (label : β) (ch : Bool → ColorTree β) : ColorTree β :=
  .node false label (fun d => (if d = G.dir then P else G).redden.fill (ch d))

theorem inorder_single (s : ColorTree β) (along : P.dir = G.dir) :
    (plug (single P G :: fs) s).inorder = (plug (P :: G :: fs) s).inorder := by
  simp only [inorder_plug, before, after, single, inorder_fill, Frame.redden, along]
  cases G.dir <;> simp

theorem inorder_double (red : Bool) (label : β) (ch : Bool → ColorTree β)
    (across : P.dir = !G.dir) :
    (plug fs (double P G label ch)).inorder =
      (plug (P :: G :: fs) (.node red label ch)).inorder := by
  simp only [inorder_plug, before, after, double, inorder, inorder_fill, Frame.redden, across]
  cases hdir : G.dir <;> simp [across, hdir]

/-- A red parent has a black parent itself. -/
theorem Fits.grandparent_black {n : Nat} {red : Bool} (fits : Fits (P :: G :: fs) n red)
    (parent : P.red = true) : G.red = false := by
  obtain ⟨-, -, -, -, -, hred, -⟩ := fits
  cases hcolor : G.red with
  | false => rfl
  | true => exact absurd (parent.symm.trans (hred hcolor).1) Bool.noConfusion

theorem Fits.redden_fill {n : Nat} {red : Bool} {s : ColorTree β}
    (fits : Fits (P :: G :: fs) n red) (parent : P.red = true)
    (uncle : G.sibling.isRed = false) (hrank : s.rank = n) (hs : s.Balanced)
    (hblack : s.isRed = false) :
    (P.redden.fill s).Balanced ∧ (G.redden.fill s).Balanced := by
  obtain ⟨hP, hPsibling, hPred, hG, hGsibling, -, -⟩ := fits
  rw [parent, if_pos rfl] at hG
  refine ⟨?_, ?_⟩ <;> rw [balanced_fill]
  · exact ⟨hP.trans hrank.symm, hPsibling, hs, fun _ => ⟨hblack, (hPred parent).2⟩⟩
  · exact ⟨hG.trans hrank.symm, hGsibling, hs, fun _ => ⟨hblack, uncle⟩⟩

/-- A single rotation makes place for a red subtree. -/
theorem Fits.single {n : Nat} {red : Bool} (fits : Fits (P :: G :: fs) n red)
    (parent : P.red = true) (uncle : G.sibling.isRed = false) :
    Fits (single P G :: fs) n true := by
  have hGblack := fits.grandparent_black parent
  obtain ⟨hP, hPsibling, hPred, hG, hGsibling, -, hfs⟩ := id fits
  have hfill := (fits.redden_fill parent uncle hP hPsibling (hPred parent).2).2
  rw [parent, if_pos rfl] at hG hfs
  refine ⟨?_, hfill, fun h => absurd h Bool.false_ne_true, ?_⟩
  · have hsame : G.redden.sibling.rank = P.sibling.rank := hG.trans hP.symm
    calc (G.redden.fill P.sibling).rank = P.sibling.rank + 0 := rank_fill hsame
      _ = n := hP
  · rw [hGblack] at hfs
    exact hfs

/-- A double rotation turns a red subtree into a balanced one. -/
theorem Fits.double {n : Nat} {red : Bool} {label : β} {ch : Bool → ColorTree β}
    (fits : Fits (P :: G :: fs) n red) (parent : P.red = true)
    (uncle : G.sibling.isRed = false) (balanced : (ColorTree.node true label ch).Balanced)
    (hrank : (ColorTree.node true label ch).rank = n) :
    (plug fs (double P G label ch)).Balanced := by
  have hGblack := fits.grandparent_black parent
  have hleft : (ch false).rank = n := hrank
  have hch : ∀ d, (ch d).rank = n := by
    intro d
    cases d
    · exact hleft
    · exact balanced.1.symm.trans hleft
  have hfills := fun d => fits.redden_fill parent uncle (hch d) (balanced.2.2 d)
    (balanced.2.1 rfl d)
  obtain ⟨hP, -, -, hG, -, -, hfs⟩ := fits
  rw [parent, if_pos rfl] at hG hfs
  have hrankFill : ∀ d, ((if d = G.dir then P else G).redden.fill (ch d)).rank = n := by
    intro d
    split
    · exact (rank_fill (f := P.redden) (hP.trans (hch d).symm)).trans (hch d)
    · exact (rank_fill (f := G.redden) (hG.trans (hch d).symm)).trans (hch d)
  rw [balanced_plug]
  refine ⟨⟨?_, fun h => absurd h Bool.false_ne_true, fun d => ?_⟩, ?_⟩
  · rw [hrankFill false, hrankFill true]
  · show ((if d = G.dir then P else G).redden.fill (ch d)).Balanced
    split
    · exact (hfills d).1
    · exact (hfills d).2
  · have hrankDouble : (RedBlack.double P G label ch).rank = n + 1 :=
      congrArg (· + 1) (hrankFill false)
    rw [hGblack] at hfs
    rw [hrankDouble]
    exact hfs

end Rotations

section Order

variable {r : β → β → Prop} {fs : List (Frame β)}

/-- Where a way has turned to the greater labels, it leaves smaller ones before it. -/
theorem before_below (below : β → Prop) (hdown : ∀ x y, r x y → below y → below x)
    (hsorted : (before fs).Pairwise r) (hturn : ∀ f ∈ fs, f.dir = true → below f.label) :
    ∀ x ∈ before fs, below x := by
  induction fs with
  | nil => rintro x ⟨⟩
  | cons f fs ih =>
    intro x hx
    rw [before] at hsorted hx
    rw [List.pairwise_append] at hsorted
    rcases List.mem_append.mp hx with houter | hown
    · exact ih hsorted.1 (fun g hg => hturn g (List.mem_cons_of_mem _ hg)) x houter
    · by_cases hdir : f.dir = true
      · have hlabel := hturn f List.mem_cons_self hdir
        rw [if_pos hdir] at hown hsorted
        rcases List.mem_append.mp hown with hsibling | hlast
        · exact hdown x f.label ((List.pairwise_append.mp hsorted.2.1).2.2 x hsibling f.label
            List.mem_cons_self) hlabel
        · rw [List.mem_singleton.mp hlast]
          exact hlabel
      · rw [if_neg hdir] at hown
        exact absurd hown List.not_mem_nil

theorem after_above (above : β → Prop) (hup : ∀ x y, r x y → above x → above y)
    (hsorted : (after fs).Pairwise r) (hturn : ∀ f ∈ fs, f.dir = false → above f.label) :
    ∀ x ∈ after fs, above x := by
  induction fs with
  | nil => rintro x ⟨⟩
  | cons f fs ih =>
    intro x hx
    rw [after] at hsorted hx
    rw [List.pairwise_append] at hsorted
    rcases List.mem_append.mp hx with hown | houter
    · by_cases hdir : f.dir = true
      · rw [if_pos hdir] at hown
        exact absurd hown List.not_mem_nil
      · have hlabel := hturn f List.mem_cons_self (eq_false_of_ne_true hdir)
        rw [if_neg hdir] at hown hsorted
        rcases List.mem_cons.mp hown with hfirst | hsibling
        · rw [hfirst]
          exact hlabel
        · exact hup f.label x ((List.pairwise_cons.mp hsorted.1).1 x hsibling) hlabel
    · exact ih hsorted.2.1 (fun g hg => hturn g (List.mem_cons_of_mem _ hg)) x houter

end Order

section Root

/-- Which node is the root depends on the outermost frame only. -/
theorem root_plug {γ : Type*} (view : ColorTree β → γ)
    (hview : ∀ (f : Frame β) (s s' : ColorTree β), view (f.fill s) = view (f.fill s'))
    {fs : List (Frame β)} (hne : fs ≠ []) (s s' : ColorTree β) :
    view (plug fs s) = view (plug fs s') := by
  induction fs generalizing s s' with
  | nil => exact absurd rfl hne
  | cons f fs ih =>
    cases fs with
    | nil => exact hview f s s'
    | cons g fs => exact ih (List.cons_ne_nil g fs) (f.fill s) (f.fill s')

end Root

end RedBlack
