import Libisofs.Lib.Tiling
import Mathlib.Data.List.Pairwise

/-!
# Gaps between ranges

The ranges of a list are sorted by their start but may overlap. The gaps are the stretches
which none of them covers: each one reaches from the farthest end of the ranges before it
to the start of the next one, the last one to a limit.
-/

namespace IntervalGaps

open Tilings

universe u
variable {α : Type u} {start stop : α → Nat}

/-- The gap between two positions. -/
def gap (reached next : Nat) : List (Nat × Nat) :=
  if reached < next then [(reached, next)] else []

theorem length_gap_le (reached next : Nat) : (gap reached next).length ≤ 1 := by
  rw [gap]
  split
  · exact Nat.le_refl 1
  · exact Nat.zero_le 1

/-- All positions below `reached` are already dealt with. -/
def gaps (start stop : α → Nat) (limit : Nat) : (reached : Nat) → List α → List (Nat × Nat)
  | reached, [] => gap reached limit
  | reached, x :: rest =>
    gap reached (start x) ++ gaps start stop limit (max reached (stop x)) rest

theorem length_gaps_le (limit reached : Nat) (xs : List α) :
    (gaps start stop limit reached xs).length ≤ xs.length + 1 := by
  induction xs generalizing reached with
  | nil => exact length_gap_le reached limit
  | cons x rest ih =>
    rw [gaps, List.length_append, List.length_cons, Nat.add_comm]
    exact Nat.add_le_add (ih _) (length_gap_le reached _)

/-- Two ranges have no position in common. -/
def Disjoint (start stop : α → Nat) (x y : α) : Prop :=
  ∀ o, ¬ (covers start stop o x = true ∧ covers start stop o y = true)

/-- No position of one range is the start of the other one. An empty range may lie at
the end of another one but not inside of it. -/
def Apart (start stop : α → Nat) (x y : α) : Prop :=
  covers start stop (start x) y = false ∧ covers start stop (start y) x = false

theorem covers_iff {o : Nat} {x : α} : covers start stop o x = true ↔ start x ≤ o ∧ o < stop x := by
  simp [covers]

theorem covers_false_iff {o : Nat} {x : α} :
    covers start stop o x = false ↔ start x ≤ o → stop x ≤ o := by
  simp [covers]

theorem Disjoint.symm {x y : α} (h : Disjoint start stop x y) : Disjoint start stop y x :=
  fun o ho => h o ho.symm

theorem Apart.symm {x y : α} (h : Apart start stop x y) : Apart start stop y x :=
  ⟨h.2, h.1⟩

instance : Std.Symm (Apart start stop) := ⟨fun _ _ => Apart.symm⟩

theorem Apart.disjoint {x y : α} (h : Apart start stop x y) : Disjoint start stop x y := by
  rintro o ⟨hx, hy⟩
  simp only [Apart, covers_iff, covers_false_iff] at *
  omega

/-- Ranges are disjoint if no position is in two of them. -/
theorem pairwise_disjoint_iff {xs : List α} :
    xs.Pairwise (Disjoint start stop) ↔ ∀ o, xs.countP (covers start stop o) ≤ 1 := by
  induction xs with
  | nil => simp
  | cons x rest ih =>
    rw [List.pairwise_cons, ih]
    constructor
    · rintro ⟨hx, hrest⟩ o
      by_cases hcovers : covers start stop o x = true
      · have hnone : rest.countP (covers start stop o) = 0 :=
          List.countP_eq_zero.mpr fun y hy hboth => hx y hy o ⟨hcovers, hboth⟩
        have hone : (x :: rest).countP (covers start stop o) = 1 := by
          rw [List.countP_cons_of_pos hcovers, hnone]
        exact Nat.le_of_eq hone
      · rw [List.countP_cons_of_neg hcovers]
        exact hrest o
    · intro h
      constructor
      · rintro y hy o ⟨hcx, hcy⟩
        have hpos : 0 < rest.countP (covers start stop o) := List.countP_pos_iff.mpr ⟨y, hy, hcy⟩
        have hle := h o
        rw [List.countP_cons_of_pos hcx] at hle
        omega
      · intro o
        have hle := h o
        rw [List.countP_cons] at hle
        omega

variable {limit reached o : Nat} {xs : List α}

theorem mem_gap {next : Nat} {g : Nat × Nat} (h : g ∈ gap reached next) :
    g = (reached, next) ∧ reached < next := by
  rw [gap] at h
  split at h
  next hlt => exact ⟨List.mem_singleton.mp h, hlt⟩
  next => simp at h

theorem count_gap {next : Nat} :
    (gap reached next).countP (covers Prod.fst Prod.snd o) =
      if reached ≤ o ∧ o < next then 1 else 0 := by
  rw [gap]
  split
  next => simp [covers, List.countP_cons]
  next =>
    rw [if_neg (by omega)]
    rfl

theorem gaps_range : ∀ g ∈ gaps start stop limit reached xs, reached ≤ g.1 ∧ g.1 < g.2 := by
  induction xs generalizing reached with
  | nil =>
    intro g hg
    obtain ⟨rfl, hlt⟩ := mem_gap hg
    exact ⟨Nat.le_refl _, hlt⟩
  | cons x rest ih =>
    intro g hg
    rcases List.mem_append.mp hg with hfirst | hlater
    · obtain ⟨rfl, hlt⟩ := mem_gap hfirst
      exact ⟨Nat.le_refl _, hlt⟩
    · have := ih g hlater
      omega

/-- A gap ends at the start of a range or at the limit. -/
theorem gaps_stop : ∀ g ∈ gaps start stop limit reached xs,
    g.2 = limit ∨ ∃ x ∈ xs, g.2 = start x := by
  induction xs generalizing reached with
  | nil =>
    intro g hg
    obtain ⟨rfl, -⟩ := mem_gap hg
    exact Or.inl rfl
  | cons x rest ih =>
    intro g hg
    rcases List.mem_append.mp hg with hfirst | hlater
    · obtain ⟨rfl, -⟩ := mem_gap hfirst
      exact Or.inr ⟨x, List.mem_cons_self .., rfl⟩
    · rcases ih g hlater with hlimit | ⟨y, hy, hstart⟩
      · exact Or.inl hlimit
      · exact Or.inr ⟨y, List.mem_cons_of_mem x hy, hstart⟩

/-- A position before the ranges is in no gap. -/
theorem count_gaps_before (h : o < reached) :
    (gaps start stop limit reached xs).countP (covers Prod.fst Prod.snd o) = 0 := by
  rw [List.countP_eq_zero]
  intro g hg hcovers
  have hrange := gaps_range g hg
  rw [covers_iff] at hcovers
  omega

/-- A position in a range is in no gap. -/
theorem count_gaps_covered (sorted : xs.Pairwise fun x y => start x ≤ start y)
    (h : ∃ x ∈ xs, covers start stop o x = true) :
    (gaps start stop limit reached xs).countP (covers Prod.fst Prod.snd o) = 0 := by
  induction xs generalizing reached with
  | nil => simp at h
  | cons x rest ih =>
    obtain ⟨hx, hrest⟩ := List.pairwise_cons.mp sorted
    have hlate : start x ≤ o := by
      obtain ⟨y, hy, hcovers⟩ := h
      have hle := (covers_iff.mp hcovers).1
      rcases List.mem_cons.mp hy with rfl | hmem
      · exact hle
      · exact Nat.le_trans (hx y hmem) hle
    have hnext : (gaps start stop limit (max reached (stop x)) rest).countP
        (covers Prod.fst Prod.snd o) = 0 := by
      obtain ⟨y, hy, hcovers⟩ := h
      rcases List.mem_cons.mp hy with rfl | hmem
      · have hlt := (covers_iff.mp hcovers).2
        exact count_gaps_before (by omega)
      · exact ih hrest ⟨y, hmem, hcovers⟩
    rw [gaps, List.countP_append, count_gap, hnext, if_neg (by omega)]

/-- A position up to the limit which is in no range is in one gap. -/
theorem count_gaps_free (proper : ∀ x ∈ xs, start x ≤ stop x) (hreached : reached ≤ o)
    (hlimit : o < limit) (h : ∀ x ∈ xs, covers start stop o x = false) :
    (gaps start stop limit reached xs).countP (covers Prod.fst Prod.snd o) = 1 := by
  induction xs generalizing reached with
  | nil => rw [gaps, count_gap, if_pos ⟨hreached, hlimit⟩]
  | cons x rest ih =>
    obtain ⟨hproper, hproper'⟩ := List.forall_mem_cons.mp proper
    obtain ⟨hx, hrest⟩ := List.forall_mem_cons.mp h
    rw [covers_false_iff] at hx
    rw [gaps, List.countP_append, count_gap]
    by_cases hbefore : o < start x
    · rw [if_pos ⟨hreached, hbefore⟩, count_gaps_before (by omega)]
    · rw [if_neg (by omega), ih hproper' (by omega) hrest]

/-- No position is in two gaps. -/
theorem count_gaps_le (proper : ∀ x ∈ xs, start x ≤ stop x) :
    (gaps start stop limit reached xs).countP (covers Prod.fst Prod.snd o) ≤ 1 := by
  induction xs generalizing reached with
  | nil =>
    rw [gaps, count_gap]
    split
    · exact Nat.le_refl 1
    · exact Nat.zero_le 1
  | cons x rest ih =>
    obtain ⟨hproper, hproper'⟩ := List.forall_mem_cons.mp proper
    have hnext := @ih (max reached (stop x)) hproper'
    rw [gaps, List.countP_append, count_gap]
    split
    next hhere =>
      have hnone := @count_gaps_before _ start stop limit (max reached (stop x)) o rest (by omega)
      omega
    next => omega

/-- No range reaches over the start of the next one, or over the limit. -/
def Fits (start stop : α → Nat) (limit : Nat) : (reached : Nat) → List α → Prop
  | reached, [] => reached ≤ limit
  | reached, x :: rest => reached ≤ start x ∧ Fits start stop limit (max reached (stop x)) rest

theorem fits_iff :
    Fits start stop limit reached xs ↔ reached ≤ limit ∧
      (∀ x ∈ xs, reached ≤ start x ∧ stop x ≤ limit) ∧
      xs.Pairwise fun x y => stop x ≤ start y := by
  induction xs generalizing reached with
  | nil => simp [Fits]
  | cons x rest ih =>
    rw [Fits, ih, List.pairwise_cons, List.forall_mem_cons]
    constructor
    · rintro ⟨hx, hlimit, hall, hrest⟩
      refine ⟨by omega, ⟨⟨hx, by omega⟩, fun y hy => ?_⟩, fun y hy => ?_, hrest⟩
      · have := hall y hy
        omega
      · have := hall y hy
        omega
    · rintro ⟨hlimit, ⟨hx, hall⟩, hnext, hrest⟩
      refine ⟨hx.1, by omega, fun y hy => ?_, hrest⟩
      have h1 := hall y hy
      have h2 := hnext y hy
      omega

theorem gaps_cons_congr {x : α} {ys : List α}
    (h : ∀ reached, gaps start stop limit reached xs = gaps start stop limit reached ys) :
    gaps start stop limit reached (x :: xs) = gaps start stop limit reached (x :: ys) := by
  rw [gaps, gaps, h]

theorem gaps_swap {x y : α} (hx : start x ≤ stop x) (hy : start y ≤ stop y)
    (hsame : start x = start y) :
    gaps start stop limit reached (x :: y :: xs) =
      gaps start stop limit reached (y :: x :: xs) := by
  have hmax : max (max reached (stop x)) (stop y) = max (max reached (stop y)) (stop x) := by
    omega
  simp only [gaps, gap, hsame, hmax]
  rw [if_neg (by omega : ¬ max reached (stop x) < start y),
    if_neg (by omega : ¬ max reached (stop y) < start y)]

theorem gaps_to_front {x : α} {as bs : List α} (hx : start x ≤ stop x)
    (proper : ∀ a ∈ as, start a ≤ stop a) (hsame : ∀ a ∈ as, start a = start x) :
    gaps start stop limit reached (as ++ x :: bs) =
      gaps start stop limit reached (x :: (as ++ bs)) := by
  induction as generalizing reached with
  | nil => rfl
  | cons a as ih =>
    obtain ⟨ha, hproper⟩ := List.forall_mem_cons.mp proper
    obtain ⟨hstart, hsame'⟩ := List.forall_mem_cons.mp hsame
    calc gaps start stop limit reached (a :: (as ++ x :: bs))
        = gaps start stop limit reached (a :: x :: (as ++ bs)) :=
          gaps_cons_congr fun _ => ih hproper hsame'
      _ = gaps start stop limit reached (x :: a :: (as ++ bs)) := gaps_swap ha hx hstart

/-- The arrangement of ranges which have the same start does not matter. -/
theorem gaps_perm {ys : List α} (hperm : xs.Perm ys) (proper : ∀ x ∈ xs, start x ≤ stop x)
    (hxs : xs.Pairwise fun x y => start x ≤ start y)
    (hys : ys.Pairwise fun x y => start x ≤ start y) :
    gaps start stop limit reached xs = gaps start stop limit reached ys := by
  induction xs generalizing ys reached with
  | nil => rw [hperm.nil_eq]
  | cons x rest ih =>
    obtain ⟨hfirst, hrest⟩ := List.pairwise_cons.mp hxs
    obtain ⟨hx, hproper⟩ := List.forall_mem_cons.mp proper
    obtain ⟨as, bs, rfl⟩ := List.append_of_mem (hperm.subset (List.mem_cons_self ..))
    have hrest' : rest.Perm (as ++ bs) :=
      (List.perm_cons x).mp (hperm.trans List.perm_middle)
    have hmem : ∀ a ∈ as, a ∈ rest := fun a ha =>
      hrest'.mem_iff.mpr (List.mem_append_left bs ha)
    have hsame : ∀ a ∈ as, start a = start x := by
      intro a ha
      have hle := hfirst a (hmem a ha)
      have hge := (List.pairwise_append.mp hys).2.2 a ha x (List.mem_cons_self ..)
      omega
    rw [gaps_to_front hx (fun a ha => hproper a (hmem a ha)) hsame]
    refine gaps_cons_congr fun reached => ih hrest' hproper hrest ?_
    exact hys.sublist ((List.Sublist.refl as).append (List.sublist_cons_self x bs))

/-- An empty range makes no gap smaller in number. -/
theorem gaps_length_insert {as bs : List α} {x : α} (hempty : start x = stop x)
    (proper : ∀ y ∈ bs, start y ≤ stop y) (hbs : ∀ y ∈ bs, start x ≤ start y) :
    (gaps start stop limit reached (as ++ bs)).length ≤
      (gaps start stop limit reached (as ++ x :: bs)).length := by
  induction as generalizing reached with
  | nil =>
    rw [List.nil_append, List.nil_append]
    by_cases hle : start x ≤ reached
    · have hmax : max reached (stop x) = reached := by omega
      have hsame : gaps start stop limit reached (x :: bs) = gaps start stop limit reached bs := by
        rw [gaps, gap, if_neg (by omega), hmax, List.nil_append]
      exact Nat.le_of_eq (congrArg List.length hsame.symm)
    · have hmax : max reached (stop x) = start x := by omega
      have hone : (gap reached (start x)).length = 1 := by
        rw [gap, if_pos (by omega)]
        rfl
      cases bs with
      | nil =>
        rw [gaps, gaps, List.length_append, hone]
        exact Nat.le_add_right_of_le (length_gap_le reached limit)
      | cons y rest =>
        have hy := proper y (List.mem_cons_self ..)
        have hxy := hbs y (List.mem_cons_self ..)
        have hsame : max reached (stop y) = max (start x) (stop y) := by omega
        have hfirst := length_gap_le reached (start y)
        simp only [gaps, List.length_append, hone, hmax, hsame]
        omega
  | cons a as ih =>
    simp only [List.cons_append, gaps, List.length_append]
    exact Nat.add_le_add_left ih _

theorem gaps_length_le {xs ys es : List α} (hperm : ys.Perm (xs ++ es))
    (proper : ∀ y ∈ ys, start y ≤ stop y) (hempty : ∀ e ∈ es, start e = stop e)
    (hxs : xs.Pairwise fun x y => start x ≤ start y)
    (hys : ys.Pairwise fun x y => start x ≤ start y) :
    (gaps start stop limit reached xs).length ≤ (gaps start stop limit reached ys).length := by
  induction es generalizing ys with
  | nil =>
    rw [List.append_nil] at hperm
    exact Nat.le_of_eq (congrArg List.length
      (gaps_perm hperm proper hys hxs).symm)
  | cons e es ih =>
    obtain ⟨hfirst, hrest⟩ := List.forall_mem_cons.mp hempty
    have hfront : ys.Perm (e :: (xs ++ es)) := hperm.trans List.perm_middle
    obtain ⟨as, bs, rfl⟩ := List.append_of_mem (hfront.mem_iff.mpr (List.mem_cons_self ..))
    have hremoved : (as ++ bs).Perm (xs ++ es) :=
      (List.perm_cons e).mp (List.perm_middle.symm.trans hfront)
    have hsub : List.Sublist (as ++ bs) (as ++ e :: bs) :=
      (List.Sublist.refl as).append (List.sublist_cons_self e bs)
    have hle := ih hremoved (fun y hy => proper y (hsub.subset hy)) hrest (hys.sublist hsub)
    have hsorted := (List.pairwise_append.mp hys).2.1
    exact Nat.le_trans hle (gaps_length_insert hfirst (fun y hy => proper y (by simp [hy]))
      (List.pairwise_cons.mp hsorted).1)

end IntervalGaps
