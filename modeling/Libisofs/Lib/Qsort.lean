import Libisofs.Lib.Runs
import Libisofs.Lib.ThreeWay
import Mathlib.Data.List.Sort

/-!
# The sort function of the C library

qsort() arranges the elements in ascending order of a comparison function. The order
of elements which compare as equal is unspecified, and so is everything but the set
of elements if the comparison function is not consistent.
-/

namespace CLibrary

open LabelledRuns ThreeWay

/-- The comparison function is a total preorder. -/
structure Consistent {α : Type} (cmp : α → α → Int) : Prop where
  trans : ∀ a b c, cmp a b ≤ 0 → cmp b c ≤ 0 → cmp a c ≤ 0
  total : ∀ a b, cmp a b ≤ 0 ∨ cmp b a ≤ 0

structure Qsort where
  run : {α : Type} → (α → α → Int) → List α → List α
  perm : ∀ {α : Type} (cmp : α → α → Int) (l : List α), (run cmp l).Perm l
  sorted : ∀ {α : Type} {cmp : α → α → Int}, Consistent cmp → ∀ l : List α,
    (run cmp l).Pairwise fun a b => cmp a b ≤ 0

/-- The merge sort of glibc for arrays of moderate size. -/
def mergeQsort : Qsort where
  run cmp l := l.mergeSort fun a b => decide (cmp a b ≤ 0)
  perm cmp l := List.mergeSort_perm l _
  sorted {α cmp} consistent l := by
    have htrans : ∀ a b c : α, decide (cmp a b ≤ 0) = true → decide (cmp b c ≤ 0) = true →
        decide (cmp a c ≤ 0) = true := by simpa using consistent.trans
    have htotal : ∀ a b : α, (decide (cmp a b ≤ 0) || decide (cmp b a ≤ 0)) = true := by
      simpa using consistent.total
    simpa using List.pairwise_mergeSort htrans htotal l

/-- Insertion sort, as C libraries use it for small arrays. -/
def smallQsort : Qsort where
  run cmp l := l.insertionSort fun a b => cmp a b ≤ 0
  perm cmp l := List.perm_insertionSort _ l
  sorted {α cmp} consistent l := by
    have : Std.Total fun a b : α => cmp a b ≤ 0 := ⟨consistent.total⟩
    have : IsTrans α fun a b => cmp a b ≤ 0 := ⟨consistent.trans⟩
    exact List.pairwise_insertionSort _ l

section Extremes

variable {α : Type} {R : α → α → Prop} {l xs : List α} {a : α}

/-- An element which belongs before no other one is the last one. -/
theorem sorted_last (hsorted : l.Pairwise R) (hperm : l.Perm (xs ++ [a]))
    (hlast : ∀ x ∈ xs, ¬ R a x) : ∃ ys, l = ys ++ [a] ∧ ys.Perm xs := by
  have hmem : a ∈ l := hperm.mem_iff.mpr (by simp)
  obtain ⟨as, bs, rfl⟩ := List.append_of_mem hmem
  have hothers : (as ++ bs).Perm xs := by
    rw [← List.perm_cons a]
    exact List.perm_middle.symm.trans (hperm.trans (List.perm_append_singleton a xs))
  have hnone : bs = [] := by
    rw [List.eq_nil_iff_forall_not_mem]
    intro b hb
    have hafter := (List.pairwise_cons.mp (List.pairwise_append.mp hsorted).2.1).1 b hb
    exact hlast b (hothers.mem_iff.mp (List.mem_append_right as hb)) hafter
  subst hnone
  exact ⟨as, rfl, by rwa [List.append_nil] at hothers⟩

/-- An element which no other one belongs before is the first one. -/
theorem sorted_first (hsorted : l.Pairwise R) (hperm : l.Perm (a :: xs))
    (hfirst : ∀ x ∈ xs, ¬ R x a) : ∃ ys, l = a :: ys ∧ ys.Perm xs := by
  have hmem : a ∈ l := hperm.mem_iff.mpr (List.mem_cons_self ..)
  obtain ⟨as, bs, rfl⟩ := List.append_of_mem hmem
  have hothers : (as ++ bs).Perm xs := by
    rw [← List.perm_cons a]
    exact List.perm_middle.symm.trans hperm
  have hnone : as = [] := by
    rw [List.eq_nil_iff_forall_not_mem]
    intro b hb
    have hbefore := (List.pairwise_append.mp hsorted).2.2 b hb a (List.mem_cons_self ..)
    exact hfirst b (hothers.mem_iff.mp (List.mem_append_left bs hb)) hbefore
  subst hnone
  exact ⟨bs, rfl, hothers⟩

end Extremes

section Recording

variable {α σ : Type}

/-- Calls of a comparison function which keeps records. An event is a pair of elements
with the answer. -/
def asking (cmp : α → α → σ → Int × σ) : System σ (α × α) ((α × α) × Int) where
  step s pair := some ((cmp pair.1 pair.2 s).2, (pair, (cmp pair.1 pair.2 s).1))

/-- All given answers are those of one comparison function without records. -/
def AnsweredBy (order : α → α → Int) (trace : List ((α × α) × Int)) : Prop :=
  ∀ event ∈ trace, sign event.2 = sign (order event.1.1 event.1.2)

/-- qsort() with a comparison function which keeps records. It knows the order of the
elements only from the answers. -/
structure RecordingQsort where
  run : {α σ : Type} → (α → α → σ → Int × σ) → List α → σ → List α × σ
  perm : ∀ {α σ : Type} (cmp : α → α → σ → Int × σ) (l : List α) (s : σ),
    (run cmp l s).1.Perm l
  sorted : ∀ {α σ : Type} (cmp : α → α → σ → Int × σ) (l : List α) (s : σ),
    ∃ trace, Run (asking cmp) s trace (run cmp l s).2 ∧
      (∀ event ∈ trace, event.1.1 ∈ l ∧ event.1.2 ∈ l) ∧
      ∀ order, Consistent order → AnsweredBy order trace →
        (run cmp l s).1.Pairwise fun a b => order a b ≤ 0

/-- Insertion of an element into a sorted array. -/
def insertRecording (cmp : α → α → σ → Int × σ) (a : α) : List α → σ → List α × σ
  | [], s => ([a], s)
  | b :: l, s =>
    if (cmp a b s).1 ≤ 0 then (a :: b :: l, (cmp a b s).2)
    else
      (b :: (insertRecording cmp a l (cmp a b s).2).1,
        (insertRecording cmp a l (cmp a b s).2).2)

def sortRecording (cmp : α → α → σ → Int × σ) : List α → σ → List α × σ
  | [], s => ([], s)
  | a :: l, s => insertRecording cmp a (sortRecording cmp l s).1 (sortRecording cmp l s).2

theorem insertRecording_perm (cmp : α → α → σ → Int × σ) (a : α) (l : List α) (s : σ) :
    (insertRecording cmp a l s).1.Perm (a :: l) := by
  induction l generalizing s with
  | nil => rfl
  | cons b l ih =>
    rw [insertRecording]
    split
    · rfl
    · exact ((ih _).cons b).trans (List.Perm.swap a b l)

theorem sortRecording_perm (cmp : α → α → σ → Int × σ) (l : List α) (s : σ) :
    (sortRecording cmp l s).1.Perm l := by
  induction l generalizing s with
  | nil => rfl
  | cons a l ih => exact (insertRecording_perm cmp a _ _).trans ((ih s).cons a)

theorem AnsweredBy.append {order : α → α → Int} {t t' : List ((α × α) × Int)}
    (answered : AnsweredBy order (t ++ t')) : AnsweredBy order t ∧ AnsweredBy order t' :=
  List.forall_mem_append.mp answered

/-- Inserting asks about the new element only, and puts it where the answers say. -/
theorem insertRecording_spec (cmp : α → α → σ → Int × σ) (a : α) (l : List α) (s : σ) :
    ∃ trace, Run (asking cmp) s trace (insertRecording cmp a l s).2 ∧
      (∀ event ∈ trace, event.1.1 = a ∧ event.1.2 ∈ l) ∧
      ∀ order, AnsweredBy order trace →
        (insertRecording cmp a l s).1 = l.orderedInsert (fun x y => order x y ≤ 0) a := by
  induction l generalizing s with
  | nil => exact ⟨[], .refl, by simp, fun _ _ => rfl⟩
  | cons b l ih =>
    have first : Run (asking cmp) s [((a, b), (cmp a b s).1)] (cmp a b s).2 :=
      .snoc (a := (a, b)) .refl rfl
    by_cases hle : (cmp a b s).1 ≤ 0
    · refine ⟨_, by rw [insertRecording, if_pos hle]; exact first, by simp, ?_⟩
      intro order answered
      have hfirst := answered _ (List.mem_singleton_self _)
      have horder : order a b ≤ 0 := by
        rwa [← sign_isLE, ← hfirst, sign_isLE]
      rw [insertRecording, if_pos hle, List.orderedInsert_cons, if_pos horder]
    · obtain ⟨trace, run, hmem, hsorted⟩ := ih (cmp a b s).2
      refine ⟨[((a, b), (cmp a b s).1)] ++ trace, ?_, ?_, ?_⟩
      · rw [insertRecording, if_neg hle]
        exact first.append run
      · rintro event hevent
        rcases List.mem_append.mp hevent with h | h
        · obtain rfl := List.mem_singleton.mp h
          exact ⟨rfl, List.mem_cons_self ..⟩
        · exact ⟨(hmem event h).1, List.mem_cons_of_mem b (hmem event h).2⟩
      · intro order answered
        obtain ⟨hfirst, hrest⟩ := answered.append
        have horder : ¬ order a b ≤ 0 := by
          rwa [← sign_isLE, ← hfirst _ (List.mem_singleton_self _), sign_isLE]
        rw [insertRecording, if_neg hle, List.orderedInsert_cons, if_neg horder,
          hsorted order hrest]

theorem sortRecording_spec (cmp : α → α → σ → Int × σ) (l : List α) (s : σ) :
    ∃ trace, Run (asking cmp) s trace (sortRecording cmp l s).2 ∧
      (∀ event ∈ trace, event.1.1 ∈ l ∧ event.1.2 ∈ l) ∧
      ∀ order, AnsweredBy order trace →
        (sortRecording cmp l s).1 = l.insertionSort fun x y => order x y ≤ 0 := by
  induction l generalizing s with
  | nil => exact ⟨[], .refl, by simp, fun _ _ => rfl⟩
  | cons a l ih =>
    obtain ⟨trace, run, hmem, hsorted⟩ := ih s
    obtain ⟨more, run', hmem', hinsert⟩ :=
      insertRecording_spec cmp a (sortRecording cmp l s).1 (sortRecording cmp l s).2
    refine ⟨trace ++ more, run.append run', ?_, ?_⟩
    · intro event hevent
      rcases List.mem_append.mp hevent with h | h
      · exact ⟨List.mem_cons_of_mem a (hmem event h).1, List.mem_cons_of_mem a (hmem event h).2⟩
      · have hin := (sortRecording_perm cmp l s).mem_iff.mp (hmem' event h).2
        exact ⟨(hmem' event h).1 ▸ List.mem_cons_self .., List.mem_cons_of_mem a hin⟩
    · intro order answered
      rw [sortRecording, hinsert order answered.append.2, hsorted order answered.append.1]
      rfl

/-- Insertion sort, as C libraries use it for small arrays. -/
def insertionQsort : RecordingQsort where
  run cmp l s := sortRecording cmp l s
  perm cmp l s := sortRecording_perm cmp l s
  sorted {α σ} cmp l s := by
    obtain ⟨trace, run, hmem, hsorted⟩ := sortRecording_spec cmp l s
    refine ⟨trace, run, hmem, ?_⟩
    intro order consistent answered
    have : Std.Total fun a b : α => order a b ≤ 0 := ⟨consistent.total⟩
    have : IsTrans α fun a b => order a b ≤ 0 := ⟨consistent.trans⟩
    rw [hsorted order answered]
    exact List.pairwise_insertionSort _ l

/-- A comparison function without records, in the shape of one with records. -/
def withoutRecords (cmp : α → α → Int) (a b : α) (s : Unit) : Int × Unit := (cmp a b, s)

theorem answers_withoutRecords {cmp : α → α → Int} {s s' : Unit}
    {trace : List ((α × α) × Int)} (run : Run (asking (withoutRecords cmp)) s trace s') :
    ∀ event ∈ trace, event.2 = cmp event.1.1 event.1.2 := by
  apply run.invariant (I := fun trace _ => ∀ event ∈ trace, event.2 = cmp event.1.1 event.1.2)
  · simp
  · rintro trace s pair s' e answers hstep event hevent
    obtain ⟨⟩ := hstep
    rcases List.mem_append.mp hevent with h | h
    · exact answers event h
    · obtain rfl := List.mem_singleton.mp h
      rfl

def RecordingQsort.plain (qsort : RecordingQsort) : Qsort where
  run cmp l := (qsort.run (withoutRecords cmp) l ()).1
  perm cmp l := qsort.perm (withoutRecords cmp) l ()
  sorted {α cmp} consistent l := by
    obtain ⟨trace, run, -, hsorted⟩ := qsort.sorted (withoutRecords cmp) l ()
    apply hsorted cmp consistent
    intro event hevent
    rw [answers_withoutRecords run event hevent]

/-- The comparison function is consistent on the elements of the array. -/
structure ConsistentOn (cmp : α → α → Int) (l : List α) : Prop where
  antisymm : ∀ a ∈ l, ∀ b ∈ l, sign (cmp b a) = (sign (cmp a b)).swap
  trans : ∀ a ∈ l, ∀ b ∈ l, ∀ c ∈ l, cmp a b ≤ 0 → cmp b c ≤ 0 → cmp a c ≤ 0

section Extended

open Classical in
/-- The elements of the array come before all others. -/
noncomputable def extended (cmp : α → α → Int) (l : List α) (a b : α) : Int :=
  if a ∈ l then (if b ∈ l then cmp a b else -1) else (if b ∈ l then 1 else 0)

variable {cmp : α → α → Int} {l : List α}

theorem extended_of_mem {a b : α} (ha : a ∈ l) (hb : b ∈ l) : extended cmp l a b = cmp a b := by
  rw [extended, if_pos ha, if_pos hb]

theorem ConsistentOn.total (consistent : ConsistentOn cmp l) {a b : α} (ha : a ∈ l)
    (hb : b ∈ l) : cmp a b ≤ 0 ∨ cmp b a ≤ 0 := by
  have hswap := consistent.antisymm a ha b hb
  rcases Int.lt_or_le 0 (cmp a b) with hpos | hle
  · rw [sign_eq_gt.mpr hpos, Ordering.swap_gt, sign_eq_lt] at hswap
    exact Or.inr (Int.le_of_lt hswap)
  · exact Or.inl hle

theorem ConsistentOn.extend (consistent : ConsistentOn cmp l) : Consistent (extended cmp l) where
  trans a b c hab hbc := by
    by_cases ha : a ∈ l <;> by_cases hb : b ∈ l <;> by_cases hc : c ∈ l
    case pos =>
      rw [extended_of_mem ha hb] at hab
      rw [extended_of_mem hb hc] at hbc
      rw [extended_of_mem ha hc]
      exact consistent.trans a ha b hb c hc hab hbc
    all_goals simp_all [extended]
  total a b := by
    by_cases ha : a ∈ l <;> by_cases hb : b ∈ l
    case pos =>
      rw [extended_of_mem ha hb, extended_of_mem hb ha]
      exact consistent.total ha hb
    all_goals simp [extended, ha, hb]

/-- Nothing but the elements of the array gets compared. -/
theorem RecordingQsort.plain_sorted (qsort : RecordingQsort) (consistent : ConsistentOn cmp l) :
    (qsort.plain.run cmp l).Pairwise fun a b => cmp a b ≤ 0 := by
  obtain ⟨trace, run, hmem, hsorted⟩ := qsort.sorted (withoutRecords cmp) l ()
  have answered : AnsweredBy (extended cmp l) trace := by
    intro event hevent
    obtain ⟨ha, hb⟩ := hmem event hevent
    rw [answers_withoutRecords run event hevent, extended_of_mem ha hb]
  refine (hsorted (extended cmp l) consistent.extend answered).imp_of_mem ?_
  intro a b ha hb hle
  have hperm := qsort.perm (withoutRecords cmp) l ()
  rwa [extended_of_mem (hperm.mem_iff.mp ha) (hperm.mem_iff.mp hb)] at hle

end Extended

end Recording

end CLibrary
