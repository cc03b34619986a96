import Mathlib.Data.List.Chain
import Mathlib.Data.List.Flatten
import Mathlib.Data.List.SplitBy

/-!
# Stable order within runs

Elements of key 0 stay where they are. Each maximal run of other elements gets sorted by the key,
where elements of the same key keep their order.
-/

namespace MarkOrder

variable {α : Type} (key : α → Nat)

def bothMarks (a b : α) : Bool := key a != 0 && key b != 0

def sortRun (run : List α) : List α := run.mergeSort fun a b => decide (key a ≤ key b)

def canonicalOrder (text : List α) : List α :=
  ((text.splitBy (bothMarks key)).map (sortRun key)).flatten

/-- No mark follows directly after one with a higher key. -/
def Ordered (text : List α) : Prop := text.IsChain fun a b => key b = 0 ∨ key a ≤ key b

instance (text : List α) : Decidable (Ordered key text) :=
  inferInstanceAs (Decidable (List.IsChain _ _))

variable {key} {text run : List α}

theorem sortRun_eq_self_iff :
    sortRun key run = run ↔ run.Pairwise fun a b => key a ≤ key b := by
  have hpairwise := @List.pairwise_mergeSort α (fun a b => decide (key a ≤ key b))
    (fun a b c hab hbc => by simp only [decide_eq_true_eq] at *; omega)
    (fun a b => by simp only [Bool.or_eq_true, decide_eq_true_eq]; omega) run
  constructor
  · intro h
    rw [sortRun] at h
    rw [h] at hpairwise
    exact hpairwise.imp of_decide_eq_true
  · intro h
    exact List.mergeSort_of_pairwise (h.imp fun hle => decide_eq_true hle)

theorem map_sortRun_iff {runs : List (List α)} :
    runs.map (sortRun key) = runs ↔ ∀ run ∈ runs, sortRun key run = run := by
  have hmap := @List.map_inj_left _ _ runs (sortRun key) id
  rwa [List.map_id] at hmap

/-- Sorting the runs keeps the text if and only if it keeps each run. -/
theorem canonicalOrder_eq_self_iff_runs : canonicalOrder key text = text ↔
    ∀ run ∈ text.splitBy (bothMarks key), sortRun key run = run := by
  have hflatten := List.flatten_splitBy (bothMarks key) text
  rw [← map_sortRun_iff]
  constructor
  · intro h
    have hlens : ((text.splitBy (bothMarks key)).map (sortRun key)).map List.length =
        (text.splitBy (bothMarks key)).map List.length := by
      rw [List.map_map]
      exact List.map_congr_left fun run _ => List.length_mergeSort run
    exact List.eq_iff_flatten_eq.mpr ⟨h.trans hflatten.symm, hlens⟩
  · intro h
    rw [canonicalOrder, h, hflatten]

/-- Within a run of marks the order is the one of the keys. -/
theorem pairwise_of_ordered (hmarks : run.IsChain fun a b => bothMarks key a b = true)
    (hordered : Ordered key run) : run.Pairwise fun a b => key a ≤ key b := by
  induction run with
  | nil => exact List.Pairwise.nil
  | cons a rest ih =>
    cases rest with
    | nil => exact List.pairwise_singleton _ _
    | cons b rest =>
      obtain ⟨hab, hmarks⟩ := List.isChain_cons_cons.mp hmarks
      obtain ⟨hle, hordered⟩ := List.isChain_cons_cons.mp hordered
      have hrest := ih hmarks hordered
      have hb : key b ≠ 0 := by
        rw [bothMarks, Bool.and_eq_true, bne_iff_ne, bne_iff_ne] at hab
        exact hab.2
      have hfirst : key a ≤ key b := hle.resolve_left hb
      refine List.pairwise_cons.mpr ⟨fun c hc => ?_, hrest⟩
      rcases List.mem_cons.mp hc with rfl | hc
      · exact hfirst
      · exact Nat.le_trans hfirst ((List.pairwise_cons.mp hrest).1 c hc)

/-- A text is its own canonical order if and only if it is ordered. -/
theorem canonicalOrder_eq_self_iff : canonicalOrder key text = text ↔ Ordered key text := by
  have hsplit := @List.isChain_flatten α (fun a b => key b = 0 ∨ key a ≤ key b) _
    (List.nil_notMem_splitBy (bothMarks key) text)
  rw [List.flatten_splitBy] at hsplit
  rw [canonicalOrder_eq_self_iff_runs, Ordered, hsplit]
  constructor
  · intro h
    constructor
    · intro run hrun
      have hsorted := sortRun_eq_self_iff.mp (h run hrun)
      exact hsorted.isChain.imp fun _ _ hle => Or.inr hle
    · refine (List.isChain_getLast_head_splitBy (bothMarks key) text).imp ?_
      rintro xs ys ⟨hx, hy, hborder⟩ a ha b hb
      rw [List.getLast?_eq_getLast_of_ne_nil hx, Option.mem_some_iff] at ha
      rw [List.head?_eq_some_head hy, Option.mem_some_iff] at hb
      subst ha hb
      rw [bothMarks, Bool.and_eq_false_iff, bne_eq_false_iff_eq, bne_eq_false_iff_eq] at hborder
      rcases hborder with hzero | hzero
      · exact Or.inr (by omega)
      · exact Or.inl hzero
  · rintro ⟨hruns, -⟩ run hrun
    exact sortRun_eq_self_iff.mpr
      (pairwise_of_ordered (List.isChain_of_mem_splitBy hrun) (hruns run hrun))

end MarkOrder
