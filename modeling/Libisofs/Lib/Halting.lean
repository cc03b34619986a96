import Mathlib.Logic.Function.Iterate

/-!
# Programs which run until they return

A program is a total step function on its states, in which loops without counters need no
fuel. A run is what iteration of the step function yields. That a final state is reached
follows from an invariant and a variant.
-/

namespace Halting

universe u
variable {S : Type u} {step : S → S}

/-- A property of all states of a run. -/
def Always (step : S → S) (P : S → Prop) (s : S) : Prop := ∀ n, P (step^[n] s)

theorem Always.head {P : S → Prop} {s : S} (always : Always step P s) : P s := always 0

theorem Always.tail {P : S → Prop} {s : S} (always : Always step P s) :
    Always step P (step s) := fun n => always (n + 1)

theorem Always.cons {P : S → Prop} {s : S} (first : P s) (rest : Always step P (step s)) :
    Always step P s
  | 0 => first
  | n + 1 => rest n

theorem Always.of_fixed {P : S → Prop} {s : S} (hfixed : step s = s) (holds : P s) :
    Always step P s := fun n => by rwa [Function.iterate_fixed hfixed n]

/-- After some steps the invariant holds again, and the run has ended or the variant has become
less. -/
theorem exists_final_of_phases {final I : S → Prop} {variant : S → Nat}
    (phase : ∀ s, I s → ¬ final s →
      ∃ n, I (step^[n] s) ∧ (final (step^[n] s) ∨ variant (step^[n] s) < variant s))
    {s : S} (inv : I s) : ∃ n, final (step^[n] s) ∧ I (step^[n] s) := by
  by_cases hfinal : final s
  · exact ⟨0, hfinal, inv⟩
  · obtain ⟨n, hn, hend | hless⟩ := phase s inv hfinal
    · exact ⟨n, hend, hn⟩
    · obtain ⟨m, hm⟩ := exists_final_of_phases phase hn
      refine ⟨m + n, ?_⟩
      rwa [Function.iterate_add_apply]
termination_by variant s

/-- Each step keeps the invariant and either ends the run or decreases the variant. -/
theorem exists_final {final I : S → Prop} {variant : S → Nat}
    (keep : ∀ s, I s → ¬ final s → I (step s))
    (decrease : ∀ s, I s → ¬ final s → final (step s) ∨ variant (step s) < variant s)
    {s : S} (inv : I s) : ∃ n, final (step^[n] s) ∧ I (step^[n] s) :=
  exists_final_of_phases
    (fun s inv hfinal => ⟨1, keep s inv hfinal, decrease s inv hfinal⟩) inv

/-- A run never ends if it stays in a set of states which are not final. -/
theorem never_final {final I : S → Prop} (keep : ∀ s, I s → I (step s))
    (running : ∀ s, I s → ¬ final s) {s : S} (inv : I s) (n : Nat) : ¬ final (step^[n] s) := by
  have hn : I (step^[n] s) := by
    induction n generalizing s with
    | zero => exact inv
    | succ n ih => exact ih (keep s inv)
  exact running _ hn

/-- Where a run stays once it has got there. -/
theorem iterate_eq_of_fixed {s : S} {m n : Nat} (hm : step (step^[m] s) = step^[m] s)
    (hn : step (step^[n] s) = step^[n] s) : step^[m] s = step^[n] s := by
  rcases Nat.le_total m n with h | h
  · obtain ⟨k, rfl⟩ := Nat.exists_eq_add_of_le' h
    rw [Function.iterate_add_apply, Function.iterate_fixed hm]
  · obtain ⟨k, rfl⟩ := Nat.exists_eq_add_of_le' h
    rw [Function.iterate_add_apply, Function.iterate_fixed hn]

end Halting
