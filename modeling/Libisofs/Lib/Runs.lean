import Mathlib.Data.List.Basic

/-!
# Labelled runs

A system is an executable step function: in a state, an action is either refused
or leads to a next state and emits one event. A run keeps the emitted events in
order, so that a history property is an invariant about a state and its trace.
-/

namespace LabelledRuns

universe u v w

/-- Refused actions are `none`; what a step shows to an observer is its event. -/
structure System (S : Type u) (A : Type v) (E : Type w) where
  step : S → A → Option (S × E)

variable {S : Type u} {A : Type v} {E : Type w}

/-- Traces grow at their end, so the last event is the one of the last step. -/
inductive Run (M : System S A E) (start : S) : List E → S → Prop where
  | refl : Run M start [] start
  | snoc {trace : List E} {s s' : S} {a : A} {e : E} :
      Run M start trace s → M.step s a = some (s', e) → Run M start (trace ++ [e]) s'

/-- The induction of every safety proof: what holds before any step and is kept
by each step holds after each run. -/
theorem Run.invariant {M : System S A E} {start : S} {I : List E → S → Prop}
    (first : I [] start)
    (keep : ∀ {trace s a s' e}, I trace s → M.step s a = some (s', e) → I (trace ++ [e]) s')
    {trace : List E} {s : S} (run : Run M start trace s) : I trace s := by
  induction run with
  | refl => exact first
  | snoc _ hstep ih => exact keep ih hstep

theorem Run.append {M : System S A E} {start s s' : S} {trace more : List E}
    (run : Run M start trace s) (run' : Run M s more s') : Run M start (trace ++ more) s' := by
  induction run' with
  | refl => rwa [List.append_nil]
  | snoc _ hstep ih =>
    rw [← List.append_assoc]
    exact .snoc ih hstep

/-- A run can be cut at each of its events. -/
theorem Run.cut {M : System S A E} {start : S} {pre post : List E} {e : E} {s : S}
    (run : Run M start (pre ++ e :: post) s) :
    ∃ s₁ s₂ a, Run M start pre s₁ ∧ M.step s₁ a = some (s₂, e) ∧ Run M s₂ post s := by
  generalize htrace : pre ++ e :: post = trace at run
  induction run generalizing post with
  | refl => simp at htrace
  | @snoc trace s s' a last run hstep ih =>
    rcases List.eq_nil_or_concat post with rfl | ⟨post', x, rfl⟩
    · obtain ⟨rfl, heq⟩ := List.append_inj' htrace rfl
      obtain rfl : e = last := by simpa using heq
      exact ⟨s, s', a, run, hstep, .refl⟩
    · have hsplit : (pre ++ e :: post') ++ [x] = trace ++ [last] := by
        simpa using htrace
      obtain ⟨hinit, heq⟩ := List.append_inj' hsplit rfl
      obtain rfl : x = last := by simpa using heq
      obtain ⟨s₁, s₂, b, hpre, hcut, hpost⟩ := ih hinit
      exact ⟨s₁, s₂, b, hpre, hcut, by simpa using Run.snoc hpost hstep⟩

end LabelledRuns
