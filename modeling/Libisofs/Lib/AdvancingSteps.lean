import Mathlib.Data.ZMod.Basic
import Mathlib.Combinatorics.Pigeonhole

/-!
# Steps which advance a number

Each step lowers a rank, or it keeps the rank and advances a number by one, up to multiples of
some modulus. Such steps do not stay in a set of fewer elements than the modulus.
-/

namespace AdvancingSteps

universe u

variable {α : Type u} {modulus : Nat} {step : α → α} {Good : α → Prop} {rank : α → Nat}
  {number : α → ZMod modulus}

/-- What is required of the steps from good elements. -/
structure Advances (step : α → α) (Good : α → Prop) (rank : α → Nat)
    (number : α → ZMod modulus) : Prop where
  good : ∀ x, Good x → Good (step x)
  advances : ∀ x, Good x → rank (step x) < rank x ∨
    rank (step x) = rank x ∧ number (step x) = number x + 1

theorem Advances.good_iterate (h : Advances step Good rank number) {x : α} (hx : Good x) (k : Nat) :
    Good (step^[k] x) := by
  induction k generalizing x with
  | zero => exact hx
  | succ k ih => exact ih (h.good x hx)

theorem Advances.rank_iterate_le (h : Advances step Good rank number) {x : α} (hx : Good x)
    (k : Nat) : rank (step^[k] x) ≤ rank x := by
  induction k generalizing x with
  | zero => exact Nat.le_refl _
  | succ k ih =>
    have hnext := ih (h.good x hx)
    rcases h.advances x hx with hlt | ⟨heq, -⟩
    · exact hnext.trans (Nat.le_of_lt hlt)
    · exact hnext.trans (Nat.le_of_eq heq)

/-- As long as the rank stays, the number counts the steps. -/
theorem Advances.number_iterate (h : Advances step Good rank number) {x : α} (hx : Good x)
    {k : Nat} (hrank : rank (step^[k] x) = rank x) : number (step^[k] x) = number x + k := by
  induction k generalizing x with
  | zero => simp
  | succ k ih =>
    have hle := h.rank_iterate_le (h.good x hx) k
    rw [Function.iterate_succ_apply] at hrank ⊢
    rcases h.advances x hx with hlt | ⟨heq, hnumber⟩
    · omega
    · rw [ih (h.good x hx) (hrank.trans heq.symm), hnumber]
      push_cast
      ring

/-- Some element from which on the rank stays. -/
theorem Advances.exists_settled (h : Advances step Good rank number) {x : α} (hx : Good x) :
    ∃ k, ∀ j, rank (step^[j] (step^[k] x)) = rank (step^[k] x) := by
  induction hr : rank x using Nat.strong_induction_on generalizing x with
  | _ r ih =>
    by_cases hstays : ∀ j, rank (step^[j] x) = rank x
    · exact ⟨0, hstays⟩
    · obtain ⟨j, hj⟩ := not_forall.mp hstays
      have hlt : rank (step^[j] x) < r := by
        have := h.rank_iterate_le hx j
        omega
      obtain ⟨k, hk⟩ := ih _ hlt (h.good_iterate hx j) rfl
      refine ⟨k + j, ?_⟩
      rw [Function.iterate_add_apply]
      exact hk

/-- The steps leave each set which has fewer elements than the modulus. -/
theorem Advances.exists_outside (h : Advances step Good rank number) {x : α} (hx : Good x)
    {s : Finset α} (hs : s.card < modulus) : ∃ k, step^[k] x ∉ s := by
  by_contra hall
  have hin : ∀ k, step^[k] x ∈ s := fun k => not_not.mp fun hk => hall ⟨k, hk⟩
  obtain ⟨k₀, hsettled⟩ := h.exists_settled hx
  have hy := h.good_iterate hx k₀
  have hcard : s.card < (Finset.range modulus).card := by rw [Finset.card_range]; exact hs
  have hmaps : ∀ j ∈ Finset.range modulus, step^[j] (step^[k₀] x) ∈ s := by
    intro j _
    rw [← Function.iterate_add_apply]
    exact hin _
  obtain ⟨i, hi, j, hj, hne, heq⟩ := Finset.exists_ne_map_eq_of_card_lt_of_maps_to hcard hmaps
  have hnumbers := congrArg number heq
  rw [h.number_iterate hy (hsettled i), h.number_iterate hy (hsettled j)] at hnumbers
  have hcast : (i : ZMod modulus) = j := add_left_cancel hnumbers
  have hmod := (ZMod.natCast_eq_natCast_iff' i j modulus).mp hcast
  rw [Nat.mod_eq_of_lt (Finset.mem_range.mp hi), Nat.mod_eq_of_lt (Finset.mem_range.mp hj)] at hmod
  exact hne hmod

end AdvancingSteps
