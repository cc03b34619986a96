import Mathlib.Algebra.BigOperators.Group.List.Basic
import Mathlib.Algebra.Ring.Nat

/-!
# A counter beside its holders

Holders come and go in a list of places. The counter is in balance if it tells what they hold
together. Then it stays so if it moves with each holder which changes.
-/

namespace Ledger

universe u
variable {σ : Type u} {places : List (Option σ)}

def heldAt (held : σ → Nat) : Option σ → Nat
  | none => 0
  | some s => held s

def total (held : σ → Nat) (places : List (Option σ)) : Nat := (places.map (heldAt held)).sum

theorem total_set (held : σ → Nat) {k : Nat} {p : Option σ} (hk : places[k]? = some p)
    (p' : Option σ) :
    total held (places.set k p') + heldAt held p = total held places + heldAt held p' := by
  induction places generalizing k with
  | nil => simp at hk
  | cons q places ih =>
    cases k with
    | zero =>
      have hq : q = p := Option.some.inj hk
      rw [hq, List.set_cons_zero, total, total, List.map_cons, List.map_cons, List.sum_cons,
        List.sum_cons]
      omega
    | succ k =>
      have hrest := ih (k := k) (by simpa using hk)
      simp only [total, List.set_cons_succ, List.map_cons, List.sum_cons] at hrest ⊢
      omega

theorem total_append (held : σ → Nat) (p : Option σ) :
    total held (places ++ [p]) = total held places + heldAt held p := by
  simp [total]

theorem total_gone (held : σ → Nat) (gone : ∀ p ∈ places, p = none) : total held places = 0 := by
  refine List.sum_eq_zero fun n hn => ?_
  obtain ⟨p, hp, rfl⟩ := List.mem_map.mp hn
  rw [gone p hp]
  rfl

theorem heldAt_le_total (held : σ → Nat) {k : Nat} {p : Option σ} (hk : places[k]? = some p) :
    heldAt held p ≤ total held places := by
  have hset := total_set held hk none
  rw [heldAt] at hset
  omega

/-- The change of a holder and of the counter. -/
theorem balance_set {held : σ → Nat} {counter counter' k : Nat} {p p' : Option σ}
    (balance : counter = total held places) (hk : places[k]? = some p)
    (move : counter' + heldAt held p = counter + heldAt held p') :
    counter' = total held (places.set k p') := by
  have hset := total_set held hk p'
  omega

end Ledger
