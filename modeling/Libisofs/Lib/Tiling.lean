import Mathlib.Data.List.Basic

/-!
# Tilings

A list of ranges tiles an interval if the first range starts where the interval starts,
each one ends where the next one starts, and the last one ends where the interval ends.
Then each position of the interval is in exactly one of the ranges.
-/

namespace Tilings

universe u
variable {α : Type u} {start stop : α → Nat}

def Tiles (start stop : α → Nat) : (a : Nat) → List α → (b : Nat) → Prop
  | a, [], b => a = b
  | a, x :: rest, b => start x = a ∧ a ≤ stop x ∧ Tiles start stop (stop x) rest b

/-- Whether the range of `x` contains the position `o`. -/
def covers (start stop : α → Nat) (o : Nat) (x : α) : Bool := start x ≤ o ∧ o < stop x

theorem Tiles.le {a b : Nat} {xs : List α} (h : Tiles start stop a xs b) : a ≤ b := by
  induction xs generalizing a with
  | nil => exact Nat.le_of_eq h
  | cons x rest ih =>
    obtain ⟨-, hle, hrest⟩ := h
    exact Nat.le_trans hle (ih hrest)

theorem Tiles.range {a b : Nat} {xs : List α} (h : Tiles start stop a xs b) :
    ∀ x ∈ xs, a ≤ start x ∧ stop x ≤ b := by
  induction xs generalizing a with
  | nil => simp
  | cons y rest ih =>
    obtain ⟨hstart, hle, hrest⟩ := h
    intro x hx
    rcases List.mem_cons.mp hx with rfl | hlater
    · exact ⟨Nat.le_of_eq hstart.symm, hrest.le⟩
    · have := ih hrest x hlater
      omega

theorem Tiles.append {a b c : Nat} {xs ys : List α} (hxs : Tiles start stop a xs b)
    (hys : Tiles start stop b ys c) : Tiles start stop a (xs ++ ys) c := by
  induction xs generalizing a with
  | nil => exact hxs ▸ hys
  | cons x rest ih =>
    obtain ⟨hstart, hle, hrest⟩ := hxs
    exact ⟨hstart, hle, ih hrest⟩

end Tilings
