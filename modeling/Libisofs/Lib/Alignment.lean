import Mathlib.Data.Nat.ModEq
import Mathlib.Tactic.Ring

/-!
# Aligned layout

Items get placed one behind the other. Each one begins at a multiple of one number, and its
size gets rounded up to a multiple of another one. A number of 0 means no alignment.
-/

namespace AlignedLayout

def alignUp (align n : Nat) : Nat := if n % align = 0 then n else n + (align - n % align)

theorem le_alignUp (align n : Nat) : n ≤ alignUp align n := by
  rw [alignUp]
  split
  · exact Nat.le_refl n
  · exact Nat.le_add_right n _

theorem alignUp_mod {align : Nat} (h : 0 < align) (n : Nat) : alignUp align n % align = 0 := by
  rw [alignUp]
  split
  next hzero => exact hzero
  next =>
    have hlt := Nat.mod_lt n h
    have hsum : n + (align - n % align) = align * (n / align) + align := by
      have hdiv := Nat.div_add_mod n align
      omega
    rw [hsum, Nat.add_mod_right, Nat.mul_mod_right]

universe u
variable {α : Type u}

/-- The end of the items which begin behind `start`. -/
def layoutEnd (startAlign sizeAlign : Nat) (size : α → Nat) : (start : Nat) → List α → Nat
  | start, [] => start
  | start, a :: rest =>
    layoutEnd startAlign sizeAlign size (alignUp startAlign start + alignUp sizeAlign (size a)) rest

variable {startAlign sizeAlign : Nat} {size : α → Nat}

theorem le_layoutEnd (start : Nat) (items : List α) :
    start ≤ layoutEnd startAlign sizeAlign size start items := by
  induction items generalizing start with
  | nil => exact Nat.le_refl start
  | cons a rest ih =>
    have hstart := le_alignUp startAlign start
    have hrest := ih (alignUp startAlign start + alignUp sizeAlign (size a))
    rw [layoutEnd]
    omega

end AlignedLayout
