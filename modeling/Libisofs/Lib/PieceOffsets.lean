import Mathlib.Data.List.Basic

/-!
# Offsets of pieces

Pieces of various lengths are stored one after the other, behind something else of known
length. A table tells for each piece where it begins, and at last where all of them end.
-/

namespace PieceOffsets

universe u
variable {α : Type u} (base : Nat) (pieces : List (List α))

def offsetAt (k : Nat) : Nat := base + (pieces.take k).flatten.length

variable {base pieces}

@[simp] theorem offsetAt_zero : offsetAt base pieces 0 = base := by
  simp [offsetAt]

theorem offsetAt_succ {k : Nat} {piece : List α} (hk : pieces[k]? = some piece) :
    offsetAt base pieces (k + 1) = offsetAt base pieces k + piece.length := by
  simp [offsetAt, List.take_add_one, hk, Nat.add_assoc]

theorem base_le_offsetAt (k : Nat) : base ≤ offsetAt base pieces k := Nat.le_add_right base _

/-- No piece begins behind the end of all of them. -/
theorem offsetAt_le (k : Nat) : offsetAt base pieces k ≤ base + pieces.flatten.length := by
  conv_rhs => rw [← List.take_append_drop k pieces, List.flatten_append, List.length_append]
  rw [offsetAt]
  omega

theorem offsetAt_length : offsetAt base pieces pieces.length = base + pieces.flatten.length := by
  rw [offsetAt, List.take_length]

/-- What follows the begin of a piece. -/
theorem drop_offsetAt {front : List α} (hfront : front.length = base) (k : Nat) :
    (front ++ pieces.flatten).drop (offsetAt base pieces k) = (pieces.drop k).flatten := by
  have hsplit : pieces.flatten = (pieces.take k).flatten ++ (pieces.drop k).flatten := by
    rw [← List.flatten_append, List.take_append_drop]
  rw [offsetAt, ← hfront, hsplit, ← List.append_assoc, ← List.length_append, List.drop_left]

/-- A piece reaches from its own offset to the next one. -/
theorem piece_at {front : List α} (hfront : front.length = base) {k : Nat} {piece : List α}
    (hk : pieces[k]? = some piece) :
    ((front ++ pieces.flatten).drop (offsetAt base pieces k)).take
      (offsetAt base pieces (k + 1) - offsetAt base pieces k) = piece := by
  obtain ⟨hlt, rfl⟩ := List.getElem?_eq_some_iff.mp hk
  rw [offsetAt_succ hk, Nat.add_sub_cancel_left, drop_offsetAt hfront,
    List.drop_eq_getElem_cons hlt, List.flatten_cons, List.take_left]

/-- A number from a table of numbers with the same width. -/
theorem drop_flatMap_fixed {β : Type u} {encode : β → List α} {width : Nat}
    (hwidth : ∀ b, (encode b).length = width) (table : List β) (k : Nat) :
    (table.flatMap encode).drop (width * k) = (table.drop k).flatMap encode := by
  induction k generalizing table with
  | zero => rfl
  | succ k ih =>
    cases table with
    | nil => simp
    | cons b table =>
      rw [List.drop_succ_cons, ← ih table, List.flatMap_cons, Nat.mul_succ, Nat.add_comm,
        ← hwidth b, ← List.drop_drop, List.drop_left]

theorem length_flatMap_fixed {β : Type u} {encode : β → List α} {width : Nat}
    (hwidth : ∀ b, (encode b).length = width) (table : List β) :
    (table.flatMap encode).length = table.length * width := by
  induction table with
  | nil => simp
  | cons b table ih =>
    rw [List.flatMap_cons, List.length_append, hwidth, ih, List.length_cons, Nat.succ_mul]
    omega

end PieceOffsets
