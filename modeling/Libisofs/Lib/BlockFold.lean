import Mathlib.Data.List.Basic

/-!
# Folding over blocks

A sequence is cut into blocks of equal size, and a state takes up one block after the other.
What does not fill a block is the rest. If more elements arrive, then the rest comes first.
-/

namespace BlockFold

variable {σ α : Type} (f : σ → List α → σ) (size : Nat)

/-- The state after a number of blocks. -/
def foldBlocks : Nat → σ → List α → σ
  | 0, s, _ => s
  | n + 1, s, xs => foldBlocks n (f s (xs.take size)) (xs.drop size)

/-- The state after all complete blocks. -/
def run (s : σ) (xs : List α) : σ := foldBlocks f size (xs.length / size) s xs

/-- What is left of the last block. -/
def rest (xs : List α) : List α := xs.drop (size * (xs.length / size))

theorem length_rest (xs : List α) : (rest size xs).length = xs.length % size := by
  have := Nat.div_add_mod xs.length size
  rw [rest, List.length_drop]
  omega

theorem foldBlocks_add (m n : Nat) (s : σ) (xs : List α) :
    foldBlocks f size (m + n) s xs =
      foldBlocks f size n (foldBlocks f size m s xs) (xs.drop (size * m)) := by
  induction m generalizing s xs with
  | zero => simp [foldBlocks]
  | succ m ih =>
    rw [Nat.succ_add, foldBlocks, ih, foldBlocks, List.drop_drop, Nat.mul_succ, Nat.add_comm size]

theorem foldBlocks_append (n : Nat) (s : σ) (xs ys : List α) (h : size * n ≤ xs.length) :
    foldBlocks f size n s (xs ++ ys) = foldBlocks f size n s xs := by
  induction n generalizing s xs with
  | zero => rfl
  | succ n ih =>
    rw [Nat.mul_succ] at h
    have hfirst : size ≤ xs.length := by omega
    rw [foldBlocks, foldBlocks, List.take_append_of_le_length hfirst,
      List.drop_append_of_le_length hfirst]
    exact ih _ _ (by rw [List.length_drop]; omega)

variable {size}

theorem drop_append_rest (xs ys : List α) :
    (xs ++ ys).drop (size * (xs.length / size)) = rest size xs ++ ys :=
  List.drop_append_of_le_length (Nat.mul_div_le ..)

theorem run_short (s : σ) (xs : List α) (h : xs.length < size) : run f size s xs = s := by
  rw [run, Nat.div_eq_of_lt h]
  rfl

theorem rest_short (xs : List α) (h : xs.length < size) : rest size xs = xs := by
  rw [rest, Nat.div_eq_of_lt h]
  rfl

variable (hsize : 0 < size)

include hsize

theorem length_append_div (xs ys : List α) :
    (xs ++ ys).length / size = xs.length / size + (rest size xs ++ ys).length / size := by
  have hdiv := Nat.div_add_mod xs.length size
  have hsum : xs.length + ys.length =
      (xs.length % size + ys.length) + size * (xs.length / size) := by omega
  rw [List.length_append, List.length_append, length_rest, hsum, Nat.add_mul_div_left _ _ hsize,
    Nat.add_comm]

/-- The rest and the new elements follow the blocks which are already taken up. -/
theorem run_append (s : σ) (xs ys : List α) :
    run f size s (xs ++ ys) = run f size (run f size s xs) (rest size xs ++ ys) := by
  rw [run, length_append_div hsize, foldBlocks_add, drop_append_rest,
    foldBlocks_append f size _ _ _ _ (Nat.mul_div_le ..)]
  rfl

theorem rest_append (xs ys : List α) : rest size (xs ++ ys) = rest size (rest size xs ++ ys) := by
  rw [rest, length_append_div hsize, Nat.mul_add, ← List.drop_drop, drop_append_rest]
  rfl

theorem run_block (s : σ) (block xs : List α) (h : block.length = size) :
    run f size s (block ++ xs) = run f size (f s block) xs := by
  have hcount : (block ++ xs).length / size = xs.length / size + 1 := by
    rw [List.length_append, h, Nat.add_div_left _ hsize]
  rw [run, hcount, foldBlocks, List.take_left' h, List.drop_left' h]
  rfl

theorem rest_block (block xs : List α) (h : block.length = size) :
    rest size (block ++ xs) = rest size xs := by
  have hcount : (block ++ xs).length / size = xs.length / size + 1 := by
    rw [List.length_append, h, Nat.add_div_left _ hsize]
  rw [rest, hcount, Nat.mul_succ, Nat.add_comm, ← List.drop_drop, List.drop_left' h]
  rfl

end BlockFold
