import Mathlib.Data.List.OfFn
import Mathlib.Data.List.Infix

/-!
# Ring stores

A flat memory of `cap` cells read as a queue: the queue starts at cell `rpos` and
wraps at `cap`. Chunks are stored and loaded at one piece of memory each, so a
chunk never crosses the end. Cells outside of the queue are unrestricted.
-/

namespace RingStore

universe u
variable {α : Type u}

/-- Copy `xs` over the cells from `pos` on, as memcpy does. -/
def store (mem : Nat → α) (pos : Nat) (xs : List α) : Nat → α :=
  fun i => if h : pos ≤ i ∧ i - pos < xs.length then xs.get ⟨i - pos, h.2⟩ else mem i

/-- The `len` cells from `pos` on. -/
def load (mem : Nat → α) (pos len : Nat) : List α :=
  List.ofFn (fun i : Fin len => mem (pos + i))

/-- The queue of `size` cells which starts at `rpos` and wraps at `cap`. -/
def contents (mem : Nat → α) (cap rpos size : Nat) : List α :=
  List.ofFn (fun i : Fin size => mem ((rpos + i) % cap))

@[simp] theorem load_length (mem : Nat → α) (pos len : Nat) :
    (load mem pos len).length = len := by
  simp [load]

@[simp] theorem contents_length (mem : Nat → α) (cap rpos size : Nat) :
    (contents mem cap rpos size).length = size := by
  simp [contents]

theorem contents_get (mem : Nat → α) (cap rpos size i : Nat)
    (h : i < (contents mem cap rpos size).length) :
    (contents mem cap rpos size)[i] = mem ((rpos + i) % cap) := by
  simp [contents]

theorem store_inside (mem : Nat → α) (pos : Nat) (xs : List α) (i : Nat)
    (h : i < xs.length) : store mem pos xs (pos + i) = xs[i] := by
  simp [store, h]

theorem store_outside (mem : Nat → α) (pos : Nat) (xs : List α) (i : Nat)
    (h : i < pos ∨ pos + xs.length ≤ i) : store mem pos xs i = mem i := by
  simp only [store]
  split
  · omega
  · rfl

/-- Two offsets less than one turn apart fall into different cells. -/
theorem offset_ne {cap a b : Nat} (hab : a < b) (hturn : b < a + cap) :
    a % cap ≠ b % cap := by
  intro heq
  have hdvd : cap ∣ b - a :=
    Nat.dvd_of_mod_eq_zero (Nat.sub_mod_eq_zero_of_mod_eq heq.symm)
  have := Nat.le_of_dvd (by omega) hdvd
  omega

/-- A cell of a chunk which starts at `(rpos + size) % cap` and does not wrap. -/
theorem chunk_cell {cap p i len : Nat} (hfit : p % cap + len ≤ cap) (hi : i < len) :
    (p + i) % cap = p % cap + i := by
  rw [Nat.add_mod, Nat.mod_eq_of_lt (show i < cap by omega)]
  exact Nat.mod_eq_of_lt (by omega)

/-- Storing a chunk behind the queue appends it. -/
theorem contents_store (mem : Nat → α) (cap rpos size : Nat) (xs : List α)
    (hroom : size + xs.length ≤ cap) (hfit : (rpos + size) % cap + xs.length ≤ cap) :
    contents (store mem ((rpos + size) % cap) xs) cap rpos (size + xs.length) =
      contents mem cap rpos size ++ xs := by
  apply List.ext_getElem (by simp)
  intro i h₁ h₂
  have hi : i < size + xs.length := by simpa using h₁
  rw [contents_get]
  by_cases hold : i < size
  · rw [List.getElem_append_left (by simpa using hold), contents_get]
    -- an old cell is less than one turn before each cell of the chunk
    apply store_outside
    by_contra hin
    have hcell := chunk_cell hfit (show (rpos + i) % cap - (rpos + size) % cap < xs.length by omega)
    have hsame : (rpos + size + ((rpos + i) % cap - (rpos + size) % cap)) % cap
        = (rpos + i) % cap := by omega
    exact offset_ne (show rpos + i < _ by omega) (by omega) hsame.symm
  · have hnew : i - size < xs.length := by omega
    rw [List.getElem_append_right (by simpa using Nat.le_of_not_lt hold)]
    have hcell := chunk_cell hfit hnew
    have hpos : (rpos + i) % cap = (rpos + size) % cap + (i - size) := by
      rw [← hcell]
      congr 1
      omega
    rw [hpos, store_inside _ _ _ _ hnew]
    simp

/-- Loading a chunk from the start of the queue splits it off. -/
theorem contents_load (mem : Nat → α) (cap rpos size len : Nat)
    (hlen : len ≤ size) (hfit : rpos % cap + len ≤ cap) :
    contents mem cap rpos size =
      load mem (rpos % cap) len ++ contents mem cap ((rpos + len) % cap) (size - len) := by
  apply List.ext_getElem (by simp; omega)
  intro i h₁ h₂
  have hi : i < size := by simpa using h₁
  rw [contents_get]
  by_cases hin : i < len
  · rw [List.getElem_append_left (by simpa using hin), chunk_cell hfit hin]
    simp [load]
  · rw [List.getElem_append_right (by simpa using Nat.le_of_not_lt hin)]
    rw [contents_get]
    simp only [load_length, Nat.mod_add_mod]
    congr 2
    omega

end RingStore
