import Libisofs.Lib.Layout

/-!
# Packing of items into blocks

Items are put one behind the other into blocks of a fixed size. An item which does not fit
into the rest of its block begins the next block. The number of blocks can be predicted
from the lengths of the items alone.
-/

namespace BlockPacking

open ConsecutiveLayout

universe u
variable {α : Type u} (size : Nat) (len : α → Nat)

/-- The blocks with their items. `done` are those which are finished. -/
def pack : (done : List (List α)) → (cur : List α) → List α → List (List α)
  | done, cur, [] => done ++ [cur]
  | done, cur, x :: rest =>
    if size < total len cur + len x then pack (done ++ [cur]) [x] rest
    else pack done (cur ++ [x]) rest

/-- The length up to the end of the last item, with the gaps at the block ends. -/
def predict : (used : Nat) → List Nat → Nat
  | used, [] => used
  | used, n :: rest =>
    if size - used % size < n then predict (used + (size - used % size + n)) rest
    else predict (used + n) rest

def roundUp (n : Nat) : Nat := (n + size - 1) / size * size

theorem pack_flatten (done : List (List α)) (cur rest : List α) :
    (pack size len done cur rest).flatten = done.flatten ++ cur ++ rest := by
  induction rest generalizing done cur with
  | nil => simp [pack]
  | cons x rest ih =>
    rw [pack]
    split
    · simp [ih]
    · simp [ih]

theorem pack_done (done : List (List α)) (cur rest : List α) :
    pack size len done cur rest = done ++ pack size len [] cur rest := by
  induction rest generalizing done cur with
  | nil => rfl
  | cons x rest ih =>
    simp only [pack]
    split
    · rw [ih, ih ([] ++ [cur]), List.nil_append, List.append_assoc]
    · exact ih done (cur ++ [x])

/-- The first block begins by the items which are there already. -/
theorem pack_first (cur rest : List α) :
    ∃ more later, pack size len [] cur rest = (cur ++ more) :: later := by
  induction rest generalizing cur with
  | nil => exact ⟨[], [], by rw [List.append_nil]; rfl⟩
  | cons x rest ih =>
    rw [pack]
    split
    · refine ⟨[], pack size len [] [x] rest, ?_⟩
      rw [pack_done, List.append_nil]
      rfl
    · obtain ⟨more, later, heq⟩ := ih (cur ++ [x])
      exact ⟨x :: more, later, by rw [heq, List.append_assoc]; rfl⟩

/-- Items which fit into one block get into one block. -/
theorem pack_single {cur rest : List α} (h : total len (cur ++ rest) ≤ size) :
    pack size len [] cur rest = [cur ++ rest] := by
  induction rest generalizing cur with
  | nil => simp [pack]
  | cons x rest ih =>
    have hx : ¬ size < total len cur + len x := by
      rw [total_append, total_cons] at h
      omega
    rw [pack, if_neg hx, ih (by rwa [List.append_assoc]), List.append_assoc]
    rfl

/-- No item crosses the end of its block. -/
theorem pack_fit {done : List (List α)} {cur rest : List α}
    (hdone : ∀ g ∈ done, total len g ≤ size) (hcur : total len cur ≤ size)
    (hrest : ∀ x ∈ rest, len x ≤ size) : ∀ g ∈ pack size len done cur rest, total len g ≤ size := by
  induction rest generalizing done cur with
  | nil =>
    intro g hg
    rcases List.mem_append.mp hg with h | h
    · exact hdone g h
    · exact List.mem_singleton.mp h ▸ hcur
  | cons x rest ih =>
    have htail : ∀ y ∈ rest, len y ≤ size := fun y hy => hrest y (List.mem_cons_of_mem _ hy)
    rw [pack]
    split
    · refine ih (fun g hg => ?_) ?_ htail
      · rcases List.mem_append.mp hg with h | h
        · exact hdone g h
        · exact List.mem_singleton.mp h ▸ hcur
      · simpa using hrest x List.mem_cons_self
    · refine ih hdone ?_ htail
      rw [total_append]
      simp only [total_cons, total_nil]
      omega

variable {size len}

theorem mul_add_mod_of_lt {blocks used : Nat} (hlt : used < size) :
    (size * blocks + used) % size = used := by
  rw [Nat.mul_add_mod, Nat.mod_eq_of_lt hlt]

/-- The prediction counts whole blocks for those which are finished. -/
theorem predict_eq_pack {done : List (List α)} {cur rest : List α} (hpos : 0 < total len cur)
    (hcur : total len cur ≤ size) (hrest : ∀ x ∈ rest, 0 < len x ∧ len x ≤ size) :
    ∃ used, 0 < used ∧ used ≤ size ∧
      predict size (size * done.length + total len cur) (rest.map len) + size =
        size * (pack size len done cur rest).length + used := by
  induction rest generalizing done cur with
  | nil =>
    refine ⟨total len cur, hpos, hcur, ?_⟩
    simp only [List.map_nil, predict, pack, List.length_append, List.length_singleton, Nat.mul_add,
      Nat.mul_one]
    omega
  | cons x rest ih =>
    obtain ⟨hx, hxle⟩ := hrest x List.mem_cons_self
    have htail : ∀ y ∈ rest, 0 < len y ∧ len y ≤ size :=
      fun y hy => hrest y (List.mem_cons_of_mem _ hy)
    -- a block which is exactly full counts as an empty one
    have hremain : size - (size * done.length + total len cur) % size =
        if total len cur = size then size else size - total len cur := by
      by_cases hfull : total len cur = size
      · rw [if_pos hfull, hfull, ← Nat.mul_succ, Nat.mul_mod_right, Nat.sub_zero]
      · rw [if_neg hfull, mul_add_mod_of_lt (by omega)]
    have hstart : total len [x] = len x := by simp
    by_cases hfit : size < total len cur + len x
    · obtain ⟨used, hused, hle, heq⟩ :=
        @ih (done ++ [cur]) [x] (by omega) (by omega) htail
      refine ⟨used, hused, hle, ?_⟩
      rw [hstart, List.length_append, List.length_singleton, Nat.mul_add, Nat.mul_one] at heq
      rw [pack, if_pos hfit, ← heq, List.map_cons, predict, hremain]
      by_cases hfull : total len cur = size
      · rw [if_pos hfull, if_neg (by omega), hfull]
      · rw [if_neg hfull, if_pos (by omega)]
        congr 2
        omega
    · obtain ⟨used, hused, hle, heq⟩ :=
        @ih done (cur ++ [x]) (by rw [total_append]; omega) (by rw [total_append, hstart]; omega)
          htail
      refine ⟨used, hused, hle, ?_⟩
      have hroom : ¬ size - (size * done.length + total len cur) % size < len x := by
        rw [hremain]
        split
        · omega
        · omega
      rw [total_append, hstart, ← Nat.add_assoc] at heq
      rw [pack, if_neg hfit, ← heq, List.map_cons, predict, if_neg hroom]

theorem le_predict (used : Nat) (lens : List Nat) : used ≤ predict size used lens := by
  induction lens generalizing used with
  | nil => exact Nat.le_refl used
  | cons n rest ih =>
    rw [predict]
    split
    · exact Nat.le_trans (by omega) (ih _)
    · exact Nat.le_trans (by omega) (ih _)

/-- The prediction, rounded up, is the size of all blocks together. -/
theorem roundUp_predict {first rest : List α} (hpos : 0 < total len first)
    (hfirst : total len first ≤ size) (hrest : ∀ x ∈ rest, 0 < len x ∧ len x ≤ size) :
    roundUp size (predict size (total len first) (rest.map len)) =
      size * (pack size len [] first rest).length := by
  obtain ⟨used, hused, hle, heq⟩ := @predict_eq_pack _ size len [] first rest hpos hfirst hrest
  rw [List.length_nil, Nat.mul_zero, Nat.zero_add] at heq
  have hexact : predict size (total len first) (rest.map len) + size - 1 =
      size * (pack size len [] first rest).length + (used - 1) := by omega
  rw [roundUp, hexact, Nat.mul_add_div (by omega), Nat.div_eq_of_lt (by omega), Nat.add_zero,
    Nat.mul_comm]

end BlockPacking
