import Mathlib.Data.List.Basic
import Mathlib.Algebra.Ring.Nat

/-!
# Consecutive layout

Items of known lengths are placed one behind the other. Their ranges do not overlap,
stay inside the total, and tell where the content of an item appears if all contents
are written in the same order.
-/

namespace ConsecutiveLayout

universe u v
variable {α : Type u} {β : Type v} (len : α → Nat)

/-- Each item with its start address. -/
def place (start : Nat) : List α → List (α × Nat)
  | [] => []
  | a :: as => (a, start) :: place (start + len a) as

def total (as : List α) : Nat := (as.map len).sum

@[simp] theorem total_nil : total len [] = 0 := rfl

@[simp] theorem total_cons (a : α) (as : List α) :
    total len (a :: as) = len a + total len as := by
  simp [total]

theorem total_append (as bs : List α) : total len (as ++ bs) = total len as + total len bs := by
  simp [total]

theorem total_le {n : Nat} {as : List α} (h : ∀ a ∈ as, len a ≤ n) :
    total len as ≤ as.length * n := by
  induction as with
  | nil => simp
  | cons a as ih =>
    have hrest := ih fun b hb => h b (List.mem_cons_of_mem a hb)
    have hfirst := h a (List.mem_cons_self ..)
    rw [total_cons, List.length_cons, Nat.succ_mul]
    omega

theorem place_append (start : Nat) (as bs : List α) :
    place len start (as ++ bs) = place len start as ++ place len (start + total len as) bs := by
  induction as generalizing start with
  | nil => simp [place]
  | cons a as ih => simp [place, ih, Nat.add_assoc]

theorem place_map_fst (start : Nat) (as : List α) : (place len start as).map Prod.fst = as := by
  induction as generalizing start with
  | nil => rfl
  | cons a as ih => simp [place, ih]

variable {len} {start : Nat} {as : List α}

/-- All ranges lie inside the range of the whole. -/
theorem place_range {p : α × Nat} (hmem : p ∈ place len start as) :
    start ≤ p.2 ∧ p.2 + len p.1 ≤ start + total len as := by
  induction as generalizing start with
  | nil => simp [place] at hmem
  | cons a as ih =>
    rcases List.mem_cons.mp hmem with rfl | htail
    · simp only [total_cons]
      omega
    · have := ih htail
      simp only [total_cons]
      omega

/-- Each range ends before the next ones begin. -/
theorem place_disjoint :
    (place len start as).Pairwise fun p q => p.2 + len p.1 ≤ q.2 := by
  induction as generalizing start with
  | nil => exact List.Pairwise.nil
  | cons a as ih =>
    refine List.pairwise_cons.mpr ⟨?_, ih⟩
    intro q hq
    exact (place_range hq).1

theorem length_flatMap_blocks {blocks : α → List β} (hlen : ∀ a, (blocks a).length = len a)
    (as : List α) : (as.flatMap blocks).length = total len as := by
  simp [total, List.length_flatMap, hlen]

/-- The content of an item stands at its range. -/
theorem place_written {blocks : α → List β} (hlen : ∀ a, (blocks a).length = len a)
    {p : α × Nat} (hmem : p ∈ place len start as) {i : Nat} (hi : i < len p.1) :
    (as.flatMap blocks)[p.2 - start + i]? = (blocks p.1)[i]? := by
  induction as generalizing start with
  | nil => simp [place] at hmem
  | cons a as ih =>
    rw [List.flatMap_cons]
    rcases List.mem_cons.mp hmem with rfl | htail
    · simp only [Nat.sub_self, Nat.zero_add]
      exact List.getElem?_append_left (by rw [hlen]; exact hi)
    · have hstart := (place_range htail).1
      rw [List.getElem?_append_right (by rw [hlen]; omega), hlen, ← ih htail]
      congr 1
      omega

/-- What is made of the placed items, item by item, is placed the same way. -/
theorem place_map {F : α × Nat → β} {len' : β → Nat}
    (hlen : ∀ p, p.1 ∈ as → len' (F p) = len p.1) :
    place len' start ((place len start as).map F) =
      (place len start as).map fun p => (F p, p.2) := by
  induction as generalizing start with
  | nil => rfl
  | cons a as ih =>
    have htail := @ih (start + len a) fun p hp => hlen p (List.mem_cons_of_mem _ hp)
    simp only [place, List.map_cons, hlen (a, start) List.mem_cons_self, htail]

/-- The last item which needs space ends where the whole ends. -/
theorem place_last (hpos : 0 < total len as) :
    ∃ p ∈ place len start as, 0 < len p.1 ∧ p.2 + len p.1 = start + total len as := by
  induction as generalizing start with
  | nil => simp at hpos
  | cons a as ih =>
    by_cases htail : 0 < total len as
    · obtain ⟨p, hmem, hlen, hend⟩ := ih htail
      exact ⟨p, List.mem_cons_of_mem _ hmem, hlen, by rw [hend, total_cons]; omega⟩
    · rw [total_cons] at hpos ⊢
      exact ⟨(a, start), List.mem_cons_self, by simp only; omega, by simp only; omega⟩

end ConsecutiveLayout
