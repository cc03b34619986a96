import Mathlib.Data.Fintype.Card
import Mathlib.Data.Finset.Card

/-!
# Slots

A finite number of slots, each of them free or taken. Tenants get put into free slots. The
same tenant may be put more than once, and then it has as many slots.
-/

namespace Slots

variable {ι α : Type} [Fintype ι] [DecidableEq ι] [DecidableEq α]

def put (slots : ι → Option α) (slot : ι) (tenant : α) : ι → Option α := fun i =>
  if i = slot then some tenant else slots i

def taken (slots : ι → Option α) : Finset ι := {i | (slots i).isSome}

def heldBy (slots : ι → Option α) (tenant : α) : Finset ι := {i | slots i = some tenant}

variable {slots : ι → Option α} {slot : ι} {tenant other : α}

omit [DecidableEq ι] [DecidableEq α] in
@[simp] theorem mem_taken {i : ι} : i ∈ taken slots ↔ (slots i).isSome = true := by
  rw [taken, Finset.mem_filter_univ]

omit [DecidableEq ι] in
@[simp] theorem mem_heldBy {i : ι} : i ∈ heldBy slots tenant ↔ slots i = some tenant := by
  rw [heldBy, Finset.mem_filter_univ]

omit [Fintype ι] [DecidableEq α] in
theorem put_self : put slots slot tenant slot = some tenant := if_pos rfl

omit [Fintype ι] [DecidableEq α] in
theorem put_ne {i : ι} (h : i ≠ slot) : put slots slot tenant i = slots i := if_neg h

omit [Fintype ι] [DecidableEq α] in
/-- Who has a slot keeps it. -/
theorem put_keeps (hfree : slots slot = none) {i : ι} (h : slots i = some other) :
    put slots slot tenant i = some other := by
  rw [put_ne, h]
  rintro rfl
  rw [hfree] at h
  cases h

omit [DecidableEq α] in
theorem card_taken_put (hfree : slots slot = none) :
    (taken (put slots slot tenant)).card = (taken slots).card + 1 := by
  have hinsert : taken (put slots slot tenant) = insert slot (taken slots) := by
    ext i
    by_cases h : i = slot
    · simp [put, h]
    · simp [put, h]
  rw [hinsert, Finset.card_insert_of_notMem]
  simp [hfree]

theorem card_heldBy_put (hfree : slots slot = none) :
    (heldBy (put slots slot tenant) other).card =
      (heldBy slots other).card + if tenant = other then 1 else 0 := by
  split
  next heq =>
    have hinsert : heldBy (put slots slot tenant) other = insert slot (heldBy slots other) := by
      ext i
      by_cases h : i = slot
      · simp [put, h, heq]
      · simp [put, h]
    rw [hinsert, Finset.card_insert_of_notMem]
    simp [hfree]
  next hne =>
    congr 1
    ext i
    by_cases h : i = slot
    · simp [put, h, hne, hfree]
    · simp [put, h]

omit [DecidableEq ι] [DecidableEq α] in
/-- If not all slots are taken, then there is a free one. -/
theorem exists_free (h : (taken slots).card < Fintype.card ι) : ∃ i, slots i = none := by
  by_contra hfull
  have hall : taken slots = Finset.univ := by
    ext i
    have hsome := Option.isSome_iff_ne_none.mpr fun hnone => hfull ⟨i, hnone⟩
    simp [hsome]
  rw [hall, Finset.card_univ] at h
  exact Nat.lt_irrefl _ h

omit [DecidableEq ι] in
theorem existsUnique_of_card (h : (heldBy slots tenant).card = 1) :
    ∃! i, slots i = some tenant := by
  obtain ⟨i, hi⟩ := Finset.card_eq_one.mp h
  have hmem : ∀ j, slots j = some tenant ↔ j = i := fun j => by
    have := Finset.ext_iff.mp hi j
    simpa using this
  exact ⟨i, (hmem i).mpr rfl, fun j hj => (hmem j).mp hj⟩

/-- Some tenants have got slots which were free, one after the other. -/
structure Housed (slots : ι → Option α) (tenants : List α) (slots' : ι → Option α) : Prop where
  keeps : ∀ i a, slots i = some a → slots' i = some a
  held : ∀ a, (heldBy slots' a).card = (heldBy slots a).card + tenants.count a
  taken : (taken slots').card = (taken slots).card + tenants.length

omit [DecidableEq ι] in
theorem Housed.nil : Housed slots [] slots where
  keeps _ _ h := h
  held _ := rfl
  taken := rfl

variable {slots₁ slots₂ : ι → Option α} {tenants others : List α}

theorem Housed.cons (hfree : slots slot = none)
    (h : Housed (put slots slot tenant) tenants slots₁) : Housed slots (tenant :: tenants) slots₁ where
  keeps i a hi := h.keeps i a (put_keeps hfree hi)
  held a := by
    rw [h.held, card_heldBy_put hfree, List.count_cons]
    simp only [beq_iff_eq]
    omega
  taken := by
    rw [h.taken, card_taken_put hfree, List.length_cons]
    omega

omit [DecidableEq ι] in
theorem Housed.append (h : Housed slots tenants slots₁) (h' : Housed slots₁ others slots₂) :
    Housed slots (tenants ++ others) slots₂ where
  keeps i a hi := h'.keeps i a (h.keeps i a hi)
  held a := by
    rw [h'.held, h.held, List.count_append, Nat.add_assoc]
  taken := by
    rw [h'.taken, h.taken, List.length_append, Nat.add_assoc]

omit [DecidableEq ι] in
/-- Nobody has a slot, in the beginning. -/
theorem Housed.from_free (h : Housed (fun _ => none) tenants slots₁) {a : α} :
    (heldBy slots₁ a).card = tenants.count a := by
  have hnone : heldBy (fun _ : ι => (none : Option α)) a = ∅ := by
    ext i
    simp
  rw [h.held, hnone, Finset.card_empty, Nat.zero_add]

end Slots
