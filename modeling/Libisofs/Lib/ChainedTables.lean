import Mathlib.Data.List.Perm.Basic

/-!
# Hash tables with chaining

The keys of a table are pointers. Elements with equal contents of their keys may coexist. Such
an element can be removed by its pointer alone, as long as no other one has the same pointer.
-/

namespace ChainedTables

universe u

variable {Key : Type u}

/-- A pointer to a key, and what is there. -/
structure KeyPtr (Key : Type u) where
  ptr : Nat
  key : Key

structure Table (Key : Type u) where
  cap : Nat
  hash : Key → Nat
  slots : Nat → List (KeyPtr Key)

section Operations

def create (cap : Nat) (hash : Key → Nat) : Table Key := ⟨cap, hash, fun _ => []⟩

def Table.slot (t : Table Key) (key : Key) : Nat := t.hash key % t.cap

def Table.add (t : Table Key) (k : KeyPtr Key) : Table Key :=
  { t with slots := Function.update t.slots (t.slot k.key) (k :: t.slots (t.slot k.key)) }

/-- Whether there is an element with such contents of the key. -/
def Table.get [DecidableEq Key] (t : Table Key) (key : Key) : Bool :=
  (t.slots (t.slot key)).any fun k => k.key = key

/-- The first element with this pointer gets removed from its chain. -/
def Table.removePtr (t : Table Key) (k : KeyPtr Key) : Table Key :=
  let rest := (t.slots (t.slot k.key)).eraseP fun other => other.ptr = k.ptr
  { t with slots := Function.update t.slots (t.slot k.key) rest }

end Operations

/-- The elements of the table, each in the chain of its key. -/
def Holds (t : Table Key) (elements : List (KeyPtr Key)) : Prop :=
  ∀ i, (t.slots i).Perm (elements.filter fun k => t.slot k.key = i)

variable {t : Table Key} {elements others : List (KeyPtr Key)} {k : KeyPtr Key}

theorem holds_create (cap : Nat) (hash : Key → Nat) : Holds (create cap hash) [] :=
  fun _ => .nil

theorem Holds.perm (h : Holds t elements) (hperm : elements.Perm others) : Holds t others :=
  fun i => (h i).trans (hperm.filter _)

theorem Holds.add (h : Holds t elements) : Holds (t.add k) (k :: elements) := by
  intro i
  change (Function.update t.slots (t.slot k.key) (k :: t.slots (t.slot k.key)) i).Perm
    ((k :: elements).filter fun other => t.slot other.key = i)
  by_cases hi : i = t.slot k.key
  · subst hi
    rw [Function.update_self, List.filter_cons_of_pos (by simp)]
    exact (h _).cons k
  · rw [Function.update_of_ne hi, List.filter_cons_of_neg (by simpa using fun heq => hi heq.symm)]
    exact h i

/-- An element is removed, if no other one has its pointer. -/
theorem Holds.removePtr (h : Holds t (k :: elements))
    (hother : ∀ other ∈ elements, other.ptr ≠ k.ptr) : Holds (t.removePtr k) elements := by
  intro i
  change (Function.update t.slots (t.slot k.key)
    ((t.slots (t.slot k.key)).eraseP fun other => other.ptr = k.ptr) i).Perm
      (elements.filter fun other => t.slot other.key = i)
  by_cases hi : i = t.slot k.key
  · subst hi
    have hchain := h (t.slot k.key)
    rw [List.filter_cons_of_pos (by simp)] at hchain
    rw [Function.update_self]
    have hrest : ∀ other ∈ elements.filter fun other => t.slot other.key = t.slot k.key,
        decide (other.ptr = k.ptr) = true → False := fun other hmem heq =>
      hother other (List.mem_of_mem_filter hmem) (of_decide_eq_true heq)
    have hsingle : (k :: elements.filter fun other => t.slot other.key = t.slot k.key).Pairwise
        fun a b => decide (a.ptr = k.ptr) = true → decide (b.ptr = k.ptr) = true → False := by
      rw [List.pairwise_cons]
      constructor
      · exact fun other hmem _ => hrest other hmem
      · exact List.pairwise_of_forall_mem_list fun a ha _ _ heq _ => hrest a ha heq
    have herase := List.Perm.eraseP (fun other => decide (other.ptr = k.ptr)) hsingle hchain.symm
    rw [List.eraseP_cons_of_pos (by simp)] at herase
    exact herase.symm
  · rw [Function.update_of_ne hi]
    have hchain := h i
    rwa [List.filter_cons_of_neg (by simpa using fun heq => hi heq.symm)] at hchain

section Found

variable [DecidableEq Key] {key : Key}

/-- Removing brings no key into the table. -/
theorem get_of_get_removePtr (h : (t.removePtr k).get key = true) : t.get key = true := by
  rw [Table.get, List.any_eq_true] at h ⊢
  obtain ⟨found, hfound, heq⟩ := h
  refine ⟨found, ?_, heq⟩
  change found ∈ Function.update t.slots (t.slot k.key) _ (t.slot key) at hfound
  by_cases hslot : t.slot key = t.slot k.key
  · rw [hslot, Function.update_self] at hfound
    rw [hslot]
    exact List.mem_of_mem_eraseP hfound
  · rwa [Function.update_of_ne hslot] at hfound

theorem get_of_get_add (h : (t.add k).get key = true) : key = k.key ∨ t.get key = true := by
  rw [Table.get, List.any_eq_true] at h
  obtain ⟨found, hfound, heq⟩ := h
  change found ∈ Function.update t.slots (t.slot k.key) _ (t.slot key) at hfound
  by_cases hslot : t.slot key = t.slot k.key
  · rw [hslot, Function.update_self] at hfound
    rcases List.mem_cons.mp hfound with rfl | hold
    · exact Or.inl (of_decide_eq_true heq).symm
    · refine Or.inr ?_
      rw [Table.get, List.any_eq_true, hslot]
      exact ⟨found, hold, heq⟩
  · rw [Function.update_of_ne hslot] at hfound
    refine Or.inr ?_
    rw [Table.get, List.any_eq_true]
    exact ⟨found, hfound, heq⟩

end Found

end ChainedTables
