import Mathlib.Data.List.Nodup
import Mathlib.Logic.Function.Basic

/-!
# Linked lists in cells

A cell holds a node or nothing: it is the head of a list or the link of a node to the next
one, which is given by `after`. Walks go from cell to cell, as programs do by pointers to
pointers. Edits of a list write the cell where the walk stopped.
-/

namespace CellLists

variable {Cell Node : Type*} (after : Node → Cell)

/-- From the cell on come exactly these nodes. -/
def Chain (cell : Cell → Option Node) : Cell → List Node → Prop
  | k, [] => cell k = none
  | k, n :: l => cell k = some n ∧ Chain cell (after n) l

/-- The cell behind some nodes. -/
def endCell : Cell → List Node → Cell
  | k, [] => k
  | _, n :: l => endCell (after n) l

/-- Walk on while the node in the cell fulfils the condition. None is for a walk which has
not ended after the given number of steps. -/
def seek (cell : Cell → Option Node) (p : Node → Bool) : Nat → Cell → Option Cell
  | 0, _ => none
  | steps + 1, k =>
    match cell k with
    | none => some k
    | some n => if p n then seek cell p steps (after n) else some k

/-- The nodes which a walk to the end of the list meets. -/
def toList (cell : Cell → Option Node) : Nat → Cell → Option (List Node)
  | 0, _ => none
  | steps + 1, k =>
    match cell k with
    | none => some []
    | some n => (toList cell steps (after n)).map (n :: ·)

variable {after} {cell cell' : Cell → Option Node} {k k' : Cell} {n : Node}
  {l l₁ l₂ : List Node}

theorem endCell_append (k : Cell) (l₁ l₂ : List Node) :
    endCell after k (l₁ ++ l₂) = endCell after (endCell after k l₁) l₂ := by
  induction l₁ generalizing k with
  | nil => rfl
  | cons n l ih => exact ih (after n)

theorem endCell_concat (k : Cell) (l : List Node) (n : Node) :
    endCell after k (l ++ [n]) = after n := by
  rw [endCell_append]
  rfl

/-- The cell behind some nodes is the first cell or the link of one of them. -/
theorem endCell_cases (k : Cell) (l : List Node) :
    l = [] ∧ endCell after k l = k ∨
      ∃ l' n, l = l' ++ [n] ∧ endCell after k l = after n := by
  rcases List.eq_nil_or_concat' l with rfl | ⟨l', n, rfl⟩
  · exact Or.inl ⟨rfl, rfl⟩
  · exact Or.inr ⟨l', n, rfl, endCell_concat k l' n⟩

theorem endCell_mem (k : Cell) (l : List Node) : endCell after k l ∈ k :: l.map after := by
  rcases @endCell_cases _ _ after k l with ⟨rfl, h⟩ | ⟨l', n, rfl, h⟩
  · simp [h]
  · simp [h]

theorem Chain.drop (h : Chain after cell k (l₁ ++ l₂)) :
    Chain after cell (endCell after k l₁) l₂ := by
  induction l₁ generalizing k with
  | nil => exact h
  | cons n l ih => exact ih h.2

theorem Chain.unique (h₁ : Chain after cell k l₁) (h₂ : Chain after cell k l₂) : l₁ = l₂ := by
  induction l₁ generalizing k l₂ with
  | nil =>
    cases l₂ with
    | nil => rfl
    | cons n l => exact absurd (h₁.symm.trans h₂.1) (by simp)
  | cons n l ih =>
    cases l₂ with
    | nil => exact absurd (h₂.symm.trans h₁.1) (by simp)
    | cons m l' =>
      obtain rfl : n = m := Option.some.inj (h₁.1.symm.trans h₂.1)
      rw [ih h₁.2 h₂.2]

/-- A list which ends meets no node twice. -/
theorem Chain.nodup (h : Chain after cell k l) : l.Nodup := by
  induction l generalizing k with
  | nil => exact List.nodup_nil
  | cons n l ih =>
    refine List.nodup_cons.mpr ⟨?_, ih h.2⟩
    intro hmem
    obtain ⟨a, b, rfl⟩ := List.append_of_mem hmem
    have hb : Chain after cell (after n) b := h.2.drop.2
    have heq := Chain.unique h.2 hb
    have hlen := congrArg List.length heq
    simp only [List.length_append, List.length_cons] at hlen
    omega

/-- The same nodes come from a cell with the same content, if their links agree. -/
theorem Chain.move (h : Chain after cell k l) (hk : cell' k' = cell k)
    (hlinks : ∀ n ∈ l, cell' (after n) = cell (after n)) : Chain after cell' k' l := by
  induction l generalizing k k' with
  | nil => exact hk.trans h
  | cons n l ih =>
    exact ⟨hk.trans h.1, ih h.2 (hlinks n List.mem_cons_self)
      fun m hm => hlinks m (List.mem_cons_of_mem n hm)⟩

/-- An edit of the list from the cell behind its first nodes on. -/
theorem Chain.splice (h : Chain after cell k (l₁ ++ l)) (hnodup : (k :: l₁.map after).Nodup)
    (hkeep : ∀ c ∈ k :: l₁.map after, c ≠ endCell after k l₁ → cell' c = cell c)
    (hnew : Chain after cell' (endCell after k l₁) l₂) :
    Chain after cell' k (l₁ ++ l₂) := by
  induction l₁ generalizing k with
  | nil => exact hnew
  | cons n l₁ ih =>
    have hne : k ≠ endCell after (after n) l₁ := by
      intro heq
      have hk := (List.nodup_cons.mp hnodup).1
      rcases @endCell_cases _ _ after (after n) l₁ with ⟨-, hend⟩ | ⟨l', m, rfl, hend⟩
      · exact hk (by simp [heq, hend])
      · exact hk (by simp [heq, hend])
    refine ⟨(hkeep k List.mem_cons_self hne).trans h.1, ?_⟩
    exact ih h.2 (List.nodup_cons.mp hnodup).2
      (fun c hc => hkeep c (List.mem_cons_of_mem k hc)) hnew

theorem seek_eq (p : Node → Bool) {steps : Nat} (h : Chain after cell k l)
    (hsteps : l.length < steps) :
    seek after cell p steps k = some (endCell after k (l.takeWhile p)) := by
  induction l generalizing k steps with
  | nil =>
    obtain ⟨steps, rfl⟩ := Nat.exists_eq_succ_of_ne_zero (Nat.ne_of_gt hsteps)
    have hk : cell k = none := h
    simp [seek, hk, endCell]
  | cons n l ih =>
    obtain ⟨steps, rfl⟩ := Nat.exists_eq_succ_of_ne_zero (Nat.ne_of_gt (Nat.zero_lt_of_lt hsteps))
    rw [seek, h.1]
    cases hp : p n with
    | true =>
      have hrest := ih h.2 (Nat.lt_of_succ_lt_succ hsteps)
      simp [hp, hrest, endCell]
    | false => simp [hp, endCell]

theorem toList_eq {steps : Nat} (h : Chain after cell k l) (hsteps : l.length < steps) :
    toList after cell steps k = some l := by
  induction l generalizing k steps with
  | nil =>
    obtain ⟨steps, rfl⟩ := Nat.exists_eq_succ_of_ne_zero (Nat.ne_of_gt hsteps)
    have hk : cell k = none := h
    simp [toList, hk]
  | cons n l ih =>
    obtain ⟨steps, rfl⟩ := Nat.exists_eq_succ_of_ne_zero (Nat.ne_of_gt (Nat.zero_lt_of_lt hsteps))
    rw [toList, h.1]
    simp [ih h.2 (Nat.lt_of_succ_lt_succ hsteps)]

/-! ## Edits -/

section Edits

variable (hinj : Function.Injective after) (hhead : ∀ n, k ≠ after n)

include hinj hhead

theorem cells_nodup (h : l.Nodup) : (k :: l.map after).Nodup := by
  refine List.nodup_cons.mpr ⟨?_, h.map hinj⟩
  intro hk
  obtain ⟨n, -, hn⟩ := List.mem_map.mp hk
  exact hhead n hn.symm

/-- The link of another node is not where the walk has stopped. -/
theorem endCell_ne (hn : n ∉ l) : endCell after k l ≠ after n := by
  intro heq
  rcases List.mem_cons.mp (heq ▸ endCell_mem k l) with h | h
  · exact hhead n h.symm
  · obtain ⟨m, hm, hmn⟩ := List.mem_map.mp h
    exact hn (hinj hmn ▸ hm)

/-- The list with other nodes behind the first ones, if only the cell where the walk has
stopped and links of nodes which are not among the first ones have changed. -/
theorem Chain.change (h : Chain after cell k (l₁ ++ l))
    (hkeep : ∀ c, c ≠ endCell after k l₁ → (∀ m, m ∉ l₁ → c ≠ after m) → cell' c = cell c)
    (hnew : Chain after cell' (endCell after k l₁) l₂) :
    Chain after cell' k (l₁ ++ l₂) := by
  have hnodup := (List.nodup_append.mp h.nodup).1
  refine h.splice (cells_nodup hinj hhead hnodup) (fun c hc hne => ?_) hnew
  apply hkeep c hne
  rintro m hm rfl
  rcases List.mem_cons.mp hc with heq | hc
  · exact hhead m heq.symm
  · obtain ⟨m', hm', heq⟩ := List.mem_map.mp hc
    exact hm (hinj heq ▸ hm')

variable [DecidableEq Cell]

/-- `*pos = node->next; node->next = NULL` -/
theorem Chain.unlink (h : Chain after cell k (l₁ ++ n :: l₂)) :
    Chain after
      (Function.update (Function.update cell (endCell after k l₁) (cell (after n))) (after n) none)
      k (l₁ ++ l₂) := by
  have hsplit := List.nodup_append.mp h.nodup
  have hn₁ : n ∉ l₁ := fun hn => hsplit.2.2 n hn n List.mem_cons_self rfl
  have hne := endCell_ne hinj hhead hn₁
  refine h.change hinj hhead (fun c hc hother => ?_) (h.drop.2.move ?_ fun m hm => ?_)
  · rw [Function.update_of_ne (hother n hn₁), Function.update_of_ne hc]
  · rw [Function.update_of_ne hne, Function.update_self]
  · have hmn : m ≠ n := fun heq => (List.nodup_cons.mp hsplit.2.1).1 (heq ▸ hm)
    have hm₁ : m ∉ l₁ := fun h => hsplit.2.2 m h m (List.mem_cons_of_mem n hm) rfl
    rw [Function.update_of_ne (fun heq => hmn (hinj heq)),
      Function.update_of_ne (endCell_ne hinj hhead hm₁).symm]

/-- `node->next = *pos; *pos = node` -/
theorem Chain.link (h : Chain after cell k (l₁ ++ l₂)) (hn : n ∉ l₁ ++ l₂) :
    Chain after
      (Function.update (Function.update cell (after n) (cell (endCell after k l₁)))
        (endCell after k l₁) (some n))
      k (l₁ ++ n :: l₂) := by
  have hsplit := List.nodup_append.mp h.nodup
  have hn₁ : n ∉ l₁ := fun h => hn (List.mem_append_left _ h)
  have hne := endCell_ne hinj hhead hn₁
  refine h.change hinj hhead (fun c hc hother => ?_)
    ⟨Function.update_self .., h.drop.move ?_ fun m hm => ?_⟩
  · rw [Function.update_of_ne hc, Function.update_of_ne (hother n hn₁)]
  · rw [Function.update_of_ne hne.symm, Function.update_self]
  · have hmn : m ≠ n := fun heq => hn (heq ▸ List.mem_append_right _ hm)
    have hm₁ : m ∉ l₁ := fun h => hsplit.2.2 m h m hm rfl
    rw [Function.update_of_ne (endCell_ne hinj hhead hm₁).symm,
      Function.update_of_ne (fun heq => hmn (hinj heq))]

/-- `node->next = (*pos)->next; (*pos)->next = NULL; *pos = node` -/
theorem Chain.replace {old : Node} (h : Chain after cell k (l₁ ++ old :: l₂))
    (hn : n ∉ l₁ ++ old :: l₂) :
    Chain after
      (Function.update
        (Function.update (Function.update cell (after n) (cell (after old))) (after old) none)
        (endCell after k l₁) (some n))
      k (l₁ ++ n :: l₂) := by
  have hsplit := List.nodup_append.mp h.nodup
  have hn₁ : n ∉ l₁ := fun h => hn (List.mem_append_left _ h)
  have hold₁ : old ∉ l₁ := fun hold => hsplit.2.2 old hold old List.mem_cons_self rfl
  have hnold : n ≠ old := by
    rintro rfl
    exact hn (List.mem_append_right _ List.mem_cons_self)
  refine h.change hinj hhead (fun c hc hother => ?_)
    ⟨Function.update_self .., h.drop.2.move ?_ fun m hm => ?_⟩
  · rw [Function.update_of_ne hc, Function.update_of_ne (hother old hold₁),
      Function.update_of_ne (hother n hn₁)]
  · rw [Function.update_of_ne (endCell_ne hinj hhead hn₁).symm,
      Function.update_of_ne (fun heq => hnold (hinj heq)), Function.update_self]
  · have hmold : m ≠ old := fun heq => (List.nodup_cons.mp hsplit.2.1).1 (heq ▸ hm)
    have hmn : m ≠ n := fun heq =>
      hn (heq ▸ List.mem_append_right _ (List.mem_cons_of_mem old hm))
    have hm₁ : m ∉ l₁ := fun h => hsplit.2.2 m h m (List.mem_cons_of_mem old hm) rfl
    rw [Function.update_of_ne (endCell_ne hinj hhead hm₁).symm,
      Function.update_of_ne (fun heq => hmold (hinj heq)),
      Function.update_of_ne (fun heq => hmn (hinj heq))]

end Edits

end CellLists
