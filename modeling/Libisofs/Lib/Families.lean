import Mathlib.Data.List.Basic

/-!
# Families of a sorted array

A pass over a sorted array cuts it into families of neighbours with equal keys. Some
elements stay alone nevertheless. In the sorted array all elements with the same key are
neighbours, so that different families have different keys, single elements aside.
-/

namespace SortedFamilies

universe u v

variable {α : Type u}

/-- The families from `family` on. Its most recently visited member is `last`. -/
def families (same : α → α → Bool) : List α → α → List α → List (List α)
  | family, _, [] => [family]
  | family, last, n :: rest =>
    if same last n then families same (family ++ [n]) n rest
    else family :: families same [n] n rest

@[simp] theorem families_flatten (same : α → α → Bool) (family : List α) (last : α)
    (rest : List α) : (families same family last rest).flatten = family ++ rest := by
  induction rest generalizing family last with
  | nil => simp [families]
  | cons n rest ih =>
    rw [families]
    split
    · simp [ih]
    · simp [ih]

theorem families_ne_nil (same : α → α → Bool) {family : List α} (hne : family ≠ []) (last : α)
    (rest : List α) : ∀ g ∈ families same family last rest, g ≠ [] := by
  induction rest generalizing family last with
  | nil => simpa [families] using hne
  | cons n rest ih =>
    rw [families]
    split
    · exact ih (by simp) n
    · intro g hg
      rcases List.mem_cons.mp hg with rfl | hmore
      · exact hne
      · exact ih (by simp) n g hmore

/-- The first member of the first family stays where it is. -/
theorem families_head (same : α → α → Bool) (a : α) (family : List α) (last : α)
    (rest : List α) : ∃ g more, families same (a :: family) last rest = (a :: g) :: more := by
  induction rest generalizing family last with
  | nil => exact ⟨family, [], rfl⟩
  | cons n rest ih =>
    rw [families]
    split
    · exact ih (family ++ [n]) n
    · exact ⟨family, _, rfl⟩

section Keys

variable {κ : Type v} {key : α → κ} {single : α → Prop} {same : α → α → Bool}

theorem families_inside (hsame : ∀ a b, same a b = true ↔ ¬ single b ∧ key a = key b)
    (hsingle : ∀ {a b}, key a = key b → single a → single b)
    {family : List α} {last : α} {rest : List α} (hkey : ∀ a ∈ family, key a = key last)
    (hmany : 1 < family.length → ¬ single last) :
    ∀ g ∈ families same family last rest,
      (∀ a ∈ g, ∀ b ∈ g, key a = key b) ∧ (1 < g.length → ∀ a ∈ g, ¬ single a) := by
  induction rest generalizing family last with
  | nil =>
    intro g hg
    obtain rfl : g = family := by simpa [families] using hg
    refine ⟨fun a ha b hb => (hkey a ha).trans (hkey b hb).symm, fun hlong a ha hs => ?_⟩
    exact hmany hlong (hsingle (hkey a ha) hs)
  | cons n rest ih =>
    rw [families]
    split
    next hmerge =>
      obtain ⟨hn, heq⟩ := (hsame last n).mp hmerge
      apply ih
      · intro a ha
        rcases List.mem_append.mp ha with h | h
        · exact (hkey a h).trans heq
        · exact congrArg key (List.mem_singleton.mp h)
      · exact fun _ => hn
    next hcut =>
      intro g hg
      rcases List.mem_cons.mp hg with rfl | hmore
      · refine ⟨fun a ha b hb => (hkey a ha).trans (hkey b hb).symm, fun hlong a ha hs => ?_⟩
        exact hmany hlong (hsingle (hkey a ha) hs)
      · refine ih ?_ ?_ g hmore
        · simp
        · simp

variable {le : κ → κ → Prop}

theorem families_across (hanti : ∀ {x y}, le x y → le y x → x = y)
    (hsame : ∀ a b, same a b = true ↔ ¬ single b ∧ key a = key b)
    (hsingle : ∀ {a b}, key a = key b → single a → single b)
    {family : List α} {last : α} {rest : List α} (hkey : ∀ a ∈ family, key a = key last)
    (hlast : last ∈ family)
    (hsorted : (family ++ rest).Pairwise fun a b => le (key a) (key b)) :
    (families same family last rest).Pairwise fun g g' => ∀ a ∈ g, ∀ b ∈ g',
      le (key a) (key b) ∧ (key a = key b → single a ∧ single b) := by
  induction rest generalizing family last with
  | nil => simp [families]
  | cons n rest ih =>
    rw [families]
    split
    next hmerge =>
      obtain ⟨-, heq⟩ := (hsame last n).mp hmerge
      apply ih
      · intro a ha
        rcases List.mem_append.mp ha with h | h
        · exact (hkey a h).trans heq
        · exact congrArg key (List.mem_singleton.mp h)
      · simp
      · simpa using hsorted
    next hcut =>
      obtain ⟨-, hrest, hbetween⟩ := List.pairwise_append.mp hsorted
      constructor
      · intro g' hg' a ha b hb
        have hmem : b ∈ n :: rest := by
          have := List.mem_flatten_of_mem hg' hb
          simpa using this
        refine ⟨hbetween a ha b hmem, fun heq => ?_⟩
        -- a key which comes again is also the key of the element at the cut
        have hn : key last = key n := by
          rcases List.mem_cons.mp hmem with rfl | hlater
          · rw [← hkey a ha, heq]
          · apply hanti (hbetween last hlast n (List.mem_cons_self ..))
            rw [← hkey a ha, heq]
            exact (List.pairwise_cons.mp hrest).1 b hlater
        have hsn : single n := by
          by_contra hns
          exact hcut ((hsame last n).mpr ⟨hns, hn⟩)
        have hna : key n = key a := hn.symm.trans (hkey a ha).symm
        exact ⟨hsingle hna hsn, hsingle (hna.trans heq) hsn⟩
      · exact ih (by simp) (by simp) hrest

end Keys

end SortedFamilies
