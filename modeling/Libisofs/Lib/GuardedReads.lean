import Mathlib.Init

/-!
# Reading into buffers of limited size

Computations which read from a source, may fail, and keep track of what is stored in their
buffers. Storing more than a buffer can hold stops them. The rules tell how to show that this
does not happen.
-/

namespace GuardedReads

universe u
variable {α ρ ε β γ : Type u}

/-- Why a computation stops early. -/
inductive Stop (ε : Type u) where
  | failed (e : ε)
  | overrun

/-- Reading yields at most the demanded number of items. -/
structure Source (α ρ ε : Type u) where
  read : ρ → Nat → Except ε (List α) × ρ
  read_le : ∀ s count items, (read s count).1 = .ok items → items.length ≤ count

abbrev Reading (ρ ε : Type u) := ExceptT (Stop ε) (StateM ρ)

def readInto (source : Source α ρ ε) (capacity count : Nat) : Reading ρ ε (List α) := fun s =>
  match source.read s count with
  | (.error e, s) => (.error (.failed e), s)
  | (.ok items, s) => if capacity < items.length then (.error .overrun, s) else (.ok items, s)

/-- The computation never overruns, and `P` holds of its results. -/
def Safe (m : Reading ρ ε β) (P : β → Prop) : Prop :=
  ∀ s, match (m s).1 with
    | .ok b => P b
    | .error (.failed _) => True
    | .error .overrun => False

theorem safe_pure {P : β → Prop} {b : β} (holds : P b) : Safe (pure b : Reading ρ ε β) P :=
  fun _ => holds

theorem safe_throw {P : β → Prop} (e : ε) : Safe (throw (.failed e) : Reading ρ ε β) P :=
  fun _ => trivial

theorem Safe.bind {P : β → Prop} {Q : γ → Prop} {m : Reading ρ ε β} {f : β → Reading ρ ε γ}
    (first : Safe m P) (next : ∀ b, P b → Safe (f b) Q) : Safe (m >>= f) Q := by
  intro s
  have hfirst := first s
  change match (ExceptT.bindCont f (m s).1 (m s).2).1 with
    | .ok b => Q b
    | .error (.failed _) => True
    | .error .overrun => False
  generalize (m s).2 = s' at *
  cases h : (m s).1 with
  | ok b =>
    rw [h] at hfirst
    exact next b hfirst s'
  | error stop =>
    rw [h] at hfirst
    cases stop with
    | failed e => exact trivial
    | overrun => exact hfirst

theorem safe_ite {P : β → Prop} {m m' : Reading ρ ε β} {p : Prop} [Decidable p]
    (yes : p → Safe m P) (no : ¬ p → Safe m' P) : Safe (if p then m else m') P := by
  split
  · exact yes ‹_›
  · exact no ‹_›

/-- A buffer which is as large as the demand does not overrun. -/
theorem safe_readInto (source : Source α ρ ε) {capacity count : Nat} (enough : count ≤ capacity) :
    Safe (readInto source capacity count) (fun items => items.length ≤ count) := by
  intro s
  have hle := source.read_le s count
  rw [readInto]
  split
  · rename_i h
    split at h
    · exact absurd h (by simp)
    · rename_i items s' hread
      rw [hread] at hle
      split at h
      · exact absurd h (by simp)
      · obtain rfl := Except.ok.inj h
        exact hle items rfl
  · exact trivial
  · rename_i h
    split at h
    · exact absurd h (by simp)
    · rename_i items s' hread
      rw [hread] at hle
      have := hle items rfl
      rw [if_neg (by omega)] at h
      exact absurd h (by simp)

/-- What overruns has got more than the buffer can hold. -/
theorem readInto_overrun_iff (source : Source α ρ ε) (capacity count : Nat) (s : ρ) :
    (readInto source capacity count s).1 = .error .overrun ↔
      ∃ items, (source.read s count).1 = .ok items ∧ capacity < items.length := by
  rw [readInto]
  split
  · rename_i e s' hread
    simp [hread]
  · rename_i items s' hread
    split
    · rename_i hless
      simp [hread, hless]
    · rename_i hle
      simp [hread, hle]

section Results

variable {m m' : Reading ρ ε β} {f f' : β → Reading ρ ε γ} {s s' : ρ}

theorem error_ne_ok {stop : Stop ε} {b : β} {s s' : ρ} :
    ((.error stop, s) : Except (Stop ε) β × ρ) ≠ (.ok b, s') := by
  simp

theorem bind_eq_ok_iff {c : γ} :
    (m >>= f) s = (.ok c, s') ↔ ∃ b s₁, m s = (.ok b, s₁) ∧ f b s₁ = (.ok c, s') := by
  change ExceptT.bindCont f (m s).1 (m s).2 = (.ok c, s') ↔ _
  rcases m s with ⟨e | b, s₁⟩
  · constructor
    · exact fun h => (error_ne_ok h).elim
    · rintro ⟨b, s₁, h, -⟩
      exact (error_ne_ok h).elim
  · constructor
    · exact fun h => ⟨b, s₁, rfl, h⟩
    · rintro ⟨b', s₁', h, hrest⟩
      cases h
      exact hrest

theorem pure_eq_ok_iff {b c : β} :
    (pure b : Reading ρ ε β) s = (.ok c, s') ↔ b = c ∧ s = s' := by
  change ((.ok b, s) : Except (Stop ε) β × ρ) = (.ok c, s') ↔ _
  rw [Prod.mk.injEq, Except.ok.injEq]

theorem throw_ne_ok {stop : Stop ε} {b : β} :
    (throw stop : Reading ρ ε β) s ≠ (.ok b, s') := error_ne_ok

theorem ite_eq_ok_iff {p : Prop} [Decidable p] {b : β} :
    (if p then m else m') s = (.ok b, s') ↔
      p ∧ m s = (.ok b, s') ∨ ¬ p ∧ m' s = (.ok b, s') := by
  split
  · simp [*]
  · simp [*]

theorem readInto_eq_ok_iff {source : Source α ρ ε} {capacity count : Nat} {items : List α} :
    readInto source capacity count s = (.ok items, s') ↔
      source.read s count = (.ok items, s') ∧ items.length ≤ capacity := by
  rw [readInto]
  rcases source.read s count with ⟨e | got, s₁⟩
  · constructor
    · exact fun h => (error_ne_ok h).elim
    · rintro ⟨h, -⟩
      cases h
  · dsimp only
    split
    · constructor
      · exact fun h => (error_ne_ok h).elim
      · rintro ⟨h, hle⟩
        cases h
        omega
    · constructor
      · intro h
        cases h
        exact ⟨rfl, by omega⟩
      · rintro ⟨h, -⟩
        cases h
        rfl

/-- A computation which yields only what the other one yields. -/
def Follows (m m' : Reading ρ ε β) : Prop :=
  ∀ s b s', m s = (.ok b, s') → m' s = (.ok b, s')

theorem Follows.refl (m : Reading ρ ε β) : Follows m m := fun _ _ _ h => h

theorem Follows.bind (first : Follows m m') (next : ∀ b, Follows (f b) (f' b)) :
    Follows (m >>= f) (m' >>= f') := by
  intro s c s' h
  obtain ⟨b, s₁, hm, hf⟩ := bind_eq_ok_iff.mp h
  exact bind_eq_ok_iff.mpr ⟨b, s₁, first s b s₁ hm, next b s₁ c s' hf⟩

theorem Follows.ite {p : Prop} [Decidable p] {n n' : Reading ρ ε β} (yes : Follows m m')
    (no : Follows n n') : Follows (if p then m else n) (if p then m' else n') := by
  split
  · exact yes
  · exact no

theorem Follows.readInto {source source' : Source α ρ ε}
    (reads : ∀ s count items s', source.read s count = (.ok items, s') →
      source'.read s count = (.ok items, s')) (capacity count : Nat) :
    Follows (readInto source capacity count) (readInto source' capacity count) := by
  intro s items s' h
  obtain ⟨hread, hle⟩ := readInto_eq_ok_iff.mp h
  exact readInto_eq_ok_iff.mpr ⟨reads s count items s' hread, hle⟩

end Results

/-- The content of a buffer after items have been stored at a position, if they fit. -/
def overwrite (buffer : List α) (pos : Nat) (items : List α) : Option (List α) :=
  if buffer.length < pos + items.length then none
  else some (buffer.take pos ++ items ++ buffer.drop (pos + items.length))

theorem overwrite_of_le (buffer : List α) (pos : Nat) (items : List α)
    (fits : pos + items.length ≤ buffer.length) :
    ∃ buffer', overwrite buffer pos items = some buffer' ∧ buffer'.length = buffer.length := by
  refine ⟨buffer.take pos ++ items ++ buffer.drop (pos + items.length), ?_, ?_⟩
  · rw [overwrite, if_neg (by omega)]
  · rw [List.length_append, List.length_append, List.length_take, List.length_drop]
    omega

end GuardedReads
