import Libisofs.Lib.Descent

/-!
# Computations which may not end

An unrolling tells what has come out of a computation after a number of steps. More steps do
not change what has come out. A loop ends if and only if its turns end and do not follow on
each other for ever.
-/

namespace Unrollings

open Descent Relation

/-- The result after so many steps, if there is one already. -/
abbrev Unrolling (α : Type) := Nat → Option α

variable {α β State Result : Type}

def Gives (f : Unrolling α) (r : α) : Prop := ∃ n, f n = some r

def Ends (f : Unrolling α) : Prop := ∃ r, Gives f r

/-- More steps do not change the result. -/
def Stable (f : Unrolling α) : Prop := ∀ n r, f n = some r → f (n + 1) = some r

section Single

variable {f : Unrolling α} {r r' : α} {m n : Nat}

theorem Stable.of_le (h : Stable f) (hle : m ≤ n) (hr : f m = some r) : f n = some r := by
  induction hle with
  | refl => exact hr
  | step _ ih => exact h _ _ ih

theorem Stable.unique (h : Stable f) (hr : Gives f r) (hr' : Gives f r') : r = r' := by
  obtain ⟨m, hm⟩ := hr
  obtain ⟨n, hn⟩ := hr'
  have hmax := h.of_le (Nat.le_max_left m n) hm
  exact Option.some.inj (hmax.symm.trans (h.of_le (Nat.le_max_right m n) hn))

/-- One result which comes out later than another one. -/
theorem Stable.bind {g : α → Unrolling β} (h : Stable f) (hg : ∀ a, Stable (g a)) :
    Stable fun n => (f n).bind fun a => g a n := by
  intro n r hr
  obtain ⟨a, ha, hga⟩ := Option.bind_eq_some_iff.mp hr
  exact Option.bind_eq_some_iff.mpr ⟨a, h n a ha, hg a n r hga⟩

theorem gives_bind {g : α → Unrolling β} {b : β} (h : Stable f) (hg : ∀ a, Stable (g a)) :
    Gives (fun n => (f n).bind fun a => g a n) b ↔ ∃ a, Gives f a ∧ Gives (g a) b := by
  constructor
  · rintro ⟨n, hn⟩
    obtain ⟨a, ha, hga⟩ := Option.bind_eq_some_iff.mp hn
    exact ⟨a, ⟨n, ha⟩, n, hga⟩
  · rintro ⟨a, ⟨m, hm⟩, n, hn⟩
    exact ⟨max m n, Option.bind_eq_some_iff.mpr
      ⟨a, h.of_le (Nat.le_max_left m n) hm, (hg a).of_le (Nat.le_max_right m n) hn⟩⟩

theorem stable_const (r : Option α) : Stable fun _ => r := fun _ _ h => h

end Single

section Loops

variable (turn : State → Unrolling (State ⊕ Result))

/-- Turns lead to a next state or to the result. -/
def loop : Nat → State → Option Result
  | 0, _ => none
  | n + 1, s =>
    match turn s n with
    | none => none
    | some (.inl s') => loop n s'
    | some (.inr r) => some r

/-- The state behind a turn. -/
def Next (s s' : State) : Prop := Gives (turn s) (.inl s')

variable {turn} {s : State} {r : Result}

theorem stable_loop (h : ∀ s, Stable (turn s)) (s : State) : Stable fun n => loop turn n s := by
  intro n r hr
  induction n generalizing s with
  | zero => cases hr
  | succ n ih =>
    simp only [loop] at hr
    cases hturn : turn s n with
    | none => simp [hturn] at hr
    | some next =>
      simp only [loop, h s n next hturn]
      rw [hturn] at hr
      cases next with
      | inl s' => exact ih s' hr
      | inr r' => exact hr

theorem gives_of_turn (hturn : Gives (turn s) (.inr r)) : Gives (fun n => loop turn n s) r := by
  obtain ⟨n, hn⟩ := hturn
  refine ⟨n + 1, ?_⟩
  simp only [loop, hn]

theorem gives_of_next (h : ∀ s, Stable (turn s)) {s' : State} (hnext : Next turn s s')
    (hr : Gives (fun n => loop turn n s') r) : Gives (fun n => loop turn n s) r := by
  obtain ⟨m, hm⟩ := hnext
  obtain ⟨n, hn⟩ := hr
  refine ⟨max m n + 1, ?_⟩
  have hturn := (h s).of_le (Nat.le_max_left m n) hm
  simp only [loop, hturn]
  exact (stable_loop h s').of_le (Nat.le_max_right m n) hn

theorem loop_of_next {s' : State} (h : ∀ n, turn s n = some (.inl s')) (n : Nat) :
    loop turn (n + 1) s = loop turn n s' := by
  simp only [loop, h]

/-- A turn without progress leads to the same turn again. -/
theorem loop_of_self (h : ∀ n, turn s n = some (.inl s)) (n : Nat) : loop turn n s = none := by
  induction n with
  | zero => rfl
  | succ n ih => rw [loop_of_next h, ih]

/-- Turns which have been made do not change the result. -/
theorem gives_of_reaches (h : ∀ s, Stable (turn s)) {s' : State}
    (hreach : ReflTransGen (Next turn) s s') (hr : Gives (fun n => loop turn n s') r) :
    Gives (fun n => loop turn n s) r := by
  induction hreach using ReflTransGen.head_induction_on with
  | refl => exact hr
  | head hnext _ ih => exact gives_of_next h hnext ih

/-- A loop which ends has no endless sequence of turns, and its turns end. -/
theorem ending_of_ends (h : ∀ s, Stable (turn s)) (hends : Ends fun n => loop turn n s) :
    Ending (Next turn) s ∧ ∀ s', ReflTransGen (Next turn) s s' → Ends (turn s') := by
  obtain ⟨r, n, hn⟩ := hends
  induction n generalizing s with
  | zero => cases hn
  | succ n ih =>
    simp only [loop] at hn
    cases hturn : turn s n with
    | none => simp [hturn] at hn
    | some next =>
      have hgives : Gives (turn s) next := ⟨n, hturn⟩
      rw [hturn] at hn
      cases next with
      | inr r' =>
        have hlast : ∀ s', ¬ Next turn s s' := fun s' hs' => by
          cases (h s).unique hgives hs'
        refine ⟨⟨_, fun s' hs' => absurd hs' (hlast s')⟩, fun s' hreach => ?_⟩
        rcases hreach.cases_head with rfl | ⟨s₁, hs₁, -⟩
        · exact ⟨_, hgives⟩
        · exact absurd hs₁ (hlast s₁)
      | inl s₁ =>
        obtain ⟨hending, hturns⟩ := ih hn
        have honly : ∀ s', Next turn s s' → s' = s₁ := fun s' hs' =>
          Sum.inl.inj ((h s).unique hs' hgives)
        refine ⟨⟨_, fun s' hs' => honly s' hs' ▸ hending⟩, fun s' hreach => ?_⟩
        rcases hreach.cases_head with rfl | ⟨s₂, hs₂, hrest⟩
        · exact ⟨_, hgives⟩
        · exact hturns s' (honly s₂ hs₂ ▸ hrest)

theorem ends_of_ending (h : ∀ s, Stable (turn s)) (hending : Ending (Next turn) s)
    (hturns : ∀ s', ReflTransGen (Next turn) s s' → Ends (turn s')) :
    Ends fun n => loop turn n s := by
  induction hending with
  | intro s _ ih =>
    obtain ⟨next, hnext⟩ := hturns s .refl
    cases next with
    | inr r => exact ⟨r, gives_of_turn hnext⟩
    | inl s' =>
      obtain ⟨r, hr⟩ := ih s' hnext fun s₁ hreach => hturns s₁ (hreach.head hnext)
      exact ⟨r, gives_of_next h hnext hr⟩

theorem ends_loop_iff (h : ∀ s, Stable (turn s)) : (Ends fun n => loop turn n s) ↔
    Ending (Next turn) s ∧ ∀ s', ReflTransGen (Next turn) s s' → Ends (turn s') :=
  ⟨ending_of_ends h, fun hs => ends_of_ending h hs.1 hs.2⟩

end Loops

end Unrollings
