import Mathlib.Logic.Basic

/-!
# Computations with a log

A computation which may fail records what it does. The records stay if it fails. What holds
of the records of all parts holds of the records of the whole.
-/

namespace LoggedComputations

universe u v
variable {ω : Type u} {ε : Type v} {α β : Type}

structure Logged (ω : Type u) (ε : Type v) (α : Type) where
  log : List ω
  result : Except ε α

namespace Logged

def bind (x : Logged ω ε α) (f : α → Logged ω ε β) : Logged ω ε β :=
  match x.result with
  | .ok a => ⟨x.log ++ (f a).log, (f a).result⟩
  | .error e => ⟨x.log, .error e⟩

instance : Monad (Logged ω ε) where
  pure a := ⟨[], .ok a⟩
  bind := bind

/-- To record something. -/
def record (log : List ω) : Logged ω ε Unit := ⟨log, .ok ()⟩

def fail (e : ε) : Logged ω ε α := ⟨[], .error e⟩

/-- A computation which records nothing. -/
def silent (x : Except ε α) : Logged ω ε α := ⟨[], x⟩

variable {x : Logged ω ε α} {f : α → Logged ω ε β} {b : β} {w : ω}

theorem result_bind_eq_ok :
    (x >>= f).result = .ok b ↔ ∃ a, x.result = .ok a ∧ (f a).result = .ok b := by
  obtain ⟨log, result⟩ := x
  cases result with
  | error e => simp [Bind.bind, bind]
  | ok a => simp [Bind.bind, bind]

theorem mem_log_bind :
    w ∈ (x >>= f).log ↔ w ∈ x.log ∨ ∃ a, x.result = .ok a ∧ w ∈ (f a).log := by
  obtain ⟨log, result⟩ := x
  cases result with
  | error e => simp [Bind.bind, bind]
  | ok a => simp [Bind.bind, bind]

/-- The result without the reason of failure. -/
theorem value_bind : (x >>= f).result.toOption =
    x.result.toOption.bind fun a => (f a).result.toOption := by
  obtain ⟨log, result⟩ := x
  cases result with
  | error e => rfl
  | ok a => rfl

theorem value_pure (a : α) : (pure a : Logged ω ε α).result.toOption = some a := rfl

theorem value_record (log : List ω) : (record log : Logged ω ε Unit).result.toOption = some () :=
  rfl

theorem result_eq_ok {a : α} : x.result = .ok a ↔ x.result.toOption = some a := by
  cases x.result with
  | error e => simp [Except.toOption]
  | ok b => simp [Except.toOption]

@[simp] theorem result_pure (a : α) : (pure a : Logged ω ε α).result = .ok a := rfl

@[simp] theorem log_pure (a : α) : (pure a : Logged ω ε α).log = [] := rfl

@[simp] theorem result_record (log : List ω) : (record log : Logged ω ε Unit).result = .ok () := rfl

@[simp] theorem log_record (log : List ω) : (record log : Logged ω ε Unit).log = log := rfl

end Logged

open Logged

/-- All records have the property. -/
def Emits (P : ω → Prop) (x : Logged ω ε α) : Prop := ∀ w ∈ x.log, P w

variable {P : ω → Prop}

theorem Emits.bind {x : Logged ω ε α} {f : α → Logged ω ε β} (h : Emits P x)
    (hf : ∀ a, x.result = .ok a → Emits P (f a)) : Emits P (x >>= f) := by
  intro w hw
  rcases mem_log_bind.mp hw with hfirst | ⟨a, hok, hlater⟩
  · exact h w hfirst
  · exact hf a hok w hlater

theorem emits_bind_iff {x : Logged ω ε α} {f : α → Logged ω ε β} :
    Emits P (x >>= f) ↔ Emits P x ∧ ∀ a, x.result = .ok a → Emits P (f a) := by
  constructor
  · intro h
    constructor
    · exact fun w hw => h w (mem_log_bind.mpr (Or.inl hw))
    · exact fun a hok w hw => h w (mem_log_bind.mpr (Or.inr ⟨a, hok, hw⟩))
  · exact fun ⟨hx, hf⟩ => hx.bind hf

@[simp] theorem emits_pure (a : α) : Emits P (pure a : Logged ω ε α) := fun _ hw => nomatch hw

@[simp] theorem emits_fail (e : ε) : Emits P (fail e : Logged ω ε α) := fun _ hw => nomatch hw

@[simp] theorem emits_silent (x : Except ε α) : Emits P (silent x : Logged ω ε α) :=
  fun _ hw => nomatch hw

@[simp] theorem emits_record {log : List ω} :
    Emits P (record log : Logged ω ε Unit) ↔ ∀ w ∈ log, P w := Iff.rfl

end LoggedComputations
