import Mathlib.Algebra.BigOperators.Ring.Finset
import Mathlib.Data.Finset.NAry
import Mathlib.Tactic.LinearCombination
import Libisofs.Lib.AdvancingSteps
import Libisofs.UniqueNames

/-!
# The search for unique names

Whether make_really_unique_name() comes to an end. The incremented part of a name is a number
with 63 digits at each position. If it has seven positions or more, then the names do not repeat
before there are more of them than a directory can hold. Names with less positions are caged:
their names may all be taken.
-/

namespace UniqueNameSearch

open AdvancingSteps UniqueNames

section Digits

def isLetter (c : UInt8) : Bool :=
  (0x30 ≤ c && c ≤ 0x39) || (0x41 ≤ c && c ≤ 0x5a) || c == 0x5f || (0x61 ≤ c && c ≤ 0x7a)

/-- The rank of a letter in the order of increments. -/
def digit (c : UInt8) : Nat :=
  if c ≤ 0x39 then c.toNat - 0x30
  else if c ≤ 0x5a then c.toNat - 0x41 + 10
  else if c = 0x5f then 36
  else c.toNat - 0x61 + 37

/-- An increment leads to the next letter, or it has to be carried. -/
theorem nextChar_cases (c : UInt8) (beforeSuffix : Bool) :
    nextChar c beforeSuffix = none ∧ c = 0x7a ∨
      ∃ c', nextChar c beforeSuffix = some c' ∧ isLetter c' = true ∧
        (isLetter c = true → digit c' = digit c + 1) := by
  have hall : ∀ n : Fin 256, ∀ b : Bool,
      (nextChar (UInt8.ofFin n) b).elim (decide (UInt8.ofFin n = 0x7a)) (fun c' =>
        isLetter c' && (!isLetter (UInt8.ofFin n) ||
          digit c' == digit (UInt8.ofFin n) + 1)) = true := by decide +kernel
  have h := hall c.toFin beforeSuffix
  rw [UInt8.ofFin_toFin] at h
  cases hnext : nextChar c beforeSuffix with
  | none =>
    rw [hnext] at h
    exact Or.inl ⟨rfl, by simpa using h⟩
  | some c' =>
    rw [hnext] at h
    rw [Option.elim_some, Bool.and_eq_true, Bool.or_eq_true, Bool.not_eq_true', beq_iff_eq] at h
    refine Or.inr ⟨c', rfl, h.1, ?_⟩
    intro hletter
    exact h.2.resolve_left (by rw [hletter]; exact Bool.true_eq_false_eq_False)

end Digits

section Numbers

variable {R : Type} [CommRing R] (w : Nat → R)

/-- The number of characters which have not been touched by increments. -/
def others (name : Bytes) : Nat := name.countP fun c => !isLetter c

/-- The number which a name stands for, if its positions have the given weights. -/
def value (name : Bytes) : R := ∑ i ∈ Finset.range name.length, (digit (name.getD i 0) : R) * w i

variable {w} {name : Bytes} {i : Nat}

theorem value_set (c : UInt8) (hi : i < name.length) :
    value w (name.set i c) = value w name + ((digit c : R) - digit (name.getD i 0)) * w i := by
  have hmem : i ∈ Finset.range name.length := Finset.mem_range.mpr hi
  rw [value, value, List.length_set, ← Finset.add_sum_erase _ _ hmem,
    ← Finset.add_sum_erase (Finset.range name.length) _ hmem]
  have hsame : ∑ j ∈ (Finset.range name.length).erase i, (digit ((name.set i c).getD j 0) : R) * w j
      = ∑ j ∈ (Finset.range name.length).erase i, (digit (name.getD j 0) : R) * w j := by
    apply Finset.sum_congr rfl
    intro j hj
    have hne : i ≠ j := (Finset.ne_of_mem_erase hj).symm
    rw [List.getD_eq_getElem?_getD, List.getD_eq_getElem?_getD, List.getElem?_set_ne hne]
  have hself : (name.set i c).getD i 0 = c := by
    rw [List.getD_eq_getElem?_getD, List.getElem?_set_self hi, Option.getD_some]
  rw [hsame, hself]
  ring

theorem countP_set (p : UInt8 → Bool) (c : UInt8) (hi : i < name.length) :
    (name.set i c).countP p + (if p (name.getD i 0) then 1 else 0) =
      name.countP p + if p c then 1 else 0 := by
  have hget : name.getD i 0 = name[i] := by
    rw [List.getD_eq_getElem?_getD, List.getElem?_eq_getElem hi, Option.getD_some]
  rw [List.countP_set hi, hget]
  have hpos : (if p name[i] then 1 else 0) ≤ name.countP p := by
    split
    next hp => exact List.countP_pos_iff.mpr ⟨_, List.getElem_mem hi, hp⟩
    next => exact Nat.zero_le _
  omega

/-- Weights of the positions which increments reach, up to the last one of them. A carry from a
position counts as an increment of the next one, to the left of it. -/
structure Weighted (w : Nat → R) (length last : Nat) (rollover : Bool) : Prop where
  last_lt : last < length
  carry : ∀ i < last, w i = 63 * w (i + 1)
  wrap : rollover = true → last + 1 = length ∧ w last = 63 * w 0
  stop : rollover = false → 63 * w 0 = 0

/-- The position which gets incremented. -/
def effective (length : Nat) (pos : Int) : Nat :=
  if pos < 0 ∨ (length : Int) ≤ pos then length - 1 else pos.toNat

theorem effective_natCast {length : Nat} (hi : i < length) : effective length (i : Int) = i := by
  rw [effective, if_neg (by omega), Int.toNat_natCast]

theorem effective_neg (length : Nat) {pos : Int} (hpos : pos < 0) :
    effective length pos = length - 1 := if_pos (Or.inl hpos)

/-- What an increment makes of a name: some other character is replaced, or the weight of the
position is added. -/
def Advanced (w : Nat → R) (name : Bytes) (i : Nat) (name' : Bytes) : Prop :=
  others name' < others name ∨ others name' = others name ∧ value w name' = value w name + w i

/-- A character which can be incremented. -/
theorem advanced_set (hi : i < name.length) {c' : UInt8} (hletter : isLetter c' = true)
    (hdigit : isLetter (name.getD i 0) = true → digit c' = digit (name.getD i 0) + 1) :
    Advanced w name i (name.set i c') := by
  have hcount := countP_set (fun c => !isLetter c) c' hi
  rw [hletter] at hcount
  by_cases hold : isLetter (name.getD i 0) = true
  · right
    rw [hold] at hcount
    simp only [Bool.not_true, Bool.false_eq_true, if_false, Nat.add_zero] at hcount
    refine ⟨hcount, ?_⟩
    rw [value_set c' hi, hdigit hold]
    push_cast
    ring
  · left
    simp only [hold, Bool.not_true, Bool.not_false, Bool.false_eq_true, if_false, if_true] at hcount
    exact Nat.lt_of_succ_le (Nat.le_of_eq hcount)

/-- A z becomes 0. -/
theorem reset_set (hi : i < name.length) (hz : name.getD i 0 = 0x7a) :
    others (name.set i 0x30) = others name ∧
      value w (name.set i 0x30) = value w name - 62 * w i ∧
      (name.set i 0x30).countP (· = 0x7a) + 1 = name.countP (· = 0x7a) := by
  have hothers := countP_set (fun c => !isLetter c) 0x30 hi
  have hzs := countP_set (fun c => decide (c = 0x7a)) 0x30 hi
  have hletters : isLetter 0x7a = true ∧ isLetter 0x30 = true := by decide
  have hne : ¬ (0x30 : UInt8) = 0x7a := by decide
  simp only [hz, hletters, Bool.not_true, Bool.false_eq_true, if_false, Nat.add_zero] at hothers
  simp only [hz, decide_true, if_true, hne, decide_false, Bool.false_eq_true, if_false,
    Nat.add_zero] at hzs
  refine ⟨hothers, ?_, hzs⟩
  have hdigits : digit 0x7a = 62 ∧ digit 0x30 = 0 := by decide
  rw [value_set 0x30 hi, hz, hdigits.1, hdigits.2]
  push_cast
  ring

/-- If an increment has to be carried, then the next position gets incremented, or the number has
come to its end. -/
theorem asciiIncrement_advances {last steps : Nat} {rollover : Bool} {pos : Int}
    (weighted : Weighted w name.length last rollover)
    (hsteps : name.countP (· = 0x7a) < steps) (hpos : effective name.length pos ≤ last) :
    Advanced w name (effective name.length pos) (asciiIncrement steps name pos rollover) := by
  induction steps generalizing name pos with
  | zero => omega
  | succ steps ih =>
    have hlt : effective name.length pos < name.length := hpos.trans_lt weighted.last_lt
    have heff : (if pos < 0 ∨ (name.length : Int) ≤ pos then name.length - 1 else pos.toNat) =
        effective name.length pos := rfl
    rw [asciiIncrement, heff]
    generalize effective name.length pos = i at hpos hlt ⊢
    rcases nextChar_cases (name.getD i 0)
        (decide (i + 1 = name.length ∨ name.getD (i + 1) 0 = 0x2e)) with
      ⟨hnone, hz⟩ | ⟨c', hsome, hletter, hdigit⟩
    · obtain ⟨hothers, hvalue, hcount⟩ := reset_set (w := w) hlt hz
      have hlen : (name.set i 0x30).length = name.length := List.length_set ..
      have hless : (name.set i 0x30).countP (· = 0x7a) < steps := by omega
      -- what the carry adds makes up for the z
      have hcarry : ∀ j name', w j = 63 * w i → Advanced w (name.set i 0x30) j name' →
          Advanced w name i name' := by
        rintro j name' hj (hfewer | ⟨hsame, hadded⟩)
        · exact Or.inl (hothers ▸ hfewer)
        · refine Or.inr ⟨hsame.trans hothers, ?_⟩
          rw [hadded, hvalue, hj]
          ring
      simp only [hnone]
      split
      next hon =>
        rcases Nat.eq_zero_or_pos i with rfl | hipos
        · have hroll := hon.resolve_left (Nat.lt_irrefl 0)
          obtain ⟨hlast, hwrap⟩ := weighted.wrap hroll
          have hend : effective (name.set 0 0x30).length ((0 : Nat) - 1 : Int) = last := by
            rw [effective_neg _ (by decide), hlen]
            omega
          have hnext := @ih (name.set 0 0x30) ((0 : Nat) - 1) (hlen ▸ weighted) hless
            (Nat.le_of_eq hend)
          rw [hend] at hnext
          exact hcarry last _ hwrap hnext
        · have hcast : ((i : Int) - 1) = ((i - 1 : Nat) : Int) := by omega
          have heff' : effective (name.set i 0x30).length ((i : Int) - 1) = i - 1 := by
            rw [hcast, hlen]
            exact effective_natCast (by omega)
          have hnext := @ih (name.set i 0x30) ((i : Int) - 1) (hlen ▸ weighted) hless (by omega)
          rw [heff'] at hnext
          have hw := weighted.carry (i - 1) (by omega)
          rw [Nat.sub_add_cancel hipos] at hw
          exact hcarry (i - 1) _ hw hnext
      next hstop =>
        obtain ⟨hzero, hroll⟩ := not_or.mp hstop
        obtain rfl : i = 0 := Nat.eq_zero_of_not_pos hzero
        have hw := weighted.stop (Bool.eq_false_iff.mpr hroll)
        refine Or.inr ⟨hothers, ?_⟩
        rw [hvalue]
        linear_combination (-1 : R) * hw
    · simp only [hsome]
      exact advanced_set hlt hletter hdigit

end Numbers

section Search

variable {name : Bytes} {inc : Incrementable} {modulus : Nat} {dir : Finset Bytes}

theorem firstFree_of_iterate {taken : Bytes → Bool} {k : Nat}
    (hfree : taken (inc.next^[k] name) = false) :
    ∃ tries free, firstFree taken inc tries name = some free := by
  induction k generalizing name with
  | zero =>
    have hnow : taken name = false := hfree
    exact ⟨1, name, by rw [firstFree, hnow]; rfl⟩
  | succ k ih =>
    obtain ⟨tries, free, hrun⟩ := ih hfree
    cases htaken : taken name with
    | false => exact ⟨1, name, by rw [firstFree, htaken]; rfl⟩
    | true => exact ⟨tries + 1, free, by rw [firstFree, if_pos htaken]; exact hrun⟩

/-- The search ends if the names count by ones up to a modulus which is larger than the
directory. -/
theorem firstFree_ends {w : Nat → ZMod modulus} {last : Nat}
    (weighted : Weighted w name.length last inc.rolloverCarry)
    (hstart : effective name.length inc.lowPos ≤ last)
    (hone : w (effective name.length inc.lowPos) = 1) (hsmall : dir.card < modulus) :
    ∃ tries free, firstFree (fun m => decide (m ∈ dir)) inc tries name = some free := by
  have advances : Advances inc.next (fun m => m.length = name.length) others (value w) := by
    constructor
    · intro m hm
      exact (length_asciiIncrement _ _ _ _).trans hm
    · intro m hm
      have hcount : m.countP (· = 0x7a) < m.length + 1 := Nat.lt_succ_of_le List.countP_le_length
      have hadv := asciiIncrement_advances (hm ▸ weighted) hcount (hm ▸ hstart)
      rw [hm, Advanced, hone] at hadv
      rw [Incrementable.next, hm]
      exact hadv
  obtain ⟨k, hk⟩ := advances.exists_outside rfl hsmall
  exact firstFree_of_iterate (k := k) (decide_eq_false hk)

theorem weighted_descending {length low : Nat} (hlow : low < length)
    (hzero : (63 : ZMod modulus) ^ (low + 1) = 0) :
    Weighted (fun i => (63 : ZMod modulus) ^ (low - i)) length low false := by
  refine ⟨hlow, ?_, fun h => absurd h Bool.false_ne_true, fun _ => ?_⟩
  · intro i hi
    rw [← pow_succ', show low - (i + 1) + 1 = low - i by omega]
  · rw [← pow_succ', Nat.sub_zero, hzero]

/-- With rollover the positions form a circle. -/
theorem weighted_circle {length start : Nat} (hstart : start < length)
    (hone : (63 : ZMod modulus) ^ length = 1) :
    Weighted (fun i => (63 : ZMod modulus) ^ (if i ≤ start then start - i else start + length - i))
      length (length - 1) true := by
  refine ⟨by omega, ?_, fun _ => ⟨by omega, ?_⟩, fun h => absurd h.symm Bool.false_ne_true⟩
  · intro i hi
    rw [← pow_succ']
    rcases Nat.lt_trichotomy i start with h | rfl | h
    · rw [if_pos (Nat.le_of_lt h), if_pos (show i + 1 ≤ start by omega),
        show start - (i + 1) + 1 = start - i by omega]
    · rw [if_pos (Nat.le_refl i), if_neg (by omega),
        show i + length - (i + 1) + 1 = length by omega,
        hone, Nat.sub_self, pow_zero]
    · rw [if_neg (by omega), if_neg (by omega),
        show start + length - (i + 1) + 1 = start + length - i by omega]
  · rw [if_pos (Nat.zero_le start), ← pow_succ', Nat.sub_zero]
    split
    next hle =>
      rw [show start - (length - 1) = 0 by omega, show start + 1 = length by omega, hone, pow_zero]
    next => rw [show start + length - (length - 1) = start + 1 by omega]

end Search

section Uncaged

variable {name : Bytes}

/-- Names of nodes, without regard to the names . and .. which nodes cannot have. -/
def NodeName (name : Bytes) : Prop :=
  name ≠ [] ∧ name.length ≤ 255 ∧ ∀ b ∈ name, b ≠ 0 ∧ b ≠ 0x2f

instance (name : Bytes) : Decidable (NodeName name) := inferInstanceAs (Decidable (_ ∧ _))

/-- Less than six characters precede suffixes which are too long to be preserved, but the name is
so short that increments do not reach them. -/
def Caged (name : Bytes) : Prop :=
  suffixStart name < 6 ∧ maxSuffix < name.length - suffixStart name ∧ name.length < 64

instance (name : Bytes) : Decidable (Caged name) := inferInstanceAs (Decidable (_ ∧ _))

/-- make_really_unique_name() ends with a name which is not in the directory. -/
def FindsFresh (dir : Finset Bytes) (name : Bytes) : Prop :=
  ∃ tries free, makeReallyUniqueName (fun m => decide (m ∈ dir)) tries name = some free ∧
    free ∉ dir ∧ free.length ≤ 255

theorem base_pow_eq_zero {m n : Nat} (h : m ≤ n) : (63 : ZMod (63 ^ m)) ^ n = 0 := by
  have hself := ZMod.natCast_self (63 ^ m)
  rw [Nat.cast_pow] at hself
  obtain ⟨k, rfl⟩ := Nat.exists_eq_add_of_le h
  rw [pow_add, show (63 : ZMod (63 ^ m)) = ((63 : Nat) : ZMod (63 ^ m)) by rfl, hself, zero_mul]

theorem base_pow_eq_one (n : Nat) : (63 : ZMod (63 ^ n - 1)) ^ n = 1 := by
  have hself := ZMod.natCast_self (63 ^ n - 1)
  rw [Nat.cast_sub (Nat.one_le_pow n 63 (by decide)), Nat.cast_pow, Nat.cast_one] at hself
  exact sub_eq_zero.mp hself

/-- The names of a search count up to a modulus which no directory reaches. -/
structure Counting (inc : Incrementable) (length modulus last : Nat) (w : Nat → ZMod modulus) :
    Prop where
  weighted : Weighted w length last inc.rolloverCarry
  start : effective length inc.lowPos ≤ last
  one : w (effective length inc.lowPos) = 1
  large : 63 ^ 7 ≤ modulus

theorem counting_descending {inc : Incrementable} {length : Nat} (low : Nat)
    (hlow : inc.lowPos = low)
    (hlt : low < length) (hseven : 7 ≤ low + 1) (hroll : inc.rolloverCarry = false) :
    Counting inc length (63 ^ 7) low fun i => (63 : ZMod (63 ^ 7)) ^ (low - i) := by
  have heff : effective length inc.lowPos = low := by rw [hlow, effective_natCast hlt]
  refine ⟨?_, Nat.le_of_eq heff, ?_, Nat.le_refl _⟩
  · rw [hroll]
    exact weighted_descending hlt (base_pow_eq_zero hseven)
  · rw [heff, Nat.sub_self, pow_zero]

theorem counting_circle {inc : Incrementable} {length : Nat} (hlength : 64 ≤ length)
    (hroll : inc.rolloverCarry = true) :
    Counting inc length (63 ^ length - 1) (length - 1) fun i => (63 : ZMod (63 ^ length - 1)) ^
      (if i ≤ effective length inc.lowPos then effective length inc.lowPos - i
        else effective length inc.lowPos + length - i) := by
  have hlt : effective length inc.lowPos < length := by
    rw [effective]
    split <;> omega
  have hpow : 63 ^ 8 ≤ 63 ^ length := Nat.pow_le_pow_right (by decide) (by omega)
  have height : (63 : Nat) ^ 7 + 1 ≤ 63 ^ 8 := by decide
  refine ⟨?_, by omega, ?_, by omega⟩
  · rw [hroll]
    exact weighted_circle hlt (base_pow_eq_one length)
  · rw [if_pos (Nat.le_refl _), Nat.sub_self, pow_zero]

theorem length_insertUnderscores {atPos count : Nat} (hle : atPos ≤ name.length) :
    (insertUnderscores name atPos count).length = name.length + count := by
  simp only [insertUnderscores, List.length_append, List.length_take, List.length_replicate,
    List.length_drop]
  omega

theorem exists_counting (hfree : ¬ Caged name) : ∃ modulus last w,
    Counting (makeIncrementableName name) (makeIncrementableName name).uniqueName.length modulus
      last w := by
  have hfirst := suffixStart_le name
  unfold Caged at hfree
  rw [makeIncrementableName]
  split
  next h =>
    refine ⟨_, _, _, counting_descending 6 rfl ?_ (Nat.le_refl 7) rfl⟩
    rw [length_insertUnderscores hfirst]
    simp only [minIncr] at h ⊢
    omega
  next h =>
    split
    next hshort =>
      refine ⟨_, _, _, counting_descending (suffixStart name) rfl ?_ ?_ rfl⟩
      · rw [length_insertUnderscores hfirst]
        omega
      · simp only [minIncr, maxSuffix] at h hfree
        omega
    next hlong =>
      by_cases hseven : suffixStart name < minIncr
      · exact ⟨_, _, _, counting_circle (Nat.not_lt.mp hlong) (decide_eq_true hseven)⟩
      · simp only [minIncr] at hseven
        refine ⟨_, _, _, counting_descending (suffixStart name - 1) ?_ ?_ ?_
          (decide_eq_false hseven)⟩
        · dsimp only
          omega
        · dsimp only
          omega
        · omega

theorem finds_fresh (hname : NodeName name) (hfree : ¬ Caged name) {dir : Finset Bytes}
    (hsmall : dir.card < 63 ^ 7) : FindsFresh dir name := by
  obtain ⟨modulus, last, w, weighted, hstart, hone, hlarge⟩ := exists_counting hfree
  have hbegin : ∀ first : Bytes, first.length = (makeIncrementableName name).uniqueName.length →
      ∃ tries free, firstFree (fun m => decide (m ∈ dir)) (makeIncrementableName name) tries first =
        some free := by
    intro first hlength
    exact firstFree_ends (hlength ▸ weighted) (hlength ▸ hstart) (hlength ▸ hone)
      (hsmall.trans_le hlarge)
  obtain ⟨tries, free, hrun⟩ : ∃ tries free,
      makeReallyUniqueName (fun m => decide (m ∈ dir)) tries name = some free := by
    simp only [makeReallyUniqueName]
    split
    · exact hbegin _ rfl
    · exact hbegin _ (length_asciiIncrement _ _ _ _)
  obtain ⟨hfresh, hlength⟩ := makeReallyUniqueName_spec hrun
  refine ⟨tries, free, hrun, of_decide_eq_false hfresh, ?_⟩
  have := hname.2.1
  omega

end Uncaged

section Cage

variable {name p q suffix : Bytes} {i : Nat}

@[irreducible] def letters : Finset UInt8 := (((List.range 256).map UInt8.ofNat).filter isLetter).toFinset

theorem isLetter_of_mem {c : UInt8} (hc : c ∈ letters) : isLetter c = true := by
  rw [letters] at hc
  exact (List.mem_filter.mp (List.mem_toFinset.mp hc)).2

theorem mem_letters {c : UInt8} (hc : isLetter c = true) : c ∈ letters := by
  rw [letters]
  refine List.mem_toFinset.mpr (List.mem_filter.mpr ⟨List.mem_map.mpr ⟨c.toNat, ?_, ?_⟩, hc⟩)
  · exact List.mem_range.mpr c.toNat_lt
  · exact UInt8.ofNat_toNat

theorem card_letters_le : letters.card ≤ 63 := by
  rw [letters]
  refine (List.toFinset_card_le _).trans ?_
  decide +kernel

/-- All strings which can arise from a string if some of its characters become letters. -/
def cage : Bytes → Finset Bytes
  | [] => {[]}
  | c :: cs => Finset.image₂ List.cons (insert c letters) (cage cs)

theorem card_cage_le (p : Bytes) : (cage p).card ≤ 64 ^ p.length := by
  induction p with
  | nil => rw [cage, Finset.card_singleton, List.length_nil, pow_zero]
  | cons c cs ih =>
    have hhead : (insert c letters).card ≤ 64 :=
      (Finset.card_insert_le c letters).trans (Nat.succ_le_succ card_letters_le)
    rw [cage, List.length_cons, pow_succ']
    exact (Finset.card_image₂_le _ _ _).trans (Nat.mul_le_mul hhead ih)

theorem self_mem_cage (p : Bytes) : p ∈ cage p := by
  induction p with
  | nil => exact Finset.mem_singleton_self _
  | cons c cs ih => exact Finset.mem_image₂_of_mem (Finset.mem_insert_self c letters) ih

theorem length_of_mem_cage (hq : q ∈ cage p) : q.length = p.length := by
  induction p generalizing q with
  | nil => rw [Finset.mem_singleton.mp hq]
  | cons c cs ih =>
    obtain ⟨a, -, l, hl, rfl⟩ := Finset.mem_image₂.mp hq
    rw [List.length_cons, List.length_cons, ih hl]

theorem set_mem_cage (hq : q ∈ cage p) (i : Nat) {c : UInt8} (hc : isLetter c = true) :
    q.set i c ∈ cage p := by
  induction p generalizing q i with
  | nil =>
    rw [Finset.mem_singleton.mp hq]
    exact Finset.mem_singleton_self _
  | cons d ds ih =>
    obtain ⟨a, ha, l, hl, rfl⟩ := Finset.mem_image₂.mp hq
    cases i with
    | zero => exact Finset.mem_image₂_of_mem (Finset.mem_insert_of_mem (mem_letters hc)) hl
    | succ i => exact Finset.mem_image₂_of_mem ha (ih hl i)

theorem bytes_of_mem_cage (hq : q ∈ cage p) : ∀ b ∈ q, b ∈ p ∨ b ∈ letters := by
  induction p generalizing q with
  | nil =>
    rw [Finset.mem_singleton.mp hq]
    intro b hb
    exact absurd hb List.not_mem_nil
  | cons c cs ih =>
    obtain ⟨a, ha, l, hl, rfl⟩ := Finset.mem_image₂.mp hq
    intro b hb
    rcases List.mem_cons.mp hb with rfl | hb
    · rcases Finset.mem_insert.mp ha with rfl | hletter
      · exact Or.inl List.mem_cons_self
      · exact Or.inr hletter
    · exact (ih hl b hb).imp (List.mem_cons_of_mem c) id

/-- Without rollover, increments do not leave the cage. -/
theorem asciiIncrement_caged (steps : Nat) (suffix : Bytes) (hq : q ∈ cage p) (hi : i < p.length) :
    ∃ q' ∈ cage p, asciiIncrement steps (q ++ suffix) i false = q' ++ suffix := by
  induction steps generalizing q i with
  | zero => exact ⟨q, hq, rfl⟩
  | succ steps ih =>
    have hi' : i < q.length := by rw [length_of_mem_cage hq]; exact hi
    have hset : ∀ c, (q ++ suffix).set i c = q.set i c ++ suffix := fun c =>
      List.set_append_left _ _ hi'
    have heff : (if ((i : Int) < 0 ∨ ((q ++ suffix).length : Int) ≤ (i : Int)) then
        (q ++ suffix).length - 1 else (i : Int).toNat) = i := by
      rw [List.length_append, if_neg (by omega), Int.toNat_natCast]
    rw [asciiIncrement, heff]
    rcases nextChar_cases ((q ++ suffix).getD i 0)
        (decide (i + 1 = (q ++ suffix).length ∨ (q ++ suffix).getD (i + 1) 0 = 0x2e)) with
      ⟨hnone, -⟩ | ⟨c', hsome, hletter, -⟩
    · have hzero : q.set i 0x30 ∈ cage p := set_mem_cage hq i (by decide)
      simp only [hnone, hset]
      split
      next hon =>
        have hipos : 0 < i := hon.resolve_right Bool.false_ne_true
        have hcast : ((i : Int) - 1) = ((i - 1 : Nat) : Int) := by omega
        rw [hcast]
        exact ih hzero (by omega)
      next => exact ⟨_, hzero, rfl⟩
    · simp only [hsome, hset]
      exact ⟨_, set_mem_cage hq i hletter, rfl⟩

theorem firstFree_caged {taken : Bytes → Bool} {inc : Incrementable}
    (hlow : inc.lowPos = i) (hi : i < p.length) (hroll : inc.rolloverCarry = false)
    (htaken : ∀ q ∈ cage p, taken (q ++ suffix) = true) (tries : Nat) (hq : q ∈ cage p) :
    firstFree taken inc tries (q ++ suffix) = none := by
  induction tries generalizing q with
  | zero => rfl
  | succ tries ih =>
    obtain ⟨q', hq', hnext⟩ :=
      asciiIncrement_caged ((q ++ suffix).length + 1) suffix hq hi
    rw [firstFree, if_pos (htaken q hq), Incrementable.next, hlow, hroll, hnext]
    exact ih hq'

/-- The part before the suffixes, with an underscore. -/
def cagedPart (name : Bytes) : Bytes := name.take (suffixStart name) ++ [0x5f]

/-- The name and all that can be made of it. -/
def fullDirectory (name : Bytes) : Finset Bytes :=
  insert name ((cage (cagedPart name)).image (· ++ name.drop (suffixStart name)))

theorem length_cagedPart (name : Bytes) : (cagedPart name).length = suffixStart name + 1 := by
  rw [cagedPart, List.length_append, List.length_take, Nat.min_eq_left (suffixStart_le name)]
  rfl

theorem card_fullDirectory (hcaged : Caged name) : (fullDirectory name).card < 63 ^ 7 := by
  have hcage := card_cage_le (cagedPart name)
  have hpow : 64 ^ (cagedPart name).length ≤ 64 ^ 6 :=
    Nat.pow_le_pow_right (by decide) (by rw [length_cagedPart]; exact hcaged.1)
  have hnumbers : 64 ^ 6 + 1 < 63 ^ 7 := by decide
  have hinsert := Finset.card_insert_le name
    ((cage (cagedPart name)).image (· ++ name.drop (suffixStart name)))
  have himage := Finset.card_image_le (s := cage (cagedPart name))
    (f := (· ++ name.drop (suffixStart name)))
  rw [fullDirectory]
  omega

theorem nodeName_fullDirectory (hname : NodeName name) (hcaged : Caged name) :
    ∀ m ∈ fullDirectory name, NodeName m := by
  intro m hm
  rcases Finset.mem_insert.mp hm with rfl | hm
  · exact hname
  · obtain ⟨q, hq, rfl⟩ := Finset.mem_image.mp hm
    have hlength := length_of_mem_cage hq
    rw [length_cagedPart] at hlength
    have hletters : ∀ b ∈ letters, b ≠ 0 ∧ b ≠ 0x2f := by
      intro b hb
      have hletter := isLetter_of_mem hb
      constructor
      · rintro rfl
        exact absurd hletter (by decide)
      · rintro rfl
        exact absurd hletter (by decide)
    refine ⟨?_, ?_, ?_⟩
    · intro hnil
      have := congrArg List.length hnil
      rw [List.length_append, List.length_nil] at this
      omega
    · have hle := suffixStart_le name
      have hshort := hcaged.2.2
      rw [List.length_append, List.length_drop]
      omega
    · intro b hb
      rcases List.mem_append.mp hb with hb | hb
      · rcases bytes_of_mem_cage hq b hb with hb | hb
        · rcases List.mem_append.mp hb with hb | hb
          · exact hname.2.2 b (List.mem_of_mem_take hb)
          · rw [List.mem_singleton.mp hb]
            decide
        · exact hletters b hb
      · exact hname.2.2 b (List.mem_of_mem_drop hb)

/-- There is no end if all what can be made of a caged name is taken. -/
theorem caged_never_ends (hcaged : Caged name) (tries : Nat) :
    makeReallyUniqueName (fun m => decide (m ∈ fullDirectory name)) tries name = none := by
  obtain ⟨hfirst, hsuffix, hshort⟩ := hcaged
  have hinc : makeIncrementableName name =
      ⟨insertUnderscores name (suffixStart name) 1, suffixStart name, false, true⟩ := by
    rw [makeIncrementableName, if_neg (by simp only [maxSuffix] at hsuffix ⊢; omega),
      if_pos hshort]
  have hbegin : insertUnderscores name (suffixStart name) 1 =
      cagedPart name ++ name.drop (suffixStart name) := rfl
  simp only [makeReallyUniqueName, hinc, if_true, hbegin]
  refine firstFree_caged (i := suffixStart name) (p := cagedPart name) rfl ?_ rfl ?_ tries
    (self_mem_cage _)
  · rw [length_cagedPart]
    exact Nat.lt_succ_self _
  · intro q hq
    exact decide_eq_true (Finset.mem_insert_of_mem (Finset.mem_image_of_mem _ hq))

end Cage

/-- Each directory which has room for a name gets a fresh one, if and only if the colliding name
is not caged. -/
theorem finds_fresh_iff {name : Bytes} (hname : NodeName name) :
    (∀ dir : Finset Bytes, (∀ m ∈ dir, NodeName m) → dir.card < 63 ^ 7 → name ∈ dir →
      FindsFresh dir name) ↔ ¬ Caged name := by
  constructor
  · intro hall hcaged
    obtain ⟨tries, free, hrun, -⟩ := hall (fullDirectory name)
      (nodeName_fullDirectory hname hcaged) (card_fullDirectory hcaged)
      (Finset.mem_insert_self _ _)
    exact absurd (hrun.symm.trans (caged_never_ends hcaged tries)) (Option.some_ne_none free)
  · intro hfree dir _ hsmall _
    exact finds_fresh hname hfree hsmall

/-- The name .abcdefghijklm gets only 63 candidates. -/
theorem hidden_file_caged : ¬ ∀ (dir : Finset Bytes) (name : Bytes), NodeName name →
    (∀ m ∈ dir, NodeName m) → dir.card < 63 ^ 7 → name ∈ dir → FindsFresh dir name := by
  intro claim
  have hname : NodeName (0x2e :: (List.range 13).map fun k => UInt8.ofNat (0x61 + k)) := by
    decide +kernel
  have hcaged : Caged (0x2e :: (List.range 13).map fun k => UInt8.ofNat (0x61 + k)) := by
    decide +kernel
  obtain ⟨tries, free, hrun, -⟩ := claim _ _ hname (nodeName_fullDirectory hname hcaged)
    (card_fullDirectory hcaged) (Finset.mem_insert_self _ _)
  exact absurd (hrun.symm.trans (caged_never_ends hcaged tries)) (Option.some_ne_none free)

theorem short_name_finds_fresh : NodeName [0x61] ∧
    ∀ dir : Finset Bytes, (∀ m ∈ dir, NodeName m) → dir.card < 63 ^ 7 → [0x61] ∈ dir →
      FindsFresh dir [0x61] :=
  ⟨by decide +kernel, (finds_fresh_iff (by decide +kernel)).mpr (by decide +kernel)⟩

end UniqueNameSearch
