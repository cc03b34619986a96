import Libisofs.Lib.Bytes
import Mathlib.Data.List.Perm.Basic
import Mathlib.Logic.Function.Basic
import Mathlib.Tactic.IntervalCases

/-!
# The search for a C/H/S geometry

Each partition address in C/H/S form is an equation for the number of heads per cylinder and of
sectors per head. iso_scan_hc_sh() clears the bits of all geometries which do not solve it. Some
pairs of geometries share a bit.
-/

namespace ChsGeometry

open ByteBuffers

/-- A block address and the triple for it, which has 10, 8, and 6 bits in the partition table. -/
structure Equation where
  lba : UInt32
  cylinder : Nat
  head : Nat
  sector : Nat
  cylinder_lt : cylinder < 1024
  head_lt : head < 256
  sector_lt : sector < 64

/-- The array of 32 * 63 bytes. -/
abbrev Bitmap := Buffer

/-- The byte for `i` heads per cylinder and `j` sectors per head. -/
def cell (i j : Nat) : Nat := i / 8 * 32 + (j - 1)

def mask (i : Nat) : UInt8 := 1 <<< UInt8.ofNat (i % 8)

def fullBitmap : Bitmap := fun _ => 0xff

def hasBit (hcSh : Bitmap) (i j : Nat) : Bool := hcSh (cell i j) &&& mask i != 0

def clearBit (hcSh : Bitmap) (i j : Nat) : Bitmap :=
  Function.update hcSh (cell i j) (hcSh (cell i j) &&& ~~~(mask i))

/-- Solved by each geometry, or the indicator of an invalid triple. -/
def trivialEquation (e : Equation) : Bool :=
  (e.lba == UInt32.ofNat e.sector - 1 && e.cylinder == 0 && e.head == 0) ||
    (e.cylinder == 1023 && 254 ≤ e.head && e.sector == 63)

/-- The address which the triple has in the geometry. -/
def chsAddress (e : Equation) (i j : Nat) : UInt32 :=
  UInt32.ofInt ((((e.cylinder * i + e.head) * j : Nat) : Int) + ((e.sector : Int) - 1))

/-- From 1 to 255. -/
def headCounts : List Nat := (List.range 255).map (· + 1)

/-- From 1 to 63. -/
def sectorCounts : List Nat := (List.range 63).map (· + 1)

def isoScanHcSh (hcSh : Bitmap) (e : Equation) : Bitmap :=
  if trivialEquation e then hcSh
  else
    -- no bit here tells that there are non-trivial equations
    let hcSh := Function.update hcSh 0 (hcSh 0 &&& ~~~1)
    headCounts.foldl (fun hcSh i =>
      sectorCounts.foldl (fun hcSh j =>
        if chsAddress e i j ≠ e.lba then clearBit hcSh i j else hcSh) hcSh) hcSh

def scanAll (eqs : List Equation) : Bitmap := eqs.foldl isoScanHcSh fullBitmap

/-- With 1024 cylinders there are more blocks than the image has. -/
def reaches (imageSize : UInt32) (i j : Nat) : Bool :=
  !(UInt32.ofNat (1024 / 4 * i * j) ≤ imageSize)

def preferred : List (Nat × Nat) := [(64, 32), (255, 63)]

/-- The loop for the largest cylinder. -/
def largestCylinder (hcSh : Bitmap) (imageSize : UInt32) : Nat × Nat :=
  headCounts.foldl (fun best i =>
    sectorCounts.foldl (fun best j =>
      if reaches imageSize i j && hasBit hcSh i j && !(i * j < best.1 * best.2) then (i, j)
      else best) best) (0, 0)

/-- The geometry, or 0 for both numbers if there is none. -/
def isoGetHcSh (hcSh : Bitmap) (imageSize : UInt32) : Nat × Nat :=
  if hcSh 0 &&& 1 ≠ 0 then (0, 0)
  else
    match preferred.find? fun p => reaches imageSize p.1 p.2 && hasBit hcSh p.1 p.2 with
    | some p => p
    | none => largestCylinder hcSh imageSize

/-! ## What the geometries are for -/

def InGrid (i j : Nat) : Prop := 1 ≤ i ∧ i ≤ 255 ∧ 1 ≤ j ∧ j ≤ 63

/-- `lba = (cylinder * i + head) * j + sector - 1` -/
def Solves (e : Equation) (i j : Nat) : Prop :=
  (e.cylinder * i + e.head) * j + e.sector = e.lba.toNat + 1

def SolvesAll (eqs : List Equation) (i j : Nat) : Prop :=
  ∀ e ∈ eqs, trivialEquation e = false → Solves e i j

/-- The bitmap tells the solutions, also if the equations come in another order. A reported
geometry is a solution, and one is reported if there is a solution which is large enough. -/
structure FindsGeometry (eqs : List Equation) (imageSize : UInt32) : Prop where
  bits : ∀ i j, InGrid i j → (hasBit (scanAll eqs) i j = true ↔ SolvesAll eqs i j)
  order : ∀ eqs', eqs'.Perm eqs → scanAll eqs' = scanAll eqs
  reported : ∀ i j, isoGetHcSh (scanAll eqs) imageSize = (i, j) → i ≠ 0 →
    InGrid i j ∧ SolvesAll eqs i j
  found : ∀ i j, InGrid i j → imageSize.toNat < 256 * i * j → SolvesAll eqs i j →
    (isoGetHcSh (scanAll eqs) imageSize).1 ≠ 0

/-- Of each two geometries with a common bit, both are solutions or none is. -/
def Unanimous (eqs : List Equation) : Prop :=
  ∀ i j, 1 ≤ i → i ≤ 247 → 1 ≤ j → j ≤ 31 →
    (SolvesAll eqs i (j + 32) ↔ SolvesAll eqs (i + 8) j)

/-- There is an equation to solve, or the image is too large for all geometries. -/
def WorthSearching (eqs : List Equation) (imageSize : UInt32) : Prop :=
  (∃ e ∈ eqs, trivialEquation e = false) ∨ 256 * 255 * 63 ≤ imageSize.toNat

section Bits

variable {hcSh : Bitmap} {i j k b : Nat}

def bitAt (hcSh : Bitmap) (k b : Nat) : Bool := (hcSh k).toBitVec.getLsbD b

theorem toBitVec_bit (hb : b < 8) :
    (1 <<< UInt8.ofNat b : UInt8).toBitVec = BitVec.twoPow 8 b := by
  interval_cases b <;> rfl

theorem and_bit (x : UInt8) (hb : b < 8) :
    (x &&& 1 <<< UInt8.ofNat b != 0) = x.toBitVec.getLsbD b := by
  have hand : (x &&& 1 <<< UInt8.ofNat b).toBitVec =
      if x.toBitVec.getLsbD b then BitVec.twoPow 8 b else 0 := by
    rw [UInt8.toBitVec_and, toBitVec_bit hb, BitVec.and_twoPow]
    rfl
  have hne : BitVec.twoPow 8 b ≠ 0 := by interval_cases b <;> decide
  rw [Bool.eq_iff_iff, bne_iff_ne, Ne, ← UInt8.toBitVec_inj, hand]
  cases x.toBitVec.getLsbD b
  · simp
  · simpa using hne

theorem getLsbD_cleared (x : UInt8) {c : Nat} (hb : b < 8) (hc : c < 8) :
    (x &&& ~~~(1 <<< UInt8.ofNat b)).toBitVec.getLsbD c =
      (x.toBitVec.getLsbD c && decide (c ≠ b)) := by
  rw [UInt8.toBitVec_and, UInt8.toBitVec_not, toBitVec_bit hb, BitVec.getLsbD_and,
    BitVec.getLsbD_not, BitVec.getLsbD_twoPow]
  have hsymm : b = c ↔ c = b := eq_comm
  simp [hc, hb, hsymm]

theorem hasBit_eq (hcSh : Bitmap) (i j : Nat) :
    hasBit hcSh i j = bitAt hcSh (cell i j) (i % 8) :=
  and_bit _ (Nat.mod_lt i (by decide))

theorem bitAt_clearBit (hb : b < 8) : bitAt (clearBit hcSh i j) k b = true ↔
    bitAt hcSh k b = true ∧ ¬ (cell i j = k ∧ i % 8 = b) := by
  rw [bitAt, clearBit]
  by_cases hk : k = cell i j
  · rw [hk, Function.update_self, mask, getLsbD_cleared _ (Nat.mod_lt i (by decide)) hb,
      Bool.and_eq_true, decide_eq_true_eq, bitAt]
    exact and_congr_right fun _ => not_congr (eq_comm.trans (and_iff_right rfl).symm)
  · rw [Function.update_of_ne hk, bitAt]
    exact (and_iff_left fun h => hk h.1.symm).symm

theorem bitAt_clearMarker (hb : b < 8) :
    bitAt (Function.update hcSh 0 (hcSh 0 &&& ~~~1)) k b = true ↔
      bitAt hcSh k b = true ∧ ¬ (k = 0 ∧ b = 0) := by
  rw [bitAt]
  by_cases hk : k = 0
  · have hcleared := @getLsbD_cleared 0 (hcSh 0) b (by decide) hb
    rw [hk, Function.update_self, bitAt]
    show (hcSh 0 &&& ~~~(1 <<< UInt8.ofNat 0)).toBitVec.getLsbD b = true ↔ _
    rw [hcleared, Bool.and_eq_true, decide_eq_true_eq]
    exact and_congr_right fun _ => not_congr (and_iff_right rfl).symm
  · rw [Function.update_of_ne hk, bitAt]
    exact (and_iff_left fun h => hk h.1).symm

theorem bitmap_ext {m m' : Bitmap} (h : ∀ k b, b < 8 → (bitAt m k b = true ↔ bitAt m' k b = true)) :
    m = m' := by
  funext k
  refine UInt8.toBitVec_inj.mp (BitVec.eq_of_getLsbD_eq fun b hb => ?_)
  exact Bool.eq_iff_iff.mpr (h k b hb)

/-- Two geometries have a common bit if one has 8 heads more and 32 sectors less. -/
theorem sharesBit_iff {i' j' : Nat} (h : InGrid i j) (h' : InGrid i' j') :
    cell i' j' = cell i j ∧ i' % 8 = i % 8 ↔
      (i' = i ∧ j' = j) ∨ (i' = i + 8 ∧ j = j' + 32) ∨ (i = i' + 8 ∧ j' = j + 32) := by
  obtain ⟨hi, hi', hj, hj'⟩ := h
  obtain ⟨gi, gi', gj, gj'⟩ := h'
  rw [cell, cell]
  omega

end Bits

section Scanning

variable {hcSh : Bitmap} {e : Equation} {eqs : List Equation} {i j k b : Nat}

/-- What a loop keeps if each turn keeps it under a condition about the item. -/
theorem foldl_keeps {α β : Type} {step : β → α → β} {Keep : β → Prop} {Q : α → Prop}
    {items : List α} (hstep : ∀ m, ∀ a ∈ items, Keep (step m a) ↔ Keep m ∧ Q a) (m : β) :
    Keep (items.foldl step m) ↔ Keep m ∧ ∀ a ∈ items, Q a := by
  induction items generalizing m with
  | nil => simp
  | cons a rest ih =>
    rw [List.foldl_cons, ih fun m c hc => hstep m c (List.mem_cons_of_mem _ hc),
      hstep m a List.mem_cons_self, List.forall_mem_cons, and_assoc]

theorem mem_headCounts : i ∈ headCounts ↔ 1 ≤ i ∧ i ≤ 255 := by
  simp only [headCounts, List.mem_map, List.mem_range]
  constructor
  · rintro ⟨n, hn, rfl⟩
    omega
  · rintro ⟨hpos, hle⟩
    exact ⟨i - 1, by omega, by omega⟩

theorem mem_sectorCounts : j ∈ sectorCounts ↔ 1 ≤ j ∧ j ≤ 63 := by
  simp only [sectorCounts, List.mem_map, List.mem_range]
  constructor
  · rintro ⟨n, hn, rfl⟩
    omega
  · rintro ⟨hpos, hle⟩
    exact ⟨j - 1, by omega, by omega⟩

/-- The numbers do not wrap around, except with sector 0 where the triple is trivial. -/
theorem chsAddress_eq_iff (hnot : trivialEquation e = false) (hgrid : InGrid i j) :
    chsAddress e i j = e.lba ↔ Solves e i j := by
  obtain ⟨hi, hi', hj, hj'⟩ := hgrid
  have hc := e.cylinder_lt
  have hh := e.head_lt
  have hs := e.sector_lt
  have hl := e.lba.toNat_lt
  have hfactor : e.cylinder * i + e.head ≤ 1023 * 255 + 255 :=
    Nat.add_le_add (Nat.mul_le_mul (by omega) hi') (by omega)
  have hproduct : (e.cylinder * i + e.head) * j ≤ (1023 * 255 + 255) * 63 :=
    Nat.mul_le_mul hfactor hj'
  rw [Solves, ← UInt32.toNat_inj, chsAddress]
  rcases Nat.eq_zero_or_pos ((e.cylinder * i + e.head) * j + e.sector) with hzero | hpos
  · have hnone : (e.cylinder * i + e.head) * j = 0 := by omega
    have hsector : e.sector = 0 := by omega
    have hboth : e.cylinder * i + e.head = 0 := by
      rcases Nat.mul_eq_zero.mp hnone with h | h
      · exact h
      · omega
    have hhead : e.head = 0 := by omega
    have hcylinder : e.cylinder = 0 := by
      rcases Nat.mul_eq_zero.mp (show e.cylinder * i = 0 by omega) with h | h
      · exact h
      · omega
    have hlba : e.lba ≠ 0xffffffff := by
      intro hlba
      rw [trivialEquation, hlba, hhead, hcylinder, hsector] at hnot
      cases hnot
    rw [hnone, hsector]
    have hne : (UInt32.ofInt (((0 : Nat) : Int) + (((0 : Nat) : Int) - 1))).toNat ≠ e.lba.toNat :=
      fun heq => hlba (UInt32.toNat_inj.mp heq).symm
    exact ⟨fun heq => absurd heq hne, fun heq => absurd heq (by omega)⟩
  · have hcast : (((e.cylinder * i + e.head) * j : Nat) : Int) + ((e.sector : Int) - 1) =
        (((e.cylinder * i + e.head) * j + e.sector - 1 : Nat) : Int) := by omega
    rw [hcast, UInt32.ofInt, UInt32.toNat_ofNat']
    omega

/-- The bit is not cleared for the equation. -/
def Spares (e : Equation) (k b : Nat) : Prop :=
  trivialEquation e = false → ¬ (k = 0 ∧ b = 0) ∧
    ∀ i j, InGrid i j → cell i j = k ∧ i % 8 = b → Solves e i j

theorem bitAt_isoScanHcSh (hb : b < 8) :
    bitAt (isoScanHcSh hcSh e) k b = true ↔ bitAt hcSh k b = true ∧ Spares e k b := by
  rw [isoScanHcSh, Spares]
  cases htrivial : trivialEquation e with
  | true => simp
  | false =>
    rw [if_neg Bool.false_ne_true]
    have hturn (i : Nat) (hi : 1 ≤ i ∧ i ≤ 255) (m : Bitmap) (j : Nat) (hj : j ∈ sectorCounts) :
        bitAt (if chsAddress e i j ≠ e.lba then clearBit m i j else m) k b = true ↔
          bitAt m k b = true ∧ (cell i j = k ∧ i % 8 = b → Solves e i j) := by
      have hgrid : InGrid i j := by
        obtain ⟨hj, hj'⟩ := mem_sectorCounts.mp hj
        exact ⟨hi.1, hi.2, hj, hj'⟩
      have hiff := chsAddress_eq_iff htrivial hgrid
      by_cases hsolves : Solves e i j
      · rw [if_neg (not_not.mpr (hiff.mpr hsolves))]
        exact (and_iff_left fun _ => hsolves).symm
      · rw [if_pos (hiff.not.mpr hsolves), bitAt_clearBit hb]
        exact and_congr_right fun _ => ⟨fun h hat => absurd hat h, fun h hat => hsolves (h hat)⟩
    have hrow (m : Bitmap) (i : Nat) (hi : i ∈ headCounts) :=
      @foldl_keeps _ _ _ (fun m => bitAt m k b = true) _ _ (hturn i (mem_headCounts.mp hi)) m
    rw [@foldl_keeps _ _ _ (fun m => bitAt m k b = true) _ _ hrow, bitAt_clearMarker hb, and_assoc]
    refine and_congr_right fun _ => ?_
    simp only [forall_const]
    refine and_congr_right fun _ => ?_
    constructor
    · intro h i j hgrid
      exact h i (mem_headCounts.mpr ⟨hgrid.1, hgrid.2.1⟩) j (mem_sectorCounts.mpr hgrid.2.2)
    · intro h i hi j hj
      obtain ⟨hi, hi'⟩ := mem_headCounts.mp hi
      exact h i j ⟨hi, hi', mem_sectorCounts.mp hj⟩

theorem bitAt_scanAll (hb : b < 8) :
    bitAt (scanAll eqs) k b = true ↔ ∀ e ∈ eqs, Spares e k b := by
  have hfull : bitAt fullBitmap k b = true := by
    rw [bitAt, fullBitmap]
    interval_cases b <;> rfl
  have hturns := @foldl_keeps _ _ isoScanHcSh (fun m => bitAt m k b = true) (fun e => Spares e k b)
    eqs (fun m e _ => bitAt_isoScanHcSh hb) fullBitmap
  exact hturns.trans (and_iff_right hfull)

/-- A bit is left if all geometries for which it stands are solutions. -/
theorem hasBit_scanAll (hgrid : InGrid i j) : hasBit (scanAll eqs) i j = true ↔
    ∀ i' j', InGrid i' j' → cell i' j' = cell i j ∧ i' % 8 = i % 8 → SolvesAll eqs i' j' := by
  have hmarker : ¬ (cell i j = 0 ∧ i % 8 = 0) := by
    obtain ⟨hi, -, -, -⟩ := hgrid
    rw [cell]
    omega
  rw [hasBit_eq, bitAt_scanAll (Nat.mod_lt i (by decide))]
  constructor
  · intro h i' j' hgrid' hshare e he hnot
    exact (h e he hnot).2 i' j' hgrid' hshare
  · intro h e he hnot
    exact ⟨hmarker, fun i' j' hgrid' hshare => h i' j' hgrid' hshare e he hnot⟩

theorem marker_scanAll : scanAll eqs 0 &&& 1 ≠ 0 ↔ ∀ e ∈ eqs, trivialEquation e = true := by
  have hbit : (scanAll eqs 0 &&& 1 != 0) = bitAt (scanAll eqs) 0 0 :=
    and_bit (scanAll eqs 0) (by decide : 0 < 8)
  rw [← bne_iff_ne, hbit, bitAt_scanAll (by decide)]
  refine forall₂_congr fun e _ => ?_
  rw [Spares]
  cases trivialEquation e with
  | true => simp
  | false => simp

theorem scanAll_perm {eqs' : List Equation} (h : eqs'.Perm eqs) : scanAll eqs' = scanAll eqs := by
  refine bitmap_ext fun k b hb => ?_
  rw [bitAt_scanAll hb, bitAt_scanAll hb]
  exact forall_congr' fun e => imp_congr_left h.mem_iff

end Scanning

section Choosing

variable {hcSh : Bitmap} {imageSize : UInt32} {eqs : List Equation} {i j : Nat}

/-- What a loop keeps, and has already or gets in one of its turns. -/
theorem foldl_reaches {α β : Type} {step : β → α → β} {P : β → Prop} {items : List α}
    (hkeep : ∀ m, ∀ a ∈ items, P m → P (step m a)) {m : β}
    (h : P m ∨ ∃ a ∈ items, ∀ m, P (step m a)) : P (items.foldl step m) := by
  induction items generalizing m with
  | nil =>
    rcases h with h | ⟨a, ha, -⟩
    · exact h
    · cases ha
  | cons a rest ih =>
    refine ih (fun m c hc => hkeep m c (List.mem_cons_of_mem _ hc)) ?_
    rcases h with h | ⟨c, hc, hreach⟩
    · exact Or.inl (hkeep m a List.mem_cons_self h)
    · rcases List.mem_cons.mp hc with rfl | hrest
      · exact Or.inl (hreach m)
      · exact Or.inr ⟨c, hrest, hreach⟩

/-- A geometry which is large enough, and has its bit. -/
structure Candidate (hcSh : Bitmap) (imageSize : UInt32) (i j : Nat) : Prop where
  grid : InGrid i j
  reaches : reaches imageSize i j = true
  bit : hasBit hcSh i j = true

theorem reaches_iff (h : InGrid i j) :
    reaches imageSize i j = true ↔ imageSize.toNat < 256 * i * j := by
  obtain ⟨-, hi, -, hj⟩ := h
  have hproduct : i * j ≤ 255 * 63 := Nat.mul_le_mul hi hj
  have hmul : 1024 / 4 * i * j = 256 * (i * j) := Nat.mul_assoc 256 i j
  rw [reaches, Bool.not_eq_true', decide_eq_false_iff_not, UInt32.not_le, UInt32.lt_iff_toNat_lt,
    UInt32.toNat_ofNat', hmul, Nat.mod_eq_of_lt (by omega)]

def chooseTurn (hcSh : Bitmap) (imageSize : UInt32) (i : Nat) (best : Nat × Nat) (j : Nat) :
    Nat × Nat :=
  if reaches imageSize i j && hasBit hcSh i j && !(i * j < best.1 * best.2) then (i, j) else best

theorem chooseTurn_candidate {best : Nat × Nat} (hi : i ∈ headCounts) (hj : j ∈ sectorCounts)
    (h : best = (0, 0) ∨ Candidate hcSh imageSize best.1 best.2) :
    chooseTurn hcSh imageSize i best j = (0, 0) ∨
      Candidate hcSh imageSize (chooseTurn hcSh imageSize i best j).1
        (chooseTurn hcSh imageSize i best j).2 := by
  rw [chooseTurn]
  split
  next hchosen =>
    simp only [Bool.and_eq_true] at hchosen
    obtain ⟨hi, hi'⟩ := mem_headCounts.mp hi
    exact Or.inr ⟨⟨hi, hi', mem_sectorCounts.mp hj⟩, hchosen.1.1, hchosen.1.2⟩
  next => exact h

theorem chooseTurn_ne_zero {best : Nat × Nat} (hi : i ∈ headCounts) (h : best.1 ≠ 0) :
    (chooseTurn hcSh imageSize i best j).1 ≠ 0 := by
  rw [chooseTurn]
  split
  next =>
    have := (mem_headCounts.mp hi).1
    exact show i ≠ 0 by omega
  next => exact h

theorem chooseTurn_found (best : Nat × Nat) (h : Candidate hcSh imageSize i j) :
    (chooseTurn hcSh imageSize i best j).1 ≠ 0 := by
  have hpos := h.grid.1
  rw [chooseTurn, h.reaches, h.bit]
  split
  next => exact show i ≠ 0 by omega
  next hless =>
    intro hzero
    simp [hzero] at hless

theorem largestCylinder_candidate : largestCylinder hcSh imageSize = (0, 0) ∨
    Candidate hcSh imageSize (largestCylinder hcSh imageSize).1
      (largestCylinder hcSh imageSize).2 := by
  have hrow (i : Nat) (hi : i ∈ headCounts) (best : Nat × Nat)
      (h : best = (0, 0) ∨ Candidate hcSh imageSize best.1 best.2) :=
    @foldl_reaches _ _ (chooseTurn hcSh imageSize i)
      (fun best => best = (0, 0) ∨ Candidate hcSh imageSize best.1 best.2) sectorCounts
      (fun best j hj => chooseTurn_candidate hi hj) best (Or.inl h)
  exact @foldl_reaches _ _ _
    (fun best => best = (0, 0) ∨ Candidate hcSh imageSize best.1 best.2) headCounts
    (fun best i hi => hrow i hi best) (0, 0) (Or.inl (Or.inl rfl))

theorem largestCylinder_found (h : Candidate hcSh imageSize i j) :
    (largestCylinder hcSh imageSize).1 ≠ 0 := by
  obtain ⟨hi, hi', hj, hj'⟩ := h.grid
  have hmem : i ∈ headCounts := mem_headCounts.mpr ⟨hi, hi'⟩
  have hrow (k : Nat) (hk : k ∈ headCounts) (best : Nat × Nat) (hbest : best.1 ≠ 0 ∨ k = i) :
      (sectorCounts.foldl (chooseTurn hcSh imageSize k) best).1 ≠ 0 := by
    refine @foldl_reaches _ _ (chooseTurn hcSh imageSize k) (fun best => best.1 ≠ 0) sectorCounts
      (fun best j _ => chooseTurn_ne_zero hk) best (hbest.imp_right ?_)
    rintro rfl
    exact ⟨j, mem_sectorCounts.mpr ⟨hj, hj'⟩, fun best => chooseTurn_found best h⟩
  exact @foldl_reaches _ _ _ (fun best => best.1 ≠ 0) headCounts
    (fun best k hk hbest => hrow k hk best (Or.inl hbest)) (0, 0)
    (Or.inr ⟨i, hmem, fun best => hrow i hmem best (Or.inr rfl)⟩)

/-- With the marker cleared, a geometry is reported exactly if there is a candidate. -/
theorem isoGetHcSh_candidate (hmarker : ¬ hcSh 0 &&& 1 ≠ 0) :
    (isoGetHcSh hcSh imageSize = (0, 0) ∨ Candidate hcSh imageSize
      (isoGetHcSh hcSh imageSize).1 (isoGetHcSh hcSh imageSize).2) ∧
    ∀ i j, Candidate hcSh imageSize i j → (isoGetHcSh hcSh imageSize).1 ≠ 0 := by
  rw [isoGetHcSh, if_neg hmarker]
  cases hfind : preferred.find? fun p => reaches imageSize p.1 p.2 && hasBit hcSh p.1 p.2 with
  | some p =>
    have hgrid : InGrid p.1 p.2 := by
      have hmem := List.mem_of_find?_eq_some hfind
      simp only [preferred, List.mem_cons, List.not_mem_nil, or_false] at hmem
      rcases hmem with rfl | rfl
      · exact ⟨by decide, by decide, by decide, by decide⟩
      · exact ⟨by decide, by decide, by decide, by decide⟩
    have hchosen := List.find?_some hfind
    obtain ⟨hreach, hbit⟩ := Bool.and_eq_true_iff.mp hchosen
    refine ⟨Or.inr ⟨hgrid, hreach, hbit⟩, fun _ _ _ => ?_⟩
    have := hgrid.1
    exact show p.1 ≠ 0 by omega
  | none => exact ⟨largestCylinder_candidate, fun i j => largestCylinder_found⟩

end Choosing

section Main

variable {eqs : List Equation} {imageSize : UInt32} {i j : Nat}

theorem solvesAll_of_hasBit (hgrid : InGrid i j) (h : hasBit (scanAll eqs) i j = true) :
    SolvesAll eqs i j :=
  (hasBit_scanAll hgrid).mp h i j hgrid ⟨rfl, rfl⟩

theorem FindsGeometry.unanimous (h : FindsGeometry eqs imageSize) : Unanimous eqs := by
  intro i j hi hi' hj hj'
  have hmany : InGrid i (j + 32) := ⟨hi, by omega, by omega, by omega⟩
  have hfew : InGrid (i + 8) j := ⟨by omega, by omega, hj, by omega⟩
  have hcell : cell i (j + 32) = cell (i + 8) j := by
    rw [cell, cell]
    omega
  have hsame : hasBit (scanAll eqs) i (j + 32) = hasBit (scanAll eqs) (i + 8) j := by
    rw [hasBit_eq, hasBit_eq, hcell, Nat.add_mod_right]
  rw [← h.bits _ _ hmany, ← h.bits _ _ hfew, hsame]

theorem FindsGeometry.worthSearching (h : FindsGeometry eqs imageSize) :
    WorthSearching eqs imageSize := by
  by_contra hworthless
  simp only [WorthSearching, not_or, not_exists, not_and, Nat.not_le] at hworthless
  obtain ⟨htrivial, hsmall⟩ := hworthless
  have hmarker : scanAll eqs 0 &&& 1 ≠ 0 :=
    marker_scanAll.mpr fun e he => Bool.eq_true_of_not_eq_false (htrivial e he)
  refine h.found 255 63 ⟨by decide, by decide, by decide, by decide⟩ hsmall
    (fun e he hnot => absurd hnot (htrivial e he)) ?_
  rw [isoGetHcSh, if_pos hmarker]

theorem Unanimous.bits (h : Unanimous eqs) (hgrid : InGrid i j) :
    hasBit (scanAll eqs) i j = true ↔ SolvesAll eqs i j := by
  refine ⟨solvesAll_of_hasBit hgrid, fun hsolves => (hasBit_scanAll hgrid).mpr ?_⟩
  intro i' j' hgrid' hshare
  obtain ⟨hi, hi', hj, hj'⟩ := hgrid
  obtain ⟨gi, gi', gj, gj'⟩ := hgrid'
  rcases (sharesBit_iff ⟨hi, hi', hj, hj'⟩ ⟨gi, gi', gj, gj'⟩).mp hshare with
    ⟨rfl, rfl⟩ | ⟨rfl, rfl⟩ | ⟨rfl, rfl⟩
  · exact hsolves
  · exact (h i j' (by omega) (by omega) (by omega) (by omega)).mp hsolves
  · exact (h i' j (by omega) (by omega) (by omega) (by omega)).mpr hsolves

theorem isoGetHcSh_solves (hmatch : isoGetHcSh (scanAll eqs) imageSize = (i, j)) (hi : i ≠ 0) :
    InGrid i j ∧ SolvesAll eqs i j := by
  have hmarker : ¬ scanAll eqs 0 &&& 1 ≠ 0 := by
    intro hmarker
    rw [isoGetHcSh, if_pos hmarker] at hmatch
    exact hi (Prod.mk.inj hmatch).1.symm
  have hcandidate := (@isoGetHcSh_candidate _ imageSize hmarker).1
  rw [hmatch] at hcandidate
  rcases hcandidate with hnone | hcandidate
  · exact absurd (Prod.mk.inj hnone).1 hi
  · exact ⟨hcandidate.grid, solvesAll_of_hasBit hcandidate.grid hcandidate.bit⟩

/-- The search works if and only if no common bit gets cleared for only one of its geometries,
and there is something to search for. -/
theorem findsGeometry_iff (eqs : List Equation) (imageSize : UInt32) :
    FindsGeometry eqs imageSize ↔ Unanimous eqs ∧ WorthSearching eqs imageSize := by
  constructor
  · exact fun h => ⟨h.unanimous, h.worthSearching⟩
  · rintro ⟨hunanimous, hworth⟩
    constructor
    case bits => exact fun i j => hunanimous.bits
    case order => exact fun eqs' => scanAll_perm
    case reported => exact fun i j => isoGetHcSh_solves
    case found =>
      intro i j hgrid hlarge hsolves
      rcases hworth with ⟨e, he, hnot⟩ | hhuge
      · have hmarker : ¬ scanAll eqs 0 &&& 1 ≠ 0 := by
          intro hmarker
          rw [marker_scanAll.mp hmarker e he] at hnot
          cases hnot
        exact (isoGetHcSh_candidate hmarker).2 i j
          ⟨hgrid, (reaches_iff hgrid).mpr hlarge, (hunanimous.bits hgrid).mpr hsolves⟩
      · obtain ⟨-, hi, -, hj⟩ := hgrid
        have hproduct : 256 * i * j ≤ 256 * 255 * 63 :=
          Nat.mul_le_mul (Nat.mul_le_mul_left _ hi) hj
        omega

/-- The first sector of cylinder 1, with 16 heads and 63 sectors. -/
def cylinderOne : Equation := ⟨1008, 1, 0, 1, by decide, by decide, by decide⟩

/-- The geometry with 16 heads and 63 sectors is a solution. The one with 24 heads and 31
sectors is none, and shares its bit. -/
theorem cylinderOne_not_found : ¬ FindsGeometry [cylinderOne] 1000 := by
  intro h
  have hsolution : SolvesAll [cylinderOne] 16 63 := by
    intro e he _
    rw [List.mem_singleton.mp he]
    exact show (1 * 16 + 0) * 63 + 1 = 1008 + 1 by decide
  have hother := (h.unanimous 16 31 (by decide) (by decide) (by decide) (by decide)).mp hsolution
    cylinderOne List.mem_cons_self (by decide)
  exact absurd hother (show ¬ (1 * 24 + 0) * 31 + 1 = 1008 + 1 by decide)

end Main

end ChsGeometry
