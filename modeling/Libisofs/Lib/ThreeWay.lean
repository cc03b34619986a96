import Mathlib.Data.Int.Order.Basic
import Mathlib.Data.List.Basic

/-!
# Three-way comparisons and their keys

A comparison function in the style of strcmp() answers with a number whose sign
counts. Such a cascade of tests is a total preorder as soon as there is a key, a
list of words, whose lexicographic order it reproduces.
-/

namespace ThreeWay

universe u v
variable {α : Type u}

/-- A key is read word by word, a word number by number. -/
abbrev Key := List (List Int)

def sign (c : Int) : Ordering := compare c 0

@[simp] theorem sign_zero : sign 0 = .eq := rfl

@[simp] theorem sign_neg_one : sign (-1) = .lt := rfl

@[simp] theorem sign_one : sign 1 = .gt := rfl

theorem sign_eq_lt {c : Int} : sign c = .lt ↔ c < 0 := Int.compare_eq_lt

theorem sign_eq_gt {c : Int} : sign c = .gt ↔ 0 < c := by
  rw [sign, Std.OrientedCmp.gt_iff_lt, Int.compare_eq_lt]

theorem sign_eq_eq {c : Int} : sign c = .eq ↔ c = 0 := Std.LawfulEqCmp.compare_eq_iff_eq

theorem sign_isLE {c : Int} : (sign c).isLE ↔ c ≤ 0 := by
  rw [Ordering.isLE_iff_eq_lt_or_eq_eq, sign_eq_lt, sign_eq_eq]
  omega

theorem sign_surjective (o : Ordering) : ∃ c, sign c = o := by
  cases o with
  | lt => exact ⟨-1, rfl⟩
  | eq => exact ⟨0, rfl⟩
  | gt => exact ⟨1, rfl⟩

/-- The elements in the other order. -/
theorem sign_neg (c : Int) : sign (-c) = (sign c).swap := by
  rcases lt_trichotomy c 0 with h | rfl | h
  · rw [sign_eq_lt.mpr h]
    exact sign_eq_gt.mpr (by omega)
  · rfl
  · rw [sign_eq_gt.mpr h]
    exact sign_eq_lt.mpr (by omega)

/-- `if (x != y) return x < y ? -1 : 1;` and what comes behind it. -/
def byValue (x y rest : Int) : Int :=
  if x ≠ y then (if x < y then -1 else 1) else rest

/-- `if (ret) return ret;` and what comes behind it. -/
def unlessZero (ret rest : Int) : Int :=
  if ret ≠ 0 then ret else rest

theorem sign_byValue (x y rest : Int) :
    sign (byValue x y rest) = (compare x y).then (sign rest) := by
  rcases lt_trichotomy x y with h | rfl | h
  · simp [byValue, h, Int.ne_of_lt h, Int.compare_eq_lt.mpr h]
  · simp [byValue]
  · have hgt : compare x y = .gt := Std.OrientedCmp.gt_iff_lt.mpr (Int.compare_eq_lt.mpr h)
    simp [byValue, Int.ne_of_gt h, Int.not_lt.mpr (Int.le_of_lt h), hgt]

theorem sign_unlessZero (ret rest : Int) :
    sign (unlessZero ret rest) = (sign ret).then (sign rest) := by
  by_cases h : ret = 0
  · simp [unlessZero, h]
  · rw [unlessZero, if_pos h]
    cases hs : sign ret with
    | eq => exact absurd (sign_eq_eq.mp hs) h
    | lt | gt => rfl

/-- `x < y ? -1 : 1` where equality is out of question, as with pointers. -/
theorem sign_of_ne {a b : Nat} (hne : a ≠ b) :
    sign (if a < b then -1 else 1) = compare (a : Int) b := by
  have := sign_byValue a b 0
  simpa only [byValue, ne_eq, Int.natCast_inj, hne, not_false_eq_true, if_true,
    Int.ofNat_lt, sign_zero, Ordering.then_eq] using this

/-- Numbers with a minus sign are read downwards. -/
theorem compare_neg (a b : Int) : compare (-a) (-b) = compare b a := by
  rcases lt_trichotomy a b with h | rfl | h
  · rw [Std.OrientedCmp.gt_iff_lt.mpr (Int.compare_eq_lt.mpr h)]
    exact Std.OrientedCmp.gt_iff_lt.mpr (Int.compare_eq_lt.mpr (Int.neg_lt_neg h))
  · simp
  · rw [Int.compare_eq_lt.mpr h]
    exact Int.compare_eq_lt.mpr (Int.neg_lt_neg h)

/-- Behind a test of two values, they may be taken as equal. -/
theorem then_congr {a b : Int} {o o' : Ordering} (heq : a = b → o = o') :
    (compare a b).then o = (compare a b).then o' := by
  by_cases hab : a = b
  · rw [heq hab]
  · have hne : compare a b ≠ .eq := fun hc => hab (Std.LawfulEqCmp.compare_eq_iff_eq.mp hc)
    cases hc : compare a b with
    | eq => exact absurd hc hne
    | lt | gt => rfl

/-- Behind a difference, nothing counts. -/
theorem compare_then_of_ne {a b : Nat} (hne : a ≠ b) (o : Ordering) :
    (compare (a : Int) b).then o = sign (if a < b then -1 else 1) := by
  rw [sign_of_ne hne]
  have skip : (compare (a : Int) b).then o = (compare (a : Int) b).then .eq :=
    then_congr fun heq => absurd heq (by omega)
  simpa using skip

/-- strcmp(), and memcmp() on blocks of the same length. -/
def strcmp : List UInt8 → List UInt8 → Int
  | [], [] => 0
  | [], _ :: _ => -1
  | _ :: _, [] => 1
  | a :: s, b :: t => byValue a.toNat b.toNat (strcmp s t)

def letters (s : List UInt8) : List Int := s.map fun a => (a.toNat : Int)

theorem sign_strcmp (s t : List UInt8) :
    sign (strcmp s t) = compare (letters s) (letters t) := by
  induction s generalizing t with
  | nil => cases t <;> rfl
  | cons a s ih =>
    cases t with
    | nil => rfl
    | cons b t =>
      rw [strcmp, sign_byValue, ih]
      simp only [letters, List.map_cons, List.compare_cons_cons]

theorem letters_injective {s t : List UInt8} (heq : letters s = letters t) : s = t := by
  have hinj : Function.Injective fun a : UInt8 => (a.toNat : Int) := fun a b hab =>
    UInt8.toNat_inj.mp (Int.natCast_inj.mp hab)
  exact List.map_injective_iff.mpr hinj heq

theorem strcmp_eq_zero {s t : List UInt8} : strcmp s t = 0 ↔ s = t := by
  rw [← sign_eq_eq, sign_strcmp]
  constructor
  · intro heq
    exact letters_injective (Std.LawfulEqCmp.compare_eq_iff_eq.mp heq)
  · rintro rfl
    exact Std.ReflCmp.compare_self

theorem strcmp_lt_zero {s t : List UInt8} :
    strcmp s t < 0 ↔ compare (letters s) (letters t) = .lt := by
  rw [← sign_strcmp]
  exact Int.compare_eq_lt.symm

theorem strcmp_self (s : List UInt8) : strcmp s s = 0 := strcmp_eq_zero.mpr rfl

theorem strcmp_lt_trans {s t u : List UInt8} (hst : strcmp s t < 0) (htu : strcmp t u < 0) :
    strcmp s u < 0 := by
  rw [strcmp_lt_zero] at hst htu ⊢
  exact Std.TransCmp.lt_trans hst htu

theorem strcmp_lt_of_not {s t : List UInt8} (hlt : ¬ strcmp s t < 0) (hne : s ≠ t) :
    strcmp t s < 0 := by
  rw [strcmp_lt_zero] at hlt ⊢
  cases hcmp : compare (letters s) (letters t) with
  | lt => exact absurd hcmp hlt
  | eq => exact absurd (letters_injective (Std.LawfulEqCmp.compare_eq_iff_eq.mp hcmp)) hne
  | gt => exact Std.OrientedCmp.gt_iff_lt.mp hcmp

/-- A loop over two arrays of the same length which stops at the first difference. -/
def firstDifference (cmp : α → α → Int) : List α → List α → Int
  | a :: as, b :: bs => unlessZero (cmp a b) (firstDifference cmp as bs)
  | _, _ => 0

theorem sign_firstDifference {cmp : α → α → Int} {word : α → List Int}
    (agree : ∀ a b, sign (cmp a b) = compare (word a) (word b)) {as bs : List α}
    (hlen : as.length = bs.length) (rest : Int) (k k' : Key)
    (hrest : sign rest = compare k k') :
    sign (unlessZero (firstDifference cmp as bs) rest) =
      compare (as.map word ++ k) (bs.map word ++ k') := by
  induction as generalizing bs with
  | nil =>
    obtain rfl := List.length_eq_zero_iff.mp hlen.symm
    simpa [firstDifference, unlessZero] using hrest
  | cons a as ih =>
    cases bs with
    | nil => simp at hlen
    | cons b bs =>
      have htail := ih (by simpa using hlen)
      rw [sign_unlessZero] at htail ⊢
      simp only [firstDifference, sign_unlessZero, List.map_cons, List.cons_append,
        List.compare_cons_cons, agree, Ordering.then_assoc, htail]

theorem compare_append_same (p k k' : Key) : compare (p ++ k) (p ++ k') = compare k k' := by
  induction p with
  | nil => rfl
  | cons w p ih => simp [List.compare_cons_cons, ih]

section Agrees

variable {κ : Type v} [Ord κ] {key : α → κ} {a b c : α} {x y z : Int}

/-- The answer `ret` for the pair is what the order of the keys says. -/
def Agrees (key : α → κ) (a b : α) (ret : Int) : Prop :=
  sign ret = compare (key a) (key b)

variable [Std.TransOrd κ]

theorem Agrees.antisymm (hab : Agrees key a b x) (hba : Agrees key b a y) :
    0 < x ↔ y < 0 := by
  rw [← sign_eq_gt, ← sign_eq_lt, hab, hba]
  exact Std.OrientedCmp.gt_iff_lt

theorem Agrees.lt_trans (hab : Agrees key a b x) (hbc : Agrees key b c y)
    (hac : Agrees key a c z) (hx : x < 0) (hy : y < 0) : z < 0 := by
  rw [← sign_eq_lt] at hx hy ⊢
  rw [hab] at hx
  rw [hbc] at hy
  rw [hac]
  exact Std.TransCmp.lt_trans hx hy

theorem Agrees.le_trans (hab : Agrees key a b x) (hbc : Agrees key b c y)
    (hac : Agrees key a c z) (hx : x ≤ 0) (hy : y ≤ 0) : z ≤ 0 := by
  rw [← sign_isLE] at hx hy ⊢
  rw [hab] at hx
  rw [hbc] at hy
  rw [hac]
  exact Std.TransCmp.isLE_trans hx hy

theorem Agrees.eq_trans (hab : Agrees key a b x) (hbc : Agrees key b c y)
    (hac : Agrees key a c z) (hx : x = 0) (hy : y = 0) : z = 0 := by
  rw [← sign_eq_eq] at hx hy ⊢
  rw [hab] at hx
  rw [hbc] at hy
  rw [hac]
  exact Std.TransCmp.eq_trans hx hy

/-- Answers given to pairs which together describe a total preorder: whoever asks
again gets the same sign, whoever asks the other way round the opposite one, and
neither "less" nor "equal" can be chained to a contradiction. -/
structure TotalPreorder (answered : α → α → Int → Prop) : Prop where
  stable : ∀ {a b x y}, answered a b x → answered a b y → sign x = sign y
  antisymm : ∀ {a b x y}, answered a b x → answered b a y → (0 < x ↔ y < 0)
  lt_trans : ∀ {a b c x y z}, answered a b x → answered b c y → answered a c z →
    x < 0 → y < 0 → z < 0
  le_trans : ∀ {a b c x y z}, answered a b x → answered b c y → answered a c z →
    x ≤ 0 → y ≤ 0 → z ≤ 0
  eq_trans : ∀ {a b c x y z}, answered a b x → answered b c y → answered a c z →
    x = 0 → y = 0 → z = 0

theorem TotalPreorder.of_key {answered : α → α → Int → Prop}
    (agree : ∀ {a b x}, answered a b x → Agrees key a b x) : TotalPreorder answered where
  stable hx hy := (agree hx).trans (agree hy).symm
  antisymm hab hba := (agree hab).antisymm (agree hba)
  lt_trans hab hbc hac := (agree hab).lt_trans (agree hbc) (agree hac)
  le_trans hab hbc hac := (agree hab).le_trans (agree hbc) (agree hac)
  eq_trans hab hbc hac := (agree hab).eq_trans (agree hbc) (agree hac)

end Agrees

end ThreeWay
