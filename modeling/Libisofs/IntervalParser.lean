import Libisofs.Lib.Texts
import Libisofs.Lib.Unrolling
import Mathlib.Data.List.TakeWhile
import Mathlib.Tactic.Ring

/-!
# Interval reader description strings

The parser of ecma119.c does not cut the string apart. A pointer into it is the text from there
on, and the end of a component is given by the number of bytes from there on. Shortage of memory
is left out, and with it the size of the array of zeroizers.
-/

namespace IntervalParser

open Texts Unrollings

def colon : UInt8 := 0x3a

def comma : UInt8 := 0x2c

def dash : UInt8 := 0x2d

/-- ISO_MALFORMED_READ_INTVL -/
def malformedReadIntvl : Int := 0xE830FE69 - 2 ^ 32

/-- off_t has 64 bits and wraps around. -/
def offT (n : Int) : Int := (n + 2 ^ 63) % 2 ^ 64 - 2 ^ 63

def strchr (c : UInt8) : Bytes → Option Bytes
  | [] => none
  | b :: s => if b = c then some (b :: s) else strchr c s

/-- strncmp(s, word, n) == 0 -/
def sameStart : Nat → (s word : Bytes) → Bool
  | 0, _, _ => true
  | _ + 1, [], [] => true
  | n + 1, b :: s, w :: word => b == w && sameStart n s word
  | _ + 1, _, _ => false

/-! ## Numbers -/

def digits (s : Bytes) : Bytes := s.takeWhile fun c => decide (IsDigit c)

/-- What follows the digits at the start of a text. -/
def afterDigits (s : Bytes) : Bytes := s.dropWhile fun c => decide (IsDigit c)

/-- fac -/
def unitFactor (c : UInt8) : Nat :=
  if c = charByte 'k' ∨ c = charByte 'K' then 1024
  else if c = charByte 'm' ∨ c = charByte 'M' then 1024 * 1024
  else if c = charByte 'g' ∨ c = charByte 'G' then 1024 * 1024 * 1024
  else if c = charByte 't' ∨ c = charByte 'T' then 1024 * 1024 * 1024 * 1024
  else if c = charByte 's' ∨ c = charByte 'S' then 2048
  else if c = charByte 'd' ∨ c = charByte 'D' then 512
  else 1

/-- The factor by the character at rpt. -/
def factorAt (rpt : Bytes) : Nat :=
  match rpt with
  | [] => 1
  | c :: _ => unitFactor c

/-- `bit0` asks for -1 on failure, `last` for the last byte of the last unit. -/
def isoScanfIoSize (text : Bytes) (bit0 last : Bool) : Int :=
  if digits text = [] then
    if bit0 then -1 else 0
  else
    let ret := (digits text).foldl (fun ret c => offT (ret * 10 + (c.toNat - 48))) 0
    let fac : Int := factorAt (afterDigits text)
    let scaled := offT (ret * fac)
    if last then offT (scaled + (fac - 1)) else scaled

/-- The end is where `endLeft` bytes are left. The copy of the text gets not used. -/
def isoIvrReadNumber (start : Bytes) (endLeft : Nat) (last : Bool) : Except Int Int :=
  let len : Int := start.length - endLeft
  if len ≤ 0 ∨ len > 16 then .error malformedReadIntvl
  else
    let num := isoScanfIoSize start true last
    if num < 0 ∨ num > 281474976710655 then .error malformedReadIntvl else .ok num

/-- The second number ends one byte before the given end. -/
def isoIvrParseInterval (start : Bytes) (endLeft : Nat) : Except Int (Int × Int) :=
  match strchr dash start with
  | none => .error malformedReadIntvl
  | some m => do
    let startByte ← isoIvrReadNumber start m.length false
    let endByte ← isoIvrReadNumber m.tail (endLeft + 1) true
    return (startByte, endByte)

/-! ## Components -/

/-- Types 1 to 3 are the keywords. They leave the numbers as they were prepared. -/
structure IsoIntervalZeroizer where
  zType : Nat
  zeroStart : Int
  zeroEnd : Int
  deriving DecidableEq

structure IsoIntervalReader where
  flags : Nat
  startByte : Int
  endByte : Int
  zeroizers : List IsoIntervalZeroizer
  source : Bytes
  deriving DecidableEq

def mbrptWord : Bytes := text "zero_mbrpt"

def gptWord : Bytes := text "zero_gpt"

def apmWord : Bytes := text "zero_apm"

def importedWord : Bytes := text "imported_iso"

def localWord : Bytes := text "local_fs"

/-- The text at rpt, and the zeroizers so far. -/
structure Walk where
  rpt : Bytes
  zeroizers : List IsoIntervalZeroizer

def Walk.next (s : Walk) (n : Nat) (z : IsoIntervalZeroizer) : Walk :=
  ⟨s.rpt.drop (n + 1), s.zeroizers ++ [z]⟩

/-- The number of bytes from cpt on. -/
def elementEnd (rpt : Bytes) (endLeft : Nat) : Nat :=
  match strchr comma rpt with
  | none => endLeft
  | some cpt => if cpt.length < endLeft then endLeft else cpt.length

/-- One turn of the loop. An empty element leads to a next turn without any progress. -/
def zeroizerTurn (endLeft : Nat) (s : Walk) :
    Unrolling (Walk ⊕ Except Int (List IsoIntervalZeroizer)) := fun _ =>
  if endLeft < s.rpt.length then
    let n := s.rpt.length - elementEnd s.rpt endLeft
    if n = 0 then some (.inl s)
    else if sameStart n s.rpt mbrptWord then some (.inl (s.next n ⟨1, 0, -1⟩))
    else if sameStart n s.rpt gptWord then some (.inl (s.next n ⟨2, 0, -1⟩))
    else if sameStart n s.rpt apmWord then some (.inl (s.next n ⟨3, 0, -1⟩))
    else
      match isoIvrParseInterval s.rpt (elementEnd s.rpt endLeft) with
      | .error ret => some (.inr (.error ret))
      | .ok (zeroStart, zeroEnd) => some (.inl (s.next n ⟨0, zeroStart, zeroEnd⟩))
  else some (.inr (.ok s.zeroizers))

def isoIvrParseZeroizers (pathpt : Bytes) (endLeft : Nat) :
    Unrolling (Except Int (List IsoIntervalZeroizer)) := fun n =>
  if pathpt = [] ∨ pathpt.length = endLeft then some (.ok [])
  else loop (zeroizerTurn endLeft) n ⟨pathpt, []⟩

def isoIvrNextComp (readPt : Option Bytes) : Option Bytes :=
  readPt.bind fun readPt => (strchr colon readPt).map List.tail

def isoIvrParse (path : Bytes) : Unrolling (Except Int IsoIntervalReader) := fun n =>
  let intervalPt := isoIvrNextComp (some path)
  let zeroizePt := isoIvrNextComp intervalPt
  let sourcePt := isoIvrNextComp zeroizePt
  match intervalPt, zeroizePt, sourcePt with
  | some intervalPt, some zeroizePt, some sourcePt =>
    if sameStart 12 path importedWord || sameStart 8 path localWord then
      let flags := if sameStart 12 path importedWord then 1 else 0
      match isoIvrParseInterval intervalPt zeroizePt.length with
      | .error ret => some (.error ret)
      | .ok (startByte, endByte) =>
        (isoIvrParseZeroizers zeroizePt (sourcePt.length + 1) n).bind fun result =>
          match result with
          | .error ret => some (.error ret)
          | .ok zeroizers => some (.ok ⟨flags, startByte, endByte, zeroizers, sourcePt⟩)
    else some (.error malformedReadIntvl)
  | _, _, _ => some (.error malformedReadIntvl)

/-! ## Searches -/

section Searches

variable {c d : UInt8} {s t word rest : Bytes} {n : Nat}

theorem strchr_append (h : c ∉ t) : strchr c (t ++ s) = strchr c s := by
  induction t with
  | nil => rfl
  | cons b t ih =>
    have hb : b ≠ c := fun hb => h (hb ▸ List.mem_cons_self)
    rw [List.cons_append, strchr, if_neg hb, ih fun hmem => h (List.mem_cons_of_mem _ hmem)]

theorem strchr_found (rest : Bytes) (h : c ∉ t) : strchr c (t ++ c :: rest) = some (c :: rest) := by
  rw [strchr_append h, strchr, if_pos rfl]

theorem strchr_notMem (h : c ∉ t) : strchr c t = none := by
  have hnil := strchr_append (s := []) h
  rwa [List.append_nil] at hnil

theorem length_strchr_le (h : strchr c s = some t) : 1 ≤ t.length ∧ t.length ≤ s.length := by
  induction s with
  | nil => cases h
  | cons b s ih =>
    rw [strchr] at h
    split at h
    · cases h
      exact ⟨Nat.succ_pos _, le_rfl⟩
    · exact ⟨(ih h).1, (ih h).2.trans (Nat.le_succ _)⟩

/-- A comparison with a whole word. -/
theorem sameStart_word (word : Bytes) : sameStart word.length s word = true ↔ word <+: s := by
  induction word generalizing s with
  | nil => simp [sameStart]
  | cons w word ih =>
    cases s with
    | nil => simp [sameStart]
    | cons b s =>
      rw [List.length_cons, sameStart, Bool.and_eq_true, beq_iff_eq, ih, List.cons_prefix_cons,
        eq_comm]

/-- A comparison which goes to the end of a component. -/
theorem sameStart_component : sameStart t.length (t ++ s) word = true ↔ t <+: word := by
  induction t generalizing word with
  | nil => simp [sameStart]
  | cons b t ih =>
    cases word with
    | nil => simp [sameStart]
    | cons w word =>
      rw [List.length_cons, List.cons_append, sameStart, Bool.and_eq_true, beq_iff_eq, ih,
        List.cons_prefix_cons]

theorem nextComp_found (rest : Bytes) (h : colon ∉ t) :
    isoIvrNextComp (some (t ++ colon :: rest)) = some rest := by
  rw [isoIvrNextComp, Option.bind_some, strchr_found rest h]
  rfl

theorem nextComp_none (h : colon ∉ t) : isoIvrNextComp (some t) = none := by
  rw [isoIvrNextComp, Option.bind_some, strchr_notMem h]
  rfl

end Searches

/-! ## Reading of numbers -/

/-- No digit and no unit letter. -/
def Delimits (d : UInt8) : Prop := ¬ IsDigit d ∧ unitFactor d = 1

instance : DecidablePred Delimits := fun d =>
  inferInstanceAs (Decidable (¬ IsDigit d ∧ unitFactor d = 1))

/-- The mathematical value of a number with its unit. -/
def numberSize (last : Bool) (t : Bytes) : Nat :=
  leadingNumber t * factorAt (afterDigits t) + if last then factorAt (afterDigits t) - 1 else 0

def maxNumber : Nat := 2 ^ 48 - 1

/-- Which number texts get accepted if the end is given `short` bytes too early. -/
def Readable (short : Nat) (last : Bool) (t : Bytes) : Prop :=
  (short < t.length ∧ t.length ≤ short + 16) ∧ digits t ≠ [] ∧
    numberSize last t % 2 ^ 64 ≤ maxNumber

section Numbers

variable {c d : UInt8} {s t rest : Bytes} {m n short : Nat} {last : Bool}

theorem factorAt_pos (s : Bytes) : 1 ≤ factorAt s := by
  unfold factorAt
  split
  · exact le_rfl
  · unfold unitFactor
    split_ifs <;> decide

theorem digits_append (hd : ¬ IsDigit d) : digits (t ++ d :: rest) = digits t := by
  induction t with
  | nil => exact List.takeWhile_cons_of_neg (by simpa using hd)
  | cons b t ih =>
    by_cases hb : IsDigit b
    · simp only [digits, List.cons_append, List.takeWhile_cons, hb, decide_true, if_true] at ih ⊢
      rw [ih]
    · simp [digits, hb]

theorem afterDigits_append (hd : ¬ IsDigit d) :
    afterDigits (t ++ d :: rest) = afterDigits t ++ d :: rest := by
  induction t with
  | nil => exact List.dropWhile_cons_of_neg (by simpa using hd)
  | cons b t ih =>
    by_cases hb : IsDigit b
    · simp only [afterDigits, List.cons_append, List.dropWhile_cons, hb, decide_true,
        if_true] at ih ⊢
      rw [ih]
    · simp [afterDigits, hb]

theorem factorAt_append (hd : Delimits d) :
    factorAt (afterDigits (t ++ d :: rest)) = factorAt (afterDigits t) := by
  rw [afterDigits_append hd.1]
  cases afterDigits t with
  | nil => exact hd.2
  | cons c s => rfl

theorem numberSize_append (hd : Delimits d) :
    numberSize last (t ++ d :: rest) = numberSize last t := by
  have hdigits : leadingNumber (t ++ d :: rest) = leadingNumber t :=
    congrArg (List.foldl _ 0) (digits_append hd.1)
  rw [numberSize, numberSize, factorAt_append hd, hdigits]

theorem offT_offT_add (a b : Int) : offT (offT a + b) = offT (a + b) := by
  unfold offT
  omega

theorem offT_of_lt {n : Nat} (h : n < 2 ^ 63) : offT n = n := by
  unfold offT
  omega

/-- As long as there are at most 18 digits, the sum does not exceed its type. -/
theorem fold_digits (s : Bytes) (hs : ∀ c ∈ s, IsDigit c) (hm : m < 10 ^ n)
    (hlen : n + s.length ≤ 18) :
    s.foldl (fun (ret : Int) c => offT (ret * 10 + (c.toNat - 48))) m =
      (s.foldl (fun sofar c => 10 * sofar + (c.toNat - 48)) m : Nat) := by
  induction s generalizing m n with
  | nil => rfl
  | cons c s ih =>
    obtain ⟨hge, hle⟩ := hs c List.mem_cons_self
    have hge : 48 ≤ c.toNat := UInt8.le_iff_toNat_le.mp hge
    have hle : c.toNat ≤ 57 := UInt8.le_iff_toNat_le.mp hle
    rw [List.length_cons] at hlen
    have hnext : 10 * m + (c.toNat - 48) < 10 ^ (n + 1) := by
      rw [pow_succ]
      omega
    have hbound : 10 ^ (n + 1) ≤ 10 ^ 18 := Nat.pow_le_pow_right (by decide) (by omega)
    have hstep : offT ((m : Int) * 10 + (c.toNat - 48)) = (10 * m + (c.toNat - 48) : Nat) := by
      rw [← offT_of_lt (n := 10 * m + (c.toNat - 48)) (by omega)]
      congr 1
      omega
    rw [List.foldl_cons, List.foldl_cons, hstep]
    exact ih (fun c hc => hs c (List.mem_cons_of_mem _ hc)) hnext (by omega)

theorem scan_eq (hne : digits t ≠ []) (hlen : (digits t).length ≤ 18) (bit0 : Bool) :
    isoScanfIoSize t bit0 last = offT (numberSize last t) := by
  have hdigits : ∀ c ∈ digits t, IsDigit c := fun c hc => by
    simpa using List.mem_takeWhile_imp hc
  have hfold : (digits t).foldl (fun ret c => offT (ret * 10 + (c.toNat - 48))) 0 =
      (leadingNumber t : Int) :=
    fold_digits (m := 0) (n := 0) (digits t) hdigits (by decide) (by omega)
  have hfac := factorAt_pos (afterDigits t)
  rw [isoScanfIoSize, if_neg hne, hfold]
  cases last with
  | false => simp [numberSize]
  | true =>
    rw [if_pos rfl, offT_offT_add, numberSize, if_pos rfl]
    congr 1
    push_cast [Nat.cast_sub hfac]
    ring

/-- What the test of the range lets pass. -/
theorem offT_in_range (n : Nat) :
    (¬ (offT n < 0 ∨ offT n > 281474976710655) ↔ n % 2 ^ 64 ≤ maxNumber) ∧
      (n % 2 ^ 64 ≤ maxNumber → offT n = (n % 2 ^ 64 : Nat)) := by
  unfold offT maxNumber
  omega

/-- A number text of which the end is given `short` bytes too early. -/
theorem readNumber_ok_iff (t rest : Bytes) (hd : Delimits d) (hshort : short ≤ 1) {x : Int} :
    isoIvrReadNumber (t ++ d :: rest) (rest.length + 1 + short) last = .ok x ↔
      Readable short last t ∧ x = (numberSize last t % 2 ^ 64 : Nat) := by
  have hlen : ((t ++ d :: rest).length : Int) - (rest.length + 1 + short : Nat) =
      t.length - short := by
    rw [List.length_append, List.length_cons]
    omega
  rw [isoIvrReadNumber, hlen]
  unfold Readable
  by_cases hwindow : short < t.length ∧ t.length ≤ short + 16
  · rw [if_neg (by omega)]
    by_cases hne : digits t = []
    · have hscan : isoScanfIoSize (t ++ d :: rest) true last = -1 := by
        rw [isoScanfIoSize, digits_append hd.1, if_pos hne, if_pos rfl]
      rw [hscan]
      simp [hne]
    · have hdigits : (digits t).length ≤ 18 :=
        ((List.takeWhile_prefix _).length_le.trans hwindow.2).trans (by omega)
      have hscan : isoScanfIoSize (t ++ d :: rest) true last = offT (numberSize last t) := by
        rw [scan_eq (by rwa [digits_append hd.1]) (by rwa [digits_append hd.1]),
          numberSize_append hd]
      have hrange := offT_in_range (numberSize last t)
      rw [hscan]
      change (if offT (numberSize last t) < 0 ∨ offT (numberSize last t) > 281474976710655
        then _ else _) = _ ↔ _
      by_cases hmax : numberSize last t % 2 ^ 64 ≤ maxNumber
      · rw [if_neg (hrange.1.mpr hmax), Except.ok.injEq, hrange.2 hmax]
        exact ⟨fun hx => ⟨⟨hwindow, hne, hmax⟩, hx.symm⟩, fun hx => hx.2.symm⟩
      · rw [if_pos (not_not.mp fun h => hmax (hrange.1.mp h))]
        exact ⟨fun h => (nomatch h), fun h => absurd h.1.2.2 hmax⟩
  · rw [if_pos (by omega)]
    simp [hwindow]

end Numbers

/-! ## Components which the parser accepts -/

/-- The values which two readable numbers have got. -/
def ReadableInterval (short : Nat) (iv : Bytes) (startByte endByte : Int) : Prop :=
  ∃ a b, iv = a ++ dash :: b ∧ dash ∉ a ∧ Readable 0 false a ∧ Readable short true b ∧
    startByte = (numberSize false a % 2 ^ 64 : Nat) ∧ endByte = (numberSize true b % 2 ^ 64 : Nat)

/-- The beginning of a keyword is as good as the keyword. -/
def keywordType (e : Bytes) : Option Nat :=
  if e <+: mbrptWord then some 1
  else if e <+: gptWord then some 2
  else if e <+: apmWord then some 3
  else none

/-- The entry for a list element which gets accepted. -/
def ReadableElement (e : Bytes) (z : IsoIntervalZeroizer) : Prop :=
  match keywordType e with
  | some k => z = ⟨k, 0, -1⟩
  | none => z.zType = 0 ∧ ReadableInterval 1 e z.zeroStart z.zeroEnd

/-- The flag bits for a first component which gets accepted. -/
def flagBits (f : Bytes) : Option Nat :=
  if importedWord <+: f then some 1
  else if localWord <+: f then some 0
  else none

section Components

variable {d : UInt8} {e iv rest : Bytes} {endLeft short : Nat} {s : Walk}

theorem delimits_dash : Delimits dash := by decide

theorem readNumbers_ok_iff {first second : Except Int Int} {x y : Int} :
    (do
      let startByte ← first
      let endByte ← second
      return (startByte, endByte)) = Except.ok (x, y) ↔ first = .ok x ∧ second = .ok y := by
  constructor
  · intro h
    cases first with
    | error ret => cases h
    | ok a =>
      cases second with
      | error ret => cases h
      | ok b =>
        cases h
        exact ⟨rfl, rfl⟩
  · rintro ⟨rfl, rfl⟩
    rfl

theorem parseInterval_ok_iff (rest : Bytes) (hd : Delimits d) (hdash : d ≠ dash)
    (hshort : short ≤ 1) {x y : Int} :
    isoIvrParseInterval (iv ++ d :: rest) (rest.length + short) = .ok (x, y) ↔
      ReadableInterval short iv x y := by
  constructor
  · intro h
    by_cases hiv : dash ∈ iv
    · obtain ⟨a, b, rfl, ha⟩ := List.eq_append_cons_of_mem hiv
      rw [List.append_assoc, List.cons_append, isoIvrParseInterval, strchr_found _ ha] at h
      obtain ⟨hx, hy⟩ := readNumbers_ok_iff.mp h
      have hfirst := (readNumber_ok_iff a (b ++ d :: rest) delimits_dash (Nat.zero_le 1)).mp hx
      have hsecond := (readNumber_ok_iff b rest hd hshort).mp
        ((Nat.add_right_comm rest.length 1 short) ▸ hy)
      exact ⟨a, b, rfl, ha, hfirst.1, hsecond.1, hfirst.2, hsecond.2⟩
    · -- The dash belongs to a later component. So the end of the interval lies before it.
      rw [isoIvrParseInterval, strchr_append hiv, strchr, if_neg hdash] at h
      cases hm : strchr dash rest with
      | none => rw [hm] at h; cases h
      | some m =>
        rw [hm] at h
        have hle := length_strchr_le hm
        have hy := (readNumbers_ok_iff.mp h).2
        rw [isoIvrReadNumber, if_pos (by rw [List.length_tail]; omega)] at hy
        cases hy
  · rintro ⟨a, b, rfl, ha, hfirst, hsecond, rfl, rfl⟩
    have hx := (readNumber_ok_iff a (b ++ d :: rest) delimits_dash (Nat.zero_le 1)).mpr
      ⟨hfirst, rfl⟩
    have hy := (readNumber_ok_iff b rest hd hshort).mpr ⟨hsecond, rfl⟩
    rw [List.append_assoc, List.cons_append, isoIvrParseInterval, strchr_found _ ha]
    rw [Nat.add_right_comm] at hy
    exact readNumbers_ok_iff.mpr ⟨hx, hy⟩

/-- The end of a list element is a comma or the end of the component. -/
def EndsElement (d : UInt8) (rest : Bytes) (endLeft : Nat) : Prop :=
  d = comma ∧ endLeft ≤ rest.length ∨ d = colon ∧ endLeft = rest.length + 1

theorem EndsElement.delimits (h : EndsElement d rest endLeft) : Delimits d ∧ d ≠ dash := by
  rcases h with ⟨rfl, -⟩ | ⟨rfl, -⟩ <;> decide

theorem elementEnd_eq (h : EndsElement d rest endLeft) (he : comma ∉ e) :
    elementEnd (e ++ d :: rest) endLeft = rest.length + 1 := by
  rcases h with ⟨rfl, hle⟩ | ⟨rfl, rfl⟩
  · rw [elementEnd, strchr_found rest he]
    exact if_neg (by rw [List.length_cons]; omega)
  · rw [elementEnd, strchr_append he, strchr, if_neg (by decide)]
    cases hcpt : strchr comma rest with
    | none => rfl
    | some cpt =>
      have hle := length_strchr_le hcpt
      exact if_pos (by omega)

/-- What a turn does with an element which is not empty. -/
theorem turn_eq (h : EndsElement d rest endLeft) (he : comma ∉ e) (hne : e ≠ [])
    (acc : List IsoIntervalZeroizer) (n : Nat) :
    zeroizerTurn endLeft ⟨e ++ d :: rest, acc⟩ n =
      match keywordType e with
      | some k => some (.inl ⟨rest, acc ++ [⟨k, 0, -1⟩]⟩)
      | none =>
        match isoIvrParseInterval (e ++ d :: rest) (rest.length + 1) with
        | .error ret => some (.inr (.error ret))
        | .ok (zeroStart, zeroEnd) => some (.inl ⟨rest, acc ++ [⟨0, zeroStart, zeroEnd⟩]⟩) := by
  have hpos := List.length_pos_of_ne_nil hne
  have hlength : (e ++ d :: rest).length = e.length + (rest.length + 1) := by
    rw [List.length_append, List.length_cons]
  have hstart : endLeft < (e ++ d :: rest).length := by
    rcases h with ⟨-, hle⟩ | ⟨-, rfl⟩ <;> omega
  have hn : (e ++ d :: rest).length - (rest.length + 1) = e.length := by omega
  have hdrop : (e ++ d :: rest).drop (e.length + 1) = rest := by
    simp [List.drop_append]
  simp only [zeroizerTurn, if_pos hstart, elementEnd_eq h he, hn, if_neg hpos.ne',
    sameStart_component, Walk.next, hdrop, keywordType]
  split_ifs <;> rfl

theorem turn_readable (acc : List IsoIntervalZeroizer) (h : EndsElement d rest endLeft)
    (he : comma ∉ e) (hne : e ≠ []) {z : IsoIntervalZeroizer} (hz : ReadableElement e z)
    (n : Nat) :
    zeroizerTurn endLeft ⟨e ++ d :: rest, acc⟩ n = some (.inl ⟨rest, acc ++ [z]⟩) := by
  rw [turn_eq h he hne]
  unfold ReadableElement at hz
  cases hk : keywordType e with
  | some k =>
    rw [hk] at hz
    rw [hz]
  | none =>
    rw [hk] at hz
    obtain ⟨htype, hinterval⟩ := hz
    have hparse := (parseInterval_ok_iff rest h.delimits.1 h.delimits.2 le_rfl).mpr hinterval
    rw [hparse, ← htype]

theorem turn_refused (acc : List IsoIntervalZeroizer) (h : EndsElement d rest endLeft)
    (he : comma ∉ e) (hne : e ≠ []) (hz : ¬ ∃ z, ReadableElement e z) :
    ∃ ret, ∀ n, zeroizerTurn endLeft ⟨e ++ d :: rest, acc⟩ n = some (.inr (.error ret)) := by
  simp only [turn_eq h he hne]
  unfold ReadableElement at hz
  cases hk : keywordType e with
  | some k =>
    rw [hk] at hz
    exact absurd ⟨_, rfl⟩ hz
  | none =>
    rw [hk] at hz
    cases hparse : isoIvrParseInterval (e ++ d :: rest) (rest.length + 1) with
    | error ret => exact ⟨ret, fun n => rfl⟩
    | ok interval =>
      have hinterval := (parseInterval_ok_iff rest h.delimits.1 h.delimits.2 le_rfl).mp hparse
      exact absurd ⟨⟨0, interval.1, interval.2⟩, rfl, hinterval⟩ hz

theorem turn_empty (acc : List IsoIntervalZeroizer) (hle : endLeft ≤ rest.length) (n : Nat) :
    zeroizerTurn endLeft ⟨comma :: rest, acc⟩ n = some (.inl ⟨comma :: rest, acc⟩) := by
  have hend := elementEnd_eq (e := []) (.inl ⟨rfl, hle⟩) List.not_mem_nil
  rw [List.nil_append] at hend
  rw [zeroizerTurn, if_pos (by rw [List.length_cons]; omega)]
  simp only [hend, List.length_cons, Nat.sub_self, if_true]

theorem turn_end (acc : List IsoIntervalZeroizer) {rpt : Bytes} (hlen : rpt.length ≤ endLeft)
    (n : Nat) : zeroizerTurn endLeft ⟨rpt, acc⟩ n = some (.inr (.ok acc)) :=
  if_neg hlen.not_gt

end Components

/-! ## The list of zeroizers -/

/-- A list which gets accepted. An empty element may only stand at the end. -/
inductive Listed : List Bytes → List IsoIntervalZeroizer → Prop
  | done : Listed [[]] []
  | last {e z} : e ≠ [] → ReadableElement e z → Listed [e] [z]
  | more {e z es zs} : e ≠ [] → ReadableElement e z → Listed es zs → Listed (e :: es) (z :: zs)

/-- A list with an empty element before its end. -/
inductive Stuck : List Bytes → Prop
  | here {es} : es ≠ [] → Stuck ([] :: es)
  | later {e z es} : e ≠ [] → ReadableElement e z → Stuck es → Stuck (e :: es)

/-- No element is refused before the first empty one. -/
def Passable (es : List Bytes) : Prop :=
  ∀ e ∈ es.takeWhile (fun e => decide (e ≠ [])), ∃ z, ReadableElement e z

def joined (es : List Bytes) : Bytes := [comma].intercalate es

section Lists

variable {e src : Bytes} {es : List Bytes} {z : IsoIntervalZeroizer}
  {zs acc : List IsoIntervalZeroizer}

theorem Listed.ne_nil (h : Listed es zs) : es ≠ [] := by
  cases h <;> exact List.cons_ne_nil _ _

theorem Stuck.ne_nil (h : Stuck es) : es ≠ [] := by
  cases h <;> exact List.cons_ne_nil _ _

theorem passable_cons (hne : e ≠ []) :
    Passable (e :: es) ↔ (∃ z, ReadableElement e z) ∧ Passable es := by
  unfold Passable
  rw [List.takeWhile_cons_of_pos (by simpa using hne), List.forall_mem_cons]

theorem passable_iff (hes : es ≠ []) : Passable es ↔ (∃ zs, Listed es zs) ∨ Stuck es := by
  constructor
  · intro h
    induction es with
    | nil => exact absurd rfl hes
    | cons e es ih =>
      by_cases hne : e = []
      · subst hne
        cases es with
        | nil => exact .inl ⟨_, .done⟩
        | cons e' es => exact .inr (.here (List.cons_ne_nil _ _))
      · obtain ⟨⟨z, hz⟩, hrest⟩ := (passable_cons hne).mp h
        cases es with
        | nil => exact .inl ⟨_, .last hne hz⟩
        | cons e' es =>
          rcases ih (List.cons_ne_nil _ _) hrest with ⟨zs, hzs⟩ | hstuck
          · exact .inl ⟨_, .more hne hz hzs⟩
          · exact .inr (.later hne hz hstuck)
  · rintro (⟨zs, h⟩ | h)
    · induction h with
      | done => exact fun e he => by simp at he
      | last hne hz => exact (passable_cons hne).mpr ⟨⟨_, hz⟩, fun e he => by simp at he⟩
      | more hne hz hlist ih => exact (passable_cons hne).mpr ⟨⟨_, hz⟩, ih hlist.ne_nil⟩
    · induction h with
      | here => exact fun e he => by simp at he
      | later hne hz hstuck ih => exact (passable_cons hne).mpr ⟨⟨_, hz⟩, ih hstuck.ne_nil⟩

/-- The end of the first element, and what follows. -/
theorem joined_cases (e : Bytes) (es : List Bytes) (src : Bytes) :
    ∃ d rest, joined (e :: es) ++ colon :: src = e ++ d :: rest ∧
      EndsElement d rest (src.length + 1) ∧
      (es = [] ∧ rest = src ∨ es ≠ [] ∧ d = comma ∧ rest = joined es ++ colon :: src) := by
  by_cases hes : es = []
  · subst hes
    refine ⟨colon, src, ?_, .inr ⟨rfl, rfl⟩, .inl ⟨rfl, rfl⟩⟩
    rw [joined, List.intercalate_singleton]
  · refine ⟨comma, joined es ++ colon :: src, ?_, .inl ⟨rfl, ?_⟩, .inr ⟨hes, rfl, rfl⟩⟩
    · rw [joined, List.intercalate_cons_of_ne_nil hes, ← joined]
      simp
    · rw [List.length_append, List.length_cons]
      omega

/-- The loop at the start of some elements. -/
def zeroizerLoop (src : Bytes) (es : List Bytes) (acc : List IsoIntervalZeroizer) :
    Unrolling (Except Int (List IsoIntervalZeroizer)) :=
  fun n => loop (zeroizerTurn (src.length + 1)) n ⟨joined es ++ colon :: src, acc⟩

/-- Each text is a list of elements without commas. -/
theorem exists_joined (zs : Bytes) : ∃ es, joined es = zs ∧ (∀ e ∈ es, comma ∉ e) ∧ es ≠ [] := by
  induction zs with
  | nil => exact ⟨[[]], rfl, by simp, List.cons_ne_nil _ _⟩
  | cons b zs ih =>
    obtain ⟨es, rfl, hcomma, hes⟩ := ih
    by_cases hb : b = comma
    · refine ⟨[] :: es, ?_, by simpa using hcomma, List.cons_ne_nil _ _⟩
      rw [joined, List.intercalate_cons_of_ne_nil hes, hb]
      rfl
    · obtain ⟨e, es, rfl⟩ := List.exists_cons_of_ne_nil hes
      obtain ⟨he, hrest⟩ := List.forall_mem_cons.mp hcomma
      refine ⟨(b :: e) :: es, ?_, ?_, List.cons_ne_nil _ _⟩
      · cases es with
        | nil => simp only [joined, List.intercalate_singleton]
        | cons e' es => simp only [joined, List.intercalate_cons_cons, List.cons_append]
      · exact List.forall_mem_cons.mpr ⟨List.not_mem_cons_of_ne_of_not_mem (Ne.symm hb) he, hrest⟩

theorem loop_end {rpt : Bytes} (h : rpt.length ≤ src.length + 1) :
    Gives (fun n => loop (zeroizerTurn (src.length + 1)) n ⟨rpt, acc⟩) (.ok acc) :=
  gives_of_turn ⟨0, turn_end acc h 0⟩

theorem loop_listed (h : Listed es zs) (hcomma : ∀ e ∈ es, comma ∉ e)
    (acc : List IsoIntervalZeroizer) : Gives (zeroizerLoop src es acc) (.ok (acc ++ zs)) := by
  induction h generalizing acc with
  | done =>
    rw [List.append_nil]
    exact loop_end le_rfl
  | @last e z hne hz =>
    obtain ⟨d, rest, htext, hends, ⟨-, rfl⟩ | ⟨hes, -⟩⟩ := joined_cases e [] src
    · unfold zeroizerLoop
      rw [htext]
      have hturn := turn_readable acc hends (hcomma e List.mem_cons_self) hne hz
      exact gives_of_next (fun s => stable_const _) ⟨0, hturn 0⟩ (loop_end (Nat.le_succ _))
    · exact absurd rfl hes
  | @more e z es zs hne hz hlist ih =>
    obtain ⟨d, rest, htext, hends, ⟨rfl, -⟩ | ⟨-, -, rfl⟩⟩ := joined_cases e es src
    · exact absurd rfl hlist.ne_nil
    · unfold zeroizerLoop
      rw [htext]
      have hturn := turn_readable acc hends (hcomma e List.mem_cons_self) hne hz
      have hrest := ih (fun e he => hcomma e (List.mem_cons_of_mem _ he)) (acc ++ [z])
      rw [List.append_assoc, List.singleton_append] at hrest
      exact gives_of_next (fun s => stable_const _) ⟨0, hturn 0⟩ hrest

theorem loop_refused (src : Bytes) (h : ¬ Passable es) (hcomma : ∀ e ∈ es, comma ∉ e)
    (acc : List IsoIntervalZeroizer) : ∃ ret, Gives (zeroizerLoop src es acc) (.error ret) := by
  induction es generalizing acc with
  | nil => exact absurd (fun e he => by simp at he) h
  | cons e es ih =>
    have hne : e ≠ [] := fun hnil => h fun e he => by simp [hnil] at he
    obtain ⟨d, rest, htext, hends, hrest⟩ := joined_cases e es src
    unfold zeroizerLoop
    rw [htext]
    by_cases hz : ∃ z, ReadableElement e z
    · have hes : ¬ Passable es := fun hes => h ((passable_cons hne).mpr ⟨hz, hes⟩)
      obtain ⟨z, hz⟩ := hz
      have hturn := turn_readable acc hends (hcomma e List.mem_cons_self) hne hz
      obtain ⟨ret, hret⟩ :=
        ih hes (fun e he => hcomma e (List.mem_cons_of_mem _ he)) (acc ++ [z])
      rcases hrest with ⟨rfl, -⟩ | ⟨-, -, rfl⟩
      · exact absurd (fun e he => by simp at he) hes
      · exact ⟨ret, gives_of_next (fun s => stable_const _) ⟨0, hturn 0⟩ hret⟩
    · obtain ⟨ret, hret⟩ :=
        turn_refused acc hends (hcomma e List.mem_cons_self) hne hz
      exact ⟨ret, gives_of_turn ⟨0, hret 0⟩⟩

theorem loop_stuck (h : Stuck es) (hcomma : ∀ e ∈ es, comma ∉ e)
    (acc : List IsoIntervalZeroizer) (n : Nat) : zeroizerLoop src es acc n = none := by
  induction h generalizing acc n with
  | @here es hes =>
    obtain ⟨d, rest, htext, hends, ⟨rfl, -⟩ | ⟨-, rfl, rfl⟩⟩ := joined_cases [] es src
    · exact absurd rfl hes
    · simp only [zeroizerLoop, htext]
      refine loop_of_self (fun n => turn_empty acc ?_ n) n
      rw [List.length_append, List.length_cons]
      omega
  | @later e z es hne hz hstuck ih =>
    obtain ⟨d, rest, htext, hends, ⟨rfl, -⟩ | ⟨-, -, rfl⟩⟩ := joined_cases e es src
    · exact absurd rfl hstuck.ne_nil
    · have hturn := turn_readable acc hends (hcomma e List.mem_cons_self) hne hz
      simp only [zeroizerLoop, htext]
      cases n with
      | zero => rfl
      | succ n =>
        rw [loop_of_next hturn]
        exact ih (fun e he => hcomma e (List.mem_cons_of_mem _ he)) (acc ++ [z]) n

end Lists

/-! ## The whole description -/

/-- The components, if there are enough of them. The text is the list of its elements. -/
structure Parts (s f iv : Bytes) (es : List Bytes) (src : Bytes) : Prop where
  text : s = f ++ colon :: (iv ++ colon :: (joined es ++ colon :: src))
  flag_colon : colon ∉ f
  interval_colon : colon ∉ iv
  list_colon : colon ∉ joined es
  list_comma : ∀ e ∈ es, comma ∉ e
  list_ne : es ≠ []

section Whole

variable {s f iv src : Bytes} {es : List Bytes}

theorem parts_or_malformed (s : Bytes) : (∃ f iv es src, Parts s f iv es src) ∨
    ∀ n, isoIvrParse s n = some (.error malformedReadIntvl) := by
  by_cases hs : colon ∈ s
  · obtain ⟨f, s₁, rfl, hf⟩ := List.eq_append_cons_of_mem hs
    by_cases hs₁ : colon ∈ s₁
    · obtain ⟨iv, s₂, rfl, hiv⟩ := List.eq_append_cons_of_mem hs₁
      by_cases hs₂ : colon ∈ s₂
      · obtain ⟨zs, src, rfl, hzs⟩ := List.eq_append_cons_of_mem hs₂
        obtain ⟨es, rfl, hcomma, hes⟩ := exists_joined zs
        exact .inl ⟨f, iv, es, src, rfl, hf, hiv, hzs, hcomma, hes⟩
      · right
        intro n
        simp only [isoIvrParse, nextComp_found _ hf, nextComp_found _ hiv, nextComp_none hs₂]
    · right
      intro n
      simp only [isoIvrParse, nextComp_found _ hf, nextComp_none hs₁]
  · right
    intro n
    simp only [isoIvrParse, nextComp_none hs]

theorem prefix_append_cons {c : UInt8} {w rest : Bytes} (hc : c ∉ w) :
    w <+: f ++ c :: rest ↔ w <+: f := by
  constructor
  · intro h
    by_cases hlen : w.length ≤ f.length
    · exact List.prefix_of_prefix_length_le h (List.prefix_append _ _) hlen
    · have hfull : f ++ [c] <+: w := by
        refine List.prefix_of_prefix_length_le (List.prefix_append_right_inj f |>.mpr ?_) h ?_
        · exact List.prefix_append [c] rest
        · rw [List.length_append, List.length_singleton]
          omega
      exact absurd (hfull.subset (by simp)) hc
  · exact fun h => h.trans (List.prefix_append _ _)

theorem joined_eq_nil (h : joined es = []) (hes : es ≠ []) : es = [[]] := by
  match es, hes with
  | [e], _ => rw [joined, List.intercalate_singleton] at h; rw [h]
  | e :: e' :: es, _ => simp [joined, List.intercalate_cons_cons] at h

/-- The test before the loop matters only if the list is empty. -/
theorem parseZeroizers_cases (src : Bytes) (hes : es ≠ []) :
    (es = [[]] ∧ ∀ n, isoIvrParseZeroizers (joined es ++ colon :: src) (src.length + 1) n =
      some (.ok [])) ∨
    isoIvrParseZeroizers (joined es ++ colon :: src) (src.length + 1) = zeroizerLoop src es [] := by
  by_cases hnil : joined es = []
  · refine .inl ⟨joined_eq_nil hnil hes, fun n => if_pos (.inr ?_)⟩
    rw [hnil]
    rfl
  · refine .inr (funext fun n => if_neg ?_)
    have hpos := List.length_pos_of_ne_nil hnil
    rintro (h | h)
    · simp at h
    · rw [List.length_append, List.length_cons] at h
      omega

/-- The parser in terms of its components. -/
theorem parse_eq (h : Parts s f iv es src) (n : Nat) :
    isoIvrParse s n =
      match flagBits f with
      | none => some (.error malformedReadIntvl)
      | some flags =>
        match isoIvrParseInterval (iv ++ colon :: (joined es ++ colon :: src))
          (joined es ++ colon :: src).length with
        | .error ret => some (.error ret)
        | .ok (startByte, endByte) =>
          (isoIvrParseZeroizers (joined es ++ colon :: src) (src.length + 1) n).bind fun result =>
            match result with
            | .error ret => some (.error ret)
            | .ok zeroizers => some (.ok ⟨flags, startByte, endByte, zeroizers, src⟩) := by
  have himported : sameStart 12 s importedWord = true ↔ importedWord <+: f := by
    rw [h.text, ← prefix_append_cons (by decide : colon ∉ importedWord)]
    exact sameStart_word importedWord
  have hlocal : sameStart 8 s localWord = true ↔ localWord <+: f := by
    rw [h.text, ← prefix_append_cons (by decide : colon ∉ localWord)]
    exact sameStart_word localWord
  have hfirst := nextComp_found (iv ++ colon :: (joined es ++ colon :: src)) h.flag_colon
  have hsecond := nextComp_found (joined es ++ colon :: src) h.interval_colon
  have hthird := nextComp_found src h.list_colon
  simp only [isoIvrParse, Bool.or_eq_true, himported, hlocal, flagBits]
  rw [h.text]
  simp only [hfirst, hsecond, hthird]
  by_cases hi : importedWord <+: f
  · simp only [hi, true_or, if_true]
  · by_cases hl : localWord <+: f
    · simp only [hi, hl, or_true, if_true, if_false]
    · simp only [hi, hl, or_self, if_false]

theorem stable_parseZeroizers (pathpt : Bytes) (endLeft : Nat) :
    Stable (isoIvrParseZeroizers pathpt endLeft) := by
  by_cases hnil : pathpt = [] ∨ pathpt.length = endLeft
  · have hconst : isoIvrParseZeroizers pathpt endLeft = fun _ => some (.ok []) :=
      funext fun n => if_pos hnil
    exact hconst ▸ stable_const _
  · have hloop : isoIvrParseZeroizers pathpt endLeft =
        fun n => loop (zeroizerTurn endLeft) n ⟨pathpt, []⟩ := funext fun n => if_neg hnil
    exact hloop ▸ stable_loop (fun s => stable_const _) _

theorem stable_parse (s : Bytes) : Stable (isoIvrParse s) := by
  rcases parts_or_malformed s with ⟨f, iv, es, src, h⟩ | h
  · intro n r hr
    rw [parse_eq h] at hr ⊢
    cases hflags : flagBits f with
    | none =>
      rw [hflags] at hr
      exact hr
    | some flags =>
      rw [hflags] at hr
      cases hmain : isoIvrParseInterval (iv ++ colon :: (joined es ++ colon :: src))
        (joined es ++ colon :: src).length with
      | error ret =>
        rw [hmain] at hr
        exact hr
      | ok interval =>
        rw [hmain] at hr
        obtain ⟨result, hresult, hvalue⟩ := Option.bind_eq_some_iff.mp hr
        exact Option.bind_eq_some_iff.mpr
          ⟨result, stable_parseZeroizers _ _ n _ hresult, hvalue⟩
  · intro n r hr
    rw [h] at hr ⊢
    exact hr

theorem parseInterval_main {x y : Int} : isoIvrParseInterval (iv ++ colon :: src) src.length =
    .ok (x, y) ↔ ReadableInterval 0 iv x y :=
  parseInterval_ok_iff src (by decide) (by decide) (Nat.zero_le 1)

variable {flags : Nat} {x y : Int} {zs : List IsoIntervalZeroizer}

theorem parse_ok (h : Parts s f iv es src) (hflags : flagBits f = some flags)
    (hiv : ReadableInterval 0 iv x y) (hzs : Listed es zs) :
    Gives (isoIvrParse s) (.ok ⟨flags, x, y, zs, src⟩) := by
  have hlist : Gives (isoIvrParseZeroizers (joined es ++ colon :: src) (src.length + 1))
      (.ok zs) := by
    rcases parseZeroizers_cases src h.list_ne with ⟨rfl, hnil⟩ | hloop
    · cases hzs with
      | done => exact ⟨0, hnil 0⟩
      | last hne => exact absurd rfl hne
      | more hne => exact absurd rfl hne
    · rw [hloop]
      exact loop_listed hzs h.list_comma []
  obtain ⟨n, hn⟩ := hlist
  refine ⟨n, ?_⟩
  rw [parse_eq h, hflags, parseInterval_main.mpr hiv, hn]
  rfl

example : isoIvrParse (text "local_fs:0-5k:zero_gpt,440-443:/x") 3 =
    some (.ok ⟨0, 0, 6143, [⟨2, 0, -1⟩, ⟨0, 440, 443⟩], text "/x"⟩) := by
  decide +kernel

theorem parse_stuck (h : Parts s f iv es src) (hflags : flagBits f = some flags)
    (hiv : ReadableInterval 0 iv x y) (hstuck : Stuck es) (n : Nat) : isoIvrParse s n = none := by
  have hlist : isoIvrParseZeroizers (joined es ++ colon :: src) (src.length + 1) n = none := by
    rcases parseZeroizers_cases src h.list_ne with ⟨rfl, -⟩ | hloop
    · cases hstuck with
      | here hes => exact absurd rfl hes
      | later hne => exact absurd rfl hne
    · rw [hloop]
      exact loop_stuck hstuck h.list_comma [] n
  rw [parse_eq h, hflags, parseInterval_main.mpr hiv, hlist]
  rfl

/-- What gets refused. -/
theorem parse_refused (h : Parts s f iv es src)
    (hbad : flagBits f = none ∨ (¬ ∃ x y, ReadableInterval 0 iv x y) ∨ ¬ Passable es) :
    ∃ ret, Gives (isoIvrParse s) (.error ret) := by
  have hparse := parse_eq h
  cases hflags : flagBits f with
  | none =>
    rw [hflags] at hparse
    exact ⟨_, 0, hparse 0⟩
  | some flags =>
    rw [hflags] at hbad hparse
    cases hmain : isoIvrParseInterval (iv ++ colon :: (joined es ++ colon :: src))
      (joined es ++ colon :: src).length with
    | error ret =>
      rw [hmain] at hparse
      exact ⟨ret, 0, hparse 0⟩
    | ok interval =>
      rw [hmain] at hparse
      have hiv := parseInterval_main.mp hmain
      rcases hbad with hnone | hiv' | hes
      · cases hnone
      · exact absurd ⟨_, _, hiv⟩ hiv'
      · obtain ⟨ret, n, hn⟩ := loop_refused src hes h.list_comma []
        rcases parseZeroizers_cases src h.list_ne with ⟨hnil, -⟩ | hloop
        · rw [hnil] at hes
          exact absurd (fun e he => by simp at he) hes
        · refine ⟨ret, n, ?_⟩
          rw [hparse, hloop, hn]
          rfl

end Whole

end IntervalParser
