import Libisofs.Lib.MarkOrder

/-!
# Decomposed names of HFS+

iso_get_hfsplus_name() decomposes the characters of a name and then brings combining marks into
the order of their classes. On a little-endian machine get_class() uses the page number for the
place in the page, too. So nearly all classes are 0 and no marks get exchanged.
-/

namespace HfsNames

open MarkOrder

/-- The zero-terminated texts of one page. -/
abbrev DecomposePages := UInt8 → Option (UInt8 → List UInt16)

abbrev ClassPages := UInt8 → Option (UInt8 → UInt16)

/-- From the byte order of the name to that of the machine. -/
def isoNtohs (v : UInt16) : UInt16 := (v <<< 8) ||| (v >>> 8)

def isoHtons (v : UInt16) : UInt16 := (v <<< 8) ||| (v >>> 8)

def highByte (val : UInt16) : UInt8 := (val >>> 8).toUInt8

def lowByte (val : UInt16) : UInt8 := (val &&& 0xff).toUInt8

def getClass (pages : ClassPages) (v : UInt16) : UInt8 :=
  let s := isoNtohs v
  let high := highByte s
  let low := lowByte v
  match pages high with
  | none => 0
  | some page => (page low).toUInt8

/-- What one character of the name becomes. -/
def decomposeUnit (pages : DecomposePages) (unit : UInt16) : List UInt16 :=
  let val := isoNtohs unit
  let high := highByte val
  let low := lowByte val
  if val = 0x3a then [isoHtons 0x2f]
  else if 0xac00 ≤ val ∧ val ≤ 0xd7a3 then
    let s := val - 0xac00
    let l := s / (21 * 28)
    let v := (s % (21 * 28)) / 28
    let t := s % 28
    [isoHtons (l + 0x1100), isoHtons (v + 0x1161)] ++
      if t ≠ 0 then [isoHtons (t + 0x11a7)] else []
  else
    match pages high with
    | none => [unit]
    | some page => if page low = [] then [unit] else (page low).map isoHtons

/-- The loop over the text after its first character. `prev` is the character before. -/
def exchangeLoop (pages : ClassPages) (lastClass : UInt8) (prev : UInt16) :
    List UInt16 → List UInt16
  | [] => [prev]
  | next :: rest =>
    let newClass := getClass pages next
    if lastClass = 0 ∨ newClass = 0 ∨ lastClass ≤ newClass then
      prev :: exchangeLoop pages newClass next rest
    else next :: exchangeLoop pages lastClass prev rest

structure HfsplusName where
  result : List UInt16
  resultLen : Nat
  cmpName : List UInt16

/-- The name is given as result of `str2utf16be()`. The marks get exchanged only once, because
`done` stays 0. -/
def isoGetHfsplusName (decomposePages : DecomposePages) (classPages : ClassPages)
    (isoHfsplusCichar : UInt16 → UInt16) (str2utf16be : Except Int (List UInt16)) :
    Except Int HfsplusName := do
  let ucsName ← str2utf16be
  let result := ucsName.flatMap (decomposeUnit decomposePages)
  let result :=
    match ucsName, result with
    | unit :: _, first :: rest => exchangeLoop classPages (getClass classPages unit) first rest
    | _, _ => result
  .ok ⟨result, result.length, (result.map isoHfsplusCichar).filter (· != 0)⟩

/-! ## What the names are for -/

/-- The decomposition of a character, as number. -/
def decomposition (pages : DecomposePages) (val : UInt16) : List UInt16 :=
  if val = 0x3a then [0x2f]
  else if 0xac00 ≤ val ∧ val ≤ 0xd7a3 then
    [(val - 0xac00) / 588 + 0x1100, (val - 0xac00) % 588 / 28 + 0x1161] ++
      if (val - 0xac00) % 28 = 0 then [] else [(val - 0xac00) % 28 + 0x11a7]
  else
    match (pages (highByte val)).map fun page => page (lowByte val) with
    | none | some [] => [val]
    | some text => text

def combiningClass (pages : ClassPages) (val : UInt16) : Nat :=
  ((pages (highByte val)).map fun page => (page (lowByte val)).toNat).getD 0

/-- The tables of hfsplus_decompose.c, hfsplus_classes.c, and hfsplus_case.c. -/
structure HfsplusTables where
  decomposePages : DecomposePages
  classPages : ClassPages
  isoHfsplusCichar : UInt16 → UInt16
  /-- The table holds the full decompositions. -/
  closed : ∀ val, ∀ v ∈ decomposition decomposePages val, decomposition decomposePages v = [v]
  /-- Where page number and number in the page are the same, there is at most one class. -/
  oneDiagonal : ∀ p q pageP pageQ, classPages p = some pageP → classPages q = some pageQ →
    (pageP p).toUInt8 ≠ 0 → (pageQ q).toUInt8 ≠ 0 → (pageP p).toUInt8 = (pageQ q).toUInt8

def values (ucsName : List UInt16) : List UInt16 := ucsName.map isoNtohs

def HfsplusTables.decompose (t : HfsplusTables) (text : List UInt16) : List UInt16 :=
  text.flatMap (decomposition t.decomposePages)

def HfsplusTables.order (t : HfsplusTables) (text : List UInt16) : List UInt16 :=
  canonicalOrder (combiningClass t.classPages) text

/-- Canonical equivalence of the characters of two names. -/
def HfsplusTables.Equivalent (t : HfsplusTables) (text other : List UInt16) : Prop :=
  t.order (t.decompose text) = t.order (t.decompose other)

def HfsplusTables.name (t : HfsplusTables) (ucsName : List UInt16) : Except Int HfsplusName :=
  isoGetHfsplusName t.decomposePages t.classPages t.isoHfsplusCichar (.ok ucsName)

/-- The result is the ordered decomposition, and decomposing or ordering it changes nothing. -/
structure CanonicalName (t : HfsplusTables) (ucsName : List UInt16) : Prop where
  canonical : ∃ name, t.name ucsName = .ok name ∧
    values name.result = t.order (t.decompose (values ucsName)) ∧
    t.decompose (values name.result) = values name.result ∧
    t.order (values name.result) = values name.result

section Units

variable {pages : DecomposePages} {classPages : ClassPages}

theorem toNat_isoNtohs (v : UInt16) : (isoNtohs v).toNat = v.toNat % 256 * 256 + v.toNat / 256 := by
  have hlt := v.toNat_lt
  have hhigh : v.toNat * 2 ^ 8 % 2 ^ 16 = v.toNat % 256 * 2 ^ 8 := by omega
  have hlow : v.toNat / 2 ^ 8 < 2 ^ 8 := by omega
  rw [isoNtohs, UInt16.toNat_or, UInt16.toNat_shiftLeft, UInt16.toNat_shiftRight,
    show (8 : UInt16).toNat % 16 = 8 from rfl, Nat.shiftRight_eq_div_pow, Nat.shiftLeft_eq, hhigh,
    ← Nat.shiftLeft_eq, ← Nat.shiftLeft_add_eq_or_of_lt hlow, Nat.shiftLeft_eq,
    show (2 : Nat) ^ 8 = 256 from rfl]

theorem isoNtohs_isoHtons (v : UInt16) : isoNtohs (isoHtons v) = v := by
  have hlt := v.toNat_lt
  rw [← UInt16.toNat_inj, toNat_isoNtohs, show isoHtons v = isoNtohs v from rfl, toNat_isoNtohs]
  omega

theorem isoNtohs_inj {v w : UInt16} (h : isoNtohs v = isoNtohs w) : v = w := by
  have hback := congrArg isoHtons h
  exact (isoNtohs_isoHtons v).symm.trans (hback.trans (isoNtohs_isoHtons w))

theorem values_isoHtons (text : List UInt16) : values (text.map isoHtons) = text := by
  rw [values, List.map_map]
  exact (List.map_congr_left fun v _ => isoNtohs_isoHtons v).trans (List.map_id text)

/-- The lower half of a character in memory is the higher half of its number. -/
theorem lowByte_unit (v : UInt16) : lowByte v = highByte (isoNtohs v) := by
  have hlt := v.toNat_lt
  have hlow : (lowByte v).toNat = v.toNat % 256 := by
    rw [lowByte, UInt16.toNat_toUInt8, UInt16.toNat_and,
      show (0xff : UInt16).toNat = 2 ^ 8 - 1 from rfl, Nat.and_two_pow_sub_one_eq_mod, Nat.mod_mod]
  have hhigh : (highByte (isoNtohs v)).toNat = v.toNat % 256 := by
    have hsmall : v.toNat / 256 < 256 := by omega
    have hdiv : (v.toNat % 256 * 256 + v.toNat / 256) / 2 ^ 8 = v.toNat % 256 := by omega
    rw [highByte, UInt16.toNat_toUInt8, UInt16.toNat_shiftRight, toNat_isoNtohs,
      show (8 : UInt16).toNat % 16 = 8 from rfl, Nat.shiftRight_eq_div_pow, hdiv, Nat.mod_mod]
  rw [← UInt8.toNat_inj, hlow, hhigh]

theorem values_decomposeUnit (unit : UInt16) :
    values (decomposeUnit pages unit) = decomposition pages (isoNtohs unit) := by
  rw [decomposeUnit, decomposition]
  dsimp only
  by_cases hcolon : isoNtohs unit = 0x3a
  · rw [if_pos hcolon, if_pos hcolon]
    rfl
  · rw [if_neg hcolon, if_neg hcolon]
    by_cases hhangul : 0xac00 ≤ isoNtohs unit ∧ isoNtohs unit ≤ 0xd7a3
    · rw [if_pos hhangul, if_pos hhangul, show (21 * 28 : UInt16) = 588 from rfl]
      by_cases hlast : (isoNtohs unit - 0xac00) % 28 = 0
      · rw [if_pos hlast, if_neg (not_not.mpr hlast)]
        exact values_isoHtons [_, _]
      · rw [if_neg hlast, if_pos hlast]
        exact values_isoHtons [_, _, _]
    · rw [if_neg hhangul, if_neg hhangul]
      cases pages (highByte (isoNtohs unit)) with
      | none => rfl
      | some page =>
        rw [Option.map_some]
        dsimp only
        cases htext : page (lowByte (isoNtohs unit)) with
        | nil => rfl
        | cons v rest => exact values_isoHtons (v :: rest)

end Units

section Classes

variable {t : HfsplusTables}

theorem getClass_eq (pages : ClassPages) (v : UInt16) : getClass pages v =
    ((pages (highByte (isoNtohs v))).map fun page =>
      (page (highByte (isoNtohs v))).toUInt8).getD 0 := by
  rw [getClass, lowByte_unit]
  cases pages (highByte (isoNtohs v)) <;> rfl

/-- All classes which are found are the same. -/
theorem getClass_agree (v w : UInt16) (hv : getClass t.classPages v ≠ 0)
    (hw : getClass t.classPages w ≠ 0) : getClass t.classPages v = getClass t.classPages w := by
  rw [getClass_eq] at hv hw ⊢
  rw [getClass_eq]
  cases hpageV : t.classPages (highByte (isoNtohs v)) with
  | none =>
    rw [hpageV] at hv
    exact absurd rfl hv
  | some pageV =>
    cases hpageW : t.classPages (highByte (isoNtohs w)) with
    | none =>
      rw [hpageW] at hw
      exact absurd rfl hw
    | some pageW =>
      rw [hpageV] at hv
      rw [hpageW] at hw
      exact t.oneDiagonal _ _ _ _ hpageV hpageW hv hw

/-- No marks get exchanged. -/
theorem exchangeLoop_eq (unit prev : UInt16) (rest : List UInt16) :
    exchangeLoop t.classPages (getClass t.classPages unit) prev rest = prev :: rest := by
  induction rest generalizing unit prev with
  | nil => rfl
  | cons next rest ih =>
    have hkeep : getClass t.classPages unit = 0 ∨ getClass t.classPages next = 0 ∨
        getClass t.classPages unit ≤ getClass t.classPages next := by
      by_cases hunit : getClass t.classPages unit = 0
      · exact Or.inl hunit
      · by_cases hnext : getClass t.classPages next = 0
        · exact Or.inr (Or.inl hnext)
        · rw [getClass_agree unit next hunit hnext]
          exact Or.inr (Or.inr (UInt8.le_refl _))
    rw [exchangeLoop, if_pos hkeep, ih]

/-- The result is the decomposition. -/
theorem name_eq (t : HfsplusTables) (ucsName : List UInt16) : ∃ name, t.name ucsName = .ok name ∧
    name.result = ucsName.flatMap (decomposeUnit t.decomposePages) ∧
    name.resultLen = name.result.length ∧
    name.cmpName = (name.result.map t.isoHfsplusCichar).filter (· != 0) := by
  refine ⟨_, rfl, ?_, rfl, rfl⟩
  split
  next hresult => rw [exchangeLoop_eq, ← hresult]
  next => rfl

theorem values_flatMap (ucsName : List UInt16) :
    values (ucsName.flatMap (decomposeUnit t.decomposePages)) = t.decompose (values ucsName) := by
  rw [HfsplusTables.decompose, values, List.map_flatMap, values, List.flatMap_map]
  exact List.flatMap_congr fun unit _ => values_decomposeUnit unit

/-- Decomposing again changes nothing. -/
theorem decompose_decompose (t : HfsplusTables) (text : List UInt16) :
    t.decompose (t.decompose text) = t.decompose text := by
  have hself : ∀ v ∈ t.decompose text, decomposition t.decomposePages v = [v] := by
    intro v hv
    obtain ⟨val, -, hval⟩ := List.mem_flatMap.mp hv
    exact t.closed val v hval
  rw [HfsplusTables.decompose, List.flatMap_congr hself, List.flatMap_singleton']

end Classes

section Main

/-- A name comes out in canonical order if and only if its decomposition is already ordered. -/
theorem canonicalName_iff (t : HfsplusTables) (ucsName : List UInt16) :
    CanonicalName t ucsName ↔
      Ordered (combiningClass t.classPages) (t.decompose (values ucsName)) := by
  obtain ⟨name, hname, hresult, -⟩ := name_eq t ucsName
  have hvalues : values name.result = t.decompose (values ucsName) := by
    rw [hresult, values_flatMap]
  constructor
  · rintro ⟨name', hname', hordered, -⟩
    obtain rfl := Except.ok.inj (hname.symm.trans hname')
    rw [hvalues] at hordered
    exact canonicalOrder_eq_self_iff.mp hordered.symm
  · intro hordered
    have hself := canonicalOrder_eq_self_iff.mpr hordered
    refine ⟨name, hname, ?_, ?_, ?_⟩
    · rw [hvalues]
      exact hself.symm
    · rw [hvalues, decompose_decompose]
    · rw [hvalues]
      exact hself

theorem name_eq_iff (t : HfsplusTables) (ucsName other : List UInt16) :
    t.name ucsName = t.name other ↔
      t.decompose (values ucsName) = t.decompose (values other) := by
  obtain ⟨name, hname, hresult, hlen, hcmp⟩ := name_eq t ucsName
  obtain ⟨name', hname', hresult', hlen', hcmp'⟩ := name_eq t other
  rw [hname, hname', ← values_flatMap, ← values_flatMap, ← hresult, ← hresult']
  constructor
  · intro h
    rw [Except.ok.inj h]
  · intro h
    have hsame : name.result = name'.result := (List.map_injective_iff.mpr fun _ _ => isoNtohs_inj) h
    cases name
    cases name'
    dsimp only at hlen hcmp hlen' hcmp' hsame
    rw [hlen, hcmp, hlen', hcmp', hsame]

/-- Names come out canonical if and only if they are ordered as they are decomposed, and
equivalent names become equal if and only if their decompositions are equal. -/
theorem hfsplusNames_iff (t : HfsplusTables) :
    (∀ ucsName, CanonicalName t ucsName ↔
      Ordered (combiningClass t.classPages) (t.decompose (values ucsName))) ∧
    ∀ ucsName other, t.Equivalent (values ucsName) (values other) →
      (t.name ucsName = t.name other ↔
        t.decompose (values ucsName) = t.decompose (values other)) :=
  ⟨canonicalName_iff t, fun ucsName other _ => name_eq_iff t ucsName other⟩

theorem decomposition_plain {pages : DecomposePages} {val : UInt16} (hcolon : val ≠ 0x3a)
    (hhangul : ¬ (0xac00 ≤ val ∧ val ≤ 0xd7a3)) (hpage : pages (highByte val) = none) :
    decomposition pages val = [val] := by
  rw [decomposition, if_neg hcolon, if_neg hhangul, hpage]
  rfl

/-- The parts of Hangul syllables are in the page after the first 16. -/
theorem jamo_plain {pages : DecomposePages} {val : UInt16}
    (hbounds : 0x1100 ≤ val.toNat ∧ val.toNat < 0x1200) (hpage : pages (highByte val) = none) :
    decomposition pages val = [val] := by
  refine decomposition_plain ?_ ?_ hpage
  · rintro rfl
    exact absurd hbounds.1 (by decide)
  · rintro ⟨hlow, -⟩
    have : (0xac00 : UInt16).toNat ≤ val.toNat := UInt16.le_iff_toNat_le.mp hlow
    rw [show (0xac00 : UInt16).toNat = 0xac00 from rfl] at this
    omega

theorem jamo_bounds {val v : UInt16} (hhangul : 0xac00 ≤ val ∧ val ≤ 0xd7a3)
    (hv : v ∈ [(val - 0xac00) / 588 + 0x1100, (val - 0xac00) % 588 / 28 + 0x1161] ++
      if (val - 0xac00) % 28 = 0 then [] else [(val - 0xac00) % 28 + 0x11a7]) :
    0x1100 ≤ v.toNat ∧ v.toNat < 0x1200 := by
  have hlow : 0xac00 ≤ val.toNat := UInt16.le_iff_toNat_le.mp hhangul.1
  have hhigh : val.toNat ≤ 0xd7a3 := UInt16.le_iff_toNat_le.mp hhangul.2
  have hs : (val - 0xac00).toNat = val.toNat - 0xac00 := UInt16.toNat_sub_of_le _ _ hhangul.1
  have hparts : v = (val - 0xac00) / 588 + 0x1100 ∨ v = (val - 0xac00) % 588 / 28 + 0x1161 ∨
      v = (val - 0xac00) % 28 + 0x11a7 := by
    rcases List.mem_append.mp hv with hfirst | hlast
    · rcases List.mem_cons.mp hfirst with h | h
      · exact Or.inl h
      · exact Or.inr (Or.inl (List.mem_singleton.mp h))
    · split at hlast
      case isTrue => exact absurd hlast List.not_mem_nil
      case isFalse => exact Or.inr (Or.inr (List.mem_singleton.mp hlast))
  rcases hparts with rfl | rfl | rfl
  · simp only [UInt16.toNat_add, UInt16.toNat_div, hs, UInt16.reduceToNat]
    omega
  · simp only [UInt16.toNat_add, UInt16.toNat_div, UInt16.toNat_mod, hs, UInt16.reduceToNat]
    omega
  · simp only [UInt16.toNat_add, UInt16.toNat_mod, hs, UInt16.reduceToNat]
    omega

/-- Only marks of classes 230 and 220, as they are in the first page of combining marks. -/
def marksTables : HfsplusTables where
  decomposePages := fun _ => none
  classPages := fun high =>
    if high = 3 then some fun low => if low < 0x15 then 0x230 else if low = 0x23 then 0x220 else 0
    else none
  isoHfsplusCichar := fun v => v
  closed := by
    intro val v hv
    rw [decomposition] at hv
    split at hv
    case isTrue =>
      obtain rfl := List.mem_singleton.mp hv
      exact decomposition_plain (by decide) (by decide) rfl
    case isFalse hcolon =>
      split at hv
      case isTrue hhangul =>
        exact jamo_plain (jamo_bounds hhangul hv) rfl
      case isFalse hhangul =>
        obtain rfl := List.mem_singleton.mp hv
        exact decomposition_plain hcolon hhangul rfl
  oneDiagonal := by
    intro p q pageP pageQ hp hq _ _
    obtain ⟨rfl, hpageP⟩ := Option.ite_none_right_eq_some.mp hp
    obtain ⟨rfl, hpageQ⟩ := Option.ite_none_right_eq_some.mp hq
    rw [← Option.some.inj hpageP, ← Option.some.inj hpageQ]

/-- The dot below comes first: the name comes out canonical, as it is. -/
theorem orderedName_canonical : CanonicalName marksTables ([0x61, 0x323, 0x301].map isoHtons) :=
  ((hfsplusNames_iff marksTables).1 _).mpr (by decide)

/-- The letter a with an acute accent above and a dot below. -/
def accentedName : List UInt16 := [0x61, 0x301, 0x323].map isoHtons

theorem accentedName_not_canonical : ¬ ∀ t ucsName, CanonicalName t ucsName := by
  intro h
  exact absurd ((canonicalName_iff marksTables accentedName).mp (h _ _)) (by decide)

end Main

end HfsNames
