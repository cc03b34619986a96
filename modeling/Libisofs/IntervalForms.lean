import Libisofs.IntervalParser

/-!
# The form of interval reader description strings

A description is a flag name, an interval, a list of zeroizers, and a source. The parser demands
that its number texts fit into certain lengths. It compares names only up to the end of one of
both texts, ignores what follows a number, and does not get past an empty list element.
-/

namespace IntervalForms

open Texts Unrollings IntervalParser

/-! ## The form of a description -/

/-- Digits with at most one unit letter. The value is not too large. -/
structure Number (last : Bool) (t : Bytes) (n : Int) : Prop where
  digits_ne : digits t ≠ []
  unit : afterDigits t = [] ∨ ∃ c, afterDigits t = [c] ∧ unitFactor c ≠ 1
  value : n = numberSize last t
  small : numberSize last t ≤ maxNumber

def Interval (t : Bytes) (startByte endByte : Int) : Prop :=
  ∃ a b, t = a ++ dash :: b ∧ Number false a startByte ∧ Number true b endByte

inductive FlagName : Bytes → Nat → Prop
  | importedIso : FlagName importedWord 1
  | localFs : FlagName localWord 0

inductive Zeroizer : Bytes → IsoIntervalZeroizer → Prop
  | mbrpt : Zeroizer mbrptWord ⟨1, 0, -1⟩
  | gpt : Zeroizer gptWord ⟨2, 0, -1⟩
  | apm : Zeroizer apmWord ⟨3, 0, -1⟩
  | interval {e zeroStart zeroEnd} :
      Interval e zeroStart zeroEnd → Zeroizer e ⟨0, zeroStart, zeroEnd⟩

/-- The text describes this reader. -/
def Described (s : Bytes) (ivr : IsoIntervalReader) : Prop :=
  ∃ f iv es, s = f ++ colon :: (iv ++ colon :: (joined es ++ colon :: ivr.source)) ∧
    FlagName f ivr.flags ∧ Interval iv ivr.startByte ivr.endByte ∧
    List.Forall₂ Zeroizer es ivr.zeroizers

/-- The parser ends, and what it accepts are the descriptions with their values. -/
def ParsedRight (s : Bytes) : Prop :=
  Ends (isoIvrParse s) ∧ ∀ ivr, Gives (isoIvrParse s) (.ok ivr) ↔ Described s ivr

/-! ## When the parser goes by this form -/

/-- Components which have the form of a description. An empty text is a list with one element. -/
def Formed (f iv : Bytes) (es : List Bytes) : Prop :=
  (∃ flags, FlagName f flags) ∧ (∃ x y, Interval iv x y) ∧
    (es = [[]] ∨ ∀ e ∈ es, ∃ z, Zeroizer e z)

/-- The lengths of the number texts in an interval. -/
def FitsInterval (short : Nat) (iv : Bytes) : Prop :=
  ∀ a b, iv = a ++ dash :: b → a.length ≤ 16 ∧ short < b.length ∧ b.length ≤ short + 16

/-- The end number of a zeroizer needs one character more. -/
def Fitting (iv : Bytes) (es : List Bytes) : Prop :=
  FitsInterval 0 iv ∧ ∀ e ∈ es, FitsInterval 1 e

/-- Components with nothing in them which the parser refuses. -/
def Tolerated (f iv : Bytes) (es : List Bytes) : Prop :=
  (importedWord <+: f ∨ localWord <+: f) ∧ (∃ x y, ReadableInterval 0 iv x y) ∧ Passable es

/-- Components of the right form have numbers of fitting length, and other components contain
something which the parser refuses. -/
def WellDelimited (s : Bytes) : Prop :=
  ∀ f iv es src, Parts s f iv es src →
    (Formed f iv es → Fitting iv es) ∧ (Tolerated f iv es → Formed f iv es)

section Numbers

variable {c : UInt8} {t iv e : Bytes} {n x y : Int} {last : Bool} {short : Nat}

theorem Number.notMem (h : Number last t n) (hc : Delimits c) : c ∉ t := by
  intro hmem
  rw [← List.takeWhile_append_dropWhile (p := fun c => decide (IsDigit c)) (l := t),
    List.mem_append] at hmem
  rcases hmem with hmem | hmem
  · exact hc.1 (by simpa using List.mem_takeWhile_imp hmem)
  · change c ∈ afterDigits t at hmem
    rcases h.unit with hnil | ⟨u, hu, hunit⟩
    · rw [hnil] at hmem
      cases hmem
    · rw [hu, List.mem_singleton] at hmem
      exact hunit (hmem ▸ hc.2)

theorem Number.readable (short : Nat) (h : Number last t n)
    (hlen : short < t.length ∧ t.length ≤ short + 16) :
    Readable short last t ∧ n = (numberSize last t % 2 ^ 64 : Nat) := by
  have hsmall := h.small
  have hmod : numberSize last t % 2 ^ 64 = numberSize last t :=
    Nat.mod_eq_of_lt (hsmall.trans_lt (by decide))
  rw [Readable, hmod]
  exact ⟨⟨hlen, h.digits_ne, hsmall⟩, h.value⟩

theorem Number.length_pos (h : Number last t n) : 0 < t.length := by
  refine List.length_pos_of_ne_nil fun hnil => h.digits_ne ?_
  rw [hnil]
  rfl

theorem Interval.notMem (h : Interval iv x y) (hc : Delimits c) (hne : c ≠ dash) : c ∉ iv := by
  obtain ⟨a, b, rfl, ha, hb⟩ := h
  rw [List.mem_append, List.mem_cons, not_or, not_or]
  exact ⟨ha.notMem hc, hne, hb.notMem hc⟩

/-- An interval has only one dash. So the lengths are those of its numbers. -/
theorem Interval.fitsInterval_iff (h : Interval iv x y) :
    FitsInterval short iv ↔
      (∃ a b, iv = a ++ dash :: b ∧ a.length ≤ 16 ∧ short < b.length ∧ b.length ≤ short + 16) := by
  obtain ⟨a, b, rfl, ha, hb⟩ := h
  have ha := ha.notMem delimits_dash
  have hb := hb.notMem delimits_dash
  constructor
  · exact fun h => ⟨a, b, rfl, h a b rfl⟩
  · rintro ⟨a', b', heq, hlen⟩ a'' b'' heq'
    obtain ⟨rfl, -, rfl⟩ := (List.append_cons_inj_of_notMem ha hb).mp heq
    obtain ⟨rfl, -, rfl⟩ := (List.append_cons_inj_of_notMem ha hb).mp heq'
    exact hlen

theorem Interval.readable (h : Interval iv x y) (hfits : FitsInterval short iv) :
    ReadableInterval short iv x y := by
  obtain ⟨a, b, rfl, ha, hb⟩ := h
  obtain ⟨hlen, hmin, hmax⟩ := hfits a b rfl
  obtain ⟨hreada, hx⟩ := ha.readable 0 ⟨ha.length_pos, by omega⟩
  obtain ⟨hreadb, hy⟩ := hb.readable short ⟨hmin, hmax⟩
  exact ⟨a, b, rfl, ha.notMem delimits_dash, hreada, hreadb, hx, hy⟩

theorem Interval.fits (h : Interval iv x y) {x' y' : Int}
    (hread : ReadableInterval short iv x' y') :
    FitsInterval short iv := by
  obtain ⟨a, b, heq, -, ha, hb, -⟩ := hread
  obtain ⟨⟨-, hlen⟩, -⟩ := ha
  exact h.fitsInterval_iff.mpr ⟨a, b, heq, by omega, hb.1⟩

end Numbers

section Zeroizers

variable {c : UInt8} {e : Bytes} {es : List Bytes} {z : IsoIntervalZeroizer}
  {zs : List IsoIntervalZeroizer} {x y : Int}

theorem Interval.keywordType_eq (h : Interval e x y) : keywordType e = none := by
  obtain ⟨a, b, rfl, ha, -⟩ := h
  have hdigits := ha.digits_ne
  cases a with
  | nil => exact absurd rfl hdigits
  | cons c a =>
    have hc : IsDigit c := by
      by_contra hc
      exact hdigits (List.takeWhile_cons_of_neg (by simpa using hc))
    have hz : ∀ word : Bytes, word.head? = some (charByte 'z') →
        ¬ (c :: a ++ dash :: b) <+: word := by
      rintro (_ | ⟨w, word⟩) hw hbegins
      · cases hw
      · rw [List.cons_append, List.cons_prefix_cons] at hbegins
        rw [hbegins.1, Option.some.inj hw] at hc
        exact absurd hc (by decide)
    rw [keywordType, if_neg (hz _ (by decide)), if_neg (hz _ (by decide)),
      if_neg (hz _ (by decide))]

theorem Zeroizer.ne_nil (h : Zeroizer e z) : e ≠ [] := by
  cases h with
  | mbrpt => decide
  | gpt => decide
  | apm => decide
  | interval h =>
    obtain ⟨a, b, rfl, -⟩ := h
    simp

theorem Zeroizer.notMem (h : Zeroizer e z) (hc : c = colon ∨ c = comma) : c ∉ e := by
  cases h with
  | mbrpt => rcases hc with rfl | rfl <;> decide
  | gpt => rcases hc with rfl | rfl <;> decide
  | apm => rcases hc with rfl | rfl <;> decide
  | interval h => rcases hc with rfl | rfl <;> exact h.notMem (by decide) (by decide)

theorem Zeroizer.readable (h : Zeroizer e z) (hfits : FitsInterval 1 e) : ReadableElement e z := by
  cases h with
  | mbrpt => rfl
  | gpt => rfl
  | apm => rfl
  | interval h =>
    rw [ReadableElement, h.keywordType_eq]
    exact ⟨rfl, h.readable hfits⟩

theorem Zeroizer.fits (h : Zeroizer e z) {z' : IsoIntervalZeroizer} (hread : ReadableElement e z') :
    FitsInterval 1 e := by
  have hword : ∀ word : Bytes, dash ∉ word → FitsInterval 1 word := fun word hdash a b heq =>
    absurd (heq ▸ List.mem_append_right a List.mem_cons_self) hdash
  cases h with
  | mbrpt => exact hword _ (by decide)
  | gpt => exact hword _ (by decide)
  | apm => exact hword _ (by decide)
  | interval h =>
    rw [ReadableElement, h.keywordType_eq] at hread
    exact h.fits hread.2

/-- A list of zeroizers of fitting lengths gets accepted. -/
theorem listed_of_zeroizers (h : List.Forall₂ Zeroizer es zs) (hfits : ∀ e ∈ es, FitsInterval 1 e)
    (hes : es ≠ []) : Listed es zs := by
  induction h with
  | nil => exact absurd rfl hes
  | @cons e z es zs hz hrest ih =>
    obtain ⟨hfirst, hlater⟩ := List.forall_mem_cons.mp hfits
    cases hrest with
    | nil => exact .last hz.ne_nil (hz.readable hfirst)
    | cons hz' hrest =>
      exact .more hz.ne_nil (hz.readable hfirst) (ih hlater (List.cons_ne_nil _ _))

theorem zeroizer_of_mem (h : List.Forall₂ Zeroizer es zs) : ∀ e ∈ es, ∃ z, Zeroizer e z := by
  induction h with
  | nil => exact fun e he => by cases he
  | cons hz _ ih => exact List.forall_mem_cons.mpr ⟨⟨_, hz⟩, ih⟩

theorem zeroizers_of_each (h : ∀ e ∈ es, ∃ z, Zeroizer e z) :
    ∃ zs, List.Forall₂ Zeroizer es zs := by
  induction es with
  | nil => exact ⟨[], .nil⟩
  | cons e es ih =>
    obtain ⟨⟨z, hz⟩, hrest⟩ := List.forall_mem_cons.mp h
    obtain ⟨zs, hzs⟩ := ih hrest
    exact ⟨z :: zs, .cons hz hzs⟩

theorem colon_notMem_joined (h : ∀ e ∈ es, colon ∉ e) : colon ∉ joined es := by
  induction es with
  | nil => exact List.not_mem_nil
  | cons e es ih =>
    obtain ⟨he, hes⟩ := List.forall_mem_cons.mp h
    cases es with
    | nil =>
      rw [joined, List.intercalate_singleton]
      exact he
    | cons e' es =>
      rw [joined, List.intercalate_cons_cons, List.mem_append, List.mem_append, not_or, not_or]
      exact ⟨⟨he, by decide⟩, ih hes⟩

end Zeroizers

/-! ## Descriptions and their components -/

section Descriptions

variable {s f f' iv iv' src src' : Bytes} {es es' : List Bytes} {ivr ivr' : IsoIntervalReader}

theorem split_unique {c : UInt8} {t t' rest rest' : Bytes} (h : t ++ c :: rest = t' ++ c :: rest')
    (ht : c ∉ t) (ht' : c ∉ t') : t = t' ∧ rest = rest' := by
  have hfound := strchr_found rest ht
  rw [h, strchr_found _ ht'] at hfound
  cases hfound
  exact ⟨List.append_cancel_right h, rfl⟩

theorem parts_unique (h : Parts s f iv es src) (h' : Parts s f' iv' es' src') :
    f = f' ∧ iv = iv' ∧ es = es' ∧ src = src' := by
  obtain ⟨rfl, hafter⟩ := split_unique (h.text.symm.trans h'.text) h.flag_colon h'.flag_colon
  obtain ⟨rfl, hrest⟩ := split_unique hafter h.interval_colon h'.interval_colon
  obtain ⟨hlist, rfl⟩ := split_unique hrest h.list_colon h'.list_colon
  have hes := List.splitOn_intercalate comma h.list_comma h.list_ne
  have hes' := List.splitOn_intercalate comma h'.list_comma h'.list_ne
  rw [← joined, hlist] at hes
  exact ⟨rfl, rfl, hes.symm.trans hes', rfl⟩

theorem FlagName.notMem {flags : Nat} (h : FlagName f flags) : colon ∉ f := by
  cases h <;> decide

theorem FlagName.flagBits {flags : Nat} (h : FlagName f flags) : flagBits f = some flags := by
  cases h <;> decide

/-- The list elements of a description. -/
def ListForm (es : List Bytes) (zs : List IsoIntervalZeroizer) : Prop :=
  es = [[]] ∧ zs = [] ∨ List.Forall₂ Zeroizer es zs

theorem described_of_parts (h : Parts s f iv es ivr.source) (hflag : FlagName f ivr.flags)
    (hiv : Interval iv ivr.startByte ivr.endByte) (hzs : ListForm es ivr.zeroizers) :
    Described s ivr := by
  rcases hzs with ⟨rfl, hzs⟩ | hzs
  · exact ⟨f, iv, [], h.text, hflag, hiv, hzs ▸ .nil⟩
  · exact ⟨f, iv, es, h.text, hflag, hiv, hzs⟩

theorem Described.parts (h : Described s ivr) : ∃ f iv es, Parts s f iv es ivr.source ∧
    FlagName f ivr.flags ∧ Interval iv ivr.startByte ivr.endByte ∧ ListForm es ivr.zeroizers := by
  obtain ⟨f, iv, es, htext, hflag, hiv, hzs⟩ := h
  have hcolon := hiv.notMem (by decide : Delimits colon) (by decide)
  by_cases hes : es = []
  · subst hes
    have hnil := List.forall₂_nil_left_iff.mp hzs
    refine ⟨f, iv, [[]], ⟨htext, hflag.notMem, hcolon, List.not_mem_nil, ?_, List.cons_ne_nil _ _⟩,
      hflag, hiv, .inl ⟨rfl, hnil⟩⟩
    exact fun e he => by rw [List.mem_singleton.mp he]; exact List.not_mem_nil
  · have hchars := fun c (hc : c = colon ∨ c = comma) e he =>
      (zeroizer_of_mem hzs e he).elim fun z hz => hz.notMem hc
    exact ⟨f, iv, es, ⟨htext, hflag.notMem, hcolon, colon_notMem_joined (hchars _ (.inl rfl)),
      hchars _ (.inr rfl), hes⟩, hflag, hiv, .inr hzs⟩

theorem Described.source_eq (hivr : Described s ivr) (h : Parts s f iv es src) :
    ivr.source = src := by
  obtain ⟨f', iv', es', h', -⟩ := hivr.parts
  exact (parts_unique h' h).2.2.2

/-- The form of a description, told by its components. -/
theorem formed_iff (h : Parts s f iv es src) :
    Formed f iv es ↔ ∃ ivr, ivr.source = src ∧ Described s ivr := by
  constructor
  · rintro ⟨⟨flags, hflag⟩, ⟨x, y, hiv⟩, hes⟩
    have hlist : ∃ zs, ListForm es zs := by
      rcases hes with rfl | hes
      · exact ⟨[], .inl ⟨rfl, rfl⟩⟩
      · exact (zeroizers_of_each hes).imp fun zs hzs => .inr hzs
    obtain ⟨zs, hzs⟩ := hlist
    exact ⟨⟨flags, x, y, zs, src⟩, rfl, described_of_parts h hflag hiv hzs⟩
  · rintro ⟨ivr, rfl, hivr⟩
    obtain ⟨f', iv', es', h', hflag, hiv, hzs⟩ := hivr.parts
    obtain ⟨rfl, rfl, rfl, -⟩ := parts_unique h h'
    refine ⟨⟨_, hflag⟩, ⟨_, _, hiv⟩, ?_⟩
    rcases hzs with ⟨hnil, -⟩ | hzs
    · exact .inl hnil
    · exact .inr (zeroizer_of_mem hzs)

/-- A description with numbers of fitting lengths gets accepted with its values. -/
theorem Described.gives (hivr : Described s ivr) (h : Parts s f iv es src)
    (hfits : Fitting iv es) : Gives (isoIvrParse s) (.ok ivr) := by
  obtain ⟨f', iv', es', h', hflag, hiv, hzs⟩ := hivr.parts
  obtain ⟨rfl, rfl, rfl, rfl⟩ := parts_unique h h'
  have hlisted : Listed es ivr.zeroizers := by
    rcases hzs with ⟨rfl, hnil⟩ | hzs
    · exact hnil ▸ .done
    · exact listed_of_zeroizers hzs hfits.2 h.list_ne
  exact parse_ok h hflag.flagBits (hiv.readable hfits.1) hlisted

theorem flagBits_ne_none : flagBits f ≠ none ↔ importedWord <+: f ∨ localWord <+: f := by
  unfold flagBits
  split_ifs <;> simp [*]

/-- What gets accepted has nothing in it which the parser refuses. -/
theorem tolerated_of_ok (h : Parts s f iv es src) (hok : Gives (isoIvrParse s) (.ok ivr)) :
    Tolerated f iv es := by
  by_contra hbad
  rw [Tolerated, ← flagBits_ne_none, not_and_or, not_and_or, not_not] at hbad
  obtain ⟨ret, hret⟩ := parse_refused h hbad
  cases (stable_parse s).unique hok hret

theorem tolerated_cases (h : Parts s f iv es src) (htol : Tolerated f iv es) :
    (∃ ivr, ivr.source = src ∧ Gives (isoIvrParse s) (.ok ivr)) ∨
      ∀ n, isoIvrParse s n = none := by
  obtain ⟨hflag, ⟨x, y, hiv⟩, hes⟩ := htol
  obtain ⟨flags, hflags⟩ := Option.ne_none_iff_exists'.mp (flagBits_ne_none.mpr hflag)
  rcases (passable_iff h.list_ne).mp hes with ⟨zs, hzs⟩ | hstuck
  · exact .inl ⟨_, rfl, parse_ok h hflags hiv hzs⟩
  · exact .inr (parse_stuck h hflags hiv hstuck)

/-- The lengths of the numbers in a description which gets accepted. -/
theorem fitting_of_tolerated (hform : Formed f iv es) (htol : Tolerated f iv es) :
    Fitting iv es := by
  obtain ⟨-, ⟨x, y, hiv⟩, hes⟩ := hform
  obtain ⟨-, ⟨x', y', hread⟩, hpass⟩ := htol
  refine ⟨hiv.fits hread, fun e he => ?_⟩
  rcases hes with rfl | hes
  · rw [List.mem_singleton.mp he]
    exact fun a b hnil => by simp at hnil
  · obtain ⟨z, hz⟩ := hes e he
    have hall : es.takeWhile (fun e => decide (e ≠ [])) = es :=
      List.takeWhile_eq_self_iff.mpr fun e he => by
        obtain ⟨z, hz⟩ := hes e he
        simpa using hz.ne_nil
    obtain ⟨z', hz'⟩ := hpass e (hall.symm ▸ he)
    exact hz.fits hz'

end Descriptions

/-- The parser goes by the form of descriptions if and only if the numbers of a description have
fitting lengths, and what is no description has got something in it which the parser refuses. -/
theorem parsedRight_iff (s : Bytes) : ParsedRight s ↔ WellDelimited s := by
  constructor
  · rintro ⟨⟨r, hr⟩, hright⟩ f iv es src h
    constructor
    · intro hform
      obtain ⟨ivr, -, hivr⟩ := (formed_iff h).mp hform
      exact fitting_of_tolerated hform (tolerated_of_ok h ((hright ivr).mpr hivr))
    · intro htol
      rcases tolerated_cases h htol with ⟨ivr, hsrc, hok⟩ | hnone
      · exact (formed_iff h).mpr ⟨ivr, hsrc, (hright ivr).mp hok⟩
      · obtain ⟨n, hn⟩ := hr
        rw [hnone n] at hn
        cases hn
  · intro hwell
    by_cases hparts : ∃ f iv es src, Parts s f iv es src
    · obtain ⟨f, iv, es, src, h⟩ := hparts
      obtain ⟨hfit, hform⟩ := hwell f iv es src h
      have hgives : ∀ ivr, Described s ivr → Gives (isoIvrParse s) (.ok ivr) := fun ivr hivr =>
        hivr.gives h (hfit ((formed_iff h).mpr ⟨ivr, hivr.source_eq h, hivr⟩))
      have hdescribed : ∀ ivr, Gives (isoIvrParse s) (.ok ivr) → Described s ivr := by
        intro ivr hok
        obtain ⟨ivr', -, hivr'⟩ := (formed_iff h).mp (hform (tolerated_of_ok h hok))
        cases (stable_parse s).unique hok (hgives ivr' hivr')
        exact hivr'
      refine ⟨?_, fun ivr => ⟨hdescribed ivr, hgives ivr⟩⟩
      by_cases htol : Tolerated f iv es
      · obtain ⟨ivr, -, hivr⟩ := (formed_iff h).mp (hform htol)
        exact ⟨_, hgives ivr hivr⟩
      · rw [Tolerated, ← flagBits_ne_none, not_and_or, not_and_or, not_not] at htol
        obtain ⟨ret, hret⟩ := parse_refused h htol
        exact ⟨_, hret⟩
    · have hbad := (parts_or_malformed s).resolve_left hparts
      refine ⟨⟨_, 0, hbad 0⟩, fun ivr => ⟨?_, ?_⟩⟩
      · rintro ⟨n, hn⟩
        rw [hbad n] at hn
        cases hn
      · intro hivr
        obtain ⟨f, iv, es, h, -⟩ := hivr.parts
        exact absurd ⟨_, _, _, _, h⟩ hparts

/-- The end number of this zeroizer has only one digit. -/
theorem short_zeroizer_not_right : ¬ ParsedRight (text "local_fs:0-511:0-7:/x") := by
  intro hright
  have hmain : Interval (text "0-511") 0 511 :=
    ⟨text "0", text "511", rfl, ⟨by decide, .inl rfl, by decide, by decide⟩,
      ⟨by decide, .inl rfl, by decide, by decide⟩⟩
  have hlist : Interval (text "0-7") 0 7 :=
    ⟨text "0", text "7", rfl, ⟨by decide, .inl rfl, by decide, by decide⟩,
      ⟨by decide, .inl rfl, by decide, by decide⟩⟩
  have hdescribed : Described (text "local_fs:0-511:0-7:/x")
      ⟨0, 0, 511, [⟨0, 0, 7⟩], text "/x"⟩ :=
    ⟨text "local_fs", text "0-511", [text "0-7"], by decide, .localFs, hmain,
      .cons (.interval hlist) .nil⟩
  have hrefused : Gives (isoIvrParse (text "local_fs:0-511:0-7:/x"))
      (.error malformedReadIntvl) := ⟨1, by decide +kernel⟩
  cases (stable_parse _).unique ((hright.2 _).mpr hdescribed) hrefused

end IntervalForms
