import Libisofs.SymlinkTarget
import Mathlib.Algebra.Ring.Nat

/-!
# Records of symbolic link targets

What rrip_add_SL() writes is what read_rr_SL() reads: the reader gets from the SL entries
one text for each component. The texts and the lengths of the entries follow from the
fill of the SL entry alone, which is computed from the lengths of the components.
-/

namespace SymlinkTarget

/-- How far an SL entry is filled, and whether it goes to the Continuation Area. -/
structure Fill where
  cew : Bool
  len : Nat

/-- The fill of an SL entry in the Continuation Area behind a component. -/
def ceFill (len : Nat) (comp : Bytes) : Nat :=
  let clen := compLen comp
  if len + clen ≤ 255 then len + clen
  else if clen ≤ 250 then 5 + clen
  else if len + clen ≤ 503 then 5 + (clen - (253 - len))
  else 5 + (clen - 250) + 2

/-- A component sends its SL entry to the Continuation Area. -/
def Fill.goesToCe (suaFree : Nat) (f : Fill) (comp : Bytes) : Bool :=
  f.cew || decide (f.len + compLen comp > suaFree)

/-- The fill of the current SL entry behind a component, from the lengths alone. -/
def nextFill (suaFree : Nat) (f : Fill) (comp : Bytes) : Fill where
  cew := f.goesToCe suaFree comp
  len := if f.goesToCe suaFree comp then ceFill f.len comp else f.len + compLen comp

/-- A component which meets an entry with too little room for its overlength. -/
def overrun (suaFree : Nat) (f : Fill) (comp : Bytes) : Bool :=
  f.goesToCe suaFree comp && decide (compLen comp > 250 ∧ f.len + compLen comp > 503)

/-- How many bytes an overrunning component gets for its second part. -/
def recorded (t : Turn) : Nat := (t.comp.length - 248 + t.rest.length) % 256

/-- The second part is right, or has one slash too much which then does not get added
by the reader, or it has only slashes too much and nothing else follows. -/
def Harmless (t : Turn) : Prop :=
  recorded t = t.comp.length - 248 ∨ recorded t = t.comp.length - 247 ∨
  ((∀ c ∈ t.rest, c = slash) ∧ t.comp.length - 248 ≤ recorded t ∧ recorded t ≤ 248)

/-- Each overrun in the destination is of the given kind. -/
def EachOverrun (P : Turn → Prop) (suaFree : Nat) : Fill → List Turn → Prop
  | _, [] => True
  | f, t :: ts =>
    (overrun suaFree f t.comp → P t) ∧ EachOverrun P suaFree (nextFill suaFree f t.comp) ts

instance (t : Turn) : Decidable (Harmless t) := inferInstanceAs (Decidable (_ ∨ _))

instance decidableEachOverrun {P : Turn → Prop} [DecidablePred P] (suaFree : Nat) :
    (f : Fill) → (ts : List Turn) → Decidable (EachOverrun P suaFree f ts)
  | _, [] => .isTrue trivial
  | f, t :: ts =>
    have := decidableEachOverrun (P := P) suaFree (nextFill suaFree f t.comp) ts
    inferInstanceAs (Decidable ((overrun suaFree f t.comp → P t) ∧ _))

/-- What the reader gets to see of a component. -/
def shown (overran : Bool) (t : Turn) : Bytes :=
  if overran then t.comp.take 248 ++ (t.comp.drop 248 ++ t.rest).take (recorded t)
  else if t.comp = [] then [slash] else t.comp

/-- A new component joins what has been read before. -/
def extend (dest : Option Bytes) (comp : Bytes) : Bytes :=
  match dest with
  | none => comp
  | some d => joinSlash d comp

/-- What gets read from the turns of a destination. -/
def decoded (suaFree : Nat) : Fill → Option Bytes → List Turn → Option Bytes
  | _, dest, [] => dest
  | f, dest, t :: ts =>
    decoded suaFree (nextFill suaFree f t.comp)
      (some (extend dest (shown (overrun suaFree f t.comp) t))) ts

def readRecords : List SlComp → ReadState → Option ReadState
  | [], st => some st
  | comp :: rest, st => (readComp comp.flags comp.text st).bind (readRecords rest)

theorem readRecords_append (as bs : List SlComp) (st : ReadState) :
    readRecords (as ++ bs) st = (readRecords as st).bind (readRecords bs) := by
  induction as generalizing st with
  | nil => rfl
  | cons a as ih =>
    cases h : readComp a.flags a.text st with
    | none => simp [readRecords, h]
    | some st' => simp [readRecords, h, ih]

theorem readRecords_single {c : SlComp} {st st' : ReadState}
    (hread : readComp c.flags c.text st = some st') : readRecords [c] st = some st' := by
  simp [readRecords, hread]

theorem cString_eq {s : Bytes} (hzero : 0 ∉ s) : cString s = s := by
  apply List.takeWhile_eq_self_iff.mpr
  intro c hc
  have : c ≠ 0 := fun heq => hzero (heq ▸ hc)
  simpa using this

/-- The state of the reader between two components which are not divided. -/
def between (dest : Option Bytes) : ReadState := ⟨dest, if dest.isSome then 1 else 0⟩

@[simp] theorem flaggedText_plain (text : Bytes) : flaggedText 0 text = some text := rfl

@[simp] theorem flaggedText_continue (text : Bytes) : flaggedText 1 text = some text := rfl

@[simp] theorem flaggedText_root (text : Bytes) : flaggedText 8 text = some [slash] := rfl

@[simp] theorem flaggedText_dot (text : Bytes) : flaggedText 2 text = some [dot] := rfl

@[simp] theorem flaggedText_dots (text : Bytes) : flaggedText 4 text = some [dot, dot] := rfl

/-- An undivided component joins what was read before it. -/
theorem readComp_between {flags : UInt8} {text comp : Bytes}
    (htext : flaggedText flags text = some comp) (hzero : 0 ∉ comp) (hflag : flags &&& 1 = 0)
    (dest : Option Bytes) :
    readComp flags text (between dest) = some (between (some (extend dest comp))) := by
  cases dest <;> simp [readComp, htext, hflag, between, extend, cString_eq hzero]

/-- The record of an undivided component. -/
def wholeRecord (t : Turn) : SlComp :=
  ⟨cflag t.comp, (t.comp ++ t.rest).take ((compLen t.comp - 2) % 256)⟩

theorem readComp_whole {t : Turn} (hzero : 0 ∉ t.comp) (hlen : t.comp.length ≤ 255)
    (dest : Option Bytes) :
    readComp (wholeRecord t).flags (wholeRecord t).text (between dest) =
      some (between (some (extend dest (shown false t)))) := by
  obtain ⟨comp, rest⟩ := t
  have hshown : 0 ∉ shown false ⟨comp, rest⟩ := by
    simp only [shown, Bool.false_eq_true, if_false]
    split
    · decide
    · exact hzero
  apply readComp_between _ hshown
  · simp only [wholeRecord, cflag]
    split_ifs <;> decide
  · by_cases hroot : comp = []
    · simp [wholeRecord, cflag, shown, hroot]
    · by_cases hdot : comp = [dot]
      · simp [wholeRecord, cflag, shown, hdot]
      · by_cases hdots : comp = [dot, dot]
        · simp [wholeRecord, cflag, shown, hdots]
        · have hsize : (compLen comp - 2) % 256 = comp.length := by
            simp only [compLen, hdot, hdots, or_self, if_false, Nat.add_sub_cancel]
            have : comp.length ≤ 255 := hlen
            omega
          simp [wholeRecord, cflag, hroot, hdot, hdots, hsize, shown]

/-- The two records of a divided component. -/
theorem readRecords_divided {first second : Bytes} (hfirst : 0 ∉ first) (hsecond : 0 ∉ second)
    (dest : Option Bytes) :
    readRecords [⟨1, first⟩, ⟨0, second⟩] (between dest) =
      some (between (some (extend dest (first ++ second)))) := by
  have hone : readComp 1 first (between dest) = some ⟨some (extend dest first), 2⟩ := by
    cases dest <;> simp [readComp, between, extend, cString_eq hfirst]
  have htwo : readComp 0 second ⟨some (extend dest first), 2⟩ =
      some ⟨some (extend dest first ++ second), 1⟩ := by
    simp [readComp, cString_eq hsecond]
  simp only [readRecords, hone, htwo, Option.bind_some]
  cases dest with
  | none => rfl
  | some d =>
    simp only [extend, joinSlash, between]
    split <;> simp

/-- Records which represent a turn, as the reader sees them. -/
structure Represents (overran : Bool) (t : Turn) (new : List SlComp) : Prop where
  reads : ∀ dest, readRecords new (between dest) =
    some (between (some (extend dest (shown overran t))))
  sizes : (∀ c ∈ new, c.text.length ≤ 248) ↔ (overran = true → recorded t ≤ 248)

theorem compLen_le (comp : Bytes) : compLen comp ≤ comp.length + 2 := by
  rw [compLen]
  split <;> omega

theorem two_le_compLen (comp : Bytes) : 2 ≤ compLen comp := by
  rw [compLen]
  omega

theorem compLen_long {comp : Bytes} (hlong : compLen comp > 250) :
    compLen comp = comp.length + 2 ∧ comp ≠ [] := by
  rw [compLen] at hlong ⊢
  split at hlong
  · omega
  next hdots =>
    rw [if_neg hdots]
    constructor
    · rfl
    · rintro rfl
      simp at hlong

theorem wholeRecord_length {t : Turn} (hlen : compLen t.comp ≤ 250) :
    (wholeRecord t).text.length = compLen t.comp - 2 := by
  have := compLen_le t.comp
  simp only [wholeRecord, List.length_take, List.length_append]
  omega

theorem represents_whole {t : Turn} (hzero : 0 ∉ t.comp) (hlen : compLen t.comp ≤ 250)
    (hle : t.comp.length ≤ 255) : Represents false t [wholeRecord t] where
  reads dest := readRecords_single (readComp_whole hzero hle dest)
  sizes := by simp [wholeRecord_length hlen]; omega

theorem represents_divided {t : Turn} {fit : Nat} (hzero : 0 ∉ t.comp) (hne : t.comp ≠ [])
    (hfit : fit ≤ 248) (hlen : t.comp.length ≤ fit + 248) :
    Represents false t [⟨1, t.comp.take fit⟩, ⟨0, t.comp.drop fit⟩] where
  reads dest := by
    rw [readRecords_divided (fun h => hzero (List.mem_of_mem_take h))
      (fun h => hzero (List.mem_of_mem_drop h)), List.take_append_drop]
    simp [shown, hne]
  sizes := by
    constructor
    · rintro - ⟨⟩
    · intro _ c hc
      simp only [List.mem_cons, List.not_mem_nil, or_false] at hc
      rcases hc with rfl | rfl
      · simp only [List.length_take]
        omega
      · simp only [List.length_drop]
        omega

theorem represents_overrun {t : Turn} (hzero : 0 ∉ t.comp) (hrest : 0 ∉ t.rest) :
    Represents true t
      [⟨1, t.comp.take 248⟩, ⟨0, (t.comp.drop 248 ++ t.rest).take (recorded t)⟩] where
  reads dest := by
    have hsecond : 0 ∉ (t.comp.drop 248 ++ t.rest).take (recorded t) := by
      intro h
      rcases List.mem_append.mp (List.mem_of_mem_take h) with h | h
      · exact hzero (List.mem_of_mem_drop h)
      · exact hrest h
    rw [readRecords_divided (fun h => hzero (List.mem_of_mem_take h)) hsecond]
    rfl
  sizes := by
    have hrec : recorded t ≤ t.comp.length - 248 + t.rest.length := Nat.mod_le ..
    simp
    omega

def SlState.fill (st : SlState) : Fill := ⟨st.cew, st.slLen⟩

theorem append_take_drop_eq {comp rest : Bytes} {n : Nat} (hn : n ≤ comp.length) :
    ((comp ++ rest).drop n).take (comp.length - n) = comp.drop n := by
  rw [List.drop_append_of_le_length hn, List.take_append_of_le_length (by simp),
    List.take_of_length_le (by simp)]

/-- A component is divided between the current SL entry and the next one. -/
theorem slTurnCe_divided {st : SlState} {t : Turn} {fit : Nat} (hlong : compLen t.comp > 250)
    (hlen : t.comp.length ≤ 255) (hfive : 5 ≤ st.slLen) (hfill : st.slLen + fit = 253)
    (hfit : compLen t.comp ≤ 250 + fit) :
    slTurnCe t st =
      { st with
        comps := st.comps ++ [⟨1, t.comp.take fit⟩, ⟨0, t.comp.drop fit⟩]
        ceLen := st.ceLen + 255
        slLen := 5 + (compLen t.comp - fit) } := by
  obtain ⟨hcompLen, -⟩ := compLen_long hlong
  have hexceeds : st.slLen + compLen t.comp > 255 := by omega
  have hroom : (255 - st.slLen - 2 : Int) = fit := by omega
  have hdiv : ((compLen t.comp - 250 : Nat) : Int) ≤ fit := by omega
  have hmod : fit % 256 = fit := Nat.mod_eq_of_lt (by omega)
  have hmod' : (compLen t.comp - fit - 2) % 256 = t.comp.length - fit := by omega
  simp only [slTurnCe, hexceeds, hlong, hroom, hdiv, if_true, Int.toNat_natCast,
    rripSLAppendComp, hmod, hmod', List.append_assoc, List.singleton_append]
  rw [append_take_drop_eq (by omega), List.take_append_of_le_length (by omega)]

theorem slTurnCe_overrun {st : SlState} {t : Turn} (hlong : compLen t.comp > 250)
    (hover : st.slLen + compLen t.comp > 503) :
    slTurnCe t st =
      { st with
        comps := st.comps ++ [⟨1, t.comp.take 248⟩,
          ⟨0, (t.comp.drop 248 ++ t.rest).take (recorded t)⟩]
        ceLen := st.ceLen + st.slLen + 255
        slLen := 5 + (compLen t.comp - 250) + 2 } := by
  obtain ⟨hcompLen, -⟩ := compLen_long hlong
  have hexceeds : st.slLen + compLen t.comp > 255 := by omega
  have hdiv : ¬ ((compLen t.comp - 250 : Nat) : Int) ≤ 255 - st.slLen - 2 := by omega
  have hprev : (t.comp ++ t.rest).drop 248 = t.comp.drop 248 ++ t.rest :=
    List.drop_append_of_le_length (by omega)
  have hsize : ((t.comp ++ t.rest).drop 248).length % 256 = recorded t := by
    rw [hprev, List.length_append, List.length_drop, recorded]
  simp only [slTurnCe, hexceeds, hlong, hdiv, if_true, if_false, rripSLAppendComp, hsize,
    List.append_assoc, List.singleton_append]
  rw [hprev, List.take_append_of_le_length (by omega)]

theorem slTurnCe_whole {st : SlState} {t : Turn} (hshort : compLen t.comp ≤ 250) :
    slTurnCe t st =
      if st.slLen + compLen t.comp > 255 then
        { st with
          comps := st.comps ++ [wholeRecord t]
          ceLen := st.ceLen + st.slLen
          slLen := 5 + compLen t.comp }
      else { st with
        comps := st.comps ++ [wholeRecord t], slLen := st.slLen + compLen t.comp } := by
  have hlong : ¬ compLen t.comp > 250 := by omega
  simp only [slTurnCe, hlong, if_false]
  rfl

/-- The text of a turn holds no 0-byte and its component has proper length. -/
structure Turn.Proper (t : Turn) : Prop where
  comp : 0 ∉ t.comp
  rest : 0 ∉ t.rest
  length : t.comp.length ≤ 255

/-- Writing a turn to the Continuation Area. -/
theorem slTurnCe_spec (st : SlState) {t : Turn} (ht : t.Proper) (hfive : 5 ≤ st.slLen) :
    ∃ new, (slTurnCe t st).comps = st.comps ++ new ∧
      (slTurnCe t st).cew = st.cew ∧
      (slTurnCe t st).slLen = ceFill st.slLen t.comp ∧
      Represents (decide (compLen t.comp > 250 ∧ st.slLen + compLen t.comp > 503)) t new := by
  rcases Nat.lt_or_ge 250 (compLen t.comp) with hlong | hshort
  · obtain ⟨hcompLen, hne⟩ := compLen_long hlong
    have := ht.length
    rcases Nat.lt_or_ge 503 (st.slLen + compLen t.comp) with hover | hfits
    · refine ⟨_, congrArg SlState.comps (slTurnCe_overrun hlong hover), ?_, ?_, ?_⟩
      · rw [slTurnCe_overrun hlong hover]
      · rw [slTurnCe_overrun hlong hover, ceFill, if_neg (by omega), if_neg (by omega),
          if_neg (by omega)]
      · rw [decide_eq_true ⟨hlong, hover⟩]
        exact represents_overrun ht.comp ht.rest
    · have hfill : st.slLen + (253 - st.slLen) = 253 := by omega
      have hturn := slTurnCe_divided hlong ht.length hfive hfill (by omega)
      refine ⟨_, congrArg SlState.comps hturn, ?_, ?_, ?_⟩
      · rw [hturn]
      · rw [hturn, ceFill, if_neg (by omega), if_neg (by omega), if_pos hfits]
      · rw [decide_eq_false (by omega)]
        exact represents_divided ht.comp hne (by omega) (by omega)
  · refine ⟨[wholeRecord t], ?_, ?_, ?_, ?_⟩
    · rw [slTurnCe_whole hshort]
      split <;> rfl
    · rw [slTurnCe_whole hshort]
      split <;> rfl
    · rw [slTurnCe_whole hshort, ceFill]
      split
      next hexceeds => rw [if_neg (Nat.not_le.mpr hexceeds)]
      next hexceeds => rw [if_pos (Nat.not_lt.mp hexceeds)]
    · rw [decide_eq_false (by omega)]
      exact represents_whole ht.comp hshort ht.length

/-- The sizes of records as they count for the length of an SL entry. -/
def recordsLen (comps : List SlComp) : Nat := (comps.map (·.text.length + 2)).sum

@[simp] theorem recordsLen_append (as bs : List SlComp) :
    recordsLen (as ++ bs) = recordsLen as + recordsLen bs := by
  simp [recordsLen]

/-- A turn appends records which represent it. As long as nothing goes to the
Continuation Area, their sizes are what the SL entry grows by. -/
theorem slTurn_spec {suaFree : Nat} {st : SlState} {t : Turn} (ht : t.Proper)
    (hsua : suaFree ≤ 255) (hfive : 5 ≤ st.slLen) :
    ∃ new, (slTurn suaFree st t).comps = st.comps ++ new ∧
      (slTurn suaFree st t).fill = nextFill suaFree st.fill t.comp ∧
      Represents (overrun suaFree st.fill t.comp) t new ∧
      ((slTurn suaFree st t).cew = false → st.cew = false ∧
        (slTurn suaFree st t).slLen = st.slLen + recordsLen new ∧
        (slTurn suaFree st t).slLen ≤ suaFree) := by
  rcases hce : st.fill.goesToCe suaFree t.comp with _ | _
  · -- still in the System Use Area
    obtain ⟨hcew, hfits⟩ : st.cew = false ∧ st.slLen + compLen t.comp ≤ suaFree := by
      simpa [Fill.goesToCe, SlState.fill] using hce
    have hturn : slTurn suaFree st t = { st with
        comps := st.comps ++ [wholeRecord t], slLen := st.slLen + compLen t.comp } := by
      rw [slTurn, if_neg (by simp [hcew]), if_neg (by omega)]
      rfl
    have hshort : compLen t.comp ≤ 250 := by omega
    refine ⟨[wholeRecord t], ?_, ?_, ?_, fun _ => ⟨hcew, ?_, ?_⟩⟩
    · rw [hturn]
    · simp [hturn, SlState.fill, nextFill, hcew] at hce ⊢
      simp [hce]
    · rw [overrun, hce, Bool.false_and]
      exact represents_whole ht.comp hshort ht.length
    · have := two_le_compLen t.comp
      simp only [hturn, recordsLen, List.map_cons, List.map_nil, List.sum_cons, List.sum_nil,
        wholeRecord_length hshort]
      omega
    · rw [hturn]
      exact hfits
  · have hturn : slTurn suaFree st t = slTurnCe t { st with cew := true } := by
      rw [slTurn]
      split
      next hcew => rw [← hcew]
      next hcew =>
        rw [if_pos]
        simpa [Fill.goesToCe, SlState.fill, hcew] using hce
    obtain ⟨new, hcomps, hcew, hlen, hrep⟩ := slTurnCe_spec { st with cew := true } ht hfive
    refine ⟨new, ?_, ?_, ?_, ?_⟩
    · rw [hturn, hcomps]
    · simp only [SlState.fill, nextFill, hturn, hcew, hlen]
      simp only [SlState.fill] at hce
      simp [hce]
    · rw [overrun, hce, Bool.true_and]
      exact hrep
    · intro h
      rw [hturn, hcew] at h
      exact absurd h (by simp)

theorem five_le_nextFill {suaFree : Nat} {f : Fill} {comp : Bytes} (hfive : 5 ≤ f.len) :
    5 ≤ (nextFill suaFree f comp).len := by
  have hce : 5 ≤ ceFill f.len comp := by
    rw [ceFill]
    split_ifs <;> omega
  simp only [nextFill]
  split
  · exact hce
  · omega

/-- What the loop over the destination has produced behind some turns. -/
structure LoopSpec (suaFree : Nat) (st : SlState) (ts : List Turn) (new : List SlComp) :
    Prop where
  comps : (ts.foldl (slTurn suaFree) st).comps = st.comps ++ new
  reads : ∀ dest, readRecords new (between dest) =
    some (between (decoded suaFree st.fill dest ts))
  sizes : (∀ c ∈ new, c.text.length ≤ 248) ↔
    EachOverrun (fun t => recorded t ≤ 248) suaFree st.fill ts
  five : 5 ≤ (ts.foldl (slTurn suaFree) st).slLen
  sua : (ts.foldl (slTurn suaFree) st).cew = false → st.cew = false ∧
    (ts.foldl (slTurn suaFree) st).slLen = st.slLen + recordsLen new ∧
    (ts.foldl (slTurn suaFree) st).slLen ≤ max st.slLen suaFree

theorem slTurns_spec {suaFree : Nat} {ts : List Turn} (hts : ∀ t ∈ ts, t.Proper)
    (hsua : suaFree ≤ 255) {st : SlState} (hfive : 5 ≤ st.slLen) :
    ∃ new, LoopSpec suaFree st ts new := by
  induction ts generalizing st with
  | nil => exact ⟨[], by simp, by simp [readRecords, decoded], by simp [EachOverrun], hfive,
      fun h => ⟨h, by simp [recordsLen], le_max_left _ _⟩⟩
  | cons t ts ih =>
    obtain ⟨one, hcomps, hfill, hrep, hin⟩ :=
      slTurn_spec (hts t (List.mem_cons_self ..)) hsua hfive
    have hlen : (slTurn suaFree st t).slLen = (nextFill suaFree st.fill t.comp).len :=
      congrArg Fill.len hfill
    obtain ⟨more, hmore⟩ := ih (fun u hu => hts u (List.mem_cons_of_mem t hu))
      (hlen ▸ five_le_nextFill hfive)
    refine ⟨one ++ more, ?_, ?_, ?_, hmore.five, ?_⟩
    · rw [List.foldl_cons, hmore.comps, hcomps, List.append_assoc]
    · intro dest
      rw [readRecords_append, hrep.reads, Option.bind_some, hmore.reads, hfill]
      rfl
    · rw [List.forall_mem_append, hrep.sizes, hmore.sizes, hfill]
      rfl
    · intro hcew
      obtain ⟨hone, hlenMore, hleMore⟩ := hmore.sua hcew
      obtain ⟨hst, hlenOne, hleOne⟩ := hin hone
      rw [List.foldl_cons]
      refine ⟨hst, ?_, ?_⟩
      · rw [hlenMore, hlenOne, recordsLen_append]
        omega
      · omega

theorem slEntry_length (cont : UInt8) (n : Nat) (comps : List SlComp) :
    (slEntry cont n comps).length = 5 + recordsLen comps := by
  have hbytes : (comps.flatMap SlComp.bytes).length = recordsLen comps := by
    rw [List.length_flatMap, recordsLen]
    rfl
  simp only [slEntry, List.length_cons, hbytes]
  omega

/-- The entries are of proper length if no record exceeds an entry by itself. -/
theorem addSlLoop_length (pending comps : List SlComp) :
    (∀ entry ∈ addSlLoop (recordsLen pending) pending comps, entry.length ≤ 255) ↔
      recordsLen pending ≤ 250 ∧ ∀ c ∈ comps, c.text.length ≤ 248 := by
  induction comps generalizing pending with
  | nil =>
    simp only [addSlLoop, List.mem_singleton, forall_eq, slEntry_length]
    simp only [List.not_mem_nil, false_implies, implies_true, and_true]
    omega
  | cons c rest ih =>
    have hone : recordsLen [c] = c.text.length + 2 := by simp [recordsLen]
    rw [addSlLoop]
    split
    next hfull =>
      rw [List.forall_mem_cons, slEntry_length, ← hone, ih, hone, List.forall_mem_cons]
      constructor
      · rintro ⟨hpending, hc, hrest⟩
        exact ⟨by omega, by omega, hrest⟩
      · rintro ⟨hpending, hc, hrest⟩
        exact ⟨by omega, by omega, hrest⟩
    next hroom =>
      rw [← hone, ← recordsLen_append, ih, List.forall_mem_cons, recordsLen_append, hone]
      constructor
      · rintro ⟨hpending, hrest⟩
        exact ⟨by omega, by omega, hrest⟩
      · rintro ⟨hpending, hc, hrest⟩
        exact ⟨by omega, hrest⟩

theorem addSlLoop_single (pending comps : List SlComp)
    (hfits : recordsLen pending + recordsLen comps ≤ 250) :
    (addSlLoop (recordsLen pending) pending comps).length = 1 := by
  induction comps generalizing pending with
  | nil => rfl
  | cons c rest ih =>
    have hone : recordsLen [c] = c.text.length + 2 := by simp [recordsLen]
    have hcons : recordsLen (c :: rest) = recordsLen [c] + recordsLen rest :=
      recordsLen_append [c] rest
    rw [addSlLoop, if_neg (by omega), ← hone, ← recordsLen_append]
    apply ih
    rw [recordsLen_append]
    omega

/-- The reader finds the records which have been put into an entry. -/
theorem readComps_records {comps : List SlComp} (hlen : ∀ c ∈ comps, c.text.length ≤ 255)
    (st : ReadState) :
    readComps (recordsLen comps) (comps.flatMap SlComp.bytes) st = readRecords comps st := by
  induction comps generalizing st with
  | nil =>
    rw [readComps]
    simp [recordsLen, readRecords]
  | cons c rest ih =>
    obtain ⟨hc, hrest⟩ := List.forall_mem_cons.mp hlen
    have hcons : recordsLen (c :: rest) = (2 + c.text.length) + recordsLen rest := by
      simp only [recordsLen, List.map_cons, List.sum_cons]
      omega
    have hsize : (UInt8.ofNat c.text.length).toNat = c.text.length := by
      rw [UInt8.toNat_ofNat']
      omega
    rw [readComps, if_neg (by omega), readRecords]
    simp only [List.flatMap_cons, SlComp.bytes, List.cons_append, List.getD_cons_zero,
      List.getD_cons_succ, hsize, List.drop_succ_cons, List.drop_zero, List.take_left,
      hcons, Nat.add_sub_cancel_left, Nat.add_comm 2, List.drop_left]
    cases readComp c.flags c.text st with
    | none => rfl
    | some st' => exact ih hrest st'

/-- The value of linkdestcont at the end of an entry. -/
def closeEntry (cont : Nat) (st : ReadState) : ReadState :=
  if st.cont = 2 then st else { st with cont := cont }

theorem readRrSl_slEntry (comps : List SlComp) (hfits : recordsLen comps ≤ 250) (more : Bool)
    (st : ReadState) :
    readRrSl (slEntry (if more then 1 else 0) (recordsLen comps) comps) st =
      (readRecords comps st).map (closeEntry (if more then 1 else 0)) := by
  have hlen : ∀ c ∈ comps, c.text.length ≤ 255 := by
    intro c hc
    obtain ⟨before, behind, rfl⟩ := List.append_of_mem hc
    have hone : recordsLen (c :: behind) = c.text.length + 2 + recordsLen behind := by
      simp [recordsLen]
    rw [recordsLen_append, hone] at hfits
    omega
  have hsize : (UInt8.ofNat (recordsLen comps + 5)).toNat - 5 = recordsLen comps := by
    rw [UInt8.toNat_ofNat']
    omega
  simp only [readRrSl, slEntry, List.getD_cons_zero, List.getD_cons_succ, ne_eq,
    not_true_eq_false, or_self, if_false, hsize, List.drop_succ_cons, List.drop_zero,
    readComps_records hlen]
  cases readRecords comps st with
  | none => rfl
  | some st' => cases more <;> simp [closeEntry] <;> split <;> rfl

theorem readRecords_cont {comps : List SlComp} (hne : comps ≠ []) {st st' : ReadState}
    (hread : readRecords comps st = some st') : st'.cont = 1 ∨ st'.cont = 2 := by
  induction comps generalizing st with
  | nil => exact absurd rfl hne
  | cons c rest ih =>
    rw [readRecords, Option.bind_eq_some_iff] at hread
    obtain ⟨mid, hmid, hrest⟩ := hread
    rcases eq_or_ne rest [] with rfl | hmore
    · obtain rfl : mid = st' := by simpa [readRecords] using hrest
      simp only [readComp] at hmid
      split at hmid
      · exact absurd hmid (by simp)
      · simp only [Option.some.injEq] at hmid
        subst hmid
        simp only
        split
        · exact Or.inr rfl
        · exact Or.inl rfl
    · exact ih hmore hrest

/-- Reading the entries means reading the records. -/
theorem readEntries_addSlLoop {pending comps : List SlComp} (hne : pending ≠ [])
    (hfits : recordsLen pending ≤ 250) (hsizes : ∀ c ∈ comps, c.text.length ≤ 248)
    {st : ReadState} (hopen : st.dest.isSome → st.cont ≠ 0) :
    readEntries (addSlLoop (recordsLen pending) pending comps) st =
      (readRecords (pending ++ comps) st).map (closeEntry 0) := by
  have hnoskip : ¬ (st.dest.isSome ∧ st.cont = 0) := fun h => hopen h.1 h.2
  induction comps generalizing pending st with
  | nil =>
    have hentry := readRrSl_slEntry pending hfits false st
    simp only [Bool.false_eq_true, if_false] at hentry
    rw [addSlLoop, readEntries, if_neg hnoskip, hentry, List.append_nil]
    cases readRecords pending st <;> rfl
  | cons c rest ih =>
    obtain ⟨hc, hrest⟩ := List.forall_mem_cons.mp hsizes
    have hone : recordsLen [c] = c.text.length + 2 := by simp [recordsLen]
    rw [addSlLoop]
    split
    next hfull =>
      have hentry := readRrSl_slEntry pending hfits true st
      simp only [if_true] at hentry
      rw [readEntries, if_neg hnoskip, hentry, readRecords_append]
      cases hread : readRecords pending st with
      | none => rfl
      | some mid =>
        -- a component has been read, so the end of the entry changes nothing
        have hcont := readRecords_cont hne hread
        have hclose : closeEntry 1 mid = mid := by
          rw [closeEntry]
          split
          · rfl
          · rw [← hcont.resolve_right ‹_›]
        simp only [Option.map_some, Option.bind_some, hclose]
        rw [← hone]
        have hmid : mid.dest.isSome → mid.cont ≠ 0 := by omega
        exact ih (by simp) (by omega) hrest hmid (fun h => hmid h.1 h.2)
    next hroom =>
      rw [← hone, ← recordsLen_append, ih (by simp) (by rw [recordsLen_append]; omega) hrest
        hopen hnoskip, List.append_assoc]
      rfl

theorem readEntries_start {comps : List SlComp} (hsizes : ∀ c ∈ comps, c.text.length ≤ 248) :
    readEntries (addSlLoop 0 [] comps) (between none) =
      (readRecords comps (between none)).map (closeEntry 0) := by
  cases comps with
  | nil =>
    have hentry := readRrSl_slEntry [] (Nat.zero_le 250) false (between none)
    simp only [Bool.false_eq_true, if_false] at hentry
    change readEntries [slEntry 0 (recordsLen []) []] (between none) = _
    rw [readEntries, if_neg (by simp [between]), hentry]
    rfl
  | cons c rest =>
    obtain ⟨hc, hrest⟩ := List.forall_mem_cons.mp hsizes
    have hone : recordsLen [c] = c.text.length + 2 := by simp [recordsLen]
    have hopen : (between none).dest.isSome → (between none).cont ≠ 0 := by simp [between]
    have hentries := readEntries_addSlLoop (List.cons_ne_nil c []) (by omega) hrest hopen
    rw [addSlLoop, if_neg (by omega), ← hone, Nat.zero_add]
    exact hentries

theorem slStart_fill (nmInCe : Option Nat) : (slStart nmInCe).fill = ⟨nmInCe.isSome, 5⟩ := rfl

/-- The SL entries have proper length if no second part of an overrun exceeds an entry,
and then they get read as the shown texts of the turns. -/
theorem roundTrip_iff {suaFree : Nat} (hsua : suaFree ≤ 255) (nmInCe : Option Nat)
    {dest : Bytes} (hts : ∀ t ∈ turns [] dest, t.Proper) :
    RoundTrip suaFree nmInCe dest ↔
      EachOverrun (fun t => recorded t ≤ 248) suaFree ⟨nmInCe.isSome, 5⟩ (turns [] dest) ∧
      ∃ got, decoded suaFree ⟨nmInCe.isSome, 5⟩ none (turns [] dest) = some got ∧
        untail got = untail dest := by
  obtain ⟨new, hspec⟩ := slTurns_spec hts hsua (show 5 ≤ (slStart nmInCe).slLen from le_refl 5)
  have hcomps : (slLoop suaFree nmInCe dest).comps = new := by
    have := hspec.comps
    rw [slLoop]
    split <;> exact this
  -- rrip_add_SL() gets along with one entry if it is not allowed to make more
  have hfields : rripSlFields suaFree nmInCe dest = .ok (addSlLoop 0 [] new) := by
    rw [rripSlFields, hcomps, rripAddSl, if_neg]
    rintro ⟨hsingle, hmany⟩
    rcases hcew : ((turns [] dest).foldl (slTurn suaFree) (slStart nmInCe)).cew with _ | _
    · obtain ⟨-, hlen, hle⟩ := hspec.sua hcew
      have hfive : (slStart nmInCe).slLen = 5 := rfl
      have hone := addSlLoop_single [] new
        (by simp only [recordsLen, List.map_nil, List.sum_nil] at hlen ⊢; omega)
      exact absurd (hone ▸ hmany) (by decide)
    · have hfive := hspec.five
      rw [slLoop, if_pos hcew, decide_eq_false_iff_not] at hsingle
      exact hsingle (Nat.lt_of_lt_of_le (by omega) (Nat.le_add_left ..))
  have hlengths : (∀ entry ∈ addSlLoop 0 [] new, entry.length ≤ 255) ↔
      EachOverrun (fun t => recorded t ≤ 248) suaFree ⟨nmInCe.isSome, 5⟩ (turns [] dest) := by
    rw [← slStart_fill, ← hspec.sizes]
    have := addSlLoop_length [] new
    simpa [recordsLen] using this
  have hread : (∀ c ∈ new, c.text.length ≤ 248) → readEntries (addSlLoop 0 [] new) ⟨none, 0⟩ =
      some ⟨decoded suaFree ⟨nmInCe.isSome, 5⟩ none (turns [] dest), 0⟩ := by
    intro hsizes
    have hrecords := hspec.reads none
    rw [slStart_fill] at hrecords
    have hstart := readEntries_start hsizes
    rw [hrecords, Option.map_some] at hstart
    refine hstart.trans ?_
    cases decoded suaFree ⟨nmInCe.isSome, 5⟩ none (turns [] dest) <;> rfl
  constructor
  · rintro ⟨entries, hentries, hlen, got, hgot, htail⟩
    obtain rfl : addSlLoop 0 [] new = entries := by
      rw [hfields] at hentries
      exact Except.ok.inj hentries
    have hshort := hlengths.mp hlen
    rw [hread (hspec.sizes.mpr hshort), Option.some.injEq, ReadState.mk.injEq] at hgot
    exact ⟨hshort, got, hgot.1, htail⟩
  · rintro ⟨hshort, got, hgot, htail⟩
    refine ⟨_, hfields, hlengths.mpr hshort, got, ?_, htail⟩
    rw [hread (hspec.sizes.mpr hshort), hgot]

end SymlinkTarget
