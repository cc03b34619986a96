import Libisofs.Lib.Descent
import Libisofs.SuspIter

/-!
# Safe iteration over System Use entries

The iterator walks through the System Use field and then through one continuation area after
the other. It ends if no area leads back to itself, and it stays in bounds if no entry reaches
over the end of its field or area. Neither is checked by the iterator.
-/

namespace SuspSafety

open ByteBuffers Descent Relation SuspIter

/-- The announcement of a continuation area. -/
structure Continuation where
  block : UInt32
  off : UInt32
  len : UInt32

instance finite_uInt32 : Finite UInt32 := Finite.of_injective UInt32.toFin fun _ _ h => UInt32.toFin_inj.mp h

instance finite_continuation : Finite Continuation :=
  Finite.of_injective (fun ce => (ce.block, ce.off, ce.len)) fun ⟨_, _, _⟩ ⟨_, _, _⟩ h => by
    simpa using h

/-- The System Use field is `none`. -/
abbrev Area := Option Continuation

/-- The announcement which the iterator remembers. -/
def pending (iter : SuspIterator) : Option Continuation :=
  if iter.ceLen = 0 then none else some ⟨iter.ceBlock, iter.ceOff, iter.ceLen⟩

/-- The positions of the entries which get returned from a field or area, and the announcement
at its end. There is none if an error occurs before the end. The first entry of a continuation
area is taken unchecked. -/
def scan (submit : Int) (unchecked : Bool) (iter : SuspIterator) :
    List Nat × Option (Option Continuation) :=
  if !unchecked && atEnd iter then ([], some (pending iter))
  else if lenSue iter.base iter.pos = 0 then ([], none)
  else if suspSig iter.base iter.pos 'C' 'E' then
    if iter.ceLen ≠ 0 then
      if submit < 0 then ([], none)
      else scan submit false { iter with pos := iter.pos + lenSue iter.base iter.pos }
    else
      scan submit false (announce { iter with pos := iter.pos + lenSue iter.base iter.pos } iter.pos)
  else if suspSig iter.base iter.pos 'P' 'D' then
    scan submit false { iter with pos := iter.pos + lenSue iter.base iter.pos }
  else
    let (rest, last) :=
      scan submit false { iter with pos := iter.pos + lenSue iter.base iter.pos }
    (iter.pos :: rest, last)
termination_by (iter.size - iter.pos).toNat + if unchecked then 1 else 0
decreasing_by
  all_goals
    simp_all [atEnd, announce]
    cases unchecked <;> simp_all <;> omega

/-- The iterator at the begin of a field or area. -/
def areaStart (med : Medium) (record : Buffer) (lenSkp : UInt8) : Area → Except Int SuspIterator
  | none => .ok (suspIterNew record lenSkp)
  | some ce =>
    match readCeArea med ce.block ce.off ce.len with
    | .error ret => .error ret
    | .ok base => .ok ⟨base, 0, ce.len.toNat, ce.block, ce.off, 0⟩

def scanArea (med : Medium) (a : Area) (iter : SuspIterator) :
    List Nat × Option (Option Continuation) := scan med.submit a.isSome iter

section Steps

variable {med : Medium} {s : Status} {iter : SuspIterator} {m n : Nat}

/-- The status after some steps from any status. -/
def statusFrom (med : Medium) (s : Status) : Nat → Status
  | 0 => s
  | n + 1 => (advance med (statusFrom med s n)).1

theorem statusFrom_add : statusFrom med s (m + n) = statusFrom med (statusFrom med s m) n := by
  induction n with
  | zero => rfl
  | succ n ih => exact congrArg (fun s => (advance med s).1) ih

theorem statusFrom_ended {ret : Int} : statusFrom med (.ended ret) n = .ended ret := by
  induction n with
  | zero => rfl
  | succ n ih => rw [statusFrom, ih, advance]

/-- An ended iteration stays ended. -/
theorem ended_of_le {ret : Int} (h : statusFrom med s m = .ended ret) (hle : m ≤ n) :
    statusFrom med s n = .ended ret := by
  obtain ⟨k, rfl⟩ := Nat.exists_eq_add_of_le hle
  rw [statusFrom_add, h, statusFrom_ended]

/-- What follows the end of a field or area. -/
def follow (med : Medium) (record : Buffer) (lenSkp : UInt8) : Area → Status
  | none => .ended 0
  | some ce =>
    match areaStart med record lenSkp (some ce) with
    | .error ret => .ended ret
    | .ok iter => .atEntry iter

variable {record : Buffer} {lenSkp : UInt8}

theorem findEntry_atEnd (h : atEnd iter = true) :
    findEntry med false iter = follow med record lenSkp (pending iter) := by
  rw [findEntry, Bool.false_and, if_neg Bool.false_ne_true, if_pos h, pending]
  by_cases hce : iter.ceLen = 0
  · rw [if_neg (not_not.mpr hce), if_pos hce, follow]
  · rw [if_pos hce, if_neg hce, follow, areaStart]
    split
    next hread => rw [hread]
    next hread => rw [hread]

theorem findEntry_entry (h : atEnd iter = false) : findEntry med false iter = .atEntry iter := by
  rw [findEntry, Bool.false_and, if_neg Bool.false_ne_true, h, if_neg Bool.false_ne_true]

/-- A status within a field or area. -/
def statusOf (unchecked : Bool) (iter : SuspIterator) : Status :=
  if unchecked then .atEntry iter else .calling false iter

theorem statusOf_entry {unchecked : Bool} (h : ¬ (!unchecked && atEnd iter) = true) :
    ∃ j, statusFrom med (statusOf unchecked iter) j = .atEntry iter := by
  cases unchecked with
  | true => exact ⟨0, rfl⟩
  | false =>
    have hnotEnd : atEnd iter = false := by simpa using h
    exact ⟨1, findEntry_entry hnotEnd⟩

/-- The steps from a status return the entries and lead to the end of the field or area. -/
structure Walk (med : Medium) (record : Buffer) (lenSkp : UInt8) (s : Status) (base : Buffer)
    (size : Int) (positions : List Nat) (last : Option Area) (n : Nat) : Prop where
  entries : ∀ pos ∈ positions, ∃ m ≤ n,
    (advance med (statusFrom med s m)).2 = some ⟨base, pos, size⟩
  error : last = none → ∃ ret ≤ 0, statusFrom med s (n + 1) = .ended ret
  leave : ∀ a, last = some a → statusFrom med s (n + 1) = follow med record lenSkp a

section Walks

variable {t : Status} {base : Buffer} {size : Int} {positions : List Nat} {last : Option Area}

theorem Walk.prepend (h : Walk med record lenSkp t base size positions last n)
    (hsteps : statusFrom med s m = t) :
    Walk med record lenSkp s base size positions last (m + n) := by
  subst hsteps
  constructor
  case entries =>
    intro pos hpos
    obtain ⟨k, hk, hreturned⟩ := h.entries pos hpos
    refine ⟨m + k, by omega, ?_⟩
    rw [statusFrom_add, hreturned]
  case error =>
    intro hlast
    rw [Nat.add_assoc, statusFrom_add]
    exact h.error hlast
  case leave =>
    intro a hlast
    rw [Nat.add_assoc, statusFrom_add]
    exact h.leave a hlast

theorem Walk.returning {pos : Nat} (h : Walk med record lenSkp t base size positions last n)
    (hstep : advance med s = (t, some ⟨base, pos, size⟩)) :
    Walk med record lenSkp s base size (pos :: positions) last (1 + n) := by
  have hfirst : statusFrom med s 1 = t := congrArg Prod.fst hstep
  have hrest := h.prepend hfirst
  constructor
  case entries =>
    intro other hmem
    rcases List.mem_cons.mp hmem with rfl | hmem
    · exact ⟨0, Nat.zero_le _, congrArg Prod.snd hstep⟩
    · exact hrest.entries other hmem
  case error => exact hrest.error
  case leave => exact hrest.leave

theorem walk_error {ret : Int} (hret : ret ≤ 0) (hstep : (advance med s).1 = .ended ret) :
    Walk med record lenSkp s base size [] none 0 := by
  constructor
  case entries => exact fun _ hmem => by cases hmem
  case error => exact fun _ => ⟨ret, hret, hstep⟩
  case leave => exact fun _ hlast => by cases hlast

end Walks

/-- A scan tells what the iteration does until the end of the field or area. -/
theorem scan_walk (unchecked : Bool) (iter : SuspIterator) :
    ∃ n, Walk med record lenSkp (statusOf unchecked iter) iter.base iter.size
      (scan med.submit unchecked iter).1 (scan med.submit unchecked iter).2 n := by
  fun_induction scan med.submit unchecked iter with
  | case1 unchecked iter hend =>
    cases unchecked with
    | true => simp at hend
    | false =>
      refine ⟨0, ?_⟩
      constructor
      case entries => exact fun _ hmem => by cases hmem
      case error => exact fun hlast => by cases hlast
      case leave =>
        intro a hlast
        obtain rfl := Option.some.inj hlast
        exact findEntry_atEnd (by simpa using hend)
  | case2 unchecked iter hend hlen =>
    obtain ⟨j, hj⟩ := @statusOf_entry med iter unchecked hend
    refine ⟨j + 0, Walk.prepend (walk_error (by decide : isoWrongRr ≤ 0) ?_) hj⟩
    rw [advance, takeEntry]
    simp only [hlen, if_true]
  | case3 unchecked iter hend hlen hce hpending hsubmit =>
    obtain ⟨j, hj⟩ := @statusOf_entry med iter unchecked hend
    refine ⟨j + 0, Walk.prepend (walk_error (Int.le_of_lt hsubmit) ?_) hj⟩
    rw [advance, takeEntry]
    simp only [if_neg hlen, if_pos hce, if_pos hpending, if_pos hsubmit]
  | case4 unchecked iter hend hlen hce hpending hsubmit ih =>
    obtain ⟨j, hj⟩ := @statusOf_entry med iter unchecked hend
    obtain ⟨n, hn⟩ := ih
    have hstep : statusFrom med (.atEntry iter) 1 =
        statusOf false { iter with pos := iter.pos + lenSue iter.base iter.pos } := by
      rw [statusFrom, statusFrom, advance, takeEntry]
      simp only [if_neg hlen, if_pos hce, if_pos hpending, if_neg hsubmit]
      rfl
    exact ⟨_, (hn.prepend hstep).prepend hj⟩
  | case5 unchecked iter hend hlen hce hpending ih =>
    obtain ⟨j, hj⟩ := @statusOf_entry med iter unchecked hend
    obtain ⟨n, hn⟩ := ih
    have hstep : statusFrom med (.atEntry iter) 1 = statusOf false (announce
        { iter with pos := iter.pos + lenSue iter.base iter.pos } iter.pos) := by
      rw [statusFrom, statusFrom, advance, takeEntry]
      simp only [if_neg hlen, if_pos hce, if_neg hpending]
      rfl
    exact ⟨_, (hn.prepend hstep).prepend hj⟩
  | case6 unchecked iter hend hlen hce hpd ih =>
    obtain ⟨j, hj⟩ := @statusOf_entry med iter unchecked hend
    obtain ⟨n, hn⟩ := ih
    have hstep : statusFrom med (.atEntry iter) 1 =
        statusOf false { iter with pos := iter.pos + lenSue iter.base iter.pos } := by
      rw [statusFrom, statusFrom, advance, takeEntry]
      simp only [if_neg hlen, if_neg hce, if_pos hpd]
      rfl
    exact ⟨_, (hn.prepend hstep).prepend hj⟩
  | case7 unchecked iter hend hlen hce hpd rest last hscan ih =>
    obtain ⟨j, hj⟩ := @statusOf_entry med iter unchecked hend
    obtain ⟨n, hn⟩ := ih
    rw [hscan] at hn
    have hstep : advance med (.atEntry iter) =
        (statusOf false { iter with pos := iter.pos + lenSue iter.base iter.pos },
          some ⟨iter.base, iter.pos, iter.size⟩) := by
      rw [advance, takeEntry]
      simp only [if_neg hlen, if_neg hce, if_neg hpd]
      rfl
    exact ⟨_, (hn.returning hstep).prepend hj⟩

end Steps

/-- One area announces the other, which can be read. -/
def Leads (med : Medium) (record : Buffer) (lenSkp : UInt8) (a b : Area) : Prop :=
  ∃ iter, areaStart med record lenSkp a = .ok iter ∧ (scanArea med a iter).2 = some b ∧
    b ≠ none ∧ ∃ iter', areaStart med record lenSkp b = .ok iter'

/-- The returned entries do not reach over the end of the field or area. -/
def EntriesFit (med : Medium) (record : Buffer) (lenSkp : UInt8) (a : Area) : Prop :=
  ∀ iter, areaStart med record lenSkp a = .ok iter → ∀ pos ∈ (scanArea med a iter).1,
    ((pos + lenSue iter.base pos : Nat) : Int) ≤ iter.size

/-- The record is not SUSP, or no area leads back to itself and all returned entries fit. -/
def Harmless (med : Medium) (record : Buffer) (lenSkp : UInt8) (root : Bool) : Prop :=
  (root && notSusp (suspIterNew record lenSkp)) = true ∨
  AcyclicFrom (Leads med record lenSkp) none ∧
    ∀ a, ReflTransGen (Leads med record lenSkp) none a → EntriesFit med record lenSkp a

/-- The iteration ends by 0 or by an error. -/
def Ends (med : Medium) (record : Buffer) (lenSkp : UInt8) (root : Bool) : Prop :=
  ∃ n, ∃ ret ≤ 0, statusAfter med record lenSkp root n = .ended ret

/-- Each returned entry is inside its field or area. -/
def StaysInside (med : Medium) (record : Buffer) (lenSkp : UInt8) (root : Bool) : Prop :=
  ∀ n sue, returned med record lenSkp root n = some sue →
    ((sue.pos + lenSue sue.base sue.pos : Nat) : Int) ≤ sue.size

section Areas

variable {med : Medium} {record : Buffer} {lenSkp : UInt8} {root : Bool} {a b : Area}
  {iter : SuspIterator} {n : Nat}

/-- The status at the begin of a field or area. -/
def startStatus (root : Bool) (a : Area) (iter : SuspIterator) : Status :=
  match a with
  | none => .calling root iter
  | some _ => .atEntry iter

/-- A root record which passes the check is treated like others. -/
theorem findEntry_root (hsusp : (root && notSusp iter) = false) :
    findEntry med root iter = findEntry med false iter := by
  rw [findEntry, findEntry, hsusp, Bool.false_and]

theorem start_walk (hsusp : (root && notSusp (suspIterNew record lenSkp)) = false)
    (h : areaStart med record lenSkp a = .ok iter) :
    ∃ n, Walk med record lenSkp (startStatus root a iter) iter.base iter.size
      (scanArea med a iter).1 (scanArea med a iter).2 n := by
  cases a with
  | some ce => exact scan_walk true iter
  | none =>
    obtain rfl := Except.ok.inj h
    obtain ⟨n, hn⟩ := @scan_walk med record lenSkp false (suspIterNew record lenSkp)
    refine ⟨n, ?_⟩
    -- the steps are the same from the first one on
    have hfirst : advance med (startStatus root none (suspIterNew record lenSkp)) =
        advance med (statusOf false (suspIterNew record lenSkp)) := by
      rw [startStatus, statusOf, advance, if_neg Bool.false_ne_true, advance,
        findEntry_root hsusp]
    have hsteps (m : Nat) :
        statusFrom med (startStatus root none (suspIterNew record lenSkp)) (m + 1) =
          statusFrom med (statusOf false (suspIterNew record lenSkp)) (m + 1) := by
      rw [Nat.add_comm, statusFrom_add, statusFrom_add]
      exact congrArg (fun s => statusFrom med s m) (congrArg Prod.fst hfirst)
    constructor
    case entries =>
      intro pos hpos
      obtain ⟨m, hm, hreturned⟩ := hn.entries pos hpos
      refine ⟨m, hm, ?_⟩
      cases m with
      | zero => exact (congrArg Prod.snd hfirst).trans hreturned
      | succ m => rw [hsteps, hreturned]
    case error => exact fun hlast => hsteps n ▸ hn.error hlast
    case leave => exact fun a hlast => (hsteps n).trans (hn.leave a hlast)

theorem follow_start (hne : a ≠ none) (h : areaStart med record lenSkp a = .ok iter) :
    follow med record lenSkp a = startStatus root a iter := by
  cases a with
  | none => exact absurd rfl hne
  | some ce => rw [follow, h, startStatus]

theorem Leads.steps (hsusp : (root && notSusp (suspIterNew record lenSkp)) = false)
    (h : Leads med record lenSkp a b) :
    ∃ iter iter' n, areaStart med record lenSkp a = .ok iter ∧
      areaStart med record lenSkp b = .ok iter' ∧
      statusFrom med (startStatus root a iter) (n + 1) = startStatus root b iter' := by
  obtain ⟨iter, hstart, hscan, hne, iter', hstart'⟩ := h
  obtain ⟨n, hn⟩ := start_walk hsusp hstart
  exact ⟨iter, iter', n, hstart, hstart', (hn.leave b hscan).trans (follow_start hne hstart')⟩

/-- Each area which can be reached gets entered. -/
theorem reach_steps (hsusp : (root && notSusp (suspIterNew record lenSkp)) = false)
    (h : ReflTransGen (Leads med record lenSkp) none a)
    (hstart : areaStart med record lenSkp a = .ok iter) :
    ∃ n, statusFrom med (.calling root (suspIterNew record lenSkp)) n =
      startStatus root a iter := by
  induction h generalizing iter with
  | refl =>
    obtain rfl := Except.ok.inj hstart
    exact ⟨0, rfl⟩
  | tail _ hlead ih =>
    obtain ⟨before, iter', n, hbefore, hiter', hsteps⟩ := hlead.steps hsusp
    obtain rfl := Except.ok.inj (hiter'.symm.trans hstart)
    obtain ⟨m, hm⟩ := ih hbefore
    refine ⟨m + (n + 1), ?_⟩
    rw [statusFrom_add, hm, hsteps]

theorem readBlocks_error {first : UInt32} {ret : Int}
    (h : readBlocks med first n = .error ret) : ret ≤ 0 := by
  induction n with
  | zero => cases h
  | succ n ih =>
    rw [readBlocks] at h
    split at h
    next hread =>
      obtain rfl := Except.error.inj h
      exact ih hread
    next =>
      simp only at h
      split at h
      next hret =>
        obtain rfl := Except.error.inj h
        exact Int.le_of_lt hret
      next => cases h

theorem areaStart_error {ret : Int} (h : areaStart med record lenSkp a = .error ret) :
    ret ≤ 0 := by
  cases a with
  | none => cases h
  | some ce =>
    rw [areaStart] at h
    split at h
    next hread =>
      obtain rfl := Except.error.inj h
      simp only [readCeArea] at hread
      split at hread
      · obtain rfl := Except.error.inj hread
        decide
      · split at hread
        · obtain rfl := Except.error.inj hread
          decide
        · split at hread
          next hblocks =>
            obtain rfl := Except.error.inj hread
            exact readBlocks_error hblocks
          next => cases hread
    next => cases h

/-- From an area without endless descents, the iteration ends. -/
theorem ends_of_ending (hsusp : (root && notSusp (suspIterNew record lenSkp)) = false)
    (h : Ending (Leads med record lenSkp) a) (hstart : areaStart med record lenSkp a = .ok iter) :
    ∃ n, ∃ ret ≤ 0, statusFrom med (startStatus root a iter) n = .ended ret := by
  induction h generalizing iter with
  | intro a _ ih =>
    obtain ⟨n, hn⟩ := start_walk hsusp hstart
    cases hscan : (scanArea med a iter).2 with
    | none =>
      obtain ⟨ret, hret, hended⟩ := hn.error hscan
      exact ⟨n + 1, ret, hret, hended⟩
    | some b =>
      have hleave := hn.leave b hscan
      cases b with
      | none => exact ⟨n + 1, 0, Int.le_refl 0, hleave⟩
      | some ce =>
        cases hnext : areaStart med record lenSkp (some ce) with
        | error ret =>
          rw [follow, hnext] at hleave
          exact ⟨n + 1, ret, areaStart_error hnext, hleave⟩
        | ok iter' =>
          rw [follow_start (Option.some_ne_none ce) hnext] at hleave
          obtain ⟨m, ret, hret, hended⟩ := ih (some ce)
            ⟨iter, hstart, hscan, Option.some_ne_none ce, iter', hnext⟩ hnext
          refine ⟨n + 1 + m, ret, hret, ?_⟩
          rw [statusFrom_add, hleave, hended]

/-- If the iteration ends, then there are no endless descents. -/
theorem ending_of_ends {ret : Int} (hsusp : (root && notSusp (suspIterNew record lenSkp)) = false)
    (hstart : areaStart med record lenSkp a = .ok iter)
    (hended : statusFrom med (startStatus root a iter) n = .ended ret) :
    Ending (Leads med record lenSkp) a := by
  induction n using Nat.strong_induction_on generalizing a iter with
  | _ n ih =>
    refine ⟨_, fun b hlead => ?_⟩
    obtain ⟨before, iter', m, hbefore, hiter', hsteps⟩ := hlead.steps hsusp
    obtain rfl := Except.ok.inj (hbefore.symm.trans hstart)
    have hmore : m + 1 ≤ n := by
      by_contra hless
      have hlate := ended_of_le hended (Nat.le_of_not_le hless)
      rw [hsteps] at hlate
      cases b with
      | none => cases hlate
      | some ce => cases hlate
    obtain ⟨k, rfl⟩ := Nat.exists_eq_add_of_le hmore
    rw [statusFrom_add, hsteps] at hended
    exact ih k (by omega) hiter' hended

/-- The status belongs to an area which can be reached, and returns only entries of it. -/
structure Within (med : Medium) (record : Buffer) (lenSkp : UInt8) (unchecked : Bool)
    (iter : SuspIterator) (a : Area) (start : SuspIterator) : Prop where
  reached : ReflTransGen (Leads med record lenSkp) none a
  opened : areaStart med record lenSkp a = .ok start
  base : iter.base = start.base
  size : iter.size = start.size
  entries : ∀ pos ∈ (scan med.submit unchecked iter).1, pos ∈ (scanArea med a start).1
  last : (scan med.submit unchecked iter).2 = (scanArea med a start).2

/-- The invariant of the iteration. -/
def Located (med : Medium) (record : Buffer) (lenSkp : UInt8) : Status → Prop
  | .calling _ iter => ∃ a start, Within med record lenSkp false iter a start
  | .atEntry iter => ∃ a start, Within med record lenSkp true iter a start
  | .ended _ => True

theorem scan_end (h : atEnd iter = true) :
    scan med.submit false iter = ([], some (pending iter)) := by
  rw [scan, h]
  rfl

theorem scan_entry (h : atEnd iter = false) :
    scan med.submit false iter = scan med.submit true iter := by
  conv_lhs => rw [scan]
  conv_rhs => rw [scan]
  rw [h]
  rfl

theorem located_follow {start : SuspIterator}
    (hreach : ReflTransGen (Leads med record lenSkp) none a)
    (hstart : areaStart med record lenSkp a = .ok start)
    (hscan : (scanArea med a start).2 = some b) :
    Located med record lenSkp (follow med record lenSkp b) := by
  cases b with
  | none => trivial
  | some ce =>
    cases hnext : areaStart med record lenSkp (some ce) with
    | error ret =>
      rw [follow, hnext]
      trivial
    | ok iter' =>
      rw [follow, hnext]
      have hlead : Leads med record lenSkp a (some ce) :=
        ⟨start, hstart, hscan, Option.some_ne_none ce, iter', hnext⟩
      refine ⟨some ce, iter', ?_⟩
      constructor
      case reached => exact hreach.tail hlead
      case opened => exact hnext
      case base => rfl
      case size => rfl
      case entries => exact fun _ hpos => hpos
      case last => rfl

theorem located_findEntry {first : Bool} {start : SuspIterator}
    (h : Within med record lenSkp false iter a start) :
    Located med record lenSkp (findEntry med first iter) := by
  cases hsusp : first && notSusp iter with
  | true =>
    rw [findEntry, hsusp]
    trivial
  | false =>
    rw [findEntry_root hsusp]
    cases hend : atEnd iter with
    | true =>
      rw [@findEntry_atEnd med iter record lenSkp hend]
      refine located_follow h.reached h.opened ?_
      rw [← h.last, scan_end hend]
    | false =>
      rw [findEntry_entry hend]
      refine ⟨a, start, ?_⟩
      have hsame := @scan_entry med iter hend
      constructor
      case reached => exact h.reached
      case opened => exact h.opened
      case base => exact h.base
      case size => exact h.size
      case entries => exact hsame ▸ h.entries
      case last => exact hsame ▸ h.last

/-- A step within the area. -/
theorem Within.step {start next : SuspIterator} (h : Within med record lenSkp true iter a start)
    (hbase : next.base = iter.base) (hsize : next.size = iter.size)
    (hscan : (∀ pos ∈ (scan med.submit false next).1, pos ∈ (scan med.submit true iter).1) ∧
      (scan med.submit true iter).2 = (scan med.submit false next).2) :
    Located med record lenSkp (.calling false next) := by
  refine ⟨a, start, ?_⟩
  constructor
  case reached => exact h.reached
  case opened => exact h.opened
  case base => exact hbase.trans h.base
  case size => exact hsize.trans h.size
  case entries => exact fun pos hpos => h.entries pos (hscan.1 pos hpos)
  case last => exact hscan.2.symm.trans h.last

theorem located_takeEntry {start : SuspIterator} (h : Within med record lenSkp true iter a start) :
    Located med record lenSkp (takeEntry med iter).1 ∧
      ∀ sue, (takeEntry med iter).2 = some sue → sue.base = start.base ∧ sue.size = start.size ∧
        sue.pos ∈ (scanArea med a start).1 := by
  have hscan : scan med.submit true iter = scan med.submit true iter := rfl
  conv_rhs at hscan => rw [scan]
  rw [Bool.not_true, Bool.false_and, if_neg Bool.false_ne_true] at hscan
  rw [takeEntry]
  by_cases hlen : lenSue iter.base iter.pos = 0
  · simp only [if_pos hlen]
    exact ⟨trivial, fun _ hnone => by cases hnone⟩
  rw [if_neg hlen] at hscan
  simp only [if_neg hlen]
  by_cases hce : suspSig iter.base iter.pos 'C' 'E' = true
  · rw [if_pos hce] at hscan
    rw [if_pos hce]
    by_cases hpending : iter.ceLen ≠ 0
    · rw [if_pos hpending] at hscan
      rw [if_pos hpending]
      by_cases hsubmit : med.submit < 0
      · rw [if_pos hsubmit]
        exact ⟨trivial, fun _ hnone => by cases hnone⟩
      · rw [if_neg hsubmit] at hscan
        rw [if_neg hsubmit]
        refine ⟨h.step rfl rfl ?_, fun _ hnone => by cases hnone⟩
        rw [hscan]
        exact ⟨fun _ hpos => hpos, rfl⟩
    · rw [if_neg hpending] at hscan
      rw [if_neg hpending]
      refine ⟨h.step rfl rfl ?_, fun _ hnone => by cases hnone⟩
      rw [hscan]
      exact ⟨fun _ hpos => hpos, rfl⟩
  · rw [if_neg hce] at hscan
    rw [if_neg hce]
    by_cases hpd : suspSig iter.base iter.pos 'P' 'D' = true
    · rw [if_pos hpd] at hscan
      rw [if_pos hpd]
      refine ⟨h.step rfl rfl ?_, fun _ hnone => by cases hnone⟩
      rw [hscan]
      exact ⟨fun _ hpos => hpos, rfl⟩
    · rw [if_neg hpd] at hscan
      rw [if_neg hpd]
      refine ⟨h.step rfl rfl ?_, fun sue hsome => ?_⟩
      · rw [hscan]
        exact ⟨fun _ hpos => List.mem_cons_of_mem _ hpos, rfl⟩
      · obtain rfl := Option.some.inj hsome
        refine ⟨h.base, h.size, h.entries _ ?_⟩
        rw [hscan]
        exact List.mem_cons_self

theorem located_statusAfter (n : Nat) :
    Located med record lenSkp (statusAfter med record lenSkp root n) := by
  induction n with
  | zero =>
    refine ⟨none, suspIterNew record lenSkp, ?_⟩
    constructor
    case reached => exact .refl
    case opened => rfl
    case base => rfl
    case size => rfl
    case entries => exact fun _ hpos => hpos
    case last => rfl
  | succ n ih =>
    rw [statusAfter]
    cases hstatus : statusAfter med record lenSkp root n with
    | calling first iter =>
      rw [hstatus] at ih
      obtain ⟨a, start, hwithin⟩ := ih
      exact located_findEntry hwithin
    | atEntry iter =>
      rw [hstatus] at ih
      obtain ⟨a, start, hwithin⟩ := ih
      exact (located_takeEntry hwithin).1
    | ended ret => trivial

/-- Each returned entry belongs to an area which can be reached. -/
theorem returned_located {sue : SysUserEntry}
    (h : returned med record lenSkp root n = some sue) :
    ∃ a start, ReflTransGen (Leads med record lenSkp) none a ∧
      areaStart med record lenSkp a = .ok start ∧ sue.base = start.base ∧
      sue.size = start.size ∧ sue.pos ∈ (scanArea med a start).1 := by
  have hlocated := @located_statusAfter med record lenSkp root n
  rw [returned] at h
  cases hstatus : statusAfter med record lenSkp root n with
  | calling first iter =>
    rw [hstatus] at h
    cases h
  | atEntry iter =>
    rw [hstatus] at h hlocated
    obtain ⟨a, start, hwithin⟩ := hlocated
    obtain ⟨hbase, hsize, hpos⟩ := (located_takeEntry hwithin).2 sue h
    exact ⟨a, start, hwithin.reached, hwithin.opened, hbase, hsize, hpos⟩
  | ended ret =>
    rw [hstatus] at h
    cases h

end Areas

section Main

variable {med : Medium} {record : Buffer} {lenSkp : UInt8} {root : Bool}

theorem statusAfter_eq (n : Nat) : statusAfter med record lenSkp root n =
    statusFrom med (.calling root (suspIterNew record lenSkp)) n := by
  induction n with
  | zero => rfl
  | succ n ih => rw [statusAfter, ih, statusFrom]

/-- What is not SUSP ends with the first call. -/
theorem rejected_safe (h : (root && notSusp (suspIterNew record lenSkp)) = true) :
    Ends med record lenSkp root ∧ StaysInside med record lenSkp root := by
  have hfirst : statusFrom med (.calling root (suspIterNew record lenSkp)) 1 = .ended 0 := by
    rw [statusFrom, statusFrom, advance, findEntry, if_pos h]
  refine ⟨⟨1, 0, Int.le_refl 0, (statusAfter_eq 1).trans hfirst⟩, fun n sue hsome => ?_⟩
  rw [returned, statusAfter_eq] at hsome
  cases n with
  | zero => cases hsome
  | succ n =>
    rw [ended_of_le hfirst (Nat.succ_le_succ (Nat.zero_le n))] at hsome
    cases hsome

theorem safe_of_harmless (h : Harmless med record lenSkp root) :
    Ends med record lenSkp root ∧ StaysInside med record lenSkp root := by
  cases hsusp : root && notSusp (suspIterNew record lenSkp) with
  | true => exact rejected_safe hsusp
  | false =>
    rcases h with hreject | ⟨hacyclic, hfit⟩
    · rw [hsusp] at hreject
      cases hreject
    constructor
    · obtain ⟨n, ret, hret, hended⟩ := @ends_of_ending med record lenSkp root none _ hsusp
        (ending_of_acyclicFrom hacyclic) rfl
      exact ⟨n, ret, hret, (statusAfter_eq n).trans hended⟩
    · intro n sue hsome
      obtain ⟨a, start, hreach, hstart, hbase, hsize, hpos⟩ := returned_located hsome
      rw [hbase, hsize]
      exact hfit a hreach start hstart _ hpos

theorem harmless_of_safe (hends : Ends med record lenSkp root)
    (hinside : StaysInside med record lenSkp root) : Harmless med record lenSkp root := by
  cases hsusp : root && notSusp (suspIterNew record lenSkp) with
  | true => exact Or.inl hsusp
  | false =>
    refine Or.inr ⟨?_, fun a hreach start hstart pos hpos => ?_⟩
    · obtain ⟨n, ret, -, hended⟩ := hends
      rw [statusAfter_eq] at hended
      exact acyclicFrom_of_ending (@ending_of_ends med record lenSkp root none _ n ret hsusp rfl
        hended)
    · obtain ⟨k, hk⟩ := reach_steps hsusp hreach hstart
      obtain ⟨n, hn⟩ := start_walk hsusp hstart
      obtain ⟨m, -, hreturned⟩ := hn.entries pos hpos
      refine hinside (k + m) ⟨start.base, pos, start.size⟩ ?_
      rw [returned, statusAfter_eq, statusFrom_add, hk, hreturned]

/-- The iteration is safe if and only if the areas and their entries are harmless. -/
theorem safe_iff_harmless : Ends med record lenSkp root ∧ StaysInside med record lenSkp root ↔
    Harmless med record lenSkp root :=
  ⟨fun h => harmless_of_safe h.1 h.2, safe_of_harmless⟩

end Main

section Defects

/-- A CE entry which announces 28 bytes from the begin of block 20. -/
def ceEntry : List UInt8 :=
  [67, 69, 28, 1, 20, 0, 0, 0, 0, 0, 0, 20, 0, 0, 0, 0, 0, 0, 0, 0, 28, 0, 0, 0, 0, 0, 0, 28]

/-- A directory record with the file name "A" and the System Use field. -/
def recordWith (field : List UInt8) : Buffer := fun i =>
  if i = 0 then UInt8.ofNat (34 + field.length)
  else if i = 32 then 1
  else if i = 33 then 65
  else field.getD (i - 34) 0

/-- Each block holds the CE entry. -/
def ceMedium : Medium := ⟨fun _ => (1, fun i => ceEntry.getD i 0), 100, fun _ => 0, 0⟩

/-- The memory of the continuation area. -/
def ceMemory : Buffer := fun i => copyInto (fun _ => 0) 0 2048 (fun i => ceEntry.getD i 0) (0 + i)

/-- The iterator at the begin of the continuation area, and behind its entry. -/
def ceArea : SuspIterator := ⟨ceMemory, 0, 28, 20, 0, 0⟩

def ceAreaEnd : SuspIterator := ⟨ceMemory, 28, 28, 20, 0, 28⟩

theorem ceArea_step : (advance ceMedium (.atEntry ceArea)).1 = .calling false ceAreaEnd := rfl

theorem ceAreaEnd_step : (advance ceMedium (.calling false ceAreaEnd)).1 = .atEntry ceArea := rfl

theorem record_steps : statusFrom ceMedium
    (.calling false (suspIterNew (recordWith ceEntry) 0)) 3 = .atEntry ceArea := rfl

/-- The continuation area announces itself. -/
theorem record_endless : ¬ Ends ceMedium (recordWith ceEntry) 0 false := by
  rintro ⟨n, ret, -, hended⟩
  rw [statusAfter_eq] at hended
  have hloop (k : Nat) : statusFrom ceMedium (.atEntry ceArea) (2 * k) = .atEntry ceArea := by
    induction k with
    | zero => rfl
    | succ k ih =>
      rw [Nat.mul_succ, statusFrom_add, ih, statusFrom, statusFrom, statusFrom, ceArea_step,
        ceAreaEnd_step]
  have hlate := ended_of_le hended (by omega : n ≤ 3 + 2 * n)
  rw [statusFrom_add, record_steps, hloop] at hlate
  cases hlate

/-- An NM entry of 200 bytes in a System Use field of 5 bytes. -/
theorem longEntry_outside : ¬ StaysInside ceMedium (recordWith [78, 77, 200, 1, 0]) 0 false := by
  intro hinside
  have := hinside 1 _ rfl
  exact absurd this (by decide)

theorem records_unsafe : ¬ Ends ceMedium (recordWith ceEntry) 0 false ∧
    ¬ StaysInside ceMedium (recordWith [78, 77, 200, 1, 0]) 0 false :=
  ⟨record_endless, longEntry_outside⟩

end Defects

end SuspSafety
