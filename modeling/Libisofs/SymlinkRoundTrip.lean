import Libisofs.SymlinkRecords

/-!
# Round trip of symbolic link targets

A component of more than 248 bytes may meet an SL entry in the Continuation Area which has
too little room for its overlength. Its first 248 bytes are then followed by a second part
whose size counts the whole rest of the destination, modulo 256. The destination makes the
round trip through the SL entries if and only if these sizes do no harm.
-/

namespace SymlinkTarget

theorem untail_append_slashes {y s : Bytes} (hs : ∀ c ∈ s, c = slash) :
    untail (y ++ s) = untail y := by
  induction s using List.reverseRecOn with
  | nil => rw [List.append_nil]
  | append_singleton s c ih =>
    obtain ⟨hinit, hlast⟩ := List.forall_mem_append.mp hs
    have hc : c = slash := hlast c (List.mem_singleton_self c)
    rw [← List.append_assoc, untail, List.rdropWhile_concat_pos _ _ _ (by simpa using hc)]
    exact ih hinit

theorem untail_append_of_not {s : Bytes} (hs : ¬ ∀ c ∈ s, c = slash) (y : Bytes) :
    untail (y ++ s) = y ++ untail s := by
  induction s using List.reverseRecOn with
  | nil => exact absurd (by simp) hs
  | append_singleton s c ih =>
    rw [← List.append_assoc, untail, untail]
    by_cases hc : c = slash
    · rw [List.rdropWhile_concat_pos _ _ _ (by simpa using hc),
        List.rdropWhile_concat_pos _ _ _ (by simpa using hc)]
      apply ih
      intro hinit
      refine hs (List.forall_mem_append.mpr ⟨hinit, ?_⟩)
      simpa using hc
    · rw [List.rdropWhile_concat_neg _ _ _ (by simpa using hc),
        List.rdropWhile_concat_neg _ _ _ (by simpa using hc), List.append_assoc]

theorem prefix_untail {z y : Bytes} (hz : z.getLast? ≠ some slash) (hle : z <+: y) :
    z <+: untail y := by
  obtain ⟨w, rfl⟩ := hle
  by_cases hw : ∀ c ∈ w, c = slash
  · have hself : z = untail z := by
      symm
      apply List.rdropWhile_eq_self_iff.mpr
      intro hne hlast
      rw [List.getLast?_eq_some_getLast hne] at hz
      exact hz (congrArg some (by simpa using hlast))
    exact ⟨[], by rw [List.append_nil, untail_append_slashes hw, ← hself]⟩
  · rw [untail_append_of_not hw]
    exact List.prefix_append ..

/-- What ends in no slash is common to two destinations which are equal up to
trailing slashes. -/
theorem prefix_of_untail_eq {z y y' : Bytes} (hz : z.getLast? ≠ some slash) (hle : z <+: y)
    (heq : untail y = untail y') : z <+: y' :=
  (heq ▸ prefix_untail hz hle).trans (List.rdropWhile_prefix _ _)

theorem turns_of_not_mem {s : Bytes} (hs : slash ∉ s) (comp : Bytes) :
    turns comp s = [⟨comp ++ s, []⟩] := by
  induction s generalizing comp with
  | nil => simp [turns]
  | cons c s ih =>
    obtain ⟨hc, hrest⟩ : slash ≠ c ∧ slash ∉ s := by simpa using hs
    rw [turns, if_neg (Ne.symm hc), ih hrest, List.append_assoc]
    rfl

theorem turns_of_slash {a : Bytes} (ha : slash ∉ a) (comp q : Bytes) :
    turns comp (a ++ slash :: q) =
      ⟨comp ++ a, slash :: q⟩ :: (if q = [] then [] else turns [] q) := by
  induction a generalizing comp with
  | nil => simp [turns]
  | cons c a ih =>
    obtain ⟨hc, hrest⟩ : slash ≠ c ∧ slash ∉ a := by simpa using ha
    rw [List.cons_append, turns, if_neg (Ne.symm hc), ih hrest, List.append_assoc]
    rfl

/-- A destination has one component, or a first component with a slash behind it. -/
theorem slash_cases (motive : Bytes → Prop) (one : ∀ s, slash ∉ s → motive s)
    (more : ∀ a q, slash ∉ a → motive q → motive (a ++ slash :: q)) (s : Bytes) : motive s := by
  suffices h : ∀ a, slash ∉ a → motive (a ++ s) from h [] (by simp)
  intro a ha
  induction s generalizing a with
  | nil => simpa using one a ha
  | cons c s ih =>
    by_cases hc : c = slash
    · subst hc
      exact more a s ha (ih [] (by simp))
    · rw [← List.singleton_append, ← List.append_assoc]
      apply ih
      simpa using ⟨ha, Ne.symm hc⟩

/-- What precedes a component in the destination of the reader. -/
def lead : Option Bytes → Bytes
  | none => []
  | some d => if d.getLast? = some slash then d else d ++ [slash]

theorem extend_eq (dest : Option Bytes) (comp : Bytes) : extend dest comp = lead dest ++ comp := by
  cases dest with
  | none => rfl
  | some d =>
    simp only [extend, joinSlash, lead]
    split <;> simp

theorem lead_some_getLast (d : Bytes) : (lead (some d)).getLast? = some slash := by
  simp only [lead]
  split
  · assumption
  · exact List.getLast?_concat

theorem lead_slash (d : Bytes) : lead (some (d ++ [slash])) = d ++ [slash] := by
  simp [lead]

theorem lead_of_getLast {d : Bytes} (hd : d.getLast? ≠ some slash) :
    lead (some d) = d ++ [slash] := by
  simp [lead, hd]

theorem getLast_append_of_not_mem {y comp : Bytes} (hcomp : slash ∉ comp) (hne : comp ≠ []) :
    (y ++ comp).getLast? ≠ some slash := by
  rw [List.getLast?_append_of_ne_nil _ hne]
  intro h
  exact hcomp (List.mem_of_getLast? h)

/-- The second part of a divided component is right, or it has one slash too much. -/
def Exact (t : Turn) : Prop :=
  recorded t = t.comp.length - 248 ∨ recorded t = t.comp.length - 247

theorem overrun_length {suaFree : Nat} {f : Fill} {comp : Bytes}
    (hover : overrun suaFree f comp = true) : 249 ≤ comp.length ∧ comp ≠ [] := by
  simp only [overrun, Bool.and_eq_true, decide_eq_true_eq] at hover
  obtain ⟨hlen, hne⟩ := compLen_long hover.2.1
  exact ⟨by omega, hne⟩

/-- An overrunning component is shown with as many bytes of the following text as were
recorded too many. -/
theorem shown_over {t : Turn} (hmany : t.comp.length - 248 ≤ recorded t) :
    shown true t = t.comp ++ t.rest.take (recorded t - (t.comp.length - 248)) := by
  have htake : (t.comp.drop 248 ++ t.rest).take (recorded t) =
      t.comp.drop 248 ++ t.rest.take (recorded t - (t.comp.length - 248)) := by
    rw [List.take_append, List.length_drop, List.take_of_length_le (by simpa using hmany)]
  simp only [shown, if_true]
  rw [htake, ← List.append_assoc, List.take_append_drop]

/-- Behind a component that was read properly, the reader is where the text goes on. -/
theorem lead_next {suaFree : Nat} {f : Fill} {a q : Bytes} (ha : slash ∉ a)
    (hexact : overrun suaFree f a = true → Exact ⟨a, slash :: q⟩) (dest : Option Bytes) :
    lead (some (extend dest (shown (overrun suaFree f a) ⟨a, slash :: q⟩))) =
      lead dest ++ a ++ [slash] := by
  rw [extend_eq]
  cases hover : overrun suaFree f a with
  | false =>
    simp only [shown, Bool.false_eq_true, if_false]
    split
    next hroot =>
      subst hroot
      rw [lead_slash, List.append_nil]
    next hne => rw [lead_of_getLast (getLast_append_of_not_mem ha hne)]
  | true =>
    obtain ⟨hlen, hne⟩ := overrun_length hover
    have hshown := shown_over (t := ⟨a, slash :: q⟩)
    rcases hexact hover with hsame | hslash
    · rw [hshown hsame.ge, hsame, Nat.sub_self, List.take_zero, List.append_nil,
        lead_of_getLast (getLast_append_of_not_mem ha hne)]
    · have hone : a.length - 247 - (a.length - 248) = 1 := by omega
      have hmany : a.length - 248 ≤ recorded ⟨a, slash :: q⟩ := by
        rw [hslash]
        exact Nat.sub_le_sub_left (by decide) _
      rw [hshown hmany, hslash]
      simp only [hone, List.take_succ_cons, List.take_zero]
      rw [← List.append_assoc, lead_slash]

theorem eachOverrun_slashes {P : Turn → Prop} {suaFree : Nat} {s : Bytes}
    (hs : ∀ c ∈ s, c = slash) (f : Fill) : EachOverrun P suaFree f (turns [] s) := by
  have hnever : ∀ f, overrun suaFree f [] = false := by simp [overrun, compLen]
  induction s generalizing f with
  | nil => simp [turns, EachOverrun, hnever]
  | cons c s ih =>
    obtain ⟨hc, hrest⟩ := List.forall_mem_cons.mp hs
    rw [turns, if_pos hc]
    constructor
    · simp [hnever]
    · split
      · trivial
      · exact ih hrest _

theorem recorded_last {a : Bytes} (hlen : a.length ≤ 255) : recorded ⟨a, []⟩ = a.length - 248 := by
  simp only [recorded, List.length_nil]
  omega

/-- The last component gets read properly. -/
theorem shown_last {suaFree : Nat} {f : Fill} {a : Bytes} (hne : a ≠ []) (hlen : a.length ≤ 255) :
    shown (overrun suaFree f a) ⟨a, []⟩ = a := by
  cases hover : overrun suaFree f a with
  | false => simp [shown, hne]
  | true => rw [shown_over (t := ⟨a, []⟩) (recorded_last hlen).ge, List.take_nil, List.append_nil]

theorem untail_lead (d : Bytes) : untail (lead (some d)) = untail d := by
  simp only [lead]
  split
  · rfl
  · exact untail_append_slashes (by simp)

/-- The turns behind a slash. -/
def turnsBehind (q : Bytes) : List Turn := if q = [] then [] else turns [] q

/-- If all overruns are harmless then the destination gets read. -/
theorem decoded_of_harmless {suaFree : Nat} {s : Bytes} (hne : s ≠ [])
    (hlen : ∀ t ∈ turns [] s, t.comp.length ≤ 255) {f : Fill} (dest : Option Bytes)
    (hharmless : EachOverrun Harmless suaFree f (turns [] s)) :
    ∃ got, decoded suaFree f dest (turns [] s) = some got ∧
      untail got = untail (lead dest ++ s) := by
  induction s using slash_cases generalizing f dest with
  | one s hs =>
    rw [turns_of_not_mem hs, List.nil_append] at hlen ⊢
    refine ⟨lead dest ++ s, ?_, rfl⟩
    rw [decoded, decoded, extend_eq, shown_last hne (hlen _ (List.mem_singleton_self _))]
  | more a q ha ih =>
    rw [turns_of_slash ha, List.nil_append] at hlen hharmless ⊢
    obtain ⟨hfirst, hmore⟩ := hharmless
    obtain ⟨-, hlenMore⟩ := List.forall_mem_cons.mp hlen
    have hbehind : ∀ d, ∃ got, decoded suaFree (nextFill suaFree f a) (some d)
        (turnsBehind q) = some got ∧ untail got = untail (lead (some d) ++ q) := by
      intro d
      rw [turnsBehind]
      split
      next hq => exact ⟨d, rfl, by rw [hq, List.append_nil, untail_lead]⟩
      next hq =>
        rw [if_neg hq] at hlenMore hmore
        exact ih hq hlenMore _ hmore
    obtain ⟨got, hgot, htail⟩ := hbehind
      (extend dest (shown (overrun suaFree f a) ⟨a, slash :: q⟩))
    refine ⟨got, hgot, ?_⟩
    rw [htail]
    by_cases hexact : overrun suaFree f a = true → Exact ⟨a, slash :: q⟩
    · rw [lead_next ha hexact dest]
      simp
    · -- only slashes are left
      obtain ⟨hover, hno⟩ := Classical.not_imp.mp hexact
      obtain ⟨hslashes, hmany, -⟩ : (∀ c ∈ slash :: q, c = slash) ∧
          a.length - 248 ≤ recorded ⟨a, slash :: q⟩ ∧ recorded ⟨a, slash :: q⟩ ≤ 248 := by
        rcases hfirst hover with h | h | h
        · exact absurd (Or.inl h) hno
        · exact absurd (Or.inr h) hno
        · exact h
      rw [untail_append_slashes (List.forall_mem_cons.mp hslashes).2, untail_lead, extend_eq,
        hover, shown_over (t := ⟨a, slash :: q⟩) hmany, ← List.append_assoc,
        untail_append_slashes (fun c hc => hslashes c (List.mem_of_mem_take hc)),
        ← List.append_assoc, untail_append_slashes hslashes]

theorem decoded_extends {suaFree : Nat} {ts : List Turn} {f : Fill} {d got : Bytes}
    (hgot : decoded suaFree f (some d) ts = some got) : d <+: got := by
  induction ts generalizing f d with
  | nil =>
    obtain rfl : d = got := by simpa [decoded] using hgot
    exact List.prefix_rfl
  | cons t ts ih =>
    refine List.IsPrefix.trans ?_ (ih hgot)
    rw [extend_eq, lead]
    split
    · exact List.prefix_append ..
    · rw [List.append_assoc]
      exact List.prefix_append ..

/-- Behind a component which is read too short there comes a slash. -/
theorem decoded_slash {suaFree : Nat} {ts : List Turn} {f : Fill} {d got : Bytes}
    (hd : d.getLast? ≠ some slash) (hgot : decoded suaFree f (some d) ts = some got) :
    got = d ∨ d ++ [slash] <+: got := by
  cases ts with
  | nil => exact Or.inl (by simpa [decoded] using hgot.symm)
  | cons t ts =>
    rw [decoded] at hgot
    refine Or.inr (List.IsPrefix.trans ?_ (decoded_extends hgot))
    rw [extend_eq, lead_of_getLast hd]
    exact List.prefix_append ..

theorem shown_begins (t : Turn) : t.comp.take 248 <+: shown true t := by
  simp only [shown, if_true]
  exact List.prefix_append ..

/-- If not all overruns are harmless then there is a component where the reader is
still in step with the text, and whose first 248 bytes it reads. -/
theorem decoded_until_harm {suaFree : Nat} {s : Bytes} (hne : s ≠ [])
    (hlen : ∀ t ∈ turns [] s, t.comp.length ≤ 255) {f : Fill} {d got : Bytes}
    (hharm : ¬ EachOverrun Harmless suaFree f (turns [] s))
    (hgot : decoded suaFree f (some d) (turns [] s) = some got) :
    ∃ u c r, s = u ++ c ++ r ∧ slash ∉ c ∧ 249 ≤ c.length ∧
      (lead (some d) ++ u).getLast? = some slash ∧
      lead (some d) ++ u ++ c.take 248 <+: got := by
  induction s using slash_cases generalizing f d with
  | one s hs =>
    refine absurd ?_ hharm
    rw [turns_of_not_mem hs, List.nil_append] at hlen ⊢
    exact ⟨fun _ => Or.inl (recorded_last (hlen _ (List.mem_singleton_self _))), trivial⟩
  | more a q ha ih =>
    rw [turns_of_slash ha, List.nil_append] at hlen hharm hgot
    obtain ⟨-, hlenMore⟩ := List.forall_mem_cons.mp hlen
    by_cases hfirst : overrun suaFree f a = true → Harmless ⟨a, slash :: q⟩
    · -- the reader gets to the text behind the slash, and the harm is in there
      have hmore : ¬ EachOverrun Harmless suaFree (nextFill suaFree f a) (turnsBehind q) :=
        fun h => hharm ⟨hfirst, h⟩
      have hq : q ≠ [] := by
        rintro rfl
        exact hmore trivial
      rw [turnsBehind, if_neg hq] at hmore
      rw [if_neg hq] at hlenMore hgot
      have hexact : overrun suaFree f a = true → Exact ⟨a, slash :: q⟩ := by
        intro hover
        rcases hfirst hover with h | h | h
        · exact Or.inl h
        · exact Or.inr h
        · exact absurd (eachOverrun_slashes (List.forall_mem_cons.mp h.1).2 _) hmore
      obtain ⟨u, c, r, hs, hc, hlong, hlast, hread⟩ := ih hq hlenMore hmore hgot
      rw [lead_next ha hexact] at hlast hread
      refine ⟨a ++ slash :: u, c, r, by simp [hs], hc, hlong, ?_, ?_⟩
      · simpa using hlast
      · simpa using hread
    · obtain ⟨hover, -⟩ := Classical.not_imp.mp hfirst
      refine ⟨[], a, slash :: q, by simp, ha, (overrun_length hover).1, ?_, ?_⟩
      · rw [List.append_nil]
        exact lead_some_getLast d
      · rw [decoded] at hgot
        refine List.IsPrefix.trans ?_ (decoded_extends hgot)
        rw [extend_eq, hover, List.append_nil]
        exact (List.prefix_append_right_inj _).mpr (shown_begins ⟨a, slash :: q⟩)

/-- A second part with too few bytes loses the rest of its component. -/
theorem too_few {suaFree : Nat} {ts : List Turn} {f : Fill} {p a q got : Bytes} {n : Nat}
    (ha : slash ∉ a) (hpos : 0 < n) (hn : n < a.length)
    (hgot : decoded suaFree f (some (p ++ a.take n)) ts = some got) :
    untail got ≠ untail (p ++ a ++ slash :: q) := by
  intro heq
  have hane : a ≠ [] := by
    rintro rfl
    simp at hn
  have htake : slash ∉ a.take n := fun h => ha (List.mem_of_mem_take h)
  have htakene : a.take n ≠ [] := by
    intro h
    have := congrArg List.length h
    simp only [List.length_take, List.length_nil] at this
    omega
  have hread : p ++ a <+: got :=
    prefix_of_untail_eq (getLast_append_of_not_mem ha hane) (List.prefix_append ..) heq.symm
  rcases decoded_slash (getLast_append_of_not_mem htake htakene) hgot with rfl | hslash
  · have hlen := hread.length_le
    simp only [List.length_append, List.length_take] at hlen
    omega
  · -- the slash and the next byte of the component are at the same place
    have hboth : a.take n ++ [slash] <+: a := by
      have hle : p ++ (a.take n ++ [slash]) <+: p ++ a := by
        rw [← List.append_assoc]
        apply List.prefix_of_prefix_length_le hslash hread
        simp only [List.length_append, List.length_take, List.length_singleton]
        omega
      exact (List.prefix_append_right_inj p).mp hle
    exact ha (hboth.subset (by simp))

/-- A second part with too many bytes, which are not only slashes, makes the reader see
a part of the text twice. -/
theorem too_many {suaFree : Nat} {f : Fill} {p a q got : Bytes} {n : Nat}
    (hq : ¬ ∀ c ∈ q, c = slash) (hlen : ∀ t ∈ turns [] q, t.comp.length ≤ 255)
    (htwo : 2 ≤ n) (hn : n ≤ 247) (hroom : n ≤ q.length + 1)
    (hgot : decoded suaFree f (some (p ++ a ++ (slash :: q).take n)) (turns [] q) = some got) :
    untail got ≠ untail (p ++ a ++ slash :: q) := by
  intro heq
  have hqne : q ≠ [] := by
    rintro rfl
    exact hq (by simp)
  -- `v` is what the reader has between the component and the next one
  obtain ⟨v, hlead, hv, hvlast⟩ : ∃ v, lead (some (p ++ a ++ (slash :: q).take n)) = p ++ a ++ v ∧
      (v.length = n ∨ v.length = n + 1) ∧ v.getLast? = some slash := by
    have htake : ((slash :: q).take n).length = n := by
      rw [List.length_take, List.length_cons]
      omega
    have hne : (slash :: q).take n ≠ [] := by
      intro h
      rw [h] at htake
      simp at htake
      omega
    by_cases hlast : (p ++ a ++ (slash :: q).take n).getLast? = some slash
    · refine ⟨(slash :: q).take n, by rw [lead, if_pos hlast], Or.inl htake, ?_⟩
      rwa [List.getLast?_append_of_ne_nil _ hne] at hlast
    · refine ⟨(slash :: q).take n ++ [slash], ?_, Or.inr ?_, List.getLast?_concat⟩
      · rw [lead_of_getLast hlast, List.append_assoc]
      · rw [List.length_append, htake, List.length_singleton]
  by_cases hharm : EachOverrun Harmless suaFree f (turns [] q)
  · -- all the rest gets read, which makes the text longer than it should be
    obtain ⟨all, hall, htail⟩ :=
      decoded_of_harmless hqne hlen (some (p ++ a ++ (slash :: q).take n)) hharm
    obtain rfl : all = got := Option.some.inj (hall.symm.trans hgot)
    rw [hlead, untail_append_of_not hq] at htail
    have hlong := congrArg List.length (htail.symm.trans heq)
    rw [← List.singleton_append, ← List.append_assoc, untail_append_of_not hq] at hlong
    simp only [List.length_append, List.length_singleton] at hlong
    omega
  · -- the next harmed component is read at the wrong place
    obtain ⟨u, c, r, hsplit, hc, hlong, hlast, hread⟩ := decoded_until_harm hqne hlen hharm hgot
    rw [hlead] at hlast hread
    have hcne : c.take 248 ≠ [] := by
      intro h
      have := congrArg List.length h
      simp only [List.length_take, List.length_nil] at this
      omega
    have hboth : p ++ a ++ (v ++ u) <+: p ++ a ++ slash :: q := by
      rw [← List.append_assoc]
      refine List.IsPrefix.trans (List.prefix_append _ (c.take 248)) ?_
      apply prefix_of_untail_eq _ hread heq
      exact getLast_append_of_not_mem (fun h => hc (List.mem_of_mem_take h)) hcne
    have hvu : v ++ u <+: slash :: u ++ c ++ r := by
      rw [hsplit] at hboth
      simpa using (List.prefix_append_right_inj (p ++ a)).mp hboth
    have htake : v ++ u = slash :: u ++ c.take (v.length - 1) := by
      have hlenvu : (v ++ u).length = (slash :: u).length + (v.length - 1) := by
        simp only [List.length_append, List.length_cons]
        omega
      rw [List.prefix_iff_eq_take.mp hvu, hlenvu, List.append_assoc, List.take_length_add_append,
        List.take_append_of_le_length (by omega)]
    have hlastvu : (v ++ u).getLast? = some slash := by
      rcases eq_or_ne u [] with rfl | hu
      · rwa [List.append_nil]
      · rw [List.getLast?_append_of_ne_nil _ hu] at hlast ⊢
        exact hlast
    rw [htake] at hlastvu
    refine getLast_append_of_not_mem (fun h => hc (List.mem_of_mem_take h)) ?_ hlastvu
    intro h
    have := congrArg List.length h
    simp only [List.length_take, List.length_nil] at this
    omega

/-- If the reader gets the destination from short enough records, then all overruns are
harmless. -/
theorem harmless_of_decoded {suaFree : Nat} {s : Bytes} (hne : s ≠ [])
    (hlen : ∀ t ∈ turns [] s, t.comp.length ≤ 255) {f : Fill} {dest : Option Bytes} {got : Bytes}
    (hshort : EachOverrun (fun t => recorded t ≤ 248) suaFree f (turns [] s))
    (hgot : decoded suaFree f dest (turns [] s) = some got)
    (htail : untail got = untail (lead dest ++ s)) :
    EachOverrun Harmless suaFree f (turns [] s) := by
  induction s using slash_cases generalizing f dest with
  | one s hs =>
    rw [turns_of_not_mem hs, List.nil_append] at hlen ⊢
    exact ⟨fun _ => Or.inl (recorded_last (hlen _ (List.mem_singleton_self _))), trivial⟩
  | more a q ha ih =>
    rw [turns_of_slash ha, List.nil_append] at hlen hshort hgot ⊢
    obtain ⟨hlena, hlenMore⟩ := List.forall_mem_cons.mp hlen
    obtain ⟨hshorta, hshortMore⟩ := hshort
    rw [decoded] at hgot
    have hfirst : overrun suaFree f a = true → Harmless ⟨a, slash :: q⟩ := by
      intro hover
      by_contra hharm
      obtain ⟨hlong, hane⟩ := overrun_length hover
      simp only [Harmless, not_or, not_and] at hharm
      obtain ⟨hsame, hslash, hslashes⟩ := hharm
      have hrec : recorded ⟨a, slash :: q⟩ ≤ 248 := hshorta hover
      rw [hover, extend_eq] at hgot
      rcases Nat.lt_or_ge (recorded ⟨a, slash :: q⟩) (a.length - 248) with hfew | hmany
      · have hshown : shown true ⟨a, slash :: q⟩ = a.take (248 + recorded ⟨a, slash :: q⟩) := by
          simp only [shown, if_true]
          rw [List.take_append_of_le_length (by rw [List.length_drop]; omega), List.take_add]
        rw [hshown] at hgot
        refine too_few (q := q) ha (by omega) (by omega) hgot ?_
        rw [htail, List.append_assoc]
      · have hle : recorded ⟨a, slash :: q⟩ ≤ a.length - 248 + (slash :: q).length :=
          Nat.mod_le ..
        rw [List.length_cons] at hle
        have hq : ¬ ∀ c ∈ q, c = slash := fun h =>
          hslashes (List.forall_mem_cons.mpr ⟨rfl, h⟩) hmany hrec
        have hqne : q ≠ [] := by
          rintro rfl
          exact hq (by simp)
        rw [shown_over (t := ⟨a, slash :: q⟩) hmany, if_neg hqne, ← List.append_assoc] at hgot
        rw [if_neg hqne] at hlenMore
        dsimp only at hgot
        refine too_many hq hlenMore ?_ ?_ ?_ hgot ?_
        · omega
        · omega
        · omega
        · rw [htail, List.append_assoc]
    refine ⟨hfirst, ?_⟩
    by_cases hslashes : ∀ c ∈ q, c = slash
    · split
      · trivial
      · exact eachOverrun_slashes hslashes _
    · have hqne : q ≠ [] := by
        rintro rfl
        exact hslashes (by simp)
      have hexact : overrun suaFree f a = true → Exact ⟨a, slash :: q⟩ := by
        intro hover
        rcases hfirst hover with h | h | h
        · exact Or.inl h
        · exact Or.inr h
        · exact absurd (List.forall_mem_cons.mp h.1).2 hslashes
      rw [if_neg hqne] at hlenMore hshortMore hgot ⊢
      refine ih hqne hlenMore hshortMore hgot ?_
      rw [lead_next ha hexact, htail]
      simp

theorem EachOverrun.mono {P Q : Turn → Prop} {suaFree : Nat} (ts : List Turn)
    (himp : ∀ t ∈ ts, P t → Q t) {f : Fill} (h : EachOverrun P suaFree f ts) :
    EachOverrun Q suaFree f ts := by
  induction ts generalizing f with
  | nil => trivial
  | cons t ts ih =>
    obtain ⟨hfirst, hmore⟩ := List.forall_mem_cons.mp himp
    exact ⟨fun hover => hfirst (h.1 hover), ih hmore h.2⟩

/-- The turns show the text piece by piece. -/
theorem turns_mem {s comp : Bytes} {t : Turn} (ht : t ∈ turns comp s) :
    t.comp ∈ splitAtSlash comp s ∧ t.comp ++ t.rest <:+ comp ++ s := by
  induction s generalizing comp with
  | nil =>
    obtain rfl : t = ⟨comp, []⟩ := by simpa [turns] using ht
    simp [splitAtSlash]
  | cons c s ih =>
    rw [turns] at ht
    by_cases hc : c = slash
    · subst hc
      rw [if_pos rfl, List.mem_cons] at ht
      rw [splitAtSlash, if_pos rfl, List.mem_cons]
      rcases ht with rfl | hmore
      · exact ⟨Or.inl rfl, List.suffix_rfl⟩
      · split at hmore
        · exact absurd hmore List.not_mem_nil
        · obtain ⟨hcomp, hsuffix⟩ := ih hmore
          refine ⟨Or.inr hcomp, hsuffix.trans ?_⟩
          exact ⟨comp ++ [slash], by simp⟩
    · rw [if_neg hc] at ht
      obtain ⟨hcomp, hsuffix⟩ := ih ht
      rw [splitAtSlash, if_neg hc]
      refine ⟨hcomp, ?_⟩
      rwa [List.append_assoc, List.singleton_append] at hsuffix

theorem isoNodeIsValidName_length {name : Bytes} (hvalid : isoNodeIsValidName name = .ok ()) :
    name.length ≤ 255 := by
  rw [isoNodeIsValidName] at hvalid
  split at hvalid
  · cases hvalid
  · split at hvalid
    · cases hvalid
    next hlen => exact Nat.not_lt.mp hlen

theorem checkComponents_length {comps : List Bytes} (hvalid : checkComponents comps = .ok ()) :
    ∀ comp ∈ comps, comp.length ≤ 255 := by
  induction comps with
  | nil => simp
  | cons comp rest ih =>
    rw [checkComponents] at hvalid
    split at hvalid
    next hdots =>
      refine List.forall_mem_cons.mpr ⟨?_, ih hvalid⟩
      rcases hdots with rfl | rfl <;> decide
    · split at hvalid
      · cases hvalid
      next hname =>
        exact List.forall_mem_cons.mpr ⟨isoNodeIsValidName_length hname, ih hvalid⟩

/-- The turns of a valid destination. -/
theorem turns_proper {dest : Bytes} (hvalid : isoNodeIsValidLinkDest dest = .ok ())
    (hzero : 0 ∉ dest) : ∀ t ∈ turns [] dest, t.Proper := by
  have hcomps : ∀ comp ∈ splitAtSlash [] dest, comp.length ≤ 255 := by
    rw [isoNodeIsValidLinkDest] at hvalid
    split at hvalid
    · cases hvalid
    · split at hvalid
      · cases hvalid
      · split at hvalid
        next hroot =>
          rw [hroot]
          decide
        · intro comp hcomp
          by_cases hne : comp = []
          · simp [hne]
          · exact checkComponents_length hvalid comp
              (List.mem_filter.mpr ⟨hcomp, by simpa using hne⟩)
  intro t ht
  obtain ⟨hcomp, hsuffix⟩ := turns_mem ht
  rw [List.nil_append] at hsuffix
  exact {
    comp := fun h => hzero (hsuffix.subset (List.mem_append_left _ h))
    rest := fun h => hzero (hsuffix.subset (List.mem_append_right _ h))
    length := hcomps _ hcomp }

/-- A valid destination makes the round trip if and only if each overrun is harmless. -/
theorem roundTrip_iff_harmless {suaFree : Nat} {dest : Bytes} (hsua : suaFree ≤ 255)
    (hvalid : isoNodeIsValidLinkDest dest = .ok ()) (hzero : 0 ∉ dest) (nmInCe : Option Nat) :
    RoundTrip suaFree nmInCe dest ↔
      EachOverrun Harmless suaFree ⟨nmInCe.isSome, 5⟩ (turns [] dest) := by
  have hproper := turns_proper hvalid hzero
  have hlen : ∀ t ∈ turns [] dest, t.comp.length ≤ 255 := fun t ht => (hproper t ht).length
  have hne : dest ≠ [] := by
    rintro rfl
    simp [isoNodeIsValidLinkDest] at hvalid
  rw [roundTrip_iff hsua nmInCe hproper]
  constructor
  · rintro ⟨hshort, got, hgot, htail⟩
    exact harmless_of_decoded hne hlen hshort hgot htail
  · intro hharmless
    refine ⟨hharmless.mono _ ?_, decoded_of_harmless hne hlen none hharmless⟩
    intro t ht hharm
    have := hlen t ht
    rcases hharm with h | h | h
    · omega
    · omega
    · exact h.2.2

/-- Components of 245, 255, and 255 bytes. -/
def splitTarget : Bytes :=
  List.replicate 245 0x78 ++ slash :: (List.replicate 255 0x78 ++ slash :: List.replicate 255 0x78)

/-- The second component overruns its entry. As 256 bytes follow, the length is right in a byte. -/
theorem roundTrip_splitTarget :
    (overrun 100 (nextFill 100 ⟨false, 5⟩ (List.replicate 245 0x78)) (List.replicate 255 0x78)) ∧
      RoundTrip 100 none splitTarget :=
  ⟨by decide +kernel, (roundTrip_iff_harmless (by decide) (by decide +kernel)
    (by decide +kernel) none).mpr (by decide +kernel)⟩

/-- Components of 245, 255, and 3 bytes. -/
def longTarget : Bytes :=
  List.replicate 245 0x78 ++ slash :: (List.replicate 255 0x78 ++ slash :: List.replicate 3 0x78)

theorem decoded_longTarget :
    (decoded 100 ⟨false, 5⟩ none (turns [] longTarget)).map untail ≠ some (untail longTarget) := by
  decide +kernel

/-- The second component gets read with four bytes too many: its slash and the third
component, which then is read once more. -/
theorem long_component_read_twice :
    ¬ ∀ dest : Bytes, isoNodeIsValidLinkDest dest = .ok () → 0 ∉ dest →
      ∀ suaFree ≤ 255, RoundTrip suaFree none dest := by
  intro hall
  have hvalid : isoNodeIsValidLinkDest longTarget = .ok () := by decide +kernel
  have hzero : 0 ∉ longTarget := by decide +kernel
  have htrip := hall longTarget hvalid hzero 100 (by decide)
  rw [roundTrip_iff (by decide) none (turns_proper hvalid hzero)] at htrip
  obtain ⟨-, got, hgot, htail⟩ := htrip
  apply decoded_longTarget
  rw [← htail]
  exact congrArg (Option.map untail) hgot

end SymlinkTarget
