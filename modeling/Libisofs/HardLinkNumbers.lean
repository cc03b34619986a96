import Libisofs.HardLinks

/-!
# Numbers of hard link families

What family_set_ino() does with the sequence of numbers which the families bring along:
it takes over an accepted number if the family before brought another one, and else it
asks the generator. The numbers taken over are different if and only if equal ones stand
side by side.
-/

namespace HardLinks

/-- Numbers which family_set_ino() may take over. -/
def Accepted (ino : Nat) : Prop := ino ≠ 0 ∧ ino ≤ 0xffffffff

instance (ino : Nat) : Decidable (Accepted ino) := inferInstanceAs (Decidable (_ ∧ _))

/-- Numbers which get handed out one after the other. -/
def giveInoNumbers : Nat → IsoImage → Option (List Nat × IsoImage)
  | 0, image => some ([], image)
  | k + 1, image => do
    let (ino, image) ← imgGiveInoNumber image
    let (more, image) ← giveInoNumbers k image
    some (ino :: more, image)

/-- The numbers of families from the numbers which stand in their nodes. -/
def handOut (image : IsoImage) (prevIno : Nat) : List Nat → Option (List Nat × IsoImage)
  | [] => some ([], image)
  | ino :: rest =>
    if Accepted ino ∧ ino ≠ prevIno then do
      let (more, image) ← handOut image ino rest
      some (ino :: more, image)
    else do
      let (given, image) ← imgGiveInoNumber image
      let (more, image) ← handOut image ino rest
      some (given :: more, image)

/-- What the first family gets: its own number or a given one. -/
theorem handOut_cons {image image' : IsoImage} {prev ino : Nat} {rest numbers : List Nat}
    (hout : handOut image prev (ino :: rest) = some (numbers, image')) :
    ∃ number more image1, numbers = number :: more ∧
      handOut image1 ino rest = some (more, image') ∧
      ((Accepted ino ∧ ino ≠ prev) ∧ number = ino ∧ image1 = image ∨
        ¬ (Accepted ino ∧ ino ≠ prev) ∧ imgGiveInoNumber image = some (number, image1)) := by
  rw [handOut] at hout
  split at hout
  next hkeep =>
    simp only [Option.bind_eq_bind, Option.bind_eq_some_iff, Option.some.injEq,
      Prod.mk.injEq, Prod.exists] at hout
    obtain ⟨more, image2, hmore, rfl, rfl⟩ := hout
    exact ⟨ino, more, image, rfl, hmore, Or.inl ⟨hkeep, rfl, rfl⟩⟩
  next hdraw =>
    simp only [Option.bind_eq_bind, Option.bind_eq_some_iff, Option.some.injEq,
      Prod.mk.injEq, Prod.exists] at hout
    obtain ⟨given, image1, hgiven, more, image2, hmore, rfl, rfl⟩ := hout
    exact ⟨given, more, image1, rfl, hmore, Or.inr ⟨hdraw, hgiven⟩⟩

/-- The numbers which get taken over. -/
def kept (prevIno : Nat) : List Nat → List Nat
  | [] => []
  | ino :: rest =>
    if Accepted ino ∧ ino ≠ prevIno then ino :: kept ino rest else kept ino rest

theorem mem_kept {a prev : Nat} {inos : List Nat} (ha : a ∈ kept prev inos) :
    a ∈ inos ∧ Accepted a := by
  induction inos generalizing prev with
  | nil => simp [kept] at ha
  | cons ino rest ih =>
    rw [kept] at ha
    split at ha
    next hkeep =>
      rcases List.mem_cons.mp ha with rfl | hrest
      · exact ⟨List.mem_cons_self .., hkeep.1⟩
      · exact ⟨List.mem_cons_of_mem ino (ih hrest).1, (ih hrest).2⟩
    next => exact ⟨List.mem_cons_of_mem ino (ih ha).1, (ih ha).2⟩

/-- An accepted number gets taken over where it occurs for the first time. -/
theorem mem_kept_iff {a prev : Nat} (hacc : Accepted a) (hne : a ≠ prev) (inos : List Nat) :
    a ∈ kept prev inos ↔ a ∈ inos := by
  refine ⟨fun h => (mem_kept h).1, fun h => ?_⟩
  induction inos generalizing prev with
  | nil => simp at h
  | cons ino rest ih =>
    rw [kept]
    by_cases heq : a = ino
    · subst heq
      rw [if_pos ⟨hacc, hne⟩]
      exact List.mem_cons_self ..
    · have hrest := ih heq ((List.mem_cons.mp h).resolve_left heq)
      split
      · exact List.mem_cons_of_mem ino hrest
      · exact hrest

theorem kept_length_le (prev : Nat) (inos : List Nat) : (kept prev inos).length ≤ inos.length := by
  induction inos generalizing prev with
  | nil => exact Nat.le_refl 0
  | cons ino rest ih =>
    rw [kept]
    split
    · exact Nat.succ_le_succ (ih ino)
    · exact Nat.le_succ_of_le (ih ino)

/-- The numbers of the families are those taken over and as many given ones as needed. -/
theorem handOut_perm {image image' : IsoImage} {prev : Nat} {inos numbers : List Nat}
    (hout : handOut image prev inos = some (numbers, image')) :
    ∃ given, giveInoNumbers (inos.length - (kept prev inos).length) image =
      some (given, image') ∧ numbers.Perm (kept prev inos ++ given) := by
  induction inos generalizing image prev numbers with
  | nil =>
    obtain ⟨rfl, rfl⟩ : [] = numbers ∧ image = image' := by simpa [handOut] using hout
    exact ⟨[], rfl, List.Perm.refl _⟩
  | cons ino rest ih =>
    obtain ⟨number, more, image1, rfl, hmore, hfirst⟩ := handOut_cons hout
    obtain ⟨given, hgiven, hperm⟩ := ih hmore
    rw [kept]
    rcases hfirst with ⟨hkeep, rfl, rfl⟩ | ⟨hdraw, hnumber⟩
    · refine ⟨given, ?_, ?_⟩
      · rw [if_pos hkeep, List.length_cons, List.length_cons, Nat.add_sub_add_right]
        exact hgiven
      · rw [if_pos hkeep, List.cons_append]
        exact hperm.cons number
    · refine ⟨number :: given, ?_, ?_⟩
      · have hle := kept_length_le ino rest
        rw [if_neg hdraw, List.length_cons, Nat.succ_sub hle, giveInoNumbers]
        simp [hnumber, hgiven]
      · rw [if_neg hdraw]
        exact (hperm.cons number).trans List.perm_middle.symm

/-- Each accepted number has all its places side by side. -/
def SideBySide (inos : List Nat) : Prop :=
  ∀ before b behind, inos = before ++ b :: behind →
    ∀ a, Accepted a → a ∈ before → a ∈ behind → b = a

theorem sideBySide_cons_cons {prev a : Nat} {rest : List Nat} :
    SideBySide (prev :: a :: rest) ↔
      SideBySide (a :: rest) ∧ (Accepted prev → prev ≠ a → prev ∉ rest) := by
  constructor
  · intro hside
    constructor
    · rintro before b behind hsplit c hacc hbefore hbehind
      exact hside (prev :: before) b behind (by rw [hsplit]; rfl) c hacc
        (List.mem_cons_of_mem prev hbefore) hbehind
    · intro hacc hne hrest
      exact hne (hside [prev] a rest rfl prev hacc (List.mem_singleton_self prev) hrest).symm
  · rintro ⟨hside, hprev⟩ before b behind hsplit c hacc hbefore hbehind
    rcases before with _ | ⟨p, before⟩
    · exact absurd hbefore List.not_mem_nil
    · obtain ⟨rfl, htail⟩ := List.cons.inj hsplit
      by_cases hc : c ∈ before
      · exact hside before b behind htail c hacc hc hbehind
      · obtain rfl : c = prev := (List.mem_cons.mp hbefore).resolve_right hc
        rcases before with _ | ⟨q, before⟩
        · obtain ⟨rfl, rfl⟩ := List.cons.inj htail
          by_contra hne
          exact hprev hacc (Ne.symm hne) hbehind
        · obtain ⟨rfl, rfl⟩ := List.cons.inj htail
          by_contra hne
          have hca : c ≠ a := fun h => hc (h ▸ List.mem_cons_self ..)
          exact hprev hacc hca (by simp [hbehind])

theorem kept_nodup_iff' (prev : Nat) (inos : List Nat) :
    (kept prev inos).Nodup ∧ (Accepted prev → prev ∉ kept prev inos) ↔
      SideBySide (prev :: inos) := by
  induction inos generalizing prev with
  | nil =>
    refine ⟨fun _ => ?_, fun _ => by simp [kept]⟩
    rintro (_ | ⟨p, before⟩) b behind hsplit c hacc hbefore hbehind
    · exact absurd hbefore List.not_mem_nil
    · simp at hsplit
  | cons a rest ih =>
    rw [sideBySide_cons_cons, ← ih a]
    by_cases heq : a = prev
    · subst heq
      rw [kept, if_neg (fun h => h.2 rfl)]
      simp
    · by_cases hacc : Accepted a
      · rw [kept, if_pos ⟨hacc, heq⟩, List.nodup_cons, List.mem_cons]
        constructor
        · rintro ⟨⟨ha, hnodup⟩, hprev⟩
          refine ⟨⟨hnodup, fun _ => ha⟩, fun hp hne hrest => hprev hp (Or.inr ?_)⟩
          exact (mem_kept_iff hp hne rest).mpr hrest
        · rintro ⟨⟨hnodup, ha⟩, hprev⟩
          refine ⟨⟨ha hacc, hnodup⟩, fun hp => ?_⟩
          rintro (h | h)
          · exact heq h.symm
          · exact hprev hp (Ne.symm heq) (mem_kept h).1
      · rw [kept, if_neg (fun h => hacc h.1)]
        constructor
        · rintro ⟨hnodup, hprev⟩
          refine ⟨⟨hnodup, fun h => absurd h hacc⟩, fun hp hne hrest => hprev hp ?_⟩
          exact (mem_kept_iff hp hne rest).mpr hrest
        · rintro ⟨⟨hnodup, -⟩, hprev⟩
          exact ⟨hnodup, fun hp h => hprev hp (Ne.symm heq) (mem_kept h).1⟩

theorem kept_nodup_iff (inos : List Nat) : (kept 0 inos).Nodup ↔ SideBySide inos := by
  have hzero : ¬ Accepted 0 := fun h => h.1 rfl
  have hiff := kept_nodup_iff' 0 inos
  simp only [hzero, false_implies, and_true] at hiff
  rw [hiff]
  constructor
  · intro hside before b behind hsplit c hacc hbefore hbehind
    exact hside (0 :: before) b behind (by rw [hsplit]; rfl) c hacc
      (List.mem_cons_of_mem 0 hbefore) hbehind
  · rintro hside (_ | ⟨p, before⟩) b behind hsplit c hacc hbefore hbehind
    · exact absurd hbefore List.not_mem_nil
    · obtain ⟨rfl, htail⟩ := List.cons.inj hsplit
      rcases List.mem_cons.mp hbefore with rfl | h
      · exact absurd hacc hzero
      · exact hside before b behind htail c hacc h hbehind

theorem handOut_length {image image' : IsoImage} {prev : Nat} {inos numbers : List Nat}
    (hout : handOut image prev inos = some (numbers, image')) :
    numbers.length = inos.length := by
  induction inos generalizing image prev numbers with
  | nil =>
    obtain ⟨rfl, -⟩ : [] = numbers ∧ image = image' := by simpa [handOut] using hout
    rfl
  | cons ino rest ih =>
    obtain ⟨number, more, image1, rfl, hmore, -⟩ := handOut_cons hout
    simp [ih hmore]

/-- A number which did not occur before gets taken over. -/
theorem handOut_takes {image image' : IsoImage} {prev ino : Nat} {before behind numbers : List Nat}
    (hout : handOut image prev (before ++ ino :: behind) = some (numbers, image'))
    (hacc : Accepted ino) (hnew : ino ∉ prev :: before) :
    ∃ front back, numbers = front ++ ino :: back ∧ front.length = before.length := by
  induction before generalizing image prev numbers with
  | nil =>
    obtain ⟨number, back, image1, rfl, -, hfirst⟩ := handOut_cons hout
    rcases hfirst with ⟨-, rfl, -⟩ | ⟨hdraw, -⟩
    · exact ⟨[], back, rfl, rfl⟩
    · exact absurd ⟨hacc, by simpa using hnew⟩ hdraw
  | cons b before ih =>
    obtain ⟨number, numbers, image1, rfl, hmore, -⟩ := handOut_cons hout
    obtain ⟨front, back, rfl, hlen⟩ := ih hmore fun h => hnew (List.mem_cons_of_mem prev h)
    exact ⟨number :: front, back, rfl, by simp [hlen]⟩

theorem searchIno_le {fuel newIno ino : Nat} {image image' : IsoImage}
    (hsearch : searchIno fuel newIno image = some (ino, image')) : ino ≤ 0xffffffff := by
  have hresult : ∀ {n image}, some (returnResult n image) = some (ino, image') →
      ino ≤ 0xffffffff := by
    intro n image h
    rw [← (Prod.mk.inj (Option.some.inj h)).1]
    exact Nat.le_of_lt_succ (Nat.mod_lt n (Nat.two_pow_pos 32))
  induction fuel generalizing newIno image with
  | zero => simp [searchIno] at hsearch
  | succ fuel ih =>
    simp only [searchIno] at hsearch
    split at hsearch
    · exact hresult hsearch
    split at hsearch
    · cases hsearch
    split at hsearch
    · exact ih hsearch
    · exact hresult hsearch

theorem imgGiveInoNumber_le {ino : Nat} {image image' : IsoImage}
    (hgive : imgGiveInoNumber image = some (ino, image')) : ino ≤ 0xffffffff := by
  simp only [imgGiveInoNumber] at hgive
  split at hgive
  next hcount =>
    obtain ⟨rfl, -⟩ := Prod.mk.inj (Option.some.inj hgive)
    exact hcount.2
  next => exact searchIno_le hgive

/-- All numbers of the families fit into 32 bits. -/
theorem handOut_le {image image' : IsoImage} {prev : Nat} {inos numbers : List Nat}
    (hout : handOut image prev inos = some (numbers, image')) :
    ∀ ino ∈ numbers, ino ≤ 0xffffffff := by
  induction inos generalizing image prev numbers with
  | nil =>
    obtain ⟨rfl, -⟩ : [] = numbers ∧ image = image' := by simpa [handOut] using hout
    simp
  | cons ino rest ih =>
    obtain ⟨number, more, image1, rfl, hmore, hfirst⟩ := handOut_cons hout
    refine List.forall_mem_cons.mpr ⟨?_, ih hmore⟩
    rcases hfirst with ⟨hkeep, rfl, -⟩ | ⟨-, hgiven⟩
    · exact hkeep.1.2
    · exact imgGiveInoNumber_le hgiven

end HardLinks
