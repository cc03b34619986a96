import Libisofs.RbTree
import Mathlib.Tactic.Tauto

/-!
# Trees and ways in the memory of the red-black tree

When the memory holds a tree, and what link changes, color changes, and rotations do to it. A
node of such a tree is labelled by its address and its data.
-/

namespace RbTreeMemory

open RbTree RedBlack

universe u
variable {α : Type u} {m m' : Memory α} {s : ColorTree (Nat × α)} {fs : List (Frame (Nat × α))}

def ptr : ColorTree (Nat × α) → Option Nat
  | .leaf => none
  | .node _ b _ => some b.1

structure Holds (m : Memory α) (b : Nat × α) (red : Bool) (ch : Bool → Option Nat) : Prop where
  data : m.data b.1 = some b.2
  red : m.red b.1 = red
  ch : ∀ d, m.ch (some b.1) d = ch d

def Stores (m : Memory α) : ColorTree (Nat × α) → Prop
  | .leaf => True
  | .node red b ch => Holds m b red (fun d => ptr (ch d)) ∧ ∀ d, Stores m (ch d)

/-- The way leads from the false root to the pointer `p`. -/
def StoresWay (m : Memory α) : List (Frame (Nat × α)) → Option Nat → Prop
  | [], p => m.ch none true = p
  | f :: fs, p =>
    Holds m f.label f.red (fun d => if d = f.dir then p else ptr f.sibling) ∧
      Stores m f.sibling ∧ StoresWay m fs (some f.label.1)

def addrs (t : ColorTree (Nat × α)) : List Nat := t.inorder.map Prod.fst

def wayAddrs : List (Frame (Nat × α)) → List Nat
  | [] => []
  | f :: fs => f.label.1 :: (addrs f.sibling ++ wayAddrs fs)

/-- The node of which the innermost link is followed, the false root being NULL. -/
def owner : List (Frame (Nat × α)) → Option Nat
  | [] => none
  | f :: _ => some f.label.1

def turn : List (Frame (Nat × α)) → Bool
  | [] => true
  | f :: _ => f.dir

section Addresses

theorem addrs_node (red : Bool) (b : Nat × α) (ch : Bool → ColorTree (Nat × α)) :
    (addrs (.node red b ch)).Perm (b.1 :: (addrs (ch false) ++ addrs (ch true))) := by
  simp only [addrs, ColorTree.inorder, List.map_append, List.map_cons]
  exact List.perm_middle

theorem addrs_fill (f : Frame (Nat × α)) (s : ColorTree (Nat × α)) :
    (addrs (f.fill s)).Perm (addrs s ++ f.label.1 :: addrs f.sibling) := by
  refine (addrs_node f.red f.label _).trans ?_
  obtain ⟨dir, red, label, sibling⟩ := f
  cases dir
  · exact List.perm_middle.symm
  · refine List.Perm.trans ?_ List.perm_middle.symm
    exact List.Perm.cons _ List.perm_append_comm

theorem addrs_plug (fs : List (Frame (Nat × α))) (s : ColorTree (Nat × α)) :
    (addrs (plug fs s)).Perm (addrs s ++ wayAddrs fs) := by
  induction fs generalizing s with
  | nil =>
    rw [wayAddrs, List.append_nil]
    exact List.Perm.refl _
  | cons f fs ih =>
    refine (ih (f.fill s)).trans ?_
    refine (List.Perm.append_right _ (addrs_fill f s)).trans ?_
    rw [wayAddrs, List.append_assoc, List.cons_append]

theorem nodup_way (nodup : (addrs (plug fs s)).Nodup) : (addrs s ++ wayAddrs fs).Nodup :=
  (addrs_plug fs s).nodup_iff.mp nodup

end Addresses

section Frame

/-- Nothing has changed at this address. -/
structure Agree (m m' : Memory α) (a : Nat) : Prop where
  data : m'.data a = m.data a
  red : m'.red a = m.red a
  ch : ∀ d, m'.ch (some a) d = m.ch (some a) d

theorem Holds.congr {b : Nat × α} {red : Bool} {ch : Bool → Option Nat}
    (holds : Holds m b red ch) (agree : Agree m m' b.1) : Holds m' b red ch :=
  ⟨agree.data.trans holds.data, agree.red.trans holds.red,
    fun d => (agree.ch d).trans (holds.ch d)⟩

theorem mem_addrs_child {red : Bool} {b : Nat × α} {ch : Bool → ColorTree (Nat × α)} {a : Nat}
    {d : Bool} (h : a ∈ addrs (ch d)) : a ∈ addrs (.node red b ch) := by
  rw [(addrs_node red b ch).mem_iff]
  refine List.mem_cons_of_mem _ (List.mem_append.mpr ?_)
  cases d
  · exact Or.inl h
  · exact Or.inr h

theorem mem_addrs_label (red : Bool) (b : Nat × α) (ch : Bool → ColorTree (Nat × α)) :
    b.1 ∈ addrs (.node red b ch) := by
  rw [(addrs_node red b ch).mem_iff]
  exact List.mem_cons_self

theorem Stores.congr {t : ColorTree (Nat × α)} (stores : Stores m t)
    (agree : ∀ a ∈ addrs t, Agree m m' a) : Stores m' t := by
  induction t with
  | leaf => exact trivial
  | node red b ch ih =>
    obtain ⟨hholds, hch⟩ := stores
    refine ⟨hholds.congr (agree _ (mem_addrs_label red b ch)), fun d => ?_⟩
    exact ih d (hch d) (fun a ha => agree a (mem_addrs_child ha))

theorem StoresWay.congr {p : Option Nat} (stores : StoresWay m fs p)
    (hroot : m'.ch none true = m.ch none true)
    (agree : ∀ a ∈ wayAddrs fs, Agree m m' a) : StoresWay m' fs p := by
  induction fs generalizing p with
  | nil => exact hroot.trans stores
  | cons f fs ih =>
    obtain ⟨hholds, hsibling, hway⟩ := stores
    refine ⟨hholds.congr (agree _ List.mem_cons_self), hsibling.congr fun a ha => ?_, ih hway ?_⟩
    · exact agree a (List.mem_cons_of_mem _ (List.mem_append_left _ ha))
    · exact fun a ha => agree a (List.mem_cons_of_mem _ (List.mem_append_right _ ha))

theorem stores_fill (f : Frame (Nat × α)) (s : ColorTree (Nat × α)) :
    Stores m (f.fill s) ↔
      Holds m f.label f.red (fun d => if d = f.dir then ptr s else ptr f.sibling) ∧
        Stores m f.sibling ∧ Stores m s := by
  have hptr : (fun d => ptr (if d = f.dir then s else f.sibling)) =
      fun d => if d = f.dir then ptr s else ptr f.sibling := by
    funext d
    split <;> rfl
  rw [Frame.fill, Stores, hptr]
  refine and_congr_right fun _ => ⟨fun h => ⟨?_, ?_⟩, fun h d => ?_⟩
  · have hother := h (!f.dir)
    rwa [if_neg (Bool.not_eq_self f.dir).mp] at hother
  · have hown := h f.dir
    rwa [if_pos rfl] at hown
  · split
    · exact h.2
    · exact h.1

/-- The whole tree is in the memory if the way and the subtree are. -/
theorem stores_plug (fs : List (Frame (Nat × α))) (s : ColorTree (Nat × α)) :
    m.ch none true = ptr (plug fs s) ∧ Stores m (plug fs s) ↔
      StoresWay m fs (ptr s) ∧ Stores m s := by
  induction fs generalizing s with
  | nil => exact Iff.rfl
  | cons f fs ih =>
    rw [plug, ih, stores_fill]
    refine ⟨fun h => ⟨⟨h.2.1, h.2.2.1, h.1⟩, h.2.2.2⟩, fun h => ⟨h.1.2.2, h.1.1, h.1.2.1, h.2⟩⟩

end Frame

section Updates

theorem setCh_same (m : Memory α) (o : Option Nat) (d : Bool) (p : Option Nat) :
    (m.setCh o d p).ch o d = p := if_pos ⟨rfl, rfl⟩

theorem setCh_other {o o' : Option Nat} {d d' : Bool} {p : Option Nat}
    (h : ¬(o' = o ∧ d' = d)) : (m.setCh o d p).ch o' d' = m.ch o' d' := if_neg h

theorem agree_setCh {o : Option Nat} {d : Bool} {p : Option Nat} {a : Nat} (h : o ≠ some a) :
    Agree m (m.setCh o d p) a :=
  ⟨rfl, rfl, fun _ => setCh_other fun hsame => h hsame.1.symm⟩

theorem agree_setRed {n : Nat} {red : Bool} {a : Nat} (h : a ≠ n) :
    Agree m (m.setRed n red) a :=
  ⟨rfl, if_neg h, fun _ => rfl⟩

theorem Agree.trans {m'' : Memory α} {a : Nat} (h : Agree m m' a) (h' : Agree m' m'' a) :
    Agree m m'' a :=
  ⟨h'.data.trans h.data, h'.red.trans h.red, fun d => (h'.ch d).trans (h.ch d)⟩

/-- Change of the innermost link. -/
theorem StoresWay.setHole {p p' : Option Nat} (stores : StoresWay m fs p)
    (nodup : (wayAddrs fs).Nodup) :
    StoresWay (m.setCh (owner fs) (turn fs) p') fs p' := by
  cases fs with
  | nil => exact setCh_same m none true p'
  | cons f fs =>
    obtain ⟨hholds, hsibling, hway⟩ := stores
    have hfresh := (List.nodup_cons.mp nodup).1
    have hother : ∀ a ∈ addrs f.sibling ++ wayAddrs fs,
        Agree m (m.setCh (owner (f :: fs)) (turn (f :: fs)) p') a := by
      intro a ha
      refine agree_setCh fun hsame => hfresh ?_
      rw [Option.some.inj hsame]
      exact ha
    have hroot : ¬(none = owner (f :: fs) ∧ true = turn (f :: fs)) :=
      fun h => absurd h.1 (Option.some_ne_none f.label.1).symm
    refine ⟨⟨hholds.data, hholds.red, fun d => ?_⟩, hsibling.congr fun a ha => ?_,
      hway.congr (setCh_other hroot) fun a ha => ?_⟩
    · by_cases hd : d = f.dir
      · rw [if_pos hd, hd]
        exact setCh_same m (some f.label.1) f.dir p'
      · refine (setCh_other fun h => hd h.2).trans ((hholds.ch d).trans ?_)
        rw [if_neg hd, if_neg hd]
    · exact hother a (List.mem_append_left _ ha)
    · exact hother a (List.mem_append_right _ ha)

theorem stores_paint {red : Bool} {b : Nat × α} {ch : Bool → ColorTree (Nat × α)} {c : Bool}
    (stores : Stores m (.node red b ch)) (nodup : (addrs (.node red b ch)).Nodup) :
    Stores (m.setRed b.1 c) (.node c b ch) := by
  obtain ⟨hholds, hch⟩ := stores
  have hfresh := (List.nodup_cons.mp ((addrs_node red b ch).nodup_iff.mp nodup)).1
  refine ⟨⟨hholds.data, if_pos rfl, hholds.ch⟩, fun d => (hch d).congr fun a ha => ?_⟩
  refine agree_setRed fun hsame => hfresh ?_
  rw [← hsame, List.mem_append]
  cases d
  · exact Or.inl ha
  · exact Or.inr ha

end Updates

section Rotations

/-- Nothing has changed but the nodes of the list. -/
structure Elsewhere (m m' : Memory α) (l : List Nat) : Prop where
  agree : ∀ a, a ∉ l → Agree m m' a
  root : ∀ d, m'.ch none d = m.ch none d
  next : m'.next = m.next

theorem Elsewhere.trans {m'' : Memory α} {l l' : List Nat} (h : Elsewhere m m' l)
    (h' : Elsewhere m' m'' l') : Elsewhere m m'' (l ++ l') where
  agree a ha :=
    (h.agree a fun hl => ha (List.mem_append_left _ hl)).trans
      (h'.agree a fun hl => ha (List.mem_append_right _ hl))
  root d := (h'.root d).trans (h.root d)
  next := h'.next.trans h.next

theorem elsewhere_setCh (m : Memory α) (n : Nat) (d : Bool) (p : Option Nat) :
    Elsewhere m (m.setCh (some n) d p) [n] where
  agree _ ha := agree_setCh fun h => ha (List.mem_singleton.mpr (Option.some.inj h).symm)
  root _ := setCh_other fun h => absurd h.1 (Option.some_ne_none n).symm
  next := rfl

theorem elsewhere_setRed (m : Memory α) (n : Nat) (red : Bool) :
    Elsewhere m (m.setRed n red) [n] where
  agree _ ha := agree_setRed fun h => ha (List.mem_singleton.mpr h)
  root _ := rfl
  next := rfl

variable {b : Nat × α} {red : Bool} {d : Bool} {x y : Option Nat}

theorem Holds.turned (holds : Holds m b red (fun e => if e = d then x else y)) :
    Holds m b red (fun e => if e = !d then y else x) := by
  refine ⟨holds.data, holds.red, fun e => (holds.ch e).trans ?_⟩
  cases e <;> cases d <;> rfl

theorem Holds.setCh (holds : Holds m b red (fun e => if e = d then x else y))
    (x' : Option Nat) :
    Holds (m.setCh (some b.1) d x') b red (fun e => if e = d then x' else y) := by
  refine ⟨holds.data, holds.red, fun e => ?_⟩
  by_cases he : e = d
  · rw [if_pos he, he]
    exact setCh_same m (some b.1) d x'
  · refine (setCh_other fun h => he h.2).trans ((holds.ch e).trans ?_)
    rw [if_neg he, if_neg he]

theorem Holds.setRed (holds : Holds m b red (fun e => if e = d then x else y)) (c : Bool) :
    Holds (m.setRed b.1 c) b c (fun e => if e = d then x else y) :=
  ⟨holds.data, if_pos rfl, holds.ch⟩

theorem Holds.kept {l : List Nat} {ch : Bool → Option Nat} (holds : Holds m b red ch)
    (elsewhere : Elsewhere m m' l) (hb : b.1 ∉ l) : Holds m' b red ch :=
  holds.congr (elsewhere.agree b.1 hb)

variable {R S : Nat × α} {cR cS : Bool} {A B C D : Option Nat}

/-- `S` takes the place of `R` in a single rotation, which gives a child to `R`. -/
theorem isoRbtreeSingle_spec (hR : Holds m R cR (fun e => if e = d then A else some S.1))
    (hS : Holds m S cS (fun e => if e = d then B else C)) (hne : R.1 ≠ S.1) :
    ∃ m', isoRbtreeSingle m R.1 d = some (S.1, m') ∧
      Holds m' R true (fun e => if e = d then A else B) ∧
      Holds m' S false (fun e => if e = d then some R.1 else C) ∧
      Elsewhere m m' [R.1, S.1, R.1, S.1] := by
  have hsave : m.ch (some R.1) (!d) = some S.1 :=
    (hR.ch (!d)).trans (if_neg (Bool.not_eq_self d).mp)
  have hinner : m.ch (some S.1) d = B := (hS.ch d).trans (if_pos rfl)
  rw [isoRbtreeSingle, hsave]
  refine ⟨_, rfl, ?_, ?_, ?_⟩
  · -- `R` is written before `S`, first its link and then its color
    have hlink := hR.turned.setCh B
    have hkept := hlink.kept (elsewhere_setCh _ S.1 d (some R.1))
      (fun h => hne (List.mem_singleton.mp h))
    have hcolor := (hkept.setRed true).kept (elsewhere_setRed _ S.1 false)
      (fun h => hne (List.mem_singleton.mp h))
    rw [hinner]
    have hback := hcolor.turned
    rwa [Bool.not_not] at hback
  · have hkept := hS.kept (elsewhere_setCh m R.1 (!d) (m.ch (some S.1) d))
      (fun h => hne (List.mem_singleton.mp h).symm)
    have hlink := hkept.setCh (some R.1)
    have hcolor := hlink.kept (elsewhere_setRed _ R.1 true)
      (fun h => hne (List.mem_singleton.mp h).symm)
    exact hcolor.setRed false
  · exact (((elsewhere_setCh m R.1 (!d) _).trans (elsewhere_setCh _ S.1 d _)).trans
      (elsewhere_setRed _ R.1 true)).trans (elsewhere_setRed _ S.1 false)

variable {P Q G : Nat × α} {cP cQ cG : Bool}

/-- `Q` takes the place of `G` in a double rotation and gives a child to each of `P` and `G`. -/
theorem isoRbtreeDouble_spec (hG : Holds m G cG (fun e => if e = d then A else some P.1))
    (hP : Holds m P cP (fun e => if e = d then some Q.1 else B))
    (hQ : Holds m Q cQ (fun e => if e = d then C else D))
    (hGP : G.1 ≠ P.1) (hGQ : G.1 ≠ Q.1) (hPQ : P.1 ≠ Q.1) :
    ∃ m' l, isoRbtreeDouble m G.1 d = some (Q.1, m') ∧
      Holds m' G true (fun e => if e = d then A else C) ∧
      Holds m' P true (fun e => if e = d then D else B) ∧
      Holds m' Q false (fun e => if e = d then some G.1 else some P.1) ∧
      Elsewhere m m' l ∧ ∀ a ∈ l, a = G.1 ∨ a = P.1 ∨ a = Q.1 := by
  have hchild : m.ch (some G.1) (!d) = some P.1 :=
    (hG.ch (!d)).trans (if_neg (Bool.not_eq_self d).mp)
  obtain ⟨m₁, hsingle, hP₁, hQ₁, helse₁⟩ := isoRbtreeSingle_spec hP.turned hQ.turned hPQ
  have hfresh₁ : G.1 ∉ [P.1, Q.1, P.1, Q.1] := by
    simp only [List.mem_cons, List.not_mem_nil, hGP, hGQ, or_self, not_false_eq_true]
  have hG₂ := ((hG.kept helse₁ hfresh₁).turned.setCh (some Q.1)).turned
  rw [Bool.not_not] at hG₂
  have helse₂ := elsewhere_setCh m₁ G.1 (!d) (some Q.1)
  have hQ₂ := (hQ₁.kept helse₂ (fun h => hGQ (List.mem_singleton.mp h).symm)).turned
  have hP₂ := (hP₁.kept helse₂ (fun h => hGP (List.mem_singleton.mp h).symm)).turned
  rw [Bool.not_not] at hQ₂ hP₂
  obtain ⟨m₃, hsingle₃, hG₃, hQ₃, helse₃⟩ := isoRbtreeSingle_spec hG₂ hQ₂ hGQ
  have hfresh₃ : P.1 ∉ [G.1, Q.1, G.1, Q.1] := by
    simp only [List.mem_cons, List.not_mem_nil, hGP.symm, hPQ, or_self,
      not_false_eq_true]
  refine ⟨m₃, _, ?_, hG₃, hP₂.kept helse₃ hfresh₃, hQ₃, (helse₁.trans helse₂).trans helse₃, ?_⟩
  · rw [isoRbtreeDouble, hchild]
    simp only [hsingle]
    exact hsingle₃
  · intro a ha
    simp only [List.mem_append, List.mem_cons, List.not_mem_nil, or_false] at ha
    tauto

end Rotations

section Ways

theorem mem_addrs_of_ptr {t : ColorTree (Nat × α)} {n : Nat} (h : ptr t = some n) :
    n ∈ addrs t := by
  cases t with
  | leaf => exact absurd h (Option.some_ne_none n).symm
  | node red b ch =>
    rw [← Option.some.inj h]
    exact mem_addrs_label red b ch

theorem agree_setHole {a : Nat} {p : Option Nat} (h : a ∉ wayAddrs fs) :
    Agree m (m.setCh (owner fs) (turn fs) p) a := by
  refine agree_setCh fun hsame => h ?_
  cases fs with
  | nil => exact absurd hsame (Option.some_ne_none a).symm
  | cons f fs =>
    rw [← Option.some.inj hsame]
    exact List.mem_cons_self

/-- How the code finds out from which link it came to the grandparent. -/
theorem dir2_eq_turn {g : Nat} (stores : StoresWay m fs (some g)) (fresh : g ∉ wayAddrs fs) :
    (m.ch (owner fs) true == some g) = turn fs := by
  cases fs with
  | nil =>
    rw [owner, show m.ch none true = some g from stores]
    exact beq_self_eq_true _
  | cons f fs =>
    have hlink := stores.1.ch true
    rw [owner, turn, hlink]
    cases hdir : f.dir with
    | true => exact beq_self_eq_true _
    | false =>
      rw [if_neg Bool.false_ne_true.symm]
      refine beq_eq_false_iff_ne.mpr fun hsame => fresh ?_
      exact List.mem_cons_of_mem _ (List.mem_append_left _ (mem_addrs_of_ptr hsame))

variable {P G : Frame (Nat × α)} {t : ColorTree (Nat × α)}

/-- The nodes which take part in a rotation, and the subtrees which do not. -/
structure Apart (P G : Frame (Nat × α)) (fs : List (Frame (Nat × α)))
    (t : ColorTree (Nat × α)) : Prop where
  parent : P.label.1 ∉ addrs t ∧ P.label.1 ∉ addrs P.sibling ∧ P.label.1 ≠ G.label.1 ∧
    P.label.1 ∉ addrs G.sibling ∧ P.label.1 ∉ wayAddrs fs
  grandparent : G.label.1 ∉ addrs t ∧ G.label.1 ∉ addrs P.sibling ∧
    G.label.1 ∉ addrs G.sibling ∧ G.label.1 ∉ wayAddrs fs
  subtrees : ∀ a, a ∈ addrs t ∨ a ∈ addrs P.sibling ∨ a ∈ addrs G.sibling → a ∉ wayAddrs fs
  siblings : ∀ a, a ∈ addrs t → a ∉ addrs P.sibling ∧ a ∉ addrs G.sibling
  way : (wayAddrs fs).Nodup
  subtree : (addrs t).Nodup

theorem apart (nodup : (addrs t ++ wayAddrs (P :: G :: fs)).Nodup) : Apart P G fs t := by
  simp only [wayAddrs, List.nodup_append, List.nodup_cons, List.mem_append, List.mem_cons,
    not_or] at nodup
  obtain ⟨ht, ⟨hP, ⟨-, ⟨hG, -, hfs, hGfs⟩, hPG⟩⟩, hcross⟩ := nodup
  refine ⟨⟨?_, hP.1, hP.2.1, hP.2.2.1, hP.2.2.2⟩, ⟨?_, ?_, hG.1, hG.2⟩, ?_, ?_, hfs, ht⟩
  · exact fun h => hcross _ h _ (Or.inl rfl) rfl
  · exact fun h => hcross _ h _ (Or.inr (Or.inr (Or.inl rfl))) rfl
  · exact fun h => hPG _ h _ (Or.inl rfl) rfl
  · rintro a (h | h | h) hway
    · exact hcross a h a (Or.inr (Or.inr (Or.inr (Or.inr hway)))) rfl
    · exact hPG a h a (Or.inr (Or.inr hway)) rfl
    · exact hGfs a h a hway rfl
  · refine fun a h => ⟨fun h' => ?_, fun h' => ?_⟩
    · exact hcross a h a (Or.inr (Or.inl h')) rfl
    · exact hcross a h a (Or.inr (Or.inr (Or.inr (Or.inl h')))) rfl

/-- A single rotation in the memory, with the link to its result. -/
theorem single_way (along : P.dir = G.dir)
    (stores : StoresWay m (P :: G :: fs) (ptr t)) (sub : Stores m t) (ap : Apart P G fs t) :
    ∃ m₁, isoRbtreeSingle m G.label.1 (!G.dir) = some (P.label.1, m₁) ∧
      let m' := m₁.setCh (owner fs) (turn fs) (some P.label.1)
      StoresWay m' (single P G :: fs) (ptr t) ∧ Stores m' t ∧ m'.next = m.next := by
  obtain ⟨hP, hPsibling, hG, hGsibling, hfs⟩ := stores
  rw [along] at hP
  obtain ⟨m₁, hsingle, hG₁, hP₁, helse⟩ :=
    isoRbtreeSingle_spec hG.turned hP.turned ap.parent.2.2.1.symm
  have hkept : ∀ a, a ≠ P.label.1 → a ≠ G.label.1 → a ∉ wayAddrs fs →
      Agree m (m₁.setCh (owner fs) (turn fs) (some P.label.1)) a := by
    intro a hneP hneG hnotWay
    have hl : a ∉ [G.label.1, P.label.1, G.label.1, P.label.1] := by
      simp only [List.mem_cons, List.not_mem_nil, hneP, hneG, or_self, not_false_eq_true]
    exact (helse.agree a hl).trans (agree_setHole hnotWay)
  have hstores : ∀ u, Stores m u → P.label.1 ∉ addrs u → G.label.1 ∉ addrs u →
      (∀ a ∈ addrs u, a ∉ wayAddrs fs) →
      Stores (m₁.setCh (owner fs) (turn fs) (some P.label.1)) u := by
    intro u hu hPu hGu hwu
    refine hu.congr fun a ha => hkept a ?_ ?_ (hwu a ha)
    · rintro rfl
      exact hPu ha
    · rintro rfl
      exact hGu ha
  refine ⟨m₁, hsingle, ⟨?_, ?_, ?_⟩, ?_, helse.next⟩
  · have hP₂ := hP₁.turned
    rw [Bool.not_not] at hP₂
    exact hP₂.congr (agree_setHole ap.parent.2.2.2.2)
  · rw [single, stores_fill]
    have hG₂ := hG₁.turned
    rw [Bool.not_not] at hG₂
    refine ⟨hG₂.congr (agree_setHole ap.grandparent.2.2.2), ?_, ?_⟩
    · exact hstores _ hGsibling ap.parent.2.2.2.1 ap.grandparent.2.2.1
        fun a ha => ap.subtrees a (Or.inr (Or.inr ha))
    · exact hstores _ hPsibling ap.parent.2.1 ap.grandparent.2.1
        fun a ha => ap.subtrees a (Or.inr (Or.inl ha))
  · refine StoresWay.setHole (hfs.congr (helse.root true) fun a ha => helse.agree a ?_) ap.way
    simp only [List.mem_cons, List.not_mem_nil, or_false, not_or]
    refine ⟨?_, ?_, ?_, ?_⟩ <;> rintro rfl
    · exact ap.grandparent.2.2.2 ha
    · exact ap.parent.2.2.2.2 ha
    · exact ap.grandparent.2.2.2 ha
    · exact ap.parent.2.2.2.2 ha
  · exact hstores t sub ap.parent.1 ap.grandparent.1 fun a ha => ap.subtrees a (Or.inl ha)

/-- A double rotation in the memory, with the link to its result. -/
theorem double_way {red : Bool} {b : Nat × α} {ch : Bool → ColorTree (Nat × α)}
    (across : P.dir = !G.dir)
    (stores : StoresWay m (P :: G :: fs) (some b.1)) (sub : Stores m (.node red b ch))
    (ap : Apart P G fs (.node red b ch)) :
    ∃ m₁, isoRbtreeDouble m G.label.1 (!G.dir) = some (b.1, m₁) ∧
      let m' := m₁.setCh (owner fs) (turn fs) (some b.1)
      StoresWay m' fs (some b.1) ∧ Stores m' (double P G b ch) ∧ m'.next = m.next := by
  obtain ⟨hP, hPsibling, hG, hGsibling, hfs⟩ := stores
  obtain ⟨hQ, hch⟩ := sub
  have hb := mem_addrs_label red b ch
  have hfresh := (List.nodup_cons.mp ((addrs_node red b ch).nodup_iff.mp ap.subtree)).1
  have hQ' : Holds m b red
      (fun e => if e = !G.dir then ptr (ch (!G.dir)) else ptr (ch G.dir)) := by
    refine ⟨hQ.data, hQ.red, fun e => (hQ.ch e).trans ?_⟩
    cases e <;> cases G.dir <;> rfl
  rw [across] at hP
  have hGP := ap.parent.2.2.1.symm
  have hGQ : G.label.1 ≠ b.1 := fun h => ap.grandparent.1 (by rwa [h])
  have hPQ : P.label.1 ≠ b.1 := fun h => ap.parent.1 (by rwa [h])
  obtain ⟨m₁, l, hdouble, hG₁, hP₁, hQ₁, helse, hl⟩ :=
    isoRbtreeDouble_spec hG.turned hP hQ' hGP hGQ hPQ
  have hbWay := ap.subtrees b.1 (Or.inl hb)
  have hstores : ∀ u, Stores m u → P.label.1 ∉ addrs u → G.label.1 ∉ addrs u →
      b.1 ∉ addrs u → (∀ a ∈ addrs u, a ∉ wayAddrs fs) →
      Stores (m₁.setCh (owner fs) (turn fs) (some b.1)) u := by
    intro u hu hPu hGu hbu hwu
    refine hu.congr fun a ha => (helse.agree a fun hal => ?_).trans (agree_setHole (hwu a ha))
    rcases hl a hal with rfl | rfl | rfl
    · exact hGu ha
    · exact hPu ha
    · exact hbu ha
  have hbSiblings := ap.siblings b.1 hb
  have hchild : ∀ d, Stores (m₁.setCh (owner fs) (turn fs) (some b.1)) (ch d) := by
    intro d
    have hmem : ∀ a ∈ addrs (ch d), a ∈ addrs (.node red b ch) := fun a ha => mem_addrs_child ha
    refine hstores (ch d) (hch d) (fun h => ap.parent.1 (hmem _ h))
      (fun h => ap.grandparent.1 (hmem _ h)) (fun h => hfresh ?_)
      (fun a ha => ap.subtrees a (Or.inl (hmem a ha)))
    rw [List.mem_append]
    cases d
    · exact Or.inl h
    · exact Or.inr h
  refine ⟨m₁, hdouble, ?_, ⟨?_, fun d => ?_⟩, helse.next⟩
  · refine StoresWay.setHole (hfs.congr (helse.root true) fun a ha => helse.agree a ?_) ap.way
    intro hal
    rcases hl a hal with rfl | rfl | rfl
    · exact ap.grandparent.2.2.2 ha
    · exact ap.parent.2.2.2.2 ha
    · exact hbWay ha
  · have hkept := hQ₁.congr (agree_setHole (p := some b.1) hbWay)
    refine ⟨hkept.data, hkept.red, fun d => (hkept.ch d).trans ?_⟩
    cases hGdir : G.dir <;> cases d <;> rfl
  · show Stores _ ((if d = G.dir then P else G).redden.fill (ch d))
    by_cases hd : d = G.dir
    · rw [if_pos hd, hd, stores_fill]
      refine ⟨?_, ?_, hchild G.dir⟩
      · show Holds _ P.label true (fun e => if e = P.dir then _ else _)
        rw [across]
        exact hP₁.congr (agree_setHole ap.parent.2.2.2.2)
      · exact hstores _ hPsibling ap.parent.2.1 ap.grandparent.2.1 hbSiblings.1
          fun a ha => ap.subtrees a (Or.inr (Or.inl ha))
    · rw [if_neg hd, Bool.eq_not_of_ne hd, stores_fill]
      refine ⟨?_, ?_, hchild (!G.dir)⟩
      · have hG₂ := hG₁.turned
        rw [Bool.not_not] at hG₂
        exact hG₂.congr (agree_setHole ap.grandparent.2.2.2)
      · exact hstores _ hGsibling ap.parent.2.2.2.1 ap.grandparent.2.2.1 hbSiblings.2
          fun a ha => ap.subtrees a (Or.inr (Or.inr ha))

end Ways

section Arrivals

theorem isRed_ptr {t : ColorTree (Nat × α)} (stores : Stores m t) : isRed m (ptr t) = t.isRed := by
  cases t with
  | leaf => rfl
  | node red b ch => exact stores.1.red

theorem Stores.setRed {t : ColorTree (Nat × α)} {n : Nat} {c : Bool} (stores : Stores m t)
    (fresh : n ∉ addrs t) : Stores (m.setRed n c) t :=
  stores.congr fun _ ha => agree_setRed fun h => fresh (h ▸ ha)

theorem StoresWay.setRed {n : Nat} {c : Bool} {p : Option Nat} (stores : StoresWay m fs p)
    (fresh : n ∉ wayAddrs fs) : StoresWay (m.setRed n c) fs p :=
  stores.congr rfl fun _ ha => agree_setRed fun h => fresh (h ▸ ha)

theorem ptr_paint (c : Bool) (t : ColorTree (Nat × α)) : ptr (t.paint c) = ptr t := by
  cases t <;> rfl

theorem stores_paint_ptr {t : ColorTree (Nat × α)} {n : Nat} {c : Bool} (stores : Stores m t)
    (nodup : (addrs t).Nodup) (hn : ptr t = some n) : Stores (m.setRed n c) (t.paint c) := by
  cases t with
  | leaf => exact trivial
  | node red b ch =>
    rw [← Option.some.inj hn]
    exact stores_paint stores nodup

theorem addrs_paint (c : Bool) (t : ColorTree (Nat × α)) : addrs (t.paint c) = addrs t := by
  rw [addrs, ColorTree.inorder_paint, addrs]

/-- A color flip in the memory. -/
theorem stores_flip {red : Bool} {b : Nat × α} {ch : Bool → ColorTree (Nat × α)} {l r : Nat}
    (stores : Stores m (.node red b ch)) (nodup : (addrs (.node red b ch)).Nodup)
    (hl : ptr (ch false) = some l) (hr : ptr (ch true) = some r) :
    Stores (((m.setRed b.1 true).setRed l false).setRed r false)
      (ColorTree.flip (.node red b ch)) := by
  obtain ⟨hfresh, happend⟩ := List.nodup_cons.mp ((addrs_node red b ch).nodup_iff.mp nodup)
  obtain ⟨hnodupLeft, hnodupRight, hdisjoint⟩ := List.nodup_append.mp happend
  have hlMem := mem_addrs_of_ptr hl
  have hrMem := mem_addrs_of_ptr hr
  have hbLeft : b.1 ∉ addrs (ch false) := fun h => hfresh (List.mem_append_left _ h)
  have hbRight : b.1 ∉ addrs (ch true) := fun h => hfresh (List.mem_append_right _ h)
  have hlRight : l ∉ addrs (ch true) := fun h => hdisjoint l hlMem l h rfl
  have hrLeft : r ∉ addrs ((ch false).paint false) := by
    rw [addrs_paint]
    exact fun h => hdisjoint r h r hrMem rfl
  have hbl : b.1 ≠ l := fun h => hbLeft (h ▸ hlMem)
  have hbr : b.1 ≠ r := fun h => hbRight (h ▸ hrMem)
  obtain ⟨hholds, hch⟩ := stores
  refine ⟨⟨hholds.data, ?_, fun d => ?_⟩, fun d => ?_⟩
  · exact (if_neg hbr).trans ((if_neg hbl).trans (if_pos rfl))
  · exact (hholds.ch d).trans (ptr_paint false (ch d)).symm
  · cases d with
    | false =>
      exact (stores_paint_ptr ((hch false).setRed hbLeft) hnodupLeft hl).setRed hrLeft
    | true =>
      exact stores_paint_ptr (((hch true).setRed hbRight).setRed hlRight) hnodupRight hr

/-- The new node gets linked. -/
theorem stores_new (data : α) {p : Option Nat} (stores : StoresWay m fs p)
    (nodup : (wayAddrs fs).Nodup) (bound : ∀ a ∈ wayAddrs fs, a < m.next) :
    let m' := (isoRbnodeNew m data).2.setCh (owner fs) (turn fs) (some m.next)
    StoresWay m' fs (some m.next) ∧
      Stores m' (.node true (m.next, data) fun _ => .leaf) := by
  have hfresh : m.next ∉ wayAddrs fs := fun h => Nat.lt_irrefl _ (bound _ h)
  have hagree : ∀ a ∈ wayAddrs fs, Agree m (isoRbnodeNew m data).2 a := by
    intro a ha
    have hne : a ≠ m.next := fun h => hfresh (h ▸ ha)
    exact ⟨if_neg hne, if_neg hne, fun _ => if_neg fun h => hne (Option.some.inj h)⟩
  have hroot : (isoRbnodeNew m data).2.ch none true = m.ch none true := by
    have hne : ¬(none : Option Nat) = some m.next := (Option.some_ne_none m.next).symm
    simp only [isoRbnodeNew, hne, if_false]
  refine ⟨(stores.congr hroot hagree).setHole nodup, ?_, fun _ => trivial⟩
  have hnew : Holds (isoRbnodeNew m data).2 (m.next, data) true
      (fun _ => ptr (.leaf : ColorTree (Nat × α))) :=
    ⟨if_pos rfl, if_pos rfl, fun _ => if_pos rfl⟩
  exact hnew.congr (agree_setHole hfresh)

end Arrivals

end RbTreeMemory
