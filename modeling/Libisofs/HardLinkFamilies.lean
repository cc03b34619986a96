import Libisofs.HardLinkNumbers
import Libisofs.Lib.Families
import Mathlib.Data.List.Dedup
import Mathlib.Data.List.Flatten
import Mathlib.Data.List.Pairwise

/-!
# Hard link families get numbers of their own

The array gets sorted by keys, so that the loop of match_hardlinks() finds the families
which the comparison function reports. Their numbers are right if and only if the
numbers brought along fit.
-/

namespace HardLinks

open StreamCmp NodeCmp LabelledRuns ThreeWay CLibrary SortedFamilies

/-- The heap holds all nodes, and no two of them are for the same IsoNode. -/
structure Proper (h : NodeHeap) (nodes : List Ecma119Node) : Prop where
  live : ∀ n ∈ nodes, n.node.Live h
  addrs : (nodes.map Ecma119Node.addr).Nodup

/-- The sort key of a node if the list of compare functions grows up to `final`. -/
def hardKey (h : NodeHeap) (final : Ranks) (n : Ecma119Node) : List Key := nodeKey 1 h final n.node

section Comparing

variable {h : NodeHeap} {nodes : List Ecma119Node}

theorem Proper.eq_of_addr (proper : Proper h nodes) {a b : Ecma119Node} (ha : a ∈ nodes)
    (hb : b ∈ nodes) (heq : a.addr = b.addr) : a = b :=
  List.inj_on_of_nodup_map proper.addrs ha hb heq

theorem cmpHard_answered (proper : Proper h nodes) {a b : Ecma119Node} (ha : a ∈ nodes)
    (hb : b ∈ nodes) (ranks : Ranks) :
    ranks <+: (ecma119NodeCmpHard h.objects.classAddr a b ranks).2 ∧
    ∀ final, (ecma119NodeCmpHard h.objects.classAddr a b ranks).2 <+: final →
      Agrees (hardKey h final) a b (ecma119NodeCmpHard h.objects.classAddr a b ranks).1 := by
  rw [ecma119NodeCmpHard, ecma119NodeCmpFlag]
  split
  next heq =>
    obtain rfl := proper.eq_of_addr ha hb heq
    exact ⟨List.prefix_rfl, fun final _ => by simp [Agrees]⟩
  next => exact isoNodeCmpFlag_answered (proper.live a ha) (proper.live b hb) 1 ranks

/-- What the sort gets answered is the order of the keys. -/
theorem asking_explained (proper : Proper h nodes) {ranks ranks' : Ranks}
    {trace : List ((Ecma119Node × Ecma119Node) × Int)}
    (run : Run (asking (ecma119NodeCmpHard h.objects.classAddr)) ranks trace ranks')
    (hmem : ∀ event ∈ trace, event.1.1 ∈ nodes ∧ event.1.2 ∈ nodes) :
    ranks <+: ranks' ∧ ∀ final, ranks' <+: final →
      ∀ event ∈ trace, Agrees (hardKey h final) event.1.1 event.1.2 event.2 := by
  induction run with
  | refl => simp
  | @snoc trace s s' pair event run hstep ih =>
    obtain ⟨rfl, rfl⟩ :
        (ecma119NodeCmpHard h.objects.classAddr pair.1 pair.2 s).2 = s' ∧
          (pair, (ecma119NodeCmpHard h.objects.classAddr pair.1 pair.2 s).1) = event := by
      simpa [asking] using hstep
    obtain ⟨hold, hlast⟩ := List.forall_mem_append.mp hmem
    obtain ⟨hleft, hright⟩ := hlast _ (List.mem_singleton_self _)
    obtain ⟨hgrow, hnow⟩ := cmpHard_answered proper hleft hright s
    obtain ⟨hprev, hearlier⟩ := ih hold
    refine ⟨hprev.trans hgrow, fun final hfinal => ?_⟩
    refine List.forall_mem_append.mpr ⟨hearlier final (hgrow.trans hfinal), ?_⟩
    intro event hevent
    obtain rfl := List.mem_singleton.mp hevent
    exact hnow final hfinal

/-- The order of the keys as a comparison function. -/
def keyOrder (h : NodeHeap) (final : Ranks) (a b : Ecma119Node) : Int :=
  match compare (hardKey h final a) (hardKey h final b) with
  | .lt => -1
  | .eq => 0
  | .gt => 1

theorem sign_keyOrder (final : Ranks) (a b : Ecma119Node) :
    sign (keyOrder h final a b) = compare (hardKey h final a) (hardKey h final b) := by
  rw [keyOrder]
  cases compare (hardKey h final a) (hardKey h final b) <;> rfl

def KeyLe (k k' : List Key) : Prop := (compare k k').isLE

theorem keyOrder_le (final : Ranks) (a b : Ecma119Node) :
    keyOrder h final a b ≤ 0 ↔ KeyLe (hardKey h final a) (hardKey h final b) := by
  rw [← sign_isLE, sign_keyOrder, KeyLe]

theorem KeyLe.antisymm {k k' : List Key} (hle : KeyLe k k') (hge : KeyLe k' k) : k = k' :=
  Std.LawfulEqCmp.eq_of_compare (Std.OrientedCmp.isLE_antisymm hle hge)

theorem keyOrder_consistent (final : Ranks) : Consistent (keyOrder h final) where
  trans a b c hab hbc := by
    rw [keyOrder_le] at hab hbc ⊢
    exact Std.TransCmp.isLE_trans hab hbc
  total a b := by
    rw [keyOrder_le, keyOrder_le]
    cases hle : compare (hardKey h final a) (hardKey h final b) with
    | lt => exact Or.inl (by rw [KeyLe, hle]; rfl)
    | eq => exact Or.inl (by rw [KeyLe, hle]; rfl)
    | gt =>
      refine Or.inr ?_
      rw [KeyLe, Std.OrientedCmp.lt_of_gt hle]
      rfl

/-- The array is sorted by the keys, whatever compare functions follow. -/
theorem sorted_nodes (proper : Proper h nodes) (qsort : RecordingQsort) (ranks : Ranks) :
    ranks <+: (qsort.run (ecma119NodeCmpHard h.objects.classAddr) nodes ranks).2 ∧
    ∀ final, (qsort.run (ecma119NodeCmpHard h.objects.classAddr) nodes ranks).2 <+: final →
      (qsort.run (ecma119NodeCmpHard h.objects.classAddr) nodes ranks).1.Pairwise
        fun a b => KeyLe (hardKey h final a) (hardKey h final b) := by
  obtain ⟨trace, run, hmem, hsorted⟩ :=
    qsort.sorted (ecma119NodeCmpHard h.objects.classAddr) nodes ranks
  obtain ⟨hgrow, hexplained⟩ := asking_explained proper run hmem
  refine ⟨hgrow, fun final hfinal => ?_⟩
  have answered : AnsweredBy (keyOrder h final) trace := by
    intro event hevent
    rw [sign_keyOrder]
    exact hexplained final hfinal event hevent
  simpa only [keyOrder_le] using hsorted _ (keyOrder_consistent final) answered

theorem imgIno_of_no_id {n : Ecma119Node} (hno : ¬ 0 < (isoNodeGetId n.node 1).1) :
    n.imgIno = 0 := by
  rw [Ecma119Node.imgIno]
  rw [isoNodeGetId] at hno ⊢
  cases hx : n.node.inoXinfo with
  | some ino => simp [hx] at hno
  | none =>
    cases hown : n.node.body.ownId with
    | none => rfl
    | some id =>
      simp only [hx, hown] at hno ⊢
      split at hno
      next hforeign => rw [if_pos hforeign]
      next => exact absurd Nat.one_pos hno

theorem key_inj {final : Ranks} {a b : Ecma119Node}
    (heq : hardKey h final a = hardKey h final b) :
    a.node.body.type = b.node.body.type ∧ a.imgIno = b.imgIno := by
  rw [hardKey, hardKey, nodeKey, nodeKey, List.cons.injEq] at heq
  obtain ⟨htype, hid⟩ := heq
  simp only [List.cons.injEq, and_true] at htype
  refine ⟨Int.natCast_inj.mp htype, ?_⟩
  by_cases ha : 0 < (isoNodeGetId a.node 1).1 <;> by_cases hb : 0 < (isoNodeGetId b.node 1).1
  · simp only [ha, hb, if_true, List.cons.injEq, and_true] at hid
    exact Int.natCast_inj.mp hid.2.1
  · simp [ha, hb] at hid
  · simp [ha, hb] at hid
  · rw [imgIno_of_no_id ha, imgIno_of_no_id hb]

theorem type_eq_dir {n : Ecma119Node} : n.type = .dir ↔ n.node.body.type = 0 := by
  rw [Ecma119Node.type]
  cases n.node.body <;> simp [NodeBody.type]

theorem dir_of_key {final : Ranks} {a b : Ecma119Node}
    (heq : hardKey h final a = hardKey h final b) (ha : a.type = .dir) : b.type = .dir := by
  rw [type_eq_dir] at ha ⊢
  rw [← (key_inj heq).1, ha]

/-- Two neighbours in the array belong to one family. -/
def sameKey (h : NodeHeap) (final : Ranks) (last n : Ecma119Node) : Bool :=
  decide (¬ n.type = .dir ∧ hardKey h final last = hardKey h final n)

theorem sameFamily_answered (proper : Proper h nodes) {last n : Ecma119Node}
    (hlast : last ∈ nodes) (hn : n ∈ nodes) (ranks : Ranks) :
    ranks <+: (sameFamily h.objects.classAddr last n ranks).2 ∧
    ∀ final, (sameFamily h.objects.classAddr last n ranks).2 <+: final →
      (sameFamily h.objects.classAddr last n ranks).1 = sameKey h final last n := by
  rw [sameFamily]
  split
  next hdir => exact ⟨List.prefix_rfl, fun final _ => by simp [sameKey, hdir]⟩
  next hdir =>
    obtain ⟨hgrow, hagree⟩ := cmpHard_answered proper hlast hn ranks
    refine ⟨hgrow, fun final hfinal => ?_⟩
    have hiff : (ecma119NodeCmpHard h.objects.classAddr last n ranks).1 = 0 ↔
        hardKey h final last = hardKey h final n := by
      rw [← sign_eq_eq, hagree final hfinal, Std.LawfulEqCmp.compare_eq_iff_eq]
    simp [sameKey, hdir, hiff]

/-- The number which stands in the nodes of a family: the one of its first member, or
else, if there is more than one member, the one of the first node of all. -/
def familyIno (first : Ecma119Node) : List Ecma119Node → Nat
  | [] => 0
  | n :: rest => if n.imgIno = 0 ∧ rest ≠ [] then first.imgIno else n.imgIno

def numberFamily (family : List Ecma119Node) (ino : Nat) : List Ecma119Node :=
  family.map fun n => { n with ino := ino, nlink := family.length }

/-- The array with the numbers of its families. -/
def numberFamilies (families : List (List Ecma119Node)) (inos : List Nat) : List Ecma119Node :=
  (families.zip inos).flatMap fun (family, ino) => numberFamily family ino

theorem familySetIno_eq (image : IsoImage) (family : List Ecma119Node) (ino prev : Nat) :
    familySetIno image family ino prev =
      if Accepted ino ∧ ino ≠ prev then some (numberFamily family ino, image)
      else (imgGiveInoNumber image).map fun given => (numberFamily family given.1, given.2) := by
  rw [familySetIno]
  by_cases hacc : Accepted ino ∧ ino ≠ prev
  · obtain ⟨⟨hne, hle⟩, hprev⟩ := hacc
    simp [hne, hprev, Nat.not_lt.mpr hle, Accepted, hle, numberFamily]
  · rw [if_neg hacc]
    have hzero : (if ino ≠ 0 then if ino = prev then 0 else if ino > 0xffffffff then 0 else ino
        else ino) = 0 := by
      split_ifs with h1 h2 h3
      · rfl
      · rfl
      · exact absurd ⟨⟨h1, Nat.not_lt.mp h3⟩, h2⟩ hacc
      · exact not_not.mp h1
    simp only [hzero, if_true]
    rfl

/-- The loop over the array numbers its families one after the other. -/
theorem matchLoop_spec (proper : Proper h nodes) {first : Ecma119Node}
    {family : List Ecma119Node} {last : Ecma119Node} {prev : Nat} {image image' : IsoImage}
    {rest out : List Ecma119Node} {ranks ranks' : Ranks} (hne : family ≠ [])
    (hlast : last ∈ nodes) (hrest : ∀ n ∈ rest, n ∈ nodes)
    (hrun : matchLoop h.objects.classAddr first family last (familyIno first family) prev image
      rest ranks = some (out, image', ranks')) :
    ranks <+: ranks' ∧ ∃ groups inos,
      (∀ final, ranks' <+: final → families (sameKey h final) family last rest = groups) ∧
      handOut image prev (groups.map (familyIno first)) = some (inos, image') ∧
      out = numberFamilies groups inos := by
  induction rest generalizing family last prev image ranks out with
  | nil =>
    rw [matchLoop, familySetIno_eq] at hrun
    split at hrun
    next hkeep =>
      obtain ⟨rfl, rfl, rfl⟩ : numberFamily family (familyIno first family) = out ∧
          image = image' ∧ ranks = ranks' := by simpa using hrun
      refine ⟨List.prefix_rfl, [family], [familyIno first family], fun _ _ => rfl, ?_, ?_⟩
      · simp [handOut, hkeep]
      · simp [numberFamilies]
    next hdraw =>
      simp only [Option.bind_eq_bind, Option.bind_eq_some_iff, Option.map_eq_some_iff,
        Option.some.injEq, Prod.mk.injEq, Prod.exists] at hrun
      obtain ⟨_, _, ⟨given, image1, hgiven, rfl, rfl⟩, rfl, rfl, rfl⟩ := hrun
      refine ⟨List.prefix_rfl, [family], [given], fun _ _ => rfl, ?_, ?_⟩
      · simp [handOut, hdraw, hgiven]
      · simp [numberFamilies]
  | cons n rest ih =>
    obtain ⟨hn, hmore⟩ := List.forall_mem_cons.mp hrest
    obtain ⟨hgrow, hsame⟩ := sameFamily_answered proper hlast hn ranks
    rw [matchLoop] at hrun
    cases hmerge : (sameFamily h.objects.classAddr last n ranks).1 with
    | true =>
      have hino : (if familyIno first family = 0 then first.imgIno else familyIno first family) =
          familyIno first (family ++ [n]) := by
        obtain ⟨m, tail, rfl⟩ := List.exists_cons_of_ne_nil hne
        simp only [familyIno, List.cons_append]
        by_cases hm : m.imgIno = 0
        · simp only [hm, true_and]
          split_ifs <;> simp_all
        · simp [hm]
      simp only [hmerge, if_true] at hrun
      rw [hino] at hrun
      obtain ⟨hgrow', groups, inos, hgroups, hspec⟩ := ih (by simp) hn hmore hrun
      refine ⟨hgrow.trans hgrow', groups, inos, fun final hfinal => ?_, hspec⟩
      rw [hsame final (hgrow'.trans hfinal)] at hmerge
      rw [families, if_pos hmerge]
      exact hgroups final hfinal
    | false =>
      simp only [hmerge, Bool.false_eq_true, if_false, Option.bind_eq_bind,
        Option.bind_eq_some_iff, Option.some.injEq, Prod.mk.injEq, Prod.exists] at hrun
      obtain ⟨set, image1, hset, more, image2, ranks2, hloop, rfl, rfl, rfl⟩ := hrun
      have hone : n.imgIno = familyIno first [n] := by simp [familyIno]
      rw [hone] at hloop
      obtain ⟨hgrow', groups, inos, hgroups, hout, rfl⟩ := ih (by simp) hn hmore hloop
      have hcut : ∀ final, ranks2 <+: final →
          families (sameKey h final) family last (n :: rest) = family :: groups := by
        intro final hfinal
        rw [hsame final (hgrow'.trans hfinal)] at hmerge
        rw [families, if_neg (by simp [hmerge]), hgroups final hfinal]
      refine ⟨hgrow.trans hgrow', family :: groups, ?_⟩
      rw [familySetIno_eq] at hset
      split at hset
      next hkeep =>
        obtain ⟨rfl, rfl⟩ : numberFamily family (familyIno first family) = set ∧
            image = image1 := by simpa using hset
        refine ⟨familyIno first family :: inos, hcut, ?_, rfl⟩
        simp [handOut, hkeep, hout]
      next hdraw =>
        obtain ⟨⟨given, image3⟩, hgiven, hpair⟩ := Option.map_eq_some_iff.mp hset
        obtain ⟨rfl, rfl⟩ := Prod.mk.inj hpair
        refine ⟨given :: inos, hcut, ?_, rfl⟩
        simp [handOut, hdraw, hgiven, hout]

end Comparing

section Families

variable (report : Ecma119Node → Ecma119Node → Int)

/-- A directory is a family of its own, other nodes are families with those which get
reported as equal. -/
def SameFamily (a b : Ecma119Node) : Prop :=
  a.addr = b.addr ∨ a.type ≠ .dir ∧ b.type ≠ .dir ∧ report a b = 0

instance (a b : Ecma119Node) : Decidable (SameFamily report a b) :=
  inferInstanceAs (Decidable (_ ∨ _))

/-- What is to hold after match_hardlinks(). -/
structure FamiliesRight (nodes : List Ecma119Node) : Prop where
  inos : ∀ a ∈ nodes, ∀ b ∈ nodes, a.type ≠ .dir → b.type ≠ .dir →
    (a.ino = b.ino ↔ report a b = 0)
  nlinks : ∀ a ∈ nodes, a.type ≠ .dir →
    a.nlink = nodes.countP fun b => decide (b.type ≠ .dir ∧ report a b = 0)
  keeps : ∀ a ∈ nodes, a.imgIno ≠ 0 →
    (∀ b ∈ nodes, b.imgIno = a.imgIno → SameFamily report a b) → a.ino = a.imgIno
  dirs : ∀ a ∈ nodes, a.type = .dir → ∀ b ∈ nodes, b.ino = a.ino → b.addr = a.addr

/-- The number of the node which is the first one in the sort order. -/
def firstIno (nodes : List Ecma119Node) : Nat :=
  ((nodes.find? fun f => nodes.all fun n => report f n ≤ 0).map Ecma119Node.imgIno).getD 0

/-- The number which a node brings into its family. A node without number which is not
alone in its family brings the number of the first node of all. -/
def standsFor (nodes : List Ecma119Node) (n : Ecma119Node) : Nat :=
  if n.imgIno = 0 ∧ ∃ m ∈ nodes, m.addr ≠ n.addr ∧ SameFamily report n m then
    firstIno report nodes
  else n.imgIno

def familyCount (nodes : List Ecma119Node) : Nat :=
  (nodes.pwFilter fun a b => ¬ SameFamily report a b).length

/-- How many families do not bring an acceptable number of their own. -/
def requests (nodes : List Ecma119Node) : Nat :=
  familyCount report nodes -
    ((nodes.map (standsFor report nodes)).filter (Accepted ·)).dedup.length

/-- The condition under which the numbers of the families come out right. -/
structure NumbersFit (image : IsoImage) (nodes : List Ecma119Node) : Prop where
  neighbours : ∀ x ∈ nodes, ∀ z ∈ nodes, ∀ y ∈ nodes, report x z ≤ 0 → report z y ≤ 0 →
    standsFor report nodes x = standsFor report nodes y → Accepted (standsFor report nodes x) →
    standsFor report nodes z = standsFor report nodes x
  range : ∀ a ∈ nodes, (∀ b ∈ nodes, b.imgIno = a.imgIno → SameFamily report a b) →
    a.imgIno ≤ 0xffffffff
  fresh : ∀ given image', giveInoNumbers (requests report nodes) image = some (given, image') →
    given.Nodup ∧
    ∀ n ∈ nodes, Accepted (standsFor report nodes n) → standsFor report nodes n ∉ given

/-- The families in the array. `ident` tells to which one a node belongs. -/
structure Arranged {ι : Type} (ident : Ecma119Node → ι) (groups : List (List Ecma119Node)) :
    Prop where
  ne : ∀ g ∈ groups, g ≠ []
  inside : ∀ g ∈ groups, ∀ a ∈ g, ∀ b ∈ g,
    ident a = ident b ∧ a.imgIno = b.imgIno ∧ report a b ≤ 0
  across : groups.Pairwise fun g g' => ∀ a ∈ g, ∀ b ∈ g',
    report a b ≤ 0 ∧ ident a ≠ ident b ∧
      (report b a ≤ 0 → a.imgIno = b.imgIno ∧ a.type = .dir ∧ b.type = .dir)
  same : ∀ a ∈ groups.flatten, ∀ b ∈ groups.flatten, SameFamily report a b ↔ ident a = ident b
  addrs : (groups.flatten.map Ecma119Node.addr).Nodup

end Families

section Arranging

variable {h : NodeHeap} {nodes : List Ecma119Node}

/-- The comparison function as it answers when match_hardlinks() is done. -/
def reportHard (h : NodeHeap) (ranks : Ranks) (a b : Ecma119Node) : Int :=
  (ecma119NodeCmpHard h.objects.classAddr a b ranks).1

/-- Directories are told apart by their addresses. -/
def memberKey (h : NodeHeap) (final : Ranks) (n : Ecma119Node) : List Key × Nat :=
  (hardKey h final n, if n.type = .dir then n.addr + 1 else 0)

/-- What the report on two nodes of the array says about keys. -/
theorem report_key (proper : Proper h nodes) (ranks : Ranks) {a b : Ecma119Node}
    (ha : a ∈ nodes) (hb : b ∈ nodes) :
    ∃ final, ranks <+: final ∧
      (reportHard h ranks a b ≤ 0 ↔ KeyLe (hardKey h final a) (hardKey h final b)) ∧
      (reportHard h ranks a b = 0 ↔ hardKey h final a = hardKey h final b) := by
  obtain ⟨hgrow, hagree⟩ := cmpHard_answered proper ha hb ranks
  have hsign := hagree _ List.prefix_rfl
  refine ⟨_, hgrow, ?_, ?_⟩
  · rw [reportHard, ← sign_isLE, hsign]
    rfl
  · rw [reportHard, ← sign_eq_eq, hsign, Std.LawfulEqCmp.compare_eq_iff_eq]

/-- The groups in the array, whatever ranks the classes of streams will still get. -/
structure Grouped (h : NodeHeap) (nodes : List Ecma119Node) (ranks : Ranks)
    (groups : List (List Ecma119Node)) : Prop where
  proper : Proper h nodes
  ne : ∀ g ∈ groups, g ≠ []
  mem : ∀ g ∈ groups, ∀ a ∈ g, a ∈ nodes
  addrs : (groups.flatten.map Ecma119Node.addr).Nodup
  inside : ∀ final, ranks <+: final → ∀ g ∈ groups,
    (∀ a ∈ g, ∀ b ∈ g, hardKey h final a = hardKey h final b) ∧
      (1 < g.length → ∀ a ∈ g, ¬ a.type = .dir)
  across : ∀ final, ranks <+: final → groups.Pairwise fun g g' => ∀ a ∈ g, ∀ b ∈ g',
    KeyLe (hardKey h final a) (hardKey h final b) ∧
      (hardKey h final a = hardKey h final b → a.type = .dir ∧ b.type = .dir)

theorem grouped_of_sorted {first : Ecma119Node} {rest : List Ecma119Node} {ranks : Ranks}
    {groups : List (List Ecma119Node)} (proper : Proper h nodes)
    (hperm : (first :: rest).Perm nodes)
    (hsorted : ∀ final, ranks <+: final → (first :: rest).Pairwise
      fun a b => KeyLe (hardKey h final a) (hardKey h final b))
    (hgroups : ∀ final, ranks <+: final →
      families (sameKey h final) [first] first rest = groups) : Grouped h nodes ranks groups := by
  have hsame : ∀ final a b, sameKey h final a b = true ↔
      ¬ b.type = .dir ∧ hardKey h final a = hardKey h final b := by
    intro final a b
    rw [sameKey, decide_eq_true_iff]
  have hflat : groups.flatten = first :: rest := by
    rw [← hgroups ranks List.prefix_rfl, families_flatten]
    rfl
  refine ⟨proper, ?_, ?_, ?_, ?_, ?_⟩
  · rw [← hgroups ranks List.prefix_rfl]
    exact families_ne_nil _ (by simp) _ _
  · intro g hg a ha
    rw [← hperm.mem_iff, ← hflat]
    exact List.mem_flatten_of_mem hg ha
  · rw [hflat]
    exact (hperm.map Ecma119Node.addr).nodup_iff.mpr proper.addrs
  · intro final hfinal
    rw [← hgroups final hfinal]
    exact families_inside (hsame final) dir_of_key (by simp) (by simp)
  · intro final hfinal
    rw [← hgroups final hfinal]
    exact families_across KeyLe.antisymm (hsame final) dir_of_key (by simp) (by simp)
      (hsorted final hfinal)

variable {ranks : Ranks} {groups : List (List Ecma119Node)} {g g' : List Ecma119Node}
variable {a b : Ecma119Node}

theorem Grouped.member (grouped : Grouped h nodes ranks groups) (hg : g ∈ groups) (ha : a ∈ g)
    (hb : b ∈ g) : memberKey h ranks a = memberKey h ranks b := by
  obtain ⟨hkeys, hmany⟩ := grouped.inside ranks List.prefix_rfl g hg
  rcases Nat.lt_or_ge 1 g.length with hlong | hshort
  · rw [memberKey, memberKey, if_neg (hmany hlong a ha), if_neg (hmany hlong b hb),
      hkeys a ha b hb]
  · obtain ⟨c, rfl⟩ := List.length_eq_one_iff.mp
      (Nat.le_antisymm hshort (List.length_pos_of_mem ha))
    rw [List.mem_singleton.mp ha, List.mem_singleton.mp hb]

/-- Equal keys outside of one group occur only with directories. -/
theorem Grouped.apart (grouped : Grouped h nodes ranks groups) {final : Ranks}
    (hfinal : ranks <+: final) (hg : g ∈ groups) (hg' : g' ∈ groups) (hne : g ≠ g') (ha : a ∈ g)
    (hb : b ∈ g') (heq : hardKey h final a = hardKey h final b) : a.type = .dir := by
  have hboth : groups.Pairwise fun g g' => ∀ a ∈ g, ∀ b ∈ g',
      hardKey h final a = hardKey h final b → a.type = .dir ∧ b.type = .dir :=
    (grouped.across final hfinal).imp fun hgg a ha b hb => (hgg a ha b hb).2
  have : Std.Symm fun g g' : List Ecma119Node => ∀ a ∈ g, ∀ b ∈ g',
      hardKey h final a = hardKey h final b → a.type = .dir ∧ b.type = .dir :=
    ⟨fun g g' hgg a ha b hb heq => (hgg b hb a ha heq.symm).symm⟩
  exact (hboth.forall hg hg' hne a ha b hb heq).1

theorem Grouped.between (grouped : Grouped h nodes ranks groups)
    (hsub : [g, g'].Sublist groups) (ha : a ∈ g) (hb : b ∈ g') :
    reportHard h ranks a b ≤ 0 ∧ memberKey h ranks a ≠ memberKey h ranks b ∧
      (reportHard h ranks b a ≤ 0 → a.imgIno = b.imgIno ∧ a.type = .dir ∧ b.type = .dir) := by
  have hna : a ∈ nodes := grouped.mem g (hsub.subset (by simp)) a ha
  have hnb : b ∈ nodes := grouped.mem g' (hsub.subset (by simp)) b hb
  have hboth := fun final hfinal =>
    (List.pairwise_iff_forall_sublist.mp (grouped.across final hfinal)) hsub a ha b hb
  refine ⟨?_, ?_, ?_⟩
  · obtain ⟨final, hfinal, hle, -⟩ := report_key grouped.proper ranks hna hnb
    exact hle.mpr (hboth final hfinal).1
  · intro hmemberKey
    obtain ⟨hkey, haddr⟩ := Prod.mk.inj hmemberKey
    obtain ⟨hda, hdb⟩ := (hboth ranks List.prefix_rfl).2 hkey
    rw [if_pos hda, if_pos hdb] at haddr
    obtain rfl := grouped.proper.eq_of_addr hna hnb (Nat.succ.inj haddr)
    -- no node is in two groups
    have hnodup := (hsub.flatten.map Ecma119Node.addr).nodup grouped.addrs
    simp only [List.flatten_cons, List.flatten_nil, List.append_nil, List.map_append] at hnodup
    exact List.disjoint_of_nodup_append hnodup (List.mem_map_of_mem ha) (List.mem_map_of_mem hb)
  · intro hback
    obtain ⟨final, hfinal, hle, -⟩ := report_key grouped.proper ranks hnb hna
    have hkey := KeyLe.antisymm (hboth final hfinal).1 (hle.mp hback)
    exact ⟨(key_inj hkey).2, (hboth final hfinal).2 hkey⟩

theorem Grouped.same_iff (grouped : Grouped h nodes ranks groups) (hina : a ∈ groups.flatten)
    (hinb : b ∈ groups.flatten) :
    SameFamily (reportHard h ranks) a b ↔ memberKey h ranks a = memberKey h ranks b := by
  obtain ⟨g, hg, ha⟩ := List.mem_flatten.mp hina
  obtain ⟨g', hg', hb⟩ := List.mem_flatten.mp hinb
  have hna := grouped.mem g hg a ha
  have hnb := grouped.mem g' hg' b hb
  obtain ⟨final, hfinal, -, hzero⟩ := report_key grouped.proper ranks hna hnb
  constructor
  · rintro (haddr | ⟨hda, hdb, hreport⟩)
    · rw [grouped.proper.eq_of_addr hna hnb haddr]
    · by_cases heq : g = g'
      · subst heq
        exact grouped.member hg ha hb
      · exact absurd (grouped.apart hfinal hg hg' heq ha hb (hzero.mp hreport)) hda
  · intro hmemberKey
    obtain ⟨hkey, haddr⟩ := Prod.mk.inj hmemberKey
    by_cases hda : a.type = .dir
    · rw [if_pos hda, if_pos (dir_of_key hkey hda)] at haddr
      exact Or.inl (Nat.succ.inj haddr)
    · have hdb : b.type ≠ .dir := fun hd => hda (dir_of_key hkey.symm hd)
      refine Or.inr ⟨hda, hdb, hzero.mpr ?_⟩
      by_cases heq : g = g'
      · subst heq
        exact (grouped.inside final hfinal g hg).1 a ha b hb
      · exact absurd (grouped.apart List.prefix_rfl hg hg' heq ha hb hkey) hda

theorem Grouped.arranged (grouped : Grouped h nodes ranks groups) :
    Arranged (reportHard h ranks) (memberKey h ranks) groups where
  ne := grouped.ne
  inside g hg a ha b hb := by
    refine ⟨grouped.member hg ha hb, ?_, ?_⟩
    · exact (key_inj ((grouped.inside ranks List.prefix_rfl g hg).1 a ha b hb)).2
    · obtain ⟨final, hfinal, -, hzero⟩ :=
        report_key grouped.proper ranks (grouped.mem g hg a ha) (grouped.mem g hg b hb)
      exact (hzero.mpr ((grouped.inside final hfinal g hg).1 a ha b hb)).le
  across := List.pairwise_iff_forall_sublist.mpr fun hsub _ ha _ hb => grouped.between hsub ha hb
  same _ hina _ hinb := grouped.same_iff hina hinb
  addrs := grouped.addrs

end Arranging

/-- Results of a report do not depend on the numbers which get set, and a node is equal
to itself. -/
structure Stable (report : Ecma119Node → Ecma119Node → Int) : Prop where
  numbered : ∀ a b i k j l,
    report { a with ino := i, nlink := k } { b with ino := j, nlink := l } = report a b
  self : ∀ a b, a.addr = b.addr → report a b = 0

section Numbering

variable {ι : Type} {report : Ecma119Node → Ecma119Node → Int} {ident : Ecma119Node → ι}
  {groups : List (List Ecma119Node)} {nodes : List Ecma119Node}

theorem standsFor_dir {a : Ecma119Node} (hdir : a.type = .dir) :
    standsFor report nodes a = a.imgIno := by
  rw [standsFor, if_neg]
  rintro ⟨-, m, -, hne, haddr | hsame⟩
  · exact hne haddr.symm
  · exact hsame.1 hdir

variable (arranged : Arranged report ident groups)

include arranged

theorem Arranged.same_group {g g' : List Ecma119Node}
    (hg : g ∈ groups) (hg' : g' ∈ groups) {a b : Ecma119Node} (ha : a ∈ g) (hb : b ∈ g')
    (heq : ident a = ident b) : g = g' := by
  by_contra hne
  have hboth : groups.Pairwise fun g g' => ∀ a ∈ g, ∀ b ∈ g', ident a ≠ ident b :=
    arranged.across.imp fun hgg a ha b hb => (hgg a ha b hb).2.1
  have : Std.Symm fun g g' : List Ecma119Node => ∀ a ∈ g, ∀ b ∈ g', ident a ≠ ident b :=
    ⟨fun g g' hgg a ha b hb heq => hgg b hb a ha heq.symm⟩
  exact hboth.forall hg hg' hne a ha b hb heq

theorem Arranged.nodup : groups.Nodup := by
  rw [List.nodup_iff_pairwise_ne, List.pairwise_iff_forall_sublist]
  intro g g' hsub heq
  subst heq
  obtain ⟨a, ha⟩ := List.exists_mem_of_ne_nil g (arranged.ne g (hsub.subset (by simp)))
  have := (List.pairwise_iff_forall_sublist.mp arranged.across) hsub a ha a ha
  exact this.2.1 rfl

/-- Families as the report shows them. -/
theorem Arranged.same_iff {g g' : List Ecma119Node}
    (hg : g ∈ groups) (hg' : g' ∈ groups) {a b : Ecma119Node} (ha : a ∈ g) (hb : b ∈ g') :
    SameFamily report a b ↔ g = g' := by
  rw [arranged.same a (List.mem_flatten_of_mem hg ha) b (List.mem_flatten_of_mem hg' hb)]
  constructor
  · exact arranged.same_group hg hg' ha hb
  · rintro rfl
    exact (arranged.inside g hg a ha b hb).1

theorem Arranged.eq_of_addr {a b : Ecma119Node}
    (ha : a ∈ groups.flatten) (hb : b ∈ groups.flatten) (heq : a.addr = b.addr) : a = b :=
  List.inj_on_of_nodup_map arranged.addrs ha hb heq

variable {first : Ecma119Node} {others : List Ecma119Node} {more : List (List Ecma119Node)}

theorem Arranged.firstIno_eq
    (hperm : groups.flatten.Perm nodes) (hfirst : groups = (first :: others) :: more) :
    firstIno report nodes = first.imgIno := by
  have hg0 : first :: others ∈ groups := hfirst ▸ List.mem_cons_self ..
  have hacross := arranged.across
  rw [hfirst, List.pairwise_cons] at hacross
  have hcases : ∀ n ∈ nodes, n ∈ first :: others ∨ ∃ g ∈ more, n ∈ g := by
    intro n hn
    rw [← hperm.mem_iff, hfirst, List.flatten_cons, List.mem_append, List.mem_flatten] at hn
    exact hn
  have hleast : ∀ n ∈ nodes, report first n ≤ 0 := by
    intro n hn
    rcases hcases n hn with h | ⟨g, hg, h⟩
    · exact (arranged.inside _ hg0 first (List.mem_cons_self ..) n h).2.2
    · exact (hacross.1 g hg first (List.mem_cons_self ..) n h).1
  have hmem : first ∈ nodes := by
    rw [← hperm.mem_iff]
    exact List.mem_flatten_of_mem hg0 (List.mem_cons_self ..)
  rw [firstIno]
  cases hfind : nodes.find? fun f => nodes.all fun n => report f n ≤ 0 with
  | none =>
    have := List.find?_eq_none.mp hfind first hmem
    exact absurd (List.all_eq_true.mpr fun n hn => decide_eq_true (hleast n hn)) this
  | some f =>
    have hf := List.find?_some hfind
    have hback : report f first ≤ 0 := of_decide_eq_true (List.all_eq_true.mp hf first hmem)
    change f.imgIno = first.imgIno
    rcases hcases f (List.mem_of_find?_eq_some hfind) with h | ⟨g, hg, h⟩
    · exact (arranged.inside _ hg0 f h first (List.mem_cons_self ..)).2.1
    · exact ((hacross.1 g hg first (List.mem_cons_self ..) f h).2.2 hback).1.symm

theorem Arranged.standsFor_eq
    (hperm : groups.flatten.Perm nodes) (hfirst : groups = (first :: others) :: more)
    {g : List Ecma119Node} (hg : g ∈ groups) {a : Ecma119Node} (ha : a ∈ g) :
    standsFor report nodes a = familyIno first g := by
  obtain ⟨n, tail, rfl⟩ := List.exists_cons_of_ne_nil (arranged.ne g hg)
  have hother : (∃ m ∈ nodes, m.addr ≠ a.addr ∧ SameFamily report a m) ↔ tail ≠ [] := by
    constructor
    · rintro ⟨m, hm, haddr, hsame⟩ rfl
      obtain ⟨g', hg', hmg⟩ := List.mem_flatten.mp (hperm.mem_iff.mpr hm)
      rw [← (arranged.same_iff hg hg' ha hmg).mp hsame] at hmg
      rw [List.mem_singleton.mp hmg, List.mem_singleton.mp ha] at haddr
      exact haddr rfl
    · intro hne
      obtain ⟨m, tail, rfl⟩ := List.exists_cons_of_ne_nil hne
      have hnm : n.addr ≠ m.addr := by
        have hsub := (List.sublist_flatten_of_mem hg).map Ecma119Node.addr
        have := hsub.nodup arranged.addrs
        simp only [List.map_cons, List.nodup_cons, List.mem_cons, not_or] at this
        exact this.1.1
      have hin : ∀ b ∈ n :: m :: tail, b ∈ nodes ∧ SameFamily report a b := fun b hb =>
        ⟨hperm.mem_iff.mp (List.mem_flatten_of_mem hg hb),
          (arranged.same_iff hg hg ha hb).mpr rfl⟩
      by_cases heq : a.addr = n.addr
      · exact ⟨m, (hin m (by simp)).1, fun h => hnm (heq ▸ h.symm), (hin m (by simp)).2⟩
      · exact ⟨n, (hin n (by simp)).1, fun h => heq h.symm, (hin n (by simp)).2⟩
  have hino : a.imgIno = n.imgIno := (arranged.inside _ hg a ha n (List.mem_cons_self ..)).2.1
  simp only [standsFor, familyIno, hother, hino, arranged.firstIno_eq hperm hfirst]

/-- Of two nodes in different families the earlier one does not come later, or else both
are directories with the same number. -/
theorem Arranged.standsFor_of_back
    {before behind : List (List Ecma119Node)} {g g' : List Ecma119Node}
    (hgroups : groups = before ++ g :: behind) (hg' : g' ∈ behind) {a b : Ecma119Node}
    (ha : a ∈ g) (hb : b ∈ g') (hback : report b a ≤ 0) :
    standsFor report nodes a = standsFor report nodes b := by
  have hacross := arranged.across
  rw [hgroups, List.pairwise_append] at hacross
  obtain ⟨hino, hda, hdb⟩ := ((List.pairwise_cons.mp hacross.2.1).1 g' hg' a ha b hb).2.2 hback
  rw [standsFor_dir hda, standsFor_dir hdb, hino]

/-- The numbers of the families stand side by side if and only if the nodes which bring
the same number are neighbours. -/
theorem Arranged.sideBySide_iff
    (hperm : groups.flatten.Perm nodes) (hfirst : groups = (first :: others) :: more) :
    SideBySide (groups.map (familyIno first)) ↔
      ∀ x ∈ nodes, ∀ z ∈ nodes, ∀ y ∈ nodes, report x z ≤ 0 → report z y ≤ 0 →
        standsFor report nodes x = standsFor report nodes y →
        Accepted (standsFor report nodes x) →
        standsFor report nodes z = standsFor report nodes x := by
  have hstands : ∀ g ∈ groups, ∀ a ∈ g, standsFor report nodes a = familyIno first g :=
    fun g hg a ha => arranged.standsFor_eq hperm hfirst hg ha
  constructor
  · intro hside x hx z hz y hy hxz hzy heq hacc
    rw [← hperm.mem_iff, List.mem_flatten] at hx hz hy
    obtain ⟨gx, hgx, hx⟩ := hx
    obtain ⟨gz, hgz, hz⟩ := hz
    obtain ⟨gy, hgy, hy⟩ := hy
    obtain ⟨before, behind, hgroups⟩ := List.append_of_mem hgz
    have hplace : ∀ g ∈ groups, g ∈ before ∨ g = gz ∨ g ∈ behind := by
      intro g hg
      simpa [hgroups] using hg
    rcases hplace gx hgx with hbefore | rfl | hbehind
    · rcases hplace gy hgy with hbefore' | rfl | hbehind'
      · -- `z` is not before `y`, unless they tie
        obtain ⟨pre, post, rfl⟩ := List.append_of_mem hbefore'
        rw [heq, arranged.standsFor_of_back (by simpa using hgroups) (by simp) hy hz hzy]
      · rw [hstands _ hgz z hz, heq, hstands _ hgz y hy]
      · rw [hstands gx hgx x hx] at hacc ⊢
        rw [hstands gz hgz z hz]
        refine hside (before.map (familyIno first)) _ (behind.map (familyIno first))
          (by simp [hgroups]) _ hacc (List.mem_map_of_mem hbefore) ?_
        rw [← hstands gx hgx x hx, heq, hstands gy hgy y hy]
        exact List.mem_map_of_mem hbehind'
    · rw [hstands _ hgz z hz, hstands _ hgz x hx]
    · exact arranged.standsFor_of_back hgroups hbehind hz hx hxz
  · intro hneigh before b behind hsplit a hacc hbefore hbehind
    obtain ⟨before', rest, hgroups, hbefore', hrest⟩ := List.map_eq_append_iff.mp hsplit
    obtain ⟨gz, behind', rfl, rfl, hbehind'⟩ := List.map_eq_cons_iff.mp hrest
    rw [← hbefore'] at hbefore
    rw [← hbehind'] at hbehind
    obtain ⟨gx, hgx, hax⟩ := List.mem_map.mp hbefore
    obtain ⟨gy, hgy, hay⟩ := List.mem_map.mp hbehind
    have hx : gx ∈ groups := by simp [hgroups, hgx]
    have hz : gz ∈ groups := by simp [hgroups]
    have hy : gy ∈ groups := by simp [hgroups, hgy]
    obtain ⟨x, hxg⟩ := List.exists_mem_of_ne_nil gx (arranged.ne gx hx)
    obtain ⟨z, hzg⟩ := List.exists_mem_of_ne_nil gz (arranged.ne gz hz)
    obtain ⟨y, hyg⟩ := List.exists_mem_of_ne_nil gy (arranged.ne gy hy)
    have hin : ∀ g ∈ groups, ∀ n ∈ g, n ∈ nodes := fun g hg n hn =>
      hperm.mem_iff.mp (List.mem_flatten_of_mem hg hn)
    have hacross := arranged.across
    rw [hgroups, List.pairwise_append, List.pairwise_cons] at hacross
    obtain ⟨-, ⟨hzy, -⟩, hxz⟩ := hacross
    have := hneigh x (hin gx hx x hxg) z (hin gz hz z hzg) y (hin gy hy y hyg)
      (hxz gx hgx gz (List.mem_cons_self ..) x hxg z hzg).1 (hzy gy hgy z hzg y hyg).1
    rw [hstands gx hx x hxg, hstands gz hz z hzg, hstands gy hy y hyg, hax, hay] at this
    exact this rfl hacc

end Numbering

section Counting

variable {ι : Type} {report : Ecma119Node → Ecma119Node → Int} {ident : Ecma119Node → ι}
  {groups : List (List Ecma119Node)} {nodes : List Ecma119Node}
  {first : Ecma119Node} {others : List Ecma119Node} {more : List (List Ecma119Node)}

/-- The members of a family have one identity, different families have different ones. -/
theorem Arranged.idents (arranged : Arranged report ident groups) :
    ∃ idents : List ι, idents.length = groups.length ∧ idents.Nodup ∧
      ∀ i, i ∈ idents ↔ ∃ n ∈ groups.flatten, ident n = i := by
  obtain ⟨hne, hinside, hacross, -, -⟩ := arranged
  induction groups with
  | nil => exact ⟨[], rfl, List.nodup_nil, by simp⟩
  | cons g groups ih =>
    obtain ⟨hg, hgne⟩ := List.forall_mem_cons.mp hne
    obtain ⟨hgin, hin⟩ := List.forall_mem_cons.mp hinside
    obtain ⟨hcross, hrest⟩ := List.pairwise_cons.mp hacross
    obtain ⟨idents, hlen, hnodup, hmem⟩ := ih hgne hin hrest
    obtain ⟨a, ha⟩ := List.exists_mem_of_ne_nil g hg
    refine ⟨ident a :: idents, by simp [hlen], List.nodup_cons.mpr ⟨?_, hnodup⟩, ?_⟩
    · intro hin
      obtain ⟨b, hb, heq⟩ := (hmem (ident a)).mp hin
      obtain ⟨g', hg', hb⟩ := List.mem_flatten.mp hb
      exact (hcross g' hg' a ha b hb).2.1 heq.symm
    · intro i
      rw [List.mem_cons, hmem, List.flatten_cons]
      constructor
      · rintro (rfl | ⟨n, hn, heq⟩)
        · exact ⟨a, List.mem_append_left _ ha, rfl⟩
        · exact ⟨n, List.mem_append_right g hn, heq⟩
      · rintro ⟨n, hn, heq⟩
        rcases List.mem_append.mp hn with h | h
        · exact Or.inl (heq ▸ (hgin n h a ha).1)
        · exact Or.inr ⟨n, h, heq⟩

/-- Each element is related to a representative. -/
theorem pwFilter_cover {α : Type} (R : α → α → Prop) [DecidableRel R] (l : List α) :
    ∀ n ∈ l, ∃ m ∈ l.pwFilter (fun a b => ¬ R a b), n = m ∨ R n m := by
  induction l with
  | nil => simp
  | cons a l ih =>
    by_cases hnew : ∀ b ∈ l.pwFilter (fun a b => ¬ R a b), ¬ R a b
    · rw [List.pwFilter_cons_of_pos hnew]
      intro n hn
      rcases List.mem_cons.mp hn with rfl | h
      · exact ⟨n, List.mem_cons_self .., Or.inl rfl⟩
      · obtain ⟨m, hm, hrel⟩ := ih n h
        exact ⟨m, List.mem_cons_of_mem a hm, hrel⟩
    · rw [List.pwFilter_cons_of_neg hnew]
      intro n hn
      rcases List.mem_cons.mp hn with rfl | h
      · simp only [not_forall, not_not] at hnew
        obtain ⟨m, hm, hrel⟩ := hnew
        exact ⟨m, hm, Or.inr hrel⟩
      · exact ih n h

theorem Arranged.familyCount_eq (arranged : Arranged report ident groups)
    (hperm : groups.flatten.Perm nodes) : familyCount report nodes = groups.length := by
  obtain ⟨idents, hlen, hnodup, hmem⟩ := arranged.idents
  have hsame : ∀ a ∈ nodes, ∀ b ∈ nodes, SameFamily report a b ↔ ident a = ident b :=
    fun a ha b hb => arranged.same a (hperm.mem_iff.mpr ha) b (hperm.mem_iff.mpr hb)
  -- one representative for each family
  let reps := nodes.pwFilter fun a b => ¬ SameFamily report a b
  have hsub : ∀ n ∈ reps, n ∈ nodes := List.pwFilter_subset nodes
  have hcover : ∀ n ∈ nodes, ∃ m ∈ reps, ident m = ident n := by
    intro n hn
    obtain ⟨m, hm, rfl | hrel⟩ := pwFilter_cover (SameFamily report) nodes n hn
    · exact ⟨n, hm, rfl⟩
    · exact ⟨m, hm, ((hsame n hn m (hsub m hm)).mp hrel).symm⟩
  have hreps : (reps.map ident).Nodup := by
    rw [List.nodup_iff_pairwise_ne, List.pairwise_map]
    refine (List.pairwise_pwFilter nodes).imp_of_mem ?_
    intro a b ha hb hdiff heq
    exact hdiff ((hsame a (hsub a ha) b (hsub b hb)).mpr heq)
  have hperm' : (reps.map ident).Perm idents := by
    rw [List.perm_ext_iff_of_nodup hreps hnodup]
    intro i
    rw [hmem, List.mem_map]
    constructor
    · rintro ⟨n, hn, rfl⟩
      exact ⟨n, hperm.mem_iff.mpr (hsub n hn), rfl⟩
    · rintro ⟨n, hn, rfl⟩
      exact hcover n (hperm.mem_iff.mp hn)
  rw [← hlen, ← hperm'.length_eq, List.length_map]
  rfl

/-- If the accepted numbers stand side by side then each one spares a request. -/
theorem Arranged.requests_eq (arranged : Arranged report ident groups)
    (hperm : groups.flatten.Perm nodes) (hfirst : groups = (first :: others) :: more)
    (hnodup : (kept 0 (groups.map (familyIno first))).Nodup) :
    requests report nodes =
      (groups.map (familyIno first)).length - (kept 0 (groups.map (familyIno first))).length := by
  have hperm' : ((nodes.map (standsFor report nodes)).filter (Accepted ·)).dedup.Perm
      (kept 0 (groups.map (familyIno first))) := by
    rw [List.perm_ext_iff_of_nodup (List.nodup_dedup _) hnodup]
    intro i
    rw [List.mem_dedup, List.mem_filter, decide_eq_true_iff, List.mem_map]
    constructor
    · rintro ⟨⟨n, hn, rfl⟩, hacc⟩
      obtain ⟨g, hg, hng⟩ := List.mem_flatten.mp (hperm.mem_iff.mpr hn)
      rw [mem_kept_iff hacc hacc.1, arranged.standsFor_eq hperm hfirst hg hng]
      exact List.mem_map_of_mem hg
    · intro hi
      obtain ⟨hin, hacc⟩ := mem_kept hi
      obtain ⟨g, hg, rfl⟩ := List.mem_map.mp hin
      obtain ⟨n, hn⟩ := List.exists_mem_of_ne_nil g (arranged.ne g hg)
      exact ⟨⟨n, hperm.mem_iff.mp (List.mem_flatten_of_mem hg hn),
        arranged.standsFor_eq hperm hfirst hg hn⟩, hacc⟩
  rw [requests, arranged.familyCount_eq hperm, hperm'.length_eq, List.length_map]

end Counting

section Result

variable {ι : Type} {report : Ecma119Node → Ecma119Node → Int} {ident : Ecma119Node → ι}
  {groups : List (List Ecma119Node)} {nodes : List Ecma119Node} {inos : List Nat}

theorem SameFamily.numbered_iff (stable : Stable report) (a b : Ecma119Node) (i k j l : Nat) :
    SameFamily report { a with ino := i, nlink := k } { b with ino := j, nlink := l } ↔
      SameFamily report a b := by
  rw [SameFamily, SameFamily, stable.numbered]
  rfl

theorem SameFamily.report_eq (stable : Stable report) {a b : Ecma119Node}
    (hsame : SameFamily report a b) : report a b = 0 := by
  rcases hsame with haddr | ⟨-, -, hzero⟩
  · exact stable.self a b haddr
  · exact hzero

theorem mem_numberFamilies {n : Ecma119Node} :
    n ∈ numberFamilies groups inos ↔
      ∃ g ino, (g, ino) ∈ groups.zip inos ∧
        ∃ a ∈ g, n = { a with ino := ino, nlink := g.length } := by
  simp only [numberFamilies, numberFamily, List.mem_flatMap, List.mem_map, Prod.exists]
  constructor
  · rintro ⟨g, ino, hzip, a, ha, rfl⟩
    exact ⟨g, ino, hzip, a, ha, rfl⟩
  · rintro ⟨g, ino, hzip, a, ha, rfl⟩
    exact ⟨g, ino, hzip, a, ha, rfl⟩

/-- Only the numbers of the nodes change. -/
theorem countP_numberFamilies {p : Ecma119Node → Bool}
    (hp : ∀ a i k, p { a with ino := i, nlink := k } = p a) (hlen : inos.length = groups.length) :
    (numberFamilies groups inos).countP p = groups.flatten.countP p := by
  induction groups generalizing inos with
  | nil => simp [numberFamilies]
  | cons g groups ih =>
    obtain ⟨ino, inos, rfl⟩ : ∃ i rest, inos = i :: rest :=
      List.exists_cons_of_length_pos (by simp [hlen])
    have hrest := ih (Nat.succ.inj hlen)
    rw [numberFamilies, List.zip_cons_cons, List.flatMap_cons, List.countP_append,
      List.flatten_cons, List.countP_append, ← hrest]
    dsimp only [numberFamily, numberFamilies]
    rw [List.countP_map]
    congr 1
    exact List.countP_congr fun a _ => by simp [hp]

theorem Arranged.countP_family (arranged : Arranged report ident groups)
    {g : List Ecma119Node} (hg : g ∈ groups) {a : Ecma119Node} (ha : a ∈ g)
    {p : Ecma119Node → Bool} (hp : ∀ b ∈ groups.flatten, p b = true ↔ SameFamily report a b) :
    groups.flatten.countP p = g.length := by
  obtain ⟨before, behind, hgroups⟩ := List.append_of_mem hg
  have hother : ∀ l : List (List Ecma119Node), (∀ g' ∈ l, g' ∈ groups ∧ g ≠ g') →
      l.flatten.countP p = 0 := by
    intro l hl
    rw [List.countP_eq_zero]
    intro b hb hpb
    obtain ⟨g', hg', hbg⟩ := List.mem_flatten.mp hb
    obtain ⟨hin, hne⟩ := hl g' hg'
    exact hne ((arranged.same_iff hg hin ha hbg).mp
      ((hp b (List.mem_flatten_of_mem hin hbg)).mp hpb))
  have hall : g.countP p = g.length := by
    rw [List.countP_eq_length]
    intro b hb
    exact (hp b (List.mem_flatten_of_mem hg hb)).mpr ((arranged.same_iff hg hg ha hb).mpr rfl)
  have hnodup := arranged.nodup
  rw [hgroups, List.nodup_append, List.nodup_cons] at hnodup
  obtain ⟨-, ⟨hbehind, -⟩, hbefore⟩ := hnodup
  have hfront := hother before fun g' hg' =>
    ⟨by simp [hgroups, hg'], fun heq => hbefore g' hg' g (List.mem_cons_self ..) heq.symm⟩
  have hback := hother behind fun g' hg' =>
    ⟨by simp [hgroups, hg'], fun heq => hbehind (heq ▸ hg')⟩
  rw [hgroups, List.flatten_append, List.flatten_cons, List.countP_append, List.countP_append,
    hfront, hback, hall]
  omega

variable {first : Ecma119Node} {others : List Ecma119Node} {more : List (List Ecma119Node)}

variable (arranged : Arranged report ident groups)

include arranged

/-- The zip of families and numbers is a function. -/
theorem Arranged.zip_unique
    (hlen : inos.length = groups.length) :
    ∀ z ∈ groups.zip inos, ∀ z' ∈ groups.zip inos, z.1 = z'.1 → z = z' := by
  have hfst : (groups.zip inos).map Prod.fst = groups := List.map_fst_zip hlen.ge
  intro z hz z' hz' heq
  exact List.inj_on_of_nodup_map (hfst.symm ▸ arranged.nodup) hz hz' heq

/-- Families have different numbers if and only if the numbers tell the families. -/
theorem Arranged.nodup_iff (stable : Stable report)
    (hlen : inos.length = groups.length) :
    inos.Nodup ↔
      (∀ a ∈ numberFamilies groups inos, ∀ b ∈ numberFamilies groups inos, a.type ≠ .dir →
        b.type ≠ .dir → (a.ino = b.ino ↔ report a b = 0)) ∧
      (∀ a ∈ numberFamilies groups inos, a.type = .dir → ∀ b ∈ numberFamilies groups inos,
        b.ino = a.ino → b.addr = a.addr) := by
  have hfst : (groups.zip inos).map Prod.fst = groups := List.map_fst_zip hlen.ge
  have hsnd : (groups.zip inos).map Prod.snd = inos := List.map_snd_zip hlen.le
  have hin : ∀ {z}, z ∈ groups.zip inos → z.1 ∈ groups := fun hz => (List.of_mem_zip hz).1
  have hfun := arranged.zip_unique hlen
  constructor
  · intro hnodup
    have hinj : ∀ z ∈ groups.zip inos, ∀ z' ∈ groups.zip inos, z.2 = z'.2 → z = z' := by
      intro z hz z' hz' heq
      exact List.inj_on_of_nodup_map (hsnd.symm ▸ hnodup) hz hz' heq
    constructor
    · intro a ha b hb hda hdb
      obtain ⟨g, i, hz, a, hag, rfl⟩ := mem_numberFamilies.mp ha
      obtain ⟨g', j, hz', b, hbg, rfl⟩ := mem_numberFamilies.mp hb
      rw [stable.numbered]
      constructor
      · intro heq
        obtain ⟨rfl, -⟩ := Prod.mk.inj (hinj _ hz _ hz' heq)
        exact ((arranged.same_iff (hin hz) (hin hz) hag hbg).mpr rfl).report_eq stable
      · intro hzero
        have hsame : SameFamily report a b := Or.inr ⟨hda, hdb, hzero⟩
        obtain rfl := (arranged.same_iff (hin hz) (hin hz') hag hbg).mp hsame
        exact congrArg Prod.snd (hfun _ hz _ hz' rfl)
    · intro a ha hda b hb heq
      obtain ⟨g, i, hz, a, hag, rfl⟩ := mem_numberFamilies.mp ha
      obtain ⟨g', j, hz', b, hbg, rfl⟩ := mem_numberFamilies.mp hb
      obtain ⟨rfl, -⟩ := Prod.mk.inj (hinj _ hz' _ hz heq)
      rcases (arranged.same_iff (hin hz) (hin hz) hag hbg).mpr rfl with haddr | hsame
      · exact haddr.symm
      · exact absurd hda hsame.1
  · rintro ⟨hinos, hdirs⟩
    rw [← hsnd]
    have hnodup : (groups.zip inos).Nodup := List.Nodup.of_map Prod.fst (hfst.symm ▸ arranged.nodup)
    refine List.Nodup.map_on ?_ hnodup
    rintro ⟨g, i⟩ hz ⟨g', j⟩ hz' heq
    obtain ⟨a, hag⟩ := List.exists_mem_of_ne_nil g (arranged.ne g (hin hz))
    obtain ⟨b, hbg⟩ := List.exists_mem_of_ne_nil g' (arranged.ne g' (hin hz'))
    have ha := mem_numberFamilies.mpr ⟨g, i, hz, a, hag, rfl⟩
    have hb := mem_numberFamilies.mpr ⟨g', j, hz', b, hbg, rfl⟩
    have hsame : SameFamily report a b := by
      by_cases hda : a.type = .dir
      · exact Or.inl (hdirs _ ha hda _ hb heq.symm).symm
      · by_cases hdb : b.type = .dir
        · have haddr := hdirs _ hb hdb _ ha heq
          exact Or.inl haddr
        · have hzero := (hinos _ ha _ hb hda hdb).mp heq
          rw [stable.numbered] at hzero
          exact Or.inr ⟨hda, hdb, hzero⟩
    exact hfun _ hz _ hz' ((arranged.same_iff (hin hz) (hin hz') hag hbg).mp hsame)

/-- A number which only one family brings is taken over if it fits into 32 bits. -/
theorem Arranged.keeps_number
    (hfirst : groups = (first :: others) :: more) {image image' : IsoImage}
    (hout : handOut image 0 (groups.map (familyIno first)) = some (inos, image'))
    {g : List Ecma119Node} {ino : Nat} (hz : (g, ino) ∈ groups.zip inos) {a : Ecma119Node}
    (ha : a ∈ g) (hacc : Accepted a.imgIno)
    (hown : ∀ b ∈ groups.flatten, b.imgIno = a.imgIno → SameFamily report a b) :
    ino = a.imgIno := by
  have hg : g ∈ groups := (List.of_mem_zip hz).1
  obtain ⟨before, behind, hgroups⟩ := List.append_of_mem hg
  have hbring : ∀ g' ∈ groups, ∀ n ∈ g', n.imgIno = a.imgIno → g' = g := by
    intro g' hg' n hn heq
    exact ((arranged.same_iff hg hg' ha hn).mp
      (hown n (List.mem_flatten_of_mem hg' hn) heq)).symm
  have hnodup := arranged.nodup
  rw [hgroups, List.nodup_append] at hnodup
  have hdisjoint : g ∉ before := fun h => hnodup.2.2 g h g (List.mem_cons_self ..) rfl
  -- the family of the first node of all does not stand behind another one
  have hnew : a.imgIno ∉ 0 :: before.map (familyIno first) := by
    rw [List.mem_cons, List.mem_map]
    rintro (hzero | ⟨g', hg', heq⟩)
    · exact hacc.1 hzero
    · have hin : g' ∈ groups := by simp [hgroups, hg']
      obtain ⟨n, tail, rfl⟩ := List.exists_cons_of_ne_nil (arranged.ne g' hin)
      rw [familyIno] at heq
      split at heq
      · have hg0 := hbring (first :: others) (hfirst ▸ List.mem_cons_self ..) first
          (List.mem_cons_self ..) heq
        rcases before with _ | ⟨g1, before⟩
        · exact absurd hg' List.not_mem_nil
        · rw [hfirst, List.cons_append, List.cons.injEq] at hgroups
          exact hdisjoint (by rw [← hg0, hgroups.1]; exact List.mem_cons_self ..)
      · exact hdisjoint (hbring _ hin n (List.mem_cons_self ..) heq ▸ hg')
  have hino : familyIno first g = a.imgIno := by
    obtain ⟨n, tail, rfl⟩ := List.exists_cons_of_ne_nil (arranged.ne g hg)
    have hn := (arranged.inside _ hg a ha n (List.mem_cons_self ..)).2.1
    rw [familyIno, if_neg, hn]
    rintro ⟨hzero, -⟩
    exact hacc.1 (hn.trans hzero)
  have hcount := handOut_length hout
  rw [List.length_map] at hcount
  rw [hgroups, List.map_append, List.map_cons, hino] at hout
  obtain ⟨front, back, rfl, hlen⟩ := handOut_takes hout hacc hnew
  rw [List.length_map] at hlen
  have htaken : (g, a.imgIno) ∈ groups.zip (front ++ a.imgIno :: back) := by
    rw [hgroups, List.zip_append hlen.symm, List.zip_cons_cons]
    simp
  exact congrArg Prod.snd (arranged.zip_unique hcount _ hz _ htaken rfl)

/-- The families are right if and only if their numbers differ and those numbers which
are brought by one family only fit into 32 bits. -/
theorem Arranged.right_iff (stable : Stable report)
    (hperm : groups.flatten.Perm nodes) (hfirst : groups = (first :: others) :: more)
    {image image' : IsoImage}
    (hout : handOut image 0 (groups.map (familyIno first)) = some (inos, image')) :
    FamiliesRight report (numberFamilies groups inos) ↔
      inos.Nodup ∧ ∀ a ∈ nodes, (∀ b ∈ nodes, b.imgIno = a.imgIno → SameFamily report a b) →
        a.imgIno ≤ 0xffffffff := by
  have hlen := handOut_length hout
  rw [List.length_map] at hlen
  have hfst : (groups.zip inos).map Prod.fst = groups := List.map_fst_zip hlen.ge
  -- the array with the new numbers and the nodes as they entered
  have hback : ∀ a ∈ nodes, ∃ g ino, (g, ino) ∈ groups.zip inos ∧ a ∈ g ∧
      { a with ino := ino, nlink := g.length } ∈ numberFamilies groups inos := by
    intro a ha
    obtain ⟨g, hg, hag⟩ := List.mem_flatten.mp (hperm.mem_iff.mpr ha)
    rw [← hfst] at hg
    obtain ⟨⟨g, ino⟩, hz, rfl⟩ := List.mem_map.mp hg
    exact ⟨g, ino, hz, hag, mem_numberFamilies.mpr ⟨g, ino, hz, a, hag, rfl⟩⟩
  have hforth : ∀ {g ino} {a : Ecma119Node}, (g, ino) ∈ groups.zip inos → a ∈ g → a ∈ nodes :=
    fun hz ha => hperm.mem_iff.mp (List.mem_flatten_of_mem (List.of_mem_zip hz).1 ha)
  rw [arranged.nodup_iff stable hlen]
  constructor
  · rintro ⟨hinos, -, hkeeps, hdirs⟩
    refine ⟨⟨hinos, hdirs⟩, fun a ha hown => ?_⟩
    by_contra hlarge
    obtain ⟨g, ino, hz, hag, hnew⟩ := hback a ha
    have hkept : ino = a.imgIno := by
      refine hkeeps _ hnew (fun hzero => hlarge (hzero.le.trans (Nat.zero_le _))) ?_
      intro b hb heq
      obtain ⟨g', j, hz', b, hbg, rfl⟩ := mem_numberFamilies.mp hb
      rw [SameFamily.numbered_iff stable]
      exact hown b (hforth hz' hbg) heq
    have hsmall := handOut_le hout ino (List.of_mem_zip hz).2
    exact hlarge (hkept ▸ hsmall)
  · rintro ⟨⟨hinos, hdirs⟩, hrange⟩
    refine ⟨hinos, ?_, ?_, hdirs⟩
    · intro a ha hda
      obtain ⟨g, ino, hz, a, hag, rfl⟩ := mem_numberFamilies.mp ha
      have hg := (List.of_mem_zip hz).1
      have hreport : ∀ b, report { a with ino := ino, nlink := g.length } b = report a b :=
        fun b => stable.numbered a b _ _ b.ino b.nlink
      simp only [hreport]
      rw [countP_numberFamilies _ hlen]
      · refine (arranged.countP_family hg hag ?_).symm
        intro b hb
        rw [decide_eq_true_iff]
        constructor
        · exact fun hb => Or.inr ⟨hda, hb⟩
        · intro hsame
          refine ⟨?_, hsame.report_eq stable⟩
          rcases hsame with haddr | hsame
          · rw [← arranged.eq_of_addr (List.mem_flatten_of_mem hg hag) hb haddr]
            exact hda
          · exact hsame.2.1
      · intro b i k
        rw [show report a { b with ino := i, nlink := k } = report a b from
          stable.numbered a b a.ino a.nlink i k]
        rfl
    · intro a ha hne hown
      obtain ⟨g, ino, hz, a, hag, rfl⟩ := mem_numberFamilies.mp ha
      have hown' : ∀ b ∈ nodes, b.imgIno = a.imgIno → SameFamily report a b := by
        intro b hb heq
        obtain ⟨g', j, hz', hbg, hnew⟩ := hback b hb
        exact (SameFamily.numbered_iff stable a b _ _ _ _).mp (hown _ hnew heq)
      change ino = a.imgIno
      refine arranged.keeps_number hfirst hout hz hag ⟨hne, hrange a (hforth hz hag) hown'⟩ ?_
      exact fun b hb => hown' b (hperm.mem_iff.mp hb)

/-- The numbers which the loop hands out differ if and only if the accepted ones stand side
by side and the given ones are new. -/
theorem Arranged.numbers_nodup_iff
    (hperm : groups.flatten.Perm nodes) (hfirst : groups = (first :: others) :: more)
    {image image' : IsoImage}
    (hout : handOut image 0 (groups.map (familyIno first)) = some (inos, image')) :
    inos.Nodup ↔
      SideBySide (groups.map (familyIno first)) ∧
      ∀ given image', giveInoNumbers (requests report nodes) image = some (given, image') →
        given.Nodup ∧
        ∀ n ∈ nodes, Accepted (standsFor report nodes n) → standsFor report nodes n ∉ given := by
  obtain ⟨given, hgiven, hnumbers⟩ := handOut_perm hout
  rw [hnumbers.nodup_iff, List.nodup_append', kept_nodup_iff]
  have hbrought : ∀ i, i ∈ kept 0 (groups.map (familyIno first)) ↔
      ∃ n ∈ nodes, Accepted (standsFor report nodes n) ∧ standsFor report nodes n = i := by
    intro i
    constructor
    · intro hi
      obtain ⟨hin, hacc⟩ := mem_kept hi
      obtain ⟨g, hg, rfl⟩ := List.mem_map.mp hin
      obtain ⟨n, hn⟩ := List.exists_mem_of_ne_nil g (arranged.ne g hg)
      have hstands := arranged.standsFor_eq hperm hfirst hg hn
      exact ⟨n, hperm.mem_iff.mp (List.mem_flatten_of_mem hg hn), hstands.symm ▸ hacc, hstands⟩
    · rintro ⟨n, hn, hacc, rfl⟩
      obtain ⟨g, hg, hng⟩ := List.mem_flatten.mp (hperm.mem_iff.mpr hn)
      rw [mem_kept_iff hacc hacc.1, arranged.standsFor_eq hperm hfirst hg hng]
      exact List.mem_map_of_mem hg
  constructor
  · rintro ⟨hside, hnew, hdisjoint⟩
    refine ⟨hside, fun given' image2 hgiven' => ?_⟩
    rw [arranged.requests_eq hperm hfirst ((kept_nodup_iff _).mpr hside), hgiven,
      Option.some.injEq, Prod.mk.injEq] at hgiven'
    obtain ⟨rfl, -⟩ := hgiven'
    exact ⟨hnew, fun n hn hacc => hdisjoint ((hbrought _).mpr ⟨n, hn, hacc, rfl⟩)⟩
  · rintro ⟨hside, hfresh⟩
    rw [arranged.requests_eq hperm hfirst ((kept_nodup_iff _).mpr hside)] at hfresh
    obtain ⟨hnew, hother⟩ := hfresh given image' hgiven
    refine ⟨hside, hnew, fun i hi => ?_⟩
    obtain ⟨n, hn, hacc, rfl⟩ := (hbrought i).mp hi
    exact hother n hn hacc

end Result

theorem stable_reportHard (h : NodeHeap) (ranks : Ranks) : Stable (reportHard h ranks) where
  numbered _ _ _ _ _ _ := rfl
  self a b heq := by rw [reportHard, ecma119NodeCmpHard, ecma119NodeCmpFlag, if_pos heq]

/-- After match_hardlinks() with hard links enabled the families are right if and only if
the accepted image numbers and the given ones fit. -/
theorem match_hardlinks_right_iff {h : NodeHeap} {dir : Ecma119Tree}
    (proper : Proper h (makeNodeArray dir)) {qsort : RecordingQsort} {image image' : IsoImage}
    {ranks ranks' : Ranks} {out : List Ecma119Node}
    (hrun : matchHardlinks qsort h.objects.classAddr true image ranks dir =
      some (out, image', ranks')) :
    FamiliesRight (reportHard h ranks') out ↔
      NumbersFit (reportHard h ranks') image (makeNodeArray dir) := by
  obtain ⟨hgrow, hsorted⟩ := sorted_nodes proper qsort ranks
  have hperm := qsort.perm (ecma119NodeCmpHard h.objects.classAddr) (makeNodeArray dir) ranks
  rw [matchHardlinks] at hrun
  simp only [if_true] at hrun
  cases hnodes :
      (qsort.run (ecma119NodeCmpHard h.objects.classAddr) (makeNodeArray dir) ranks).1 with
  | nil =>
    rw [hnodes] at hperm
    cases dir with
    | mk self children => exact absurd hperm.length_eq (by simp [makeNodeArray])
  | cons first rest =>
    rw [hnodes] at hperm hsorted hrun
    have hmem : ∀ n ∈ first :: rest, n ∈ makeNodeArray dir := fun n hn => hperm.mem_iff.mp hn
    have hone : first.imgIno = familyIno first [first] := by simp [familyIno]
    simp only at hrun
    rw [hone] at hrun
    obtain ⟨hgrow', groups, inos, hgroups, hout, rfl⟩ := matchLoop_spec proper (by simp)
      (hmem first (List.mem_cons_self ..)) (fun n hn => hmem n (List.mem_cons_of_mem first hn)) hrun
    have arranged : Arranged (reportHard h ranks') (memberKey h ranks') groups :=
      (grouped_of_sorted proper hperm (fun final hfinal => hsorted final (hgrow'.trans hfinal))
        hgroups).arranged
    obtain ⟨others, more, hhead⟩ := families_head (sameKey h ranks') first [] first rest
    have hfirst : groups = (first :: others) :: more := by
      rw [← hgroups ranks' List.prefix_rfl, hhead]
    have hflat : groups.flatten.Perm (makeNodeArray dir) := by
      rw [← hgroups ranks' List.prefix_rfl, families_flatten]
      exact hperm
    rw [arranged.right_iff (stable_reportHard h ranks') hflat hfirst hout,
      arranged.numbers_nodup_iff hflat hfirst hout, arranged.sideBySide_iff hflat hfirst]
    constructor
    · rintro ⟨⟨hneigh, hfresh⟩, hrange⟩
      exact ⟨hneigh, hrange, hfresh⟩
    · rintro ⟨hneigh, hrange, hfresh⟩
      exact ⟨⟨hneigh, hfresh⟩, hrange⟩

/-- A loaded directory tree with two directories, and two names of one local file. -/
def sharedFile (addr : Nat) : IsoNode where
  addr := addr
  body := .file (.plain (addr + 10) 100 (.fsrc ⟨1, none⟩ 8 4711))
  mode := 0o100644
  uid := 0
  gid := 0
  atime := 0
  mtime := 0
  ctime := 0
  inoXinfo := none
  aaXinfo := none

def loadedDir (addr ino : Nat) : IsoNode where
  addr := addr
  body := .dir
  mode := 0o40755
  uid := 0
  gid := 0
  atime := 0
  mtime := 0
  ctime := 0
  inoXinfo := some ino
  aaXinfo := none

def ecma119 (node : IsoNode) : Ecma119Node := ⟨node.addr, node, 0, 1⟩

def loadedHeap : NodeHeap where
  objects :=
    { classAddr := fun c => c.ctorIdx
      classAddr_injective := IsoStreamIface.ctorIdx_injective
      stream := fun a => some (.plain a 100 (.fsrc ⟨1, none⟩ 8 4711))
      command := fun _ => none }
  node := fun a => if a ≤ 2 then some (loadedDir a a) else some (sharedFile a)

def loadedTree : Ecma119Tree :=
  .mk (ecma119 (loadedDir 1 1))
    [.mk (ecma119 (loadedDir 2 2)) [], .mk (ecma119 (sharedFile 3)) [],
      .mk (ecma119 (sharedFile 4)) []]

def loadedImage : IsoImage where
  root := loadedDir 1 1
  children := [.dir (loadedDir 2 2) [], .other (sharedFile 3), .other (sharedFile 4)]
  inodeCounter := 2
  usedInodes := none
  usedInodesStart := 0
  memory := fun _ => true

/-- The array after match_hardlinks(). -/
def loadedResult : List Ecma119Node :=
  [⟨1, loadedDir 1 1, 1, 1⟩, ⟨2, loadedDir 2 2, 2, 1⟩, ⟨3, sharedFile 3, 1, 2⟩,
    ⟨4, sharedFile 4, 1, 2⟩]

theorem loadedTree_proper : Proper loadedHeap (makeNodeArray loadedTree) where
  live := by
    have hdirs : ∀ a, a ≤ 2 → (loadedDir a a).Live loadedHeap := fun a ha =>
      ⟨if_pos ha, by rintro stream ⟨⟩⟩
    have hfiles : ∀ a, 2 < a → (sharedFile a).Live loadedHeap := fun a ha =>
      ⟨if_neg (Nat.not_le.mpr ha), by rintro stream ⟨⟩; rfl⟩
    have harray : makeNodeArray loadedTree = [ecma119 (loadedDir 1 1), ecma119 (loadedDir 2 2),
        ecma119 (sharedFile 3), ecma119 (sharedFile 4)] := rfl
    intro n hn
    simp only [harray, List.mem_cons, List.not_mem_nil, or_false] at hn
    rcases hn with rfl | rfl | rfl | rfl
    · exact hdirs 1 (by decide)
    · exact hdirs 2 (by decide)
    · exact hfiles 3 (by decide)
    · exact hfiles 4 (by decide)
  addrs := by decide

theorem loadedTree_run :
    matchHardlinks insertionQsort loadedHeap.objects.classAddr true loadedImage [] loadedTree =
      some (loadedResult, loadedImage, []) := rfl

theorem match_hardlinks_right_iff_loaded :
    FamiliesRight (reportHard loadedHeap []) loadedResult ↔
      NumbersFit (reportHard loadedHeap []) loadedImage (makeNodeArray loadedTree) :=
  match_hardlinks_right_iff loadedTree_proper loadedTree_run

/-- A family of new files gets the number of the root directory. -/
theorem root_number_shared :
    ¬ ∀ (h : NodeHeap) (dir : Ecma119Tree), Proper h (makeNodeArray dir) →
      ∀ qsort image ranks out image' ranks',
        matchHardlinks qsort h.objects.classAddr true image ranks dir = some (out, image', ranks') →
          FamiliesRight (reportHard h ranks') out := by
  intro hall
  have hright := hall loadedHeap loadedTree loadedTree_proper insertionQsort loadedImage [] _ _ _
    loadedTree_run
  have haddr := hright.dirs ⟨1, loadedDir 1 1, 1, 1⟩ (by simp [loadedResult]) rfl
    ⟨3, sharedFile 3, 1, 2⟩ (by simp [loadedResult]) rfl
  exact absurd haddr (by decide)

end HardLinks
