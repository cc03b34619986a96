import Libisofs.RbTreeMemory
import Mathlib.Data.Int.Order.Basic

/-!
# Insertion into the red-black tree

The invariant of the walk of iso_rbtree_insert(), and what it makes of the tree. Three steps of
the loop are of interest: a plain one, a flip without and a flip with red violation. After a
rotation the helper pointers of the walk do not match the tree any more, but then there cannot be
another red violation before they match again.
-/

namespace RbTreeInsert

open RbTree RbTreeMemory RedBlack

universe u
variable {α : Type u}

/-- What the comments in util_rbtree.c demand of a comparison function. -/
structure TotalPreorder (compare : α → α → Int) : Prop where
  swap : ∀ x y, compare x y < 0 ↔ 0 < compare y x
  trans : ∀ x y z, compare x y ≤ 0 → compare y z ≤ 0 → compare x z ≤ 0

theorem TotalPreorder.refl {compare : α → α → Int} (order : TotalPreorder compare) (x : α) :
    compare x x = 0 := by
  have h := order.swap x x
  omega

theorem TotalPreorder.lt_trans {compare : α → α → Int} (order : TotalPreorder compare)
    {x y z : α} (hxy : compare x y < 0) (hyz : compare y z ≤ 0) : compare x z < 0 := by
  by_contra h
  have hzx : compare z x ≤ 0 := by
    have hswap := order.swap z x
    have hswap' := order.swap x z
    omega
  have hyx := order.trans y z x hyz hzx
  have hswap := order.swap x y
  omega

variable (compare : α → α → Int)

/-- What a tree object is to be: a sorted red-black tree with black root. -/
structure Shaped (T : IsoRBTree α) (t : ColorTree (Nat × α)) : Prop where
  root : T.root = ptr t
  stores : Stores T.mem t
  balanced : t.Balanced
  black : t.isRed = false
  sorted : t.inorder.Pairwise (fun x y => compare x.2 y.2 < 0)
  nodup : (addrs t).Nodup
  bound : ∀ a ∈ addrs t, a < T.mem.next
  size : T.size = t.inorder.length

section Walks

variable (data : α)

/-- All nodes on the way differ from the searched one and were left in its direction. -/
def Toward (fs : List (Frame (Nat × α))) : Prop :=
  ∀ f ∈ fs, compare f.label.2 data ≠ 0 ∧ f.dir = decide (compare f.label.2 data < 0)

/-- The variables of the walk besides `t` match the way. -/
structure Matches (w : Walk α) (fs : List (Frame (Nat × α))) (s : ColorTree (Nat × α)) : Prop where
  q : w.q = ptr s
  p : w.p = owner fs
  g : w.g = owner fs.tail
  dir : ∀ f ∈ fs.head?, w.dir = f.dir
  last : ∀ f ∈ fs.tail.head?, w.last = f.dir

/-- The memory holds the way and the subtree. `L` is what the tree lists. -/
structure Held (m : Memory α) (L : List (Nat × α)) (fs : List (Frame (Nat × α)))
    (s : ColorTree (Nat × α)) : Prop where
  way : StoresWay m fs (ptr s)
  sub : Stores m s
  lists : (plug fs s).inorder = L
  balanced : (plug fs s).Balanced

def childToward : ColorTree (Nat × α) → ColorTree (Nat × α)
  | .leaf => .leaf
  | .node _ b ch => ch (decide (compare b.2 data < 0))

/-- The root will be neither flipped nor rotated. -/
def RootSafe : List (Frame (Nat × α)) → ColorTree (Nat × α) → Prop
  | [], s =>
    s.fourfold = false ∧
      ((childToward compare data s).isRed = true →
        (childToward compare data (childToward compare data s)).fourfold = false)
  | [_], s => s.isRed = true → (childToward compare data s).fourfold = false
  | [p, _], s => p.red = true → s.fourfold = false
  | _, _ => True

/-- The root is still the one of the beginning. -/
structure RootKept (root : Option Nat) (fs : List (Frame (Nat × α)))
    (s : ColorTree (Nat × α)) : Prop where
  same : ptr (plug fs s) = root
  black : (plug fs s).isRed = false
  safe : RootSafe compare data fs s

end Walks

section Ends

variable {compare : α → α → Int} {memory : Bool} {tree : IsoRBTree α} {data : α}
  {m : Memory α} {L : List (Nat × α)} {fs : List (Frame (Nat × α))} {s t : ColorTree (Nat × α)}

/-- How an insertion into a tree which lists `L` may end. A failed one is followed up only if
`U` holds. -/
inductive Outcome (compare : α → α → Int) (memory : Bool) (data : α) (L : List (Nat × α))
    (U : Prop) (r : Returned α) : Prop where
  | present (b : Nat × α) (mem : b ∈ L) (equal : compare b.2 data = 0) (ret : r.ret = 0)
      (item : r.item = some b.2) (t : ColorTree (Nat × α)) (shaped : Shaped compare r.tree t)
      (same : t.inorder = L)
  | inserted (new : ∀ b ∈ L, compare b.2 data ≠ 0) (ret : r.ret = 1)
      (item : r.item = some data) (t : ColorTree (Nat × α)) (shaped : Shaped compare r.tree t)
      (n : Nat) (pre post : List (Nat × α)) (split : L = pre ++ post)
      (grown : t.inorder = pre ++ (n, data) :: post)
  | failed (noMemory : memory = false) (new : ∀ b ∈ L, compare b.2 data ≠ 0)
      (ret : r.ret = isoOutOfMem) (item : r.item = none)
      (kept : U → ∃ t, Shaped compare r.tree t ∧ t.inorder = L)

/-- What the list of a tree must be so that the tree can be finished. -/
structure Listable (compare : α → α → Int) (m : Memory α) (L : List (Nat × α)) : Prop where
  sorted : L.Pairwise (fun x y => compare x.2 y.2 < 0)
  nodup : (L.map Prod.fst).Nodup
  bound : ∀ b ∈ L, b.1 < m.next

theorem Listable.nodup_way {m' : Memory α} (listable : Listable compare m L)
    (held : Held m' L fs s) :
    (addrs s ++ wayAddrs fs).Nodup := by
  refine RbTreeMemory.nodup_way ?_
  rw [addrs, held.lists]
  exact listable.nodup

theorem Listable.of_next {m' : Memory α} (listable : Listable compare m L)
    (next : m.next ≤ m'.next) : Listable compare m' L :=
  ⟨listable.sorted, listable.nodup, fun b hb => Nat.lt_of_lt_of_le (listable.bound b hb) next⟩

/-- The end of the search at a tree which is in the memory below the false root. -/
theorem finish_shaped {x : α} {added : Bool} (held : Held m L [] t)
    (listable : Listable compare m L) (hne : L ≠ [])
    (size : (if added then tree.size + 1 else tree.size) = L.length) :
    ∃ r, finish tree m (m.ch none true) x added = .returned r ∧
      r.ret = (if added then 1 else 0) ∧ r.item = some x ∧
      Shaped compare r.tree (t.paint false) := by
  have hlists : t.inorder = L := held.lists
  have hroot : m.ch none true = ptr t := held.way
  have hbalanced : t.Balanced := held.balanced
  cases t with
  | leaf => exact absurd hlists.symm hne
  | node red b ch =>
    have hnodup : (addrs (.node red b ch)).Nodup := by
      rw [addrs, hlists]
      exact listable.nodup
    rw [hroot, ptr, finish]
    refine ⟨_, rfl, rfl, rfl, rfl, stores_paint held.sub hnodup, hbalanced.paint_false, rfl,
      ?_, ?_, ?_, ?_⟩
    · rw [ColorTree.inorder_paint, hlists]
      exact listable.sorted
    · rwa [addrs, ColorTree.inorder_paint]
    · intro a ha
      rw [addrs, ColorTree.inorder_paint, hlists] at ha
      obtain ⟨c, hc, rfl⟩ := List.mem_map.mp ha
      exact listable.bound c hc
    · rw [ColorTree.inorder_paint, hlists]
      exact size

theorem Held.whole (held : Held m L fs s) : Held m L [] (plug fs s) :=
  let whole := (stores_plug fs s).mpr ⟨held.way, held.sub⟩
  ⟨whole.1, whole.2, held.lists, held.balanced⟩

theorem Held.label_mem {red : Bool} {b : Nat × α} {ch : Bool → ColorTree (Nat × α)}
    (held : Held m L fs (.node red b ch)) : b ∈ L := by
  rw [← held.lists, inorder_plug]
  refine List.mem_append_left _ (List.mem_append_right _ ?_)
  exact List.mem_append_right _ List.mem_cons_self

theorem Held.data_eq {red : Bool} {b : Nat × α} {ch : Bool → ColorTree (Nat × α)}
    (held : Held m L fs (.node red b ch)) : m.data b.1 = some b.2 :=
  held.sub.1.data

variable {w : Walk α} {red : Bool} {b : Nat × α} {ch : Bool → ColorTree (Nat × α)} {U : Prop}

/-- The frame of the node from which the walk goes on. -/
def nextFrame (compare : α → α → Int) (data : α) (red : Bool) (b : Nat × α)
    (ch : Bool → ColorTree (Nat × α)) : Frame (Nat × α) :=
  ⟨decide (compare b.2 data < 0), red, b, ch (!decide (compare b.2 data < 0))⟩

/-- The walk as it goes on from the node. -/
def nextWalk (compare : α → α → Int) (data : α) (w : Walk α) (m : Memory α) (b : Nat × α) :
    Walk α where
  mem := m
  t := if w.g = none then w.t else w.g
  g := w.p
  p := some b.1
  q := m.ch (some b.1) (decide (compare b.2 data < 0))
  dir := decide (compare b.2 data < 0)
  last := w.dir

theorem Held.next (compare : α → α → Int) (data : α) (held : Held m L fs (.node red b ch)) :
    Held m L (nextFrame compare data red b ch :: fs)
      (ch (decide (compare b.2 data < 0))) := by
  have hfill := fill_child red b ch (decide (compare b.2 data < 0))
  refine ⟨⟨?_, held.sub.2 _, held.way⟩, held.sub.2 _, ?_, ?_⟩
  · refine ⟨held.sub.1.data, held.sub.1.red, fun d => (held.sub.1.ch d).trans ?_⟩
    cases d <;> cases h : decide (compare b.2 data < 0) <;> simp [nextFrame, h]
  · rw [plug, nextFrame, hfill]
    exact held.lists
  · rw [plug, nextFrame, hfill]
    exact held.balanced

theorem Toward.next (toward : Toward compare data fs) (differ : compare b.2 data ≠ 0) :
    Toward compare data (nextFrame compare data red b ch :: fs) :=
  List.forall_mem_cons.mpr ⟨⟨differ, rfl⟩, toward⟩

theorem matches_next (compare : α → α → Int) (data : α)
    (held : Held m L fs (.node red b ch)) (hp : w.p = owner fs)
    (hdir : ∀ f ∈ fs.head?, w.dir = f.dir) :
    Matches (nextWalk compare data w m b) (nextFrame compare data red b ch :: fs)
      (ch (decide (compare b.2 data < 0))) where
  q := held.sub.1.ch _
  p := rfl
  g := hp
  dir := fun _ hf => by rw [← Option.some.inj hf]; rfl
  last := hdir

/-- After the upper part of the loop: the node at `q` has become red. -/
structure Reddened (m : Memory α) (L : List (Nat × α)) (fs : List (Frame (Nat × α)))
    (b : Nat × α) (ch : Bool → ColorTree (Nat × α)) : Prop where
  way : StoresWay m fs (some b.1)
  sub : Stores m (.node true b ch)
  lists : (plug fs (.node true b ch)).inorder = L
  balanced : (ColorTree.node true b ch).Balanced
  fits : Fits fs (ColorTree.node true b ch).rank false

/-- A red parent can be rotated. -/
def Rotatable (fs : List (Frame (Nat × α))) : Prop :=
  ∀ f ∈ fs.head?, f.red = true → ∃ g ∈ fs.tail.head?, g.sibling.isRed = false

/-- What the fix of a red violation does. -/
inductive Fixed (L : List (Nat × α)) (b : Nat × α) (ch : Bool → ColorTree (Nat × α))
    (m' : Memory α) : List (Frame (Nat × α)) → Prop where
  | nothing {fs : List (Frame (Nat × α))} (black : ∀ f ∈ fs.head?, f.red = false)
      (held : Held m' L fs (.node true b ch)) : Fixed L b ch m' fs
  | along {P G : Frame (Nat × α)} {fs : List (Frame (Nat × α))} (parent : P.red = true)
      (along : P.dir = G.dir)
      (held : Held m' L (single P G :: fs) (.node true b ch)) : Fixed L b ch m' (P :: G :: fs)
  | across {P G : Frame (Nat × α)} {fs : List (Frame (Nat × α))} (parent : P.red = true)
      (across : P.dir = !G.dir)
      (held : Held m' L fs (double P G b ch)) : Fixed L b ch m' (P :: G :: fs)

theorem Listable.nodup_reddened {m' : Memory α} (listable : Listable compare m L)
    (reddened : Reddened m' L fs b ch) :
    (addrs (.node true b ch) ++ wayAddrs fs).Nodup := by
  refine RbTreeMemory.nodup_way ?_
  rw [addrs, reddened.lists]
  exact listable.nodup

theorem isRed_owner {p : Option Nat} (stores : StoresWay m fs p) :
    isRed m (owner fs) = true ↔ ∃ f ∈ fs.head?, f.red = true := by
  cases fs with
  | nil => simp [owner, isRed]
  | cons f fs => simp [owner, isRed, stores.1.red]

theorem fixViolation_spec (reddened : Reddened m L fs b ch)
    (listable : (addrs (.node true b ch) ++ wayAddrs fs).Nodup) (hp : w.p = owner fs)
    (hg : w.g = owner fs.tail) (hlast : ∀ f ∈ fs.tail.head?, w.last = f.dir)
    (ht : w.t = owner (fs.drop 2)) (rotatable : Rotatable fs) :
    ∃ m', fixViolation w b.1 m = some m' ∧ m'.next = m.next ∧ Fixed L b ch m' fs := by
  have hred : m.red b.1 = true := reddened.sub.1.red
  cases hparent : isRed m w.p with
  | false =>
    have hblack : ∀ f ∈ fs.head?, f.red = false := by
      intro f hf
      cases hfred : f.red with
      | false => rfl
      | true =>
        rw [hp] at hparent
        exact absurd (hparent.symm.trans ((isRed_owner reddened.way).mpr ⟨f, hf, hfred⟩))
          Bool.false_ne_true
    refine ⟨m, ?_, rfl, .nothing hblack ⟨reddened.way, reddened.sub, reddened.lists, ?_⟩⟩
    · rw [fixViolation, hparent, Bool.and_false]
      rfl
    · exact (balanced_plug fs _).mpr ⟨reddened.balanced, reddened.fits.red hblack⟩
  | true =>
    rw [hp] at hparent
    obtain ⟨P, hP, hPred⟩ := (isRed_owner reddened.way).mp hparent
    obtain ⟨G, hG, huncle⟩ := rotatable P hP hPred
    obtain ⟨fs', rfl⟩ : ∃ fs', fs = P :: G :: fs' := by
      match fs, hP, hG with
      | f :: g :: fs', hP, hG =>
        rw [Option.mem_some_iff.mp hP, Option.mem_some_iff.mp hG]
        exact ⟨fs', rfl⟩
    have hap := apart listable
    have hwP : w.p = some P.label.1 := hp
    have hwG : w.g = some G.label.1 := hg
    have hwt : w.t = owner fs' := ht
    have hwlast : w.last = G.dir := hlast G rfl
    have hPred' : m.red P.label.1 = true := reddened.way.1.red.trans hPred
    have hdir2 := dir2_eq_turn reddened.way.2.2.2.2 hap.grandparent.2.2.2
    have hb := mem_addrs_label true b ch
    have hlink := reddened.way.1.ch G.dir
    by_cases halong : P.dir = G.dir
    · obtain ⟨m₁, hsingle, hway, hsub, hnext⟩ :=
        single_way (t := .node true b ch) halong reddened.way reddened.sub hap
      refine ⟨_, ?_, hnext, .along hPred halong ⟨hway, hsub, ?_, ?_⟩⟩
      · rw [if_pos halong.symm] at hlink
        simp only [fixViolation, hwP, hwG, hwt, hwlast, isRed, hred, hPred', Bool.and_self,
          if_true, hlink, hsingle, hdir2, Option.map_some]
      · rw [inorder_single _ halong]
        exact reddened.lists
      · exact (balanced_plug _ _).mpr ⟨reddened.balanced, reddened.fits.single hPred huncle⟩
    · have hacross := Bool.eq_not_of_ne halong
      obtain ⟨m₁, hdouble, hway, hsub, hnext⟩ :=
        double_way hacross reddened.way reddened.sub hap
      refine ⟨_, ?_, hnext, .across hPred hacross ⟨hway, hsub, ?_, ?_⟩⟩
      · rw [if_neg fun h => halong h.symm] at hlink
        have hdiffer : some b.1 ≠ m.ch (some P.label.1) G.dir := by
          rw [hlink]
          exact fun h => (hap.siblings b.1 hb).1 (mem_addrs_of_ptr h.symm)
        simp only [fixViolation, hwP, hwG, hwt, hwlast, isRed, hred, hPred', Bool.and_self,
          if_true, if_neg hdiffer, hdouble, hdir2, Option.map_some]
      · rw [inorder_double true b ch hacross]
        exact reddened.lists
      · exact reddened.fits.double hPred huncle reddened.balanced rfl

/-- The fixed node is still in the tree, with its label at a node of which the search goes on. -/
theorem Fixed.held_node {m' : Memory α} (fixed : Fixed L b ch m' fs) :
    ∃ fs' red' ch', Held m' L fs' (.node red' b ch') := by
  cases fixed with
  | nothing black held => exact ⟨_, _, _, held⟩
  | along parent along held => exact ⟨_, _, _, held⟩
  | across parent across held => exact ⟨_, _, _, held⟩

section Arrivals

variable {left right : Nat}

theorem arrive_calm (held : Held w.mem L fs (.node red b ch)) (hq : w.q = some b.1)
    (four : (ColorTree.node red b ch).fourfold = false) :
    arrive memory data w = .at b.1 false w.mem := by
  have hlink : ∀ d, w.mem.ch (some b.1) d = ptr (ch d) := held.sub.1.ch
  have hcolor := fun d => isRed_ptr (held.sub.2 d)
  simp only [arrive, hq, hlink]
  split
  · rename_i left right hleft hright
    have hl := hcolor false
    have hr := hcolor true
    rw [hleft] at hl
    rw [hright] at hr
    have hboth : (w.mem.red left && w.mem.red right) = false := by
      rw [show w.mem.red left = (ch false).isRed from hl,
        show w.mem.red right = (ch true).isRed from hr]
      exact four
    rw [if_neg (ne_true_of_eq_false hboth)]
  · rfl

theorem arrive_flip (memory : Bool) (data : α) (held : Held w.mem L fs (.node red b ch))
    (hq : w.q = some b.1)
    (nodup : (addrs (.node red b ch) ++ wayAddrs fs).Nodup)
    (four : (ColorTree.node red b ch).fourfold = true) :
    ∃ m', arrive memory data w = .at b.1 false m' ∧ m'.next = w.mem.next ∧
      Reddened m' L fs b (fun d => (ch d).paint false) := by
  obtain ⟨hsub, -, hcross⟩ := List.nodup_append.mp nodup
  have hlink : ∀ d, w.mem.ch (some b.1) d = ptr (ch d) := held.sub.1.ch
  have hred := fun d => (isRed_ptr (held.sub.2 d)).trans (ColorTree.fourfold_children four d)
  have hsome : ∀ d, ∃ n, ptr (ch d) = some n := by
    intro d
    cases h : ptr (ch d) with
    | none =>
      have hd := hred d
      rw [h] at hd
      exact absurd hd Bool.false_ne_true
    | some n => exact ⟨n, rfl⟩
  obtain ⟨left, hleft⟩ := hsome false
  obtain ⟨right, hright⟩ := hsome true
  have hl := hred false
  have hr := hred true
  rw [hleft] at hl
  rw [hright] at hr
  have hfresh : ∀ a ∈ addrs (.node red b ch), a ∉ wayAddrs fs :=
    fun a ha hway => hcross a ha a hway rfl
  obtain ⟨hs, hfits⟩ := (balanced_plug fs _).mp held.balanced
  refine ⟨((w.mem.setRed b.1 true).setRed left false).setRed right false, ?_, rfl, ?_, ?_, ?_,
    hs.flip four, ?_⟩
  · simp only [arrive, hq, hlink, hleft, hright]
    rw [show w.mem.red left = true from hl, show w.mem.red right = true from hr]
    rfl
  · refine ((held.way.setRed (hfresh _ ?_)).setRed (hfresh _ ?_)).setRed (hfresh _ ?_)
    · exact mem_addrs_label red b ch
    · exact mem_addrs_child (mem_addrs_of_ptr hleft)
    · exact mem_addrs_child (mem_addrs_of_ptr hright)
  · exact stores_flip held.sub hsub hleft hright
  · rw [← held.lists, inorder_plug, inorder_plug, ← ColorTree.inorder_flip (.node red b ch)]
    rfl
  · have hrank := hs.rank_flip four
    rw [← hrank] at hfits
    exact hfits.black

/-- The new node at the bottom of the way. -/
theorem arrive_new (data : α) (held : Held w.mem L fs .leaf) (matches_ : Matches w fs .leaf)
    (nodup : (wayAddrs fs).Nodup) (bound : ∀ a ∈ wayAddrs fs, a < w.mem.next) (hne : fs ≠ []) :
    ∃ m', arrive true data w = .at w.mem.next true m' ∧ m'.next = w.mem.next + 1 ∧
      Reddened m' (before fs ++ (w.mem.next, data) :: after fs) fs (w.mem.next, data)
        fun _ => .leaf := by
  obtain ⟨hway, hsub⟩ := stores_new data held.way nodup bound
  obtain ⟨f, fs, rfl⟩ := List.exists_cons_of_ne_nil hne
  have hdir : w.dir = turn (f :: fs) := matches_.dir f rfl
  have hp : w.p = some f.label.1 := matches_.p
  refine ⟨_, ?_, rfl, hway, hsub, ?_, ⟨rfl, fun _ _ => rfl, fun _ => trivial⟩, ?_⟩
  · rw [arrive, show w.q = none from matches_.q, hp, hdir]
    rfl
  · rw [inorder_plug, List.append_assoc]
    rfl
  · exact ((balanced_plug _ _).mp held.balanced).2.black

theorem arrive_outOfMemory (data : α) (held : Held w.mem L fs .leaf) (matches_ : Matches w fs .leaf)
    (nodup : (wayAddrs fs).Nodup) (hne : fs ≠ []) :
    ∃ m', arrive false data w = .outOfMemory m' ∧ m'.next = w.mem.next ∧
      Held m' L fs .leaf := by
  obtain ⟨f, fs, rfl⟩ := List.exists_cons_of_ne_nil hne
  have hdir : w.dir = turn (f :: fs) := matches_.dir f rfl
  have hp : w.p = some f.label.1 := matches_.p
  refine ⟨w.mem.setCh (owner (f :: fs)) (turn (f :: fs)) none, ?_, rfl,
    held.way.setHole nodup, trivial, held.lists, held.balanced⟩
  rw [arrive, show w.q = none from matches_.q, hp, hdir]
  rfl

end Arrivals

section Roots

theorem plain_kept {root : Option Nat}
    (kept : RootKept compare data root fs (.node red b ch)) :
    RootKept compare data root (nextFrame compare data red b ch :: fs)
      (ch (decide (compare b.2 data < 0))) := by
  have hfill := fill_child red b ch (decide (compare b.2 data < 0))
  refine ⟨?_, ?_, ?_⟩
  · rw [plug, nextFrame, hfill]
    exact kept.same
  · rw [plug, nextFrame, hfill]
    exact kept.black
  · have hsafe := kept.safe
    cases fs with
    | nil => exact hsafe.2
    | cons _ fs =>
      cases fs with
      | nil => exact hsafe
      | cons _ _ => exact trivial

theorem ptr_root (hne : fs ≠ []) (s t : ColorTree (Nat × α)) :
    ptr (plug fs s) = ptr (plug fs t) :=
  root_plug ptr (fun _ _ _ => rfl) hne s t

theorem isRed_root (hne : fs ≠ []) (s t : ColorTree (Nat × α)) :
    (plug fs s).isRed = (plug fs t).isRed :=
  root_plug ColorTree.isRed (fun _ _ _ => rfl) hne s t

variable {root : Option Nat} {P G : Frame (Nat × α)}

theorem nothing_kept (kept : RootKept compare data root fs (.node red b ch))
    (balanced : (ColorTree.node red b ch).Balanced)
    (four : (ColorTree.node red b ch).fourfold = true) :
    let ch' := fun d => (ch d).paint false
    RootKept compare data root (nextFrame compare data true b ch' :: fs)
      (ch' (decide (compare b.2 data < 0))) := by
  intro ch'
  have hsafe := kept.safe
  have hfour := hsafe
  match fs, hsafe with
  | [], hsafe => exact absurd (four.symm.trans hsafe.1) Bool.noConfusion
  | g :: fs, hsafe =>
    have hne : g :: fs ≠ [] := List.cons_ne_nil g fs
    refine ⟨(ptr_root hne _ _).trans kept.same, (isRed_root hne _ _).trans kept.black, ?_⟩
    cases fs with
    | nil => exact fun _ => (balanced.quiet_child four _).calm
    | cons _ _ => exact trivial

/-- The rotations do not reach the root if it is safe. -/
theorem rotation_inner (kept : RootKept compare data root (P :: G :: fs) s)
    (parent : P.red = true) (four : s.fourfold = true) : fs ≠ [] := by
  rintro rfl
  have hsafe : P.red = true → s.fourfold = false := kept.safe
  exact absurd (four.symm.trans (hsafe parent)) Bool.noConfusion

theorem rotated_kept (kept : RootKept compare data root (P :: G :: fs) s)
    (parent : P.red = true) (four : s.fourfold = true) (A B : Frame (Nat × α))
    (t : ColorTree (Nat × α)) : RootKept compare data root (A :: B :: fs) t := by
  have hne := rotation_inner kept parent four
  refine ⟨(ptr_root hne _ _).trans kept.same, (isRed_root hne _ _).trans kept.black, ?_⟩
  obtain ⟨g, fs, rfl⟩ := List.exists_cons_of_ne_nil hne
  exact trivial

end Roots

/-- The searched element has its place between what is before and what is behind the way. -/
theorem sides (order : TotalPreorder compare) (toward : Toward compare data fs)
    (sorted : (plug fs s).inorder.Pairwise (fun x y => compare x.2 y.2 < 0)) :
    (∀ x ∈ before fs, compare x.2 data < 0) ∧ ∀ x ∈ after fs, compare data x.2 < 0 := by
  rw [inorder_plug, List.pairwise_append, List.pairwise_append] at sorted
  refine ⟨?_, ?_⟩
  · refine before_below (fun x => compare x.2 data < 0) ?_ sorted.1.1 ?_
    · exact fun x y hxy hy => order.lt_trans hxy (le_of_lt hy)
    · intro f hf hdir
      exact of_decide_eq_true ((toward f hf).2.symm.trans hdir)
  · refine after_above (fun x => compare data x.2 < 0) ?_ sorted.2.1 ?_
    · exact fun x y hxy hx => order.lt_trans hx (le_of_lt hxy)
    · intro f hf hdir
      have hnot := of_decide_eq_false ((toward f hf).2.symm.trans hdir)
      have hne := (toward f hf).1
      have hswap := order.swap data f.label.2
      omega

/-- At the bottom of the way no element is equal to the searched one. -/
theorem new_at_bottom (order : TotalPreorder compare) (toward : Toward compare data fs)
    (listable : Listable compare m L) (held : Held m L fs .leaf) :
    ∀ b ∈ L, compare b.2 data ≠ 0 := by
  intro b hb
  have hsorted := listable.sorted
  rw [← held.lists] at hsorted hb
  obtain ⟨hbefore, hafter⟩ := sides order toward hsorted
  rw [inorder_plug, ColorTree.inorder, List.append_nil] at hb
  rcases List.mem_append.mp hb with h | h
  · exact Int.ne_of_lt (hbefore b h)
  · have hlt := hafter b h
    have hswap := order.swap data b.2
    omega

/-- The list with the new element at its place. -/
theorem Listable.insert (order : TotalPreorder compare) (toward : Toward compare data fs)
    (listable : Listable compare m L) (held : Held m L fs .leaf) {m' : Memory α}
    (next : m'.next = m.next + 1) :
    Listable compare m' (before fs ++ (m.next, data) :: after fs) := by
  have hL : before fs ++ after fs = L := by
    have hlists := held.lists
    rwa [inorder_plug, ColorTree.inorder, List.append_nil] at hlists
  have hsorted := listable.sorted
  rw [← held.lists] at hsorted
  obtain ⟨hbefore, hafter⟩ := sides order toward hsorted
  have hsplit := listable.sorted
  rw [← hL, List.pairwise_append] at hsplit
  refine ⟨?_, ?_, ?_⟩
  · refine List.pairwise_append.mpr ⟨hsplit.1, List.pairwise_cons.mpr ⟨hafter, hsplit.2.1⟩, ?_⟩
    intro x hx y hy
    rcases List.mem_cons.mp hy with rfl | hy
    · exact hbefore x hx
    · exact hsplit.2.2 x hx y hy
  · have hperm : ((before fs ++ (m.next, data) :: after fs).map Prod.fst).Perm
        (m.next :: L.map Prod.fst) := by
      rw [← hL]
      exact List.perm_middle.map Prod.fst
    refine hperm.nodup_iff.mpr (List.nodup_cons.mpr ⟨fun h => ?_, listable.nodup⟩)
    obtain ⟨b, hb, hsame⟩ := List.mem_map.mp h
    exact absurd (listable.bound b hb) (by omega)
  · intro b hb
    have hmem : b = (m.next, data) ∨ b ∈ L := by
      rw [← hL]
      rw [List.perm_middle.mem_iff] at hb
      exact List.mem_cons.mp hb
    rcases hmem with rfl | hmem
    · exact next ▸ Nat.lt_succ_self m.next
    · exact next ▸ Nat.lt_succ_of_lt (listable.bound b hmem)

variable [DecidableEq α]

theorem comp_eq (order : TotalPreorder compare) (x data : α) :
    (if x = data then 0 else compare x data) = compare x data := by
  split
  · rename_i h
    rw [h, order.refl]
  · rfl

/-- The search ends at an equal element. -/
theorem compareAndTurn_found (tree : IsoRBTree α) (w : Walk α) (added : Bool)
    (order : TotalPreorder compare) (held : Held m L fs (.node red b ch))
    (listable : Listable compare m L)
    (size : (if added then tree.size + 1 else tree.size) = L.length)
    (equal : compare b.2 data = 0) :
    ∃ r, compareAndTurn compare tree data w b.1 added m = .returned r ∧
      r.ret = (if added then 1 else 0) ∧ r.item = some b.2 ∧
      ∃ t, Shaped compare r.tree t ∧ t.inorder = L := by
  rw [compareAndTurn, held.data_eq]
  simp only [comp_eq order]
  simp only [equal, if_true]
  obtain ⟨r, hfinish, hret, hitem, hshaped⟩ := finish_shaped (x := b.2) held.whole listable
    (List.ne_nil_of_mem held.label_mem) size
  refine ⟨r, hfinish, hret, hitem, _, hshaped, ?_⟩
  rw [ColorTree.inorder_paint]
  exact held.lists

theorem compareAndTurn_on {added : Bool} (order : TotalPreorder compare)
    (hdata : m.data b.1 = some b.2) (differ : compare b.2 data ≠ 0) :
    compareAndTurn compare tree data w b.1 added m =
      .walking (nextWalk compare data w m b) := by
  rw [compareAndTurn, hdata]
  simp only [comp_eq order]
  simp only [differ, if_false]
  rfl

/-- The walk in a tree which lists `L`. -/
structure Walking (compare : α → α → Int) (tree : IsoRBTree α) (data : α) (L : List (Nat × α))
    (U : Prop) (w : Walk α) (fs : List (Frame (Nat × α))) (s : ColorTree (Nat × α)) : Prop where
  pointers : Matches w fs s
  held : Held w.mem L fs s
  toward : Toward compare data fs
  next : w.mem.next = tree.mem.next
  bottom : fs = [] → s ≠ .leaf
  kept : U → RootKept compare data tree.root fs s

/-- All helpers match the way, and a red violation at `s` could be fixed. -/
structure Free (w : Walk α) (fs : List (Frame (Nat × α))) (s : ColorTree (Nat × α)) : Prop where
  t : w.t = owner (fs.drop 2)
  rotatable : Rotatable fs
  sibling : s.isRed = true → ∃ f ∈ fs.head?, f.sibling.isRed = false

/-- The helper `t` may be wrong, but nothing is to be fixed at `s`. -/
structure Waiting (w : Walk α) (fs : List (Frame (Nat × α))) (s : ColorTree (Nat × α)) : Prop where
  t : fs.length ≤ 1 → w.t = none
  quiet : s.Quiet

/-- The loop has ended, or after a few steps it is in a lower tree. -/
def Progress (compare : α → α → Int) (memory : Bool) (tree : IsoRBTree α) (data : α)
    (L : List (Nat × α)) (U : Prop) (w : Walk α) (n : Nat) : Prop :=
  (∃ k r, (step compare memory tree data)^[k] (.walking w) = .returned r ∧
      Outcome compare memory data L U r) ∨
    ∃ k w' fs' s', (step compare memory tree data)^[k] (.walking w) = .walking w' ∧
      Walking compare tree data L U w' fs' s' ∧ (Free w' fs' s' ∨ Waiting w' fs' s') ∧
      s'.height < n

/-- The tree as insertion finds it. -/
structure Given (compare : α → α → Int) (tree : IsoRBTree α) (L : List (Nat × α)) : Prop where
  order : TotalPreorder compare
  listable : Listable compare tree.mem L
  size : tree.size = L.length

section Steps

variable (given : Given compare tree L)
include given

/-- The search ends, or goes on below the node. -/
theorem Given.compare_progress {m' : Memory α} {n k : Nat}
    (hstep : (step compare memory tree data)^[k] (.walking w) =
      compareAndTurn compare tree data w b.1 false m')
    (held : Held m' L fs (.node red b ch)) (next : m'.next = tree.mem.next)
    (on : compare b.2 data ≠ 0 →
      Progress compare memory tree data L U (nextWalk compare data w m' b) n) :
    Progress compare memory tree data L U w n := by
  by_cases equal : compare b.2 data = 0
  · obtain ⟨r, hr, hret, hitem, t, hshaped, hlists⟩ := compareAndTurn_found tree w false
      given.order held (given.listable.of_next (Nat.le_of_eq next.symm)) given.size equal
    exact Or.inl ⟨k, r, hstep.trans hr,
      .present b held.label_mem equal hret hitem t hshaped hlists⟩
  · rw [compareAndTurn_on given.order held.data_eq equal] at hstep
    have honward : ∀ j, (step compare memory tree data)^[j + k] (.walking w) =
        (step compare memory tree data)^[j] (.walking (nextWalk compare data w m' b)) := by
      intro j
      rw [Function.iterate_add_apply, hstep]
    rcases on equal with ⟨j, r, hr, houtcome⟩ | ⟨j, w', fs', s', hw', hrest⟩
    · exact Or.inl ⟨j + k, r, (honward j).trans hr, houtcome⟩
    · exact Or.inr ⟨j + k, w', fs', s', (honward j).trans hw', hrest⟩

omit given in
theorem calm_step (held : Held w.mem L fs (.node red b ch)) (hq : w.q = some b.1)
    (four : (ColorTree.node red b ch).fourfold = false)
    (calm : red = true → isRed w.mem w.p = false) :
    step compare memory tree data (.walking w) =
      compareAndTurn compare tree data w b.1 false w.mem := by
  have hfix : fixViolation w b.1 w.mem = some w.mem := by
    rw [fixViolation, held.sub.1.red]
    cases red with
    | false => rfl
    | true =>
      rw [calm rfl]
      rfl
  rw [step, walkStep, arrive_calm held hq four]
  simp only [hfix]

theorem Given.plain_progress (walking : Walking compare tree data L U w fs (.node red b ch))
    (four : (ColorTree.node red b ch).fourfold = false) (ht : fs.length ≤ 1 → w.t = none)
    (sibling : red = true → ∃ f ∈ fs.head?, f.sibling.isRed = false) :
    Progress compare memory tree data L U w (ColorTree.node red b ch).height := by
  have hheld := walking.held
  have hcalm : red = true → isRed w.mem w.p = false := by
    intro hred
    rw [walking.pointers.p]
    by_contra h
    obtain ⟨f, hf, hfred⟩ := (isRed_owner hheld.way).mp (eq_true_of_ne_false h)
    obtain ⟨fs, rfl⟩ : ∃ fs', fs = f :: fs' := ⟨_, (List.cons_head?_tail hf).symm⟩
    have hfits := ((balanced_plug _ _).mp hheld.balanced).2
    exact absurd (hred.symm.trans (hfits.2.2.1 hfred).1) Bool.noConfusion
  refine given.compare_progress (k := 1)
    (calm_step hheld walking.pointers.q four hcalm) hheld walking.next fun differ => ?_
  refine Or.inr ⟨0, _, nextFrame compare data red b ch :: fs, _, rfl,
    ⟨matches_next _ _ hheld walking.pointers.p walking.pointers.dir, hheld.next _ _,
      walking.toward.next differ, walking.next, fun h => absurd h (List.cons_ne_nil _ _),
      fun hU => plain_kept (walking.kept hU)⟩,
    Or.inl ⟨?_, ?_, ?_⟩, ColorTree.height_child red b ch _⟩
  · show (if w.g = none then w.t else w.g) = owner (fs.drop 1)
    rw [List.drop_one]
    split
    · rename_i hg
      rw [← walking.pointers.g, hg]
      refine ht ?_
      have htail := walking.pointers.g.symm.trans hg
      match fs, htail with
      | [], _ => exact Nat.zero_le 1
      | [_], _ => exact Nat.le_refl 1
    · exact walking.pointers.g
  · intro f hf hred
    rw [← Option.some.inj hf] at hred
    exact sibling hred
  · intro hchild
    refine ⟨_, rfl, ?_⟩
    show (ch (!decide (compare b.2 data < 0))).isRed = false
    have hboth : ((ch false).isRed && (ch true).isRed) = false := four
    cases hdir : decide (compare b.2 data < 0) <;> rw [hdir] at hchild
    · rw [hchild, Bool.true_and] at hboth
      exact hboth
    · rw [hchild, Bool.and_true] at hboth
      exact hboth

/-- The walk passes a red node on its way to a quiet tree. -/
theorem Given.passing_progress {X : Frame (Nat × α)} {c : ColorTree (Nat × α)} {n : Nat}
    (held : Held w.mem L fs (X.redden.fill c)) (next : w.mem.next = tree.mem.next)
    (hq : w.q = some X.label.1) (hp : w.p = owner fs) (hdir : ∀ f ∈ fs.head?, w.dir = f.dir)
    (black : isRed w.mem w.p = false) (hne : fs ≠ []) (toward : Toward compare data fs)
    (hX : compare X.label.2 data ≠ 0 ∧ X.dir = decide (compare X.label.2 data < 0))
    (quiet : c.Quiet) (small : c.height < n)
    (kept : U → ∀ A : Frame (Nat × α), RootKept compare data tree.root (A :: fs) c) :
    Progress compare memory tree data L U w n := by
  have hcalm : (X.redden.fill c).fourfold = false := by
    show ((if false = X.dir then c else X.sibling).isRed &&
      (if true = X.dir then c else X.sibling).isRed) = false
    cases X.dir
    · rw [if_pos rfl, quiet.black, Bool.false_and]
    · rw [if_pos rfl, quiet.black, Bool.and_false]
  refine given.compare_progress (k := 1) (calm_step held hq hcalm fun _ => black) held next
    fun differ => ?_
  have hfocus : (if decide (compare X.redden.label.2 data < 0) = X.redden.dir then c
      else X.redden.sibling) = c := if_pos hX.2.symm
  have hnext := held.next compare data
  have hmatch := matches_next compare data held hp hdir
  rw [hfocus] at hnext hmatch
  refine Or.inr ⟨0, _, _, c, rfl, ⟨hmatch, hnext, toward.next differ, next,
    fun h => absurd h (List.cons_ne_nil _ _), fun hU => kept hU _⟩,
    Or.inr ⟨fun hlength => ?_, quiet⟩, small⟩
  exact absurd (Nat.le_of_succ_le_succ hlength) (Nat.not_le.mpr (List.length_pos_iff.mpr hne))

/-- After a double rotation the walk passes one of the rotated nodes on its way to where it
was. -/
theorem Given.across_progress {P G : Frame (Nat × α)} {m' : Memory α} {k n : Nat}
    (hstep : (step compare memory tree data)^[k] (.walking w) =
      compareAndTurn compare tree data w b.1 false m')
    (held : Held m' L fs (double P G b ch)) (next : m'.next = tree.mem.next)
    (toward : Toward compare data (P :: G :: fs))
    (quiet : ∀ d, (ch d).Quiet) (small : ∀ d, (ch d).height < n)
    (kept : U → ∀ (A B : Frame (Nat × α)) (t : ColorTree (Nat × α)),
      RootKept compare data tree.root (A :: B :: fs) t) :
    Progress compare memory tree data L U w n := by
  refine given.compare_progress hstep held next fun differ => ?_
  have htowardFs : Toward compare data fs := fun f hf =>
    toward f (List.mem_cons_of_mem _ (List.mem_cons_of_mem _ hf))
  have hX : (if decide (compare b.2 data < 0) = G.dir then P else G) ∈ P :: G :: fs := by
    split
    · exact List.mem_cons_self
    · exact List.mem_cons_of_mem _ List.mem_cons_self
  exact given.passing_progress (held.next _ _) next (held.sub.1.ch _) rfl
    (fun f hf => by rw [← Option.some.inj hf]; rfl) held.sub.1.red (List.cons_ne_nil _ _)
    (htowardFs.next differ) (toward _ hX) (quiet _) (small _) (fun hU A => kept hU A _ _)

theorem Given.flip_progress (walking : Walking compare tree data L U w fs (.node red b ch))
    (four : (ColorTree.node red b ch).fourfold = true) (free : Free w fs (.node red b ch)) :
    Progress compare memory tree data L U w (ColorTree.node red b ch).height := by
  have hheld := walking.held
  have hbalanced := ((balanced_plug _ _).mp hheld.balanced).1
  have hnodup := given.listable.nodup_way hheld
  obtain ⟨m₁, harrive, hnext₁, hreddened⟩ :=
    arrive_flip memory data hheld walking.pointers.q hnodup four
  have hnodup₁ := given.listable.nodup_reddened hreddened
  obtain ⟨m', hfix, hnext', hfixed⟩ := fixViolation_spec hreddened hnodup₁ walking.pointers.p
    walking.pointers.g walking.pointers.last free.t free.rotatable
  have hstep : (step compare memory tree data)^[1] (.walking w) =
      compareAndTurn compare tree data w b.1 false m' := by
    show walkStep compare memory tree data w = _
    rw [walkStep, harrive]
    simp only [hfix]
  have hnext : m'.next = tree.mem.next := (hnext'.trans hnext₁).trans walking.next
  have hquiet := hbalanced.quiet_child four
  have hsmall : ∀ d, ((ch d).paint false).height < (ColorTree.node red b ch).height := fun d => by
    rw [ColorTree.height_paint]
    exact ColorTree.height_child red b ch d
  cases hfixed with
  | nothing black held =>
    refine given.compare_progress hstep held hnext fun differ => ?_
    refine Or.inr ⟨0, _, _, _, rfl, ⟨matches_next _ _ held walking.pointers.p walking.pointers.dir,
      held.next _ _, walking.toward.next differ, hnext, fun h => absurd h (List.cons_ne_nil _ _),
      fun hU => nothing_kept (walking.kept hU) hbalanced four⟩,
      Or.inr ⟨fun hlength => ?_, hquiet _⟩, hsmall _⟩
    have hnil : fs = [] := List.length_eq_zero_iff.mp (Nat.le_zero.mp
      (Nat.le_of_succ_le_succ hlength))
    show (if w.g = none then w.t else w.g) = none
    rw [walking.pointers.g, free.t, hnil]
    rfl
  | along parent halong held =>
    rename_i P G fs'
    refine given.compare_progress hstep held hnext fun differ => ?_
    have htoward : Toward compare data (single P G :: fs') := by
      have hboth := List.forall_mem_cons.mp walking.toward
      refine List.forall_mem_cons.mpr ⟨⟨hboth.1.1, halong.symm.trans hboth.1.2⟩, ?_⟩
      exact (List.forall_mem_cons.mp hboth.2).2
    refine Or.inr ⟨0, _, _, _, rfl, ⟨matches_next _ _ held walking.pointers.p ?_, held.next _ _,
      htoward.next differ, hnext, fun h => absurd h (List.cons_ne_nil _ _),
      fun hU => rotated_kept (walking.kept hU) parent four _ _ _⟩,
      Or.inr ⟨fun hlength => ?_, hquiet _⟩, hsmall _⟩
    · intro f hf
      rw [← Option.some.inj hf]
      exact (walking.pointers.dir P rfl).trans halong
    · exact absurd (Nat.le_of_succ_le_succ hlength) (Nat.not_succ_le_zero _)
  | across parent hacross held =>
    exact given.across_progress hstep held hnext walking.toward hquiet hsmall
      fun hU A B t => rotated_kept (walking.kept hU) parent four A B t

/-- At the bottom the new node is added, or the call fails. -/
theorem Given.leaf_ends (walking : Walking compare tree data L (memory = false ∧ U) w fs .leaf)
    (free : Free w fs .leaf) :
    ∃ k r, (step compare memory tree data)^[k] (.walking w) = .returned r ∧
      Outcome compare memory data L U r := by
  have hheld := walking.held
  have hne : fs ≠ [] := fun h => walking.bottom h rfl
  have hlistable : Listable compare w.mem L :=
    given.listable.of_next (Nat.le_of_eq walking.next.symm)
  have hnodup := (List.nodup_append.mp (hlistable.nodup_way hheld)).2.1
  have hnew := new_at_bottom given.order walking.toward hlistable hheld
  have hL : L = before fs ++ after fs := by
    rw [← hheld.lists, inorder_plug, ColorTree.inorder, List.append_nil]
  have hbound : ∀ a ∈ wayAddrs fs, a < w.mem.next := by
    intro a ha
    have hmem : a ∈ addrs (plug fs .leaf) :=
      (addrs_plug fs .leaf).mem_iff.mpr (List.mem_append_right _ ha)
    rw [addrs, hheld.lists] at hmem
    obtain ⟨c, hc, rfl⟩ := List.mem_map.mp hmem
    exact hlistable.bound c hc
  cases memory with
  | false =>
    obtain ⟨m', harrive, hnext, hheld'⟩ :=
      arrive_outOfMemory data hheld walking.pointers hnodup hne
    refine ⟨1, ⟨isoOutOfMem, none, { tree with mem := m' }⟩, ?_,
      .failed rfl hnew rfl rfl fun hU => ⟨plug fs .leaf, ?_, hheld'.lists⟩⟩
    · show walkStep compare false tree data w = _
      rw [walkStep, harrive]
    · have hkept := walking.kept ⟨rfl, hU⟩
      have hwhole := hheld'.whole
      have hlistable' := hlistable.of_next (Nat.le_of_eq hnext.symm)
      refine ⟨hkept.same.symm, hwhole.sub, hheld'.balanced, hkept.black, ?_, ?_, ?_, ?_⟩
      · rw [hheld'.lists]
        exact hlistable.sorted
      · rw [addrs, hheld'.lists]
        exact hlistable.nodup
      · intro a ha
        rw [addrs, hheld'.lists] at ha
        obtain ⟨c, hc, rfl⟩ := List.mem_map.mp ha
        exact hlistable'.bound c hc
      · rw [hheld'.lists]
        exact given.size
  | true =>
    obtain ⟨m₁, harrive, hnext₁, hreddened⟩ :=
      arrive_new data hheld walking.pointers hnodup hbound hne
    have hlistable₁ := hlistable.insert given.order walking.toward hheld hnext₁
    obtain ⟨m', hfix, hnext', hfixed⟩ := fixViolation_spec hreddened
      (hlistable₁.nodup_reddened hreddened) walking.pointers.p walking.pointers.g
      walking.pointers.last free.t free.rotatable
    obtain ⟨fs', red', ch', hheld'⟩ := hfixed.held_node
    have hlistable' := hlistable₁.of_next (Nat.le_of_eq hnext'.symm)
    have hsize : (if true then tree.size + 1 else tree.size) =
        (before fs ++ (w.mem.next, data) :: after fs).length := by
      rw [if_pos rfl, given.size, hL, List.length_append, List.length_append, List.length_cons]
      exact Nat.add_assoc _ _ _
    obtain ⟨r, hr, hret, hitem, t, hshaped, hlists⟩ := compareAndTurn_found tree w true
      given.order hheld' hlistable' hsize (given.order.refl data)
    refine ⟨1, r, ?_, .inserted hnew hret hitem t hshaped _ _ _ hL hlists⟩
    show walkStep compare true tree data w = _
    rw [walkStep, harrive]
    simp only [hfix]
    exact hr

/-- Each walk comes to an end. -/
theorem Given.walk_ends (n : Nat) :
    ∀ {w : Walk α} {fs : List (Frame (Nat × α))} {s : ColorTree (Nat × α)}, s.height < n →
      Walking compare tree data L (memory = false ∧ U) w fs s →
      (Free w fs s ∨ Waiting w fs s) →
      ∃ k r, (step compare memory tree data)^[k] (.walking w) = .returned r ∧
        Outcome compare memory data L U r := by
  induction n with
  | zero => exact fun h => absurd h (Nat.not_lt_zero _)
  | succ n ih =>
    intro w fs s hheight walking phase
    have honward : Progress compare memory tree data L (memory = false ∧ U) w s.height →
        ∃ k r, (step compare memory tree data)^[k] (.walking w) = .returned r ∧
          Outcome compare memory data L U r := by
      rintro (⟨k, r, hr, houtcome⟩ | ⟨k, w', fs', s', hw', hwalking', hphase', hless⟩)
      · refine ⟨k, r, hr, ?_⟩
        cases houtcome with
        | present b mem equal ret item t shaped same =>
          exact .present b mem equal ret item t shaped same
        | inserted new ret item t shaped n pre post split grown =>
          exact .inserted new ret item t shaped n pre post split grown
        | failed noMemory new ret item kept =>
          exact .failed noMemory new ret item fun hU => kept ⟨noMemory, hU⟩
      · obtain ⟨j, r, hr, houtcome⟩ := ih (by omega) hwalking' hphase'
        refine ⟨j + k, r, ?_, houtcome⟩
        rw [Function.iterate_add_apply, hw', hr]
    cases s with
    | leaf =>
      rcases phase with free | waiting
      · exact given.leaf_ends walking free
      · exact absurd rfl waiting.quiet.nonempty
    | node red b ch =>
      refine honward ?_
      rcases phase with free | waiting
      · cases four : (ColorTree.node red b ch).fourfold with
        | true => exact given.flip_progress walking four free
        | false =>
          refine given.plain_progress walking four (fun hlength => ?_) free.sibling
          rw [free.t, List.drop_eq_nil_of_le (Nat.le_succ_of_le hlength)]
          rfl
      · refine given.plain_progress walking waiting.quiet.calm waiting.t fun hred => ?_
        exact absurd (hred.symm.trans waiting.quiet.black) Bool.noConfusion

end Steps

end Ends

end RbTreeInsert
