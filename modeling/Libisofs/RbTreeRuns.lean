import Libisofs.RbTreeInsert

/-!
# The red-black tree as a sorted set

Sequences of iso_rbtree_insert(), and what iso_rbtree_to_array() makes of the result. An insertion
which fails by lack of memory returns without an update of the root.
-/

namespace RbTreeRuns

open RbTree RbTreeMemory RbTreeInsert RedBlack

universe u
variable {α : Type u}

section Root

variable (compare : α → α → Int) (T : IsoRBTree α) (data : α)

def bothRed (m : Memory α) : Option Nat → Bool
  | none => false
  | some n => isRed m (m.ch (some n) false) && isRed m (m.ch (some n) true)

/-- The link which the search follows. -/
def chToward (m : Memory α) : Option Nat → Option Nat
  | none => none
  | some n =>
    match m.data n with
    | none => none
    | some x => m.ch (some n) (decide (compare x data < 0))

/-- The search neither flips the root nor rotates at it. -/
def RootStays : Prop :=
  bothRed T.mem T.root = false ∧
    (isRed T.mem (chToward compare data T.mem T.root) = true →
      bothRed T.mem (chToward compare data T.mem (chToward compare data T.mem T.root)) = false)

variable {compare T data} {m : Memory α} {t : ColorTree (Nat × α)}

theorem bothRed_ptr (stores : Stores m t) : bothRed m (ptr t) = t.fourfold := by
  cases t with
  | leaf => rfl
  | node red b ch =>
    have hcolor := fun d => isRed_ptr (stores.2 d)
    rw [ptr, bothRed, stores.1.ch false, stores.1.ch true, hcolor false, hcolor true]
    rfl

theorem chToward_ptr (stores : Stores m t) :
    chToward compare data m (ptr t) = ptr (childToward compare data t) := by
  cases t with
  | leaf => rfl
  | node red b ch =>
    simp only [ptr, chToward, stores.1.data]
    exact stores.1.ch _

theorem stores_childToward (compare : α → α → Int) (data : α) (stores : Stores m t) :
    Stores m (childToward compare data t) := by
  cases t with
  | leaf => exact trivial
  | node red b ch => exact stores.2 _

theorem rootSafe (shaped : Shaped compare T t) (stays : RootStays compare T data) :
    RootSafe compare data [] t := by
  have hchild := stores_childToward compare data shaped.stores
  have hgrandchild := stores_childToward compare data hchild
  rw [RootStays, shaped.root, chToward_ptr shaped.stores, chToward_ptr hchild,
    bothRed_ptr shaped.stores, isRed_ptr hchild, bothRed_ptr hgrandchild] at stays
  exact stays

end Root

section Insertion

variable {compare : α → α → Int} {memory : Bool} {T : IsoRBTree α} {data : α}
  {t : ColorTree (Nat × α)}

theorem given_of_shaped (order : TotalPreorder compare) (shaped : Shaped compare T t) :
    Given compare T t.inorder :=
  ⟨order, ⟨shaped.sorted, shaped.nodup, fun b hb =>
    shaped.bound b.1 (List.mem_map.mpr ⟨b, hb, rfl⟩)⟩, shaped.size⟩

theorem start_empty (shaped : Shaped compare T .leaf) :
    ∃ r, start memory T data = .returned r ∧
      Outcome compare memory data [] (RootStays compare T data) r := by
  have hroot : T.root = none := shaped.root
  have hnew : ∀ b ∈ ([] : List (Nat × α)), compare b.2 data ≠ 0 := fun _ h => nomatch h
  cases memory with
  | false =>
    refine ⟨⟨isoOutOfMem, none, T⟩, ?_, .failed rfl hnew rfl rfl fun _ => ⟨.leaf, shaped, rfl⟩⟩
    rw [start, hroot]
    rfl
  | true =>
    have hholds : ∀ c, Holds ((isoRbnodeNew T.mem data).2.setRed T.mem.next c)
        (T.mem.next, data) c (fun _ => none) :=
      fun c => ⟨if_pos rfl, if_pos rfl, fun _ => if_pos rfl⟩
    refine ⟨_, by rw [start, hroot]; rfl, .inserted hnew rfl rfl
      (.node false (T.mem.next, data) fun _ => .leaf) ⟨rfl, ⟨hholds false, fun _ => trivial⟩,
      ⟨rfl, fun h => absurd h Bool.false_ne_true, fun _ => trivial⟩, rfl,
      List.pairwise_singleton _ _, List.nodup_singleton _, ?_, ?_⟩
      T.mem.next [] [] rfl rfl⟩
    · intro a ha
      rw [List.mem_singleton.mp ha]
      exact Nat.lt_succ_self _
    · show T.size + 1 = 1
      rw [shaped.size]
      rfl

variable [DecidableEq α]

theorem returns_unique {r r' : Returned α} (h : Returns compare memory T data r)
    (h' : Returns compare memory T data r') : r' = r := by
  obtain ⟨n, hn⟩ := h
  obtain ⟨k, hk⟩ := h'
  have hfixed : ∀ (r : Returned α) (j : Nat),
      (step compare memory T data)^[j] (.returned r) = .returned r :=
    fun r j => Function.iterate_fixed rfl j
  have hboth : State.returned r' = State.returned r := by
    calc State.returned r' = (step compare memory T data)^[n] (.returned r') :=
          (hfixed r' n).symm
      _ = (step compare memory T data)^[n + k] (start memory T data) := by
          rw [Function.iterate_add_apply, hk]
      _ = (step compare memory T data)^[k + n] (start memory T data) := by
          rw [Nat.add_comm]
      _ = State.returned r := by
          rw [Function.iterate_add_apply, hn]
          exact hfixed r k
  exact State.returned.inj hboth

/-- Each insertion into a sorted red-black tree ends, and its outcome is as expected. -/
theorem insert_ends (order : TotalPreorder compare) (shaped : Shaped compare T t) :
    ∃ r, Returns compare memory T data r ∧
      Outcome compare memory data t.inorder (RootStays compare T data) r := by
  have hroot := shaped.root
  cases t with
  | leaf =>
    obtain ⟨r, hr, houtcome⟩ := start_empty shaped
    exact ⟨r, ⟨0, hr⟩, houtcome⟩
  | node red b ch =>
    obtain ⟨w, hw, hmem, hq, hrest⟩ : ∃ w, start memory T data = .walking w ∧
        w.mem = { T.mem with ch := fun o d =>
          if o = none then if d then some b.1 else none else T.mem.ch o d } ∧
        w.q = some b.1 ∧ w.p = none ∧ w.g = none ∧ w.t = none := by
      rw [start, hroot]
      exact ⟨_, rfl, rfl, rfl, rfl, rfl, rfl⟩
    have hagree : ∀ a, Agree T.mem w.mem a := by
      intro a
      rw [hmem]
      refine ⟨rfl, rfl, fun d => ?_⟩
      simp only [reduceCtorEq, if_false]
    have hheld : Held w.mem (ColorTree.node red b ch).inorder [] (.node red b ch) := by
      refine ⟨?_, shaped.stores.congr fun a _ => hagree a, rfl, shaped.balanced⟩
      rw [hmem]
      rfl
    have hwalking : Walking compare T data (ColorTree.node red b ch).inorder
        (memory = false ∧ RootStays compare T data) w [] (.node red b ch) :=
      ⟨⟨hq, hrest.1, hrest.2.1, (fun _ h => nomatch h), (fun _ h => nomatch h)⟩, hheld,
        (fun _ h => nomatch h), by rw [hmem], (fun _ h => nomatch h),
        fun hU => ⟨hroot.symm, shaped.black, rootSafe shaped hU.2⟩⟩
    have hfree : Free w [] (.node red b ch) :=
      ⟨hrest.2.2, (fun _ h => nomatch h), fun hred => absurd (hred.symm.trans shaped.black)
        Bool.noConfusion⟩
    obtain ⟨k, r, hr, houtcome⟩ := (given_of_shaped order shaped).walk_ends _
      (Nat.lt_succ_self _) hwalking (Or.inl hfree)
    exact ⟨r, ⟨k, by rw [hw, hr]⟩, houtcome⟩

end Insertion

section Listing

variable {compare : α → α → Int} {T : IsoRBTree α} {t : ColorTree (Nat × α)} {m : Memory α}

/-- The elements which are reachable from the root. -/
def elements (t : ColorTree (Nat × α)) : List α := t.inorder.map Prod.snd

theorem rbtreeToArrayAux_spec (includeItem : α → Bool) (stores : Stores m t) :
    ∀ (fuel : Nat) (array : List α), t.height < fuel →
      rbtreeToArrayAux m includeItem fuel (ptr t) array =
        some (array ++ (elements t).filter includeItem) := by
  induction t with
  | leaf =>
    intro fuel array hfuel
    obtain ⟨fuel, rfl⟩ := Nat.exists_eq_succ_of_ne_zero (Nat.ne_of_gt hfuel)
    simp [rbtreeToArrayAux, ptr, elements, ColorTree.inorder]
  | node red b ch ih =>
    intro fuel array hfuel
    obtain ⟨fuel, rfl⟩ := Nat.exists_eq_succ_of_ne_zero (Nat.ne_of_gt (Nat.zero_lt_of_lt hfuel))
    obtain ⟨hholds, hch⟩ := stores
    have hless : ∀ d, (ch d).height < fuel := fun d =>
      Nat.lt_of_lt_of_le (ColorTree.height_child red b ch d) (Nat.le_of_lt_succ hfuel)
    rw [show ptr (.node red b ch) = some b.1 from rfl, rbtreeToArrayAux, hholds.data,
      hholds.ch false, ih false (hch false) _ _ (hless _), hholds.ch true]
    simp only [ih true (hch true) _ _ (hless _)]
    cases hinclude : includeItem b.2 <;>
      simp [elements, ColorTree.inorder, hinclude]

theorem isoRbtreeToArray_spec (includeItem : α → Bool) (shaped : Shaped compare T t) {fuel : Nat}
    (hfuel : t.height < fuel) :
    isoRbtreeToArray includeItem fuel T = some ((elements t).filter includeItem) := by
  rw [isoRbtreeToArray, shaped.root, rbtreeToArrayAux_spec includeItem shaped.stores fuel [] hfuel]
  rfl

end Listing

section Runs

variable [DecidableEq α] {compare : α → α → Int}

/-- A tree after insertions which are all `allowed`. -/
inductive Run (compare : α → α → Int) (allowed : IsoRBTree α → α → Bool → Prop) :
    IsoRBTree α → Prop where
  | new : Run compare allowed isoRbtreeNew
  | insert {T : IsoRBTree α} {data : α} {memory : Bool} {r : Returned α}
      (before : Run compare allowed T) (hallowed : allowed T data memory)
      (returns : Returns compare memory T data r) : Run compare allowed r.tree

/-- If there is not enough memory, the root stays untouched. -/
def Harmless (compare : α → α → Int) (T : IsoRBTree α) (data : α) (memory : Bool) : Prop :=
  memory = true ∨ RootStays compare T data

theorem run_shaped (order : TotalPreorder compare) {T : IsoRBTree α}
    (run : Run compare (Harmless compare) T) : ∃ t, Shaped compare T t := by
  induction run with
  | new =>
    exact ⟨.leaf, rfl, trivial, trivial, rfl, List.Pairwise.nil, List.nodup_nil,
      (fun _ h => nomatch h), rfl⟩
  | insert before hallowed returns ih =>
    obtain ⟨t, hshaped⟩ := ih
    obtain ⟨r, hr, houtcome⟩ := insert_ends order hshaped
    rw [returns_unique hr returns]
    cases houtcome with
    | present b mem equal ret item t shaped same => exact ⟨t, shaped⟩
    | inserted new ret item t shaped n pre post split grown => exact ⟨t, shaped⟩
    | failed noMemory new ret item kept =>
      have hstays := hallowed.resolve_left (ne_true_of_eq_false noMemory)
      obtain ⟨t, hshaped', -⟩ := kept hstays
      exact ⟨t, hshaped'⟩

/-- What an insertion into a sorted set does and answers. -/
structure Answers (compare : α → α → Int) (memory : Bool) (data : α) (before after : List α)
    (r : Returned α) : Prop where
  ret : r.ret = 0 ∨ r.ret = 1 ∨ (r.ret = isoOutOfMem ∧ memory = false)
  zero_iff : r.ret = 0 ↔ ∃ x ∈ before, compare x data = 0
  zero : r.ret = 0 → after = before ∧ ∃ x ∈ before, compare x data = 0 ∧ r.item = some x
  one : r.ret = 1 → r.item = some data ∧
    ∃ pre post, before = pre ++ post ∧ after = pre ++ data :: post
  failed : r.ret < 0 → after = before

theorem outcome_answers {memory : Bool} {data : α} {t : ColorTree (Nat × α)} {U : Prop}
    {r : Returned α} (outcome : Outcome compare memory data t.inorder U r)
    (harmless : memory = true ∨ U) :
    ∃ t', Shaped compare r.tree t' ∧
      Answers compare memory data (elements t) (elements t') r := by
  have hnone : (∀ b ∈ t.inorder, compare b.2 data ≠ 0) →
      ¬∃ x ∈ elements t, compare x data = 0 := by
    rintro hnew ⟨x, hx, hequal⟩
    obtain ⟨b, hb, rfl⟩ := List.mem_map.mp hx
    exact hnew b hb hequal
  cases outcome with
  | present b mem equal ret item t' shaped same =>
    have hb : b.2 ∈ elements t := List.mem_map.mpr ⟨b, mem, rfl⟩
    have hsame : elements t' = elements t := congrArg (List.map Prod.snd) same
    refine ⟨t', shaped, Or.inl ret, ⟨fun _ => ⟨b.2, hb, equal⟩, fun _ => ret⟩,
      fun _ => ⟨hsame, b.2, hb, equal, item⟩, fun h => ?_, fun _ => hsame⟩
    omega
  | inserted new ret item t' shaped n pre post split grown =>
    refine ⟨t', shaped, Or.inr (Or.inl ret),
      ⟨fun h => by omega, fun h => absurd h (hnone new)⟩, fun h => by omega, fun _ => ⟨item,
        pre.map Prod.snd, post.map Prod.snd, ?_, ?_⟩, fun h => by omega⟩
    · rw [elements, split, List.map_append]
    · rw [elements, grown, List.map_append, List.map_cons]
  | failed noMemory new ret item kept =>
    obtain ⟨t', shaped, same⟩ :=
      kept (harmless.resolve_left (ne_true_of_eq_false noMemory))
    have hret : r.ret ≠ 0 ∧ r.ret ≠ 1 := by
      rw [ret]
      exact ⟨by decide, by decide⟩
    refine ⟨t', shaped, Or.inr (Or.inr ⟨ret, noMemory⟩),
      ⟨fun h => absurd h hret.1, fun h => absurd h (hnone new)⟩, fun h => absurd h hret.1,
      fun h => absurd h hret.2, fun _ => congrArg (List.map Prod.snd) same⟩

/-- In all runs of which no failing insertion flips the root or rotates at it, the tree is a
sorted set: a red-black tree, of which the array lists the elements in ascending order, and the
next insertion answers accordingly. -/
theorem sorted_set (order : TotalPreorder compare) (T : IsoRBTree α)
    (run : Run compare (Harmless compare) T) :
    ∃ t, Shaped compare T t ∧
      (∀ includeItem, ∃ n, ∀ fuel, n < fuel →
        isoRbtreeToArray includeItem fuel T = some ((elements t).filter includeItem)) ∧
      ∀ data memory, ∃ r, Returns compare memory T data r ∧
        (∀ r', Returns compare memory T data r' → r' = r) ∧
        (Harmless compare T data memory → ∃ t', Shaped compare r.tree t' ∧
          Answers compare memory data (elements t) (elements t') r) := by
  obtain ⟨t, hshaped⟩ := run_shaped order run
  refine ⟨t, hshaped, fun includeItem => ⟨t.height, fun fuel hfuel => ?_⟩, fun data memory => ?_⟩
  · exact isoRbtreeToArray_spec includeItem hshaped hfuel
  · obtain ⟨r, hr, houtcome⟩ := insert_ends order hshaped
    exact ⟨r, hr, fun r' hr' => returns_unique hr hr',
      fun harmless => outcome_answers houtcome harmless⟩

end Runs

section Examples

def difference (a b : Int) : Int := a - b

theorem difference_order : TotalPreorder difference where
  swap x y := by
    unfold difference
    omega
  trans x y z hxy hyz := by
    unfold difference at *
    omega

/-- The result of an insertion which needs at most `n` steps of the loop. -/
def insertWithin (n : Nat) (memory : Bool) (T : IsoRBTree Int) (data : Int) :
    Option (Returned Int) :=
  match (step difference memory T data)^[n] (start memory T data) with
  | .returned r => some r
  | _ => none

theorem insertWithin_returns {n : Nat} {memory : Bool} {T : IsoRBTree Int} {data : Int}
    {r : Returned Int} (h : insertWithin n memory T data = some r) :
    Returns difference memory T data r := by
  refine ⟨n, ?_⟩
  rw [insertWithin] at h
  split at h
  · rename_i r' hr'
    rw [hr', Option.some.inj h]
  · exact nomatch h

/-- The tree with the numbers below `n`, inserted in ascending order. -/
def ascending : Nat → IsoRBTree Int
  | 0 => isoRbtreeNew
  | n + 1 => ((insertWithin 6 true (ascending n) n).map Returned.tree).getD isoRbtreeNew

theorem run_ascending {allowed : IsoRBTree Int → Int → Bool → Prop}
    (hallowed : ∀ T data, allowed T data true) (n : Nat)
    (h : ∀ k < n, (insertWithin 6 true (ascending k) k).isSome = true) :
    Run difference allowed (ascending n) := by
  induction n with
  | zero => exact .new
  | succ n ih =>
    obtain ⟨r, hr⟩ := Option.isSome_iff_exists.mp (h n (Nat.lt_succ_self n))
    have hrun := Run.insert (ih fun k hk => h k (Nat.lt_succ_of_lt hk)) (hallowed _ _)
      (insertWithin_returns hr)
    rw [ascending, hr]
    exact hrun

theorem three_sorted :
    ∃ t, Shaped difference (ascending 3) t ∧
      (∀ includeItem, ∃ n, ∀ fuel, n < fuel → isoRbtreeToArray includeItem fuel (ascending 3) =
        some ((elements t).filter includeItem)) ∧
      ∀ data memory, ∃ r, Returns difference memory (ascending 3) data r ∧
        (∀ r', Returns difference memory (ascending 3) data r' → r' = r) ∧
        (Harmless difference (ascending 3) data memory → ∃ t', Shaped difference r.tree t' ∧
          Answers difference memory data (elements t) (elements t') r) :=
  sorted_set difference_order (ascending 3)
    (run_ascending (fun _ _ => Or.inl rfl) 3 (by decide +kernel))

/-- After an insertion which failed the tree may list less elements than before. -/
theorem failed_insertion_loses :
    ¬∀ (T : IsoRBTree Int) (data : Int) (r : Returned Int),
      Run difference (fun _ _ memory => memory = true) T →
      Returns difference false T data r → r.ret = isoOutOfMem →
      ∀ fuel l l', isoRbtreeToArray (fun _ => true) fuel T = some l →
        isoRbtreeToArray (fun _ => true) fuel r.tree = some l' → l' = l := by
  intro hsame
  have hrun : Run difference (fun _ _ memory => memory = true) (ascending 7) := by
    refine run_ascending ?_ 7 (by decide +kernel)
    exact fun _ _ => rfl
  obtain ⟨r, hr⟩ := Option.isSome_iff_exists.mp
    (show (insertWithin 6 false (ascending 7) 7).isSome = true by decide +kernel)
  have hret : ((insertWithin 6 false (ascending 7) 7).map Returned.ret) = some isoOutOfMem := by
    decide +kernel
  have hless : (insertWithin 6 false (ascending 7) 7).bind (fun r =>
      isoRbtreeToArray (fun _ => true) 8 r.tree) = some [0, 1, 2] := by
    decide +kernel
  rw [hr] at hret hless
  have hequal := hsame (ascending 7) 7 r hrun (insertWithin_returns hr) (Option.some.inj hret) 8
    [0, 1, 2, 3, 4, 5, 6] [0, 1, 2] (by decide +kernel) hless
  exact absurd hequal (by decide)

end Examples

end RbTreeRuns
