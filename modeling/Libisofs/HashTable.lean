import Libisofs.Lib.CellLists
import Libisofs.Lib.ChainedTables
import Mathlib.Algebra.BigOperators.Group.Finset.Basic
import Mathlib.Data.List.TakeWhile
import Mathlib.Data.Multiset.Basic

/-!
# The hash table

util_htable.c keeps its entries in chained nodes. Keys are pointers: the compare function looks
at what they point to, but iso_htable_remove_ptr() compares the pointers themselves. The answers
of malloc() are given with the calls.
-/

namespace HashTable

open CellLists (Chain endCell seek)

variable {Key Data Node : Type*}

/-- Where a pointer to a node is stored: in `table->table` or in `next` of a node. -/
inductive Cell (Node : Type*) where
  | slot (i : Nat)
  | next (node : Node)
  deriving DecidableEq

/-- IsoHTable and the memory of its nodes. Key and data of a node make its entry. -/
structure HTable (Key Data Node : Type*) where
  cell : Cell Node → Option Node
  entry : Node → Key × Data
  allocated : Node → Bool
  size : Nat
  cap : Nat
  hash : Key → UInt32
  compare : Key → Key → Int

def isoSuccess : Int := 1
def isoNullPointer : Int := 0xE830FFF9 - 2 ^ 32
def isoOutOfMem : Int := 0xF030FFFA - 2 ^ 32

/-- The return value, what is stored by `*data`, and the arguments of `free_data`. -/
structure Reply (Key Data : Type*) where
  ret : Int
  data : Option Data
  freed : Option (Key × Data)

/-- A NULL key is none. `malloc` is the answer to the request for a node. -/
inductive Call (Key Data Node : Type*) where
  | add (key : Option Key) (data : Data) (malloc : Option Node)
  | put (key : Option Key) (data : Data) (malloc : Option Node)
  | get (key : Option Key)
  | remove (key : Option Key)
  | removePtr (key : Option Key)

def plain (ret : Int) : Reply Key Data := ⟨ret, none, none⟩

/-- iso_htable_create() after successful allocation. -/
def isoHtableCreate (cap : Nat) (hash : Key → UInt32) (compare : Key → Key → Int)
    (memory : Node → Key × Data) : HTable Key Data Node :=
  ⟨fun _ => none, memory, fun _ => false, 0, cap, hash, compare⟩

namespace HTable

variable (t : HTable Key Data Node)

def slotOf (key : Key) : Nat := (t.hash key).toNat % t.cap

variable [DecidableEq Node]

def isoHnodeNew (node : Node) (key : Key) (data : Data) : HTable Key Data Node :=
  { t with
    cell := Function.update t.cell (.next node) none
    entry := Function.update t.entry node (key, data)
    allocated := Function.update t.allocated node true }

/-- `new->next = table->table[hash]; table->table[hash] = new` -/
def link (i : Nat) (node : Node) : HTable Key Data Node :=
  { t with
    cell := Function.update (Function.update t.cell (.next node) (t.cell (.slot i)))
      (.slot i) (some node)
    size := t.size + 1 }

/-- The pointer to the node, in the slot or in the previous node, passes it over. -/
def unlink (pos : Cell Node) (node : Node) : HTable Key Data Node :=
  { t with
    cell := Function.update t.cell pos (t.cell (.next node))
    allocated := Function.update t.allocated node false
    size := t.size - 1 }

/-- The loop over the chain of a key, up to the first node which fits. None is for a loop which
has not ended after as many turns as there are entries. -/
def find (key : Key) (fits : Key → Bool) : Option (Cell Node) :=
  seek .next t.cell (fun n => !fits (t.entry n).1) (t.size + 1) (.slot (t.slotOf key))

def isoHtableAdd (key : Option Key) (data : Data) (malloc : Option Node) :
    Reply Key Data × HTable Key Data Node :=
  match key with
  | none => (plain isoNullPointer, t)
  | some key =>
    match malloc with
    | none => (plain isoOutOfMem, t)
    | some node => (plain isoSuccess, (t.isoHnodeNew node key data).link (t.slotOf key) node)

def isoHtablePut (key : Option Key) (data : Data) (malloc : Option Node) :
    Option (Reply Key Data × HTable Key Data Node) :=
  match key with
  | none => some (plain isoNullPointer, t)
  | some key =>
    (t.find key fun k => t.compare key k = 0).map fun pos =>
      match t.cell pos with
      | some _ => (plain 0, t)
      | none => t.isoHtableAdd (some key) data malloc

def isoHtableGet (key : Option Key) : Option (Reply Key Data × HTable Key Data Node) :=
  match key with
  | none => some (plain isoNullPointer, t)
  | some key =>
    (t.find key fun k => t.compare key k = 0).map fun pos =>
      match t.cell pos with
      | some node => (⟨1, some (t.entry node).2, none⟩, t)
      | none => (plain 0, t)

/-- The removals differ in their test for the key. -/
def removeWhich (key : Option Key) (fits : Key → Key → Bool) :
    Option (Reply Key Data × HTable Key Data Node) :=
  match key with
  | none => some (plain isoNullPointer, t)
  | some key =>
    (t.find key (fits key)).map fun pos =>
      match t.cell pos with
      | some node => (⟨1, none, some (t.entry node)⟩, t.unlink pos node)
      | none => (plain 0, t)

def isoHtableRemove (key : Option Key) : Option (Reply Key Data × HTable Key Data Node) :=
  t.removeWhich key fun key k => t.compare key k = 0

def isoHtableRemovePtr [DecidableEq Key] (key : Option Key) :
    Option (Reply Key Data × HTable Key Data Node) :=
  t.removeWhich key fun key k => key = k

def exec [DecidableEq Key] : Call Key Data Node → Option (Reply Key Data × HTable Key Data Node)
  | .add key data malloc => some (t.isoHtableAdd key data malloc)
  | .put key data malloc => t.isoHtablePut key data malloc
  | .get key => t.isoHtableGet key
  | .remove key => t.isoHtableRemove key
  | .removePtr key => t.isoHtableRemovePtr key

end HTable

/-! ## Multimaps -/

section Multimap

variable (compare : Key → Key → Int) (entries entries' : Multiset (Key × Data))
  (reply : Reply Key Data)

/-- An entry gets in if there is memory for it. -/
def Inserts (key : Key) (data : Data) : Option Node → Prop
  | none => reply = plain isoOutOfMem ∧ entries' = entries
  | some _ => reply = plain isoSuccess ∧ entries' = (key, data) ::ₘ entries

def Finds (key : Key) : Prop :=
  entries' = entries ∧
    ((∃ e ∈ entries, compare key e.1 = 0 ∧ reply = ⟨1, some e.2, none⟩) ∨
      (∀ e ∈ entries, compare key e.1 ≠ 0) ∧ reply = plain 0)

/-- Exactly one fitting entry goes away, or there is none. -/
def Removes (fits : Key → Prop) : Prop :=
  (∃ e, fits e.1 ∧ reply = ⟨1, none, some e⟩ ∧ entries = e ::ₘ entries') ∨
    (∀ e ∈ entries, ¬ fits e.1) ∧ reply = plain 0 ∧ entries' = entries

/-- A NULL key is refused. -/
def Refusing (key : Option Key) (does : Key → Prop) : Prop :=
  match key with
  | none => reply = plain isoNullPointer ∧ entries' = entries
  | some key => does key

/-- What the calls of a multimap do to its entries, and what they reply. -/
def Effect : Call Key Data Node → Prop
  | .add key data malloc => Refusing entries entries' reply key fun key =>
    Inserts entries entries' reply key data malloc
  | .put key data malloc => Refusing entries entries' reply key fun key =>
    (∃ e ∈ entries, compare key e.1 = 0) ∧ reply = plain 0 ∧ entries' = entries ∨
      (∀ e ∈ entries, compare key e.1 ≠ 0) ∧ Inserts entries entries' reply key data malloc
  | .get key => Refusing entries entries' reply key (Finds compare entries entries' reply)
  | .remove key => Refusing entries entries' reply key fun key =>
    Removes entries entries' reply fun k => compare key k = 0
  | .removePtr key => Refusing entries entries' reply key fun key =>
    Removes entries entries' reply fun k => key = k

end Multimap

/-- A node which malloc() gives is not in use. -/
def Call.Fresh (t : HTable Key Data Node) : Call Key Data Node → Prop
  | .add _ _ (some node) | .put _ _ (some node) => t.allocated node = false
  | _ => True

/-! ## Chains -/

section Chains

variable {t : HTable Key Data Node} {chains : Nat → List Node}

def nodes (cap : Nat) (chains : Nat → List Node) : Multiset Node :=
  ∑ i ∈ Finset.range cap, (chains i : Multiset Node)

/-- The nodes of each slot. -/
structure Holds (t : HTable Key Data Node) (chains : Nat → List Node) : Prop where
  equal : ∀ a b, t.compare a b = 0 → t.hash a = t.hash b
  cap_pos : 0 < t.cap
  chain : ∀ i < t.cap, Chain .next t.cell (.slot i) (chains i)
  home : ∀ i < t.cap, ∀ n ∈ chains i, t.slotOf (t.entry n).1 = i
  allocated : ∀ i < t.cap, ∀ n ∈ chains i, t.allocated n = true
  size : t.size = (nodes t.cap chains).card

def Represents (t : HTable Key Data Node) (entries : Multiset (Key × Data)) : Prop :=
  ∃ chains, Holds t chains ∧ entries = (nodes t.cap chains).map t.entry

theorem next_injective : Function.Injective (Cell.next : Node → Cell Node) :=
  fun _ _ h => Cell.next.inj h

theorem mem_nodes {cap : Nat} {n : Node} :
    n ∈ nodes cap chains ↔ ∃ i < cap, n ∈ chains i := by
  rw [nodes, Multiset.mem_sum]
  simp only [Finset.mem_range, Multiset.mem_coe]

theorem nodes_update (chains : Nat → List Node) {cap i : Nat} (hi : i < cap) (l : List Node) :
    nodes cap (Function.update chains i l) + (chains i : Multiset Node) =
      nodes cap chains + (l : Multiset Node) := by
  have hmem := Finset.mem_range.mpr hi
  have hrest : ∑ j ∈ (Finset.range cap).erase i, (Function.update chains i l j : Multiset Node) =
      ∑ j ∈ (Finset.range cap).erase i, (chains j : Multiset Node) :=
    Finset.sum_congr rfl fun j hj => by rw [Function.update_of_ne (Finset.ne_of_mem_erase hj)]
  rw [nodes, nodes, ← Finset.add_sum_erase _ _ hmem, ← Finset.add_sum_erase _ _ hmem, hrest,
    Function.update_self]
  ac_rfl

theorem nodes_insert {cap i : Nat} (hi : i < cap) (n : Node) :
    nodes cap (Function.update chains i (n :: chains i)) = n ::ₘ nodes cap chains := by
  have h := nodes_update chains hi (n :: chains i)
  rw [← Multiset.cons_coe, Multiset.add_cons, ← Multiset.cons_add] at h
  exact add_right_cancel h

theorem nodes_erase {cap i : Nat} (hi : i < cap) {n : Node} {l₁ l₂ : List Node}
    (hsplit : chains i = l₁ ++ n :: l₂) :
    nodes cap chains = n ::ₘ nodes cap (Function.update chains i (l₁ ++ l₂)) := by
  have h := nodes_update chains hi (l₁ ++ l₂)
  have hmiddle : ((l₁ ++ n :: l₂ : List Node) : Multiset Node) = n ::ₘ (l₁ ++ l₂ : List Node) :=
    Multiset.coe_eq_coe.mpr List.perm_middle
  rw [hsplit, hmiddle, Multiset.add_cons, ← Multiset.cons_add] at h
  exact (add_right_cancel h).symm

namespace Holds

variable (h : Holds t chains)

include h

theorem slot_lt (key : Key) : t.slotOf key < t.cap := Nat.mod_lt _ h.cap_pos

theorem slot_unique {i j : Nat} (hi : i < t.cap) (hj : j < t.cap) {n : Node}
    (hni : n ∈ chains i) (hnj : n ∈ chains j) : i = j :=
  (h.home i hi n hni).symm.trans (h.home j hj n hnj)

theorem length_le {i : Nat} (hi : i < t.cap) : (chains i).length ≤ t.size := by
  have hcard := congrArg Multiset.card (nodes_update chains hi [])
  rw [Multiset.card_add, Multiset.card_add, Multiset.coe_card, ← h.size] at hcard
  exact Nat.le_of_add_left_le hcard.le

/-- The search ends behind the chain, where nothing fits, or at the first fitting node. -/
theorem find_cases (key : Key) (fits : Key → Bool) :
    ∃ pos, t.find key fits = some pos ∧
      (t.cell pos = none ∧ (∀ n ∈ chains (t.slotOf key), fits (t.entry n).1 = false) ∨
        ∃ l₁ n l₂, chains (t.slotOf key) = l₁ ++ n :: l₂ ∧
          pos = endCell .next (.slot (t.slotOf key)) l₁ ∧ t.cell pos = some n ∧
          fits (t.entry n).1 = true ∧ ∀ m ∈ l₁, fits (t.entry m).1 = false) := by
  have hlt := h.slot_lt key
  have hchain := h.chain _ hlt
  have hsteps := Nat.lt_succ_of_le (h.length_le hlt)
  refine ⟨_, CellLists.seek_eq _ hchain hsteps, ?_⟩
  have hsplit := (List.takeWhile_append_dropWhile
    (p := fun n => !fits (t.entry n).1) (l := chains (t.slotOf key))).symm
  rw [hsplit] at hchain
  have hdrop := hchain.drop
  cases hrest : (chains (t.slotOf key)).dropWhile fun n => !fits (t.entry n).1 with
  | nil =>
    rw [hrest] at hdrop
    refine Or.inl ⟨hdrop, fun n hn => ?_⟩
    have hall := List.dropWhile_eq_nil_iff.mp hrest n hn
    simpa using hall
  | cons n l₂ =>
    rw [hrest] at hdrop hsplit
    have hfits := List.head_dropWhile_not (fun n => !fits (t.entry n).1) (by rw [hrest]; simp)
    simp only [hrest, List.head_cons, Bool.not_eq_false'] at hfits
    refine Or.inr ⟨_, n, l₂, hsplit, rfl, hdrop.1, hfits, fun m hm => ?_⟩
    simpa using List.mem_takeWhile_imp hm

variable [DecidableEq Node]

theorem link {node : Node} (hfresh : t.allocated node = false) (key : Key) (data : Data) :
    Holds ((t.isoHnodeNew node key data).link (t.slotOf key) node)
      (Function.update chains (t.slotOf key) (node :: chains (t.slotOf key))) := by
  have hlt := h.slot_lt key
  have hnew {i : Nat} (hi : i < t.cap) {n : Node} (hn : n ∈ chains i) : n ≠ node := by
    rintro rfl
    rw [h.allocated i hi n hn] at hfresh
    cases hfresh
  have hkept {c : Cell Node} (hslot : c ≠ .slot (t.slotOf key)) (hnext : c ≠ .next node) :
      ((t.isoHnodeNew node key data).link (t.slotOf key) node).cell c = t.cell c := by
    simp [HTable.link, HTable.isoHnodeNew, hslot, hnext]
  have hmem {i : Nat} (hi : i < t.cap) {n : Node} (hn : n ∈ Function.update chains (t.slotOf key)
      (node :: chains (t.slotOf key)) i) : n = node ∧ i = t.slotOf key ∨ n ∈ chains i := by
    by_cases hik : i = t.slotOf key
    · subst hik
      rw [Function.update_self] at hn
      exact (List.mem_cons.mp hn).imp_left fun heq => ⟨heq, rfl⟩
    · rw [Function.update_of_ne hik] at hn
      exact Or.inr hn
  constructor
  · exact h.equal
  · exact h.cap_pos
  · intro i hi
    have hlinks : ∀ n ∈ chains i, ((t.isoHnodeNew node key data).link (t.slotOf key) node).cell
        (.next n) = t.cell (.next n) := fun n hn =>
      hkept nofun fun heq => hnew hi hn (Cell.next.inj heq)
    by_cases hik : i = t.slotOf key
    · subst hik
      rw [Function.update_self]
      refine ⟨Function.update_self .., (h.chain _ hi).move ?_ hlinks⟩
      simp [HTable.link, HTable.isoHnodeNew]
    · rw [Function.update_of_ne hik]
      exact (h.chain i hi).move (hkept (fun heq => hik (Cell.slot.inj heq)) nofun) hlinks
  · intro i hi n hn
    rcases hmem hi hn with ⟨rfl, rfl⟩ | hold
    · change t.slotOf (Function.update t.entry n (key, data) n).1 = _
      rw [Function.update_self]
    · change t.slotOf (Function.update t.entry node (key, data) n).1 = i
      rw [Function.update_of_ne (hnew hi hold), h.home i hi n hold]
  · intro i hi n hn
    rcases hmem hi hn with ⟨rfl, -⟩ | hold
    · exact Function.update_self ..
    · exact (Function.update_of_ne (hnew hi hold) ..).trans (h.allocated i hi n hold)
  · calc t.size + 1 = (nodes t.cap chains).card + 1 := by rw [h.size]
      _ = _ := by rw [← Multiset.card_cons node, ← nodes_insert hlt]; rfl

theorem unlink {i : Nat} (hi : i < t.cap) {n : Node} {l₁ l₂ : List Node}
    (hsplit : chains i = l₁ ++ n :: l₂) :
    Holds (t.unlink (endCell .next (.slot i) l₁) n) (Function.update chains i (l₁ ++ l₂)) := by
  have hchain := hsplit ▸ h.chain i hi
  have hnodup := List.nodup_append.mp hchain.nodup
  have hmem {j : Nat} (hj : j < t.cap) {m : Node}
      (hm : m ∈ Function.update chains i (l₁ ++ l₂) j) : m ∈ chains j ∧ m ≠ n := by
    by_cases hji : j = i
    · subst hji
      rw [Function.update_self] at hm
      have hperm := List.perm_middle.nodup_iff.mp hchain.nodup
      refine ⟨hsplit ▸ List.perm_middle.mem_iff.mpr (List.mem_cons_of_mem n hm), ?_⟩
      rintro rfl
      exact (List.nodup_cons.mp hperm).1 hm
    · rw [Function.update_of_ne hji] at hm
      refine ⟨hm, ?_⟩
      rintro rfl
      exact hji (h.slot_unique hj hi hm (hsplit ▸ List.mem_append_right l₁ List.mem_cons_self))
  constructor
  · exact h.equal
  · exact h.cap_pos
  · intro j hj
    by_cases hji : j = i
    · subst hji
      rw [Function.update_self]
      refine hchain.change next_injective nofun
        (fun c hc _ => Function.update_of_ne hc ..) (hchain.drop.2.move ?_ fun m hm => ?_)
      · exact Function.update_self ..
      · have hm₁ : m ∉ l₁ := fun hm' => hnodup.2.2 m hm' m (List.mem_cons_of_mem n hm) rfl
        exact Function.update_of_ne
          (CellLists.endCell_ne next_injective nofun hm₁).symm ..
    · rw [Function.update_of_ne hji]
      have hend := @CellLists.endCell_mem _ _ Cell.next (.slot i) l₁
      refine (h.chain j hj).move (Function.update_of_ne ?_ ..) fun m hm =>
        Function.update_of_ne ?_ ..
      · rintro heq
        simp [← heq, hji] at hend
      · rintro heq
        have hm₁ : m ∈ l₁ := by simpa [← heq] using hend
        exact hji (h.slot_unique hj hi hm (hsplit ▸ List.mem_append_left _ hm₁))
  · exact fun j hj m hm => h.home j hj m (hmem hj hm).1
  · intro j hj m hm
    exact (Function.update_of_ne (hmem hj hm).2 ..).trans (h.allocated j hj m (hmem hj hm).1)
  · have hcard := congrArg Multiset.card (nodes_erase hi hsplit)
    rw [Multiset.card_cons, ← h.size] at hcard
    exact Nat.sub_eq_of_eq_add hcard

end Holds

end Chains

/-! ## The calls -/

section Calls

variable {t : HTable Key Data Node} {entries : Multiset (Key × Data)}

theorem holds_create {cap : Nat} (hcap : 0 < cap) {hash : Key → UInt32}
    {compare : Key → Key → Int} (hequal : ∀ a b, compare a b = 0 → hash a = hash b)
    (memory : Node → Key × Data) :
    Holds (isoHtableCreate cap hash compare memory) fun _ => [] :=
  ⟨hequal, hcap, fun _ _ => rfl, nofun, nofun, (congrArg Multiset.card Finset.sum_const_zero).symm⟩

theorem represents_create {cap : Nat} (hcap : 0 < cap) {hash : Key → UInt32}
    {compare : Key → Key → Int} (hequal : ∀ a b, compare a b = 0 → hash a = hash b)
    (memory : Node → Key × Data) : Represents (isoHtableCreate cap hash compare memory) 0 := by
  refine ⟨_, holds_create hcap hequal memory, ?_⟩
  have hnone : nodes cap (fun _ => ([] : List Node)) = 0 := Finset.sum_const_zero
  change 0 = (nodes cap fun _ => []).map memory
  rw [hnone, Multiset.map_zero]

theorem Represents.size_eq (h : Represents t entries) : t.size = entries.card := by
  obtain ⟨chains, hchains, rfl⟩ := h
  rw [Multiset.card_map, hchains.size]

variable [DecidableEq Node]

theorem Represents.link (h : Represents t entries) {node : Node}
    (hfresh : t.allocated node = false) (key : Key) (data : Data) :
    Represents ((t.isoHnodeNew node key data).link (t.slotOf key) node)
      ((key, data) ::ₘ entries) := by
  obtain ⟨chains, hchains, rfl⟩ := h
  refine ⟨_, hchains.link hfresh key data, ?_⟩
  have hlt := hchains.slot_lt key
  have hold : (nodes t.cap chains).map (Function.update t.entry node (key, data)) =
      (nodes t.cap chains).map t.entry := by
    refine Multiset.map_congr rfl fun n hn => Function.update_of_ne ?_ ..
    rintro rfl
    obtain ⟨i, hi, hmem⟩ := mem_nodes.mp hn
    rw [hchains.allocated i hi n hmem] at hfresh
    cases hfresh
  change _ = (nodes t.cap _).map (Function.update t.entry node (key, data))
  rw [nodes_insert hlt, Multiset.map_cons, hold, Function.update_self]

/-- What the search finds, if only keys in the same slot fit. -/
theorem Represents.search (h : Represents t entries) {key : Key} {fits : Key → Bool}
    (hslot : ∀ k, fits k = true → t.slotOf k = t.slotOf key) :
    ∃ pos, t.find key fits = some pos ∧
      (t.cell pos = none ∧ (∀ e ∈ entries, fits e.1 = false) ∨
        ∃ n, t.cell pos = some n ∧ fits (t.entry n).1 = true ∧
          ∃ rest, entries = t.entry n ::ₘ rest ∧ Represents (t.unlink pos n) rest) := by
  obtain ⟨chains, hchains, rfl⟩ := h
  obtain ⟨pos, hfind, hcases⟩ := hchains.find_cases key fits
  refine ⟨pos, hfind, ?_⟩
  rcases hcases with ⟨hnone, hmiss⟩ | ⟨l₁, n, l₂, hsplit, rfl, hcell, hfits, -⟩
  · refine Or.inl ⟨hnone, fun e he => ?_⟩
    obtain ⟨n, hn, rfl⟩ := Multiset.mem_map.mp he
    obtain ⟨i, hi, hmem⟩ := mem_nodes.mp hn
    by_contra hfits
    have hsame := hslot _ (Bool.eq_true_of_not_eq_false hfits)
    rw [hchains.home i hi n hmem] at hsame
    exact hfits (hmiss n (hsame ▸ hmem))
  · have hlt := hchains.slot_lt key
    refine Or.inr ⟨n, hcell, hfits, _, ?_, _, hchains.unlink hlt hsplit, rfl⟩
    change _ = t.entry n ::ₘ (nodes t.cap _).map t.entry
    rw [nodes_erase hlt hsplit, Multiset.map_cons]

theorem Represents.add (h : Represents t entries) (key : Key) (data : Data)
    {malloc : Option Node} (hfresh : (Call.add (some key) data malloc).Fresh t) :
    ∃ entries', Inserts entries entries' (t.isoHtableAdd (some key) data malloc).1 key data malloc ∧
      (t.isoHtableAdd (some key) data malloc).2.compare = t.compare ∧
      Represents (t.isoHtableAdd (some key) data malloc).2 entries' := by
  cases malloc with
  | none => exact ⟨entries, ⟨rfl, rfl⟩, rfl, h⟩
  | some node => exact ⟨_, ⟨rfl, rfl⟩, rfl, h.link hfresh key data⟩

theorem Represents.removeWhich (h : Represents t entries) (key : Option Key)
    {fits : Key → Key → Bool}
    (hslot : ∀ key k, fits key k = true → t.slotOf k = t.slotOf key) :
    ∃ reply t' entries', t.removeWhich key fits = some (reply, t') ∧
      (Refusing entries entries' reply key fun key =>
        Removes entries entries' reply fun k => fits key k = true) ∧
      t'.compare = t.compare ∧ Represents t' entries' := by
  cases key with
  | none => exact ⟨_, t, entries, rfl, ⟨rfl, rfl⟩, rfl, h⟩
  | some key =>
    obtain ⟨pos, hfind, hcases⟩ := h.search (hslot key)
    rcases hcases with ⟨hnone, hmiss⟩ | ⟨n, hcell, hfits, rest, rfl, hrest⟩
    · refine ⟨plain 0, t, entries, ?_, Or.inr ⟨fun e he => by simp [hmiss e he], rfl, rfl⟩, rfl, h⟩
      simp [HTable.removeWhich, hfind, hnone]
    · refine ⟨⟨1, none, some (t.entry n)⟩, t.unlink pos n, rest, ?_,
        Or.inl ⟨_, hfits, rfl, rfl⟩, rfl, hrest⟩
      simp [HTable.removeWhich, hfind, hcell]

variable [DecidableEq Key]

/-- Each call returns, and the table stays a multimap. -/
theorem Represents.exec (h : Represents t entries) {call : Call Key Data Node}
    (hfresh : call.Fresh t) :
    ∃ reply t' entries', t.exec call = some (reply, t') ∧
      Effect t.compare entries entries' reply call ∧ t'.compare = t.compare ∧
      Represents t' entries' := by
  have hslot (key k : Key) (hk : decide (t.compare key k = 0) = true) :
      t.slotOf k = t.slotOf key := by
    obtain ⟨chains, hchains, -⟩ := h
    rw [HTable.slotOf, HTable.slotOf, hchains.equal key k (of_decide_eq_true hk)]
  cases call with
  | add key data malloc =>
    cases key with
    | none => exact ⟨_, t, entries, rfl, ⟨rfl, rfl⟩, rfl, h⟩
    | some key =>
      obtain ⟨entries', hinserts, hrep⟩ := h.add key data hfresh
      exact ⟨_, _, entries', rfl, hinserts, hrep⟩
  | put key data malloc =>
    cases key with
    | none => exact ⟨_, t, entries, rfl, ⟨rfl, rfl⟩, rfl, h⟩
    | some key =>
      obtain ⟨pos, hfind, hcases⟩ := h.search (hslot key)
      rcases hcases with ⟨hnone, hmiss⟩ | ⟨n, hcell, hfits, rest, hentries, -⟩
      · have hadd : (Call.add (some key) data malloc).Fresh t := by
          cases malloc with
          | none => trivial
          | some node => exact hfresh
        obtain ⟨entries', hinserts, hrep⟩ := h.add key data hadd
        refine ⟨_, _, entries', ?_, Or.inr ⟨fun e he => ?_, hinserts⟩, hrep⟩
        · simp [HTable.exec, HTable.isoHtablePut, hfind, hnone]
        · exact of_decide_eq_false (hmiss e he)
      · refine ⟨plain 0, t, entries, ?_, Or.inl ⟨⟨t.entry n, ?_, of_decide_eq_true hfits⟩,
          rfl, rfl⟩, rfl, h⟩
        · simp [HTable.exec, HTable.isoHtablePut, hfind, hcell]
        · exact hentries ▸ Multiset.mem_cons_self _ _
  | get key =>
    cases key with
    | none => exact ⟨_, t, entries, rfl, ⟨rfl, rfl⟩, rfl, h⟩
    | some key =>
      obtain ⟨pos, hfind, hcases⟩ := h.search (hslot key)
      rcases hcases with ⟨hnone, hmiss⟩ | ⟨n, hcell, hfits, rest, hentries, -⟩
      · refine ⟨plain 0, t, entries, ?_, ⟨rfl, Or.inr ⟨fun e he => ?_, rfl⟩⟩, rfl, h⟩
        · simp [HTable.exec, HTable.isoHtableGet, hfind, hnone]
        · exact of_decide_eq_false (hmiss e he)
      · refine ⟨⟨1, some (t.entry n).2, none⟩, t, entries, ?_,
          ⟨rfl, Or.inl ⟨t.entry n, ?_, of_decide_eq_true hfits, rfl⟩⟩, rfl, h⟩
        · simp [HTable.exec, HTable.isoHtableGet, hfind, hcell]
        · exact hentries ▸ Multiset.mem_cons_self _ _
  | remove key =>
    have hremoved := h.removeWhich key hslot
    simp only [decide_eq_true_eq] at hremoved
    exact hremoved
  | removePtr key =>
    have hsame (key k : Key) (hk : decide (key = k) = true) : t.slotOf k = t.slotOf key := by
      rw [of_decide_eq_true hk]
    have hremoved := h.removeWhich key hsame
    simp only [decide_eq_true_eq] at hremoved
    exact hremoved

/-- From the table on, the calls do to its entries what they do to those of a multimap. -/
def Behaves (compare : Key → Key → Int) :
    HTable Key Data Node → Multiset (Key × Data) → List (Call Key Data Node) → Prop
  | t, entries, [] => Represents t entries ∧ t.size = entries.card
  | t, entries, call :: calls =>
    Represents t entries ∧ t.size = entries.card ∧
      (call.Fresh t → ∃ reply t' entries', t.exec call = some (reply, t') ∧
        Effect compare entries entries' reply call ∧ Behaves compare t' entries' calls)

theorem Represents.behaves (h : Represents t entries) (calls : List (Call Key Data Node)) :
    Behaves t.compare t entries calls := by
  induction calls generalizing t entries with
  | nil => exact ⟨h, h.size_eq⟩
  | cons call calls ih =>
    refine ⟨h, h.size_eq, fun hfresh => ?_⟩
    obtain ⟨reply, t', entries', hexec, heffect, hcompare, hrep⟩ := h.exec hfresh
    exact ⟨reply, t', entries', hexec, heffect, hcompare ▸ ih hrep⟩

/-- The hash table is a multimap. -/
theorem isoHtable_is_multimap {cap : Nat} (hcap : 0 < cap) {hash : Key → UInt32}
    {compare : Key → Key → Int} (hequal : ∀ a b, compare a b = 0 → hash a = hash b)
    (memory : Node → Key × Data) (calls : List (Call Key Data Node)) :
    Behaves compare (isoHtableCreate cap hash compare memory) 0 calls :=
  (represents_create hcap hequal memory).behaves calls

/-- Two keys with the same content, and only the second one gets removed. -/
theorem equal_keys_multimap :
    Behaves (fun a b : Nat × Nat => (a.2 : Int) - b.2)
      (isoHtableCreate 3 (fun k => UInt32.ofNat k.2) (fun a b => (a.2 : Int) - b.2)
        fun _ : Nat => ((0, 0), 'x')) 0
      [.add (some (1, 7)) 'a' (some 10), .add (some (2, 7)) 'b' (some 11),
        .put (some (3, 7)) 'c' (some 12), .removePtr (some (2, 7)), .get (some (4, 7)),
        .remove (some (4, 7))] :=
  isoHtable_is_multimap (by decide)
    (fun a b h => congrArg UInt32.ofNat (Int.ofNat.inj (Int.sub_eq_zero.mp h))) _ _

end Calls

/-! ## Tables of names -/

section Names

open ChainedTables (KeyPtr Table)

variable {Name : Type*} {contents : Nat → Name}
variable {t : HTable Nat Data Node} {table : Table Name}

/-- A pointer and the name to which it points. -/
def keyPtr (contents : Nat → Name) (p : Nat) : KeyPtr Name := ⟨p, contents p⟩

/-- The chains are those of a table of names, of which only the keys matter. -/
structure Shows (contents : Nat → Name) (t : HTable Nat Data Node) (table : Table Name) :
    Prop where
  compare : ∀ p q, t.compare p q = 0 ↔ contents p = contents q
  cap : table.cap = t.cap
  hash : ∀ p, table.hash (contents p) = (t.hash p).toNat
  chains : ∃ chains, Holds t chains ∧
    ∀ i < t.cap, table.slots i = (chains i).map fun n => keyPtr contents (t.entry n).1

theorem Shows.slot_eq (shows : Shows contents t table) (p : Nat) :
    table.slot (contents p) = t.slotOf p := by
  rw [Table.slot, HTable.slotOf, shows.hash, shows.cap]

theorem shows_create {cap : Nat} (hcap : 0 < cap) {hash : Nat → UInt32}
    {compare : Nat → Nat → Int} {hashName : Name → Nat}
    (hcompare : ∀ p q, compare p q = 0 ↔ contents p = contents q)
    (hhash : ∀ p, hashName (contents p) = (hash p).toNat) (memory : Node → Nat × Data) :
    Shows contents (isoHtableCreate cap hash compare memory)
      (ChainedTables.create cap hashName) := by
  refine ⟨hcompare, rfl, hhash, _, holds_create hcap (fun p q heq => ?_) memory, fun _ _ => rfl⟩
  rw [← UInt32.toNat_inj, ← hhash p, ← hhash q, (hcompare p q).mp heq]

/-- A chain of both tables changes. -/
theorem update_slots {chains : Nat → List Node} {f : Node → KeyPtr Name} {cap s : Nat}
    {chain : List Node} {names : List (KeyPtr Name)}
    (hslots : ∀ i < cap, table.slots i = (chains i).map f) (hnames : names = chain.map f) :
    ∀ i < cap, Function.update table.slots s names i = (Function.update chains s chain i).map f := by
  intro i hi
  by_cases hs : i = s
  · subst hs
    rw [Function.update_self, Function.update_self, hnames]
  · rw [Function.update_of_ne hs, Function.update_of_ne hs, hslots i hi]

/-- The search for a name tells whether the table of names has it. -/
theorem Shows.get [DecidableEq Name] (shows : Shows contents t table) (p : Nat) :
    ∃ reply, t.isoHtableGet (some p) = some (reply, t) ∧
      (reply.ret = 1 ↔ table.get (contents p) = true) := by
  obtain ⟨chains, hchains, hslots⟩ := shows.chains
  obtain ⟨pos, hfind, hcases⟩ := hchains.find_cases p fun q => t.compare p q = 0
  have hget : table.get (contents p) = true ↔
      ∃ n ∈ chains (t.slotOf p), t.compare p (t.entry n).1 = 0 := by
    rw [Table.get, shows.slot_eq, hslots _ (hchains.slot_lt p), List.any_map, List.any_eq_true]
    refine exists_congr fun n => and_congr_right fun _ => ?_
    rw [shows.compare, Function.comp_apply, decide_eq_true_iff, eq_comm]
    rfl
  rcases hcases with ⟨hnone, hmiss⟩ | ⟨l₁, n, l₂, hsplit, -, hcell, hfits, -⟩
  · refine ⟨plain 0, by simp [HTable.isoHtableGet, hfind, hnone], ?_⟩
    refine iff_of_false (show ¬ (0 : Int) = 1 by decide) fun h => ?_
    obtain ⟨n, hn, heq⟩ := hget.mp h
    exact of_decide_eq_false (hmiss n hn) heq
  · refine ⟨⟨1, some (t.entry n).2, none⟩, by simp [HTable.isoHtableGet, hfind, hcell], ?_⟩
    refine iff_of_true rfl (hget.mpr ⟨n, ?_, of_decide_eq_true hfits⟩)
    rw [hsplit]
    exact List.mem_append_right _ List.mem_cons_self

variable [DecidableEq Node]

theorem Shows.add (shows : Shows contents t table) (p : Nat) (data : Data) {node : Node}
    (hfresh : t.allocated node = false) :
    Shows contents (t.isoHtableAdd (some p) data (some node)).2
      (table.add (keyPtr contents p)) := by
  obtain ⟨chains, hchains, hslots⟩ := shows.chains
  have hold : ∀ i < t.cap, table.slots i = (chains i).map fun n => keyPtr contents
      (Function.update t.entry node (p, data) n).1 := by
    intro i hi
    rw [hslots i hi]
    refine List.map_congr_left fun n hn => ?_
    rw [Function.update_of_ne]
    rintro rfl
    exact Bool.false_ne_true (hfresh.symm.trans (hchains.allocated i hi n hn))
  refine ⟨shows.compare, shows.cap, shows.hash, _, hchains.link hfresh p data, ?_⟩
  have hslot := shows.slot_eq p
  have hlt := hchains.slot_lt p
  rw [← hslot] at hlt ⊢
  refine update_slots hold ?_
  refine congrArg₂ List.cons ?_ (hold _ hlt)
  change _ = keyPtr contents (Function.update t.entry node (p, data) node).1
  rw [Function.update_self]

theorem Shows.removePtr (shows : Shows contents t table) (p : Nat) :
    ∃ reply t', t.isoHtableRemovePtr (some p) = some (reply, t') ∧
      Shows contents t' (table.removePtr (keyPtr contents p)) := by
  obtain ⟨chains, hchains, hslots⟩ := shows.chains
  obtain ⟨pos, hfind, hcases⟩ := hchains.find_cases p fun q => p = q
  have hlt := hchains.slot_lt p
  have hslot := shows.slot_eq p
  have hother {chain : List Node} (hmiss : ∀ n ∈ chain, decide (p = (t.entry n).1) = false) :
      ∀ k ∈ chain.map (fun n => keyPtr contents (t.entry n).1), ¬ decide (k.ptr = p) = true := by
    intro k hk
    obtain ⟨n, hn, rfl⟩ := List.mem_map.mp hk
    exact fun h => of_decide_eq_false (hmiss n hn) (of_decide_eq_true h).symm
  rcases hcases with ⟨hnone, hmiss⟩ | ⟨l₁, n, l₂, hsplit, rfl, hcell, hfits, hmiss⟩
  · refine ⟨plain 0, t, by simp [HTable.isoHtableRemovePtr, HTable.removeWhich, hfind, hnone],
      shows.compare, shows.cap, shows.hash, chains, hchains, ?_⟩
    rw [← Function.update_eq_self (t.slotOf p) chains, ← hslot]
    refine update_slots hslots ?_
    change (table.slots (table.slot (contents p))).eraseP (fun k => k.ptr = p) = _
    rw [hslot, hslots _ hlt]
    exact List.eraseP_of_forall_not (hother hmiss)
  · refine ⟨⟨1, none, some (t.entry n)⟩, t.unlink _ n,
      by simp [HTable.isoHtableRemovePtr, HTable.removeWhich, hfind, hcell],
      shows.compare, shows.cap, shows.hash, _, hchains.unlink hlt hsplit, ?_⟩
    rw [← hslot]
    refine update_slots hslots ?_
    change (table.slots (table.slot (contents p))).eraseP (fun k => k.ptr = p) = _
    rw [hslot, hslots _ hlt, hsplit, List.map_append, List.map_cons,
      List.eraseP_append_right _ (hother hmiss), List.eraseP_cons_of_pos, List.map_append]
    · rfl
    · exact decide_eq_true (of_decide_eq_true hfits).symm

end Names

end HashTable
