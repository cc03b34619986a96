import Libisofs.DirTreeRuns
import Libisofs.Lib.Cursors

/-!
# Iterators of directories which change

An iterator is a cursor in the list of its directory. Each call edits that list and carries
the iterator along, unless two iterators are at a node which gets taken, or an iterator is
at a node which gets replaced: nobody tells them.
-/

namespace DirTree

open CellLists Cursors LabelledRuns
open SymlinkTarget (Bytes)

variable {Node : Type} [DecidableEq Node] [Fintype Node]

/-- The node is in the list of the directory. -/
def IsChild (t : Tree Node) (d n : Node) : Prop := ∃ l, t.childList d = some l ∧ n ∈ l

/-- No iterator is at the node. -/
def NobodyAt (t : Tree Node) (n : Node) : Prop := ∀ i ∈ t.reg, (t.iter i).pos ≠ some n

/-- Harmless calls which tell all iterators what they have to know. -/
def Careful (t : Tree Node) (op : Op Node) : Prop :=
  Harmless t op ∧
    match op with
    | .insert dir node replace | .addNode dir node replace =>
      t.parent node = none → dir ≠ node → ∀ old, t.parent old = some dir →
        t.name old = t.name node → t.keepsOld replace old node = false → NobodyAt t old
    | .take node | .remove node => AloneAt t node
    | .iterTake i | .iterRemove i =>
      (t.iter i).flag = true → ∀ node, (t.iter i).pos = some node → AloneAt t node
    | .setName _ _ => False
    | .getChildren _ _ | .iterNext _ | .iterFree _ => True

/-- The iterator divides the list of its directory. -/
structure At (t : Tree Node) (i : Nat) (passed ahead : List Node) : Prop where
  list : ListLinked t (t.iter i).dir (passed ++ ahead)
  pos : (t.iter i).pos = passed.getLast?

/-- All iterators are at children. -/
def Aligned (t : Tree Node) : Prop := ∀ i ∈ t.reg, ∃ passed ahead, At t i passed ahead

/-- The list of an iterator's directory has been edited. -/
structure Tracks (t t' : Tree Node) (i : Nat) : Prop where
  registered : i ∈ t'.reg
  dir : (t'.iter i).dir = (t.iter i).dir
  edit : ∀ l, ListLinked t (t.iter i).dir l →
    ∃ l', ListLinked t' (t.iter i).dir l' ∧ Edit (t.iter i).pos l (t'.iter i).pos l'

section Tracking

variable {t s t' : Tree Node} {i : Nat} {passed ahead : List Node} {d n : Node}

omit [DecidableEq Node] [Fintype Node] in
theorem Tracks.at (h : Tracks t t' i) (hat : At t i passed ahead) :
    ∃ passed' ahead', At t' i passed' ahead' ∧ KeepsSides passed ahead passed' ahead' := by
  obtain ⟨l', hl', hedit⟩ := h.edit _ hat.list
  obtain ⟨passed', ahead', hs, hsides⟩ :=
    hedit.keeps ⟨rfl, hat.pos⟩ hat.list.chain.nodup
  refine ⟨passed', ahead', ⟨?_, hs.pos⟩, hsides⟩
  rw [h.dir, ← hs.list]
  exact hl'

omit [DecidableEq Node] [Fintype Node] in
theorem At.parent (hat : At t i passed ahead) {p : Node} (hp : (t.iter i).pos = some p) :
    t.parent p = some (t.iter i).dir ∧ p ≠ (t.iter i).dir := by
  apply (hat.list.mem p).mp
  exact List.mem_append_left _ (List.mem_of_getLast? (hat.pos.symm.trans hp))

omit [DecidableEq Node] [Fintype Node] in
theorem pre_endCell (d : Node) (l : List Node) :
    (endCell Link.next (.children d) l).pre = l.getLast? := by
  rcases @endCell_cases _ _ Link.next (Link.children d) l with ⟨rfl, h⟩ | ⟨l', m, rfl, h⟩
  · rw [h]
    rfl
  · rw [h]
    simp [Link.pre]

omit [DecidableEq Node] [Fintype Node] in
/-- The next node is the first one ahead. -/
theorem At.next (hat : At t i passed ahead) : t.cell (nextLink (t.iter i)) = ahead.head? := by
  have hlink : nextLink (t.iter i) = endCell Link.next (.children (t.iter i).dir) passed := by
    rcases List.eq_nil_or_concat' passed with rfl | ⟨l, m, rfl⟩
    · have hpos : (t.iter i).pos = none := hat.pos
      rw [nextLink, hpos]
      rfl
    · have hpos : (t.iter i).pos = some m := by
        rw [hat.pos]
        simp
      rw [nextLink, hpos, endCell_concat]
  rw [hlink]
  cases ahead with
  | nil => exact hat.list.chain.drop
  | cons n ahead => exact hat.list.chain.drop.1

omit [DecidableEq Node] [Fintype Node] in
theorem ListLinked.of_dirs {l : List Node} (h : ListLinked t d l)
    (hdirs : t'.toDirs = t.toDirs) : ListLinked t' d l := by
  obtain ⟨hchain, hcount, hsmall, hmem⟩ := h
  rw [← hdirs] at hchain hcount hmem
  exact ⟨hchain, hcount, hsmall, hmem⟩

omit [DecidableEq Node] [Fintype Node] in
/-- References and other iterators may change. -/
theorem tracks_of_dirs (hdirs : t'.toDirs = t.toDirs) (hi : i ∈ t'.reg)
    (hdir : (t'.iter i).dir = (t.iter i).dir) (hpos : (t'.iter i).pos = (t.iter i).pos) :
    Tracks t t' i where
  registered := hi
  dir := hdir
  edit l hl := by
    refine ⟨l, hl.of_dirs hdirs, ?_⟩
    rw [hpos]
    exact .same

omit [DecidableEq Node] [Fintype Node] in
theorem tracks_refl (hi : i ∈ t.reg) : Tracks t t i :=
  ⟨hi, rfl, fun l hl => ⟨l, hl, .same⟩⟩

omit [Fintype Node] in
theorem Decays.tracks (hr : Decays t t') (ho' : Orderly t') (hi : i ∈ t.reg) :
    Tracks t t' i where
  registered := hr.reg ▸ hi
  dir := by rw [hr.iter]
  edit l hl := by
    have hlive := (iter_dir_live ho' (hr.reg ▸ hi)).1
    rw [hr.iter] at hlive ⊢
    exact ⟨l, hl.released hr hlive, .same⟩

omit [Fintype Node] in
/-- Behind the first step the iterator may have moved. -/
theorem Tracks.released (h : Tracks t s i) (hr : Decays s t') (ho' : Orderly t') :
    Tracks t t' i where
  registered := hr.reg ▸ h.registered
  dir := by rw [hr.iter, h.dir]
  edit l hl := by
    obtain ⟨l', hl', hedit⟩ := h.edit l hl
    have hlive := (iter_dir_live ho' (hr.reg ▸ h.registered)).1
    rw [hr.iter, h.dir] at hlive
    rw [hr.iter]
    exact ⟨l', hl'.released hr hlive, hedit⟩

omit [Fintype Node] in
theorem Taken.tracks {l₁ l₂ : List Node} (hchild : ChildAt t d n l₁ l₂)
    (htaken : Taken t s d n l₁ l₂) (halone : AloneAt t n) (haligned : Aligned t)
    (hi : i ∈ t.reg) : Tracks t s i where
  registered := by
    rw [htaken.frame]
    exact hi
  dir := htaken.dir i
  edit l hl := by
    have hdirs : ∀ j ∈ t.reg, (t.iter j).pos = some n → (t.iter j).dir = d := by
      intro j hj hpos
      obtain ⟨passed, ahead, hat⟩ := haligned j hj
      exact Option.some.inj ((hat.parent hpos).1.symm.trans hchild.parent.1)
    rcases eq_or_ne (t.iter i).dir d with heq | hne
    · rw [heq] at hl ⊢
      obtain rfl := hl.unique hchild.list
      refine ⟨_, htaken.list hchild, ?_⟩
      rcases htaken.pos i with hsame | ⟨hpos, hmoved⟩
      · have haway := htaken.leaves halone hdirs i hi
        rw [hsame] at haway ⊢
        exact .leave rfl haway
      · rw [hmoved, pre_endCell]
        exact .back rfl hpos
    · refine ⟨l, htaken.other hchild hne hl, ?_⟩
      rcases htaken.pos i with hsame | ⟨hpos, -⟩
      · rw [hsame]
        exact .same
      · exact absurd (hdirs i hi hpos) hne

omit [Fintype Node] in
theorem TakeEffect.tracks {releases : Bool} (ho : Orderly t) (h : TakeEffect t n releases t')
    (halone : AloneAt t n) (haligned : Aligned t) (hi : i ∈ t.reg) : Tracks t t' i := by
  cases h with
  | taken child taken => exact taken.tracks child halone haligned hi
  | removed child taken released =>
    have ho' := (taken.orderly ho child).released released
    exact (taken.tracks child halone haligned hi).released released.toDecays ho'

theorem Inserted.tracks {replace : ReplaceMode} {ret : Ret Node} (ho : Orderly t)
    (h : Inserted t d n replace t' ret)
    (haway : t.parent n = none → d ≠ n → ∀ old, t.parent old = some d →
      t.name old = t.name n → t.keepsOld replace old n = false → NobodyAt t old)
    (hi : i ∈ t.reg) : Tracks t t' i := by
  have ho' := h.orderly ho
  cases h with
  | refused child name e => exact tracks_refl hi
  | @linked l₁ l₂ joins small before behind =>
    refine ⟨hi, rfl, fun l hl => ?_⟩
    rcases eq_or_ne (t.iter i).dir d with heq | hne
    · rw [heq] at hl ⊢
      obtain rfl := hl.unique joins.list
      exact ⟨_, linkedIn_list joins small, .join rfl (joins.notIn joins.list)⟩
    · exact ⟨l, linkedIn_other joins hne hl, .same⟩
  | @replaced u old l₁ l₂ replaced name mode =>
    have hreg : (u.putAt d n (endCell Link.next (.children d) l₁)).reg = t.reg :=
      replaced.released.reg
    have hiter : (u.putAt d n (endCell Link.next (.children d) l₁)).iter = t.iter :=
      replaced.released.iter
    have hlive := (iter_dir_live ho' (hreg.symm ▸ hi)).1
    rw [hiter] at hlive
    refine ⟨hreg.symm ▸ hi, by rw [hiter], fun l hl => ?_⟩
    rw [hiter]
    rcases eq_or_ne (t.iter i).dir d with heq | hne
    · rw [heq] at hl ⊢
      obtain rfl := hl.unique replaced.joins.list
      refine ⟨_, replaced.list, .replace rfl (replaced.joins.notIn replaced.joins.list) ?_⟩
      have hjoins := replaced.joins
      exact haway hjoins.detached hjoins.ne.symm old hjoins.replacee.1 name mode i hi
    · exact ⟨l, replaced.other hlive hne hl, .same⟩

omit [DecidableEq Node] [Fintype Node] in
theorem aligned_unflag (haligned : Aligned t) (j : Nat) : Aligned (t.unflag j) := by
  intro i hi
  obtain ⟨passed, ahead, hat⟩ := haligned i hi
  obtain ⟨hpos, hdir⟩ := unflag_iter t j i
  refine ⟨passed, ahead, ?_, hpos.trans hat.pos⟩
  rw [hdir]
  exact hat.list.of_dirs rfl

omit [DecidableEq Node] [Fintype Node] in
theorem Tracks.of_unflag {j : Nat} (h : Tracks (t.unflag j) t' i) : Tracks t t' i := by
  obtain ⟨hpos, hdir⟩ := unflag_iter t j i
  refine ⟨h.registered, h.dir.trans hdir, fun l hl => ?_⟩
  rw [← hdir] at hl
  obtain ⟨l', hl', hedit⟩ := h.edit l (hl.of_dirs rfl)
  rw [hdir] at hl'
  rw [hpos] at hedit
  exact ⟨l', hl', hedit⟩

omit [DecidableEq Node] [Fintype Node] in
theorem AloneAt.unflag {j : Nat} (h : AloneAt t n) : AloneAt (t.unflag j) n := by
  intro a ha b hb hpos hpos'
  rw [(unflag_iter t j a).1] at hpos
  rw [(unflag_iter t j b).1] at hpos'
  exact h a ha b hb hpos hpos'

omit [DecidableEq Node] [Fintype Node] in
theorem tracks_unflag (j : Nat) (hi : i ∈ t.reg) : Tracks t (t.unflag j) i :=
  tracks_of_dirs rfl hi (unflag_iter t j i).2 (unflag_iter t j i).1

/-! ## Going on -/

omit [Fintype Node] in
theorem arriveAt_iter (t : Tree Node) (j : Nat) (n : Node) :
    ((leave (t.unflag j) (t.iter j).pos).arriveAt j n).1.iter =
      Function.update t.iter j ⟨(t.iter j).dir, some n, true⟩ := by
  rw [leave_eq]
  change Function.update (Function.update t.iter j _) j
    ⟨(Function.update t.iter j _ j).dir, some n, true⟩ = _
  rw [Function.update_idem, Function.update_self]

omit [Fintype Node] in
theorem Advanced.reg {j : Nat} {ret : Ret Node} (h : Advanced t j t' ret) : t'.reg = t.reg := by
  cases h with
  | lost pos parent => rfl
  | ended stays last => rfl
  | arrived stays next =>
    rw [leave_eq]
    rfl

omit [Fintype Node] in
/-- Another iterator goes on, or this one does not come to a node. -/
theorem Advanced.tracks {j : Nat} {ret : Ret Node} (h : Advanced t j t' ret) (hi : i ∈ t.reg)
    (hother : j = i → ∀ n, ret ≠ .node n) : Tracks t t' i := by
  have hdirs := h.unchanged
  have hreg := h.reg
  cases h with
  | lost pos parent => exact tracks_unflag j hi
  | ended stays last => exact tracks_unflag j hi
  | @arrived n stays next =>
    have hne : i ≠ j := fun heq => hother heq.symm n rfl
    apply tracks_of_dirs hdirs (hreg ▸ hi)
    · rw [arriveAt_iter, Function.update_of_ne hne]
    · rw [arriveAt_iter, Function.update_of_ne hne]

omit [Fintype Node] in
/-- The iterator comes to the first node ahead. -/
theorem Advanced.at (h : Advanced t i t' (.node n)) (hat : At t i passed ahead) :
    ∃ rest, ahead = n :: rest ∧ At t' i (passed ++ [n]) rest ∧
      (t'.iter i).dir = (t.iter i).dir := by
  have hdirs := h.unchanged
  cases h with
  | arrived stays next =>
    rw [hat.next] at next
    obtain ⟨rest, rfl⟩ := List.head?_eq_some_iff.mp next
    refine ⟨rest, rfl, ⟨?_, ?_⟩, ?_⟩
    · rw [arriveAt_iter, Function.update_self, List.append_assoc]
      exact hat.list.of_dirs hdirs
    · rw [arriveAt_iter, Function.update_self]
      simp
    · rw [arriveAt_iter, Function.update_self]

omit [Fintype Node] in
/-- At the end of the list nothing is ahead. -/
theorem Advanced.last {v : Int} (h : Advanced t i t' (.value v)) (hat : At t i passed ahead) :
    ahead = [] := by
  cases h with
  | ended stays last =>
    rw [hat.next] at last
    exact List.head?_eq_none_iff.mp last

end Tracking

/-! ## Each call -/

section Calls

variable {t t' : Tree Node} {op : Op Node} {ret : Ret Node} {i : Nat}

theorem Effect.tracks (ho : Orderly t) (haligned : Aligned t) (hcareful : Careful t op)
    (h : Effect t op t' ret) (hi : i ∈ t.reg)
    (hkept : i ∈ t'.reg ∨ op ≠ .iterFree i)
    (hother : op = .iterNext i → ∀ n, ret ≠ .node n) : Tracks t t' i := by
  have ho' := h.orderly ho
  obtain ⟨-, hcare⟩ := hcareful
  cases h with
  | refused e => exact tracks_refl hi
  | inserted inserted => exact inserted.tracks ho hcare hi
  | added inserted => exact inserted.tracks ho hcare hi
  | taken effect => exact effect.tracks ho hcare haligned hi
  | removed effect => exact effect.tracks ho hcare haligned hi
  | renamed renamed => exact hcare.elim
  | @opened d j live isDir new =>
    have hne : i ≠ j := fun heq => new (heq ▸ hi)
    have hiter : (t.isoDirGetChildren d j).1.iter i = t.iter i := Function.update_of_ne hne _ _
    exact tracks_of_dirs rfl (List.mem_cons_of_mem j hi) (by rw [hiter]) (by rw [hiter])
  | @advanced t' j ret registered advanced =>
    exact advanced.tracks hi fun heq => hother (heq ▸ rfl)
  | @iterRefused op s j registered same e =>
    rcases same with rfl | rfl
    · exact tracks_refl hi
    · exact tracks_unflag j hi
  | @iterTaken t' j n registered flag pos effect | @iterRemoved t' j n registered flag pos effect =>
    have halone := (hcare flag n pos).unflag (j := j)
    exact (effect.tracks (ho.iterEdit (iterEdit_unflag ho registered)) halone
      (aligned_unflag haligned j) hi).of_unflag
  | @freed t' j registered decays orderly =>
    have hne : i ≠ j := by
      rcases hkept with hi' | hfree
      · rw [decays.reg] at hi'
        exact (ho.regNodup.mem_erase_iff.mp hi').1
      · exact fun heq => hfree (heq ▸ rfl)
    have hi' : i ∈ (unregister t j).reg := (List.mem_erase_of_ne hne).mpr hi
    have htracks := decays.tracks orderly hi'
    exact ⟨htracks.registered, htracks.dir, fun l hl => htracks.edit l (hl.of_dirs rfl)⟩

/-- New iterators come from iso_dir_get_children(). -/
theorem Effect.reg (h : Effect t op t' ret) (hi : i ∈ t'.reg) :
    i ∈ t.reg ∨ ∃ d, op = .getChildren d i := by
  have htake : ∀ {s s' : Tree Node} {n : Node} {b : Bool}, TakeEffect s n b s' →
      s'.reg = s.reg := by
    intro s s' n b heffect
    cases heffect with
    | taken child taken => rw [taken.frame]
    | removed child taken released => rw [released.reg, taken.frame]
  have hinsert : ∀ {s s' : Tree Node} {d n : Node} {mode : ReplaceMode} {ret : Ret Node},
      Inserted s d n mode s' ret → s'.reg = s.reg := by
    intro s s' d n mode ret hins
    cases hins with
    | refused child name e => rfl
    | linked joins small before behind => rfl
    | replaced replaced name mode => exact replaced.released.reg
  cases h with
  | refused e => exact Or.inl hi
  | inserted inserted => exact Or.inl (hinsert inserted ▸ hi)
  | added inserted => exact Or.inl (hinsert inserted ▸ hi)
  | taken effect => exact Or.inl (htake effect ▸ hi)
  | removed effect => exact Or.inl (htake effect ▸ hi)
  | renamed renamed =>
    left
    cases renamed with
    | refused e => exact hi
    | detached parent => exact hi
    | moved child taken orderly inserted res =>
      rw [hinsert inserted, taken.frame] at hi
      exact hi
  | @opened d j live isDir new =>
    rcases List.mem_cons.mp hi with rfl | hi
    · exact Or.inr ⟨d, rfl⟩
    · exact Or.inl hi
  | advanced registered advanced => exact Or.inl (advanced.reg ▸ hi)
  | iterRefused registered same e =>
    rcases same with rfl | rfl
    · exact Or.inl hi
    · exact Or.inl hi
  | @iterTaken t' j n registered flag pos effect =>
    rw [htake effect] at hi
    exact Or.inl hi
  | @iterRemoved t' j n registered flag pos effect =>
    rw [htake effect] at hi
    exact Or.inl hi
  | freed registered decays orderly =>
    rw [decays.reg] at hi
    exact Or.inl (List.mem_of_mem_erase hi)

/-- A new iterator is in front of all children. -/
theorem Effect.opened_at {d : Node} (ho : Orderly t) (h : Effect t (.getChildren d i) t' ret)
    (hi : i ∉ t.reg) (hi' : i ∈ t'.reg) : (t'.iter i).dir = d ∧ ∃ l, At t' i [] l := by
  cases h with
  | refused e => exact absurd hi' hi
  | opened live isDir new =>
    have hiter : (t.isoDirGetChildren d i).1.iter i = ⟨d, none, false⟩ :=
      Function.update_self _ _ _
    obtain ⟨l, hl⟩ := ho.lists d live isDir
    refine ⟨by rw [hiter], l, ⟨?_, by rw [hiter]; rfl⟩⟩
    rw [hiter]
    exact hl.of_dirs rfl
  | @iterRefused op s j registered same e =>
    rcases same with rfl | rfl
    · exact absurd hi' hi
    · exact absurd hi' hi

/-- The iterator comes to a node. -/
theorem Effect.arrived {n : Node} {passed ahead : List Node}
    (h : Effect t (.iterNext i) t' (.node n)) (hat : At t i passed ahead) :
    ∃ rest, ahead = n :: rest ∧ At t' i (passed ++ [n]) rest ∧
      (t'.iter i).dir = (t.iter i).dir ∧ i ∈ t'.reg := by
  cases h with
  | advanced registered advanced =>
    obtain ⟨rest, hrest, hat', hdir⟩ := advanced.at hat
    exact ⟨rest, hrest, hat', hdir, advanced.reg ▸ registered⟩

theorem Effect.ended {v : Int} {passed ahead : List Node}
    (h : Effect t (.iterNext i) t' (.value v)) (hat : At t i passed ahead) : ahead = [] := by
  cases h with
  | advanced registered advanced => exact advanced.last hat

theorem Effect.aligned (ho : Orderly t) (haligned : Aligned t) (hcareful : Careful t op)
    (h : Effect t op t' ret) : Aligned t' := by
  intro i hi'
  by_cases hi : i ∈ t.reg
  · obtain ⟨passed, ahead, hat⟩ := haligned i hi
    by_cases hnext : op = .iterNext i ∧ ∃ n, ret = .node n
    · obtain ⟨rfl, n, rfl⟩ := hnext
      obtain ⟨rest, -, hat', -⟩ := h.arrived hat
      exact ⟨_, _, hat'⟩
    · have htracks := h.tracks ho haligned hcareful hi (Or.inl hi')
        fun hop n hn => hnext ⟨hop, n, hn⟩
      obtain ⟨passed', ahead', hat', -⟩ := htracks.at hat
      exact ⟨passed', ahead', hat'⟩
  · obtain ⟨d, rfl⟩ := (h.reg hi').resolve_left hi
    obtain ⟨-, l, hat⟩ := h.opened_at ho hi hi'
    exact ⟨[], l, hat⟩

end Calls

/-! ## Runs -/

/-- The node which the call gives out by the iterator. -/
def Call.returned (i : Nat) (e : Call Node) : Option Node :=
  match e.op, e.ret with
  | .iterNext j, .node n => if j = i then some n else none
  | _, _ => none

/-- The nodes which the calls give out by the iterator. -/
def returned (i : Nat) (trace : List (Call Node)) : List Node :=
  trace.filterMap (Call.returned i)

section Runs

variable {t₀ s t t' : Tree Node} {trace : List (Call Node)} {i : Nat} {d n : Node}
  {passed ahead : List Node}

omit [DecidableEq Node] in
theorem At.isChild (hat : At t i passed ahead) :
    IsChild t (t.iter i).dir n ↔ n ∈ passed ++ ahead := by
  have hlist := childList_eq hat.list.chain
  constructor
  · rintro ⟨l, hl, hn⟩
    rwa [Option.some.inj (hlist.symm.trans hl)]
  · exact fun hn => ⟨_, hlist, hn⟩

theorem careful_run (h₀ : Orderly t₀) (ha₀ : Aligned t₀) (run : Run (calls Careful) t₀ trace t) :
    Orderly t ∧ Aligned t := by
  apply run.invariant (I := fun _ t => Orderly t ∧ Aligned t) ⟨h₀, ha₀⟩
  intro _ s op s' e ⟨ho, ha⟩ hstep
  obtain ⟨-, -, heffect⟩ := calls_effect (fun _ _ h => h.1) ho hstep
  exact ⟨heffect.orderly ho, heffect.aligned ho ha (calls_step hstep).2.1⟩

omit [DecidableEq Node] [Fintype Node] in
theorem returned_concat (i : Nat) (trace : List (Call Node)) (e : Call Node) :
    returned i (trace ++ [e]) = returned i trace ++ (e.returned i).toList := by
  unfold returned
  rw [List.filterMap_append]
  cases h : e.returned i <;> simp [h]

/-- Children which are present since the start, and how often the iterator gave them out. -/
structure Underway (s : Tree Node) (d : Node) (i : Nat) (trace : List (Call Node))
    (t : Tree Node) : Prop where
  registered : i ∈ t.reg
  dir : (t.iter i).dir = d
  counted : ∃ passed ahead, At t i passed ahead ∧
    ∀ n, IsChild s d n → (∀ e ∈ trace, IsChild e.after d n) →
      n ∈ passed ++ ahead ∧ Counted (returned i trace) passed n

theorem underway_start (hi : i ∈ s.reg) (hdir : (s.iter i).dir = d) (hat : At s i [] ahead) :
    Underway s d i [] s where
  registered := hi
  dir := hdir
  counted := ⟨[], ahead, hat, fun _ hn _ => ⟨hat.isChild.mp (hdir.symm ▸ hn), rfl⟩⟩

theorem Underway.step {op : Op Node} {ret : Ret Node} (ho : Orderly t) (haligned : Aligned t)
    (hcareful : Careful t op) (h : Underway s d i trace t) (heffect : Effect t op t' ret)
    (hfree : op ≠ .iterFree i) : Underway s d i (trace ++ [⟨op, ret, t'⟩]) t' := by
  obtain ⟨hi, rfl, passed, ahead, hat, hcounted⟩ := h
  by_cases hnext : op = .iterNext i ∧ ∃ n, ret = .node n
  · obtain ⟨rfl, m, rfl⟩ := hnext
    obtain ⟨rest, rfl, hat', hdir, hi'⟩ := heffect.arrived hat
    refine ⟨hi', hdir, _, _, hat', fun n hn hpresent => ?_⟩
    obtain ⟨hmem, hcount⟩ := hcounted n hn fun e he => hpresent e (List.mem_append_left _ he)
    have hreturned : (Call.mk (.iterNext i) (.node m) t').returned i = some m := by
      simp [Call.returned]
    rw [returned_concat, hreturned]
    refine ⟨?_, hcount.advance hat.list.chain.nodup⟩
    rw [List.append_assoc]
    exact hmem
  · have htracks := heffect.tracks ho haligned hcareful hi (Or.inr hfree)
      fun hop n hn => hnext ⟨hop, n, hn⟩
    obtain ⟨passed', ahead', hat', hsides⟩ := htracks.at hat
    refine ⟨htracks.registered, htracks.dir, passed', ahead', hat', fun n hn hpresent => ?_⟩
    obtain ⟨hmem, hcount⟩ := hcounted n hn fun e he => hpresent e (List.mem_append_left _ he)
    have hafter : IsChild t' (t.iter i).dir n := hpresent ⟨op, ret, t'⟩ (by simp)
    rw [← htracks.dir] at hafter
    have hmem' := hat'.isChild.mp hafter
    have hreturned : (Call.mk op ret t').returned i = none := by
      unfold Call.returned
      split
      next j m hop hret =>
        split
        next heq => exact absurd ⟨heq ▸ hop, m, hret⟩ hnext
        next => rfl
      next => rfl
    rw [returned_concat, hreturned, Option.toList_none, List.append_nil]
    exact ⟨hmem', hcount.keeps hsides hmem hmem'⟩

theorem underway_run (h₀ : Orderly s) (ha₀ : Aligned s) (hstart : Underway s d i [] s)
    (run : Run (calls Careful) s trace t) (hkept : ∀ e ∈ trace, e.op ≠ .iterFree i) :
    Underway s d i trace t := by
  have hinv : Orderly t ∧ Aligned t ∧
      ((∀ e ∈ trace, e.op ≠ .iterFree i) → Underway s d i trace t) := by
    apply run.invariant (I := fun trace t => Orderly t ∧ Aligned t ∧
      ((∀ e ∈ trace, e.op ≠ .iterFree i) → Underway s d i trace t))
    · exact ⟨h₀, ha₀, fun _ => hstart⟩
    · intro trace t op t' e ⟨ho, ha, hunder⟩ hstep
      obtain ⟨-, hcareful, ret, hexec, rfl⟩ := calls_step hstep
      obtain ⟨-, -, heffect⟩ := calls_effect (fun _ _ h => h.1) ho hstep
      refine ⟨heffect.orderly ho, heffect.aligned ho ha hcareful, fun hkept => ?_⟩
      have hbefore := hunder fun e he => hkept e (List.mem_append_left _ he)
      exact hbefore.step ho ha hcareful heffect (hkept ⟨op, ret, t'⟩ (by simp))
  exact hinv.2.2 hkept

/-- In runs of careful calls all iterators are at children of their directory. An iterator
which comes to the end has given out once each child which was there all the time. -/
theorem careful_iterators_survive (h₀ : Orderly t₀) (ha₀ : Aligned t₀) :
    (∀ trace t, Run (calls Careful) t₀ trace t →
      ∀ i ∈ t.reg, ∀ p, (t.iter i).pos = some p → IsChild t (t.iter i).dir p) ∧
    ∀ before opened during ended t d i,
      Run (calls Careful) t₀ (before ++ opened :: (during ++ [ended])) t →
      opened.op = .getChildren d i → ended.op = .iterNext i → ended.ret = .value 0 →
      (∀ e ∈ during, e.op ≠ .iterFree i) →
      ∀ n, (∀ e ∈ opened :: during, IsChild e.after d n) →
        (returned i during).count n = 1 := by
  constructor
  · intro trace t run i hi p hp
    obtain ⟨-, haligned⟩ := careful_run h₀ ha₀ run
    obtain ⟨passed, ahead, hat⟩ := haligned i hi
    apply hat.isChild.mpr
    exact List.mem_append_left _ (List.mem_of_getLast? (hat.pos.symm.trans hp))
  · rintro before ⟨_, ret, after⟩ during ⟨_, _, last⟩ t d i run rfl rfl rfl hkept n hpresent
    obtain ⟨s₁, s₂, a, hbefore, hopen, hrest⟩ := run.cut
    obtain ⟨s₃, s₄, b, hduring, hend, -⟩ := hrest.cut
    obtain ⟨ho₁, ha₁⟩ := careful_run h₀ ha₀ hbefore
    obtain ⟨rfl, rfl, heffect⟩ := calls_effect (fun _ _ h => h.1) ho₁ hopen
    obtain ⟨⟨-, -, hnew⟩, hcareful, ret', hexec, -⟩ := calls_step hopen
    have ho₂ := heffect.orderly ho₁
    have ha₂ := heffect.aligned ho₁ ha₁ hcareful
    obtain rfl := (Prod.mk.inj (Option.some.inj hexec)).1
    have hi : i ∈ (s₁.isoDirGetChildren d i).1.reg := List.mem_cons_self
    obtain ⟨hdir, l, hat⟩ := heffect.opened_at ho₁ hnew hi
    obtain ⟨-, -, passed, ahead, hat', hcounted⟩ :=
      underway_run ho₂ ha₂ (underway_start hi hdir hat) hduring hkept
    obtain ⟨ho₃, -⟩ := careful_run ho₂ ha₂ hduring
    obtain ⟨rfl, -, hlast⟩ := calls_effect (fun _ _ h => h.1) ho₃ hend
    obtain rfl := hlast.ended hat'
    obtain ⟨hmem, hcount⟩ := hcounted n (hpresent _ List.mem_cons_self)
      fun e he => hpresent e (List.mem_cons_of_mem _ he)
    rw [List.append_nil] at hmem
    exact hcount.trans (if_pos hmem)

/-- A root without its child. -/
def emptyRoot : Tree (Fin 2) :=
  newRoot (fun n => if n = 0 then [] else [97]) (fun _ => 0) (fun _ => 0)
    (fun n => decide (n = 0)) 0

/-- A root with a child. -/
def oneChild : Tree (Fin 2) := linkedIn emptyRoot 0 1 (.children 0)

theorem orderly_oneChild : Orderly oneChild := by
  have ho : Orderly emptyRoot := orderly_newRoot (by decide)
  have hlist : ListLinked emptyRoot 0 [] := ⟨rfl, rfl, by decide, by decide⟩
  have hjoins : Joins emptyRoot 0 1 [] [] :=
    { order := ho.toLinked
      live := by decide
      isDir := by decide
      list := hlist
      detached := by decide
      owned := by decide
      ne := by decide }
  exact linkedIn_orderly ho hjoins (by decide) (by simp) (by simp)

/-- A root, and three nodes which are in no directory yet. Nodes 0 and 1 are directories. -/
def bareRoot : Tree (Fin 4) :=
  newRoot (fun n => if n = 0 then [] else if n = 3 then [98] else [97]) (fun _ => 0) (fun _ => 0)
    (fun n => decide (n = 0 ∨ n = 1)) 0

/-- The directory /a. -/
def withDirectory : Tree (Fin 4) := linkedIn bareRoot 0 1 (endCell Link.next (.children 0) [])

/-- The directory /a with the file /a/a. -/
def withLeaf : Tree (Fin 4) := linkedIn withDirectory 1 2 (endCell Link.next (.children 1) [])

/-- The directory /a, and the files /a/a and /b. -/
def twoLevels : Tree (Fin 4) := linkedIn withLeaf 0 3 (endCell Link.next (.children 0) [1])

theorem orderly_bareRoot : Orderly bareRoot := orderly_newRoot (by decide)

theorem joins_directory : Joins bareRoot 0 1 [] [] :=
  ⟨orderly_bareRoot.toLinked, by decide, by decide, ⟨rfl, rfl, by decide, by decide⟩, by decide,
    by decide, by decide⟩

theorem orderly_withDirectory : Orderly withDirectory :=
  linkedIn_orderly orderly_bareRoot joins_directory (by decide) (by simp) (by simp)

theorem joins_leaf : Joins withDirectory 1 2 [] [] :=
  ⟨orderly_withDirectory.toLinked, by decide, by decide, ⟨rfl, rfl, by decide, by decide⟩, by decide,
    by decide, by decide⟩

theorem orderly_withLeaf : Orderly withLeaf :=
  linkedIn_orderly orderly_withDirectory joins_leaf (by decide) (by simp) (by simp)

theorem joins_file : Joins withLeaf 0 3 [1] [] :=
  ⟨orderly_withLeaf.toLinked, by decide, by decide,
    linkedIn_other joins_leaf (by decide) (linkedIn_list joins_directory (by decide)), by decide,
    by decide, by decide⟩

theorem orderly_twoLevels : Orderly twoLevels := 
  linkedIn_orderly orderly_withLeaf joins_file (by decide) (by decide) (by simp)

theorem aligned_twoLevels : Aligned twoLevels := by
  intro i hi
  cases hi

/-- The directory gets taken while an iterator stands at it. The iterator goes on with the
file behind it. -/
theorem twoLevels_given_out_once :
    ∃ opened during ended t, (∃ e ∈ during, e.op = .take 1) ∧
      Run (calls Careful) twoLevels ([] ++ opened :: (during ++ [ended])) t ∧
      (t.iter 0).pos = some 3 ∧ IsChild t (t.iter 0).dir 3 ∧
      (returned 0 during).count 3 = 1 := by
  have hexec : ∃ t₁ t₂ t₃ t₄ t,
      (Enabled twoLevels (.getChildren 0 0) ∧ exec twoLevels (.getChildren 0 0) =
        some (t₁, .value isoSuccess) ∧ t₁.childList 0 = some [1, 3]) ∧
      (Enabled t₁ (.iterNext 0) ∧ exec t₁ (.iterNext 0) = some (t₂, .node 1) ∧
        t₂.childList 0 = some [1, 3]) ∧
      (Enabled t₂ (.take 1) ∧ t₂.parent 1 ≠ some 1 ∧ t₂.reg = [0] ∧
        exec t₂ (.take 1) = some (t₃, .value isoSuccess) ∧ t₃.childList 0 = some [3]) ∧
      (Enabled t₃ (.iterNext 0) ∧ exec t₃ (.iterNext 0) = some (t₄, .node 3) ∧
        t₄.childList 0 = some [3]) ∧
      (Enabled t₄ (.iterNext 0) ∧ exec t₄ (.iterNext 0) = some (t, .value 0)) ∧
      0 ∈ t.reg ∧ (t.iter 0).pos = some 3 :=
    ⟨_, _, _, _, _, ⟨by decide, rfl, rfl⟩, ⟨by decide, rfl, rfl⟩,
      ⟨by decide, by decide, rfl, rfl, rfl⟩, ⟨by decide, rfl, rfl⟩, ⟨by decide, rfl⟩,
      by decide, rfl⟩
  obtain ⟨t₁, t₂, t₃, t₄, t, ⟨hen₁, h₁, hlist₁⟩, ⟨hen₂, h₂, hlist₂⟩,
    ⟨hen₃, hroot, hreg₂, h₃, hlist₃⟩, ⟨hen₄, h₄, hlist₄⟩, ⟨hen₅, h₅⟩, hreg, hpos⟩ := hexec
  have halone : AloneAt t₂ 1 := by
    intro i hi j hj _ _
    rw [hreg₂, List.mem_singleton] at hi hj
    exact hi.trans hj.symm
  have hstart : Run (calls Careful) twoLevels [] twoLevels := .refl
  have hrun := hstart.snoc (calls_of_exec hen₁ ⟨trivial, trivial⟩ h₁)
  have hrun := hrun.snoc (calls_of_exec hen₂ ⟨trivial, trivial⟩ h₂)
  have hrun := hrun.snoc (calls_of_exec hen₃ ⟨hroot, halone⟩ h₃)
  have hrun := hrun.snoc (calls_of_exec hen₄ ⟨trivial, trivial⟩ h₄)
  have hrun := hrun.snoc (calls_of_exec hen₅ ⟨trivial, trivial⟩ h₅)
  obtain ⟨hchild, honce⟩ := careful_iterators_survive orderly_twoLevels aligned_twoLevels
  refine ⟨_, [⟨.iterNext 0, .node 1, t₂⟩, ⟨.take 1, .value isoSuccess, t₃⟩,
    ⟨.iterNext 0, .node 3, t₄⟩], _, t, ⟨⟨.take 1, .value isoSuccess, t₃⟩, by simp, rfl⟩, hrun,
    hpos, hchild _ t hrun 0 hreg 3 hpos,
    honce [] _ _ _ t 0 0 hrun rfl rfl rfl (by simp) 3 ?_⟩
  intro e he
  change e ∈ [_, _, _, _] at he
  simp only [List.mem_cons, List.not_mem_nil, or_false] at he
  rcases he with rfl | rfl | rfl | rfl
  · exact ⟨[1, 3], hlist₁, by simp⟩
  · exact ⟨[1, 3], hlist₂, by simp⟩
  · exact ⟨[3], hlist₃, by simp⟩
  · exact ⟨[3], hlist₄, by simp⟩

/-- An iterator stays at a child which gets taken, because another one was there. -/
theorem second_iterator_stays :
    ∃ trace t, Run (calls Harmless) oneChild trace t ∧
      ∃ i ∈ t.reg, ∃ p, (t.iter i).pos = some p ∧ ¬ IsChild t (t.iter i).dir p := by
  have hexec : ∃ t₁ t₂ t₃ t₄ t,
      (Enabled oneChild (.getChildren 0 0) ∧ exec oneChild (.getChildren 0 0) =
        some (t₁, .value isoSuccess)) ∧
      (Enabled t₁ (.getChildren 0 1) ∧ exec t₁ (.getChildren 0 1) =
        some (t₂, .value isoSuccess)) ∧
      (Enabled t₂ (.iterNext 0) ∧ exec t₂ (.iterNext 0) = some (t₃, .node 1)) ∧
      (Enabled t₃ (.iterNext 1) ∧ exec t₃ (.iterNext 1) = some (t₄, .node 1)) ∧
      (Enabled t₄ (.take 1) ∧ t₄.parent 1 ≠ some 1 ∧
        exec t₄ (.take 1) = some (t, .value isoSuccess)) ∧
      0 ∈ t.reg ∧ t.iter 0 = ⟨0, some 1, true⟩ ∧ t.childList 0 = some [] :=
    ⟨_, _, _, _, _, ⟨by decide, rfl⟩, ⟨by decide, rfl⟩, ⟨by decide, rfl⟩, ⟨by decide, rfl⟩,
      ⟨by decide, by decide, rfl⟩, by decide, rfl, rfl⟩
  obtain ⟨t₁, t₂, t₃, t₄, t, ⟨hen₁, h₁⟩, ⟨hen₂, h₂⟩, ⟨hen₃, h₃⟩, ⟨hen₄, h₄⟩, ⟨hen₅, hroot, h₅⟩,
    hreg, hiter, hlist⟩ := hexec
  have hstart : Run (calls Harmless) oneChild [] oneChild := .refl
  have hrun := hstart.snoc (calls_of_exec hen₁ trivial h₁)
  have hrun := hrun.snoc (calls_of_exec hen₂ trivial h₂)
  have hrun := hrun.snoc (calls_of_exec hen₃ trivial h₃)
  have hrun := hrun.snoc (calls_of_exec hen₄ trivial h₄)
  have hrun := hrun.snoc (calls_of_exec hen₅ hroot h₅)
  refine ⟨_, t, hrun, 0, hreg, 1, by rw [hiter], ?_⟩
  rintro ⟨l, hl, hmem⟩
  rw [hiter] at hl
  obtain rfl := Option.some.inj (hlist.symm.trans hl)
  cases hmem

end Runs

end DirTree
