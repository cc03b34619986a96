import Libisofs.DirTreeCalls
import Libisofs.Lib.Runs

/-!
# Directories in order over whole runs

Every call keeps all directories in order, and leaves them unchanged if it returns an
error, unless it is one of the calls for which this cannot be said: a root gets taken, an
insertion frees its own directory by releasing the replaced node, or the number of
children becomes too large for an int.
-/

namespace DirTree

open LabelledRuns
open ThreeWay (strcmp)
open SymlinkTarget (Bytes)

variable {Node : Type} [DecidableEq Node] [Fintype Node]

section IterFree

variable {t : Tree Node} {i : Nat}

/-- The iterator is not registered any more. -/
def unregister (t : Tree Node) (i : Nat) : Tree Node := { t with reg := t.reg.erase i }

omit [Fintype Node] in
theorem held_unregister (hi : i ∈ t.reg) (m : Node) :
    (unregister t i).held m + (if (t.iter i).pos = some m then 1 else 0) +
      (if (t.iter i).dir = m then 1 else 0) = t.held m := by
  have hperm := List.perm_cons_erase hi
  have hpos := hperm.countP_eq fun j => decide ((t.iter j).pos = some m)
  have hdirs := hperm.countP_eq fun j => decide ((t.iter j).dir = m)
  simp only [List.countP_cons, decide_eq_true_eq] at hpos hdirs
  unfold Tree.held
  rw [hpos, hdirs]
  change _ + (t.reg.erase i).countP _ + (t.reg.erase i).countP _ + _ + _ = _
  have hparent : (unregister t i).parent = t.parent := rfl
  have hiter : (unregister t i).iter = t.iter := rfl
  rw [hparent, hiter]
  omega

omit [Fintype Node] in
theorem iterEdit_unregister (ho : Orderly t) (hi : i ∈ t.reg) :
    IterEdit t (unregister t i) where
  frame := rfl
  live _ := Iff.rfl
  held m := by
    have hheld := held_unregister hi m
    have hle := ho.held m
    change (unregister t i).held m ≤ t.refcount m
    omega
  regNodup := ho.regNodup.erase i
  dirs j hj := ho.iterDirs j (List.mem_of_mem_erase hj)
  pos j hj := ho.iterPos j (List.mem_of_mem_erase hj)

/-- A freed iterator gives away its references. -/
theorem isoDirIterFree_spec (ho : Orderly t) (hi : i ∈ t.reg) :
    ∃ t', t.isoDirIterFree i = some t' ∧ Decays (unregister t i) t' ∧ Orderly t' := by
  have ho₁ := ho.iterEdit (iterEdit_unregister ho hi)
  have hle : ∀ m, t.held m ≤ (unregister t i).refcount m := ho.held
  have hdir : ∀ s : Tree Node, Orderly s → s.Owned (t.iter i).dir →
      ∃ t', s.unref (t.iter i).dir = some t' ∧ Decays s t' ∧ Orderly t' := by
    intro s hs howned
    obtain ⟨t', hrun, hr, ho'⟩ := orderly_unref hs howned
    exact ⟨t', hrun, hr.toDecays, ho'⟩
  cases hpos : (t.iter i).pos with
  | none =>
    have hfree : t.isoDirIterFree i = (unregister t i).unref (t.iter i).dir := by
      simp only [Tree.isoDirIterFree, hpos]
      rfl
    rw [hfree]
    apply hdir _ ho₁
    have hheld := held_unregister hi (t.iter i).dir
    have := hle (t.iter i).dir
    simp only [if_true] at hheld
    unfold Tree.Owned
    omega
  | some p =>
    have howned : (unregister t i).Owned p := by
      have hheld := held_unregister hi p
      have := hle p
      simp only [hpos, if_true] at hheld
      unfold Tree.Owned
      omega
    obtain ⟨s, hrun, hr, hs⟩ := orderly_unref ho₁ howned
    have howned' : s.Owned (t.iter i).dir := by
      have hslack := unref_slack ho₁.toLinked.settled howned hrun (fun _ => False.elim)
        (t.iter i).dir
      have hheld := held_unregister hi (t.iter i).dir
      have := hle (t.iter i).dir
      simp only [hpos, Option.some.injEq, if_true] at hheld
      simp only [eq_comm (b := p)] at hslack
      unfold Tree.Owned
      omega
    obtain ⟨t', hrun', hr', ho'⟩ := hdir s hs howned'
    have hfree : t.isoDirIterFree i =
        ((unregister t i).unref p).bind (·.unref (t.iter i).dir) := by
      simp only [Tree.isoDirIterFree, hpos]
      rfl
    refine ⟨t', ?_, hr.toDecays.trans hr', ho'⟩
    rw [hfree, hrun, Option.bind_some, hrun']

end IterFree

/-! ## The outcomes of all calls -/

/-- The node gets taken, and then released if this is wanted. -/
inductive TakeEffect (t : Tree Node) (n : Node) : Bool → Tree Node → Prop where
  | taken {t' : Tree Node} {d : Node} {l₁ l₂ : List Node} (child : ChildAt t d n l₁ l₂)
      (taken : Taken t t' d n l₁ l₂) : TakeEffect t n false t'
  | removed {s t' : Tree Node} {d : Node} {l₁ l₂ : List Node} (child : ChildAt t d n l₁ l₂)
      (taken : Taken t s d n l₁ l₂) (released : Released s t') : TakeEffect t n true t'

/-- What a call may make of the tree. -/
inductive Effect (t : Tree Node) : Op Node → Tree Node → Ret Node → Prop where
  | refused {op : Op Node} (e : IsoError) : Effect t op t (.error e)
  | inserted {t' : Tree Node} {d n : Node} {replace : ReplaceMode} {ret : Ret Node}
      (inserted : Inserted t d n replace t' ret) : Effect t (.insert d n replace) t' ret
  | added {t' : Tree Node} {d n : Node} {replace : ReplaceMode} {ret : Ret Node}
      (inserted : Inserted t d n replace t' ret) : Effect t (.addNode d n replace) t' ret
  | taken {t' : Tree Node} {n : Node} (effect : TakeEffect t n false t') :
      Effect t (.take n) t' (.value isoSuccess)
  | removed {t' : Tree Node} {n : Node} (effect : TakeEffect t n true t') :
      Effect t (.remove n) t' (.value isoSuccess)
  | renamed {t' : Tree Node} {n : Node} {name : Bytes} {ret : Ret Node}
      (renamed : Renamed t n name t' ret) : Effect t (.setName n name) t' ret
  | opened {d : Node} {i : Nat} (live : t.Live d) (isDir : t.isDir d = true) (new : i ∉ t.reg) :
      Effect t (.getChildren d i) (t.isoDirGetChildren d i).1 (.value isoSuccess)
  | advanced {t' : Tree Node} {i : Nat} {ret : Ret Node} (registered : i ∈ t.reg)
      (advanced : Advanced t i t' ret) : Effect t (.iterNext i) t' ret
  | iterRefused {op : Op Node} {s : Tree Node} {i : Nat} (registered : i ∈ t.reg)
      (same : s = t ∨ s = t.unflag i) (e : IsoError) : Effect t op s (.error e)
  | iterTaken {t' : Tree Node} {i : Nat} {n : Node} (registered : i ∈ t.reg)
      (flag : (t.iter i).flag = true) (pos : (t.iter i).pos = some n)
      (effect : TakeEffect (t.unflag i) n false t') :
      Effect t (.iterTake i) t' (.value isoSuccess)
  | iterRemoved {t' : Tree Node} {i : Nat} {n : Node} (registered : i ∈ t.reg)
      (flag : (t.iter i).flag = true) (pos : (t.iter i).pos = some n)
      (effect : TakeEffect (t.unflag i) n true t') :
      Effect t (.iterRemove i) t' (.value isoSuccess)
  | freed {t' : Tree Node} {i : Nat} (registered : i ∈ t.reg)
      (decays : Decays (unregister t i) t') (orderly : Orderly t') :
      Effect t (.iterFree i) t' (.value isoSuccess)

/-- Calls which are not among the troublesome ones. -/
def Harmless (t : Tree Node) : Op Node → Prop
  | .insert dir node replace => Fits t dir node replace
  | .addNode dir child replace => t.parent child = none → dir ≠ child → Fits t dir child replace
  | .take node | .remove node => t.parent node ≠ some node
  | .setName _ _ | .getChildren _ _ | .iterNext _ | .iterTake _ | .iterRemove _ | .iterFree _ =>
    True

section Calls

variable {t : Tree Node} {n : Node}

/-- A node which is no root gets taken, or it is in no directory. -/
theorem isoNodeTake_cases (ho : Orderly t) (hroot : t.parent n ≠ some n) :
    t.isoNodeTake n = some (t, .error .nodeNotAddedToDir) ∨
      ∃ t' d l₁ l₂, t.isoNodeTake n = some (t', .value isoSuccess) ∧ ChildAt t d n l₁ l₂ ∧
        Taken t t' d n l₁ l₂ := by
  cases hp : t.parent n with
  | none =>
    left
    simp only [Tree.isoNodeTake, hp]
  | some d =>
    right
    have hne : n ≠ d := by
      rintro rfl
      exact hroot hp
    obtain ⟨l₁, l₂, hchild⟩ := ho.childAt hp hne
    obtain ⟨t', hrun, htaken⟩ := isoNodeTake_spec hchild
    exact ⟨t', d, l₁, l₂, hrun, hchild, htaken⟩

theorem isoNodeRemove_cases (ho : Orderly t) (hroot : t.parent n ≠ some n) :
    (t.isoNodeTake n).bind (Tree.thenUnref n) = some (t, .error .nodeNotAddedToDir) ∨
      ∃ t', (t.isoNodeTake n).bind (Tree.thenUnref n) = some (t', .value isoSuccess) ∧
        TakeEffect t n true t' := by
  rcases isoNodeTake_cases ho hroot with hrun | ⟨s, d, l₁, l₂, hrun, hchild, htaken⟩
  · left
    rw [hrun]
    rfl
  · right
    obtain ⟨t', hunref, hr, -⟩ := orderly_unref (htaken.orderly ho hchild) htaken.owned
    refine ⟨t', ?_, .removed hchild htaken hr⟩
    simp only [hrun, Option.bind_some, Tree.thenUnref, if_true, hunref, Option.map_some]

/-- An iterator refuses to take, or it takes the node at its position. -/
theorem isoDirIterTake_cases {i : Nat} (ho : Orderly t) (hi : i ∈ t.reg) :
    (∃ s e, t.isoDirIterTake i = some (s, .error e) ∧ (s = t ∨ s = t.unflag i)) ∨
      ∃ n, (t.iter i).flag = true ∧ (t.iter i).pos = some n ∧
        t.isoDirIterTake i = (t.unflag i).isoNodeTake n ∧
        t.isoDirIterRemove i = ((t.unflag i).isoNodeTake n).bind (Tree.thenUnref n) ∧
        Orderly (t.unflag i) ∧ (t.unflag i).parent n ≠ some n := by
  unfold Tree.isoDirIterRemove Tree.isoDirIterTake
  by_cases hflag : (t.iter i).flag = false
  · left
    rw [if_pos hflag]
    exact ⟨t, _, rfl, Or.inl rfl⟩
  · rw [if_neg hflag]
    cases hpos : (t.iter i).pos with
    | none =>
      left
      exact ⟨t, _, rfl, Or.inl rfl⟩
    | some n =>
      right
      exact ⟨n, by simpa using hflag, rfl, rfl, rfl, ho.iterEdit (iterEdit_unflag ho hi),
        ho.iterPos i hi n hpos⟩

/-- Each call ends, with one of the outcomes. -/
theorem exec_effect (ho : Orderly t) {op : Op Node} (hen : Enabled t op)
    (hharmless : Harmless t op) : ∃ t' ret, exec t op = some (t', ret) ∧ Effect t op t' ret := by
  cases op with
  | insert d n replace =>
    obtain ⟨hlive, hdir, howned, hdetached, hne⟩ := hen
    obtain ⟨pos, t', ret, hfind, hrun, hins⟩ :=
      isoDirInsert_spec ho ⟨hlive, hdir, howned, hdetached, hne⟩ hharmless
    refine ⟨t', ret, ?_, .inserted hins⟩
    simp only [exec, hfind, hrun]
  | addNode d n replace =>
    obtain ⟨hlive, hdir, -, howned⟩ := hen
    by_cases hself : d = n
    · refine ⟨t, _, ?_, .refused .wrongArgValue⟩
      simp only [exec, Tree.isoDirAddNode, hself, if_true]
    · by_cases hparent : t.parent n = none
      · obtain ⟨t', ret, hrun, hins⟩ := isoDirAddNode_spec ho
          ⟨hlive, hdir, howned hparent, hparent, hself⟩ (hharmless hparent hself)
        exact ⟨t', ret, hrun, .added hins⟩
      · refine ⟨t, _, ?_, .refused .nodeAlreadyAdded⟩
        simp only [exec, Tree.isoDirAddNode, hself, if_false, ne_eq, hparent,
          not_false_eq_true, if_true]
  | take n =>
    rcases isoNodeTake_cases ho hharmless with hrun | ⟨t', d, l₁, l₂, hrun, hchild, htaken⟩
    · exact ⟨t, _, hrun, .refused _⟩
    · exact ⟨t', _, hrun, .taken (.taken hchild htaken)⟩
  | remove n =>
    rcases isoNodeRemove_cases ho hharmless with hrun | ⟨t', hrun, heffect⟩
    · exact ⟨t, _, hrun, .refused _⟩
    · exact ⟨t', _, hrun, .removed heffect⟩
  | setName n name =>
    obtain ⟨t', ret, hrun, hren⟩ := isoNodeSetName_spec ho n name
    exact ⟨t', ret, hrun, .renamed hren⟩
  | getChildren d i =>
    obtain ⟨hlive, hdir, hi⟩ := hen
    exact ⟨_, _, rfl, .opened hlive hdir hi⟩
  | iterNext i =>
    obtain ⟨t', ret, hrun, hadv⟩ := isoDirIterNext_spec ho hen
    exact ⟨t', ret, hrun, .advanced hen hadv⟩
  | iterTake i =>
    rcases isoDirIterTake_cases ho hen with
      ⟨s, e, hrun, hs⟩ | ⟨n, hflag, hpos, hrun, -, ho', hroot⟩
    · exact ⟨s, _, hrun, .iterRefused hen hs e⟩
    · rcases isoNodeTake_cases ho' hroot with htake | ⟨t', d, l₁, l₂, htake, hchild, htaken⟩
      · exact ⟨_, _, hrun.trans htake, .iterRefused hen (Or.inr rfl) _⟩
      · exact ⟨t', _, hrun.trans htake, .iterTaken hen hflag hpos (.taken hchild htaken)⟩
  | iterRemove i =>
    rcases isoDirIterTake_cases ho hen with
      ⟨s, e, hrun, hs⟩ | ⟨n, hflag, hpos, -, hrun, ho', hroot⟩
    · refine ⟨s, _, ?_, .iterRefused hen hs e⟩
      change t.isoDirIterRemove i = _
      unfold Tree.isoDirIterRemove
      cases (t.iter i).pos with
      | none => exact hrun
      | some pos =>
        simp only [hrun, Option.bind_some]
        rfl
    · rcases isoNodeRemove_cases ho' hroot with hremove | ⟨t', hremove, heffect⟩
      · exact ⟨_, _, hrun.trans hremove, .iterRefused hen (Or.inr rfl) _⟩
      · exact ⟨t', _, hrun.trans hremove, .iterRemoved hen hflag hpos heffect⟩
  | iterFree i =>
    obtain ⟨t', hrun, hdecays, ho'⟩ := isoDirIterFree_spec ho hen
    refine ⟨t', _, ?_, .freed hen hdecays ho'⟩
    simp only [exec, hrun, Option.map_some]

omit [Fintype Node] in
theorem TakeEffect.orderly {releases : Bool} {t' : Tree Node} (ho : Orderly t)
    (h : TakeEffect t n releases t') : Orderly t' := by
  cases h with
  | taken child taken => exact taken.orderly ho child
  | removed child taken released => exact (taken.orderly ho child).released released

variable {t' : Tree Node} {op : Op Node} {ret : Ret Node}

theorem Effect.orderly (ho : Orderly t) (h : Effect t op t' ret) : Orderly t' := by
  cases h with
  | refused e => exact ho
  | inserted inserted => exact inserted.orderly ho
  | added inserted => exact inserted.orderly ho
  | taken effect => exact effect.orderly ho
  | removed effect => exact effect.orderly ho
  | renamed renamed =>
    cases renamed with
    | refused e => exact ho
    | detached parent => exact ho.setName parent _
    | moved child taken orderly inserted res => exact inserted.orderly orderly
  | opened live isDir new => exact ho.iterEdit (iterEdit_getChildren ho live isDir new)
  | advanced registered advanced => exact advanced.orderly ho registered
  | iterRefused registered same e =>
    rcases same with rfl | rfl
    · exact ho
    · exact ho.iterEdit (iterEdit_unflag ho registered)
  | iterTaken registered flag pos effect | iterRemoved registered flag pos effect =>
    exact effect.orderly (ho.iterEdit (iterEdit_unflag ho registered))
  | freed registered decays orderly => exact orderly

/-- Errors leave the directories alone. -/
theorem Effect.unchanged (h : Effect t op t' ret) (herr : ret.isError = true) :
    t'.toDirs = t.toDirs := by
  have hsuccess : (Ret.value isoSuccess : Ret Node).isError = false := rfl
  cases h with
  | refused e => rfl
  | inserted inserted => rw [inserted.unchanged herr]
  | added inserted => rw [inserted.unchanged herr]
  | taken effect => cases hsuccess.symm.trans herr
  | removed effect => cases hsuccess.symm.trans herr
  | renamed renamed =>
    cases renamed with
    | refused e => rfl
    | detached parent => cases hsuccess.symm.trans herr
    | moved child taken orderly inserted res => cases hsuccess.symm.trans herr
  | opened live isDir new => rfl
  | advanced registered advanced => exact advanced.unchanged
  | iterRefused registered same e =>
    rcases same with rfl | rfl
    · rfl
    · rfl
  | iterTaken registered flag pos effect => cases hsuccess.symm.trans herr
  | iterRemoved registered flag pos effect => cases hsuccess.symm.trans herr
  | freed registered decays orderly => cases hsuccess.symm.trans herr

end Calls

/-! ## Runs -/

/-- A call, its return value, and the tree behind it. -/
structure Call (Node : Type) where
  op : Op Node
  ret : Ret Node
  after : Tree Node

open Classical in
/-- The calls with valid arguments which meet a condition. -/
noncomputable def calls (allowed : Tree Node → Op Node → Prop) :
    System (Tree Node) (Op Node) (Call Node) where
  step t op :=
    if Enabled t op ∧ allowed t op then
      (exec t op).map fun result => (result.1, ⟨op, result.2, result.1⟩)
    else none

/-- What the writers expect of all directories. -/
structure ChildrenInOrder (t : Tree Node) : Prop where
  ascending : ∀ d, t.Live d → t.isDir d = true →
    ∃ l, t.childList d = some l ∧ l.Pairwise (fun a b => strcmp (t.name a) (t.name b) < 0) ∧
      t.nchildren d = l.length ∧ ∀ n ∈ l, t.parent n = some d
  one : ∀ d d' l l', t.Live d → t.isDir d = true → t.Live d' → t.isDir d' = true →
    t.childList d = some l → t.childList d' = some l' → ∀ n ∈ l, n ∈ l' → d = d'

section Runs

variable {t₀ t : Tree Node} {trace : List (Call Node)}
  {allowed : Tree Node → Op Node → Prop}

theorem Orderly.childrenInOrder (ho : Orderly t) : ChildrenInOrder t where
  ascending d hlive hdir := by
    obtain ⟨l, hl⟩ := ho.lists d hlive hdir
    exact ⟨l, childList_eq hl.chain, ho.sorted d l hlive hdir hl, hl.count,
      fun n hn => ((hl.mem n).mp hn).1⟩
  one d d' l l' hlive hdir hlive' hdir' hlist hlist' n hn hn' := by
    obtain ⟨a, ha⟩ := ho.lists d hlive hdir
    obtain ⟨b, hb⟩ := ho.lists d' hlive' hdir'
    obtain rfl := Option.some.inj ((childList_eq ha.chain).symm.trans hlist)
    obtain rfl := Option.some.inj ((childList_eq hb.chain).symm.trans hlist')
    exact Option.some.inj (((ha.mem n).mp hn).1.symm.trans ((hb.mem n).mp hn').1)

/-- A new root, and nodes which do not belong to a directory yet. -/
def newRoot (name : Node → Bytes) (mtime : Node → Int) (fmt : Node → Nat)
    (isDir : Node → Bool) (root : Node) : Tree Node where
  name := name
  mtime := mtime
  fmt := fmt
  isDir := isDir
  parent n := if n = root then some root else none
  cell _ := none
  nchildren _ := 0
  refcount _ := 1
  reg := []
  iter _ := ⟨root, none, false⟩

omit [Fintype Node] in
theorem orderly_newRoot {name : Node → Bytes} {mtime : Node → Int} {fmt : Node → Nat}
    {isDir : Node → Bool} {root : Node} (hdir : isDir root = true) :
    Orderly (newRoot name mtime fmt isDir root) where
  lists d _ _ := by
    refine ⟨[], rfl, rfl, by simp, fun n => ?_⟩
    change n ∈ [] ↔ (if n = root then some root else none) = some d ∧ n ≠ d
    split
    next heq => simp [heq]
    next => simp
  parents n d hp := by
    change (if n = root then some root else none) = some d at hp
    split at hp
    next =>
      cases hp
      exact ⟨Nat.one_pos, hdir⟩
    next => cases hp
  held n := by
    unfold Tree.held newRoot
    split <;> simp
  regNodup := List.nodup_nil
  iterDirs i hi := by cases hi
  iterPos i hi := by cases hi
  sorted d l hlive hdir hl := by
    cases l with
    | nil => exact List.Pairwise.nil
    | cons m l => cases (hl.chain.1 : (none : Option Node) = some m)

theorem calls_of_exec {op : Op Node} {t' : Tree Node} {ret : Ret Node} (hen : Enabled t op)
    (hallowed : allowed t op) (hexec : exec t op = some (t', ret)) :
    (calls allowed).step t op = some (t', ⟨op, ret, t'⟩) := by
  unfold calls
  simp only [if_pos (show Enabled t op ∧ allowed t op from ⟨hen, hallowed⟩), hexec,
    Option.map_some]

theorem calls_step {op : Op Node} {e : Call Node} {t' : Tree Node}
    (hstep : (calls allowed).step t op = some (t', e)) :
    Enabled t op ∧ allowed t op ∧ ∃ ret, exec t op = some (t', ret) ∧ e = ⟨op, ret, t'⟩ := by
  unfold calls at hstep
  simp only at hstep
  split at hstep
  next hcond =>
    obtain ⟨⟨s, ret⟩, hexec, heq⟩ := Option.map_eq_some_iff.mp hstep
    cases heq
    exact ⟨hcond.1, hcond.2, ret, hexec, rfl⟩
  next => cases hstep

/-- What one step of a run makes of the tree. -/
theorem calls_effect (hallowed : ∀ t op, allowed t op → Harmless t op) {op : Op Node}
    {e : Call Node} {t' : Tree Node} (ho : Orderly t)
    (hstep : (calls allowed).step t op = some (t', e)) :
    e.op = op ∧ e.after = t' ∧ Effect t op t' e.ret := by
  obtain ⟨hen, hall, ret, hexec, rfl⟩ := calls_step hstep
  obtain ⟨s, ret', hexec', heffect⟩ := exec_effect ho hen (hallowed t op hall)
  obtain ⟨rfl, rfl⟩ := Prod.mk.inj (Option.some.inj (hexec'.symm.trans hexec))
  exact ⟨rfl, rfl, heffect⟩

theorem orderly_run (hallowed : ∀ t op, allowed t op → Harmless t op) (h₀ : Orderly t₀)
    (run : Run (calls allowed) t₀ trace t) : Orderly t := by
  apply run.invariant (I := fun _ t => Orderly t) h₀
  intro _ s op s' e ho hstep
  exact (calls_effect hallowed ho hstep).2.2.orderly ho

/-- In runs of harmless calls all directories stay in order. Each further call returns, and
errors change no directory. -/
theorem harmless_calls_keep_order (h₀ : Orderly t₀) (run : Run (calls Harmless) t₀ trace t) :
    ChildrenInOrder t ∧ ∀ op, Enabled t op → Harmless t op →
      ∃ t' ret, exec t op = some (t', ret) ∧ (ret.isError = true → t'.toDirs = t.toDirs) := by
  have ho := orderly_run (fun _ _ h => h) h₀ run
  refine ⟨ho.childrenInOrder, fun op hen hharmless => ?_⟩
  obtain ⟨t', ret, hexec, heffect⟩ := exec_effect ho hen hharmless
  exact ⟨t', ret, hexec, heffect.unchanged⟩

/-- A root and two nodes of the same name. -/
def threeNodes : Tree (Fin 3) :=
  newRoot (fun n => if n = 0 then [] else [97]) (fun _ => 0) (fun _ => 0)
    (fun n => decide (n = 0)) 0

/-- The second node of the same name is refused. -/
theorem threeNodes_in_order :
    ∃ s t, Run (calls Harmless) threeNodes [⟨.addNode 0 1 .never, .value 1, s⟩,
        ⟨.addNode 0 2 .never, .error .nodeNameNotUnique, t⟩] t ∧ ChildrenInOrder t := by
  have hlink := @isoDirInsert_link _ _ _ threeNodes 0 1 .never (.children 0) (by decide)
    fun old hold => by cases hold
  have hvalue : toInt (threeNodes.nchildren 0 + 1) = 1 := toInt_of_lt (by decide)
  rw [hvalue] at hlink
  have hexec : exec threeNodes (.addNode 0 1 .never) =
      some (linkedIn threeNodes 0 1 (.children 0), .value 1) := hlink
  have hfits : Harmless threeNodes (.addNode 0 1 .never) := fun _ _ pos hpos => by
    obtain rfl : .children 0 = pos := Option.some.inj hpos
    exact ⟨fun _ => by decide, fun old hold => by cases hold⟩
  generalize ht : linkedIn threeNodes 0 1 (.children 0) = t at hexec
  have hen : Enabled t (.addNode 0 2 .never) := by
    rw [← ht]
    decide
  have hfind : t.isoDirFind 0 (t.name 2) = some (.children 0) := by
    rw [← ht]
    rfl
  have hcell : t.cell (.children 0) = some 1 := by
    rw [← ht]
    rfl
  have hfits' : Harmless t (.addNode 0 2 .never) := fun _ _ pos hpos => by
    obtain rfl := Option.some.inj (hfind.symm.trans hpos)
    constructor
    · intro hother
      refine absurd ?_ (hother 1 hcell)
      rw [← ht]
      rfl
    · intro old _ _ hreplaces
      cases hreplaces
  have hexec' : exec t (.addNode 0 2 .never) = some (t, .error .nodeNameNotUnique) := by
    rw [← ht]
    rfl
  have hstart : Run (calls Harmless) threeNodes [] threeNodes := .refl
  have hrun := hstart.snoc (calls_of_exec (by decide) hfits hexec)
  have hrun' := hrun.snoc (calls_of_exec hen hfits' hexec')
  exact ⟨t, t, hrun', (harmless_calls_keep_order (orderly_newRoot (by decide)) hrun').1⟩

/-- After a root got taken its number of children is wrong. -/
theorem root_taken_miscounts :
    ∃ t, Run (calls fun _ _ => True) (newRoot (fun _ : Unit => []) (fun _ => 0) (fun _ => 0)
        (fun _ => true) ()) [⟨.take (), .value 1, t⟩] t ∧ ¬ ChildrenInOrder t := by
  have hexec : ∃ t, exec (newRoot (fun _ : Unit => []) (fun _ => 0) (fun _ => 0)
      (fun _ => true) ()) (.take ()) = some (t, .value 1) ∧ t.Live () ∧ t.isDir () = true ∧
      t.childList () = some [] ∧ t.nchildren () = 2 ^ 64 - 1 :=
    ⟨_, rfl, by decide, rfl, rfl, rfl⟩
  obtain ⟨t, hexec, hlive, hdir, hlist, hcount⟩ := hexec
  have hstart : Run (calls fun _ _ => True) (newRoot (fun _ : Unit => []) (fun _ => 0)
      (fun _ => 0) (fun _ => true) ()) [] _ := .refl
  refine ⟨t, hstart.snoc (calls_of_exec (by decide) trivial hexec), fun h => ?_⟩
  obtain ⟨l, hl, -, hlength, -⟩ := h.ascending () hlive hdir
  obtain rfl := Option.some.inj (hlist.symm.trans hl)
  rw [hcount] at hlength
  simp at hlength

end Runs

end DirTree
