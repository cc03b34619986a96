import Libisofs.TreeClone

/-!
# What cloning changes

The outcome of a clone by the first obstacle on its way, and with it when cloning either
succeeds with a copy and no other change, or fails and leaves the target directory alone.
-/

namespace TreeClone

open RecursiveAdd (isoDirFind isoDirExists)
open SymlinkTarget (Bytes IsoError isoNodeIsValidName isoNodeIsValidLinkDest)
open ThreeWay (strcmp strcmp_eq_zero strcmp_self strcmp_lt_trans)

variable {Stream Proc Data : Type}

section Placing

@[simp] theorem name_withHead (node : IsoNode Stream Proc Data) (head : Head Proc Data) :
    (node.withHead head).name = head.name := by
  cases node <;> rfl

theorem take_place (children : List (IsoNode Stream Proc Data))
    (node : IsoNode Stream Proc Data) : (place children node).take = children :=
  List.take_append_drop _ children

theorem isoDirAddNode_new {children : List (IsoNode Stream Proc Data)}
    {node : IsoNode Stream Proc Data}
    (hnew : isoDirExists (names children) node.name = false) :
    isoDirAddNode children node = .ok (place children node) := by
  rw [isoDirAddNode, hnew]
  rfl

/-- A node with another head but the same name goes to the same place. -/
theorem place_withHead (children : List (IsoNode Stream Proc Data))
    (node : IsoNode Stream Proc Data) {head : Head Proc Data} (hname : head.name = node.name) :
    { place children node with node := node.withHead head } =
      place children (node.withHead head) := by
  rw [place, place, name_withHead, hname]

/-- All children in front of the place have other names. -/
theorem name_ne_of_mem_before {children : List (IsoNode Stream Proc Data)}
    {node child : IsoNode Stream Proc Data} (h : child ∈ (place children node).before) :
    child.name ≠ node.name := by
  intro heq
  obtain ⟨i, hi, hchild⟩ := List.getElem_of_mem h
  have hlt : i < isoDirFind (names children) node.name := by
    have := hi
    simp only [place, List.length_take] at this
    omega
  have hbound : i < (names children).length := lt_of_lt_of_le hlt List.findIdx_le_length
  have hname : (names children)[i] = child.name := by
    have hget := hchild
    simp only [place, List.getElem_take] at hget
    simp only [names, List.getElem_map, hget]
  have hno := List.not_of_lt_findIdx hlt
  simp [hname, heq, strcmp_self] at hno

/-- Behind smaller names the place is the end. -/
theorem isoDirFind_behind {ns : List Bytes} {name : Bytes}
    (h : ∀ n ∈ ns, strcmp n name < 0) : isoDirFind ns name = ns.length := by
  apply List.findIdx_eq_length.mpr
  intro n hn
  simpa using h n hn

theorem isoDirExists_behind {ns : List Bytes} {name : Bytes}
    (h : ∀ n ∈ ns, strcmp n name < 0) : isoDirExists ns name = false := by
  rw [isoDirExists, isoDirFind_behind h, List.getElem?_eq_none (Nat.le_refl _)]

theorem place_behind {children : List (IsoNode Stream Proc Data)}
    {node : IsoNode Stream Proc Data} (h : ∀ n ∈ names children, strcmp n node.name < 0) :
    (place children node).children = children ++ [node] := by
  have hlength : (names children).length = children.length := List.length_map _
  rw [Placed.children, place, isoDirFind_behind h, hlength, List.take_length, List.drop_length]

end Placing

section Adding

variable {children : List (IsoNode Stream Proc Data)} {name : Bytes}
  {valid : Except IsoError Unit} {node : IsoNode Stream Proc Data}

theorem addNewNode_valid (hnew : isoDirExists (names children) name = false)
    (hname : node.name = name) (hvalid : (isoNodeIsValidName name).isOk = true)
    (hother : valid.isOk = true) :
    addNewNode children name valid node = .ok (place children node) := by
  unfold addNewNode
  rw [hnew]
  cases hcheck : isoNodeIsValidName name with
  | error e => rw [hcheck] at hvalid; cases hvalid
  | ok u =>
    cases valid with
    | error e => cases hother
    | ok u => exact isoDirAddNode_new (hname ▸ hnew)

theorem addNewNode_invalid (hnew : isoDirExists (names children) name = false)
    (hbad : (isoNodeIsValidName name).isOk = false ∨ valid.isOk = false) :
    ∃ e, addNewNode children name valid node = .error e := by
  unfold addNewNode
  rw [hnew]
  cases hcheck : isoNodeIsValidName name with
  | error e => exact ⟨_, rfl⟩
  | ok u =>
    cases valid with
    | error e => exact ⟨_, rfl⟩
    | ok u =>
      rw [hcheck] at hbad
      rcases hbad with hbad | hbad <;> cases hbad

end Adding

section Attributes

variable [DecidableEq Proc] {cloners : Cloners Stream Proc Data}

/-- The loop puts copies of all infos in front, in reverse order. -/
theorem isoNodeCloneXinfo_clonable {old : List (XInfo Proc Data)}
    (new : List (XInfo Proc Data)) (hclonable : xinfoClonable cloners old = true)
    (hdistinct : ((new ++ old).map XInfo.proc).Nodup) :
    isoNodeCloneXinfo cloners old new = (.ok (), new.reverse ++ old) := by
  induction old generalizing new with
  | nil => rw [isoNodeCloneXinfo, List.append_nil]
  | cons info old ih =>
    rw [xinfoClonable, List.all_cons, Bool.and_eq_true] at hclonable
    obtain ⟨hinfo, hold⟩ := hclonable
    rw [isoNodeCloneXinfo]
    cases hcloner : cloners.xinfo info.proc with
    | none => rw [hcloner] at hinfo; cases hinfo
    | some clone =>
      rw [hcloner] at hinfo
      cases hcopy : clone info.data with
      | error ret => simp only [hcopy] at hinfo; cases hinfo
      | ok data =>
        have hdata : data = info.data := cloners.xinfo_copies _ _ _ _ hcloner hcopy
        have hnotin : info.proc ∉ new.map XInfo.proc := by
          rw [List.map_append, List.nodup_append] at hdistinct
          intro hin
          exact hdistinct.2.2 _ hin _ List.mem_cons_self rfl
        have hadd : isoNodeAddXinfo new ⟨info.proc, data⟩ = info :: new := by
          rw [isoNodeAddXinfo, if_neg hnotin, hdata]
        have hdistinct' : ((info :: new ++ old).map XInfo.proc).Nodup := by
          refine (List.Perm.nodup_iff (List.Perm.map _ ?_)).mp hdistinct
          exact List.perm_middle
        simp only [hcopy]
        rw [hadd, ih _ hold hdistinct', List.reverse_cons, List.append_assoc]
        rfl

theorem isoNodeCloneXinfo_not_clonable {old : List (XInfo Proc Data)}
    (new : List (XInfo Proc Data)) (hno : xinfoClonable cloners old = false) :
    ∃ e list, isoNodeCloneXinfo cloners old new = (.error e, list) := by
  induction old generalizing new with
  | nil => cases hno
  | cons info old ih =>
    rw [isoNodeCloneXinfo]
    cases hcloner : cloners.xinfo info.proc with
    | none => exact ⟨_, _, rfl⟩
    | some clone =>
      cases hcopy : clone info.data with
      | error ret =>
        simp only [hcopy]
        exact ⟨_, _, rfl⟩
      | ok data =>
        have hold : xinfoClonable cloners old = false := by
          rw [xinfoClonable, List.all_cons, hcloner] at hno
          simp only [hcopy] at hno
          exact hno
        simp only [hcopy]
        exact ih _ hold

variable {old : Head Proc Data} {children : List (IsoNode Stream Proc Data)}
  {node : IsoNode Stream Proc Data}

theorem copyAttr_clonable (hclonable : xinfoClonable cloners old.xinfo = true)
    (hdistinct : (old.xinfo.map XInfo.proc).Nodup) :
    copyAttr cloners old (place children node) =
      .done (place children (node.withHead { old with name := node.name })) := by
  have hcopy := isoNodeCloneXinfo_clonable [] hclonable hdistinct
  have hplace := @place_withHead _ _ _ children node { old with name := node.name } rfl
  rw [copyAttr, isoTreeCopyNodeAttr, hcopy, ← hplace]
  rfl

theorem copyAttr_not_clonable (hno : xinfoClonable cloners old.xinfo = false) :
    ∃ e head, head.name = node.name ∧ copyAttr cloners old (place children node) =
      .failed e (place children (node.withHead head)).children := by
  obtain ⟨e, list, hcopy⟩ := isoNodeCloneXinfo_not_clonable [] hno
  have hplace := @place_withHead _ _ _ children node ⟨node.name, old.attr, list⟩ rfl
  refine ⟨e, ⟨node.name, old.attr, list⟩, rfl, ?_⟩
  rw [copyAttr, isoTreeCopyNodeAttr, hcopy, ← hplace]
  rfl

end Attributes

section Leaves

variable {cloners : Cloners Stream Proc Data} {now : Int} {parent : Attr}
  {children : List (IsoNode Stream Proc Data)} {name : Bytes} {mode : Nat}

theorem cloneLeaf_refused (hnew : isoDirExists (names children) name = false)
    {content : Leaf Stream} (hrefused : leafRefused cloners name mode content = true) :
    ∃ e, cloneLeaf cloners now parent children name mode content = some (.error e) := by
  cases content with
  | file stream weight explicitWeight fromOldSession =>
    simp only [leafRefused, Bool.or_eq_true, Bool.not_eq_true'] at hrefused
    simp only [cloneLeaf, isoTreeCloneFile]
    cases hstream : cloners.stream stream with
    | error ret => exact ⟨_, rfl⟩
    | ok new =>
      rw [hstream] at hrefused
      have hname : (isoNodeIsValidName name).isOk = false :=
        hrefused.resolve_left (by simp [Except.isOk, Except.toBool])
      obtain ⟨e, he⟩ := addNewNode_invalid hnew (.inl hname)
      refine ⟨e, ?_⟩
      simp only [isoTreeAddNewFile]
      rw [he]
  | symlink dest inode =>
    simp only [leafRefused, Bool.or_eq_true, Bool.not_eq_true'] at hrefused
    simp only [cloneLeaf, isoTreeCloneSymlink, isoTreeAddNewSymlink]
    obtain ⟨e, he⟩ := addNewNode_invalid hnew hrefused
    exact ⟨e, by rw [he]⟩
  | special dev inode =>
    simp only [leafRefused, Bool.or_eq_true, Bool.not_eq_true'] at hrefused
    simp only [cloneLeaf, isoTreeCloneSpecial, isoTreeAddNewSpecial]
    by_cases hfmt : notSpecial mode = true
    · rw [if_pos hfmt]
      exact ⟨_, rfl⟩
    · rw [if_neg hfmt]
      obtain ⟨e, he⟩ := addNewNode_invalid hnew (.inl (hrefused.resolve_left hfmt))
      exact ⟨e, by rw [he]⟩
  | boot => cases hrefused

theorem cloneLeaf_accepted (hnew : isoDirExists (names children) name = false)
    {content : Leaf Stream} (hboot : content ≠ .boot)
    (haccepted : leafRefused cloners name mode content = false) :
    ∃ (head : Head Proc Data) (copy : Leaf Stream), head.name = name ∧ copy.kind = content.kind ∧
      cloneLeaf cloners now parent children name mode content =
        some (.ok (place children (.leaf head copy))) := by
  cases content with
  | file stream weight explicitWeight fromOldSession =>
    simp only [leafRefused, Bool.or_eq_false_iff, Bool.not_eq_false'] at haccepted
    simp only [cloneLeaf, isoTreeCloneFile, isoTreeAddNewFile]
    cases hstream : cloners.stream stream with
    | error ret => rw [hstream] at haccepted; cases haccepted.1
    | ok new =>
      simp only []
      rw [addNewNode_valid hnew rfl haccepted.2 rfl]
      exact ⟨newHead parent now name _, .file new weight false false, rfl, rfl, rfl⟩
  | symlink dest inode =>
    simp only [leafRefused, Bool.or_eq_false_iff, Bool.not_eq_false'] at haccepted
    simp only [cloneLeaf, isoTreeCloneSymlink, isoTreeAddNewSymlink]
    rw [addNewNode_valid hnew rfl haccepted.1 haccepted.2]
    exact ⟨newHead parent now name _, .symlink dest inode, rfl, rfl, rfl⟩
  | special dev inode =>
    simp only [leafRefused, Bool.or_eq_false_iff, Bool.not_eq_false'] at haccepted
    simp only [cloneLeaf, isoTreeCloneSpecial, isoTreeAddNewSpecial, haccepted.1]
    rw [if_neg (by decide), addNewNode_valid hnew rfl haccepted.2 rfl]
    exact ⟨newHead parent now name _, .special dev inode, rfl, rfl, rfl⟩
  | boot => exact absurd rfl hboot

end Leaves

section Outcomes

variable (cloners : Cloners Stream Proc Data)

/-- What the first obstacle means for a clone with a new name. -/
inductive Settled (children : List (IsoNode Stream Proc Data)) (node : IsoNode Stream Proc Data)
    (name : Bytes) : Option Obstacle → Option (CloneResult Stream Proc Data) → Prop where
  | crashed : Settled children node name (some .bootCatalog) none
  | refused (e : Error) : Settled children node name (some .refused) (some (.failed e children))
  | left (e : Error) (copy : IsoNode Stream Proc Data) (hname : copy.name = name)
      (hno : xinfoClonable cloners node.head.xinfo = false) :
      Settled children node name none (some (.failed e (place children copy).children))
  | copied (copy : IsoNode Stream Proc Data) (hname : copy.name = name)
      (hclonable : xinfoClonable cloners node.head.xinfo = true)
      (hshape : shape true copy = (shape false node).named name) :
      Settled children node name none (some (.done (place children copy)))

/-- What the first obstacle means for the filling of a new directory behind the children which
it already has. -/
inductive Filled (present subs : List (IsoNode Stream Proc Data)) : Option Obstacle →
    Option (Except Error Unit × List (IsoNode Stream Proc Data)) → Prop where
  | crashed : Filled present subs (some .bootCatalog) none
  | refused (e : Error) (new : List (IsoNode Stream Proc Data)) :
      Filled present subs (some .refused) (some (.error e, new))
  | copied (copies : List (IsoNode Stream Proc Data))
      (hshapes : shapes true copies = shapes false subs) :
      Filled present subs none (some (.ok (), present ++ copies))

variable {cloners} [DecidableEq Proc] {now : Int}

/-- The attributes decide about a node which has been made. -/
theorem settled_copyAttr {children : List (IsoNode Stream Proc Data)}
    {node made : IsoNode Stream Proc Data} {name : Bytes} (hmade : made.name = name)
    (hdistinct : (node.head.xinfo.map XInfo.proc).Nodup)
    (hshape : shape true (made.withHead { node.head with name := name }) =
      (shape false node).named name) :
    Settled cloners children node name none
      (some (copyAttr cloners node.head (place children made))) := by
  cases hclonable : xinfoClonable cloners node.head.xinfo with
  | true =>
    rw [copyAttr_clonable hclonable hdistinct, hmade]
    exact .copied _ (name_withHead _ _) hclonable hshape
  | false =>
    obtain ⟨e, head, hname, hcopy⟩ :=
      @copyAttr_not_clonable _ _ _ _ _ _ children made hclonable
    rw [hcopy]
    exact .left e _ ((name_withHead _ _).trans (hname.trans hmade)) hclonable

theorem cloneTrunc_new {fill : List (IsoNode Stream Proc Data) → Attr →
      Option (Except Error Unit × List (IsoNode Stream Proc Data))} {old : Head Proc Data}
    {subs : List (IsoNode Stream Proc Data)} {parent : Attr}
    {children : List (IsoNode Stream Proc Data)} {name : Bytes}
    (hnew : isoDirExists (names children) name = false) :
    cloneTrunc cloners now fill (.dir old subs) parent children name =
      match isoTreeCloneDir now parent children name fill with
      | some (.done placed) => some (copyAttr cloners old placed)
      | other => other := by
  rw [cloneTrunc, hnew]
  rfl

theorem cloneTrunc_leaf {old : Head Proc Data} {content : Leaf Stream} {parent : Attr}
    {children : List (IsoNode Stream Proc Data)} {name : Bytes}
    {fill : List (IsoNode Stream Proc Data) → Attr →
      Option (Except Error Unit × List (IsoNode Stream Proc Data))}
    (hdistinct : (old.xinfo.map XInfo.proc).Nodup)
    (hnew : isoDirExists (names children) name = false) :
    Settled cloners children (.leaf old content) name (obstacle cloners (.leaf old content) name)
      (cloneTrunc cloners now fill (.leaf old content) parent children name) := by
  rw [cloneTrunc, hnew, if_neg Bool.false_ne_true]
  by_cases hboot : content = .boot
  · rw [hboot]
    exact .crashed
  · have hobstacle : obstacle cloners (.leaf old content) name =
        if leafRefused cloners name old.attr.mode content then some .refused else none := by
      cases content <;> first | rfl | exact absurd rfl hboot
    rw [hobstacle]
    cases hrefused : leafRefused cloners name old.attr.mode content with
    | true =>
      obtain ⟨e, he⟩ := @cloneLeaf_refused _ _ _ _ now parent _ _ _ hnew _ hrefused
      rw [he]
      exact .refused e
    | false =>
      obtain ⟨head, copy, hname, hkind, hcopy⟩ :=
        @cloneLeaf_accepted _ _ _ _ now parent _ _ _ hnew _ hboot hrefused
      rw [hcopy]
      have hshape : shape true ((IsoNode.leaf head copy).withHead { old with name := name }) =
          (shape false (.leaf old content)).named name := by
        simp only [IsoNode.withHead, shape, Shape.named, hkind]
      exact @settled_copyAttr _ _ _ _ _ _ (.leaf old content) _ _ hname hdistinct hshape

omit [DecidableEq Proc] in
/-- The new directory is not in the tree while it gets filled. -/
theorem isoTreeCloneDir_valid {parent : Attr} {children : List (IsoNode Stream Proc Data)}
    {name : Bytes} (fill : List (IsoNode Stream Proc Data) → Attr →
      Option (Except Error Unit × List (IsoNode Stream Proc Data)))
    (hnew : isoDirExists (names children) name = false)
    (hvalid : (isoNodeIsValidName name).isOk = true) :
    ∃ head : Head Proc Data, head.name = name ∧
      isoTreeCloneDir now parent children name fill =
        match fill children head.attr with
        | none => none
        | some (.error e, _) => some (.failed e children)
        | some (.ok (), subs) => some (.done (place children (.dir head subs))) := by
  refine ⟨newHead parent now name (withPermissions sIfdir parent.mode), rfl, ?_⟩
  rw [isoTreeCloneDir, isoTreeAddNewDir, addNewNode_valid hnew rfl hvalid rfl]
  simp only [take_place]
  have hgraft : ∀ subs, isoDirAddNode children (.dir (place children (.dir
      (newHead parent now name (withPermissions sIfdir parent.mode)) [])).node.head subs) =
      .ok (place children (.dir
        (newHead parent now name (withPermissions sIfdir parent.mode)) subs)) :=
    fun subs => isoDirAddNode_new hnew
  simp only [hgraft]
  rfl

theorem cloneTrunc_dir {old : Head Proc Data} {subs : List (IsoNode Stream Proc Data)}
    {parent : Attr} {children : List (IsoNode Stream Proc Data)} {name : Bytes}
    {fill : List (IsoNode Stream Proc Data) → Attr →
      Option (Except Error Unit × List (IsoNode Stream Proc Data))}
    (hdistinct : (old.xinfo.map XInfo.proc).Nodup)
    (hnew : isoDirExists (names children) name = false)
    (hfill : ∀ attr, Filled [] subs (obstacles cloners subs) (fill children attr)) :
    Settled cloners children (.dir old subs) name (obstacle cloners (.dir old subs) name)
      (cloneTrunc cloners now fill (.dir old subs) parent children name) := by
  rw [cloneTrunc_new hnew, obstacle]
  cases hvalid : (isoNodeIsValidName name).isOk with
  | false =>
    obtain ⟨e, he⟩ := addNewNode_invalid hnew (.inl hvalid)
    rw [isoTreeCloneDir, isoTreeAddNewDir, he]
    exact .refused e
  | true =>
    obtain ⟨head, hname, hdir⟩ := @isoTreeCloneDir_valid _ _ _ now parent _ _ fill hnew hvalid
    rw [hdir]
    have hfilled := hfill head.attr
    generalize fill children head.attr = filling at hfilled ⊢
    generalize obstacles cloners subs = found at hfilled ⊢
    cases hfilled with
    | crashed => exact .crashed
    | refused e new => exact .refused e
    | copied copies hshapes =>
      have hshape : shape true ((IsoNode.dir head copies).withHead { old with name := name }) =
          (shape false (.dir old subs)).named name := by
        simp only [IsoNode.withHead, shape, Shape.named, hshapes]
      exact @settled_copyAttr _ _ _ _ _ _ (.dir old subs) _ _ hname hdistinct hshape

omit [DecidableEq Proc] in
theorem isBoot_of_obstacle_none {node : IsoNode Stream Proc Data} {name : Bytes}
    (h : obstacle cloners node name = none) : node.isBoot = false := by
  cases node with
  | leaf head content => cases content <;> first | rfl | cases h
  | dir head children => rfl

mutual

/-- Behind its smaller siblings a node gets cloned as its first obstacle tells. -/
theorem cloneSub_settled : (node : IsoNode Stream Proc Data) → WellFormed node →
    (attr : Attr) → (new : List (IsoNode Stream Proc Data)) →
    (∀ n ∈ names new, strcmp n node.name < 0) →
    Settled cloners new node node.name (obstacle cloners node node.name)
      (cloneSub cloners now node attr new)
  | .leaf old content, hwell, attr, new, hbehind => by
    rw [cloneSub]
    exact cloneTrunc_leaf hwell (isoDirExists_behind hbehind)
  | .dir old subs, hwell, attr, new, hbehind => by
    rw [cloneSub]
    refine cloneTrunc_dir hwell.1 (isoDirExists_behind hbehind) fun attr => ?_
    exact cloneSubs_filled subs hwell.2.2 hwell.2.1 attr [] (by simp [names])

theorem cloneSubs_filled : (subs : List (IsoNode Stream Proc Data)) → AllWellFormed subs →
    (names subs).Pairwise (fun a b => strcmp a b < 0) → (attr : Attr) →
    (new : List (IsoNode Stream Proc Data)) →
    (∀ n ∈ names new, ∀ s ∈ names subs, strcmp n s < 0) →
    Filled new subs (obstacles cloners subs) (cloneSubs cloners now subs attr new)
  | [], _, _, attr, new, _ => by
    have h : Filled new ([] : List (IsoNode Stream Proc Data)) none
      (some (.ok (), new ++ [])) := .copied [] rfl
    rwa [List.append_nil] at h
  | sub :: rest, hwell, hasc, attr, new, hbehind => by
    rw [AllWellFormed] at hwell
    have hasc' : (sub.name :: names rest).Pairwise (fun a b => strcmp a b < 0) := hasc
    rw [List.pairwise_cons] at hasc'
    have hsub := cloneSub_settled sub hwell.1 attr new fun n hn => hbehind n hn _ (by simp [names])
    rw [cloneSubs, obstacles]
    generalize cloneSub cloners now sub attr new = result at hsub ⊢
    generalize hfound : obstacle cloners sub sub.name = found at hsub ⊢
    cases hsub with
    | crashed => exact .crashed
    | refused e => exact .refused e new
    | left e copy hname hno =>
      simp only [hno]
      exact .refused e _
    | copied copy hname hclonable hshape =>
      have hplace : (place new copy).children = new ++ [copy] := by
        apply place_behind
        intro n hn
        rw [hname]
        exact hbehind n hn _ (by simp [names])
      have hbehind' : ∀ n ∈ names (new ++ [copy]), ∀ s ∈ names rest, strcmp n s < 0 := by
        intro n hn s hs
        simp only [names, List.map_append, List.mem_append, List.map_cons, List.map_nil,
          List.mem_singleton] at hn
        rcases hn with hn | hn
        · exact hbehind n hn s (List.mem_cons_of_mem _ hs)
        · rw [hn, hname]
          exact hasc'.1 s hs
      have hrest := cloneSubs_filled rest hwell.2 hasc'.2 attr _ hbehind'
      simp only [hclonable, if_true, hplace]
      generalize cloneSubs cloners now rest attr (new ++ [copy]) = result at hrest ⊢
      generalize obstacles cloners rest = found at hrest ⊢
      cases hrest with
      | crashed => exact .crashed
      | refused e new => exact .refused e new
      | copied copies hshapes =>
        rw [List.append_assoc]
        refine .copied (copy :: copies) ?_
        have hnoBoot : sub.isBoot = false := isBoot_of_obstacle_none hfound
        have hsame : (shape false sub).named sub.name = shape false sub := by
          cases sub <;> rfl
        rw [shapes, shapes, hnoBoot, hshapes, hshape, hsame]
        simp

end

end Outcomes

section Paths

variable {head : Head Proc Data} {children : List (IsoNode Stream Proc Data)}

theorem name_setChildren (path : List Bytes) (new : List (IsoNode Stream Proc Data))
    (node : IsoNode Stream Proc Data) : (setChildren path new node).name = node.name := by
  cases node with
  | leaf head content => cases path <;> rfl
  | dir head children => cases path <;> rfl

theorem wellFormed_of_mem {child : IsoNode Stream Proc Data} (hall : AllWellFormed children)
    (hmem : child ∈ children) : WellFormed child := by
  induction children with
  | nil => cases hmem
  | cons node rest ih =>
    rcases List.mem_cons.mp hmem with rfl | hrest
    · exact hall.1
    · exact ih hall.2 hrest

theorem eq_of_name_eq {a b : IsoNode Stream Proc Data}
    (hasc : (names children).Pairwise fun a b => strcmp a b < 0) (ha : a ∈ children)
    (hb : b ∈ children) (h : a.name = b.name) : a = b := by
  have hnodup : (children.map IsoNode.name).Nodup := by
    refine List.Pairwise.imp ?_ hasc
    intro s t hst heq
    rw [heq, strcmp_self] at hst
    exact absurd hst (by decide)
  exact List.inj_on_of_nodup_map hnodup ha hb h

/-- To put the same children back changes nothing. -/
theorem setChildren_self {path : List Bytes} {root : IsoNode Stream Proc Data}
    (hwell : WellFormed root) (hat : nodeAt path root = some (.dir head children)) :
    setChildren path children root = root := by
  induction path generalizing root with
  | nil =>
    cases hat
    rfl
  | cons name path ih =>
    cases root with
    | leaf top content => rfl
    | dir top old =>
      rw [nodeAt] at hat
      cases hfind : old.find? fun child => child.name = name with
      | none => rw [hfind] at hat; cases hat
      | some child =>
        simp only [hfind] at hat
        have hmem : child ∈ old := List.mem_of_find?_eq_some hfind
        have hname : child.name = name := by simpa using List.find?_some hfind
        have hsame : ∀ c ∈ old,
            (if c.name = name then setChildren path children c else c) = c := by
          intro c hc
          split
          · next hcname =>
            have hchild : c = child := eq_of_name_eq hwell.2.1 hc hmem (hcname.trans hname.symm)
            rw [hchild]
            exact ih (wellFormed_of_mem hwell.2.2 hmem) hat
          · rfl
        rw [setChildren, List.map_congr_left hsame, List.map_id_fun']
        rfl

theorem setChildren_setChildren (path : List Bytes) (a b : List (IsoNode Stream Proc Data))
    (root : IsoNode Stream Proc Data) :
    setChildren path a (setChildren path b root) = setChildren path a root := by
  induction path generalizing root with
  | nil => cases root <;> rfl
  | cons name path ih =>
    cases root with
    | leaf top content => rfl
    | dir top old =>
      rw [setChildren, setChildren, setChildren, List.map_map]
      congr 1
      apply List.map_congr_left
      intro c hc
      by_cases hname : c.name = name
      · simp only [Function.comp, hname, if_true, name_setChildren, ih]
      · simp only [Function.comp, hname, if_false]

theorem nodeAt_setChildren {path : List Bytes} {root : IsoNode Stream Proc Data}
    (hat : nodeAt path root = some (.dir head children)) (new : List (IsoNode Stream Proc Data)) :
    nodeAt path (setChildren path new root) = some (.dir head new) := by
  induction path generalizing root with
  | nil =>
    cases hat
    rfl
  | cons name path ih =>
    cases root with
    | leaf top content => cases hat
    | dir top old =>
      rw [nodeAt] at hat
      cases hfind : old.find? fun child => child.name = name with
      | none => rw [hfind] at hat; cases hat
      | some child =>
        simp only [hfind] at hat
        have hname : child.name = name := by simpa using List.find?_some hfind
        have hsame : ((fun child : IsoNode Stream Proc Data => decide (child.name = name)) ∘
            fun c => if c.name = name then setChildren path new c else c) =
            fun child => decide (child.name = name) := by
          funext c
          by_cases hc : c.name = name
          · simp only [Function.comp, hc, if_true, name_setChildren]
          · simp only [Function.comp, hc, if_false]
        rw [setChildren, nodeAt, List.find?_map, hsame, hfind]
        simp only [Option.map_some, hname, if_true]
        exact ih hat

theorem nodeAt_append (path : List Bytes) (name : Bytes) {root : IsoNode Stream Proc Data}
    (hat : nodeAt path root = some (.dir head children)) :
    nodeAt (path ++ [name]) root = children.find? fun child => child.name = name := by
  induction path generalizing root with
  | nil =>
    cases hat
    rw [List.nil_append, nodeAt]
    cases children.find? fun child => child.name = name <;> rfl
  | cons step path ih =>
    cases root with
    | leaf top content => cases hat
    | dir top old =>
      rw [nodeAt] at hat
      rw [List.cons_append, nodeAt]
      cases hfind : old.find? fun child => child.name = step with
      | none => rw [hfind] at hat; cases hat
      | some child =>
        simp only [hfind] at hat
        exact ih hat

theorem find?_place {node : IsoNode Stream Proc Data} :
    ((place children node).children.find? fun child => child.name = node.name) = some node := by
  rw [Placed.children, List.find?_append]
  have hbefore :
      ((place children node).before.find? fun child => child.name = node.name) = none := by
    rw [List.find?_eq_none]
    intro child hmem
    simpa using name_ne_of_mem_before hmem
  rw [hbefore, Option.none_or]
  exact List.find?_cons_of_pos (by simp [place])

theorem eraseP_place {node : IsoNode Stream Proc Data} :
    ((place children node).children.eraseP fun child => child.name = node.name) = children := by
  have hbefore : ∀ child ∈ (place children node).before, ¬ (decide (child.name = node.name)) :=
    fun child hmem => by simpa using name_ne_of_mem_before hmem
  rw [Placed.children, List.eraseP_append_right _ hbefore,
    List.eraseP_cons_of_pos (by simp [place])]
  exact take_place children node

/-- The directory has one child more. -/
theorem place_ne {node : IsoNode Stream Proc Data} :
    (place children node).children ≠ children := by
  intro heq
  have hlength := congrArg List.length heq
  have htake := congrArg List.length (take_place children node)
  rw [Placed.children, List.length_append, List.length_cons] at hlength
  rw [Placed.take, List.length_append] at htake
  omega

end Paths

section Requests

variable (request : Request Stream Proc Data)

/-- The children are read when the tree is as it was before the call. -/
theorem oldChildren_eq {old : Head Proc Data} {subs : List (IsoNode Stream Proc Data)}
    (hnode : request.node = .dir old subs) :
    request.oldChildren request.children = some subs := by
  have hgraft : request.graft request.children = request.root :=
    setChildren_self request.wellFormed_root request.nodeAt_target
  rw [Request.oldChildren, hgraft, request.read_source, hnode]

theorem nodeAt_graft (children : List (IsoNode Stream Proc Data)) :
    nodeAt request.target (request.graft children) = some (.dir request.head children) :=
  nodeAt_setChildren request.nodeAt_target children

/-- A new node in the target directory is the only change. -/
theorem without_graft (copy : IsoNode Stream Proc Data) (hname : copy.name = request.newName) :
    without request.target request.newName
      (request.graft (place request.children copy).children) = request.root := by
  rw [without, nodeAt_graft]
  simp only [← hname, eraseP_place]
  rw [Request.graft, setChildren_setChildren]
  exact setChildren_self request.wellFormed_root request.nodeAt_target

end Requests

section Cloning

variable [DecidableEq Proc] (cloners : Cloners Stream Proc Data) (now : Int)
  (request : Request Stream Proc Data)

theorem cloneTrunc_settled
    (hnew : isoDirExists (names request.children) request.newName = false) :
    Settled cloners request.children request.node request.newName
      (obstacle cloners request.node request.newName)
      (cloneTrunc cloners now (request.fill cloners now) request.node request.head.attr
        request.children request.newName) := by
  have hwell := request.wellFormed_node
  cases hnode : request.node with
  | leaf old content =>
    rw [hnode] at hwell
    exact cloneTrunc_leaf hwell hnew
  | dir old subs =>
    rw [hnode] at hwell
    refine cloneTrunc_dir hwell.1 hnew fun attr => ?_
    rw [Request.fill, oldChildren_eq request hnode]
    exact cloneSubs_filled subs hwell.2.2 hwell.2.1 attr [] (by simp [names])

/-- Cloning keeps its promise if the name is in use, or something gets refused below the top
node, or else no boot catalog is met and the extended info of the top node can be copied. -/
theorem clone_iff : ClonesOrKeeps request (isoTreeClone cloners now request) ↔
    Undisturbed cloners request := by
  rw [isoTreeClone, Undisturbed]
  cases hnew : isoDirExists (names request.children) request.newName with
  | true =>
    have htaken : cloneTrunc cloners now (request.fill cloners now) request.node
        request.head.attr request.children request.newName =
        some (.failed .nodeNameNotUnique request.children) := by
      unfold cloneTrunc
      rw [hnew]
      rfl
    rw [htaken]
    exact iff_of_true (nodeAt_graft request _) (.inl rfl)
  | false =>
    have hsettled := cloneTrunc_settled cloners now request hnew
    generalize cloneTrunc cloners now (request.fill cloners now) request.node request.head.attr
      request.children request.newName = result at hsettled ⊢
    generalize obstacle cloners request.node request.newName = found at hsettled ⊢
    cases hsettled with
    | crashed => exact iff_of_false id (by simp)
    | refused e => exact iff_of_true (nodeAt_graft request _) (.inr trivial)
    | left e copy hname hno =>
      refine iff_of_false (fun hkeeps => ?_) (by simp [hno])
      have hat : nodeAt request.target (request.graft (place request.children copy).children) =
          some (.dir request.head request.children) := hkeeps
      rw [nodeAt_graft, Option.some.injEq, IsoNode.dir.injEq] at hat
      exact place_ne hat.2
    | copied copy hname hclonable hshape =>
      refine iff_of_true ⟨⟨copy, ?_, hshape⟩, without_graft request copy hname⟩ (.inr hclonable)
      rw [nodeAt_append request.target request.newName (nodeAt_graft request _), ← hname]
      exact find?_place

end Cloning

section Examples

/-- No stream and no extended info can be copied. -/
def noCloners : Cloners Nat Nat Nat where
  stream := fun _ => .error 0
  xinfo := fun _ => none
  xinfo_copies := fun _ _ _ _ h => nomatch h

def plainHead (mode : Nat) (name : Bytes) (xinfo : List (XInfo Nat Nat)) : Head Nat Nat :=
  ⟨name, ⟨mode, 0, 0, 0, 0, 0, 0⟩, xinfo⟩

/-- The clone of a node "a" with the name "b" in the root directory, in which the node is. -/
def besideItself (xinfo : List (XInfo Nat Nat)) (hdistinct : (xinfo.map XInfo.proc).Nodup)
    (content : Leaf Nat) : Request Nat Nat Nat where
  root := .dir (plainHead 0o40755 [] []) [.leaf (plainHead 0o10644 [0x61] xinfo) content]
  wellFormed_root := ⟨List.nodup_nil, List.pairwise_singleton _ _, hdistinct, trivial⟩
  source := .inTree [[0x61]]
  node := .leaf (plainHead 0o10644 [0x61] xinfo) content
  read_source := rfl
  wellFormed_node := hdistinct
  target := []
  head := plainHead 0o40755 [] []
  children := [.leaf (plainHead 0o10644 [0x61] xinfo) content]
  nodeAt_target := rfl
  newName := [0x62]

/-- A fifo with extended info of an application which has no cloner for it. -/
def infoOfApplication : Request Nat Nat Nat :=
  besideItself [⟨1, 5⟩] (List.nodup_singleton _) (.special 0 ⟨0, 0, 0⟩)

def bootCatalog : Request Nat Nat Nat := besideItself [] List.nodup_nil .boot

/-- The fifo stays in the directory although there is an error, and the boot catalog makes the
function use a node which is not there. -/
theorem left_or_crashed :
    ¬ ClonesOrKeeps infoOfApplication (isoTreeClone noCloners 0 infoOfApplication) ∧
      isoTreeClone noCloners 0 bootCatalog = none := by
  have hleft : isoTreeClone noCloners 0 infoOfApplication =
      some ⟨.error .xinfoNoClone, .dir (plainHead 0o40755 [] [])
        [.leaf (plainHead 0o10644 [0x61] [⟨1, 5⟩]) (.special 0 ⟨0, 0, 0⟩),
          .leaf (plainHead 0o10644 [0x62] []) (.special 0 ⟨0, 0, 0⟩)]⟩ := by rfl
  refine ⟨fun hkeeps => ?_, by rfl⟩
  rw [hleft] at hkeeps
  cases hkeeps

end Examples

end TreeClone
