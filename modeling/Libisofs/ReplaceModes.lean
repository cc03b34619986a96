import Libisofs.RecursiveAdd

/-!
# When the replace modes are honoured

iso_add_dir_src_rec() gives each new node a name which is not in use. So it creates one node
for each file which it does not leave out, whereas a collision which is decided by a replace
mode yields fewer nodes. The sizes of the trees thus tell whether there was a collision.
-/

namespace RecursiveAdd

open ThreeWay (strcmp strcmp_eq_zero)
open UniqueNames (Bytes makeReallyUniqueName_spec)

variable {Data : Type}

/-- To prove something of all files, prove it of a file if it is true of the files in it. -/
theorem FileSource.induction {P : FileSource Data → Prop}
    (step : ∀ file openFault files readFault, (∀ source ∈ files, P source) →
      P (.mk file openFault files readFault)) (source : FileSource Data) : P source := by
  refine @FileSource.rec Data P (fun files => ∀ source ∈ files, P source) ?_ ?_ ?_ source
  · exact fun file openFault files readFault ih => step file openFault files readFault ih
  · exact fun source h => absurd h List.not_mem_nil
  · intro head tail hhead htail source h
    rcases List.mem_cons.mp h with rfl | hmem
    · exact hhead
    · exact htail source hmem

section Sizes

mutual

/-- The number of nodes in a tree. -/
def size : IsoNode Data → Nat
  | .leaf _ _ => 1
  | .dir _ _ children => 1 + sizes children

def sizes : List (IsoNode Data) → Nat
  | [] => 0
  | child :: rest => size child + sizes rest

end

theorem size_pos (node : IsoNode Data) : 0 < size node := by
  cases node with
  | leaf name stat => exact Nat.one_pos
  | dir name stat children =>
    rw [size]
    omega

theorem sizes_append (xs ys : List (IsoNode Data)) : sizes (xs ++ ys) = sizes xs + sizes ys := by
  induction xs with
  | nil => simp [sizes]
  | cons x xs ih => rw [List.cons_append, sizes, sizes, ih, Nat.add_assoc]

theorem sizes_insertAt (children : List (IsoNode Data)) (pos : Nat) (node : IsoNode Data) :
    sizes (insertAt children pos node) = sizes children + size node := by
  have hsplit := congrArg sizes (List.take_append_drop pos children)
  rw [sizes_append] at hsplit
  rw [insertAt, sizes_append, sizes]
  omega

theorem sizes_set {children : List (IsoNode Data)} {pos : Nat} {old : IsoNode Data}
    (h : children[pos]? = some old) (node : IsoNode Data) :
    sizes (children.set pos node) + size old = sizes children + size node := by
  induction children generalizing pos with
  | nil => cases h
  | cons child rest ih =>
    cases pos with
    | zero =>
      obtain rfl := Option.some.inj h
      rw [List.set_cons_zero, sizes, sizes]
      omega
    | succ pos =>
      have hrest := ih h
      rw [List.set_cons_succ, sizes, sizes]
      omega

theorem size_withChildren (children : List (IsoNode Data)) {node : IsoNode Data}
    (h : node.isDir = true) : size (node.withChildren children) = 1 + sizes children := by
  cases node with
  | leaf name stat => cases h
  | dir name stat olds => rfl

end Sizes

section Planned

variable (image : IsoImage Data)

mutual

/-- The number of nodes to be created for the content of a directory. -/
def plannedDir : FileSource Data → Nat
  | .mk _ (some _) _ _ => 0
  | .mk _ none files _ => plannedFiles files

def plannedFiles : List (FileSource Data) → Nat
  | [] => 0
  | source :: rest =>
    (match offer image source.file with
      | .skipped _ => 0
      | .declined _ => 0
      | .node new => 1 + if new.isDir then plannedDir source else 0) + plannedFiles rest

end

end Planned

section Returns

variable {image : IsoImage Data}

/-- A value which iso_add_dir_src_rec() may return. -/
def Settled (ret : Int) : Prop := 0 ≤ ret ∨ ret = isoCanceled

theorem settled_msgSubmit (errcode causedby : Int) :
    Settled (msgSubmit image errcode causedby) := by
  rw [msgSubmit]
  split
  · exact .inr rfl
  · split
    · exact .inr rfl
    · exact .inl (Int.le_refl 0)

theorem settled_msgSubmitCode (errcode : Int) : Settled (msgSubmitCode image errcode) := by
  rw [msgSubmitCode]
  split
  · exact .inr rfl
  · exact settled_msgSubmit ..

theorem settled_success : Settled isoSuccess := .inl (by decide)

/-- The loop only goes on after a value which is not an error. -/
theorem Settled.nonneg {ret : Int} (h : Settled ret)
    (hgo : ¬ (ret < 0 ∧ msgSubmitCode image ret < 0)) : 0 ≤ ret := by
  rcases h with hok | rfl
  · exact hok
  · exact absurd ⟨by decide, by rw [msgSubmitCode, if_pos rfl]; decide⟩ hgo

theorem goes_on {ret : Int} (h : 0 ≤ ret) :
    ¬ (ret < 0 ∧ msgSubmitCode image ret < 0) := fun hno => absurd hno.1 (by omega)

end Returns

section Files

variable {image : IsoImage Data} {tries : Nat}

theorem mem_of_isoDirExists {ns : List Bytes} {name : Bytes} (h : isoDirExists ns name = true) :
    name ∈ ns := by
  rw [isoDirExists] at h
  split at h
  next child hchild =>
    have heq := strcmp_eq_zero.mp (of_decide_eq_true h)
    exact heq ▸ List.mem_of_getElem? hchild
  next => cases h

/-- A node with a name which is not in use gets linked in, whatever the replace mode is. -/
theorem isoDirInsert_new {children : List (IsoNode Data)} {node : IsoNode Data}
    (h : isoDirExists (names children) node.name = false) :
    isoDirInsert children node (isoDirFind (names children) node.name) image.replace =
      some (insertAt children (isoDirFind (names children) node.name) node) := by
  rw [isoDirExists] at h
  rw [isoDirInsert]
  generalize isoDirFind (names children) node.name = pos at h ⊢
  have hname : (names children)[pos]? = children[pos]?.map IsoNode.name := List.getElem?_map
  rw [hname] at h
  cases hold : children[pos]? with
  | none => rfl
  | some old =>
    rw [hold] at h
    have hne : ¬ strcmp old.name node.name = 0 := of_decide_eq_false h
    exact if_neg hne

theorem resolveCollision_spec {ns : List Bytes} {warnings warnings' : Nat} {name name' : Bytes}
    {ret : Int}
    (h : resolveCollision image tries ns warnings name = some (name', warnings', ret)) :
    isoDirExists ns name' = false ∧ name'.length ≤ max 64 name.length ∧ Settled ret := by
  rw [resolveCollision] at h
  split at h
  next =>
    obtain ⟨unique, hunique, heq⟩ := Option.map_eq_some_iff.mp h
    obtain ⟨rfl, hrest⟩ := Prod.mk.inj heq
    obtain ⟨-, rfl⟩ := Prod.mk.inj hrest
    obtain ⟨hfree, hlength⟩ := makeReallyUniqueName_spec hunique
    refine ⟨hfree, hlength, ?_⟩
    split
    · exact settled_msgSubmit ..
    · exact settled_success
  next hfree =>
    obtain ⟨rfl, hrest⟩ := Prod.mk.inj (Option.some.inj h)
    obtain ⟨-, rfl⟩ := Prod.mk.inj hrest
    exact ⟨Bool.eq_false_iff.mpr hfree, Nat.le_max_right .., .inl (Int.le_refl 0)⟩

theorem resolveCollision_free {ns : List Bytes} {warnings : Nat} {name : Bytes}
    (h : isoDirExists ns name = false) :
    resolveCollision image tries ns warnings name = some (name, warnings, 0) := by
  rw [resolveCollision, h]
  rfl

/-- The node which is made for a file. -/
def made (name : Bytes) (info : Stat Data) : IsoNode Data :=
  if info.fmt = sIfdir then .dir name info [] else .leaf name info

theorem name_made (name : Bytes) (info : Stat Data) : (made name info).name = name := by
  rw [made]
  split
  · rfl
  · rfl

theorem stat_made (name : Bytes) (info : Stat Data) : (made name info).stat = info := by
  rw [made]
  split
  · rfl
  · rfl

theorem isDir_made (name : Bytes) (info : Stat Data) :
    (made name info).isDir = decide (info.fmt = sIfdir) := by
  rw [made]
  split
  next h => exact (decide_eq_true h).symm
  next h => exact (decide_eq_false h).symm

theorem createNode_fit {file : SourceFile Data} {name : Bytes}
    (h : name.length ≤ image.truncateLength) {info : Stat Data}
    (hinfo : file.info image = .ok info) :
    createNode image file name = match file.createFault with
      | some fault => .error fault
      | none => .ok (made name info) := by
  have hkeep : ¬ image.truncateLength < name.length := by omega
  simp only [createNode, hinfo, if_neg hkeep]
  rfl

variable {file : SourceFile Data} (children : List (IsoNode Data)) (warnings : Nat)

theorem addFile_skipped {ret : Int} (h : offer image file = .skipped ret) :
    addFile image tries file children warnings = some (.inl ⟨children, warnings, ret⟩) := by
  rw [offer] at h
  rw [addFile]
  split at h
  next fault hfault =>
    obtain rfl := Offer.skipped.inj h
    rfl
  next info hinfo =>
    split at h
    next hskip =>
      obtain rfl := Offer.skipped.inj h
      exact if_pos hskip
    next =>
      split at h
      · cases h
      · split at h
        · cases h
        · cases h

/-- A declined file has its collision resolved nevertheless. -/
theorem addFile_declined {ret : Int} (hlength : file.name.length ≤ image.truncateLength)
    (h : offer image file = .declined ret) :
    addFile image tries file children warnings =
      (resolveCollision image tries (names children) warnings file.name).map
        fun (_, warnings', r) => .inl ⟨children, warnings', if r < 0 then r else ret⟩ := by
  rw [offer] at h
  rw [addFile]
  split at h
  next => cases h
  next info hinfo =>
    split at h
    next => cases h
    next hskip =>
      simp only [hskip, Bool.false_eq_true, if_false]
      cases hresolved : resolveCollision image tries (names children) warnings file.name with
      | none => rfl
      | some resolved =>
        obtain ⟨name, warnings', r⟩ := resolved
        obtain ⟨-, hle, -⟩ := resolveCollision_spec hresolved
        have hmin := image.truncateLength_ge
        simp only [Option.map_some]
        split at h
        next hreport =>
          obtain rfl := Offer.declined.inj h
          by_cases hr : r < 0
          · rw [if_pos hr, if_pos hr]
          · rw [if_neg hr, if_neg hr, if_pos hreport]
        next hreport =>
          rw [createNode_fit hlength hinfo] at h
          rw [createNode_fit (by omega : name.length ≤ image.truncateLength) hinfo]
          cases hfault : file.createFault with
          | none =>
            rw [hfault] at h
            cases h
          | some fault =>
            rw [hfault] at h
            obtain rfl := Offer.declined.inj h
            by_cases hr : r < 0
            · rw [if_pos hr, if_pos hr]
            · rw [if_neg hr, if_neg hr, if_neg hreport]

theorem offer_node {new : IsoNode Data} (hlength : file.name.length ≤ image.truncateLength)
    (h : offer image file = .node new) : ∃ info, file.info image = .ok info ∧
      skips image file info = false ∧ ¬ reported image file ≤ 0 ∧ file.createFault = none ∧
        new = made file.name info := by
  rw [offer] at h
  split at h
  next => cases h
  next info hinfo =>
    split at h
    next => cases h
    next hskip =>
      split at h
      next => cases h
      next hreport =>
        rw [createNode_fit hlength hinfo] at h
        cases hfault : file.createFault with
        | some fault =>
          rw [hfault] at h
          cases h
        | none =>
          rw [hfault] at h
          obtain rfl := Offer.node.inj h
          exact ⟨info, hinfo, Bool.eq_false_iff.mpr hskip, hreport, rfl, rfl⟩

/-- A new node is inserted in any case. -/
theorem addFile_node {new : IsoNode Data} (hlength : file.name.length ≤ image.truncateLength)
    (h : offer image file = .node new) :
    ∃ info, new = made file.name info ∧ addFile image tries file children warnings =
      (resolveCollision image tries (names children) warnings file.name).map
        fun (name, warnings', r) =>
          if r < 0 then .inl ⟨children, warnings', r⟩
          else if new.isDir then
            .inr ⟨insertAt children (isoDirFind (names children) name) (made name info),
              isoDirFind (names children) name, name, info, warnings'⟩
          else .inl ⟨insertAt children (isoDirFind (names children) name) (made name info),
            warnings', isoSuccess⟩ := by
  obtain ⟨info, hinfo, hskip, hreport, hfault, rfl⟩ := offer_node hlength h
  refine ⟨info, rfl, ?_⟩
  rw [addFile, hinfo]
  simp only [hskip, Bool.false_eq_true, if_false]
  cases hresolved : resolveCollision image tries (names children) warnings file.name with
  | none => rfl
  | some resolved =>
    obtain ⟨name, warnings', r⟩ := resolved
    obtain ⟨hfree, hle, -⟩ := resolveCollision_spec hresolved
    have hmin := image.truncateLength_ge
    have hinsert := @isoDirInsert_new _ image children (made name info) (by rwa [name_made])
    rw [name_made] at hinsert
    simp only [Option.map_some,
      createNode_fit (by omega : name.length ≤ image.truncateLength) hinfo,
      hfault, hinsert, isDir_made, name_made, decide_eq_true_eq]
    by_cases hr : r < 0
    · rw [if_pos hr, if_pos hr]
    · rw [if_neg hr, if_neg hr, if_neg hreport]
      split
      · rfl
      · rfl

theorem settled_skipped {ret : Int} (h : offer image file = .skipped ret) : Settled ret := by
  rw [offer] at h
  split at h
  next =>
    obtain rfl := Offer.skipped.inj h
    exact settled_msgSubmit ..
  next =>
    split at h
    · obtain rfl := Offer.skipped.inj h
      exact settled_success
    · split at h
      · cases h
      · split at h
        · cases h
        · cases h

theorem settled_declined {ret : Int} (h : offer image file = .declined ret) : Settled ret := by
  rw [offer] at h
  split at h
  next => cases h
  next =>
    split at h
    · cases h
    · split at h
      · obtain rfl := Offer.declined.inj h
        split
        · exact .inr rfl
        · exact settled_success
      · split at h
        · obtain rfl := Offer.declined.inj h
          exact settled_msgSubmit ..
        · cases h

end Files

section Steps

variable {image : IsoImage Data} {tries : Nat}
variable {source : FileSource Data} {files : List (FileSource Data)} {readFault : Option Int}
  {children : List (IsoNode Data)} {warnings : Nat} {outcome : Outcome Data}

theorem insertAt_set {α : Type} {list : List α} {pos : Nat} (h : pos ≤ list.length) (a b : α) :
    (insertAt list pos a).set pos b = insertAt list pos b := by
  have hpos : (list.take pos).length = pos := List.length_take_of_le h
  rw [insertAt, insertAt, List.set_append_right _ _ (by omega), hpos, Nat.sub_self,
    List.set_cons_zero]

theorem isoDirFind_le (children : List (IsoNode Data)) (name : Bytes) :
    isoDirFind (names children) name ≤ children.length := by
  have h := @List.findIdx_le_length _ (fun child => decide ¬ strcmp child name < 0) (names children)
  rwa [names, List.length_map] at h

/-- What is done with a file, including the content of a directory. -/
def addStep (image : IsoImage Data) (tries : Nat) (source : FileSource Data)
    (children : List (IsoNode Data)) (warnings : Nat) : Option (Outcome Data) :=
  match addFile image tries source.file children warnings with
  | none => none
  | some (.inl outcome) => some outcome
  | some (.inr dir) => (addDirSrcRec image tries source [] dir.collisionWarnings).map dir.filled

/-- The outcomes for a file which shall get a node. -/
inductive NodeStep (image : IsoImage Data) (tries : Nat) (source : FileSource Data)
    (children : List (IsoNode Data)) (warnings : Nat) (info : Stat Data) : Outcome Data → Prop where
  | stopped {name : Bytes} {warnings' : Nat} {ret : Int}
      (resolved : resolveCollision image tries (names children) warnings source.file.name =
        some (name, warnings', ret)) (negative : ret < 0) :
      NodeStep image tries source children warnings info ⟨children, warnings', ret⟩
  | leaf {name : Bytes} {warnings' : Nat} {ret : Int}
      (resolved : resolveCollision image tries (names children) warnings source.file.name =
        some (name, warnings', ret)) (nonneg : 0 ≤ ret) (type : info.fmt ≠ sIfdir) :
      NodeStep image tries source children warnings info
        ⟨insertAt children (isoDirFind (names children) name) (.leaf name info), warnings',
          isoSuccess⟩
  | dir {name : Bytes} {warnings' : Nat} {ret : Int} {sub : Outcome Data}
      (resolved : resolveCollision image tries (names children) warnings source.file.name =
        some (name, warnings', ret)) (nonneg : 0 ≤ ret) (type : info.fmt = sIfdir)
      (filled : addDirSrcRec image tries source [] warnings' = some sub) :
      NodeStep image tries source children warnings info
        ⟨insertAt children (isoDirFind (names children) name) (.dir name info sub.children),
          sub.collisionWarnings, sub.ret⟩

theorem addStep_node {new : IsoNode Data} {step : Outcome Data}
    (hlength : source.file.name.length ≤ image.truncateLength)
    (hoffer : offer image source.file = .node new)
    (h : addStep image tries source children warnings = some step) :
    ∃ info, new = made source.file.name info ∧
      NodeStep image tries source children warnings info step := by
  obtain ⟨info, rfl, hfile⟩ := @addFile_node _ image tries _ children warnings _ hlength hoffer
  refine ⟨info, rfl, ?_⟩
  rw [addStep, hfile] at h
  cases hresolved : resolveCollision image tries (names children) warnings source.file.name with
  | none =>
    rw [hresolved] at h
    cases h
  | some resolved =>
    obtain ⟨name, warnings', ret⟩ := resolved
    rw [hresolved, Option.map_some, isDir_made] at h
    by_cases hret : ret < 0
    · simp only [hret, if_true] at h
      obtain rfl := Option.some.inj h
      exact .stopped hresolved hret
    · by_cases htype : info.fmt = sIfdir
      · simp only [hret, if_false, htype, decide_true, if_true] at h
        obtain ⟨sub, hsub, rfl⟩ := Option.map_eq_some_iff.mp h
        rw [Entered.filled, insertAt_set (isoDirFind_le children name)]
        exact .dir hresolved (by omega) htype hsub
      · simp only [hret, if_false, htype, decide_false, Bool.false_eq_true] at h
        obtain rfl := Option.some.inj h
        rw [made, if_neg htype]
        exact .leaf hresolved (by omega) htype

theorem addStep_skipped {ret : Int} (hoffer : offer image source.file = .skipped ret) :
    addStep image tries source children warnings = some ⟨children, warnings, ret⟩ := by
  rw [addStep, addFile_skipped children warnings hoffer]

theorem addStep_declined {ret : Int} (hlength : source.file.name.length ≤ image.truncateLength)
    (hoffer : offer image source.file = .declined ret) :
    addStep image tries source children warnings =
      (resolveCollision image tries (names children) warnings source.file.name).map
        fun (_, warnings', r) => ⟨children, warnings', if r < 0 then r else ret⟩ := by
  rw [addStep, addFile_declined children warnings hlength hoffer]
  cases resolveCollision image tries (names children) warnings source.file.name with
  | none => rfl
  | some resolved => rfl

theorem addFiles_cons (source : FileSource Data) (rest : List (FileSource Data))
    (readFault : Option Int) (children : List (IsoNode Data)) (warnings : Nat) :
    addFiles image tries (source :: rest) readFault children warnings =
      match addStep image tries source children warnings with
      | none => none
      | some step =>
        if step.ret < 0 ∧ msgSubmitCode image step.ret < 0 then
          some ⟨step.children, step.collisionWarnings, msgSubmitCode image step.ret⟩
        else addFiles image tries rest readFault step.children step.collisionWarnings := by
  rw [addFiles]
  rfl

theorem settled_addFiles
    (h : addFiles image tries files readFault children warnings = some outcome) :
    Settled outcome.ret := by
  induction files generalizing children warnings with
  | nil =>
    cases readFault with
    | none =>
      obtain rfl := Option.some.inj h
      exact settled_success
    | some fault =>
      obtain rfl := Option.some.inj h
      exact settled_msgSubmit ..
  | cons source rest ih =>
    rw [addFiles_cons] at h
    split at h
    · cases h
    · split at h
      · obtain rfl := Option.some.inj h
        exact settled_msgSubmitCode _
      · exact ih h

theorem settled_addDirSrcRec
    (h : addDirSrcRec image tries source children warnings = some outcome) :
    Settled outcome.ret := by
  obtain ⟨file, openFault, files, readFault⟩ := source
  cases openFault with
  | some fault =>
    obtain rfl := Option.some.inj h
    exact settled_msgSubmit ..
  | none => exact settled_addFiles h

/-- All values get settled before the loop looks at them. -/
theorem settled_addStep {step : Outcome Data}
    (hlength : source.file.name.length ≤ image.truncateLength)
    (h : addStep image tries source children warnings = some step) : Settled step.ret := by
  cases hoffer : offer image source.file with
  | skipped ret =>
    rw [addStep_skipped hoffer] at h
    obtain rfl := Option.some.inj h
    exact settled_skipped hoffer
  | declined ret =>
    rw [addStep_declined hlength hoffer] at h
    obtain ⟨⟨name, warnings', r⟩, hresolved, rfl⟩ := Option.map_eq_some_iff.mp h
    obtain ⟨-, -, hsettled⟩ := resolveCollision_spec hresolved
    show Settled (if r < 0 then r else ret)
    split
    · exact hsettled
    · exact settled_declined hoffer
  | node new =>
    obtain ⟨info, -, hstep⟩ := addStep_node hlength hoffer h
    cases hstep with
    | stopped hresolved _ => exact (resolveCollision_spec hresolved).2.2
    | leaf _ _ _ => exact settled_success
    | dir _ _ _ hfilled =>
      have hsettled := settled_addDirSrcRec hfilled
      exact hsettled

end Steps

section Counting

variable {image : IsoImage Data} {tries : Nat}
variable {source : FileSource Data} {files : List (FileSource Data)} {readFault : Option Int}
  {children : List (IsoNode Data)} {warnings : Nat} {outcome : Outcome Data}

/-- A file adds as many nodes as planned. -/
theorem addStep_sizes {step : Outcome Data}
    (hlength : source.file.name.length ≤ image.truncateLength)
    (hsource : ∀ warnings sub, addDirSrcRec image tries source [] warnings = some sub →
      0 ≤ sub.ret → sizes sub.children = plannedDir image source)
    (h : addStep image tries source children warnings = some step) (hret : 0 ≤ step.ret) :
    sizes step.children = sizes children + match offer image source.file with
      | .skipped _ => 0
      | .declined _ => 0
      | .node new => 1 + if new.isDir then plannedDir image source else 0 := by
  cases hoffer : offer image source.file with
  | skipped ret =>
    rw [addStep_skipped hoffer] at h
    obtain rfl := Option.some.inj h
    rfl
  | declined ret =>
    rw [addStep_declined hlength hoffer] at h
    obtain ⟨resolved, -, rfl⟩ := Option.map_eq_some_iff.mp h
    rfl
  | node new =>
    obtain ⟨info, rfl, hstep⟩ := addStep_node hlength hoffer h
    simp only [isDir_made, decide_eq_true_eq]
    cases hstep with
    | stopped _ hnegative => exact absurd hret (Int.not_le.mpr hnegative)
    | leaf _ _ htype =>
      rw [sizes_insertAt, size, if_neg htype]
    | dir _ _ htype hfilled =>
      rw [sizes_insertAt, size, if_pos htype, hsource _ _ hfilled hret]

theorem addFiles_sizes (hfit : AllFit image files)
    (hsource : ∀ source ∈ files, NamesFit image source → ∀ warnings sub,
      addDirSrcRec image tries source [] warnings = some sub → 0 ≤ sub.ret →
        sizes sub.children = plannedDir image source)
    (h : addFiles image tries files readFault children warnings = some outcome)
    (hret : 0 ≤ outcome.ret) :
    sizes outcome.children = sizes children + plannedFiles image files := by
  induction files generalizing children warnings with
  | nil =>
    cases readFault with
    | none =>
      obtain rfl := Option.some.inj h
      rfl
    | some fault =>
      obtain rfl := Option.some.inj h
      rfl
  | cons source rest ih =>
    obtain ⟨hlength, hnames, hrest⟩ := hfit
    rw [addFiles_cons] at h
    split at h
    next => cases h
    next step hstep =>
      split at h
      next hstop =>
        obtain rfl := Option.some.inj h
        exact absurd hret (by simpa using hstop.2)
      next hgo =>
        have hok := (settled_addStep hlength hstep).nonneg hgo
        have hhead := addStep_sizes hlength
          (hsource source List.mem_cons_self hnames) hstep hok
        have htail := ih hrest (fun s hs => hsource s (List.mem_cons_of_mem _ hs)) h
        rw [htail, hhead, plannedFiles, Nat.add_assoc]

theorem addDirSrcRec_sizes (source : FileSource Data) :
    NamesFit image source → ∀ children warnings outcome,
      addDirSrcRec image tries source children warnings = some outcome → 0 ≤ outcome.ret →
        sizes outcome.children = sizes children + plannedDir image source := by
  induction source using FileSource.induction with
  | step file openFault files readFault ih =>
    intro hfit children warnings outcome h hret
    cases openFault with
    | some fault =>
      obtain rfl := Option.some.inj h
      rfl
    | none =>
      refine addFiles_sizes hfit (fun source hmem hnames warnings sub hsub hok => ?_) h hret
      have hsizes := ih source hmem hnames [] warnings sub hsub hok
      rwa [sizes, Nat.zero_add] at hsizes

end Counting

section Merging

variable {image : IsoImage Data} {mergedStat : (old new : Stat Data) → Stat Data}
variable {source : FileSource Data} {files : List (FileSource Data)} {readFault : Option Int}
  {children : List (IsoNode Data)} {warnings : Nat} {outcome : Outcome Data}

/-- What shall be done with a file, including the content of a directory. -/
def mergeStep (image : IsoImage Data) (mergedStat : (old new : Stat Data) → Stat Data)
    (source : FileSource Data) (children : List (IsoNode Data)) : List (IsoNode Data) × Int :=
  match offer image source.file with
  | .skipped ret => (children, ret)
  | .declined ret => (children, ret)
  | .node new =>
    let content olds :=
      if new.isDir then mergeDirRec image mergedStat source olds else (olds, isoSuccess)
    match ruleFor image children new with
    | .add pos => (insertAt children pos (new.withChildren (content []).1), (content []).2)
    | .merge pos old olds =>
      (children.set pos (.dir new.name (mergedStat old new.stat) (content olds).1),
        (content olds).2)
    | .replace pos => (children.set pos (new.withChildren (content []).1), (content []).2)
    | .keep => (children, 0)

theorem mergeStep_node {new : IsoNode Data}
    {content : List (IsoNode Data) → List (IsoNode Data) × Int}
    (hcontent : content = fun olds =>
      if new.isDir then mergeDirRec image mergedStat source olds else (olds, isoSuccess))
    (h : offer image source.file = .node new) :
    mergeStep image mergedStat source children = match ruleFor image children new with
      | .add pos => (insertAt children pos (new.withChildren (content []).1), (content []).2)
      | .merge pos old olds =>
        (children.set pos (.dir new.name (mergedStat old new.stat) (content olds).1),
          (content olds).2)
      | .replace pos => (children.set pos (new.withChildren (content []).1), (content []).2)
      | .keep => (children, 0) := by
  rw [mergeStep, h, hcontent]

theorem mergeFiles_cons (source : FileSource Data) (rest : List (FileSource Data))
    (readFault : Option Int) (children : List (IsoNode Data)) :
    mergeFiles image mergedStat (source :: rest) readFault children =
      if (mergeStep image mergedStat source children).2 < 0 ∧
          msgSubmitCode image (mergeStep image mergedStat source children).2 < 0 then
        ((mergeStep image mergedStat source children).1,
          msgSubmitCode image (mergeStep image mergedStat source children).2)
      else mergeFiles image mergedStat rest readFault (mergeStep image mergedStat source children).1 := by
  rw [mergeFiles]
  rfl

theorem settled_mergeFiles (children : List (IsoNode Data)) :
    Settled (mergeFiles image mergedStat files readFault children).2 := by
  induction files generalizing children with
  | nil =>
    cases readFault with
    | none => exact settled_success
    | some fault => exact settled_msgSubmit ..
  | cons source rest ih =>
    rw [mergeFiles_cons]
    split
    · exact settled_msgSubmitCode _
    · exact ih _

theorem settled_mergeDirRec (source : FileSource Data) (children : List (IsoNode Data)) :
    Settled (mergeDirRec image mergedStat source children).2 := by
  obtain ⟨file, openFault, files, readFault⟩ := source
  cases openFault with
  | some fault => exact settled_msgSubmit ..
  | none => exact settled_mergeFiles children

/-- The cases of the rule, with what is at the position. -/
inductive RuleCase (children : List (IsoNode Data)) (new : IsoNode Data) : Rule Data → Prop where
  | add (fresh : new.name ∉ names children) :
      RuleCase children new (.add (isoDirFind (names children) new.name))
  | merge {pos : Nat} {name : Bytes} {old : Stat Data} {olds : List (IsoNode Data)}
      (found : children[pos]? = some (.dir name old olds)) (isDir : new.isDir = true) :
      RuleCase children new (.merge pos old olds)
  | replace {pos : Nat} {old : IsoNode Data} (found : children[pos]? = some old) :
      RuleCase children new (.replace pos)
  | keep : RuleCase children new .keep

theorem ruleFor_cases (children : List (IsoNode Data)) (new : IsoNode Data) :
    RuleCase children new (ruleFor image children new) := by
  rw [ruleFor]
  split
  next hnone =>
    refine .add fun hmem => ?_
    obtain ⟨child, hchild, hname⟩ := List.mem_map.mp hmem
    have hno := List.findIdx?_eq_none_iff.mp hnone child hchild
    exact absurd hname (of_decide_eq_false hno)
  next pos _ =>
    split
    next name old olds name' stat' olds' hfound _ => exact .merge hfound rfl
    next old hfound _ _ =>
      split
      · exact .keep
      · exact .replace hfound
    next => exact .keep

theorem ruleFor_new {new : IsoNode Data} (h : new.name ∉ names children) :
    ruleFor image children new = .add (isoDirFind (names children) new.name) := by
  have hnone : (children.findIdx? fun child => child.name = new.name) = none := by
    refine List.findIdx?_eq_none_iff.mpr fun child hchild => decide_eq_false fun hname => h ?_
    exact hname ▸ List.mem_map_of_mem hchild
  rw [ruleFor, hnone]

/-- A file yields at most as many nodes as planned, and less of them in case of a collision. -/
theorem mergeStep_sizes (children : List (IsoNode Data))
    (hsource : ∀ olds, sizes (mergeDirRec image mergedStat source olds).1 ≤
      sizes olds + plannedDir image source) :
    (sizes (mergeStep image mergedStat source children).1 ≤ sizes children +
      match offer image source.file with
      | .skipped _ => 0
      | .declined _ => 0
      | .node new => 1 + if new.isDir then plannedDir image source else 0) ∧
    ∀ new, offer image source.file = .node new → new.name ∈ names children →
      sizes (mergeStep image mergedStat source children).1 < sizes children + 1 +
        if new.isDir then plannedDir image source else 0 := by
  cases hoffer : offer image source.file with
  | skipped ret | declined ret =>
    rw [mergeStep, hoffer]
    exact ⟨Nat.le_refl _, fun new h => absurd h (by simp)⟩
  | node new =>
    obtain ⟨content, hcontent⟩ : ∃ content, content = fun olds =>
        if new.isDir then mergeDirRec image mergedStat source olds else (olds, isoSuccess) :=
      ⟨_, rfl⟩
    have hfilled : size (new.withChildren (content []).1) ≤
        1 + if new.isDir then plannedDir image source else 0 := by
      have hsub := hsource []
      rw [hcontent]
      cases hdir : new.isDir with
      | true =>
        rw [size_withChildren _ hdir]
        simp only [if_true, sizes] at hsub ⊢
        omega
      | false =>
        cases new with
        | leaf name stat => exact Nat.le_refl _
        | dir name stat olds => cases hdir
    have hnew : ∀ new', Offer.node new = Offer.node new' → new = new' := fun _ => Offer.node.inj
    have hrule := @ruleFor_cases _ image children new
    rw [mergeStep_node hcontent hoffer]
    generalize ruleFor image children new = rule at hrule
    cases hrule with
    | add hfresh =>
      refine ⟨?_, fun new' hnew' hmem => absurd (hnew new' hnew' ▸ hmem) hfresh⟩
      simp only [sizes_insertAt]
      omega
    | @merge pos name old olds hfound hdir =>
      have hset := sizes_set hfound (.dir new.name (mergedStat old new.stat) (content olds).1)
      have hsub := hsource olds
      have holds : (content olds).1 = (mergeDirRec image mergedStat source olds).1 := by
        rw [hcontent]
        simp only [hdir, if_true]
      rw [holds] at hset
      simp only [size] at hset
      simp only [hdir, if_true, holds]
      refine ⟨by omega, fun new' hnew' _ => ?_⟩
      rw [← hnew new' hnew', hdir, if_pos rfl]
      omega
    | @replace pos old hfound =>
      have hset := sizes_set hfound (new.withChildren (content []).1)
      have hpos := size_pos old
      refine ⟨?_, fun new' hnew' _ => ?_⟩
      · show sizes (children.set pos _) ≤ sizes children +
          (1 + if new.isDir then plannedDir image source else 0)
        omega
      · rw [← hnew new' hnew']
        show sizes (children.set pos _) < _
        omega
    | keep =>
      refine ⟨Nat.le_add_right .., fun new' _ _ => ?_⟩
      show sizes children < _
      omega

theorem mergeFiles_sizes (children : List (IsoNode Data))
    (hsource : ∀ source ∈ files, ∀ olds, sizes (mergeDirRec image mergedStat source olds).1 ≤
      sizes olds + plannedDir image source) :
    sizes (mergeFiles image mergedStat files readFault children).1 ≤
      sizes children + plannedFiles image files := by
  induction files generalizing children with
  | nil =>
    cases readFault with
    | none => exact Nat.le_refl _
    | some fault => exact Nat.le_refl _
  | cons source rest ih =>
    have hhead := (mergeStep_sizes children (hsource source List.mem_cons_self)).1
    have htail := ih (mergeStep image mergedStat source children).1
      fun s hs => hsource s (List.mem_cons_of_mem _ hs)
    rw [mergeFiles_cons, plannedFiles]
    split
    · exact Nat.le_trans hhead (by omega)
    · omega

theorem mergeDirRec_sizes (source : FileSource Data) : ∀ children,
    sizes (mergeDirRec image mergedStat source children).1 ≤
      sizes children + plannedDir image source := by
  induction source using FileSource.induction with
  | step file openFault files readFault ih =>
    intro children
    cases openFault with
    | some fault => exact Nat.le_refl _
    | none => exact mergeFiles_sizes children ih

end Merging

section Agreement

variable {image : IsoImage Data} {mergedStat : (old new : Stat Data) → Stat Data} {tries : Nat}
variable {source : FileSource Data} {files : List (FileSource Data)} {readFault : Option Int}
  {children : List (IsoNode Data)} {warnings : Nat} {outcome : Outcome Data}

theorem names_insertAt (children : List (IsoNode Data)) (pos : Nat) (node : IsoNode Data) :
    names (insertAt children pos node) = insertAt (names children) pos node.name := by
  rw [names, insertAt, List.map_append, List.map_cons, List.map_take, List.map_drop]
  rfl

theorem resolveCollision_new {ns : List Bytes} {name : Bytes} (h : name ∉ ns) :
    resolveCollision image tries ns warnings name = some (name, warnings, 0) :=
  resolveCollision_free (Bool.eq_false_iff.mpr fun hexists => h (mem_of_isoDirExists hexists))

/-- The steps agree if the name is new, and if the content of a new directory agrees. -/
theorem mergeStep_new {info : Stat Data}
    (hoffer : offer image source.file = .node (made source.file.name info))
    (hnew : source.file.name ∉ names children) :
    mergeStep image mergedStat source children =
      if info.fmt = sIfdir then
        (insertAt children (isoDirFind (names children) source.file.name)
          (.dir source.file.name info (mergeDirRec image mergedStat source []).1),
          (mergeDirRec image mergedStat source []).2)
      else (insertAt children (isoDirFind (names children) source.file.name)
        (.leaf source.file.name info), isoSuccess) := by
  rw [mergeStep_node rfl hoffer, ruleFor_new (by rwa [name_made])]
  simp only [isDir_made, name_made, decide_eq_true_eq]
  by_cases htype : info.fmt = sIfdir
  · simp only [htype, if_true, made, IsoNode.withChildren]
  · simp only [htype, if_false, made, IsoNode.withChildren]

theorem undisturbedFiles_node {rest : List (FileSource Data)} {ns : List Bytes} {info : Stat Data}
    (hoffer : offer image source.file = .node (made source.file.name info)) :
    undisturbedFiles image tries (source :: rest) ns warnings =
      if source.file.name ∈ ns then none
      else
        match if info.fmt = sIfdir then undisturbedDir image tries source [] warnings
          else some warnings with
        | none => none
        | some warnings => undisturbedFiles image tries rest
            (insertAt ns (isoDirFind ns source.file.name) source.file.name) warnings := by
  rw [undisturbedFiles, hoffer]
  cases hdir : if info.fmt = sIfdir then undisturbedDir image tries source [] warnings
      else some warnings with
  | none => simp only [name_made, isDir_made, decide_eq_true_eq, hdir]
  | some warnings => simp only [name_made, isDir_made, decide_eq_true_eq, hdir]

/-- Without disturbance the files get added as they shall. -/
theorem addFiles_of_undisturbed {warnings warnings' : Nat} (hfit : AllFit image files)
    (hsource : ∀ source ∈ files, NamesFit image source → ∀ warnings warnings',
      undisturbedDir image tries source [] warnings = some warnings' →
        0 ≤ (mergeDirRec image mergedStat source []).2 →
          addDirSrcRec image tries source [] warnings =
            some ⟨(mergeDirRec image mergedStat source []).1, warnings',
              (mergeDirRec image mergedStat source []).2⟩)
    (h : undisturbedFiles image tries files (names children) warnings = some warnings')
    (hret : 0 ≤ (mergeFiles image mergedStat files readFault children).2) :
    addFiles image tries files readFault children warnings =
      some ⟨(mergeFiles image mergedStat files readFault children).1, warnings',
        (mergeFiles image mergedStat files readFault children).2⟩ := by
  induction files generalizing children warnings with
  | nil =>
    obtain rfl := Option.some.inj h
    cases readFault with
    | none => rfl
    | some fault => rfl
  | cons source rest ih =>
    obtain ⟨hlength, hnames, hrest⟩ := hfit
    have ih' := @fun c w => @ih c w hrest fun s hs => hsource s (List.mem_cons_of_mem _ hs)
    have hgo : ∀ {step : List (IsoNode Data) × Int} {warnings₁ : Nat},
        mergeStep image mergedStat source children = step → 0 ≤ step.2 →
        addStep image tries source children warnings = some ⟨step.1, warnings₁, step.2⟩ →
        undisturbedFiles image tries rest (names step.1) warnings₁ = some warnings' →
        addFiles image tries (source :: rest) readFault children warnings =
          some ⟨(mergeFiles image mergedStat (source :: rest) readFault children).1, warnings',
            (mergeFiles image mergedStat (source :: rest) readFault children).2⟩ := by
      intro step warnings₁ hmerge hok hadd hundisturbed
      rw [mergeFiles_cons, hmerge, if_neg (goes_on hok)] at hret ⊢
      rw [addFiles_cons, hadd]
      simp only [if_neg (goes_on hok)]
      exact ih' step.1 warnings₁ hundisturbed hret
    have hsettled : ∀ {step : List (IsoNode Data) × Int},
        mergeStep image mergedStat source children = step → Settled step.2 → 0 ≤ step.2 := by
      intro step hmerge hsettled
      refine @Settled.nonneg Data image _ hsettled fun hstop => ?_
      rw [mergeFiles_cons, hmerge, if_pos hstop] at hret
      exact absurd hret (Int.not_le.mpr hstop.2)
    cases hoffer : offer image source.file with
    | skipped ret =>
      have hmerge : mergeStep image mergedStat source children = (children, ret) := by
        rw [mergeStep, hoffer]
      rw [undisturbedFiles, hoffer] at h
      exact hgo hmerge (hsettled hmerge (settled_skipped hoffer)) (addStep_skipped hoffer) h
    | declined ret =>
      have hmerge : mergeStep image mergedStat source children = (children, ret) := by
        rw [mergeStep, hoffer]
      rw [undisturbedFiles, hoffer] at h
      cases hresolved :
          resolveCollision image tries (names children) warnings source.file.name with
      | none =>
        rw [hresolved] at h
        cases h
      | some resolved =>
        obtain ⟨name, warnings₁, r⟩ := resolved
        rw [hresolved] at h
        by_cases hr : r < 0
        · simp only [hr, if_true] at h
          cases h
        · simp only [hr, if_false] at h
          refine hgo hmerge (hsettled hmerge (settled_declined hoffer)) ?_ h
          rw [addStep_declined hlength hoffer, hresolved]
          simp only [Option.map_some, hr, if_false]
    | node new =>
      obtain ⟨info, -, -, -, -, rfl⟩ := offer_node hlength hoffer
      rw [undisturbedFiles_node hoffer] at h
      split at h
      next => cases h
      next hnew =>
        have hmerge := @mergeStep_new _ image mergedStat _ _ _ hoffer hnew
        obtain ⟨info', hsame, hfile⟩ :=
          @addFile_node _ image tries _ children warnings _ hlength hoffer
        rw [resolveCollision_new hnew, Option.map_some, isDir_made] at hfile
        split at h
        next => cases h
        next warnings₁ hcontent =>
          by_cases htype : info.fmt = sIfdir
          · rw [if_pos htype] at hmerge hcontent
            have hok := hsettled hmerge (settled_mergeDirRec source [])
            have hsub := hsource source List.mem_cons_self hnames _ _ hcontent hok
            have hinfo := congrArg IsoNode.stat hsame
            rw [stat_made, stat_made] at hinfo
            simp only [htype, decide_true, if_true, Int.lt_irrefl, if_false] at hfile
            refine @hgo _ warnings₁ hmerge hok ?_ ?_
            · rw [addStep, hfile]
              simp only [hsub, Option.map_some, Entered.filled,
                insertAt_set (isoDirFind_le children _), ← hinfo]
            · rw [names_insertAt]
              exact h
          · rw [if_neg htype] at hmerge hcontent
            obtain rfl := Option.some.inj hcontent
            simp only [htype, decide_false, Bool.false_eq_true, Int.lt_irrefl, if_false] at hfile
            refine @hgo _ warnings hmerge (by decide : 0 ≤ isoSuccess) ?_ ?_
            · rw [addStep, hfile, ← hsame, made, if_neg htype]
            · rw [names_insertAt]
              exact h

theorem addDirSrcRec_of_undisturbed (source : FileSource Data) :
    NamesFit image source → ∀ children warnings warnings',
      undisturbedDir image tries source (names children) warnings = some warnings' →
        0 ≤ (mergeDirRec image mergedStat source children).2 →
          addDirSrcRec image tries source children warnings =
            some ⟨(mergeDirRec image mergedStat source children).1, warnings',
              (mergeDirRec image mergedStat source children).2⟩ := by
  induction source using FileSource.induction with
  | step file openFault files readFault ih =>
    intro hfit children warnings warnings' h hret
    cases openFault with
    | some fault =>
      obtain rfl := Option.some.inj h
      rfl
    | none =>
      exact addFiles_of_undisturbed hfit (fun source hmem hnames => ih source hmem hnames []) h hret

/-- If a step adds all planned nodes, then it was not disturbed. -/
theorem undisturbed_of_addStep {step : Outcome Data}
    (hlength : source.file.name.length ≤ image.truncateLength)
    (hsource : ∀ warnings sub, addDirSrcRec image tries source [] warnings = some sub →
      0 ≤ sub.ret → 0 ≤ (mergeDirRec image mergedStat source []).2 →
        sizes (mergeDirRec image mergedStat source []).1 = plannedDir image source →
          undisturbedDir image tries source [] warnings = some sub.collisionWarnings ∧
            sub.children = (mergeDirRec image mergedStat source []).1)
    (hstep : addStep image tries source children warnings = some step) (hok : 0 ≤ step.ret)
    (hgoes : ¬ ((mergeStep image mergedStat source children).2 < 0 ∧
      msgSubmitCode image (mergeStep image mergedStat source children).2 < 0))
    (hsizes : sizes (mergeStep image mergedStat source children).1 =
      sizes children + plannedFiles image [source]) :
    step.children = (mergeStep image mergedStat source children).1 ∧
      ∀ rest, undisturbedFiles image tries (source :: rest) (names children) warnings =
        undisturbedFiles image tries rest (names step.children) step.collisionWarnings := by
  have hbound := fun olds => @mergeDirRec_sizes _ image mergedStat source olds
  obtain ⟨-, hcollided⟩ := mergeStep_sizes children hbound
  rw [plannedFiles, plannedFiles, Nat.add_zero] at hsizes
  cases hoffer : offer image source.file with
  | skipped ret =>
    rw [addStep_skipped hoffer] at hstep
    obtain rfl := Option.some.inj hstep
    rw [mergeStep, hoffer]
    exact ⟨rfl, fun rest => by rw [undisturbedFiles, hoffer]⟩
  | declined ret =>
    rw [addStep_declined hlength hoffer] at hstep
    obtain ⟨⟨name, warnings₁, r⟩, hresolved, rfl⟩ := Option.map_eq_some_iff.mp hstep
    have hr : ¬ r < 0 := by
      intro hr
      have hret' : 0 ≤ if r < 0 then r else ret := hok
      rw [if_pos hr] at hret'
      omega
    rw [mergeStep, hoffer]
    refine ⟨rfl, fun rest => ?_⟩
    rw [undisturbedFiles, hoffer, hresolved]
    simp only [hr, if_false]
  | node new =>
    obtain ⟨info, rfl, hnode⟩ := addStep_node hlength hoffer hstep
    rw [hoffer] at hsizes
    simp only [isDir_made, decide_eq_true_eq] at hsizes
    have hnew : source.file.name ∉ names children := by
      intro hmem
      have hless := hcollided _ hoffer (by rwa [name_made])
      simp only [isDir_made, decide_eq_true_eq] at hless
      omega
    have hshall := @mergeStep_new _ image mergedStat _ _ _ hoffer hnew
    have hfree := @resolveCollision_new _ image tries warnings _ _ hnew
    cases hnode with
    | stopped _ hnegative => exact absurd hok (Int.not_le.mpr hnegative)
    | leaf hresolved _ htype =>
      rw [hfree] at hresolved
      obtain ⟨rfl, hrest'⟩ := Prod.mk.inj (Option.some.inj hresolved)
      obtain ⟨rfl, -⟩ := Prod.mk.inj hrest'
      rw [if_neg htype] at hshall
      refine ⟨hshall.symm ▸ rfl, fun rest => ?_⟩
      rw [undisturbedFiles_node hoffer, if_neg hnew, if_neg htype, names_insertAt]
      rfl
    | @dir name warnings₁ ret sub hresolved _ htype hfilled =>
      rw [hfree] at hresolved
      obtain ⟨rfl, hrest'⟩ := Prod.mk.inj (Option.some.inj hresolved)
      obtain ⟨rfl, -⟩ := Prod.mk.inj hrest'
      rw [if_pos htype] at hshall hsizes
      rw [hshall] at hsizes hgoes
      have hplanned : sizes (mergeDirRec image mergedStat source []).1 =
          plannedDir image source := by
        rw [sizes_insertAt, size] at hsizes
        omega
      obtain ⟨hsub, hchildren⟩ :=
        hsource _ _ hfilled hok ((settled_mergeDirRec source []).nonneg hgoes) hplanned
      refine ⟨?_, fun rest => ?_⟩
      · rw [hshall, hchildren]
      · rw [undisturbedFiles_node hoffer, if_neg hnew, if_pos htype, hsub, names_insertAt]
        rfl

/-- If the steps yield the same and the shall tree has all planned nodes, then there was no
disturbance. -/
theorem undisturbed_of_addFiles (hfit : AllFit image files)
    (hsource : ∀ source ∈ files, NamesFit image source → ∀ warnings sub,
      addDirSrcRec image tries source [] warnings = some sub → 0 ≤ sub.ret →
        0 ≤ (mergeDirRec image mergedStat source []).2 →
          sizes (mergeDirRec image mergedStat source []).1 = plannedDir image source →
            undisturbedDir image tries source [] warnings = some sub.collisionWarnings ∧
              sub.children = (mergeDirRec image mergedStat source []).1)
    (h : addFiles image tries files readFault children warnings = some outcome)
    (hret : 0 ≤ outcome.ret) (hmerge : 0 ≤ (mergeFiles image mergedStat files readFault children).2)
    (hsizes : sizes (mergeFiles image mergedStat files readFault children).1 =
      sizes children + plannedFiles image files) :
    undisturbedFiles image tries files (names children) warnings =
        some outcome.collisionWarnings ∧
      outcome.children = (mergeFiles image mergedStat files readFault children).1 := by
  induction files generalizing children warnings with
  | nil =>
    cases readFault with
    | none =>
      obtain rfl := Option.some.inj h
      exact ⟨rfl, rfl⟩
    | some fault =>
      obtain rfl := Option.some.inj h
      exact ⟨rfl, rfl⟩
  | cons source rest ih =>
    obtain ⟨hlength, hnames, hrest⟩ := hfit
    -- the merging goes on behind the file and finds as many nodes as planned
    have hgoes : ¬ ((mergeStep image mergedStat source children).2 < 0 ∧
        msgSubmitCode image (mergeStep image mergedStat source children).2 < 0) := by
      intro hstop
      rw [mergeFiles_cons, if_pos hstop] at hmerge
      exact absurd hmerge (Int.not_le.mpr hstop.2)
    rw [mergeFiles_cons, if_neg hgoes] at hmerge hsizes ⊢
    have htail := @mergeFiles_sizes _ image mergedStat rest readFault
      (mergeStep image mergedStat source children).1 fun s _ olds => mergeDirRec_sizes s olds
    have hhead := (@mergeStep_sizes _ image mergedStat _ children (mergeDirRec_sizes source)).1
    rw [plannedFiles] at hsizes
    rw [addFiles_cons] at h
    split at h
    next => cases h
    next step hstep =>
      split at h
      next hstop =>
        obtain rfl := Option.some.inj h
        exact absurd hret (Int.not_le.mpr hstop.2)
      next hgo =>
        have hok := (settled_addStep hlength hstep).nonneg hgo
        obtain ⟨hchildren, hundisturbed⟩ := undisturbed_of_addStep hlength
          (hsource source List.mem_cons_self hnames) hstep hok hgoes
          (by rw [plannedFiles, plannedFiles]; omega)
        rw [hundisturbed rest]
        rw [← hchildren] at hmerge hsizes htail hhead ⊢
        exact ih hrest (fun s hs => hsource s (List.mem_cons_of_mem _ hs)) h hmerge (by omega)

theorem undisturbed_of_addDirSrcRec (source : FileSource Data) :
    NamesFit image source → ∀ children warnings outcome,
      addDirSrcRec image tries source children warnings = some outcome → 0 ≤ outcome.ret →
        0 ≤ (mergeDirRec image mergedStat source children).2 →
          sizes (mergeDirRec image mergedStat source children).1 =
            sizes children + plannedDir image source →
            undisturbedDir image tries source (names children) warnings =
                some outcome.collisionWarnings ∧
              outcome.children = (mergeDirRec image mergedStat source children).1 := by
  induction source using FileSource.induction with
  | step file openFault files readFault ih =>
    intro hfit children warnings outcome h hret hmerge hsizes
    cases openFault with
    | some fault =>
      obtain rfl := Option.some.inj h
      exact ⟨rfl, rfl⟩
    | none =>
      refine undisturbed_of_addFiles hfit (fun source hmem hnames warnings sub hsub hok hmerged
        hplanned => ?_) h hret hmerge hsizes
      exact ih source hmem hnames [] warnings sub hsub hok hmerged
        (by rw [hplanned, sizes, Nat.zero_add])

end Agreement

section Runs

/-- No name of the found directory gets truncated. -/
def FoundFit (image : IsoImage Data) (found : Except Int (FileSource Data)) : Prop :=
  ∀ source, found = .ok source → NamesFit image source

/-- If nothing aborts the insertion under the own names, then iso_tree_add_dir_rec() returns the
same value and leaves the same tree. -/
def ModeHonoured (image : IsoImage Data) (mergedStat : (old new : Stat Data) → Stat Data)
    (found : Except Int (FileSource Data)) (children : List (IsoNode Data)) (warnings : Nat) :
    Prop :=
  0 ≤ (treeMergeDirRec image mergedStat found children).2 →
    ∃ tries outcome, treeAddDirRec image tries found children warnings = some outcome ∧
      outcome.children = (treeMergeDirRec image mergedStat found children).1 ∧
      outcome.ret = (treeMergeDirRec image mergedStat found children).2

/-- If nothing aborts the insertion, then no new node has the name of an existing one. -/
def Undisturbed (image : IsoImage Data) (mergedStat : (old new : Stat Data) → Stat Data)
    (found : Except Int (FileSource Data)) (children : List (IsoNode Data)) (warnings : Nat) :
    Prop :=
  0 ≤ (treeMergeDirRec image mergedStat found children).2 →
    ∀ source info, found = .ok source → source.file.stat = .ok info → info.fmt = sIfdir →
      ∃ tries, (undisturbedDir image tries source (names children) warnings).isSome

/-- The replace mode is honoured, if and only if it has nothing to decide. -/
theorem mode_honoured_iff (image : IsoImage Data) (mergedStat : (old new : Stat Data) → Stat Data)
    (found : Except Int (FileSource Data)) (children : List (IsoNode Data)) (warnings : Nat)
    (hfit : FoundFit image found) :
    ModeHonoured image mergedStat found children warnings ↔
      Undisturbed image mergedStat found children warnings := by
  rw [ModeHonoured, Undisturbed]
  refine forall_congr' fun hret => ?_
  cases found with
  | error ret => exact ⟨fun _ source info h => (by cases h), fun _ => ⟨0, _, rfl, rfl, rfl⟩⟩
  | ok source =>
    simp only [treeAddDirRec, treeMergeDirRec] at hret ⊢
    cases hstat : source.file.stat with
    | error fault =>
      refine ⟨fun _ source' info h hstat' => ?_, fun _ => ⟨0, _, rfl, rfl, rfl⟩⟩
      obtain rfl := Except.ok.inj h
      rw [hstat] at hstat'
      cases hstat'
    | ok info =>
      simp only [hstat] at hret ⊢
      by_cases htype : info.fmt = sIfdir
      · simp only [htype, if_true] at hret ⊢
        constructor
        · rintro ⟨tries, outcome, hadd, hchildren, hsame⟩ source' info' h - -
          obtain rfl := Except.ok.inj h
          have hok : 0 ≤ outcome.ret := hsame ▸ hret
          have hsizes := addDirSrcRec_sizes source (hfit source rfl) children warnings outcome hadd
            hok
          rw [hchildren] at hsizes
          have hundisturbed :=
            (undisturbed_of_addDirSrcRec source (hfit source rfl) children warnings
            outcome hadd hok hret hsizes).1
          exact ⟨tries, hundisturbed ▸ rfl⟩
        · intro h
          obtain ⟨tries, hsome⟩ := h source info rfl hstat htype
          obtain ⟨warnings', hundisturbed⟩ := Option.isSome_iff_exists.mp hsome
          exact ⟨tries, _, addDirSrcRec_of_undisturbed source (hfit source rfl) children warnings
            warnings' hundisturbed hret, rfl, rfl⟩
      · simp only [htype, if_false] at hret ⊢
        refine ⟨fun _ source' info' h hstat' htype' => ?_, fun _ => ⟨0, _, rfl, rfl, rfl⟩⟩
        obtain rfl := Except.ok.inj h
        rw [hstat] at hstat'
        obtain rfl := Except.ok.inj hstat'
        exact absurd htype' htype

section Examples

/-- An image which shall replace older files of the same type. -/
def plainImage : IsoImage Nat where
  followSymlinks := false
  excludes := []
  fnmatch _ _ := false
  ignoreHidden := false
  ignoreSpecial := 0
  replace := .ifSameTypeAndNewer
  report := none
  truncateLength := 255
  truncateLength_ge := by decide
  truncate := .ok
  abortThreshold := 0x68000000

def regularFile (name : UInt8) (mtime : Int) : FileSource Nat :=
  .mk ⟨[0x2f, 0x64, 0x2f, name], .ok ⟨0x8000, mtime, 0⟩, .ok ⟨0x8000, mtime, 0⟩, none⟩ none [] none

def sourceDir (files : List (FileSource Nat)) : FileSource Nat :=
  .mk ⟨[0x2f, 0x64], .ok ⟨0x4000, 0, 0⟩, .ok ⟨0x4000, 0, 0⟩, none⟩ none files none

/-- The attributes of merged directories stay as they are. -/
def keepStat (old _ : Stat Nat) : Stat Nat := old

theorem fit_sourceDir : FoundFit plainImage (.ok (sourceDir [regularFile 0x61 2])) := by
  intro source h
  obtain rfl := Except.ok.inj h
  exact ⟨by decide, trivial, trivial⟩

/-- The directory /d/c with the files x and y in it. -/
def sourceSubdir : FileSource Nat :=
  .mk ⟨[0x2f, 0x64, 0x2f, 0x63], .ok ⟨0x4000, 0, 0⟩, .ok ⟨0x4000, 0, 0⟩, none⟩ none
    [.mk ⟨[0x2f, 0x64, 0x2f, 0x63, 0x2f, 0x78], .ok ⟨0x8000, 3, 0⟩, .ok ⟨0x8000, 3, 0⟩, none⟩
      none [] none,
     .mk ⟨[0x2f, 0x64, 0x2f, 0x63, 0x2f, 0x79], .ok ⟨0x8000, 4, 0⟩, .ok ⟨0x8000, 4, 0⟩, none⟩
      none [] none] none

theorem fit_newSubdir :
    FoundFit plainImage (.ok (sourceDir [regularFile 0x61 2, sourceSubdir])) := by
  intro source h
  obtain rfl := Except.ok.inj h
  exact ⟨by decide, trivial, by decide, ⟨by decide, trivial, by decide, trivial, trivial⟩, trivial⟩

/-- File a and the whole directory c are added besides file b. -/
theorem new_subdir_honoured : ModeHonoured plainImage keepStat
    (.ok (sourceDir [regularFile 0x61 2, sourceSubdir])) [.leaf [0x62] ⟨0x8000, 1, 1⟩] 0 :=
  (mode_honoured_iff plainImage keepStat _ _ 0 fit_newSubdir).mpr
    fun _ source info h _ _ => ⟨1, by obtain rfl := Except.ok.inj h; decide⟩

/-- The newer file a does not replace the older one, but gets another name. -/
theorem newer_file_renamed : ¬ ModeHonoured plainImage keepStat
    (.ok (sourceDir [regularFile 0x61 2])) [.leaf [0x61] ⟨0x8000, 1, 1⟩] 0 := by
  intro h
  obtain ⟨tries, outcome, hadd, hchildren, hret⟩ := h (by decide)
  have hsizes := addDirSrcRec_sizes (sourceDir [regularFile 0x61 2]) (fit_sourceDir _ rfl) _ 0
    outcome hadd (hret ▸ by decide)
  rw [hchildren] at hsizes
  exact absurd hsizes (by decide)

end Examples

end Runs

end RecursiveAdd
