import Libisofs.Lib.ParentLinks
import Libisofs.LowLevelDirs

/-!
# Where directory records point to

A directory record carries the address and the length of an extent. Those of "." and "..",
of the subdirectories and of the file sections are compared with the addresses which
calc_dir_pos() has assigned, in each of the three directory formats.
-/

namespace DirRecords

open ByteBuffers BlockPacking ParentLinks LowLevelDirs

/-- The address in a directory record. -/
def recordAddress (record : List UInt8) : Nat := ofLsb ((record.drop 2).take 4)

/-- The length in a directory record. -/
def recordLength (record : List UInt8) : Nat := ofLsb ((record.drop 10).take 4)

/-- Address and length. -/
abbrev Extent := Nat × Nat

def recordExtent (record : List UInt8) : Extent := (recordAddress record, recordLength record)

theorem recordExtent_eq (lenDr lenXa : UInt8) (block len : Nat) (tail : List UInt8) :
    recordExtent (lenDr :: lenXa :: (Joliet.isoBb 4 block ++ (Joliet.isoBb 4 len ++ tail))) =
      (block % 2 ^ 32, len % 2 ^ 32) := by
  have hblock : recordAddress
      (lenDr :: lenXa :: (Joliet.isoBb 4 block ++ (Joliet.isoBb 4 len ++ tail))) =
        block % 2 ^ 32 := by
    rw [recordAddress, List.drop_succ_cons, List.drop_succ_cons, List.drop_zero, Joliet.isoBb,
      List.append_assoc, List.take_left' (length_toLsb 4 block), ofLsb_toLsb]
    rfl
  have hlen : recordLength
      (lenDr :: lenXa :: (Joliet.isoBb 4 block ++ (Joliet.isoBb 4 len ++ tail))) =
        len % 2 ^ 32 := by
    have hskip : (Joliet.isoBb 4 block).length = 8 := by
      simp [Joliet.isoBb, toMsb]
    rw [recordLength, List.drop_succ_cons, List.drop_succ_cons, List.drop_left' hskip,
      Joliet.isoBb, List.append_assoc, List.take_left' (length_toLsb 4 len), ofLsb_toLsb]
    rfl
  rw [recordExtent, hblock, hlen]

section Pairs

variable {α β γ : Type} {R : α → β → Prop}

theorem forall₂_flatMap {xs : List γ} {g : γ → List α} {h : γ → List β}
    (hall : ∀ x ∈ xs, List.Forall₂ R (g x) (h x)) :
    List.Forall₂ R (xs.flatMap g) (xs.flatMap h) := by
  induction xs with
  | nil => exact .nil
  | cons x xs ih =>
    rw [List.flatMap_cons, List.flatMap_cons]
    exact List.rel_append (hall x (List.mem_cons_self ..))
      (ih fun y hy => hall y (List.mem_cons_of_mem x hy))

theorem Forall₂.getElem? {as : List α} {bs : List β} (h : List.Forall₂ R as bs) {i : Nat} {a : α}
    (ha : as[i]? = some a) : ∃ b, bs[i]? = some b ∧ R a b := by
  obtain ⟨hi, rfl⟩ := List.getElem?_eq_some_iff.mp ha
  have hi' : i < bs.length := h.length_eq ▸ hi
  exact ⟨bs[i], List.getElem?_eq_getElem hi', h.get hi hi'⟩

end Pairs

section Recordings

universe u
variable {α : Type u}

/-- The directories of a tree, and what is written for each of them. `children` are the
extents which the records behind "." and ".." shall carry, if any. -/
structure Recording (α : Type u) where
  root : α
  subdirs : α → List α
  extent : α → Extent
  children : α → List (Option Extent)
  records : α → List (List UInt8)

namespace Recording

variable (r : Recording α)

def IsDir (d : α) : Prop := ∃ depth, Below r.subdirs r.root depth d

/-- The extent in the record with the given index. -/
def recorded (d : α) (i : Nat) : Option Extent := (r.records d)[i]?.map recordExtent

/-- One gets by the given number of ".." records from one address to another one. -/
def Walks : (steps a b : Nat) → Prop :=
  Leads r.IsDir (fun d => (r.extent d).1) fun d => (r.recorded d 1).map Prod.fst

/-- All records point where their names say. -/
structure PointsRight : Prop where
  dot : ∀ d, r.IsDir d → r.recorded d 0 = some (r.extent d)
  dotDot : ∀ p, r.IsDir p → ∀ d ∈ r.subdirs p, r.recorded d 1 = some (r.extent p)
  rootDotDot : r.recorded r.root 1 = some (r.extent r.root)
  child : ∀ d, r.IsDir d → ∀ i extent, (r.children d)[i]? = some (some extent) →
    r.recorded d (i + 2) = some extent
  walk : ∀ depth d, Below r.subdirs r.root depth d →
    r.Walks depth (r.extent d).1 (r.extent r.root).1

def LengthsFit : Prop := ∀ d, r.IsDir d → (r.extent d).2 < 2 ^ 32

variable {r}

theorem isDir_root : r.IsDir r.root := ⟨0, .root⟩

theorem IsDir.child {p d : α} (hp : r.IsDir p) (hd : d ∈ r.subdirs p) : r.IsDir d := by
  obtain ⟨depth, hbelow⟩ := hp
  exact ⟨depth + 1, hbelow.child hd⟩

theorem walk_of_dotDot (hdotDot : ∀ p, r.IsDir p → ∀ d ∈ r.subdirs p,
      r.recorded d 1 = some (r.extent p)) {depth : Nat} {d : α}
    (h : Below r.subdirs r.root depth d) : r.Walks depth (r.extent d).1 (r.extent r.root).1 := by
  refine leads_to_root (fun n p c hp hc => ?_) h
  rw [hdotDot p ⟨n, hp⟩ c hc]
  rfl

theorem isDir_eq_root (hnone : r.subdirs r.root = []) {d : α} (hd : r.IsDir d) : d = r.root := by
  obtain ⟨depth, hbelow⟩ := hd
  cases hbelow with
  | root => rfl
  | child hp hmem =>
    obtain ⟨first, hfirst⟩ := hp.of_child hmem
    rw [hnone] at hfirst
    exact absurd hfirst List.not_mem_nil

/-- Without subdirectories there is no record which shall point to a parent. -/
theorem pointsRight_of_none (hnone : r.subdirs r.root = [])
    (hdot : r.recorded r.root 0 = some (r.extent r.root))
    (hdotDot : r.recorded r.root 1 = some (r.extent r.root))
    (hchild : ∀ i x, (r.children r.root)[i]? = some (some x) →
      r.recorded r.root (i + 2) = some x) : r.PointsRight where
  dot d hd := by
    obtain rfl := isDir_eq_root hnone hd
    exact hdot
  dotDot p hp d hd := by
    obtain rfl := isDir_eq_root hnone hp
    rw [hnone] at hd
    exact absurd hd List.not_mem_nil
  rootDotDot := hdotDot
  child d hd := by
    obtain rfl := isDir_eq_root hnone hd
    exact hchild
  walk depth d hd := by
    cases hd with
    | root => exact .here
    | child hp hmem =>
      obtain ⟨first, hfirst⟩ := hp.of_child hmem
      rw [hnone] at hfirst
      exact absurd hfirst List.not_mem_nil

end Recording

end Recordings

section LowLevel

variable (f : DirFormat)

/-- The extents of a file are its sections. -/
def childExtents : LowNode → List (Option Extent)
  | .dir _ info => [some (f.recordBlock info.block, info.len)]
  | .other _ _ _ => [none]
  | .file _ _ sections => sections.map fun s => some (f.recordBlock s.block.toNat, s.size.toNat)

def lowRecording (root : LowDir) : Recording DirEntry where
  root := ⟨none, [], root⟩
  subdirs := subdirs
  extent e := (f.recordBlock e.dir.block, e.dir.len)
  children e := e.dir.children.flatMap (childExtents f)
  records e := (dirBlocks f e).flatten

variable {f} {root : LowDir}

theorem recordExtent_writeOneDirRecord (r : DirRecord) (susp : List UInt8) :
    recordExtent (writeOneDirRecord f r susp) =
      (f.recordBlock r.block % 2 ^ 32, r.len % 2 ^ 32) := by
  simp only [writeOneDirRecord, List.append_assoc, List.cons_append, List.nil_append]
  exact recordExtent_eq _ _ _ _ _

/-- What a reader finds in the record with index `i`. -/
theorem recorded_low (e : DirEntry) (i : Nat) : (lowRecording f root).recorded e i =
    (dirRecords f e)[i]?.map fun r => (f.recordBlock r.block % 2 ^ 32, r.len % 2 ^ 32) := by
  rw [Recording.recorded, show (lowRecording f root).records e = writtenRecords f e from
    flatten_dirBlocks e, writtenRecords, List.getElem?_mapIdx, Option.map_map]
  exact congrArg (fun g => Option.map g _) (funext fun r => recordExtent_writeOneDirRecord _ _)

theorem recorded_dot (e : DirEntry) : (lowRecording f root).recorded e 0 =
    some (f.recordBlock e.dir.block % 2 ^ 32, e.dir.len % 2 ^ 32) := by
  rw [recorded_low]
  rfl

theorem recorded_dotDot (e : DirEntry) : (lowRecording f root).recorded e 1 =
    some (f.recordBlock (f.dotDotNode e.dir e.ancestors).1.block % 2 ^ 32,
      (f.dotDotNode e.dir e.ancestors).1.len % 2 ^ 32) := by
  rw [recorded_low]
  rfl

theorem recorded_child (e : DirEntry) (i : Nat) : (lowRecording f root).recorded e (i + 2) =
    (e.dir.children.flatMap (childRecords f))[i]?.map fun r =>
      (f.recordBlock r.block % 2 ^ 32, r.len % 2 ^ 32) := by
  rw [recorded_low]
  rfl

/-- A record carries the extent which it shall carry. -/
def Carries (f : DirFormat) (extent : Option Extent) (r : DirRecord) : Prop :=
  ∀ x, extent = some x → (f.recordBlock r.block % 2 ^ 32, r.len % 2 ^ 32) = x

theorem childRecords_carry (hrange : ∀ block, f.recordBlock block < 2 ^ 32) {child : LowNode}
    (hfit : ∀ name info, child = .dir name info → info.len < 2 ^ 32) :
    List.Forall₂ (Carries f) (childExtents f child) (childRecords f child) := by
  cases child with
  | dir name info =>
    refine .cons ?_ .nil
    rintro x ⟨⟩
    rw [Nat.mod_eq_of_lt (hrange _), Nat.mod_eq_of_lt (hfit name info rfl)]
  | other placeholder name time =>
    refine .cons ?_ .nil
    rintro x ⟨⟩
  | file name time sections =>
    rw [List.forall₂_iff_get]
    refine ⟨by simp [childExtents, childRecords], fun i hi hi' => ?_⟩
    intro x hx
    simp only [childExtents, childRecords, List.get_eq_getElem, List.getElem_map,
      List.getElem_mapIdx, Option.some.injEq] at hx ⊢
    rw [← hx, Nat.mod_eq_of_lt (hrange _), Nat.mod_eq_of_lt (UInt32.toNat_lt _)]

theorem low_child (hrange : ∀ block, f.recordBlock block < 2 ^ 32)
    (hfit : (lowRecording f root).LengthsFit) {e : DirEntry} (he : (lowRecording f root).IsDir e)
    (i : Nat) (x : Extent) (hx : ((lowRecording f root).children e)[i]? = some (some x)) :
    (lowRecording f root).recorded e (i + 2) = some x := by
  have hall : List.Forall₂ (Carries f) (e.dir.children.flatMap (childExtents f))
      (e.dir.children.flatMap (childRecords f)) := by
    refine forall₂_flatMap fun child hchild => childRecords_carry hrange ?_
    rintro name info rfl
    exact hfit _ (he.child (mem_subdirs hchild))
  obtain ⟨r, hr, hcarries⟩ := Forall₂.getElem? hall hx
  rw [recorded_child, hr, Option.map_some, hcarries x rfl]

/-- The lengths fit if "." carries them. -/
theorem lengthsFit_of_dot (hdot : ∀ e, (lowRecording f root).IsDir e →
      (lowRecording f root).recorded e 0 = some ((lowRecording f root).extent e)) :
    (lowRecording f root).LengthsFit := by
  intro e he
  have hrecorded := hdot e he
  rw [recorded_dot] at hrecorded
  have hlen := congrArg Prod.snd (Option.some.inj hrecorded)
  rw [← hlen]
  exact Nat.mod_lt _ (by decide)

theorem extent_mod (hrange : ∀ block, f.recordBlock block < 2 ^ 32)
    (hfit : (lowRecording f root).LengthsFit) {e : DirEntry}
    (he : (lowRecording f root).IsDir e) :
    (f.recordBlock e.dir.block % 2 ^ 32, e.dir.len % 2 ^ 32) = (lowRecording f root).extent e :=
  Prod.ext (Nat.mod_eq_of_lt (hrange _)) (Nat.mod_eq_of_lt (hfit e he))

theorem recorded_dot_of_fit (hrange : ∀ block, f.recordBlock block < 2 ^ 32)
    (hfit : (lowRecording f root).LengthsFit) {e : DirEntry}
    (he : (lowRecording f root).IsDir e) :
    (lowRecording f root).recorded e 0 = some ((lowRecording f root).extent e) := by
  rw [recorded_dot, extent_mod hrange hfit he]

section Ecma119

variable {t : Ecma119Image}

theorem ecma119_range (block : Nat) : (ecma119Format t).recordBlock block < 2 ^ 32 :=
  Nat.mod_lt _ (by decide)

/-- write_dirs() of ecma119.c knows the parent. -/
theorem ecma119_points_right :
    (lowRecording (ecma119Format t) root).PointsRight ↔
      (lowRecording (ecma119Format t) root).LengthsFit := by
  constructor
  · intro h
    exact lengthsFit_of_dot h.dot
  · intro hfit
    have hdotDot : ∀ p, (lowRecording (ecma119Format t) root).IsDir p →
        ∀ e ∈ subdirs p, (lowRecording (ecma119Format t) root).recorded e 1 =
          some ((lowRecording (ecma119Format t) root).extent p) := by
      intro p hp e he
      have hnode : (ecma119Format t).dotDotNode e.dir e.ancestors =
          (p.dir, p.ancestors.head?) := by
        rw [ancestors_of_mem he]
        rfl
      rw [recorded_dotDot, hnode]
      exact congrArg some (extent_mod ecma119_range hfit hp)
    exact {
      dot := fun e he => recorded_dot_of_fit ecma119_range hfit he
      dotDot := hdotDot
      rootDotDot := by
        rw [recorded_dotDot]
        exact congrArg some (extent_mod ecma119_range hfit Recording.isDir_root)
      child := fun e he i x hx => low_child ecma119_range hfit he i x hx
      walk := fun depth e he => Recording.walk_of_dotDot hdotDot he }

end Ecma119

section Iso1999

theorem iso1999_range (block : Nat) : iso1999Format.recordBlock block < 2 ^ 32 :=
  Nat.mod_lt _ (by decide)

/-- The first subdirectory begins directly after its parent. -/
theorem calcDirPosChildren_first {children : List LowNode} {curblock : Nat}
    {name : List UInt8} {info : LowDir}
    (h : .dir name info ∈ (calcDirPosChildren f children curblock).1) :
    ∃ name' info', .dir name' info' ∈ (calcDirPosChildren f children curblock).1 ∧
      info'.block = curblock := by
  induction children with
  | nil => exact absurd h List.not_mem_nil
  | cons child rest ih =>
    cases child with
    | file name' time sections =>
      obtain ⟨name'', info'', hmem, hblock⟩ := ih ((List.mem_cons.mp h).resolve_left (by simp))
      exact ⟨name'', info'', List.mem_cons_of_mem _ hmem, hblock⟩
    | other placeholder name' time =>
      obtain ⟨name'', info'', hmem, hblock⟩ := ih ((List.mem_cons.mp h).resolve_left (by simp))
      exact ⟨name'', info'', List.mem_cons_of_mem _ hmem, hblock⟩
    | dir name' info' =>
      refine ⟨name', (calcDirPos f info' curblock).1, List.mem_cons_self .., ?_⟩
      cases info'
      rfl

/-- A directory has at least one block, and less than 2 exp 32 of them if its length fits. -/
theorem divUp_bounds {used : Nat} (lens : List Nat) (hused : 0 < used)
    (hfit : roundUp Joliet.blockSize (predict Joliet.blockSize used lens) < 2 ^ 32) :
    0 < Joliet.divUp (roundUp Joliet.blockSize (predict Joliet.blockSize used lens))
        Joliet.blockSize ∧
      Joliet.divUp (roundUp Joliet.blockSize (predict Joliet.blockSize used lens))
        Joliet.blockSize < 2 ^ 32 := by
  have hle := @le_predict Joliet.blockSize used lens
  have hround : predict Joliet.blockSize used lens ≤
      roundUp Joliet.blockSize (predict Joliet.blockSize used lens) := Joliet.le_roundUp
  simp only [Joliet.divUp, Joliet.blockSize] at *
  omega

/-- A subdirectory of the root begins elsewhere than the root. -/
theorem exists_apart {dir : LowDir} {start : Nat} (_ : start < 2 ^ 32) {e : DirEntry}
    (he : e ∈ subdirs ⟨none, [], (calcDirPos iso1999Format dir start).1⟩)
    (hfit : (calcDirPos iso1999Format dir start).1.len < 2 ^ 32) :
    (calcDirPos iso1999Format dir start).1.block = start ∧
      ∃ d ∈ subdirs ⟨none, [], (calcDirPos iso1999Format dir start).1⟩,
        d.dir.block < 2 ^ 32 ∧ d.dir.block ≠ start := by
  cases dir with
  | mk addr time block len children =>
    obtain ⟨child, hchild, hsub⟩ := List.mem_filterMap.mp he
    cases child with
    | file name' time sections => cases hsub
    | other placeholder name' time => cases hsub
    | dir name' info' =>
      obtain ⟨name, info, hmem, hblock⟩ := calcDirPosChildren_first hchild
      refine ⟨rfl, ⟨some name, [_], info⟩, mem_subdirs hmem, ?_⟩
      obtain ⟨hpos, hlt⟩ := divUp_bounds (direntLens iso1999Format children)
        (by decide : 0 < 34 + 34) hfit
      have hcount : dirBlockCount iso1999Format children = Joliet.divUp (roundUp Joliet.blockSize
          (predict Joliet.blockSize (34 + 34) (direntLens iso1999Format children)))
            Joliet.blockSize := by
        have hnone : Joliet.divUp (iso1999Format.ceLen children) Joliet.blockSize = 0 := by
          simp [iso1999Format, Joliet.divUp, Joliet.blockSize]
        rw [dirBlockCount, hnone]
        rfl
      rw [← hcount] at hpos hlt
      change info.block < 2 ^ 32 ∧ info.block ≠ start
      rw [hblock]
      omega

theorem iso1999_points_right (dir : LowDir) (start : UInt32) :
    (lowRecording iso1999Format (calcDirPos iso1999Format dir start.toNat).1).PointsRight ↔
      (lowRecording iso1999Format (calcDirPos iso1999Format dir start.toNat).1).LengthsFit ∧
        subdirs ⟨none, [], (calcDirPos iso1999Format dir start.toNat).1⟩ = [] := by
  constructor
  · intro h
    have hfit := lengthsFit_of_dot h.dot
    refine ⟨hfit, ?_⟩
    rw [List.eq_nil_iff_forall_not_mem]
    intro e he
    obtain ⟨hroot, d, hd, hlt, hapart⟩ :=
      exists_apart start.toNat_lt he (hfit _ Recording.isDir_root)
    have hparent := h.dotDot _ Recording.isDir_root d hd
    rw [recorded_dotDot] at hparent
    have hblock : d.dir.block % 2 ^ 32 % 2 ^ 32 =
        (calcDirPos iso1999Format dir start.toNat).1.block % 2 ^ 32 :=
      congrArg Prod.fst (Option.some.inj hparent)
    rw [hroot, Nat.mod_mod, Nat.mod_eq_of_lt hlt, Nat.mod_eq_of_lt start.toNat_lt] at hblock
    exact hapart hblock
  · rintro ⟨hfit, hnone⟩
    refine Recording.pointsRight_of_none hnone ?_ ?_ ?_
    · exact recorded_dot_of_fit iso1999_range hfit Recording.isDir_root
    · rw [recorded_dotDot]
      exact congrArg some (extent_mod iso1999_range hfit Recording.isDir_root)
    · exact fun i x hx => low_child iso1999_range hfit Recording.isDir_root i x hx

end Iso1999

end LowLevel

section JolietDirs

open Joliet

variable (t : Joliet.Ecma119Image)

/-- An address as it is written. -/
def jolietBlock (block : Nat) : Nat := (block + 2 ^ 32 - t.effPartitionOffset.toNat) % 2 ^ 32

def jolietChildExtents : JolietNode → List (Option Extent)
  | .dir _ info => [some (jolietBlock t info.block, info.len)]
  | .file _ _ sections => sections.map fun s => some (jolietBlock t s.block.toNat, s.size.toNat)

def jolietRecording (root : JolietDir) : Recording PathEntry where
  root := ⟨none, none, root⟩
  subdirs := Joliet.subdirs
  extent e := (jolietBlock t e.dir.block, e.dir.len)
  children e := e.dir.children.flatMap (jolietChildExtents t)
  records e := (Joliet.dirBlocks t e.dir e.parent).flatten

variable {t} {root : JolietDir}

theorem jolietBlock_lt (block : Nat) : jolietBlock t block < 2 ^ 32 := Nat.mod_lt _ (by decide)

theorem recordExtent_joliet (node : RecordNode) (name : List UInt8) :
    recordExtent (Joliet.writeOneDirRecord t node name) =
      (jolietBlock t node.block, node.len % 2 ^ 32) := by
  simp only [Joliet.writeOneDirRecord, List.append_assoc, List.cons_append, List.nil_append]
  rw [recordExtent_eq, ← jolietBlock, Nat.mod_eq_of_lt (jolietBlock_lt _)]

theorem flatten_joliet (e : PathEntry) : (Joliet.dirBlocks t e.dir e.parent).flatten =
    Joliet.dotRecord t e.dir 0 e.dir.time ::
      Joliet.dotRecord t e.dir 1 (parentTime e.dir e.parent) ::
        e.dir.children.flatMap (Joliet.childRecords t) := by
  rw [Joliet.dirBlocks, pack_flatten]
  rfl

theorem joliet_records (e : PathEntry) : (jolietRecording t root).records e =
    Joliet.dotRecord t e.dir 0 e.dir.time ::
      Joliet.dotRecord t e.dir 1 (parentTime e.dir e.parent) ::
        e.dir.children.flatMap (Joliet.childRecords t) := flatten_joliet e

/-- Both records carry the extent of the directory itself. -/
theorem joliet_dots (e : PathEntry) :
    (jolietRecording t root).recorded e 0 = some (jolietBlock t e.dir.block, e.dir.len % 2 ^ 32) ∧
      (jolietRecording t root).recorded e 1 =
        some (jolietBlock t e.dir.block, e.dir.len % 2 ^ 32) := by
  rw [Recording.recorded, Recording.recorded, joliet_records]
  exact ⟨congrArg some (recordExtent_joliet _ _), congrArg some (recordExtent_joliet _ _)⟩

theorem joliet_childRecords {child : JolietNode}
    (hfit : ∀ name info, child = .dir name info → info.len < 2 ^ 32) :
    List.Forall₂ (fun extent record => ∀ x, extent = some x → recordExtent record = x)
      (jolietChildExtents t child) (Joliet.childRecords t child) := by
  cases child with
  | dir name info =>
    refine .cons ?_ .nil
    rintro x ⟨⟩
    rw [recordExtent_joliet, Nat.mod_eq_of_lt (hfit name info rfl)]
  | file name time sections =>
    rw [List.forall₂_iff_get]
    refine ⟨by simp [jolietChildExtents, Joliet.childRecords], fun i hi hi' => ?_⟩
    intro x hx
    simp only [jolietChildExtents, Joliet.childRecords, List.get_eq_getElem, List.getElem_map,
      List.getElem_mapIdx, Option.some.injEq] at hx ⊢
    rw [← hx, recordExtent_joliet, Nat.mod_eq_of_lt (UInt32.toNat_lt _)]

theorem mem_jolietSubdirs {e : PathEntry} {name : JolietName} {info : JolietDir}
    (h : .dir name info ∈ e.dir.children) :
    (⟨some name, some e.dir, info⟩ : PathEntry) ∈ Joliet.subdirs e :=
  List.mem_filterMap.mpr ⟨.dir name info, h, rfl⟩

theorem joliet_child (hfit : (jolietRecording t root).LengthsFit) {e : PathEntry}
    (he : (jolietRecording t root).IsDir e) (i : Nat) (x : Extent)
    (hx : ((jolietRecording t root).children e)[i]? = some (some x)) :
    (jolietRecording t root).recorded e (i + 2) = some x := by
  have hall := forall₂_flatMap fun child hchild => @joliet_childRecords t child (by
    rintro name info rfl
    exact hfit _ (he.child (mem_jolietSubdirs hchild)))
  obtain ⟨record, hrecord, hcarries⟩ := Forall₂.getElem? hall hx
  rw [Recording.recorded, joliet_records]
  change (e.dir.children.flatMap (Joliet.childRecords t))[i]?.map recordExtent = some x
  rw [hrecord, Option.map_some, hcarries x rfl]

theorem jolietChildren_first {children : List JolietNode} {curblock : Nat} {name : JolietName}
    {info : JolietDir} (h : .dir name info ∈ (Joliet.calcDirPosChildren t children curblock).1) :
    ∃ name' info', .dir name' info' ∈ (Joliet.calcDirPosChildren t children curblock).1 ∧
      info'.block = curblock := by
  induction children with
  | nil => exact absurd h List.not_mem_nil
  | cons child rest ih =>
    cases child with
    | file name' time sections =>
      obtain ⟨name'', info'', hmem, hblock⟩ := ih ((List.mem_cons.mp h).resolve_left (by simp))
      exact ⟨name'', info'', List.mem_cons_of_mem _ hmem, hblock⟩
    | dir name' info' =>
      refine ⟨name', (Joliet.calcDirPos t info' curblock).1, List.mem_cons_self .., ?_⟩
      cases info'
      rfl

theorem joliet_apart {dir : JolietDir} {start : Nat} (_ : start < 2 ^ 32) {e : PathEntry}
    (he : e ∈ Joliet.subdirs ⟨none, none, (Joliet.calcDirPos t dir start).1⟩)
    (hfit : (Joliet.calcDirPos t dir start).1.len < 2 ^ 32) :
    (Joliet.calcDirPos t dir start).1.block = start ∧
      ∃ d ∈ Joliet.subdirs ⟨none, none, (Joliet.calcDirPos t dir start).1⟩,
        d.dir.block < 2 ^ 32 ∧ d.dir.block ≠ start := by
  cases dir with
  | mk addr time block len children =>
    obtain ⟨child, hchild, hsub⟩ := List.mem_filterMap.mp he
    cases child with
    | file name' time sections => cases hsub
    | dir name' info' =>
      obtain ⟨name, info, hmem, hblock⟩ := jolietChildren_first hchild
      refine ⟨rfl, ⟨some name, some _, info⟩, mem_jolietSubdirs hmem, ?_⟩
      obtain ⟨hpos, hlt⟩ := divUp_bounds (Joliet.direntLens t children)
        (by decide : 0 < 34 + 34) hfit
      rw [← Joliet.calcDirSize] at hpos hlt
      change info.block < 2 ^ 32 ∧ info.block ≠ start
      rw [hblock]
      omega

theorem joliet_points_right (dir : JolietDir) (start : UInt32) :
    (jolietRecording t (Joliet.calcDirPos t dir start.toNat).1).PointsRight ↔
      (jolietRecording t (Joliet.calcDirPos t dir start.toNat).1).LengthsFit ∧
        Joliet.subdirs ⟨none, none, (Joliet.calcDirPos t dir start.toNat).1⟩ = [] := by
  constructor
  · intro h
    have hfit : (jolietRecording t (Joliet.calcDirPos t dir start.toNat).1).LengthsFit := by
      intro e he
      have hrecorded := h.dot e he
      rw [(joliet_dots e).1] at hrecorded
      have hlen := congrArg Prod.snd (Option.some.inj hrecorded)
      rw [← hlen]
      exact Nat.mod_lt _ (by decide)
    refine ⟨hfit, ?_⟩
    rw [List.eq_nil_iff_forall_not_mem]
    intro e he
    obtain ⟨hroot, d, hd, hlt, hapart⟩ :=
      joliet_apart start.toNat_lt he (hfit _ Recording.isDir_root)
    have hparent := h.dotDot _ Recording.isDir_root d hd
    rw [(joliet_dots d).2] at hparent
    have hblock : jolietBlock t d.dir.block =
        jolietBlock t (Joliet.calcDirPos t dir start.toNat).1.block :=
      congrArg Prod.fst (Option.some.inj hparent)
    have hoffset := t.effPartitionOffset.toNat_lt
    have hstart := start.toNat_lt
    rw [hroot, jolietBlock, jolietBlock] at hblock
    omega
  · rintro ⟨hfit, hnone⟩
    have hlen := hfit _ Recording.isDir_root
    have hown : (jolietBlock t (Joliet.calcDirPos t dir start.toNat).1.block,
        (Joliet.calcDirPos t dir start.toNat).1.len % 2 ^ 32) =
          (jolietRecording t (Joliet.calcDirPos t dir start.toNat).1).extent
            ⟨none, none, (Joliet.calcDirPos t dir start.toNat).1⟩ :=
      Prod.ext rfl (Nat.mod_eq_of_lt hlen)
    refine Recording.pointsRight_of_none hnone ?_ ?_ ?_
    · exact (joliet_dots _).1.trans (congrArg some hown)
    · exact (joliet_dots _).2.trans (congrArg some hown)
    · exact fun i x hx => joliet_child hfit Recording.isDir_root i x hx

theorem jolietSubdirs_positioned (children : List JolietNode) (curblock : Nat) :
    (∀ child ∈ (Joliet.calcDirPosChildren t children curblock).1, child.subdir = none) ↔
      ∀ child ∈ children, child.subdir = none := by
  induction children generalizing curblock with
  | nil => rfl
  | cons child rest ih =>
    cases child with
    | file name time sections =>
      rw [Joliet.calcDirPosChildren, List.forall_mem_cons, List.forall_mem_cons, ih]
    | dir name info =>
      rw [Joliet.calcDirPosChildren, List.forall_mem_cons, List.forall_mem_cons]
      simp [JolietNode.subdir]

end JolietDirs

theorem lowSubdirs_positioned (f : DirFormat) (children : List LowNode) (curblock : Nat) :
    (∀ child ∈ (calcDirPosChildren f children curblock).1, child.subdir = none) ↔
      ∀ child ∈ children, child.subdir = none := by
  induction children generalizing curblock with
  | nil => rfl
  | cons child rest ih =>
    cases child with
    | file name time sections =>
      rw [calcDirPosChildren, List.forall_mem_cons, List.forall_mem_cons, ih]
    | other placeholder name time =>
      rw [calcDirPosChildren, List.forall_mem_cons, List.forall_mem_cons, ih]
    | dir name info =>
      rw [calcDirPosChildren, List.forall_mem_cons, List.forall_mem_cons]
      simp [LowNode.subdir]

section Formats

/-- A tree of one of the three directory formats, before calc_dir_pos(). -/
inductive LowLevelTree where
  | ecma119 (t : LowLevelDirs.Ecma119Image) (root : LowDir)
  | joliet (t : Joliet.Ecma119Image) (root : Joliet.JolietDir)
  | iso1999 (root : LowDir)

namespace LowLevelTree

/-- What is written for the tree with the addresses from `start` on points right. -/
def PointsRight (start : UInt32) : LowLevelTree → Prop
  | ecma119 t root => (lowRecording (ecma119Format t)
      (calcDirPos (ecma119Format t) root start.toNat).1).PointsRight
  | joliet t root => (jolietRecording t (Joliet.calcDirPos t root start.toNat).1).PointsRight
  | iso1999 root => (lowRecording iso1999Format
      (calcDirPos iso1999Format root start.toNat).1).PointsRight

/-- The length of each directory fits into 32 bits. -/
def LengthsFit (start : UInt32) : LowLevelTree → Prop
  | ecma119 t root => (lowRecording (ecma119Format t)
      (calcDirPos (ecma119Format t) root start.toNat).1).LengthsFit
  | joliet t root => (jolietRecording t (Joliet.calcDirPos t root start.toNat).1).LengthsFit
  | iso1999 root => (lowRecording iso1999Format
      (calcDirPos iso1999Format root start.toNat).1).LengthsFit

/-- Only write_dirs() of ecma119.c hands over the parent. -/
def ParentKnown : LowLevelTree → Prop
  | ecma119 _ _ => True
  | joliet _ root => ∀ child ∈ root.children, child.subdir = none
  | iso1999 root => ∀ child ∈ root.children, child.subdir = none

end LowLevelTree

theorem filterMap_subdir_eq_nil {α β : Type} {children : List α} {subdir : α → Option β} {γ : Type}
    {g : β → γ} : (children.filterMap fun child => (subdir child).map g) = [] ↔
      ∀ child ∈ children, subdir child = none := by
  rw [List.filterMap_eq_nil_iff]
  simp only [Option.map_eq_none_iff]

/-- All records point where their names say, exactly if the parent is known. -/
theorem points_right_iff (tree : LowLevelTree) (start : UInt32) :
    tree.PointsRight start ↔ tree.LengthsFit start ∧ tree.ParentKnown := by
  cases tree with
  | ecma119 t root => exact ecma119_points_right.trans (iff_of_eq (and_true _)).symm
  | joliet t root =>
    refine (joliet_points_right root start).trans (and_congr_right fun _ => ?_)
    cases root with
    | mk addr time block len children =>
      exact filterMap_subdir_eq_nil.trans (jolietSubdirs_positioned children _)
  | iso1999 root =>
    refine (iso1999_points_right root start).trans (and_congr_right fun _ => ?_)
    cases root with
    | mk addr time block len children =>
      exact filterMap_subdir_eq_nil.trans (lowSubdirs_positioned _ children _)

section Examples

def jolietName : Joliet.JolietName := ⟨[0x61], by decide⟩

/-- A root with one directory. -/
def jolietTree : Joliet.JolietDir :=
  .mk 1 Joliet.someTime 0 0 [.dir jolietName (.mk 2 Joliet.someTime 0 0 [])]

/-- The directory gets block 21 and is recorded as its own parent. -/
theorem joliet_parent_lost : ¬ (LowLevelTree.joliet ⟨0, 0⟩ jolietTree).PointsRight 20 := by
  intro h
  have hnone := ((joliet_points_right jolietTree 20).mp h).2
  exact absurd hnone (List.cons_ne_nil _ _)

end Examples

end Formats

end DirRecords
