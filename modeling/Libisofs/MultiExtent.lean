import Libisofs.WrittenDirs
import Mathlib.Data.List.ReduceOption

/-!
# Files with several extents

write_one_dir() of ecma119.c emits one record for each section of a file. All but the last
one bear the multi-extent flag. read_dir() and iso_file_source_new_ifs() of fs_image.c put
the sections together again. How the System Use entries are read is of interest only for
the last record of a file, and for records of other nodes.
-/

namespace MultiExtent

open ByteBuffers BlockPacking ConsecutiveLayout Unrollings
open LowLevelDirs WrittenDirs
open ReadDir (IsoDataSource)
open DirImport hiding medium plainReader
open Joliet (Section padBlock someTime)
open SuspIter (isoWrongRr)

/-! ## What becomes of a file -/

/-- A section as a reader finds it in the tree. Addresses count from the partition start. -/
def placed (t : Ecma119Image) (s : Section) : Section := ⟨s.block - t.effPartitionOffset, s.size⟩

def totalSize (sections : List Section) : Nat := total (fun s => s.size.toNat) sections

/-- ImageFileSourceData while the file is incomplete. -/
def unfinished (name : Bytes) (sections : List Section) : FileSource where
  name := some name
  isDir := false
  sections := sections
  stSize := UInt64.ofNat (totalSize sections)

/-- The variable child of read_dir() behind the records of some sections. -/
def childOf (name : Bytes) : List Section → Option FileSource
  | [] => none
  | s :: rest => some (unfinished name (s :: rest))

/-- ImageFileSourceData after the last record of the file. -/
def finished (sections : List Section) : FileSource where
  name := none
  isDir := false
  sections := sections
  stSize := UInt64.ofNat (totalSize sections)

/-- A record carries a section of the file with the given name. -/
structure Carries (r : Reader) (name : Bytes) (s : Section) (more : Bool) (record : Buffer) :
    Prop where
  fileUnitSize : record 26 = 0
  interleaveGapSize : record 27 = 0
  flags : flagsOf record = if more then 0x80 else 0
  sectionOf : sectionOf record = s
  name : r.getName record = some name

/-- The loop over the System Use entries of a record ends without error and leaves `st`. -/
def EntriesTell (r : Reader) (src : IsoDataSource) (record : Buffer) (st : RrState) : Prop :=
  if r.rr then
    ∃ ret, Gives (fun n => loop (rrTurn r src false) n (rrStart r record)) (.done ret st) ∧ 0 ≤ ret
  else st = ⟨preliminaryMode record, 0, []⟩

/-- The System Use entries of a record are those of a regular file. -/
structure TellsFile (r : Reader) (src : IsoDataSource) (record : Buffer) (st : RrState) :
    Prop where
  entries : EntriesTell r src record st
  relocated : st.relocated = 0
  regular : Nat.land st.mode sIfmt = sIfreg
  names : r.names record st.mode st.seen = none
  links : r.links record st.mode st.seen = none

section Sections

variable {r : Reader} {src : IsoDataSource} {name : Bytes} {s : Section} {record : Buffer}
variable {sections : List Section} {more : Bool}

theorem toUInt64_eq (size : UInt32) : size.toUInt64 = UInt64.ofNat size.toNat :=
  UInt64.toNat_inj.mp (by
    rw [UInt32.toNat_toUInt64, UInt64.toNat_ofNat', Nat.mod_eq_of_lt]
    exact Nat.lt_of_lt_of_le size.toNat_lt (by decide))

theorem totalSize_concat (sections : List Section) (s : Section) :
    totalSize (sections ++ [s]) = totalSize sections + s.size.toNat := by
  rw [totalSize, total_append, total_cons, total_nil, Nat.add_zero]
  rfl

theorem store_unfinished :
    (unfinished name sections).store s = unfinished name (sections ++ [s]) := by
  rw [FileSource.store, unfinished, toUInt64_eq, ← UInt64.ofNat_add, ← totalSize_concat]
  rfl

theorem childOf_concat (sections : List Section) (s : Section) :
    childOf name (sections ++ [s]) = some (unfinished name (sections ++ [s])) := by
  cases sections with
  | nil => rfl
  | cons first rest => rfl

/-- The name of the incomplete file is the name in all its records. -/
theorem sameName (h : Carries r name s more record) (first : Section) (rest : List Section) :
    ¬ ((r.getName record).isNone ∨
      r.getName record ≠ (unfinished name (first :: rest)).name) := by
  rw [h.name]
  simp [unfinished]

theorem contiguous (h : Carries r name s more record) : ¬ (record 26 ≠ 0 ∨ record 27 ≠ 0) := by
  rw [h.fileUnitSize, h.interleaveGapSize]
  decide

theorem precheck_more (h : Carries r name s true record) :
    precheck r record (childOf name sections) = some (2, childOf name (sections ++ [s])) := by
  have hmore : ¬ flagsOf record &&& 0x80 = 0 := by
    rw [h.flags]
    decide
  have hfile : ¬ flagsOf record &&& 2 ≠ 0 := by
    rw [h.flags]
    decide
  unfold precheck
  rw [if_neg (contiguous h), childOf_concat, ← store_unfinished]
  cases sections with
  | nil =>
    simp only [childOf, if_neg hmore, if_neg hfile, h.name, h.sectionOf]
    rfl
  | cons first rest =>
    simp only [childOf, if_neg (sameName h first rest), if_neg hmore, if_neg hfile, h.sectionOf]

theorem precheck_last (h : Carries r name s false record) :
    precheck r record (childOf name sections) = none := by
  have hlast : flagsOf record &&& 0x80 = 0 := by
    rw [h.flags]
    decide
  unfold precheck
  rw [if_neg (contiguous h)]
  cases sections with
  | nil => simp only [childOf, hlast, if_true]
  | cons first rest => simp only [childOf, if_neg (sameName h first rest), hlast, if_true]

/-- What has been stored so far, be it nothing. -/
theorem getD_childOf (name : Bytes) (sections : List Section) :
    ((childOf name sections).getD (blank none)).sections = sections ∧
      ((childOf name sections).getD (blank none)).stSize = UInt64.ofNat (totalSize sections) := by
  cases sections with
  | nil => exact ⟨rfl, rfl⟩
  | cons first rest => exact ⟨rfl, rfl⟩

theorem finish_last (h : Carries r name s false record) {st : RrState}
    (hst : TellsFile r src record st) : finish r record (childOf name sections) st =
      .inl (1, some (finished (sections ++ [s]))) := by
  obtain ⟨hsections, hsize⟩ := getD_childOf name sections
  have hnear : ¬ st.relocated ≠ 0 := not_not_intro hst.relocated
  have hlength : lengthOf record = s.size := congrArg Section.size h.sectionOf
  have hdir : decide (sIfreg = sIfdir) = false := rfl
  simp only [finish, hst.names, if_neg hnear, hst.links, hst.regular, hdir, hsections, hsize,
    h.sectionOf, hlength]
  rw [toUInt64_eq, ← UInt64.ofNat_add, Nat.add_comm, ← totalSize_concat]
  rfl

/-- Each record but the last one of a file adds its section. -/
theorem newIfs_more (h : Carries r name s true record) :
    Gives (isoFileSourceNewIfs r src record (childOf name sections))
      (2, childOf name (sections ++ [s])) := by
  refine ⟨0, ?_⟩
  simp only [isoFileSourceNewIfs, parseRecord, precheck_more h]
  rfl

/-- The last record completes the file. -/
theorem newIfs_last (h : Carries r name s false record) {st : RrState}
    (hst : TellsFile r src record st) :
    Gives (isoFileSourceNewIfs r src record (childOf name sections))
      (1, some (finished (sections ++ [s]))) := by
  have hentries := hst.entries
  unfold EntriesTell at hentries
  cases hrr : r.rr with
  | false =>
    rw [hrr] at hentries
    obtain rfl : st = ⟨preliminaryMode record, 0, []⟩ := hentries
    refine ⟨0, ?_⟩
    simp only [isoFileSourceNewIfs, parseRecord, precheck_last h, hrr, finish_last h hst]
    rfl
  | true =>
    rw [hrr] at hentries
    obtain ⟨ret, ⟨n, hn⟩, hret⟩ := hentries
    have hafter : afterRr r record (childOf name sections) (.done ret st) =
        .inl (1, some (finished (sections ++ [s]))) := by
      have hpx : ¬ (st.relocated = 0 ∧ st.mode = 0 ∧ r.submit isoWrongRr < 0) := by
        rintro ⟨-, hzero, -⟩
        have hregular := hst.regular
        rw [hzero] at hregular
        exact absurd hregular (by decide)
      simp only [afterRr, if_neg (Int.not_lt.mpr hret), if_neg hpx]
      exact finish_last h hst
    refine ⟨n, ?_⟩
    simp only [isoFileSourceNewIfs, parseRecord, precheck_last h, hrr, if_true, hn,
      Option.map_some, hafter]
    rfl

end Sections

/-! ## Files -/

/-- get_name() is given nothing but the file identifier. -/
structure NameReader extends Reader where
  nameOf : Bytes → Option Bytes
  byId : ∀ record, getName record = nameOf (fileId record)

/-- The file identifier in the records of a child. -/
def childIdentifier (f : DirFormat) (child : LowNode) : Bytes :=
  child.name ++ if f.version child then [0x3b, 0x31] else []

/-- The record leads to a file source or it gets ignored, if no incomplete file is pending. -/
def Alone (r : Reader) (src : IsoDataSource) (bytes : List UInt8) (result : Option FileSource) :
    Prop :=
  ∀ record, Holds record 0 bytes →
    Gives (isoFileSourceNewIfs r src record none) (if result.isSome then 1 else 0, result)

/-- Nothing but the sections keeps the child from being read. The name of a file can be
retrieved, and the System Use entries of its last record are those of a regular file. -/
def Readable (f : DirFormat) (r : NameReader) (src : IsoDataSource)
    (p : LowNode × List (List UInt8)) : Prop :=
  match p.1 with
  | .file _ _ _ => (r.nameOf (childIdentifier f p.1)).isSome ∧
      ∀ bytes ∈ p.2.getLast?, ∀ record, Holds record 0 bytes →
        ∃ st, TellsFile r.toReader src record st
  | .other _ _ _ => ∀ bytes ∈ p.2, ∃ result, Alone r.toReader src bytes result
  | .dir _ _ => ∀ bytes ∈ p.2, ∃ result, Alone r.toReader src bytes result

/-- A file is read with exactly its sections and its size. Another child is read as if its
record was the only one. -/
def ReadAs (t : Ecma119Image) (r : Reader) (src : IsoDataSource)
    (p : LowNode × List (List UInt8)) (result : Option FileSource) : Prop :=
  match p.1 with
  | .file _ _ sections => ∃ data, result = some data ∧ data.isDir = false ∧
      data.sections = sections.map (placed t) ∧ data.stSize.toNat = totalSize sections
  | .other _ _ _ => ∀ bytes ∈ p.2, Alone r src bytes result
  | .dir _ _ => ∀ bytes ∈ p.2, Alone r src bytes result

section Files

variable {t : Ecma119Image} {r : NameReader} {src : IsoDataSource} {name : Bytes}
variable {content : List FileSource}

theorem recordBlock_eq (block : UInt32) :
    UInt32.ofNat ((ecma119Format t).recordBlock block.toNat) = block - t.effPartitionOffset := by
  have hblock := block.toNat_lt
  have hoffset := t.effPartitionOffset.toNat_lt
  refine UInt32.toNat_inj.mp ?_
  rw [UInt32.toNat_ofNat', UInt32.toNat_sub]
  change (block.toNat + 2 ^ 32 - t.effPartitionOffset.toNat) % 2 ^ 32 % 2 ^ 32 = _
  omega

/-- What is read of the record of a section. -/
theorem carries {d : DirRecord} {susp : List UInt8} {record : Buffer} {s : Section}
    (h : Holds record 0 (writeOneDirRecord (ecma119Format t) d susp))
    (hshort : (writeOneDirRecord (ecma119Format t) d susp).length < 256)
    (hdir : d.isDir = false) (hblock : d.block = s.block.toNat) (hlen : d.len = s.size.toNat)
    (hname : r.nameOf (identifier d) = some name) :
    Carries r.toReader name (placed t s) d.multiExtend record := by
  have hrecord := holdsRecord h
  constructor
  case fileUnitSize => exact hrecord.fileUnitSize
  case interleaveGapSize => exact hrecord.interleaveGapSize
  case flags =>
    rw [hrecord.flags, hdir]
    cases d.multiExtend <;> rfl
  case sectionOf =>
    have hlength : lengthOf record = s.size := by
      rw [hrecord.length, hlen, UInt32.ofNat_toNat]
    have hextent : extentOf record = s.block - t.effPartitionOffset := by
      rw [hrecord.extent, hblock, recordBlock_eq]
    rw [DirImport.sectionOf, hextent, hlength]
    rfl
  case name => rw [r.byId, hrecord.fileId_eq hshort, hname]

/-- The records of all sections but the last one are collected. -/
theorem takes_more {sections before : List Section} {recs : List (List UInt8)}
    (h : List.Forall₂ (fun s bytes => ∀ record, Holds record 0 bytes →
      Carries r.toReader name s true record) sections recs) :
    Takes r.toReader src (childOf name before, content) recs
      (childOf name (before ++ sections), content) := by
  induction h generalizing before with
  | nil =>
    rw [List.append_nil]
    exact .done _
  | @cons s bytes sections recs hcarries _ ih =>
    refine .record (fun record hrecord => newIfs_more (hcarries record hrecord)) (by decide) ?_
    have hrest := @ih (before ++ [s])
    rwa [List.append_assoc] at hrest

/-- The record of a section of a file. -/
def sectionRecord (version : Bool) (name : List UInt8) (time : Joliet.Datetime) (more : Bool)
    (s : Section) : DirRecord :=
  ⟨false, s.block.toNat, s.size.toNat, more, time, name, version⟩

/-- All records of a file bear the multi-extent flag, except the last one. -/
theorem file_records {f : DirFormat} {susp : Nat → List UInt8} {i : Nat} {time : Joliet.Datetime}
    {init : List Section} {s : Section} {version : Bool}
    (hversion : f.version (.file name time (init ++ [s])) = version) :
    ((childRecords f (.file name time (init ++ [s]))).mapIdx fun j d =>
        writeOneDirRecord f d (susp (i + j))) =
      (init.mapIdx fun j x =>
          writeOneDirRecord f (sectionRecord version name time true x) (susp (i + j))) ++
        [writeOneDirRecord f (sectionRecord version name time false s)
          (susp (i + init.length))] := by
  rw [childRecords, hversion, List.mapIdx_mapIdx, List.mapIdx_concat]
  refine congrArg₂ (· ++ ·) (List.ext_getElem (by simp) fun j hj _ => ?_) ?_
  · have hmore : decide ((init ++ [s]).length - 1 ≠ j) = true := by
      rw [List.length_mapIdx] at hj
      rw [decide_eq_true_eq, List.length_append, List.length_singleton]
      omega
    rw [List.getElem_mapIdx, List.getElem_mapIdx, Function.comp_apply, hmore, sectionRecord]
  · have hlast : decide ((init ++ [s]).length - 1 ≠ init.length) = false := by
      simp
    rw [Function.comp_apply, hlast, sectionRecord]

/-- A file becomes a file source, and the next record finds no incomplete file. -/
theorem takes_file {susp : Nat → List UInt8} {i : Nat} {time : Joliet.Datetime}
    {sections : List Section} (hne : sections ≠ []) {recs : List (List UInt8)}
    (hrecs : (childRecords (ecma119Format t) (.file name time sections)).mapIdx
      (fun j d => writeOneDirRecord (ecma119Format t) d (susp (i + j))) = recs)
    (hshort : ∀ bytes ∈ recs, bytes.length < 256)
    (hreadable : Readable (ecma119Format t) r src (.file name time sections, recs)) :
    Takes r.toReader src (none, content) recs
      (none, finished (sections.map (placed t)) :: content) := by
  obtain ⟨init, s, rfl⟩ : ∃ init s, sections = init ++ [s] :=
    ⟨_, _, (List.dropLast_append_getLast hne).symm⟩
  rw [file_records rfl] at hrecs
  obtain ⟨hsome, hlast⟩ := hreadable
  obtain ⟨known, hknown⟩ := Option.isSome_iff_exists.mp hsome
  subst hrecs
  rw [List.map_append, List.map_singleton]
  refine (@takes_more r src known content (init.map (placed t)) [] _ ?_).append ?_
  · rw [List.forall₂_map_left_iff, List.forall₂_iff_get]
    refine ⟨by simp, fun j hj hj' record hrecord => ?_⟩
    rw [List.get_eq_getElem, List.getElem_mapIdx] at hrecord
    refine carries hrecord (hshort _ (List.mem_append_left _ ?_)) rfl rfl rfl hknown
    exact List.mem_iff_getElem.mpr ⟨j, hj', List.getElem_mapIdx⟩
  · refine @Takes.record _ _ _ (some (finished (init.map (placed t) ++ [placed t s]))) _ _ _ 1 _
      (fun record hrecord => ?_) (by decide) (.done _)
    obtain ⟨st, hst⟩ := hlast _ (by rw [List.getLast?_concat]; rfl) record hrecord
    refine newIfs_last (carries hrecord (hshort _ ?_) rfl rfl rfl hknown) hst
    exact List.mem_append_right _ (List.mem_singleton_self _)

/-- The record of another child does not concern the files around it. -/
theorem takes_alone {bytes : List UInt8} {result : Option FileSource}
    (h : Alone r.toReader src bytes result) :
    Takes r.toReader src (none, content) [bytes] (none, result.toList ++ content) := by
  cases result with
  | none => exact @Takes.record _ _ _ none _ _ _ 0 _ h (by decide) (.done _)
  | some data => exact @Takes.record _ _ _ (some data) _ _ _ 1 _ h (by decide) (.done _)

/-- The size of less than 2 exp 31 sections has at most 63 bits. -/
theorem totalSize_lt {sections : List Section} (h : sections.length < 2 ^ 31) :
    totalSize sections < 2 ^ 63 := by
  have hle : totalSize sections ≤ sections.length * (2 ^ 32 - 1) :=
    total_le _ fun s _ => Nat.le_of_lt_succ s.size.toNat_lt
  omega

theorem totalSize_placed (sections : List Section) :
    totalSize (sections.map (placed t)) = totalSize sections := by
  rw [totalSize, totalSize, total, total, List.map_map]
  rfl

/-- One child after the other. -/
theorem takes_child {susp : Nat → List UInt8} {i : Nat} {child : LowNode}
    (hsections : ∀ name time sections, child = .file name time sections →
      sections ≠ [] ∧ sections.length < 2 ^ 31) {recs : List (List UInt8)}
    (hrecs : (childRecords (ecma119Format t) child).mapIdx
      (fun j d => writeOneDirRecord (ecma119Format t) d (susp (i + j))) = recs)
    (hshort : ∀ bytes ∈ recs, bytes.length < 256)
    (hreadable : Readable (ecma119Format t) r src (child, recs)) :
    ∃ result, ReadAs t r.toReader src (child, recs) result ∧ ∀ content,
      Takes r.toReader src (none, content) recs (none, result.toList ++ content) := by
  cases child with
  | file name time sections =>
    obtain ⟨hne, hcount⟩ := hsections name time sections rfl
    refine ⟨some (finished (sections.map (placed t))), ⟨_, rfl, rfl, rfl, ?_⟩, fun content =>
      takes_file hne hrecs hshort hreadable⟩
    have hlt := totalSize_lt hcount
    rw [finished, totalSize_placed, UInt64.toNat_ofNat', Nat.mod_eq_of_lt (by omega)]
  | other placeholder name time | dir name info =>
    rw [childRecords, List.mapIdx_singleton] at hrecs
    subst hrecs
    obtain ⟨result, halone⟩ := hreadable _ (List.mem_singleton_self _)
    refine ⟨result, fun bytes hbytes => ?_, fun content => takes_alone halone⟩
    rwa [List.mem_singleton.mp hbytes]

/-- Child by child the records are taken, and the results join the content. -/
theorem takes_groups {susp : Nat → List UInt8} {i : Nat} {children : List LowNode}
    (hsections : ∀ name time sections, .file name time sections ∈ children →
      sections ≠ [] ∧ sections.length < 2 ^ 31)
    (hshort : ∀ p ∈ groups (ecma119Format t) susp i children, ∀ bytes ∈ p.2, bytes.length < 256)
    (hreadable : ∀ p ∈ groups (ecma119Format t) susp i children,
      Readable (ecma119Format t) r src p) :
    ∃ results, List.Forall₂ (ReadAs t r.toReader src)
        (groups (ecma119Format t) susp i children) results ∧
      Takes r.toReader src (none, content)
        ((groups (ecma119Format t) susp i children).flatMap Prod.snd)
        (none, results.reduceOption.reverse ++ content) := by
  induction children generalizing i content with
  | nil => exact ⟨[], .nil, .done _⟩
  | cons child rest ih =>
    rw [groups] at hshort hreadable ⊢
    obtain ⟨hreads, hreadsRest⟩ := List.forall_mem_cons.mp hreadable
    obtain ⟨hfirst, hshortRest⟩ := List.forall_mem_cons.mp hshort
    obtain ⟨result, hresult, htakes⟩ := takes_child
      (fun name time sections heq => hsections name time sections (heq ▸ List.mem_cons_self ..))
      rfl hfirst hreads
    obtain ⟨results, hresults, hrest⟩ := @ih (result.toList ++ content)
      (i + (childRecords (ecma119Format t) child).length)
      (fun name time sections hmem => hsections name time sections (List.mem_cons_of_mem _ hmem))
      hshortRest hreadsRest
    refine ⟨result :: results, .cons hresult hresults, ?_⟩
    rw [List.flatMap_cons]
    refine (htakes content).append ?_
    cases result with
    | none => exact hrest
    | some data =>
      rw [List.reduceOption_cons_of_some, List.reverse_cons, List.append_assoc]
      exact hrest

end Files

/-- What write_one_dir() has emitted for a directory is read by read_dir() so that each file
yields one file source with its sections and with their total size. No section gets to
another node, and the other nodes do not disturb the files. -/
theorem sections_read_back (d : WrittenDir) (r : NameReader) (src : IsoDataSource)
    (block : UInt32) (hstored : Stored src block d.blocks)
    (hreadable : ∀ p ∈ d.children, Readable (ecma119Format d.t) r src p) :
    ∃ results content, Gives (readDir r.toReader src block) (.ok content) ∧
      List.Forall₂ (ReadAs d.t r.toReader src) d.children results ∧
      content = results.reduceOption.reverse := by
  obtain ⟨results, hresults, htakes⟩ := @takes_groups d.t r src [] _ 2 d.entry.dir.children
    d.sections (fun _ hp => d.children_short hp) hreadable
  refine ⟨results, _, d.readDir_gives hstored htakes, hresults, ?_⟩
  rw [List.append_nil]

/-! ## Trees without Rock Ridge -/

/-- Names and link targets are no problem. -/
structure AcceptsNames (r : NameReader) : Prop where
  named : ∀ id, (r.nameOf id).isSome
  names : ∀ record mode seen, r.names record mode seen = none
  links : ∀ record mode seen, r.links record mode seen = none

/-- Moreover Rock Ridge is not read. -/
structure Plain (r : NameReader) : Prop extends AcceptsNames r where
  rr : r.rr = false

section PlainTrees

variable {t : Ecma119Image} {r : NameReader} {src : IsoDataSource}

theorem Plain.tellsFile (h : Plain r) {record : Buffer} (hflags : flagsOf record = 0) :
    TellsFile r.toReader src record ⟨preliminaryMode record, 0, []⟩ where
  entries := by
    unfold EntriesTell
    rw [h.rr]
    rfl
  relocated := rfl
  regular := by
    rw [preliminaryMode, hflags]
    rfl
  names := h.names _ _ _
  links := h.links _ _ _

/-- A record without the multi-extent flag becomes a file source. -/
theorem Plain.newIfs (h : Plain r) {record : Buffer} (hunit : record 26 = 0)
    (hgap : record 27 = 0) (hflags : flagsOf record &&& 0x80 = 0) :
    Gives (isoFileSourceNewIfs r.toReader src record none) (1, some
      ⟨none, decide (Nat.land (preliminaryMode record) sIfmt = sIfdir), [sectionOf record],
        (lengthOf record).toUInt64⟩) := by
  have hmode : ¬ (record 26 ≠ 0 ∨ record 27 ≠ 0) := by
    rw [hunit, hgap]
    decide
  have hcheck : precheck r.toReader record none = none := by
    unfold precheck
    rw [if_neg hmode]
    exact if_pos hflags
  refine ⟨0, ?_⟩
  have hsum : (lengthOf record).toUInt64 + (blank none).stSize = (lengthOf record).toUInt64 :=
    UInt64.add_zero _
  simp only [isoFileSourceNewIfs, parseRecord, hcheck, h.rr, finish, h.names, h.links,
    Option.getD_none, hsum]
  rfl

/-- The only record of a directory or of a node without content. -/
theorem Plain.alone (h : Plain r) {f : DirFormat} {d : DirRecord} {susp : List UInt8}
    (hmore : d.multiExtend = false) :
    ∃ result, Alone r.toReader src (writeOneDirRecord f d susp) result := by
  refine ⟨some ⟨none, d.isDir, [⟨UInt32.ofNat (f.recordBlock d.block), UInt32.ofNat d.len⟩],
    (UInt32.ofNat d.len).toUInt64⟩, fun record hrecord => ?_⟩
  have hread := holdsRecord hrecord
  have hflags := hread.flags
  rw [hmore] at hflags
  have hlast : flagsOf record &&& 0x80 = 0 := by
    rw [hflags]
    cases d.isDir <;> rfl
  have hmode : decide (Nat.land (preliminaryMode record) sIfmt = sIfdir) = d.isDir := by
    rw [preliminaryMode, hflags]
    cases d.isDir <;> rfl
  have hgives := @Plain.newIfs r src h record hread.fileUnitSize hread.interleaveGapSize hlast
  rw [hmode, sectionOf, hread.extent, hread.length] at hgives
  exact hgives

/-- Without Rock Ridge all children can be read. -/
theorem Plain.readable (h : Plain r) {susp : Nat → List UInt8} {i : Nat}
    {children : List LowNode} {p : LowNode × List (List UInt8)}
    (hp : p ∈ groups (ecma119Format t) susp i children) :
    Readable (ecma119Format t) r src p := by
  obtain ⟨j, hrecs⟩ := mem_groups hp
  obtain ⟨child, recs⟩ := p
  cases child with
  | file name time sections =>
    refine ⟨h.named _, fun bytes hbytes record hrecord => ⟨_, h.tellsFile ?_⟩⟩
    dsimp only at hrecs hbytes
    rcases List.eq_nil_or_concat sections with rfl | ⟨init, s, rfl⟩
    · rw [hrecs] at hbytes
      cases hbytes
    · rw [List.concat_eq_append, file_records rfl] at hrecs
      rw [hrecs, List.getLast?_concat, Option.mem_some_iff] at hbytes
      subst hbytes
      rw [(holdsRecord hrecord).flags]
      simp [sectionRecord]
  | other placeholder name time | dir name info =>
    intro bytes hbytes
    dsimp only at hrecs hbytes
    rw [hrecs, childRecords, List.mapIdx_singleton] at hbytes
    rw [List.mem_singleton.mp hbytes]
    exact h.alone rfl

end PlainTrees

section Examples

/-- Rock Ridge is not read, and all names are acceptable. -/
def plainReader : NameReader where
  toReader := { DirImport.plainReader with getName := fun record => some (fileId record) }
  nameOf := some
  byId _ := rfl

def plainImage (effPartitionOffset : UInt32) : Ecma119Image where
  omitVersionNumbers := 0
  max37CharFilenames := false
  untranslatedNameLen := 0
  oldEmpty := false
  emptyFileBlock := 0
  effPartitionOffset := effPartitionOffset
  suspLen := fun _ _ => 0
  ceLen := fun _ => 0
  suspFields := fun _ _ => []
  ceBlocks := fun _ => []

/-- A file of two sections, and another one with a similar name. -/
def twoFiles : List LowNode :=
  [.file [0x41] someTime [⟨100, 4096⟩, ⟨102, 5⟩], .file [0x41, 0x42] someTime [⟨103, 7⟩]]

theorem length_files (effPartitionOffset : UInt32) :
    (writtenRecords (ecma119Format (plainImage effPartitionOffset))
      ⟨none, [], .mk 1 someTime 20 2048 twoFiles⟩).map List.length = [34, 34, 36, 36, 38] := by
  simp [writtenRecords, dirRecords, twoFiles, childRecords, LowDir.children, dotRecord, identifier,
    length_writeOneDirRecord, ecma119Format, plainImage, needVersionNumber]

theorem blocks_files (effPartitionOffset : UInt32) :
    dirBlocks (ecma119Format (plainImage effPartitionOffset))
      ⟨none, [], .mk 1 someTime 20 2048 twoFiles⟩ =
        [writtenRecords (ecma119Format (plainImage effPartitionOffset))
          ⟨none, [], .mk 1 someTime 20 2048 twoFiles⟩] := by
  rw [dirBlocks, pack_single, List.take_append_drop]
  rw [List.take_append_drop, total, length_files]
  decide

def filesDir (effPartitionOffset : UInt32) : WrittenDir where
  t := plainImage effPartitionOffset
  entry := ⟨none, [], .mk 1 someTime 20 2048 twoFiles⟩
  short bytes hbytes := by
    have hall : ∀ n ∈ [34, 34, 36, 36, 38], n < 256 := by decide
    refine hall _ ?_
    rw [← length_files effPartitionOffset]
    exact List.mem_map_of_mem hbytes
  len_eq := by
    rw [blocks_files]
    rfl
  len_lt := by
    change 2048 < 2 ^ 32
    decide
  sections name time sections h := by
    change _ ∈ twoFiles at h
    rcases List.mem_pair.mp h with h | h
    · obtain ⟨-, -, rfl⟩ := LowNode.file.inj h
      decide
    · obtain ⟨-, -, rfl⟩ := LowNode.file.inj h
      decide

theorem stored_files (effPartitionOffset : UInt32) :
    Stored (medium (filesDir effPartitionOffset).blocks) 0
      (filesDir effPartitionOffset).blocks := by
  have hblocks : (filesDir effPartitionOffset).blocks =
      [padBlock (writtenRecords (ecma119Format (plainImage effPartitionOffset))
        (filesDir effPartitionOffset).entry)] :=
    congrArg (List.map padBlock) (blocks_files effPartitionOffset)
  rw [hblocks]
  refine stored_medium (by rw [List.length_singleton]; decide) fun bytes hbytes => Nat.le_of_eq ?_
  rw [List.mem_singleton.mp hbytes]
  refine Joliet.length_padBlock ?_
  rw [total, filesDir, length_files]
  decide

theorem plain_plainReader : Plain plainReader where
  rr := rfl
  named _ := rfl
  names _ _ _ := rfl
  links _ _ _ := rfl

theorem files_read_back : ∃ results content,
    Gives (readDir plainReader.toReader (medium (filesDir 0).blocks) 0) (.ok content) ∧
      List.Forall₂ (ReadAs (plainImage 0) plainReader.toReader (medium (filesDir 0).blocks))
        (filesDir 0).children results ∧ content = results.reduceOption.reverse :=
  sections_read_back (filesDir 0) plainReader (medium (filesDir 0).blocks) 0 (stored_files 0)
    fun _ hp => plain_plainReader.readable hp

/-- In a tree for a partition at block 16, the addresses are not those of the files. -/
theorem partition_addresses_differ : ¬ ∃ content,
    Gives (readDir plainReader.toReader (medium (filesDir 16).blocks) 0) (.ok content) ∧
      ∃ data ∈ content, data.sections = [⟨100, 4096⟩, ⟨102, 5⟩] := by
  rintro ⟨content, hgives, data, hdata, hsections⟩
  obtain ⟨results, hresults, htakes⟩ := @takes_groups (plainImage 16) plainReader
    (medium (filesDir 16).blocks) [] (fun _ => []) 2 twoFiles (filesDir 16).sections
    (fun _ hp => (filesDir 16).children_short hp) fun _ hp => plain_plainReader.readable hp
  have hread := (filesDir 16).readDir_gives (stored_files 16) htakes
  obtain rfl := Except.ok.inj (stable_readDir.unique hgives hread)
  cases hresults with
  | cons hfirst hrest =>
    cases hrest with
    | cons hsecond hnone =>
      cases hnone
      obtain ⟨first, rfl, -, hone, -⟩ := hfirst
      obtain ⟨second, rfl, -, htwo, -⟩ := hsecond
      rcases List.mem_pair.mp hdata with rfl | rfl
      · exact absurd (htwo.symm.trans hsections) (by decide)
      · exact absurd (hone.symm.trans hsections) (by decide)

end Examples

end MultiExtent
