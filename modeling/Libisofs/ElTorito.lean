import Libisofs.Lib.Bytes
import Libisofs.Lib.Results
import Mathlib.Data.List.TakeWhile
import Mathlib.Data.Vector.Basic

/-!
# El Torito boot catalog

catalog_open() of eltorito.c composes the boot catalog, read_el_torito_boot_catalog() of
fs_image.c parses it, and iso_image_import() makes boot images of what has been parsed.
The validation entry and the Default Entry describe the first boot image. Its successors
are grouped to sections, each with a header for platform id and id string.
-/

namespace ElTorito

open ByteBuffers Results

def blockSize : Nat := 2048
def maxBootImages : Nat := 32

def isoNullPointer : Int := 0xE830FFF9 - 2 ^ 32
def isoBootImageNotValid : Int := 0xE830FFBB - 2 ^ 32
def isoWrongElTorito : Int := 0xD030FEBB - 2 ^ 32

/-- Where the layout has put the first section of a boot image file. -/
structure FileSection where
  block : UInt32
  size : UInt32

/-- struct el_torito_boot_image. A negative `appended_idx` is `none` here. -/
structure ElToritoBootImage where
  image : Option FileSection
  appendedIdx : Option Nat
  appendedStart : UInt32
  appendedSize : UInt32
  bootable : Bool
  type : UInt8
  partitionType : UInt8
  loadSeg : UInt16
  loadSize : UInt16
  loadSizeFull : Bool
  platformId : UInt8
  idString : List.Vector UInt8 28
  selectionCrit : List.Vector UInt8 20

/-- struct el_torito_boot_catalog. -/
structure Catalog where
  bootimages : List ElToritoBootImage
  bootimages_pos : 0 < bootimages.length
  bootimages_le : bootimages.length ≤ maxBootImages

/-- What the entries need to know about the image being written. -/
structure Ecma119Image where
  catalog : Catalog
  appendable : Bool
  msBlock : UInt32
  totalSize : Int
  effPartitionOffset : UInt32
  appendedPartStart : Nat → UInt32
  appendedPartSize : Nat → UInt32

section Writer

/-- The loop of write_validation_entry() over the 16-bit words. -/
def checksum : List UInt8 → Int
  | lo :: hi :: rest =>
    let word : Nat := hi.toNat * 256 + lo.toNat
    checksum rest - (if word < 2 ^ 15 then (word : Int) else word - 2 ^ 16)
  | _ => 0

/-- `sum` stands for the two bytes of the checksum. -/
def validationEntry (platformId : UInt8) (idString : List UInt8) (sum : List UInt8) : List UInt8 :=
  [1, platformId, 0, 0] ++ idString.take 24 ++ sum ++ [0x55, 0xAA]

def writeValidationEntry (platformId : UInt8) (idString : List UInt8) : List UInt8 :=
  validationEntry platformId idString
    (toLsb 2 (checksum (validationEntry platformId idString [0, 0]) % 2 ^ 16).toNat)

def writeSectionHeader (img : ElToritoBootImage) (final : Bool) (numEntries : Nat) : List UInt8 :=
  [if final then 0x91 else 0x90, img.platformId] ++ toLsb 2 numEntries ++ img.idString.toList

def writeSectionLoadSize (img : ElToritoBootImage) (fullByteSize : Nat) : Nat :=
  if img.type = 0 ∧ img.loadSizeFull then
    let blocks := (fullByteSize + 2047) / 2048 * 4
    if blocks > 65535 then
      if img.platformId = 0xef then 0 else 65535
    else if blocks = 0 then 1
    else blocks
  else img.loadSize.toNat

/-- Boot images may be files, appended partitions, and intervals of the image to which
gets appended. eltorito_writer_create() notes an interval only with an `appendedIdx`. -/
inductive Mode where
  | file | imageInterval | appendedPartition

def bootIntvl (img : ElToritoBootImage) : UInt32 × UInt32 :=
  match img.appendedIdx with
  | some _ => (img.appendedStart, img.appendedSize)
  | none => (0, 0)

def mode (t : Ecma119Image) (img : ElToritoBootImage) : Mode :=
  let (start, size) := bootIntvl img
  let interval := t.appendable ∧ (0 < start ∨ 0 < size) ∧ start + (size + 3) / 4 ≤ t.msBlock
  match img.appendedIdx with
  | some app => if 0 < t.appendedPartSize app then .appendedPartition
                else if interval then .imageInterval else .file
  | none => if interval then .imageInterval else .file

/-- The values of `sec_count` and `block`. -/
def secCountBlock (t : Ecma119Image) (img : ElToritoBootImage) : Except Int (Nat × UInt32) :=
  let (start, size) := bootIntvl img
  match mode t img, img.appendedIdx with
  | .file, some _ => .error isoBootImageNotValid
  | .imageInterval, _ =>
    if ((start + (size + 3) / 4).toNat : Int) >
        t.totalSize / 2048 + t.msBlock.toNat - t.effPartitionOffset.toNat then
      .error isoBootImageNotValid
    else if 65535 < size then .ok (if img.platformId = 0xef then 0 else 65535, start)
    else if size = 0 then .error isoBootImageNotValid
    else .ok (size.toNat, start)
  | .appendedPartition, some app =>
    let size := t.appendedPartSize app * 4
    .ok (if 65535 < size then if img.platformId = 0xef then 0 else 65535 else size.toNat,
      t.appendedPartStart app)
  | _, none =>
    match img.image with
    | none => .error isoNullPointer
    | some src => .ok (writeSectionLoadSize img src.size.toNat, src.block)

def sectionEntry (img : ElToritoBootImage) (secCount : Nat) (block : UInt32) : List UInt8 :=
  [if img.bootable then 0x88 else 0, img.type] ++ toLsb 2 img.loadSeg.toNat ++
    [img.partitionType, 0] ++ toLsb 2 secCount ++ toLsb 4 block.toNat ++ img.selectionCrit.toList

def writeSectionEntry (t : Ecma119Image) (img : ElToritoBootImage) : Except Int (List UInt8) := do
  let (secCount, block) ← secCountBlock t img
  return sectionEntry img secCount block

def sameSection (a b : ElToritoBootImage) : Bool :=
  a.platformId = b.platformId ∧ a.idString = b.idString

/-- The sections from the one of boot image `i` on. Each has at least one entry, so that
`left` turns suffice for as many images. -/
def writeSections (t : Ecma119Image) : (left i : Nat) → Except Int (List UInt8)
  | 0, _ => .ok []
  | left + 1, i =>
    match t.catalog.bootimages.drop i with
    | [] => .ok []
    | img :: rest => do
      let numEntries := 1 + (rest.takeWhile (sameSection img)).length
      let final := i = t.catalog.bootimages.length - numEntries
      let entries ← ((img :: rest).take numEntries).mapM (writeSectionEntry t)
      let more ← writeSections t left (i + numEntries)
      return writeSectionHeader img final numEntries ++ entries.flatten ++ more

/-- What catalog_open() writes to its buffer of 2048 bytes. -/
def catalogWritten (t : Ecma119Image) : Except Int (List UInt8) :=
  match t.catalog.bootimages with
  | [] => .error isoNullPointer
  | first :: _ => do
    let entry ← writeSectionEntry t first
    let sections ← writeSections t t.catalog.bootimages.length 1
    return writeValidationEntry first.platformId first.idString.toList ++ entry ++ sections

/-- The buffer after catalog_open(). It has been filled by zeros before. -/
def catalogOpen (t : Ecma119Image) : Except Int (List UInt8) := do
  let written ← catalogWritten t
  return written ++ List.replicate (blockSize - written.length) 0

end Writer

section Parser

/-- One row of the parallel arrays of _ImageFsData. `load_segs` and `load_sizes` are of
type short. Their 16 bits count. -/
structure BootRow where
  platformId : UInt8
  idString : List.Vector UInt8 28
  bootFlag : UInt8
  mediaType : UInt8
  partitionType : UInt8
  loadSeg : UInt16
  loadSize : UInt16
  bootblock : UInt32
  selectionCrit : List.Vector UInt8 20

structure ImageFsData where
  bootimgs : List BootRow
  catsize : Nat
  catcontent : List Buffer

def vector (buf : Buffer) (pos n : Nat) : List.Vector UInt8 n := ⟨slice buf pos n, by simp⟩

def zeros (n : Nat) : List.Vector UInt8 n := List.Vector.replicate n 0

/-- The id string of the Validation Entry is shorter than the ones of the headers. -/
def padIdString (id : List.Vector UInt8 24) : List.Vector UInt8 28 :=
  ⟨id.toList ++ List.replicate 4 0, by simp⟩

/-- The members which Default Entry and section entries have in common. -/
def readEntry (buf : Buffer) (entry : Nat) (platformId : UInt8) (idString : List.Vector UInt8 28)
    (selectionCrit : List.Vector UInt8 20) : BootRow where
  platformId := platformId
  idString := idString
  bootFlag := if buf entry = 0 then 0 else 1
  mediaType := buf (entry + 1)
  partitionType := buf (entry + 4)
  loadSeg := UInt16.ofNat (ofLsb (slice buf (entry + 2) 2))
  loadSize := UInt16.ofNat (ofLsb (slice buf (entry + 6) 2))
  bootblock := UInt32.ofNat (ofLsb (slice buf (entry + 8) 4))
  selectionCrit := selectionCrit

/-- The Default Entry has no selection criterion. -/
def readDefaultEntry (buf : Buffer) : BootRow :=
  readEntry buf 32 (buf 1) (padIdString (vector buf 4 24)) (zeros 20)

def readSectionEntry (buf : Buffer) (sh rx : Nat) : BootRow :=
  readEntry buf rx (buf (sh + 1)) (vector buf (sh + 4) 28) (vector buf (rx + 12) 20)

/-- The inner loop over the entries of a section. Yields the last position, the data, and
whether the list of boot images was truncated. -/
def readSection (buf : Buffer) (sh : Nat) : (entries rx : Nat) → ImageFsData →
    Nat × ImageFsData × Bool
  | 0, rx, data => (rx, data, false)
  | entries + 1, rx, data =>
    let rx := rx + 32
    let data := { data with catsize := data.catsize + 32 }
    if maxBootImages ≤ data.bootimgs.length then (rx, data, true)
    else
      readSection buf sh entries rx
        { data with bootimgs := data.bootimgs ++ [readSectionEntry buf sh rx] }

/-- The outer loop over the section headers. Each turn advances by at least 32 bytes.
After 63 turns it is beyond the buffer, and there is no telling what happens. -/
def readSections (buf : Buffer) : (turns rx : Nat) → (lastDone : Bool) → ImageFsData →
    Option ImageFsData
  | 0, _, _, _ => none
  | turns + 1, rx, lastDone, data =>
    if buf rx &&& 0xfe = 0x90 ∧ lastDone = false then
      let sh := rx
      let data := { data with catsize := data.catsize + 32 }
      match readSection buf sh (buf (sh + 2)).toNat rx data with
      | (_, data, true) => some data
      | (rx, data, false) => readSections buf turns (rx + 32) (buf sh &&& 1 = 1) data
    else some data

def sectionTurns : Nat := 63

/-- The loop which loads the catalog to `catcontent`. -/
def readCatcontent (readBlock : Nat → Except Int Buffer) (block catsize : Nat) :
    Except Int (List Buffer) :=
  let bufsize := if catsize % blockSize = 0 then catsize
    else catsize + (blockSize - catsize % blockSize)
  (List.range (bufsize / blockSize)).mapM fun i => readBlock (block + i)

/-- The inner result is `none` if the catalog leads the parser out of its buffer. -/
def readElToritoBootCatalog (readBlock : Nat → Except Int Buffer) (block : Nat) :
    Except Int (Option ImageFsData) := do
  let buf ← readBlock block
  if buf 0 ≠ 1 ∨ buf 30 ≠ 0x55 ∨ buf 31 ≠ 0xAA then throw isoWrongElTorito
  match readSections buf sectionTurns 64 false ⟨[readDefaultEntry buf], 64, []⟩ with
  | none => return none
  | some data =>
    let catsize := min data.catsize (10 * blockSize)
    let catcontent ← readCatcontent readBlock block catsize
    return some { data with catsize := catsize, catcontent := catcontent }

end Parser

section Import

/-- A boot image as of iso_image_import(). `crit` is the criterion which gets copied. -/
def importedBootImage (crit : List.Vector UInt8 20) (row : BootRow) : ElToritoBootImage where
  image := none
  appendedIdx := none
  appendedStart := row.bootblock
  appendedSize := 0
  bootable := row.bootFlag &&& 1 = 1
  type := row.mediaType
  partitionType := row.partitionType
  loadSeg := row.loadSeg
  loadSize := row.loadSize
  loadSizeFull := false
  platformId := row.platformId
  idString := row.idString
  selectionCrit := crit

/-- memcpy() gets `data->selection_crits` and not the row of the boot image. -/
def importCatalog (data : ImageFsData) : List ElToritoBootImage :=
  match data.bootimgs with
  | [] => []
  | first :: rest => (first :: rest).map (importedBootImage first.selectionCrit)

end Import

section Files

/-- All boot images are files inside the image and have their own load size. -/
def FilesInside (t : Ecma119Image) : Prop :=
  ∀ img ∈ t.catalog.bootimages,
    img.image.isSome ∧ img.appendedIdx = none ∧ img.loadSizeFull = false

/-- The block address of a boot image file. -/
def fileBlock (img : ElToritoBootImage) : UInt32 :=
  match img.image with
  | some src => src.block
  | none => 0

def entryBytes (img : ElToritoBootImage) : List UInt8 :=
  sectionEntry img img.loadSize.toNat (fileBlock img)

@[simp] theorem length_entryBytes (img : ElToritoBootImage) : (entryBytes img).length = 32 := by
  simp [entryBytes, sectionEntry]

@[simp] theorem length_writeSectionHeader (img : ElToritoBootImage) (final : Bool) (n : Nat) :
    (writeSectionHeader img final n).length = 32 := by
  simp [writeSectionHeader]

@[simp] theorem length_writeValidationEntry (platformId : UInt8) (idString : List.Vector UInt8 28) :
    (writeValidationEntry platformId idString.toList).length = 32 := by
  simp [writeValidationEntry, validationEntry]

variable {t : Ecma119Image}

theorem writeSectionEntry_file (hfiles : FilesInside t) {img : ElToritoBootImage}
    (himg : img ∈ t.catalog.bootimages) : writeSectionEntry t img = .ok (entryBytes img) := by
  obtain ⟨hsome, hnone, hfull⟩ := hfiles img himg
  obtain ⟨src, hsrc⟩ := Option.isSome_iff_exists.mp hsome
  have hmode : mode t img = .file := by simp [mode, bootIntvl, hnone]
  have hvalues : secCountBlock t img = .ok (img.loadSize.toNat, src.block) := by
    simp [secCountBlock, hmode, hnone, hsrc, writeSectionLoadSize, hfull]
  have hblock : fileBlock img = src.block := by simp [fileBlock, hsrc]
  simp [writeSectionEntry, hvalues, entryBytes, hblock, bind, Except.bind, pure, Except.pure]

theorem mapM_writeSectionEntry (hfiles : FilesInside t) {group : List ElToritoBootImage}
    (hgroup : ∀ img ∈ group, img ∈ t.catalog.bootimages) :
    group.mapM (writeSectionEntry t) = .ok (group.map entryBytes) := by
  induction group with
  | nil => rfl
  | cons img rest ih =>
    have hrest := ih fun a ha => hgroup a (List.mem_cons_of_mem _ ha)
    rw [List.mapM_cons, writeSectionEntry_file hfiles (hgroup img List.mem_cons_self), hrest]
    rfl

theorem length_flatten_entryBytes (group : List ElToritoBootImage) :
    (group.map entryBytes).flatten.length = 32 * group.length := by
  induction group with
  | nil => rfl
  | cons img rest ih =>
    simp only [List.map_cons, List.flatten_cons, List.length_append, length_entryBytes, ih,
      List.length_cons]
    omega

/-- The images after `img` which go to its section, and those which do not. -/
abbrev companions (img : ElToritoBootImage) (rest : List ElToritoBootImage) :
    List ElToritoBootImage := rest.takeWhile (sameSection img)

theorem take_companions (img : ElToritoBootImage) (rest : List ElToritoBootImage) :
    (img :: rest).take (1 + (companions img rest).length) = img :: companions img rest := by
  rw [Nat.add_comm, List.take_succ_cons]
  congr 1
  exact (List.prefix_iff_eq_take.mp (List.takeWhile_prefix _)).symm

theorem drop_companions {boots : List ElToritoBootImage} {i : Nat} {img : ElToritoBootImage}
    {rest : List ElToritoBootImage} (hdrop : boots.drop i = img :: rest) :
    boots.drop (i + (1 + (companions img rest).length)) = rest.dropWhile (sameSection img) := by
  have hsplit : companions img rest ++ rest.dropWhile (sameSection img) = rest :=
    List.takeWhile_append_dropWhile
  have hleft : rest.drop (companions img rest).length = rest.dropWhile (sameSection img) :=
    calc rest.drop (companions img rest).length
        = (companions img rest ++ rest.dropWhile (sameSection img)).drop
            (companions img rest).length := by rw [hsplit]
      _ = rest.dropWhile (sameSection img) := List.drop_left
  rw [← List.drop_drop, hdrop, Nat.add_comm 1, List.drop_succ_cons, hleft]

theorem length_companions_le (img : ElToritoBootImage) (rest : List ElToritoBootImage) :
    (companions img rest).length ≤ rest.length :=
  (List.takeWhile_prefix _).length_le

/-- One turn of the loop over the sections. -/
theorem writeSections_turn (hfiles : FilesInside t) {left i : Nat} {img : ElToritoBootImage}
    {rest : List ElToritoBootImage} (hdrop : t.catalog.bootimages.drop i = img :: rest)
    {more : List UInt8}
    (hmore : writeSections t left (i + (1 + (companions img rest).length)) = .ok more) :
    writeSections t (left + 1) i =
      .ok (writeSectionHeader img (rest.dropWhile (sameSection img) = [])
          (1 + (companions img rest).length) ++
        ((img :: companions img rest).map entryBytes).flatten ++ more) := by
  have hmem : ∀ a ∈ img :: companions img rest, a ∈ t.catalog.bootimages := by
    intro a ha
    have hsub : a ∈ img :: rest := by
      rcases List.mem_cons.mp ha with rfl | hlater
      · exact List.mem_cons_self
      · exact List.mem_cons_of_mem _ (List.takeWhile_subset _ hlater)
    exact List.mem_of_mem_drop (hdrop ▸ hsub)
  have hfinal : (i = t.catalog.bootimages.length - (1 + (companions img rest).length)) ↔
      rest.dropWhile (sameSection img) = [] := by
    have hlen := congrArg List.length hdrop
    have hleft := congrArg List.length (drop_companions hdrop)
    have hle := length_companions_le img rest
    simp only [List.length_drop, List.length_cons] at hlen hleft
    rw [← List.length_eq_zero_iff]
    omega
  simp only [writeSections, hdrop, take_companions, mapM_writeSectionEntry hfiles hmem, hmore,
    hfinal, bind, Except.bind, pure, Except.pure]

/-- All sections get written. In the worst case each image has a section of its own. -/
theorem writeSections_ok (hfiles : FilesInside t) (left i : Nat)
    (hleft : t.catalog.bootimages.length - i ≤ left) :
    ∃ bytes, writeSections t left i = .ok bytes ∧
      bytes.length ≤ 64 * (t.catalog.bootimages.length - i) := by
  induction left generalizing i with
  | zero => exact ⟨[], rfl, by simp⟩
  | succ left ih =>
    cases hdrop : t.catalog.bootimages.drop i with
    | nil => exact ⟨[], by simp [writeSections, hdrop], by simp⟩
    | cons img rest =>
      have hlen := congrArg List.length hdrop
      have hle := length_companions_le img rest
      simp only [List.length_drop, List.length_cons] at hlen
      obtain ⟨more, hmore, hbound⟩ := ih (i + (1 + (companions img rest).length)) (by omega)
      refine ⟨_, writeSections_turn hfiles hdrop hmore, ?_⟩
      simp only [List.length_append, length_writeSectionHeader, length_flatten_entryBytes,
        List.length_cons]
      omega

end Files

section Reading

variable {buf : Buffer}

/-- What the parser finds in the entry of a boot image file. -/
def rowOf (img : ElToritoBootImage) (crit : List.Vector UInt8 20) : BootRow where
  platformId := img.platformId
  idString := img.idString
  bootFlag := if img.bootable then 1 else 0
  mediaType := img.type
  partitionType := img.partitionType
  loadSeg := img.loadSeg
  loadSize := img.loadSize
  bootblock := fileBlock img
  selectionCrit := crit

theorem readEntry_entryBytes {img : ElToritoBootImage} {entry : Nat}
    (h : Holds buf entry (entryBytes img)) (idString : List.Vector UInt8 28)
    (crit : List.Vector UInt8 20) :
    readEntry buf entry img.platformId idString crit =
      { rowOf img crit with idString := idString } := by
  simp only [entryBytes, sectionEntry, holds_append, List.length_append, length_toLsb,
    List.length_cons, List.length_nil, holds_cons, holds_nil, and_true] at h
  obtain ⟨⟨⟨⟨⟨⟨hind, htype⟩, hseg⟩, hpart, -⟩, hcount⟩, hblock⟩, -⟩ := h
  have hseg' := hseg.ofLsb_slice (by have := img.loadSeg.toNat_lt; omega)
  have hcount' := hcount.ofLsb_slice (by have := img.loadSize.toNat_lt; omega)
  have hblock' := hblock.ofLsb_slice (by have := (fileBlock img).toNat_lt; omega)
  have hflag : (if buf entry = 0 then (0 : UInt8) else 1) = if img.bootable then 1 else 0 := by
    rw [hind]
    cases img.bootable <;> decide
  simp only [readEntry, rowOf, hflag, htype, hpart, hseg', hcount', hblock',
    UInt16.ofNat_toNat, UInt32.ofNat_toNat]

theorem vector_eq {n pos : Nat} {bytes : List.Vector UInt8 n} (h : Holds buf pos bytes.toList) :
    vector buf pos n = bytes := by
  apply Subtype.ext
  exact h.slice_of_length bytes.2

/-- The row of a section entry. -/
abbrev sectionRow (img : ElToritoBootImage) : BootRow := rowOf img img.selectionCrit

theorem readSectionEntry_entryBytes {img : ElToritoBootImage} {sh rx : Nat}
    (h : Holds buf rx (entryBytes img)) (hplat : buf (sh + 1) = img.platformId)
    (hid : vector buf (sh + 4) 28 = img.idString) :
    readSectionEntry buf sh rx = sectionRow img := by
  have hcrit : Holds buf (rx + 12) img.selectionCrit.toList := by
    have hparts := h
    simp only [entryBytes, sectionEntry, holds_append, List.length_append, length_toLsb,
      List.length_cons, List.length_nil] at hparts
    exact hparts.2
  rw [readSectionEntry, hplat, hid, vector_eq hcrit, readEntry_entryBytes h]
  rfl

theorem holds_writeSectionHeader {sh n : Nat} {img : ElToritoBootImage} {final : Bool}
    (h : Holds buf sh (writeSectionHeader img final n)) (hn : n < 256) :
    buf sh &&& 0xfe = 0x90 ∧ decide (buf sh &&& 1 = 1) = final ∧ buf (sh + 1) = img.platformId ∧
      (buf (sh + 2)).toNat = n ∧ vector buf (sh + 4) 28 = img.idString := by
  simp only [writeSectionHeader, toLsb, holds_append, List.length_append, List.length_cons,
    List.length_nil, holds_cons, holds_nil, and_true] at h
  obtain ⟨⟨⟨hind, hplat⟩, hlow, -⟩, hid⟩ := h
  refine ⟨?_, ?_, hplat, ?_, vector_eq hid⟩
  · rw [hind]
    cases final <;> decide
  · rw [hind]
    cases final <;> decide
  · rw [hlow]
    exact UInt8.toNat_ofNat_of_lt hn

/-- The data after more rows have been found in so many bytes. -/
def ImageFsData.found (data : ImageFsData) (rows : List BootRow) (bytes : Nat) : ImageFsData :=
  { data with bootimgs := data.bootimgs ++ rows, catsize := data.catsize + bytes }

theorem ImageFsData.found_found (data : ImageFsData) (rows more : List BootRow) (m n : Nat) :
    (data.found rows m).found more n = data.found (rows ++ more) (m + n) := by
  simp [found, Nat.add_assoc]

@[simp] theorem ImageFsData.found_bootimgs (data : ImageFsData) (rows : List BootRow) (n : Nat) :
    (data.found rows n).bootimgs = data.bootimgs ++ rows := rfl

/-- A section which does not exceed the array gets read to its end. -/
theorem readSection_entries {sh : Nat} {group : List ElToritoBootImage}
    (hplat : ∀ a ∈ group, buf (sh + 1) = a.platformId)
    (hid : ∀ a ∈ group, vector buf (sh + 4) 28 = a.idString) {rx : Nat}
    (h : Holds buf (rx + 32) (group.map entryBytes).flatten) (data : ImageFsData)
    (hfew : data.bootimgs.length + group.length ≤ maxBootImages) :
    readSection buf sh group.length rx data =
      (rx + 32 * group.length, data.found (group.map sectionRow) (32 * group.length), false) := by
  induction group generalizing rx data with
  | nil => simp [readSection, ImageFsData.found]
  | cons a rest ih =>
    simp only [List.map_cons, List.flatten_cons, holds_append, length_entryBytes] at h
    simp only [List.length_cons] at hfew
    have hrow := readSectionEntry_entryBytes h.1 (hplat a List.mem_cons_self)
      (hid a List.mem_cons_self)
    have hroom : ¬ maxBootImages ≤ data.bootimgs.length := by omega
    have hstep : readSection buf sh (rest.length + 1) rx data =
        readSection buf sh rest.length (rx + 32) (data.found [sectionRow a] 32) := by
      simp only [readSection, hroom, if_false, hrow, ImageFsData.found]
    have hrest := ih (fun b hb => hplat b (List.mem_cons_of_mem _ hb))
      (fun b hb => hid b (List.mem_cons_of_mem _ hb)) h.2 (data.found [sectionRow a] 32)
      (by simp only [ImageFsData.found_bootimgs, List.length_append, List.length_singleton]; omega)
    rw [List.length_cons, hstep, hrest, ImageFsData.found_found]
    simp only [List.singleton_append, List.map_cons, Nat.mul_add, Nat.mul_one, Nat.add_assoc,
      Nat.add_comm 32]

variable {t : Ecma119Image}

theorem sameSection_companions (img : ElToritoBootImage) (rest : List ElToritoBootImage) :
    ∀ a ∈ img :: companions img rest,
      img.platformId = a.platformId ∧ img.idString = a.idString := by
  intro a ha
  rcases List.mem_cons.mp ha with rfl | hlater
  · exact ⟨rfl, rfl⟩
  · simpa [sameSection] using List.mem_takeWhile_imp hlater

/-- One turn of the loop over the section headers, at a section as it gets written. -/
theorem readSections_turn {img : ElToritoBootImage} {final : Bool} {group : List ElToritoBootImage}
    (hsame : ∀ a ∈ group, img.platformId = a.platformId ∧ img.idString = a.idString)
    {rx turns : Nat} (hhead : Holds buf rx (writeSectionHeader img final group.length))
    (hentries : Holds buf (rx + 32) (group.map entryBytes).flatten) (data : ImageFsData)
    (hfew : data.bootimgs.length + group.length ≤ maxBootImages) :
    readSections buf (turns + 1) rx false data =
      readSections buf turns (rx + (32 + 32 * group.length)) final
        (data.found (group.map sectionRow) (32 + 32 * group.length)) := by
  have hsmall : group.length < 256 := by
    simp only [maxBootImages] at hfew
    omega
  obtain ⟨hind, hfinal, hplat, hnum, hid⟩ := holds_writeSectionHeader hhead hsmall
  have hfew' : (data.found [] 32).bootimgs.length + group.length ≤ maxBootImages := by
    simpa using hfew
  have hsection := readSection_entries (fun a ha => hplat.trans (hsame a ha).1)
    (fun a ha => hid.trans (hsame a ha).2) hentries (data.found [] 32) hfew'
  have hheader : { data with catsize := data.catsize + 32 } = data.found [] 32 := by
    simp [ImageFsData.found]
  have hnext : rx + 32 * group.length + 32 = rx + (32 + 32 * group.length) := by omega
  simp only [readSections, hind, true_and, if_true, hheader, hnum, hsection, hfinal,
    ImageFsData.found_found, List.nil_append, hnext]

/-- The sections from the one of boot image `i` on get parsed to the rows of the images
from `i` on. The mark at the last header ends the loop. -/
theorem readSections_written (hfiles : FilesInside t) (left i : Nat)
    (hleft : t.catalog.bootimages.length - i ≤ left) (hi : i < t.catalog.bootimages.length)
    {bytes : List UInt8} (hbytes : writeSections t left i = .ok bytes) {rx turns : Nat}
    (h : Holds buf rx bytes) (data : ImageFsData) (hdata : data.bootimgs.length = i)
    (hturns : t.catalog.bootimages.length - i < turns) :
    readSections buf turns rx false data =
      some (data.found ((t.catalog.bootimages.drop i).map sectionRow) bytes.length) := by
  induction left generalizing i bytes rx turns data with
  | zero => omega
  | succ left ih =>
    cases hdrop : t.catalog.bootimages.drop i with
    | nil =>
      have := List.drop_eq_nil_iff.mp hdrop
      omega
    | cons img rest =>
      have hmax := t.catalog.bootimages_le
      have hle := length_companions_le img rest
      have hlen := congrArg List.length hdrop
      have hnext := drop_companions hdrop
      have hleftover := congrArg List.length hnext
      have hsplit : companions img rest ++ rest.dropWhile (sameSection img) = rest :=
        List.takeWhile_append_dropWhile
      simp only [List.length_drop, List.length_cons] at hlen hleftover
      obtain ⟨more, hmore, -⟩ :=
        writeSections_ok hfiles left (i + (1 + (companions img rest).length)) (by omega)
      rw [writeSections_turn hfiles hdrop hmore] at hbytes
      obtain rfl := Except.ok.inj hbytes
      have hnum : 1 + (companions img rest).length = (img :: companions img rest).length := by
        rw [List.length_cons, Nat.add_comm]
      rw [hnum] at h hmore hnext hleftover ⊢
      simp only [holds_append, length_writeSectionHeader, List.length_append,
        length_flatten_entryBytes] at h
      obtain ⟨⟨hhead, hentries⟩, hrest⟩ := h
      obtain ⟨turns, rfl⟩ : ∃ k, turns = k + 1 := ⟨turns - 1, by omega⟩
      rw [readSections_turn (sameSection_companions img rest) hhead hentries data (by omega)]
      by_cases hlast : rest.dropWhile (sameSection img) = []
      · -- no images are left, and the header tells so
        rw [hlast, List.length_nil] at hleftover
        have hempty : more = [] := by
          cases left with
          | zero => exact (Except.ok.inj hmore).symm
          | succ left =>
            rw [writeSections, List.drop_eq_nil_of_le (by omega)] at hmore
            exact (Except.ok.inj hmore).symm
        obtain ⟨turns, rfl⟩ : ∃ k, turns = k + 1 := ⟨turns - 1, by omega⟩
        rw [hlast, List.append_nil] at hsplit
        simp only [readSections, hlast, decide_true, Bool.true_eq_false, and_false, if_false,
          hempty, hsplit, List.length_append, length_writeSectionHeader,
          length_flatten_entryBytes, List.length_nil, Nat.add_zero]
      · have hmany : 0 < (rest.dropWhile (sameSection img)).length := List.length_pos_iff.mpr hlast
        simp only [hlast, decide_false]
        rw [ih _ (by omega) (by omega) hmore hrest _ (by simp [hdata]) (by omega),
          ImageFsData.found_found, hnext]
        simp only [List.length_append, length_writeSectionHeader, length_flatten_entryBytes,
          ← List.map_append, List.cons_append, hsplit]

end Reading

section RoundTrip

variable {t : Ecma119Image} {first : ElToritoBootImage} {rest : List ElToritoBootImage}

theorem catalogWritten_ok (hfiles : FilesInside t) (hboots : t.catalog.bootimages = first :: rest) :
    ∃ sections, writeSections t (rest.length + 1) 1 = .ok sections ∧
      sections.length ≤ 64 * rest.length ∧
      catalogWritten t = .ok (writeValidationEntry first.platformId first.idString.toList ++
        entryBytes first ++ sections) := by
  have hlen : t.catalog.bootimages.length = rest.length + 1 := by rw [hboots, List.length_cons]
  obtain ⟨sections, hok, hbound⟩ := writeSections_ok hfiles (rest.length + 1) 1 (by omega)
  have hentry := writeSectionEntry_file hfiles (hboots ▸ List.mem_cons_self : first ∈ _)
  refine ⟨sections, hok, by omega, ?_⟩
  simp only [catalogWritten, hboots, List.length_cons, hentry, hok, bind, Except.bind, pure,
    Except.pure]

theorem catalogOpen_ok {written : List UInt8} (hwritten : catalogWritten t = .ok written) :
    catalogOpen t = .ok (written ++ List.replicate (blockSize - written.length) 0) := by
  simp only [catalogOpen, hwritten, bind, Except.bind, pure, Except.pure]

/-- The catalog fits into its block, whatever its boot images are. -/
theorem length_catalogOpen (hfiles : FilesInside t) :
    ∃ bytes, catalogOpen t = .ok bytes ∧ bytes.length = blockSize := by
  obtain ⟨first, rest, hboots⟩ := List.exists_cons_of_length_pos t.catalog.bootimages_pos
  obtain ⟨sections, -, hbound, hwritten⟩ := catalogWritten_ok hfiles hboots
  have hmax := t.catalog.bootimages_le
  rw [hboots, List.length_cons, maxBootImages] at hmax
  refine ⟨_, catalogOpen_ok hwritten, ?_⟩
  simp only [List.length_append, length_writeValidationEntry, length_entryBytes,
    List.length_replicate, blockSize]
  omega

/-- What of the id string gets into the Validation Entry. -/
def shortId (img : ElToritoBootImage) : List.Vector UInt8 24 :=
  ⟨img.idString.toList.take 24, by simp⟩

/-- The row of the Default Entry. -/
def defaultRow (img : ElToritoBootImage) : BootRow :=
  { rowOf img (zeros 20) with idString := padIdString (shortId img) }

theorem readDefaultEntry_written {buf : Buffer} {img : ElToritoBootImage}
    (hve : Holds buf 0 (writeValidationEntry img.platformId img.idString.toList))
    (hentry : Holds buf 32 (entryBytes img)) :
    buf 0 = 1 ∧ buf 30 = 0x55 ∧ buf 31 = 0xAA ∧ readDefaultEntry buf = defaultRow img := by
  simp only [writeValidationEntry, validationEntry, holds_append, List.length_append,
    List.length_cons, List.length_nil, List.length_take, List.Vector.toList_length, length_toLsb,
    holds_cons, holds_nil, and_true] at hve
  obtain ⟨⟨⟨⟨hid, hplat, -⟩, hstring⟩, -⟩, hkey⟩ := hve
  refine ⟨hid, hkey.1, hkey.2, ?_⟩
  have hshort : vector buf 4 24 = shortId img := vector_eq hstring
  rw [readDefaultEntry, hplat, hshort, readEntry_entryBytes hentry, defaultRow]

/-- A catalog of up to one block is loaded by one call of `read_block`. -/
theorem readCatcontent_one {readBlock : Nat → Except Int Buffer} {block catsize : Nat}
    {buf : Buffer} (hread : readBlock block = .ok buf) (hpos : 0 < catsize)
    (hle : catsize ≤ blockSize) : readCatcontent readBlock block catsize = .ok [buf] := by
  have hblocks : (if catsize % blockSize = 0 then catsize
      else catsize + (blockSize - catsize % blockSize)) / blockSize = 1 := by
    split
    · simp only [blockSize] at *
      omega
    · simp only [blockSize] at *
      omega
  rw [readCatcontent, hblocks]
  show [0].mapM (fun i => readBlock (block + i)) = _
  rw [List.mapM_cons, Nat.add_zero, hread]
  rfl

/-- The parser finds the boot images of the writer. -/
theorem readElToritoBootCatalog_written (hfiles : FilesInside t)
    (hboots : t.catalog.bootimages = first :: rest) {bytes : List UInt8}
    (hbytes : catalogOpen t = .ok bytes) {readBlock : Nat → Except Int Buffer} {block : Nat}
    {buf : Buffer} (hread : readBlock block = .ok buf) (hbuf : Holds buf 0 bytes) :
    ∃ catsize, readElToritoBootCatalog readBlock block =
      .ok (some ⟨defaultRow first :: rest.map sectionRow, catsize, [buf]⟩) := by
  obtain ⟨sections, hsections, hbound, hwritten⟩ := catalogWritten_ok hfiles hboots
  have hlen : t.catalog.bootimages.length = rest.length + 1 := by rw [hboots, List.length_cons]
  have hmax := t.catalog.bootimages_le
  rw [hlen, maxBootImages] at hmax
  obtain rfl := Except.ok.inj ((catalogOpen_ok hwritten).symm.trans hbytes)
  simp only [holds_append, List.length_append, length_writeValidationEntry, length_entryBytes,
    Nat.zero_add, Nat.reduceAdd] at hbuf
  obtain ⟨⟨⟨hve, hentry⟩, hsecs⟩, hzeros⟩ := hbuf
  obtain ⟨hid, hkey1, hkey2, hdefault⟩ := readDefaultEntry_written hve hentry
  have hrows : readSections buf sectionTurns 64 false ⟨[defaultRow first], 64, []⟩ =
      some ⟨defaultRow first :: rest.map sectionRow, 64 + sections.length, []⟩ := by
    cases hmore : rest with
    | nil =>
      -- the byte after the Default Entry is still zero
      subst hmore
      have hempty : sections = [] := by
        rw [List.length_nil, Nat.mul_zero, Nat.le_zero] at hbound
        exact List.length_eq_zero_iff.mp hbound
      subst hempty
      have hstop : buf 64 = 0 := hzeros 0 0 rfl
      rw [sectionTurns, readSections, hstop, if_neg (by decide)]
      rfl
    | cons second others =>
      rw [← hmore]
      have hturns : t.catalog.bootimages.length - 1 < sectionTurns := by
        simp only [hlen, sectionTurns]
        omega
      have hparsed := readSections_written hfiles (rest.length + 1) 1 (by omega)
        (by rw [hlen, hmore, List.length_cons]; omega) hsections hsecs
        ⟨[defaultRow first], 64, []⟩ rfl hturns
      rw [hparsed, hboots]
      rfl
  refine ⟨64 + sections.length, ?_⟩
  have hsmall : min (64 + sections.length) (10 * blockSize) = 64 + sections.length := by
    simp only [blockSize]
    omega
  have hcontent := readCatcontent_one hread (by omega : 0 < 64 + sections.length)
    (by simp only [blockSize]; omega)
  simp [readElToritoBootCatalog, hread, hid, hkey1, hkey2, hdefault, hrows, hsmall, hcontent, bind,
    Except.bind, pure, Except.pure]

/-- The members of a boot image which have a place in each entry. The first image has got
only 24 bytes of its id string into the catalog. -/
structure SameMembers (idLen : Nat) (orig imported : ElToritoBootImage) : Prop where
  bootable : imported.bootable = orig.bootable
  platformId : imported.platformId = orig.platformId
  idString : imported.idString.toList.take idLen = orig.idString.toList.take idLen
  type : imported.type = orig.type
  partitionType : imported.partitionType = orig.partitionType
  loadSeg : imported.loadSeg = orig.loadSeg
  loadSize : imported.loadSize = orig.loadSize
  block : imported.appendedStart = fileBlock orig

/-- The catalog of catalog_open() has the size of one block. When it gets loaded, then
there are as many imported boot images as in the catalog, in the same sequence. `kept`
tells what of the boot images survives. -/
def Loaded (t : Ecma119Image)
    (kept : (i : Nat) → (orig imported : ElToritoBootImage) → BootRow → Prop) : Prop :=
  ∃ bytes, catalogOpen t = .ok bytes ∧ bytes.length = blockSize ∧
    ∀ (readBlock : Nat → Except Int Buffer) (block : Nat) (buf : Buffer),
      readBlock block = .ok buf → Holds buf 0 bytes →
      ∃ data, readElToritoBootCatalog readBlock block = .ok (some data) ∧
        (importCatalog data).length = t.catalog.bootimages.length ∧
        ∀ i orig imported row, t.catalog.bootimages[i]? = some orig →
          (importCatalog data)[i]? = some imported → data.bootimgs[i]? = some row →
          kept i orig imported row

def idLen (i : Nat) : Nat := if i = 0 then 24 else 28

/-- All members survive, and the selection criterion, too. -/
def RoundTrip (t : Ecma119Image) : Prop :=
  Loaded t fun i orig imported _ =>
    SameMembers (idLen i) orig imported ∧ imported.selectionCrit = orig.selectionCrit

/-- The rows of the parser for the boot images of the catalog. -/
def rowAt (i : Nat) (img : ElToritoBootImage) : BootRow :=
  if i = 0 then defaultRow img else sectionRow img

theorem rows_getElem (i : Nat) :
    (defaultRow first :: rest.map sectionRow)[i]? = (first :: rest)[i]?.map (rowAt i) := by
  cases i with
  | zero => rfl
  | succ i =>
    have hrow : rowAt (i + 1) = sectionRow := funext fun img => if_neg (Nat.succ_ne_zero i)
    simp [hrow]

/-- What survives gets decided for each boot image by itself. None of them is imported
with its selection criterion. -/
theorem loaded_iff (hfiles : FilesInside t)
    {kept : (i : Nat) → (orig imported : ElToritoBootImage) → BootRow → Prop} :
    Loaded t kept ↔ ∀ i orig, t.catalog.bootimages[i]? = some orig →
      kept i orig (importedBootImage (zeros 20) (rowAt i orig)) (rowAt i orig) := by
  obtain ⟨first, rest, hboots⟩ := List.exists_cons_of_length_pos t.catalog.bootimages_pos
  obtain ⟨bytes, hbytes, hlen⟩ := length_catalogOpen hfiles
  have himport : ∀ catsize content,
      importCatalog ⟨defaultRow first :: rest.map sectionRow, catsize, content⟩ =
        (defaultRow first :: rest.map sectionRow).map (importedBootImage (zeros 20)) :=
    fun _ _ => rfl
  constructor
  · rintro ⟨bytes', hbytes', -, hread⟩ i orig horig
    obtain rfl := Except.ok.inj (hbytes.symm.trans hbytes')
    let buf : Buffer := fun i => bytes.getD i 0
    have hbuf : Holds buf 0 bytes := fun i b hb => by simp [buf, List.getD, hb]
    obtain ⟨data, hdata, -, hkept⟩ := hread (fun _ => .ok buf) 0 buf rfl hbuf
    obtain ⟨catsize, hparsed⟩ :=
      @readElToritoBootCatalog_written t first rest hfiles hboots bytes hbytes
        (fun _ => .ok buf) 0 buf rfl hbuf
    obtain rfl := Option.some.inj (Except.ok.inj (hparsed.symm.trans hdata))
    have hrow : (defaultRow first :: rest.map sectionRow)[i]? = some (rowAt i orig) := by
      rw [rows_getElem, ← hboots, horig, Option.map_some]
    refine hkept i orig _ _ horig ?_ hrow
    rw [himport, List.getElem?_map, hrow, Option.map_some]
  · intro hkept
    refine ⟨bytes, hbytes, hlen, fun readBlock block buf hread hbuf => ?_⟩
    obtain ⟨catsize, hparsed⟩ := readElToritoBootCatalog_written hfiles hboots hbytes hread hbuf
    refine ⟨_, hparsed, ?_, ?_⟩
    · rw [himport, hboots]
      simp
    · intro i orig imported row horig himported hrow
      rw [himport, List.getElem?_map] at himported
      have hexpected : (defaultRow first :: rest.map sectionRow)[i]? = some (rowAt i orig) := by
        rw [rows_getElem, ← hboots, horig, Option.map_some]
      obtain rfl := Option.some.inj (hexpected.symm.trans hrow)
      rw [hexpected] at himported
      obtain rfl := Option.some.inj himported
      exact hkept i orig horig

theorem bootFlag_bootable (img : ElToritoBootImage) (crit : List.Vector UInt8 20) :
    decide ((rowOf img crit).bootFlag &&& 1 = 1) = img.bootable := by
  cases hboot : img.bootable with
  | false => simp [rowOf, hboot]
  | true => simp [rowOf, hboot]

theorem sameMembers_row (i : Nat) (img : ElToritoBootImage) (crit : List.Vector UInt8 20) :
    SameMembers (idLen i) img (importedBootImage crit (rowAt i img)) := by
  cases i with
  | zero =>
    constructor
    case bootable => exact bootFlag_bootable img (zeros 20)
    case idString =>
      have hshort : (shortId img).toList = img.idString.toList.take 24 := rfl
      show ((shortId img).toList ++ List.replicate 4 0).take 24 = img.idString.toList.take 24
      rw [List.take_append_of_le_length (by simp), hshort, List.take_take, Nat.min_self]
    all_goals rfl
  | succ i =>
    constructor
    case bootable => exact bootFlag_bootable img img.selectionCrit
    all_goals rfl

/-- All members but the selection criteria survive. The first boot image has no criterion,
and gets one of zeros. The parser finds the criteria of the others. -/
theorem catalog_members_survive (hfiles : FilesInside t) :
    Loaded t fun i orig imported row =>
      SameMembers (idLen i) orig imported ∧ (i = 0 → imported.selectionCrit = zeros 20) ∧
        (0 < i → row.selectionCrit = orig.selectionCrit) := by
  apply (loaded_iff hfiles).mpr
  intro i orig _
  refine ⟨sameMembers_row i orig (zeros 20), fun _ => rfl, fun hi => ?_⟩
  rw [rowAt, if_neg (Nat.pos_iff_ne_zero.mp hi)]
  rfl

/-- The whole boot images survive if and only if none of them has a selection criterion. -/
theorem roundTrip_iff (hfiles : FilesInside t) :
    RoundTrip t ↔ ∀ img ∈ t.catalog.bootimages, img.selectionCrit = zeros 20 := by
  rw [RoundTrip, loaded_iff hfiles]
  constructor
  · intro hkept img himg
    obtain ⟨i, hi⟩ := List.getElem?_of_mem himg
    exact (hkept i img hi).2.symm
  · intro hzero i orig horig
    exact ⟨sameMembers_row i orig (zeros 20), (hzero orig (List.mem_of_getElem? horig)).symm⟩

/-- A BIOS boot image and an EFI boot image with the given selection criteria. -/
def biosAndEfi (crit crit' : List.Vector UInt8 20) : Ecma119Image where
  catalog :=
    { bootimages :=
        [⟨some ⟨40, 2048⟩, none, 0, 0, true, 0, 0, 0, 4, false, 0, zeros 28, crit⟩,
          ⟨some ⟨41, 4096⟩, none, 0, 0, true, 0, 0, 0, 8, false, 0xef, zeros 28, crit'⟩]
      bootimages_pos := by simp
      bootimages_le := by simp [maxBootImages] }
  appendable := false
  msBlock := 0
  totalSize := 200000
  effPartitionOffset := 0
  appendedPartStart := fun _ => 0
  appendedPartSize := fun _ => 0

theorem filesInside_biosAndEfi (crit crit' : List.Vector UInt8 20) :
    FilesInside (biosAndEfi crit crit') := by
  intro img himg
  rcases List.mem_cons.mp himg with rfl | hsecond
  · exact ⟨rfl, rfl, rfl⟩
  · obtain rfl := List.mem_singleton.mp hsecond
    exact ⟨rfl, rfl, rfl⟩

theorem members_survive_biosAndEfi :
    Loaded (biosAndEfi (List.Vector.replicate 20 1) (List.Vector.replicate 20 2))
      fun i orig imported row =>
      SameMembers (idLen i) orig imported ∧ (i = 0 → imported.selectionCrit = zeros 20) ∧
        (0 < i → row.selectionCrit = orig.selectionCrit) :=
  catalog_members_survive (filesInside_biosAndEfi _ _)

/-- A criterion of the Default Entry does not get imported. -/
theorem first_criterion_ignored :
    ¬ RoundTrip (biosAndEfi (List.Vector.replicate 20 1) (zeros 20)) := by
  intro h
  have hcrit := (roundTrip_iff (filesInside_biosAndEfi _ _)).mp h _ List.mem_cons_self
  exact absurd hcrit (by decide)

end RoundTrip

end ElTorito
