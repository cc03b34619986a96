import Libisofs.Lib.Layout
import Libisofs.Lib.Qsort
import Libisofs.StreamCmp
import Mathlib.Data.List.Chain
import Mathlib.Algebra.Order.Ring.Int

/-!
# File content layout

The writer for data file content of filesrc.c, with the enumeration of file sources of
ecma119.c and those steps of eltorito_writer_create() which change a file source.
Allocation and the writing of blocks succeed, no message aborts the run, and the size
of a stream does not change.
-/

namespace FileSrc

open ConsecutiveLayout CLibrary
open StreamCmp (IsoFileSection)

/-- BLOCK_SIZE, MAX_ISO_FILE_SECTION_SIZE and ISO_EXTENT_SIZE. -/
def blockSize : Nat := 2048
def maxIsoFileSectionSize : Nat := 0xffffffff
def isoExtentSize : Nat := 0xfffff800

/-- ISO_EXTENT_SIZE / BLOCK_SIZE. -/
def extentBlocks : Nat := 0x1fffff

def divUp (n d : Nat) : Nat := (n + d - 1) / d

/-- Storing into an uint32_t. -/
def word (n : Nat) : Nat := n % 2 ^ 32

/-- What of an IsoFile matters here; the old sections are those of the image from
which it was loaded. -/
structure IsoFile where
  size : Nat
  fromOldSession : Bool
  oldSections : List IsoFileSection
  oldSections_ne : oldSections ≠ []
  sortWeight : Int32

/-- `size` is the answer of iso_file_src_get_size(). -/
structure IsoFileSrc where
  addr : Nat
  size : Nat
  sections : List IsoFileSection
  sections_ne : sections ≠ []
  noWrite : Bool
  sortWeight : Int32

namespace IsoFileSrc

def nblocks (f : IsoFileSrc) : Nat := divUp f.size blockSize

/-- sections[0].block -/
def firstBlock (f : IsoFileSrc) : Nat := (f.sections.head f.sections_ne).block

end IsoFileSrc

def sectionCount (size : Nat) : Nat :=
  if size > maxIsoFileSectionSize then divUp (size - maxIsoFileSectionSize) isoExtentSize + 1
  else 1

theorem sectionCount_pos (size : Nat) : 0 < sectionCount size := by
  rw [sectionCount]
  split <;> omega

def isoFileSrcCreate (appendable : Bool) (addr : Nat) (file : IsoFile) : IsoFileSrc where
  addr := addr
  size := file.size
  sections :=
    if file.fromOldSession && appendable then file.oldSections
    else List.replicate (sectionCount file.size) ⟨0, 0⟩
  sections_ne := by
    split
    · exact file.oldSections_ne
    · have := sectionCount_pos file.size
      simp only [ne_eq, List.replicate_eq_nil_iff]
      omega
  noWrite := file.fromOldSession && appendable
  sortWeight := file.sortWeight

def setFirstBlock (block : Nat) : List IsoFileSection → List IsoFileSection
  | [] => []
  | s :: rest => { s with block := block } :: rest

theorem setFirstBlock_ne {block : Nat} {sections : List IsoFileSection} (hne : sections ≠ []) :
    setFirstBlock block sections ≠ [] := by
  cases sections with
  | nil => exact absurd rfl hne
  | cons s rest => simp [setFirstBlock]

/-- "For patching an image, it needs to be copied always": isolinux_options & 0x01 in
eltorito_writer_create(). -/
def claimForPatching (src : IsoFileSrc) : IsoFileSrc :=
  { src with noWrite := false }

/-- An EFI boot image which becomes a partition outside of the file content. -/
def claimAsPartition (src : IsoFileSrc) : IsoFileSrc :=
  { src with
    sections := setFirstBlock 0xfffffffe src.sections
    sections_ne := setFirstBlock_ne src.sections_ne }

/-- How a file source comes about before the layout is computed. -/
inductive Registered (appendable : Bool) : IsoFileSrc → Prop where
  | created (addr : Nat) (file : IsoFile) :
      Registered appendable (isoFileSrcCreate appendable addr file)
  | patched {src : IsoFileSrc} :
      Registered appendable src → Registered appendable (claimForPatching src)
  | partition {src : IsoFileSrc} :
      Registered appendable src → src.noWrite = false →
      Registered appendable (claimAsPartition src)

/-- The write options and the tree of file sources. `visits` are the file nodes of the
Ecma119 tree in its order and then the list of hidden files, each with its source;
`curblock` is the block address at which the content will begin, which the padding
writer keeps from being lower than 32. -/
structure Ecma119Image where
  appendable : Bool
  oldEmpty : Bool
  sortFiles : Bool
  files : List IsoFileSrc
  files_registered : ∀ f ∈ files, Registered appendable f
  files_distinct : (files.map IsoFileSrc.addr).Nodup
  visits : List IsoFileSrc
  visits_files : ∀ f ∈ visits, f ∈ files
  terminatorBlock : Nat
  curblock : Nat
  curblock_ge : 32 ≤ curblock
  curblock_lt : curblock < 2 ^ 32
  terminator_le : terminatorBlock ≤ curblock

/-- All empty files point to the terminator of the volume descriptors with old_empty,
else to the shared block at the start of the content. -/
def Ecma119Image.emptyFileBlock (t : Ecma119Image) : Nat :=
  if t.oldEmpty then t.terminatorBlock else t.curblock

def shallBeWritten (f : IsoFileSrc) : Bool := !f.noWrite

/-- inc_item of filesrc_writer_pre_compute(). -/
def includeItem (t : Ecma119Image) (f : IsoFileSrc) : Bool :=
  if t.appendable then shallBeWritten f else true

/-- ecma119_filesrc_array() and hidden_filesrc_array(): each source is taken once. -/
def takeSources (incItem : IsoFileSrc → Bool) : List Nat → List IsoFileSrc → List IsoFileSrc
  | _, [] => []
  | taken, f :: rest =>
    if incItem f && !taken.contains f.addr then
      f :: takeSources incItem (f.addr :: taken) rest
    else takeSources incItem taken rest

def isoEcma119ToFilesrcArray (t : Ecma119Image) : List IsoFileSrc :=
  takeSources (includeItem t) [] t.visits

def shallBeWrittenIfNotTaken (array : List IsoFileSrc) (f : IsoFileSrc) : Bool :=
  shallBeWritten f && !(array.map IsoFileSrc.addr).contains f.addr

/-- higher weighted first. The difference is one of type int. -/
def cmpByWeight (f g : IsoFileSrc) : Int := (g.sortWeight - f.sortWeight).toInt

/-- The array of file sources, from the Ecma119 tree, or from the tree of file sources
if the former omits some. -/
def filelist (qsort : Qsort) (t : Ecma119Image) : List IsoFileSrc :=
  let array := isoEcma119ToFilesrcArray t
  let array :=
    if 0 < t.files.countP (shallBeWrittenIfNotTaken array) then
      t.files.filter (includeItem t)
    else array
  if t.sortFiles then qsort.run cmpByWeight array else array

/-- The final section, `sectionSize` being what is left for it. -/
def finalSection (filesrcBlocks extent : Nat) (sectionSize : Int) : IsoFileSection where
  block :=
    if sectionSize ≤ 0 then 0xffffffff else word (filesrcBlocks + extent * extentBlocks)
  size := (sectionSize % 2 ^ 32).toNat

/-- The loop over the sections of one file, with the number of sections still to do. -/
def fillSections (filesrcBlocks extent : Nat) (sectionSize : Int) : Nat → List IsoFileSection
  | 0 => []
  | 1 => [finalSection filesrcBlocks extent sectionSize]
  | n + 2 =>
    ⟨word (filesrcBlocks + extent * extentBlocks), isoExtentSize⟩ ::
      fillSections filesrcBlocks (extent + 1) (sectionSize - isoExtentSize) (n + 1)

theorem fillSections_length (filesrcBlocks extent : Nat) (sectionSize : Int) (n : Nat) :
    (fillSections filesrcBlocks extent sectionSize n).length = n := by
  induction n generalizing extent sectionSize with
  | zero => rfl
  | succ n ih =>
    cases n with
    | zero => rfl
    | succ n => rw [fillSections, List.length_cons, ih]

theorem fillSections_ne (filesrcBlocks extent : Nat) (sectionSize : Int) {n : Nat} (hn : 0 < n) :
    fillSections filesrcBlocks extent sectionSize n ≠ [] := by
  rw [← List.length_pos_iff, fillSections_length]
  exact hn

def isExternal (f : IsoFileSrc) : Bool := !f.noWrite && f.firstBlock == 0xfffffffe

/-- One turn of the loop in filesrc_writer_pre_compute(). -/
def placeFile (filesrcBlocks : Nat) (f : IsoFileSrc) : IsoFileSrc :=
  let sections := fillSections filesrcBlocks 0 f.size f.sections.length
  have sections_ne : sections ≠ [] :=
    fillSections_ne _ _ _ (List.length_pos_iff.mpr f.sections_ne)
  if isExternal f then
    { f with
      sections := setFirstBlock 0xfffffffe sections
      sections_ne := setFirstBlock_ne sections_ne
      noWrite := true }
  else { f with sections := sections, sections_ne := sections_ne }

/-- The contribution of a file to t->filesrc_blocks. -/
def countedBlocks (f : IsoFileSrc) : Nat := if isExternal f then 0 else f.nblocks

def preComputeLoop (filesrcBlocks : Nat) : List IsoFileSrc → List IsoFileSrc × Nat
  | [] => ([], filesrcBlocks)
  | f :: rest =>
    let tail := preComputeLoop (word (filesrcBlocks + countedBlocks f)) rest
    (placeFile filesrcBlocks f :: tail.1, tail.2)

/-- The single zeroed block for all files which have no block address. -/
def sharedBlocks (t : Ecma119Image) : Nat := if t.oldEmpty then 0 else 1

/-- The list writer->data and t->filesrc_blocks. -/
def filesrcWriterPreCompute (qsort : Qsort) (t : Ecma119Image) : List IsoFileSrc × Nat :=
  preComputeLoop (sharedBlocks t) (filelist qsort t)

def absoluteSection (t : Ecma119Image) (s : IsoFileSection) : IsoFileSection :=
  { s with
    block := if s.block = 0xffffffff then t.emptyFileBlock else word (s.block + t.curblock) }

def absoluteFile (t : Ecma119Image) (f : IsoFileSrc) : IsoFileSrc :=
  if f.noWrite then f
  else
    { f with
      sections := f.sections.map (absoluteSection t)
      sections_ne := by simpa using f.sections_ne }

/-- The list writer->data after filesrc_writer_compute_data_blocks(). -/
def filesrcWriterComputeDataBlocks (qsort : Qsort) (t : Ecma119Image) : List IsoFileSrc :=
  (filesrcWriterPreCompute qsort t).1.map (absoluteFile t)

/-- A block in the output: the shared one, one with content of a file, or one which
stands in for content that could not be read. -/
inductive Block where
  | shared
  | content (addr : Nat) (index : Nat)
  | zeros (addr : Nat)

/-- `readable` blocks are delivered by the stream before the first error, 0 if it
cannot be opened. -/
def isoFilesrcWriteData (readable : IsoFileSrc → Nat) (f : IsoFileSrc) : List Block :=
  (List.range f.nblocks).map fun b =>
    if b < readable f then .content f.addr b else .zeros f.addr

def filesrcWriterWriteData (readable : IsoFileSrc → Nat) (t : Ecma119Image)
    (filelist : List IsoFileSrc) : List Block :=
  List.replicate (sharedBlocks t) .shared ++
    filelist.flatMap fun f => if f.noWrite then [] else isoFilesrcWriteData readable f

/-- Sources whose content goes into the range of the file content. -/
def newlyWritten (f : IsoFileSrc) : Bool := !f.noWrite && !isExternal f

/-- The sections of one written file. -/
structure SectionsOk (f : IsoFileSrc) : Prop where
  contiguous : f.sections.IsChain fun s s' => s'.block = s.block + s.size / blockSize
  sum : (f.sections.map IsoFileSection.size).sum = f.size
  aligned : ∀ s ∈ f.sections.dropLast, s.size % blockSize = 0
  width : ∀ s ∈ f.sections, s.size < 2 ^ 32

/-- The result of the two passes, and what gets written by it. -/
structure LaidOut (qsort : Qsort) (readable : IsoFileSrc → Nat) (t : Ecma119Image) : Prop where
  complete : (((filesrcWriterComputeDataBlocks qsort t).filter shallBeWritten).map
    IsoFileSrc.addr).Perm ((t.files.filter newlyWritten).map IsoFileSrc.addr)
  sections : ∀ f ∈ filesrcWriterComputeDataBlocks qsort t, f.noWrite = false → SectionsOk f
  inside : ∀ f ∈ filesrcWriterComputeDataBlocks qsort t, f.noWrite = false → 0 < f.size →
    t.curblock ≤ f.firstBlock ∧
    f.firstBlock + f.nblocks ≤ t.curblock + (filesrcWriterPreCompute qsort t).2 ∧
    f.firstBlock + f.nblocks ≤ 2 ^ 32
  disjoint : (filesrcWriterComputeDataBlocks qsort t).Pairwise fun f g =>
    f.noWrite = false → g.noWrite = false → 0 < f.size → 0 < g.size →
    f.firstBlock + f.nblocks ≤ g.firstBlock
  count : (filesrcWriterWriteData readable t (filesrcWriterComputeDataBlocks qsort t)).length =
    (filesrcWriterPreCompute qsort t).2
  order : ∀ f ∈ filesrcWriterComputeDataBlocks qsort t, f.noWrite = false → ∀ b < f.nblocks,
    (filesrcWriterWriteData readable t
      (filesrcWriterComputeDataBlocks qsort t))[f.firstBlock - t.curblock + b]? =
    some (if b < readable f then .content f.addr b else .zeros f.addr)

theorem registered_noWrite {f : IsoFileSrc} (registered : Registered false f) :
    f.noWrite = false := by
  induction registered with
  | created addr file => simp [isoFileSrcCreate]
  | patched _ _ => rfl
  | partition _ hwrite _ => exact hwrite

theorem includeItem_eq {t : Ecma119Image} {f : IsoFileSrc} (hmem : f ∈ t.files) :
    includeItem t f = shallBeWritten f := by
  rw [includeItem]
  split
  · rfl
  next happ =>
    have registered := t.files_registered f hmem
    rw [Bool.eq_false_of_not_eq_true happ] at registered
    simp [shallBeWritten, registered_noWrite registered]

/-- What takeSources() takes: wanted sources, not taken before, each once. -/
theorem takeSources_sound {incItem : IsoFileSrc → Bool} {taken : List Nat}
    {visits : List IsoFileSrc} {f : IsoFileSrc} (hmem : f ∈ takeSources incItem taken visits) :
    f ∈ visits ∧ incItem f ∧ f.addr ∉ taken := by
  induction visits generalizing taken with
  | nil => simp [takeSources] at hmem
  | cons g rest ih =>
    rw [takeSources] at hmem
    split at hmem
    next htake =>
      rcases List.mem_cons.mp hmem with rfl | htail
      · simpa using htake
      · obtain ⟨hrest, hinc, htaken⟩ := ih htail
        exact ⟨List.mem_cons_of_mem _ hrest, hinc, fun h => htaken (List.mem_cons_of_mem _ h)⟩
    next =>
      obtain ⟨hrest, hinc, htaken⟩ := ih hmem
      exact ⟨List.mem_cons_of_mem _ hrest, hinc, htaken⟩

theorem takeSources_nodup (incItem : IsoFileSrc → Bool) (taken : List Nat)
    (visits : List IsoFileSrc) :
    ((takeSources incItem taken visits).map IsoFileSrc.addr).Nodup := by
  induction visits generalizing taken with
  | nil => simp [takeSources]
  | cons g rest ih =>
    rw [takeSources]
    split
    · rw [List.map_cons, List.nodup_cons]
      refine ⟨fun hmem => ?_, ih _⟩
      obtain ⟨f, hf, haddr⟩ := List.mem_map.mp hmem
      exact (takeSources_sound hf).2.2 (haddr ▸ List.mem_cons_self)
    · exact ih _

theorem eq_of_addr {t : Ecma119Image} {f g : IsoFileSrc} (hf : f ∈ t.files) (hg : g ∈ t.files)
    (haddr : f.addr = g.addr) : f = g :=
  List.inj_on_of_nodup_map t.files_distinct hf hg haddr

/-- Whichever way the array comes about, it holds exactly the sources to be written. -/
theorem filelist_perm (qsort : Qsort) (t : Ecma119Image) :
    (filelist qsort t).Perm (t.files.filter shallBeWritten) := by
  have hfilter : t.files.filter (includeItem t) = t.files.filter shallBeWritten :=
    List.filter_congr fun f hf => includeItem_eq hf
  have hmembers : ∀ f ∈ isoEcma119ToFilesrcArray t, f ∈ t.files.filter shallBeWritten := by
    intro f hf
    obtain ⟨hvisit, hinc, -⟩ := takeSources_sound hf
    have hmem := t.visits_files f hvisit
    exact List.mem_filter.mpr ⟨hmem, includeItem_eq hmem ▸ hinc⟩
  have harray : (if 0 < t.files.countP (shallBeWrittenIfNotTaken (isoEcma119ToFilesrcArray t))
      then t.files.filter (includeItem t) else isoEcma119ToFilesrcArray t).Perm
      (t.files.filter shallBeWritten) := by
    split
    · rw [hfilter]
    next homitted =>
      refine (List.perm_ext_iff_of_nodup (.of_map _ (takeSources_nodup _ _ _))
        (.filter _ (.of_map _ t.files_distinct))).mpr fun f => ⟨hmembers f, fun hf => ?_⟩
      obtain ⟨hmem, hshall⟩ := List.mem_filter.mp hf
      have hzero := List.countP_eq_zero.mp (Nat.eq_zero_of_not_pos homitted) f hmem
      obtain ⟨g, hg, haddr⟩ : ∃ g ∈ isoEcma119ToFilesrcArray t, g.addr = f.addr := by
        simpa [shallBeWrittenIfNotTaken, hshall] using hzero
      rwa [← eq_of_addr (List.mem_filter.mp (hmembers g hg)).1 hmem haddr]
  rw [filelist]
  split
  · exact (qsort.perm _ _).trans harray
  · exact harray

theorem filelist_noWrite {qsort : Qsort} {t : Ecma119Image} {f : IsoFileSrc}
    (hmem : f ∈ filelist qsort t) : f.noWrite = false := by
  simpa [shallBeWritten] using (List.mem_filter.mp ((filelist_perm qsort t).mem_iff.mp hmem)).2

theorem word_add_word (a b : Nat) : word (word a + b) = word (a + b) := by
  simp only [word, Nat.mod_add_mod]

theorem preComputeLoop_eq (blocks : Nat) (list : List IsoFileSrc) :
    preComputeLoop (word blocks) list =
      ((place countedBlocks blocks list).map fun p => placeFile (word p.2) p.1,
        word (blocks + total countedBlocks list)) := by
  induction list generalizing blocks with
  | nil => simp [preComputeLoop, place]
  | cons f rest ih =>
    simp only [preComputeLoop, word_add_word, ih, place, List.map_cons, total_cons, Nat.add_assoc]

/-- A file of the list at its relative address, after both passes. -/
def laidOutFile (t : Ecma119Image) (p : IsoFileSrc × Nat) : IsoFileSrc :=
  absoluteFile t (placeFile (word p.2) p.1)

def placed (qsort : Qsort) (t : Ecma119Image) : List (IsoFileSrc × Nat) :=
  place countedBlocks (sharedBlocks t) (filelist qsort t)

/-- The blocks of the content, without 32 bit limit. -/
def contentBlocks (qsort : Qsort) (t : Ecma119Image) : Nat :=
  sharedBlocks t + total countedBlocks (filelist qsort t)

theorem word_sharedBlocks (t : Ecma119Image) : word (sharedBlocks t) = sharedBlocks t := by
  rw [sharedBlocks]
  split <;> rfl

theorem preCompute_blocks (qsort : Qsort) (t : Ecma119Image) :
    (filesrcWriterPreCompute qsort t).2 = word (contentBlocks qsort t) := by
  rw [filesrcWriterPreCompute, ← word_sharedBlocks, preComputeLoop_eq]
  rfl

theorem computeDataBlocks_eq (qsort : Qsort) (t : Ecma119Image) :
    filesrcWriterComputeDataBlocks qsort t = (placed qsort t).map (laidOutFile t) := by
  rw [filesrcWriterComputeDataBlocks, filesrcWriterPreCompute, ← word_sharedBlocks,
    preComputeLoop_eq, List.map_map]
  rfl

theorem placeFile_noWrite (blocks : Nat) (f : IsoFileSrc) :
    (placeFile blocks f).noWrite = (f.noWrite || isExternal f) := by
  rw [placeFile]
  split <;> simp_all

theorem absoluteFile_noWrite (t : Ecma119Image) (f : IsoFileSrc) :
    (absoluteFile t f).noWrite = f.noWrite := by
  rw [absoluteFile]
  split <;> rfl

section LaidOutFile

variable (t : Ecma119Image) (p : IsoFileSrc × Nat)

@[simp] theorem laidOutFile_addr : (laidOutFile t p).addr = p.1.addr := by
  simp only [laidOutFile, absoluteFile, placeFile]
  split <;> split <;> rfl

@[simp] theorem laidOutFile_size : (laidOutFile t p).size = p.1.size := by
  simp only [laidOutFile, absoluteFile, placeFile]
  split <;> split <;> rfl

@[simp] theorem laidOutFile_nblocks : (laidOutFile t p).nblocks = p.1.nblocks := by
  simp only [IsoFileSrc.nblocks, laidOutFile_size]

theorem laidOutFile_noWrite : (laidOutFile t p).noWrite = (p.1.noWrite || isExternal p.1) := by
  rw [laidOutFile, absoluteFile_noWrite, placeFile_noWrite]

theorem laidOutFile_sections (hwrite : (laidOutFile t p).noWrite = false) :
    (laidOutFile t p).sections =
      (fillSections (word p.2) 0 p.1.size p.1.sections.length).map (absoluteSection t) := by
  rw [laidOutFile_noWrite, Bool.or_eq_false_iff] at hwrite
  simp [laidOutFile, absoluteFile, placeFile, hwrite]

end LaidOutFile

theorem succ_extents (n : Nat) :
    ((n + 1 : Nat) : Int) * isoExtentSize = n * isoExtentSize + isoExtentSize := by
  rw [Int.natCast_succ, Int.add_mul, Int.one_mul]

theorem fillSections_sum (blocks extent n : Nat) (size : Int) :
    (((fillSections blocks extent size (n + 1)).map IsoFileSection.size).sum : Int) =
      n * isoExtentSize + (size - n * isoExtentSize) % 2 ^ 32 := by
  induction n generalizing extent size with
  | zero =>
    have : 0 ≤ size % 2 ^ 32 := Int.emod_nonneg size (by decide)
    simp only [fillSections, finalSection, List.map_cons, List.map_nil, List.sum_cons, List.sum_nil]
    omega
  | succ n ih =>
    have hsize : size - isoExtentSize - n * isoExtentSize =
        size - (n * isoExtentSize + isoExtentSize) := by omega
    rw [fillSections, List.map_cons, List.sum_cons, Int.natCast_add, ih, succ_extents, hsize]
    show (isoExtentSize : Int) + _ = _
    omega

theorem fillSections_dropLast {blocks extent n : Nat} {size : Int} {s : IsoFileSection}
    (hmem : s ∈ (fillSections blocks extent size n).dropLast) : s.size = isoExtentSize := by
  induction n generalizing extent size with
  | zero => simp [fillSections] at hmem
  | succ n ih =>
    cases n with
    | zero => simp [fillSections] at hmem
    | succ n =>
      have hne : fillSections blocks (extent + 1) (size - isoExtentSize) (n + 1) ≠ [] :=
        fillSections_ne _ _ _ (Nat.succ_pos n)
      rw [fillSections, List.dropLast_cons_of_ne_nil hne] at hmem
      rcases List.mem_cons.mp hmem with rfl | htail
      · rfl
      · exact ih htail

theorem fillSections_width {blocks extent n : Nat} {size : Int} {s : IsoFileSection}
    (hmem : s ∈ fillSections blocks extent size n) : s.size < 2 ^ 32 := by
  induction n generalizing extent size with
  | zero => simp [fillSections] at hmem
  | succ n ih =>
    cases n with
    | zero =>
      obtain rfl := List.mem_singleton.mp hmem
      have : size % 2 ^ 32 < 2 ^ 32 := Int.emod_lt_of_pos size (by decide)
      simp only [finalSection]
      omega
    | succ n =>
      rcases List.mem_cons.mp hmem with rfl | htail
      · simp only [isoExtentSize]
        omega
      · exact ih htail

@[simp] theorem absoluteSection_size (t : Ecma119Image) (s : IsoFileSection) :
    (absoluteSection t s).size = s.size := rfl

theorem map_absoluteSection_size (t : Ecma119Image) (l : List IsoFileSection) :
    (l.map (absoluteSection t)).map IsoFileSection.size = l.map IsoFileSection.size := by
  simp only [List.map_map]
  rfl

/-- A relative address below the mark for empty files gets absolute. -/
theorem absoluteSection_block (t : Ecma119Image) {block size : Nat} (hblock : block < 2 ^ 32 - 1)
    (habs : t.curblock + block < 2 ^ 32) :
    (absoluteSection t ⟨word block, size⟩).block = t.curblock + block := by
  have hword : word block = block := Nat.mod_eq_of_lt (by omega)
  rw [absoluteSection, hword]
  have hne : block ≠ 0xffffffff := by omega
  simp only [hne, if_false, word]
  omega

theorem word_extent (off extent : Nat) :
    word (word off + extent * extentBlocks) = word (off + extent * extentBlocks) :=
  word_add_word _ _

/-- As long as no address exceeds its 32 bit, the sections of a file which has content
for each of them are contiguous. -/
theorem fillSections_chain (t : Ecma119Image) {off extent n : Nat} {size : Int}
    (hsize : n * isoExtentSize < size)
    (hrel : off + (extent + n) * extentBlocks < 2 ^ 32 - 1)
    (habs : t.curblock + off + (extent + n) * extentBlocks < 2 ^ 32) :
    (∀ s ∈ ((fillSections (word off) extent size (n + 1)).map (absoluteSection t)).head?,
      s.block = t.curblock + off + extent * extentBlocks) ∧
    ((fillSections (word off) extent size (n + 1)).map (absoluteSection t)).IsChain
      fun s s' => s'.block = s.block + s.size / blockSize := by
  induction n generalizing extent size with
  | zero =>
    rw [Nat.add_zero] at hrel habs
    have hpos : ¬ size ≤ 0 := by omega
    simp only [fillSections, finalSection, hpos, if_false, word_extent, List.map_cons,
      List.map_nil, List.head?_cons, Option.mem_some_iff, forall_eq']
    refine ⟨?_, List.isChain_singleton _⟩
    rw [absoluteSection_block t (by omega) (by omega)]
    omega
  | succ n ih =>
    have hext : (extent + 1 + n) * extentBlocks = (extent + (n + 1)) * extentBlocks := by
      congr 1
      omega
    have hstep : (extent + 1) * extentBlocks = extent * extentBlocks + extentBlocks := by
      rw [Nat.add_mul, Nat.one_mul]
    have hle : extent * extentBlocks ≤ (extent + (n + 1)) * extentBlocks :=
      Nat.mul_le_mul_right _ (by omega)
    obtain ⟨hhead, hchain⟩ := @ih (extent + 1) (size - isoExtentSize)
      (by rw [succ_extents] at hsize; omega)
      (by rw [hext]; exact hrel) (by rw [hext]; exact habs)
    have hblock :
        (absoluteSection t ⟨word (off + extent * extentBlocks), isoExtentSize⟩).block =
          t.curblock + off + extent * extentBlocks := by
      rw [absoluteSection_block t (by omega) (by omega)]
      omega
    rw [fillSections, word_extent, List.map_cons, List.isChain_cons]
    refine ⟨by simpa using hblock, fun s hs => ?_, hchain⟩
    rw [hhead s hs, hblock, hstep, absoluteSection_size]
    show _ = _ + isoExtentSize / blockSize
    simp only [isoExtentSize, blockSize, extentBlocks]
    omega

/-- The number of sections is the one which iso_file_src_create() computes, or another
one which leaves content for the last section and not too much of it. -/
def SectionsFit (f : IsoFileSrc) : Prop :=
  (f.sections.length = 1 ∨ (f.sections.length - 1) * isoExtentSize < f.size) ∧
  f.size < (f.sections.length - 1) * isoExtentSize + 2 ^ 32

/-- The condition for a proper layout. -/
structure Fits (t : Ecma119Image) : Prop where
  sections : ∀ f ∈ t.files, newlyWritten f → SectionsFit f
  blocks : t.curblock + sharedBlocks t +
    ((t.files.filter newlyWritten).map IsoFileSrc.nblocks).sum ≤ 2 ^ 32

theorem total_filelist (qsort : Qsort) (t : Ecma119Image) :
    total countedBlocks (filelist qsort t) =
      ((t.files.filter newlyWritten).map IsoFileSrc.nblocks).sum := by
  have hperm := ((filelist_perm qsort t).map countedBlocks).sum_nat
  rw [total, hperm]
  induction t.files with
  | nil => rfl
  | cons f rest ih =>
    cases hwrite : f.noWrite <;> cases hext : isExternal f <;>
      simp [shallBeWritten, newlyWritten, countedBlocks, hwrite, hext] <;>
      simpa [shallBeWritten, newlyWritten, countedBlocks] using ih

theorem contentBlocks_eq (qsort : Qsort) (t : Ecma119Image) :
    contentBlocks qsort t =
      sharedBlocks t + ((t.files.filter newlyWritten).map IsoFileSrc.nblocks).sum := by
  rw [contentBlocks, total_filelist]

/-- A written file comes from a source of the list which is no partition. -/
theorem written_source {qsort : Qsort} {t : Ecma119Image} {p : IsoFileSrc × Nat}
    (hmem : p ∈ placed qsort t) (hwrite : (laidOutFile t p).noWrite = false) :
    p.1 ∈ t.files ∧ newlyWritten p.1 ∧ countedBlocks p.1 = p.1.nblocks := by
  have hlist : p.1 ∈ filelist qsort t := by
    rw [← place_map_fst countedBlocks (sharedBlocks t) (filelist qsort t)]
    exact List.mem_map_of_mem hmem
  rw [laidOutFile_noWrite, Bool.or_eq_false_iff] at hwrite
  refine ⟨(List.mem_filter.mp ((filelist_perm qsort t).mem_iff.mp hlist)).1, ?_, ?_⟩
  · simp [newlyWritten, hwrite]
  · simp [countedBlocks, hwrite]

theorem placed_range {qsort : Qsort} {t : Ecma119Image} {p : IsoFileSrc × Nat}
    (hmem : p ∈ placed qsort t) (hwrite : (laidOutFile t p).noWrite = false) :
    sharedBlocks t ≤ p.2 ∧ p.2 + p.1.nblocks ≤ contentBlocks qsort t := by
  have hrange := place_range hmem
  rwa [(written_source hmem hwrite).2.2] at hrange

theorem nblocks_pos {f : IsoFileSrc} (hsize : 0 < f.size) : 0 < f.nblocks := by
  simp only [IsoFileSrc.nblocks, divUp, blockSize]
  omega

theorem fillSections_head (blocks extent n : Nat) {size : Int} (hsize : 0 < size) :
    ∃ len tail, fillSections blocks extent size (n + 1) =
      ⟨word (blocks + extent * extentBlocks), len⟩ :: tail := by
  cases n with
  | zero =>
    have hpos : ¬ size ≤ 0 := by omega
    exact ⟨_, [], by simp [fillSections, finalSection, hpos]; rfl⟩
  | succ n => exact ⟨_, _, rfl⟩

theorem firstBlock_of_sections {f : IsoFileSrc} {s : IsoFileSection}
    {tail : List IsoFileSection} (hsections : f.sections = s :: tail) :
    f.firstBlock = s.block := by
  simp [IsoFileSrc.firstBlock, hsections]

theorem sections_length (f : IsoFileSrc) : ∃ n, f.sections.length = n + 1 :=
  Nat.exists_eq_add_one.mpr (List.length_pos_iff.mpr f.sections_ne)

/-- The address which a file with content gets, in 32 bits. -/
theorem laidOutFile_firstBlock {qsort : Qsort} {t : Ecma119Image} {p : IsoFileSrc × Nat}
    (hmem : p ∈ placed qsort t) (hwrite : (laidOutFile t p).noWrite = false)
    (hsize : 0 < p.1.size) (htotal : contentBlocks qsort t < 2 ^ 32) :
    (laidOutFile t p).firstBlock = word (p.2 + t.curblock) := by
  obtain ⟨n, hn⟩ := sections_length p.1
  obtain ⟨len, tail, hfill⟩ := fillSections_head (word p.2) 0 n (Int.ofNat_lt.mpr hsize)
  have hsections := laidOutFile_sections t p hwrite
  rw [hn, hfill, List.map_cons] at hsections
  have hrange := placed_range hmem hwrite
  have hpos := nblocks_pos hsize
  have hword : word p.2 = p.2 := Nat.mod_eq_of_lt (by omega)
  have hne : p.2 ≠ 0xffffffff := by omega
  rw [firstBlock_of_sections hsections]
  simp only [absoluteSection, Nat.zero_mul, Nat.add_zero, hword, hne, if_false]

/-- The length which the writing function gives to a file after both passes. -/
def writtenBlocks (f : IsoFileSrc) : Nat := if f.noWrite then 0 else f.nblocks

/-- The files after both passes, seen as a layout of their own. -/
theorem place_laidOut (qsort : Qsort) (t : Ecma119Image) :
    place writtenBlocks (sharedBlocks t) (filesrcWriterComputeDataBlocks qsort t) =
      (placed qsort t).map fun p => (laidOutFile t p, p.2) := by
  rw [computeDataBlocks_eq]
  refine place_map fun p hmem => ?_
  have hwrite := filelist_noWrite hmem
  simp only [writtenBlocks, countedBlocks, laidOutFile_noWrite, hwrite, Bool.false_or,
    laidOutFile_nblocks]

theorem length_fileContent (readable : IsoFileSrc → Nat) (f : IsoFileSrc) :
    (if f.noWrite then [] else isoFilesrcWriteData readable f).length = writtenBlocks f := by
  cases hwrite : f.noWrite <;> simp [writtenBlocks, isoFilesrcWriteData, hwrite]

theorem total_writtenBlocks (qsort : Qsort) (t : Ecma119Image) :
    total writtenBlocks (filesrcWriterComputeDataBlocks qsort t) =
      total countedBlocks (filelist qsort t) := by
  have hfst := place_map_fst countedBlocks (sharedBlocks t) (filelist qsort t)
  have hfst' := place_map_fst writtenBlocks (sharedBlocks t)
    (filesrcWriterComputeDataBlocks qsort t)
  rw [total, total, ← hfst]
  rw [computeDataBlocks_eq, placed, List.map_map, List.map_map]
  congr 1
  refine List.map_congr_left fun p hmem => ?_
  have hlist : p.1 ∈ filelist qsort t := hfst ▸ List.mem_map_of_mem hmem
  simp only [Function.comp, writtenBlocks, countedBlocks, laidOutFile_noWrite,
    filelist_noWrite hlist, Bool.false_or, laidOutFile_nblocks]

/-- Always as many blocks get written as the files and the shared block need. -/
theorem writeData_length (qsort : Qsort) (readable : IsoFileSrc → Nat) (t : Ecma119Image) :
    (filesrcWriterWriteData readable t (filesrcWriterComputeDataBlocks qsort t)).length =
      contentBlocks qsort t := by
  rw [filesrcWriterWriteData, List.length_append, List.length_replicate,
    length_flatMap_blocks (length_fileContent readable), total_writtenBlocks, contentBlocks]

theorem writeData_content {qsort : Qsort} (readable : IsoFileSrc → Nat) {t : Ecma119Image}
    {p : IsoFileSrc × Nat} (hmem : p ∈ placed qsort t)
    (hwrite : (laidOutFile t p).noWrite = false) {b : Nat} (hb : b < p.1.nblocks) :
    (filesrcWriterWriteData readable t (filesrcWriterComputeDataBlocks qsort t))[p.2 + b]? =
      some (if b < readable (laidOutFile t p) then .content p.1.addr b
        else .zeros p.1.addr) := by
  have hrange := placed_range hmem hwrite
  have hplace : (laidOutFile t p, p.2) ∈
      place writtenBlocks (sharedBlocks t) (filesrcWriterComputeDataBlocks qsort t) := by
    rw [place_laidOut]
    exact List.mem_map.mpr ⟨p, hmem, rfl⟩
  have hlen : b < writtenBlocks (laidOutFile t p) := by
    simpa [writtenBlocks, hwrite] using hb
  rw [filesrcWriterWriteData, List.getElem?_append_right (by simp; omega),
    List.length_replicate]
  have hindex : p.2 + b - sharedBlocks t = p.2 - sharedBlocks t + b := by omega
  rw [hindex, place_written (length_fileContent readable) hplace hlen]
  simp [hwrite, isoFilesrcWriteData, hb]

theorem laidOut_complete (qsort : Qsort) (t : Ecma119Image) :
    (((filesrcWriterComputeDataBlocks qsort t).filter shallBeWritten).map
      IsoFileSrc.addr).Perm ((t.files.filter newlyWritten).map IsoFileSrc.addr) := by
  have hcomp : ((filesrcWriterComputeDataBlocks qsort t).filter shallBeWritten).map
      IsoFileSrc.addr = ((filelist qsort t).filter newlyWritten).map IsoFileSrc.addr := by
    have hpred : (newlyWritten ∘ Prod.fst : IsoFileSrc × Nat → Bool) =
        shallBeWritten ∘ laidOutFile t := by
      funext p
      simp [newlyWritten, shallBeWritten, laidOutFile_noWrite]
    have haddr : IsoFileSrc.addr ∘ laidOutFile t = IsoFileSrc.addr ∘ Prod.fst := by
      funext p
      simp
    rw [computeDataBlocks_eq, ← place_map_fst countedBlocks (sharedBlocks t) (filelist qsort t),
      ← placed, List.filter_map, List.filter_map, List.map_map, List.map_map, hpred, haddr]
  rw [hcomp]
  refine List.Perm.map _ (((filelist_perm qsort t).filter newlyWritten).trans ?_)
  rw [List.filter_filter]
  refine List.Perm.of_eq (List.filter_congr fun f _ => ?_)
  simp only [newlyWritten, shallBeWritten]
  cases f.noWrite <;> simp

/-- The sections of a file whose number of sections fits. -/
theorem sectionsOk_of_fit {qsort : Qsort} {t : Ecma119Image} {p : IsoFileSrc × Nat}
    (hmem : p ∈ placed qsort t) (hwrite : (laidOutFile t p).noWrite = false)
    (hfit : SectionsFit p.1) (hblocks : t.curblock + contentBlocks qsort t ≤ 2 ^ 32) :
    SectionsOk (laidOutFile t p) := by
  obtain ⟨n, hn⟩ := sections_length p.1
  have hsections := laidOutFile_sections t p hwrite
  rw [hn] at hsections
  obtain ⟨hcount, hmax⟩ := hfit
  rw [hn, Nat.add_sub_cancel] at hcount hmax
  have hrange := placed_range hmem hwrite
  refine ⟨?_, ?_, ?_, ?_⟩
  · rw [hsections]
    by_cases hsize : p.1.size = 0
    · obtain rfl : n = 0 := by omega
      exact List.isChain_singleton _
    · have hge := t.curblock_ge
      have hext : n * isoExtentSize < p.1.size := by
        rcases hcount with hone | hlt
        · obtain rfl : n = 0 := by omega
          omega
        · exact hlt
      have hneed : n * extentBlocks + 1 ≤ p.1.nblocks := by
        simp only [IsoFileSrc.nblocks, divUp, blockSize, extentBlocks, isoExtentSize] at hext ⊢
        omega
      have hextent : (n : Int) * isoExtentSize < p.1.size := by
        rw [← Int.natCast_mul]
        exact Int.ofNat_lt.mpr hext
      refine (fillSections_chain t hextent ?_ ?_).2
      · rw [Nat.zero_add]
        omega
      · rw [Nat.zero_add]
        omega
  · have hsum := fillSections_sum (word p.2) 0 n p.1.size
    have hle : n * isoExtentSize ≤ p.1.size := by
      rcases hcount with hone | hlt
      · obtain rfl : n = 0 := by omega
        omega
      · exact hlt.le
    have hcast : ((n * isoExtentSize : Nat) : Int) = n * isoExtentSize := Int.natCast_mul _ _
    have hmod : ((p.1.size : Int) - (n * isoExtentSize : Nat)) % 2 ^ 32 =
        p.1.size - (n * isoExtentSize : Nat) := by
      have hlt : (p.1.size : Int) < (n * isoExtentSize : Nat) + 2 ^ 32 := Int.ofNat_lt.mpr hmax
      exact Int.emod_eq_of_lt (Int.sub_nonneg.mpr (Int.ofNat_le.mpr hle))
        (Int.sub_left_lt_of_lt_add hlt)
    rw [hsections, map_absoluteSection_size, laidOutFile_size]
    have : (((fillSections (word p.2) 0 p.1.size (n + 1)).map
        IsoFileSection.size).sum : Int) = p.1.size := by
      rw [hsum, ← hcast, hmod]
      omega
    exact Int.ofNat_inj.mp this
  · intro s hs
    rw [hsections, ← List.map_dropLast] at hs
    obtain ⟨s', hs', rfl⟩ := List.mem_map.mp hs
    rw [absoluteSection_size, fillSections_dropLast hs']
    decide
  · intro s hs
    rw [hsections] at hs
    obtain ⟨s', hs', rfl⟩ := List.mem_map.mp hs
    rw [absoluteSection_size]
    exact fillSections_width hs'

theorem laidOut_of_fits {qsort : Qsort} (readable : IsoFileSrc → Nat) {t : Ecma119Image}
    (fits : Fits t) : LaidOut qsort readable t := by
  have hge := t.curblock_ge
  have hblocks : t.curblock + contentBlocks qsort t ≤ 2 ^ 32 := by
    have := fits.blocks
    rw [contentBlocks_eq]
    omega
  have hword : (filesrcWriterPreCompute qsort t).2 = contentBlocks qsort t := by
    rw [preCompute_blocks]
    exact Nat.mod_eq_of_lt (by omega)
  have hfirst : ∀ p ∈ placed qsort t, (laidOutFile t p).noWrite = false → 0 < p.1.size →
      (laidOutFile t p).firstBlock = p.2 + t.curblock := by
    intro p hmem hwrite hsize
    have hrange := placed_range hmem hwrite
    have hpos := nblocks_pos hsize
    rw [laidOutFile_firstBlock hmem hwrite hsize (by omega)]
    exact Nat.mod_eq_of_lt (by omega)
  refine ⟨laidOut_complete qsort t, ?_, ?_, ?_, ?_, ?_⟩
  · rw [computeDataBlocks_eq]
    intro f hf hwrite
    obtain ⟨p, hmem, rfl⟩ := List.mem_map.mp hf
    obtain ⟨hfile, hnew, -⟩ := written_source hmem hwrite
    exact sectionsOk_of_fit hmem hwrite (fits.sections p.1 hfile hnew) hblocks
  · rw [computeDataBlocks_eq, hword]
    intro f hf hwrite hsize
    obtain ⟨p, hmem, rfl⟩ := List.mem_map.mp hf
    rw [laidOutFile_size] at hsize
    have hrange := placed_range hmem hwrite
    rw [hfirst p hmem hwrite hsize, laidOutFile_nblocks]
    omega
  · rw [computeDataBlocks_eq, List.pairwise_map]
    have hdisjoint : (placed qsort t).Pairwise fun p q => p.2 + countedBlocks p.1 ≤ q.2 :=
      place_disjoint
    refine hdisjoint.imp_of_mem ?_
    intro p q hp hq hle hwp hwq hsp hsq
    rw [laidOutFile_size] at hsp hsq
    rw [hfirst p hp hwp hsp, hfirst q hq hwq hsq, laidOutFile_nblocks]
    rw [(written_source hp hwp).2.2] at hle
    omega
  · rw [hword, writeData_length]
  · intro f hf hwrite b hb
    rw [computeDataBlocks_eq] at hf
    obtain ⟨p, hmem, rfl⟩ := List.mem_map.mp hf
    rw [laidOutFile_nblocks] at hb
    have hsize : 0 < p.1.size := by
      by_contra hzero
      have : p.1.size = 0 := by omega
      simp [IsoFileSrc.nblocks, divUp, this, blockSize] at hb
    rw [hfirst p hmem hwrite hsize, Nat.add_sub_cancel, laidOutFile_addr]
    exact writeData_content readable hmem hwrite hb

/-- Addresses only grow along contiguous sections. -/
theorem chain_block_ge {s : IsoFileSection} {l : List IsoFileSection}
    (hchain : (s :: l).IsChain fun s s' => s'.block = s.block + s.size / blockSize)
    {s' : IsoFileSection} (hmem : s' ∈ l) : s.block + s.size / blockSize ≤ s'.block := by
  induction l generalizing s with
  | nil => cases hmem
  | cons a l ih =>
    obtain ⟨hhead, htail⟩ := List.isChain_cons.mp hchain
    have ha := hhead a rfl
    rcases List.mem_cons.mp hmem with rfl | hin
    · exact ha.ge
    · exact ha.ge.trans ((Nat.le_add_right _ _).trans (ih htail hin))

/-- If nothing is left for the last section, it gets the address of empty files. -/
theorem fillSections_empty_last (blocks extent n : Nat) {size : Int}
    (hsize : size = n * isoExtentSize) :
    ⟨0xffffffff, 0⟩ ∈ fillSections blocks extent size (n + 1) := by
  induction n generalizing extent size with
  | zero =>
    obtain rfl : size = 0 := by omega
    exact List.mem_singleton.mpr rfl
  | succ n ih =>
    refine List.mem_cons_of_mem _ (ih (extent + 1) ?_)
    rw [hsize, succ_extents]
    omega

theorem emptyFileBlock_le (t : Ecma119Image) : t.emptyFileBlock ≤ t.curblock := by
  rw [Ecma119Image.emptyFileBlock]
  split
  · exact t.terminator_le
  · exact le_rfl

theorem fit_of_sectionsOk {t : Ecma119Image} {p : IsoFileSrc × Nat}
    (hwrite : (laidOutFile t p).noWrite = false)
    (ok : SectionsOk (laidOutFile t p))
    (hstart : 0 < p.1.size → t.curblock ≤ (laidOutFile t p).firstBlock) :
    SectionsFit p.1 := by
  obtain ⟨n, hn⟩ := sections_length p.1
  have hsections := laidOutFile_sections t p hwrite
  rw [hn] at hsections
  have hsum := ok.sum
  rw [hsections, map_absoluteSection_size, laidOutFile_size] at hsum
  have hfill := fillSections_sum (word p.2) 0 n p.1.size
  rw [hsum] at hfill
  have hcast : ((n * isoExtentSize : Nat) : Int) = n * isoExtentSize := Int.natCast_mul _ _
  rw [← hcast] at hfill
  have hlow : 0 ≤ ((p.1.size : Int) - (n * isoExtentSize : Nat)) % 2 ^ 32 :=
    Int.emod_nonneg _ (by decide)
  have hhigh : ((p.1.size : Int) - (n * isoExtentSize : Nat)) % 2 ^ 32 < 2 ^ 32 :=
    Int.emod_lt_of_pos _ (by decide)
  rw [SectionsFit, hn, Nat.add_sub_cancel]
  refine ⟨?_, by omega⟩
  by_contra hnot
  obtain ⟨hone, hless⟩ := not_or.mp hnot
  have hexact : p.1.size = n * isoExtentSize := by omega
  obtain ⟨m, rfl⟩ : ∃ m, n = m + 1 := Nat.exists_eq_add_one.mpr (by omega)
  have hpos : 0 < p.1.size := by
    rw [hexact]
    exact Nat.mul_pos (Nat.succ_pos m) (by decide)
  have hsize : (p.1.size : Int) = (m + 1 : Nat) * isoExtentSize := by
    rw [hexact]
    exact Int.natCast_mul _ _
  have hlast := fillSections_empty_last (word p.2) 0 (m + 1) hsize
  have hchain := ok.contiguous
  rw [fillSections] at hsections hlast
  rw [hsections, List.map_cons] at hchain
  rw [List.map_cons] at hsections
  have hfirst := hstart hpos
  rw [firstBlock_of_sections hsections] at hfirst
  rcases List.mem_cons.mp hlast with heq | hin
  · simp [isoExtentSize] at heq
  · have hge := chain_block_ge hchain (List.mem_map_of_mem (f := absoluteSection t) hin)
    have hempty := emptyFileBlock_le t
    simp only [absoluteSection, if_true] at hge hfirst
    have : 0 < isoExtentSize / blockSize := by decide
    omega

theorem fits_of_laidOut {qsort : Qsort} {readable : IsoFileSrc → Nat} {t : Ecma119Image}
    (laidOut : LaidOut qsort readable t) : Fits t := by
  have hcount := laidOut.count
  rw [writeData_length, preCompute_blocks] at hcount
  have htotal : contentBlocks qsort t < 2 ^ 32 := by
    rw [hcount]
    exact Nat.mod_lt _ (by decide)
  have hlt := t.curblock_lt
  refine ⟨fun f hf hnew => ?_, ?_⟩
  · have hlist : f ∈ filelist qsort t := by
      refine (filelist_perm qsort t).mem_iff.mpr (List.mem_filter.mpr ⟨hf, ?_⟩)
      simpa [shallBeWritten] using (Bool.and_eq_true_iff.mp hnew).1
    rw [← place_map_fst countedBlocks (sharedBlocks t) (filelist qsort t)] at hlist
    obtain ⟨p, hmem, rfl⟩ := List.mem_map.mp hlist
    have hwrite : (laidOutFile t p).noWrite = false := by
      rw [laidOutFile_noWrite]
      simpa [newlyWritten] using hnew
    have hout : laidOutFile t p ∈ filesrcWriterComputeDataBlocks qsort t := by
      rw [computeDataBlocks_eq]
      exact List.mem_map.mpr ⟨p, hmem, rfl⟩
    refine fit_of_sectionsOk hwrite (laidOut.sections _ hout hwrite) fun hsize => ?_
    exact (laidOut.inside _ hout hwrite (by rwa [laidOutFile_size])).1
  · rw [Nat.add_assoc, ← contentBlocks_eq qsort]
    by_cases hzero : total countedBlocks (filelist qsort t) = 0
    · have : sharedBlocks t ≤ 1 := by
        rw [sharedBlocks]
        split <;> omega
      rw [contentBlocks, hzero]
      omega
    · obtain ⟨p, hmem, hpos, hend⟩ :=
        place_last (Nat.pos_of_ne_zero hzero)
      have hlist : p.1 ∈ filelist qsort t := by
        rw [← place_map_fst countedBlocks (sharedBlocks t) (filelist qsort t)]
        exact List.mem_map_of_mem hmem
      have hext : isExternal p.1 = false := by
        by_contra hext
        rw [countedBlocks, if_pos (Bool.eq_true_of_not_eq_false hext)] at hpos
        exact absurd hpos (Nat.lt_irrefl 0)
      have hwrite : (laidOutFile t p).noWrite = false := by
        rw [laidOutFile_noWrite, filelist_noWrite hlist, hext]
        rfl
      have hcounted := (written_source hmem hwrite).2.2
      rw [hcounted] at hpos hend
      have hsize : 0 < p.1.size := by
        by_contra hnone
        have : p.1.size = 0 := by omega
        simp [IsoFileSrc.nblocks, divUp, this, blockSize] at hpos
      have hout : laidOutFile t p ∈ filesrcWriterComputeDataBlocks qsort t := by
        rw [computeDataBlocks_eq]
        exact List.mem_map.mpr ⟨p, hmem, rfl⟩
      obtain ⟨hlow, -, hhigh⟩ := laidOut.inside _ hout hwrite (by rwa [laidOutFile_size])
      rw [laidOutFile_firstBlock hmem hwrite hsize htotal] at hlow hhigh
      rw [laidOutFile_nblocks] at hhigh
      have hrel : p.2 + p.1.nblocks < 2 ^ 32 := hend ▸ htotal
      -- an address which has wrapped around would lie below the start
      have hnowrap : word (p.2 + t.curblock) = p.2 + t.curblock := by
        simp only [word] at hlow ⊢
        omega
      rw [hnowrap] at hhigh
      rw [contentBlocks, ← hend]
      omega

/-- The layout is as it should be exactly if each newly written file has a number of
sections which its size needs, and the image does not exceed 2^32 blocks. -/
theorem layout_iff_fits (qsort : Qsort) (readable : IsoFileSrc → Nat) (t : Ecma119Image) :
    LaidOut qsort readable t ↔ Fits t :=
  ⟨fits_of_laidOut, laidOut_of_fits readable⟩

/-- A boot image of an old session with content in two extents of one block each. -/
def splitBootFile : IsoFile where
  size := 4096
  fromOldSession := true
  oldSections := [⟨100, 2048⟩, ⟨200, 2048⟩]
  oldSections_ne := by decide
  sortWeight := 0

/-- The boot image gets claimed for patching by an appended session. -/
def patchedSession : Ecma119Image where
  appendable := true
  oldEmpty := false
  sortFiles := false
  files := [claimForPatching (isoFileSrcCreate true 1 splitBootFile)]
  files_registered := by
    intro f hf
    obtain rfl := List.mem_singleton.mp hf
    exact .patched (.created 1 splitBootFile)
  files_distinct := List.nodup_singleton _
  visits := [claimForPatching (isoFileSrcCreate true 1 splitBootFile)]
  visits_files := fun _ hf => hf
  terminatorBlock := 330
  curblock := 340
  curblock_ge := by decide
  curblock_lt := by decide
  terminator_le := by decide

/-- It keeps its two sections, of which the first one now claims nearly 4 GiB. -/
theorem patched_boot_image_not_laid_out :
    ¬ ∀ (qsort : Qsort) (readable : IsoFileSrc → Nat) (t : Ecma119Image),
      LaidOut qsort readable t := by
  intro claim
  have fits := fits_of_laidOut (claim mergeQsort (fun _ => 2) patchedSession)
  have hfit := fits.sections _ (List.mem_singleton.mpr rfl) (by decide)
  revert hfit
  rw [SectionsFit]
  decide

end FileSrc
