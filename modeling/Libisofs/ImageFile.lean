import Libisofs.Lib.Runs
import Mathlib.Data.List.Basic
import Mathlib.Algebra.Order.Ring.Int

/-!
# Reading a file of an imported image

ifs_read() and ifs_lseek() of fs_image.c with their helpers. A file which has been
opened keeps one block of the image, which it loads when its offset is at the start of
a block, or gets set to the inside of one. The data source may refuse to deliver any
block at any time, and then leaves arbitrary bytes in the buffer.
-/

namespace ImageFile

open LabelledRuns

/-- The bytes of a block by their position. -/
abbrev Block := Nat → UInt8

def blockSize : Nat := 2048

/-- struct iso_file_section, of which both members have 32 bits. -/
structure Section where
  block : Nat
  size : Nat
  block_lt : block < 2 ^ 32
  size_lt : size < 2 ^ 32

/-- What `read_block` of the data source does. `fails` tells for each call, counted from
the opening of the file, whether it fails, with which code, and what it leaves in the
buffer. -/
structure IsoDataSource where
  disk : Nat → Block
  fails : Nat → Option (Int × Block)
  fails_neg : ∀ {k code left}, fails k = some (code, left) → code < 0

/-- A regular file. It has at least one section. -/
structure File where
  src : IsoDataSource
  sections : List Section
  sections_ne : sections ≠ []
  stSize : Nat
  stSize_eq : stSize = (sections.map Section.size).sum

/-- The loop of block_from_offset(), size_available() and block_offset(). -/
def atOffset (f : Section → Nat → Nat) : List Section → Nat → Nat
  | [], _ => 0
  | s :: rest, offset => if offset < s.size then f s offset else atOffset f rest (offset - s.size)

def blockFromOffset : List Section → Nat → Nat :=
  atOffset fun s offset => (s.block + offset / blockSize) % 2 ^ 32

def sizeAvailable : List Section → Nat → Nat :=
  atOffset fun s offset => min (s.size - offset) (blockSize - offset % blockSize)

def blockOffset : List Section → Nat → Nat :=
  atOffset fun _ offset => offset % blockSize

/-- ImageFileSourceData of an open file. `calls` counts the calls of `read_block`. -/
structure ImageFileSourceData where
  opened : Nat
  offset : Nat
  content : Block
  calls : Nat

def readBlock (file : File) (block : Nat) (data : ImageFileSourceData) :
    Int × ImageFileSourceData :=
  match file.src.fails data.calls with
  | some (code, left) => (code, { data with content := left, calls := data.calls + 1 })
  | none => (1, { data with content := file.src.disk block, calls := data.calls + 1 })

/-- memcpy() of `bytes` into the buffer from position `read` on. -/
def copyTo (buf : List UInt8) (read : Nat) (bytes : List UInt8) : List UInt8 :=
  buf.take read ++ bytes ++ buf.drop (read + bytes.length)

def isoWrongArgValue : Int := 0xE830FFF8 - 2 ^ 32
def isoFileNotOpened : Int := 0xE830FF7B - 2 ^ 32
def isoFileIsDir : Int := 0xE830FF7A - 2 ^ 32

/-- A number of 32 bits as an int. -/
def toInt32 (n : Nat) : Int := if n < 2 ^ 31 then n else (n : Int) - 2 ^ 32

/-- The loop of ifs_read(). Each turn brings the offset nearer to the end of the file,
so that `left` turns suffice if there are as many bytes left. `read` has 32 bits. -/
def readLoop (file : File) (count : Nat) : (left read : Nat) → (buf : List UInt8) →
    ImageFileSourceData → (Int × List UInt8) × ImageFileSourceData
  | 0, read, buf, data => ((toInt32 read, buf), data)
  | left + 1, read, buf, data =>
    if read < count ∧ data.offset < file.stSize then
      let (ret, data) :=
        if blockOffset file.sections data.offset = 0 then
          readBlock file (blockFromOffset file.sections data.offset) data
        else (1, data)
      if ret < 0 then ((ret, buf), data)
      else
        let bytes := min (sizeAvailable file.sections data.offset) (count - read)
        let bytes := if data.offset + bytes > file.stSize then file.stSize - data.offset else bytes
        let orig := blockOffset file.sections data.offset
        let buf := copyTo buf read ((List.range bytes).map fun i => data.content (orig + i))
        readLoop file count left ((read + bytes) % 2 ^ 32) buf
          { data with offset := data.offset + bytes }
    else ((toInt32 read, buf), data)

/-- The result is the return value and what has been written to the buffer. -/
def ifsRead (file : File) (count : Nat) (data : ImageFileSourceData) :
    (Int × List UInt8) × ImageFileSourceData :=
  if count = 0 then ((isoWrongArgValue, []), data)
  else if data.opened = 0 then ((isoFileNotOpened, []), data)
  else if data.opened ≠ 1 then ((isoFileIsDir, []), data)
  else readLoop file count (file.stSize - data.offset) 0 [] data

/-- SEEK_SET, SEEK_CUR, SEEK_END. -/
def seekTarget (file : File) (data : ImageFileSourceData) (offset : Nat) (flag : Int) : Option Nat :=
  if flag = 0 then some offset
  else if flag = 1 then some (data.offset + offset)
  else if flag = 2 then some (file.stSize + offset)
  else none

def ifsLseek (file : File) (offset flag : Int) (data : ImageFileSourceData) :
    Int × ImageFileSourceData :=
  if offset < 0 then (isoWrongArgValue, data)
  else if data.opened = 0 then (isoFileNotOpened, data)
  else if data.opened ≠ 1 then (isoFileIsDir, data)
  else
    match seekTarget file data offset.toNat flag with
    | none => (isoWrongArgValue, data)
    | some target =>
      let data := { data with offset := target }
      if blockOffset file.sections target ≠ 0 ∧ target < file.stSize then
        let (ret, data) := readBlock file (blockFromOffset file.sections target) data
        if ret < 0 then (ret, data) else (target, data)
      else (target, data)

inductive Op where
  | read (count : Nat)
  | lseek (offset flag : Int)

/-- What an observer sees of a call: the return value, the bytes written to the buffer,
and the offset of the file before and after. -/
structure Event where
  op : Op
  ret : Int
  buf : List UInt8
  start : Nat
  stop : Nat

/-- Calls of ifs_read() and ifs_lseek() in any order. A call which would have to compute
an offset beyond the range of off_t has no defined result. -/
def calls (file : File) : System ImageFileSourceData Op Event where
  step data op :=
    match op with
    | .read count =>
      let ((ret, buf), data') := ifsRead file count data
      some (data', ⟨op, ret, buf, data.offset, data'.offset⟩)
    | .lseek offset flag =>
      if (seekTarget file data offset.toNat flag).any (2 ^ 63 ≤ ·) then none
      else
        let (ret, data') := ifsLseek file offset flag data
        some (data', ⟨op, ret, [], data.offset, data'.offset⟩)

/-- The state after ifs_open(), with what malloc() has delivered. -/
def ifsOpen (content : Block) : ImageFileSourceData := ⟨1, 0, content, 0⟩

section Contents

def sectionContents (disk : Nat → Block) (s : Section) : List UInt8 :=
  (List.range s.size).map fun i => disk ((s.block + i / blockSize) % 2 ^ 32) (i % blockSize)

/-- The concatenation of the section contents. -/
def contents (disk : Nat → Block) (sections : List Section) : List UInt8 :=
  sections.flatMap (sectionContents disk)

@[simp] theorem sectionContents_length (disk : Nat → Block) (s : Section) :
    (sectionContents disk s).length = s.size := by
  simp [sectionContents]

theorem contents_length (disk : Nat → Block) (sections : List Section) :
    (contents disk sections).length = (sections.map Section.size).sum := by
  simp [contents, List.length_flatMap]

/-- An offset in the file is an offset in one of the sections, which tells the rest of
this section as well. -/
structure Inside (disk : Nat → Block) (sections : List Section) (offset : Nat) (s : Section)
    (inner : Nat) : Prop where
  lt : inner < s.size
  drop : ∃ rest, (contents disk sections).drop offset = (sectionContents disk s).drop inner ++ rest
  at_add : ∀ f k, inner + k < s.size → atOffset f sections (offset + k) = f s (inner + k)
  at_end : blockOffset sections (offset + (s.size - inner)) = 0

/-- Behind the end of a section, a block begins, or the file ends. -/
theorem blockOffset_zero (sections : List Section) : blockOffset sections 0 = 0 := by
  induction sections with
  | nil => rfl
  | cons s rest ih =>
    rw [blockOffset, atOffset]
    split
    · rfl
    · rw [Nat.zero_sub]
      exact ih

theorem exists_inside (disk : Nat → Block) {sections : List Section} {offset : Nat}
    (h : offset < (sections.map Section.size).sum) :
    ∃ s inner, Inside disk sections offset s inner := by
  induction sections generalizing offset with
  | nil => simp at h
  | cons s rest ih =>
    by_cases hs : offset < s.size
    · refine ⟨s, offset, hs, ⟨contents disk rest, ?_⟩, ?_, ?_⟩
      · rw [contents, List.flatMap_cons, List.drop_append_of_le_length (by simp; omega)]
        rfl
      · intro f k hk
        rw [atOffset, if_pos hk]
      · have hend : offset + (s.size - offset) = s.size := by omega
        rw [hend, blockOffset, atOffset, if_neg (Nat.lt_irrefl _), Nat.sub_self]
        exact blockOffset_zero rest
    · simp only [List.map_cons, List.sum_cons] at h
      obtain ⟨t, inner, hlt, ⟨tail, hdrop⟩, hat, hend⟩ :=
        ih (show offset - s.size < (rest.map Section.size).sum by omega)
      refine ⟨t, inner, hlt, ⟨tail, ?_⟩, ?_, ?_⟩
      · rw [contents, List.flatMap_cons, List.drop_append, List.drop_of_length_le (by simp; omega),
          List.nil_append, sectionContents_length]
        exact hdrop
      · intro f k hk
        rw [atOffset, if_neg (by omega), ← hat f k hk]
        congr 1
        omega
      · rw [blockOffset, atOffset, if_neg (by omega), ← hend, blockOffset]
        congr 1
        omega

variable {disk : Nat → Block} {sections : List Section} {offset inner : Nat} {s : Section}

theorem Inside.blockOffset_eq (h : Inside disk sections offset s inner) :
    blockOffset sections offset = inner % blockSize :=
  h.at_add (fun _ o => o % blockSize) 0 h.lt

theorem Inside.sizeAvailable_eq (h : Inside disk sections offset s inner) :
    sizeAvailable sections offset = min (s.size - inner) (blockSize - inner % blockSize) :=
  h.at_add (fun s o => min (s.size - o) (blockSize - o % blockSize)) 0 h.lt

theorem Inside.blockFromOffset_eq (h : Inside disk sections offset s inner) :
    blockFromOffset sections offset = (s.block + inner / blockSize) % 2 ^ 32 :=
  h.at_add (fun s o => (s.block + o / blockSize) % 2 ^ 32) 0 h.lt

/-- What one turn of the loop copies out of the block is what the file has there. -/
theorem Inside.chunk_eq (h : Inside disk sections offset s inner) {bytes : Nat}
    (hbytes : bytes ≤ sizeAvailable sections offset) :
    ((List.range bytes).map fun i =>
        disk (blockFromOffset sections offset) (blockOffset sections offset + i)) =
      ((contents disk sections).drop offset).take bytes := by
  have hlt := h.lt
  rw [h.sizeAvailable_eq] at hbytes
  rw [h.blockFromOffset_eq, h.blockOffset_eq]
  obtain ⟨rest, hdrop⟩ := h.drop
  rw [hdrop, List.take_append_of_le_length (by simp; omega)]
  apply List.ext_getElem
  · simp
    omega
  · intro i h₁ h₂
    have hi : i < bytes := by simpa using h₁
    have hdiv : (inner + i) / blockSize = inner / blockSize := by
      simp only [blockSize] at hbytes ⊢
      omega
    have hmod : (inner + i) % blockSize = inner % blockSize + i := by
      simp only [blockSize] at hbytes ⊢
      omega
    simp [sectionContents, hdiv, hmod]

end Contents

section Loop

variable {file : File}

/-- The cached block is the one to which the offset points, if it points to the inside of
a block. -/
def CacheFresh (file : File) (data : ImageFileSourceData) : Prop :=
  data.offset < file.stSize → blockOffset file.sections data.offset ≠ 0 →
    data.content = file.src.disk (blockFromOffset file.sections data.offset)

theorem freshAfter {data : ImageFileSourceData} {bytes inner : Nat} {s : Section}
    (h : Inside file.src.disk file.sections data.offset s inner)
    (hbytes : bytes ≤ sizeAvailable file.sections data.offset)
    (hloaded : data.content = file.src.disk (blockFromOffset file.sections data.offset)) :
    CacheFresh file { data with offset := data.offset + bytes } := by
  intro _ hinside
  have hlt := h.lt
  rw [h.sizeAvailable_eq] at hbytes
  simp only at hinside ⊢
  by_cases hend : bytes = s.size - inner
  · rw [hend, h.at_end] at hinside
    exact absurd rfl hinside
  · have hin : inner + bytes < s.size := by omega
    have hoff : blockOffset file.sections (data.offset + bytes) = (inner + bytes) % blockSize :=
      h.at_add (fun _ o => o % blockSize) bytes hin
    have hblock : blockFromOffset file.sections (data.offset + bytes) =
        (s.block + (inner + bytes) / blockSize) % 2 ^ 32 :=
      h.at_add (fun s o => (s.block + o / blockSize) % 2 ^ 32) bytes hin
    have hdiv : (inner + bytes) / blockSize = inner / blockSize := by
      rw [hoff] at hinside
      simp only [blockSize] at hinside hbytes ⊢
      omega
    rw [hloaded, hblock, h.blockFromOffset_eq, hdiv]

/-- A loaded block, or a refusal with a negative number. -/
theorem readBlock_spec (block : Nat) (data : ImageFileSourceData) :
    ((readBlock file block data).1 < 0 ∨
      (readBlock file block data).1 = 1 ∧
        (readBlock file block data).2.content = file.src.disk block) ∧
      (readBlock file block data).2.offset = data.offset ∧
      (readBlock file block data).2.opened = data.opened := by
  rw [readBlock]
  split
  next code left hfail => exact ⟨Or.inl (file.src.fails_neg hfail), rfl, rfl⟩
  next => exact ⟨Or.inr ⟨rfl, rfl⟩, rfl, rfl⟩

/-- One turn of the loop begins with the wanted block in the cache, or with an error. -/
theorem load_spec {data : ImageFileSourceData} (hfresh : CacheFresh file data)
    (hlt : data.offset < file.stSize) {ret : Int} {data' : ImageFileSourceData}
    (hload : (if blockOffset file.sections data.offset = 0 then
        readBlock file (blockFromOffset file.sections data.offset) data
      else (1, data)) = (ret, data')) :
    data'.offset = data.offset ∧ data'.opened = data.opened ∧
      (ret < 0 ∧ CacheFresh file data' ∨ ¬ ret < 0 ∧
        data'.content = file.src.disk (blockFromOffset file.sections data.offset)) := by
  by_cases hzero : blockOffset file.sections data.offset = 0
  · rw [if_pos hzero] at hload
    obtain ⟨hres, hoffset, hopened⟩ :=
      @readBlock_spec file (blockFromOffset file.sections data.offset) data
    rw [hload] at hres hoffset hopened
    refine ⟨hoffset, hopened, ?_⟩
    rcases hres with hneg | ⟨hone, hcontent⟩
    · exact Or.inl ⟨hneg, fun _ hne => absurd hzero (hoffset ▸ hne)⟩
    · exact Or.inr ⟨by omega, hcontent⟩
  · rw [if_neg hzero] at hload
    obtain ⟨rfl, rfl⟩ := Prod.mk.inj hload
    exact ⟨rfl, rfl, Or.inr ⟨by decide, hfresh hlt hzero⟩⟩

theorem copyTo_end (buf bytes : List UInt8) :
    copyTo buf buf.length bytes = buf ++ bytes := by
  simp [copyTo]

/-- The outcome of the loop, when the buffer holds `buf` already: an error, or `n` more
bytes of the file. -/
structure LoopDone (file : File) (count : Nat) (buf : List UInt8) (start : Nat)
    (result : (Int × List UInt8) × ImageFileSourceData) (n : Nat) : Prop where
  offset : result.2.offset = start + n
  ret : result.1.1 = (buf.length + n : Nat)
  copied : result.1.2 = buf ++ ((contents file.src.disk file.sections).drop start).take n
  le : n ≤ file.stSize - start
  none : n = 0 → count ≤ buf.length ∨ file.stSize ≤ start

theorem toInt32_small {n : Nat} (h : n < 2 ^ 31) : toInt32 n = n := if_pos h

/-- Inside of the file, a turn of the loop has something to copy, and not too much. -/
theorem sizeAvailable_spec {offset inner : Nat} {s : Section}
    (inside : Inside file.src.disk file.sections offset s inner) :
    0 < sizeAvailable file.sections offset ∧
      offset + sizeAvailable file.sections offset ≤ file.stSize := by
  have hlt := inside.lt
  have hmod : inner % blockSize < blockSize := Nat.mod_lt _ (by decide)
  obtain ⟨tail, hdrop⟩ := inside.drop
  have hlength := congrArg List.length hdrop
  simp only [List.length_drop, List.length_append, sectionContents_length, contents_length,
    ← file.stSize_eq] at hlength
  rw [inside.sizeAvailable_eq]
  omega

theorem take_add_drop {l : List UInt8} {start m n : Nat} :
    (l.drop start).take (m + n) = (l.drop start).take m ++ (l.drop (start + m)).take n := by
  rw [List.take_add, List.drop_drop]

theorem readLoop_spec {count left : Nat} {buf : List UInt8} {data : ImageFileSourceData}
    (hfresh : CacheFresh file data) (hleft : file.stSize - data.offset ≤ left)
    (hcount : buf.length ≤ count)
    (hsmall : min count (buf.length + (file.stSize - data.offset)) < 2 ^ 31) :
    CacheFresh file (readLoop file count left buf.length buf data).2 ∧
      (readLoop file count left buf.length buf data).2.opened = data.opened ∧
      ((readLoop file count left buf.length buf data).1.1 < 0 ∨
        ∃ n, LoopDone file count buf data.offset
          (readLoop file count left buf.length buf data) n) := by
  induction left generalizing buf data with
  | zero =>
    have hret : toInt32 buf.length = (buf.length + 0 : Nat) := toInt32_small (by omega)
    exact ⟨hfresh, rfl, Or.inr ⟨0, ⟨rfl, hret, by simp [readLoop], by omega,
      fun _ => Or.inr (by omega)⟩⟩⟩
  | succ left ih =>
    rw [readLoop]
    by_cases hmore : buf.length < count ∧ data.offset < file.stSize
    · rw [if_pos hmore]
      obtain ⟨hcount', hlt⟩ := hmore
      split
      next ret data' hload =>
        obtain ⟨hoffset, hopened, hload'⟩ := load_spec hfresh hlt hload
        rcases hload' with ⟨hneg, hfresh'⟩ | ⟨hpos, hcontent⟩
        · rw [if_pos hneg]
          exact ⟨hfresh', hopened, Or.inl hneg⟩
        · rw [if_neg hpos]
          obtain ⟨s, inner, inside⟩ := exists_inside file.src.disk
            (show data'.offset < _ from file.stSize_eq ▸ hoffset ▸ hlt)
          obtain ⟨havail, hfits⟩ := sizeAvailable_spec inside
          rw [← hoffset] at hcontent hlt hsmall hleft
          generalize hbytes : min (sizeAvailable file.sections data'.offset)
            (count - buf.length) = bytes
          have hcut : ¬ data'.offset + bytes > file.stSize := by omega
          have hchunk := inside.chunk_eq (show bytes ≤ _ by omega)
          have hfresh' := freshAfter inside (show bytes ≤ _ by omega) hcontent
          simp only [hcut, if_false, copyTo_end, hcontent, hchunk]
          -- the rest of the loop works on a buffer with `bytes` more
          generalize hbuf : buf ++ ((contents file.src.disk file.sections).drop
            data'.offset).take bytes = buf'
          have hlen : buf'.length = buf.length + bytes := by
            rw [← hbuf]
            simp only [List.length_append, List.length_take, List.length_drop, contents_length,
              ← file.stSize_eq]
            omega
          have hwrap : (buf.length + bytes) % 2 ^ 32 = buf'.length := by
            rw [hlen]
            omega
          rw [hwrap]
          simp only [hcontent] at hfresh'
          obtain ⟨hfresh'', hopened'', hdone⟩ := @ih buf' _ hfresh' (by simp only; omega)
            (by omega) (by simp only; omega)
          refine ⟨hfresh'', hopened''.trans hopened, ?_⟩
          rcases hdone with hneg | ⟨n, hdone⟩
          · exact Or.inl hneg
          · refine Or.inr ⟨bytes + n, ⟨?_, ?_, ?_, ?_, ?_⟩⟩
            · rw [hdone.offset, hoffset, Nat.add_assoc]
            · rw [hdone.ret, hlen, Nat.add_assoc]
            · rw [hdone.copied, ← hbuf, List.append_assoc, ← take_add_drop, hoffset]
            · have := hdone.le
              simp only at this
              omega
            · intro hzero
              omega
    · rw [if_neg hmore]
      have hret : toInt32 buf.length = (buf.length + 0 : Nat) := toInt32_small (by omega)
      refine ⟨hfresh, rfl, Or.inr ⟨0, ⟨rfl, hret, by simp, by omega, ?_⟩⟩⟩
      intro _
      omega

end Loop

section Calls

variable {file : File}

/-- A call of ifs_read() which returns a positive number has delivered so many bytes from
the offset on, and advanced the offset. It returns 0 only at the end or beyond. -/
def Event.Right (file : File) (e : Event) : Prop :=
  match e.op with
  | .read _ =>
    (0 < e.ret → e.start + e.ret.toNat ≤ file.stSize ∧
      e.buf = ((contents file.src.disk file.sections).drop e.start).take e.ret.toNat ∧
      e.stop = e.start + e.ret.toNat) ∧
    (e.ret = 0 → file.stSize ≤ e.start)
  | .lseek .. => True

/-- Whether the last call of ifs_lseek() with valid arguments has failed. -/
def seekFailed (failed : Bool) (e : Event) : Bool :=
  match e.op with
  | .read _ => failed
  | .lseek offset flag =>
    if 0 ≤ offset ∧ (flag = 0 ∨ flag = 1 ∨ flag = 2) then e.ret < 0 else failed

def lastSeekFailed (trace : List Event) : Bool := trace.foldl seekFailed false

/-- After the calls `pre`, the call `e` does not read on behind a failed seek, and does not
read more than an int can tell. -/
def CarefulStep (file : File) (pre : List Event) (e : Event) : Prop :=
  match e.op with
  | .read count => lastSeekFailed pre = false ∧ min count (file.stSize - e.start) < 2 ^ 31
  | .lseek .. => True

def Careful (file : File) (trace : List Event) : Prop :=
  ∀ pre e post, trace = pre ++ e :: post → CarefulStep file pre e

theorem Careful.snoc {trace : List Event} {e : Event} (h : Careful file (trace ++ [e])) :
    Careful file trace ∧ CarefulStep file trace e := by
  constructor
  · intro pre e' post heq
    apply h pre e' (post ++ [e])
    rw [heq]
    simp
  · exact h trace e [] rfl

theorem ifsRead_spec {count : Nat} {data : ImageFileSourceData} (hopen : data.opened = 1)
    (hfresh : CacheFresh file data) (hsmall : min count (file.stSize - data.offset) < 2 ^ 31) :
    CacheFresh file (ifsRead file count data).2 ∧ (ifsRead file count data).2.opened = 1 ∧
      Event.Right file ⟨.read count, (ifsRead file count data).1.1, (ifsRead file count data).1.2,
        data.offset, (ifsRead file count data).2.offset⟩ := by
  have negative {ret : Int} {buf : List UInt8} {stop : Nat} (hneg : ret < 0) :
      Event.Right file ⟨.read count, ret, buf, data.offset, stop⟩ :=
    ⟨fun hpos => absurd hneg (Int.not_lt.mpr (Int.le_of_lt hpos)),
      fun hzero => by simp at hzero; omega⟩
  by_cases hcount : count = 0
  · rw [ifsRead, if_pos hcount]
    exact ⟨hfresh, hopen, negative (show isoWrongArgValue < 0 by decide)⟩
  · rw [ifsRead, if_neg hcount, if_neg (by omega), if_neg (by omega)]
    obtain ⟨hfresh', hopened, hdone⟩ := @readLoop_spec file count
      (file.stSize - data.offset) [] data hfresh (Nat.le_refl _) (Nat.zero_le _)
      (by simpa using hsmall)
    refine ⟨hfresh', hopened.trans hopen, ?_⟩
    rcases hdone with hneg | ⟨n, hdone⟩
    · exact negative hneg
    · have hret := hdone.ret
      simp only [List.length_nil, Nat.zero_add] at hret
      rw [List.length_nil] at hdone
      constructor
      · intro hpos
        simp only [hret, Int.toNat_natCast] at hpos ⊢
        have hle := hdone.le
        refine ⟨by omega, ?_, hdone.offset⟩
        simpa using hdone.copied
      · intro hzero
        simp only [hret] at hzero
        rcases hdone.none (by omega) with hcount' | hend
        · exact absurd hcount' (by simp; omega)
        · exact hend

theorem ifsLseek_opened {offset flag : Int} {data : ImageFileSourceData} :
    (ifsLseek file offset flag data).2.opened = data.opened := by
  rw [ifsLseek]
  split
  · rfl
  · split
    · rfl
    · split
      · rfl
      · split
        · rfl
        next target _ =>
          split
          · have hload := (@readBlock_spec file (blockFromOffset file.sections target)
              { data with offset := target }).2.2
            dsimp only
            split
            · exact hload
            · exact hload
          · rfl

/-- A seek with valid arguments ends with a fresh cache, or fails. With other arguments
nothing happens. -/
theorem ifsLseek_fresh {offset flag : Int} {data : ImageFileSourceData} (hopen : data.opened = 1)
    (failed : Bool) (hfresh : failed = false → CacheFresh file data) {start stop : Nat}
    (hok : seekFailed failed ⟨.lseek offset flag, (ifsLseek file offset flag data).1, [],
      start, stop⟩ = false) :
    CacheFresh file (ifsLseek file offset flag data).2 := by
  by_cases hneg : offset < 0
  · have hinvalid : ¬ (0 ≤ offset ∧ (flag = 0 ∨ flag = 1 ∨ flag = 2)) := by omega
    simp only [seekFailed, hinvalid, if_false] at hok
    rw [ifsLseek, if_pos hneg]
    exact hfresh hok
  · rw [ifsLseek, if_neg hneg, if_neg (by omega), if_neg (by omega)] at hok ⊢
    cases htarget : seekTarget file data offset.toNat flag with
    | none =>
      have hinvalid : ¬ (0 ≤ offset ∧ (flag = 0 ∨ flag = 1 ∨ flag = 2)) := by
        rintro ⟨-, rfl | rfl | rfl⟩ <;> simp [seekTarget] at htarget
      simp only [seekFailed, hinvalid, if_false] at hok
      exact hfresh hok
    | some target =>
      have hvalid : 0 ≤ offset ∧ (flag = 0 ∨ flag = 1 ∨ flag = 2) := by
        refine ⟨by omega, ?_⟩
        simp only [seekTarget] at htarget
        split at htarget
        · exact Or.inl ‹_›
        · split at htarget
          · exact Or.inr (Or.inl ‹_›)
          · split at htarget
            · exact Or.inr (Or.inr ‹_›)
            · cases htarget
      simp only [htarget, seekFailed, hvalid, and_self, if_true] at hok ⊢
      split
      next hload =>
        rw [if_pos hload] at hok
        obtain ⟨hres, hoffset, -⟩ := @readBlock_spec file
          (blockFromOffset file.sections target) { data with offset := target }
        split at hok
        next hnegative => simp [hnegative] at hok
        next hpositive =>
          rw [if_neg hpositive]
          rcases hres with hnegative | ⟨-, hcontent⟩
          · exact absurd hnegative hpositive
          · intro _ _
            rw [hcontent, hoffset]
      next hskip =>
        intro hlt hne
        exact absurd ⟨hne, hlt⟩ hskip

/-- In every run which never reads on behind a failed seek, all reads are right. -/
theorem reads_right {content : Block} {trace : List Event} {data : ImageFileSourceData}
    (run : Run (calls file) (ifsOpen content) trace data) (careful : Careful file trace) :
    ∀ e ∈ trace, e.Right file := by
  have invariant := run.invariant
    (I := fun trace data => Careful file trace → data.opened = 1 ∧
      (lastSeekFailed trace = false → CacheFresh file data) ∧ ∀ e ∈ trace, e.Right file)
    (fun _ => ⟨rfl, fun _ _ hne => absurd (blockOffset_zero file.sections) hne, by simp⟩) ?_
  · exact (invariant careful).2.2
  intro trace data op data' e ih hstep hcareful
  obtain ⟨hbefore, hnow⟩ := hcareful.snoc
  obtain ⟨hopen, hfresh, hright⟩ := ih hbefore
  have hlast : lastSeekFailed (trace ++ [e]) = seekFailed (lastSeekFailed trace) e := by
    simp [lastSeekFailed]
  have hall (hnew : e.Right file) : ∀ e' ∈ trace ++ [e], e'.Right file := by
    intro e' he'
    rcases List.mem_append.mp he' with hold | hlast
    · exact hright e' hold
    · exact List.mem_singleton.mp hlast ▸ hnew
  cases op with
  | read count =>
    obtain ⟨rfl, rfl⟩ : (ifsRead file count data).2 = data' ∧
        Event.mk (.read count) (ifsRead file count data).1.1 (ifsRead file count data).1.2
          data.offset (ifsRead file count data).2.offset = e := by
      simpa [calls] using hstep
    obtain ⟨hfresh', hopen', hnew⟩ := ifsRead_spec hopen (hfresh hnow.1) hnow.2
    exact ⟨hopen', fun _ => hfresh', hall hnew⟩
  | lseek offset flag =>
    obtain ⟨rfl, rfl⟩ : (ifsLseek file offset flag data).2 = data' ∧
        Event.mk (.lseek offset flag) (ifsLseek file offset flag data).1 [] data.offset
          (ifsLseek file offset flag data).2.offset = e := by
      simp only [calls] at hstep
      split at hstep
      · cases hstep
      · simpa using hstep
    refine ⟨ifsLseek_opened.trans hopen, fun hok => ?_, hall trivial⟩
    exact ifsLseek_fresh hopen (lastSeekFailed trace) hfresh (hlast ▸ hok)

end Calls

section SmallFile

/-- A file with 8 bytes in block 7 of the image. The bytes of a block are its number. -/
def smallFile (fails : Nat → Option (Int × Block))
    (fails_neg : ∀ {k code left}, fails k = some (code, left) → code < 0) : File where
  src := ⟨fun block _ => UInt8.ofNat block, fails, fails_neg⟩
  sections := [⟨7, 8, by decide, by decide⟩]
  sections_ne := by decide
  stSize := 8
  stSize_eq := rfl

/-- All calls of `read_block` succeed except the first one. -/
def failsFirst : Nat → Option (Int × Block)
  | 0 => some (-1, fun _ => 0)
  | _ + 1 => none

theorem failsFirst_neg {k : Nat} {code : Int} {left : Block}
    (h : failsFirst k = some (code, left)) : code < 0 := by
  cases k with
  | zero =>
    obtain ⟨rfl, -⟩ := Prod.mk.inj (Option.some.inj h)
    decide
  | succ k => cases h

def readableFile : File := smallFile (fun _ => none) (by simp)

def unreadableFile : File := smallFile failsFirst failsFirst_neg

theorem reads_right_small : Event.Right readableFile ⟨.read 3, 3, [7, 7, 7], 2, 5⟩ := by
  have run : Run (calls readableFile) (ifsOpen fun _ => 0)
      [⟨.lseek 2 0, 2, [], 0, 2⟩, ⟨.read 3, 3, [7, 7, 7], 2, 5⟩] _ :=
    Run.snoc (a := .read 3) (Run.snoc (a := .lseek 2 0) .refl rfl) rfl
  refine reads_right run ?_ _ (by simp)
  intro pre e post heq
  match pre, heq with
  | [], heq =>
    obtain ⟨rfl, -⟩ := List.cons.inj heq
    exact trivial
  | [first], heq =>
    obtain ⟨hfirst, hrest⟩ := List.cons.inj heq
    obtain ⟨rfl, -⟩ := List.cons.inj hrest
    exact hfirst ▸ ⟨by decide, by decide⟩
  | a :: b :: pre, heq => simp at heq

/-- The position is inside of the block which could not be loaded. -/
theorem read_behind_failed_seek : (∃ data, Run (calls unreadableFile) (ifsOpen fun _ => 0)
    [⟨.lseek 2 0, -1, [], 0, 2⟩, ⟨.read 3, 3, [0, 0, 0], 2, 5⟩] data) ∧
      ¬ Event.Right unreadableFile ⟨.read 3, 3, [0, 0, 0], 2, 5⟩ := by
  constructor
  · exact ⟨_, Run.snoc (a := .read 3) (Run.snoc (a := .lseek 2 0) .refl rfl) rfl⟩
  · intro h
    have hcopied := (h.1 (by decide)).2.1
    revert hcopied
    decide

end SmallFile

end ImageFile
