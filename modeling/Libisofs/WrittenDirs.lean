import Libisofs.DirImportEnds
import Libisofs.LowLevelDirs

/-!
# Directories which get read as they were written

The records which write_one_dir() of ecma119.c has emitted for the children of a directory
are handed one after the other to iso_file_source_new_ifs() by read_dir() of fs_image.c, and
the end of the directory is found behind the last one of them.
-/

namespace WrittenDirs

open ByteBuffers BlockPacking ConsecutiveLayout Unrollings Relation
open LowLevelDirs
open ReadDir (IsoDataSource blockSize blockNumber blockAt offsetAt lenDr)
open DirImport
open Joliet (Section padBlock)

/-! ## Records as they get written -/

/-- The file identifier of a record. -/
def fileId (record : Buffer) : Bytes := slice record 33 (record 32).toNat

/-- What write_one_dir_record() makes the file identifier. -/
def identifier (r : DirRecord) : Bytes := r.name ++ if r.version then [0x3b, 0x31] else []

section Records

variable {f : DirFormat} {r : DirRecord} {susp : List UInt8} {record : Buffer}

theorem length_writeOneDirRecord : (writeOneDirRecord f r susp).length =
    33 + (identifier r).length + (if r.name.length % 2 = 1 then 0 else 1) + susp.length := by
  simp only [writeOneDirRecord, identifier, Joliet.isoBb, List.length_append, List.length_cons,
    List.length_nil, length_toLsb, length_toMsb, List.Vector.toList_length, List.length_replicate]
  omega

/-- The reader calculates the padding from the identifier with its version number. -/
theorem padding_eq (r : DirRecord) : (if r.name.length % 2 = 1 then 0 else 1) =
    ((identifier r).length + 1) % 2 := by
  have heven : (if r.version then [0x3b, 0x31] else [] : List UInt8).length % 2 = 0 := by
    cases r.version <;> rfl
  rw [identifier, List.length_append]
  by_cases hodd : r.name.length % 2 = 1
  · rw [if_pos hodd]
    omega
  · rw [if_neg hodd]
    omega

/-- What a buffer holds which holds a written record. -/
structure HoldsRecord (f : DirFormat) (r : DirRecord) (susp : List UInt8) (record : Buffer) :
    Prop where
  lenDr : record 0 = UInt8.ofNat (writeOneDirRecord f r susp).length
  extent : extentOf record = UInt32.ofNat (f.recordBlock r.block)
  length : lengthOf record = UInt32.ofNat r.len
  flags : flagsOf record = (if r.isDir then 2 else 0) ||| (if r.multiExtend then 0x80 else 0)
  fileUnitSize : record 26 = 0
  interleaveGapSize : record 27 = 0
  lenFi : record 32 = UInt8.ofNat (identifier r).length
  fileId : Holds record 33 (identifier r)
  susp : Holds record (33 + (identifier r).length + ((identifier r).length + 1) % 2) susp

theorem ofNat_ofLsb_slice {pos num : Nat} (h : Holds record pos (toLsb 4 num)) :
    UInt32.ofNat (ofLsb (slice record pos 4)) = UInt32.ofNat num := by
  rw [h.slice_of_length (length_toLsb 4 num), ofLsb_toLsb]
  exact UInt32.toNat_inj.mp (by simp)

theorem holdsRecord (h : Holds record 0 (writeOneDirRecord f r susp)) :
    HoldsRecord f r susp record := by
  have hlen := @length_writeOneDirRecord f r susp
  simp only [writeOneDirRecord, holds_append, holds_cons, Joliet.isoBb, length_toLsb, length_toMsb,
    List.Vector.toList_length, Nat.reduceAdd, Nat.zero_add, Nat.add_assoc, List.append_assoc,
    List.cons_append, List.nil_append] at h
  obtain ⟨hdr, hxa, hblock, -, hlength, -, -, hflags, hunit, hgap, -, -, hfi, hname, hversion, -,
    hsusp⟩ := h
  constructor
  case lenDr =>
    rw [hdr, hlen, identifier, List.length_append]
    refine congrArg UInt8.ofNat ?_
    omega
  case extent =>
    rw [extentOf, hxa, ofNat_ofLsb_slice hblock]
    simp
  case length => exact ofNat_ofLsb_slice hlength
  case flags => exact hflags
  case fileUnitSize => exact hunit
  case interleaveGapSize => exact hgap
  case lenFi => rw [hfi, identifier, List.length_append]
  case fileId => exact holds_append.mpr ⟨hname, hversion⟩
  case susp =>
    have hpad : 33 + (identifier r).length + ((identifier r).length + 1) % 2 =
        33 + (r.name.length + ((if r.version then [0x3b, 0x31] else [] : List UInt8).length +
          (List.replicate (if r.name.length % 2 = 1 then 0 else 1) (0 : UInt8)).length)) := by
      rw [← padding_eq, identifier, List.length_append, List.length_replicate]
      omega
    rw [hpad]
    exact hsusp

/-- The identifier can be read back from a record which is not too long. -/
theorem HoldsRecord.fileId_eq (h : HoldsRecord f r susp record)
    (hshort : (writeOneDirRecord f r susp).length < 256) :
    WrittenDirs.fileId record = identifier r := by
  rw [length_writeOneDirRecord] at hshort
  rw [WrittenDirs.fileId, h.lenFi]
  apply h.fileId.slice_of_length
  rw [UInt8.toNat_ofNat', Nat.mod_eq_of_lt (by omega)]

end Records

/-! ## Sequences of records -/

/-- The variables child and content of read_dir(). -/
abbrev Files := Option FileSource × List FileSource

/-- After iso_file_source_new_ifs() has returned `ret`. -/
def handed (ret : Int) (child : Option FileSource) (content : List FileSource) : Files :=
  if ret = 1 then (none, child.toList ++ content) else (child, content)

/-- The records are read without error, whatever follows them in memory. -/
inductive Takes (r : Reader) (src : IsoDataSource) : Files → List (List UInt8) → Files → Prop
  | done (files : Files) : Takes r src files [] files
  | record {child child' : Option FileSource} {content : List FileSource} {bytes : List UInt8}
      {rest : List (List UInt8)} {ret : Int} {files : Files} :
      (∀ record, Holds record 0 bytes →
        Gives (isoFileSourceNewIfs r src record child) (ret, child')) → 0 ≤ ret →
      Takes r src (handed ret child' content) rest files →
        Takes r src (child, content) (bytes :: rest) files

section Sequences

variable {r : Reader} {src : IsoDataSource} {files mid last : Files}
variable {as bs : List (List UInt8)}

theorem Takes.append (h : Takes r src files as mid) (h' : Takes r src mid bs last) :
    Takes r src files (as ++ bs) last := by
  induction h with
  | done files => exact h'
  | record hgives hret _ ih => exact .record hgives hret (ih h')

theorem Takes.split (h : Takes r src files (as ++ bs) last) :
    ∃ mid, Takes r src files as mid ∧ Takes r src mid bs last := by
  induction as generalizing files with
  | nil => exact ⟨files, .done files, h⟩
  | cons bytes as ih =>
    cases h with
    | record hgives hret hrest =>
      obtain ⟨mid, hmid, hlast⟩ := ih hrest
      exact ⟨mid, .record hgives hret hmid, hlast⟩

end Sequences

/-! ## Blocks of a directory -/

/-- The first byte of a record is its length. -/
def Sized (bytes : List UInt8) : Prop :=
  0 < bytes.length ∧ bytes.length < 256 ∧ bytes.head? = some (UInt8.ofNat bytes.length)

section Blocks

variable {r : Reader} {src : IsoDataSource} {block : UInt32} {s : Reading} {k pos size : Nat}

/-- Where read_dir() is, and which files it has got so far. -/
structure Stands (src : IsoDataSource) (block : UInt32) (s : Reading) (k pos : Nat)
    (files : Files) : Prop where
  walk : ReadDir.At src block s.walk k pos
  files : (s.child, s.content) = files

theorem Holds.first {bytes : List UInt8} {buf : Buffer} (h : Holds buf pos bytes)
    (hsized : Sized bytes) : buf pos = UInt8.ofNat bytes.length := by
  obtain ⟨hpos, -, hhead⟩ := hsized
  cases bytes with
  | nil => exact absurd hpos (lt_irrefl 0)
  | cons b rest =>
    exact (holds_cons.mp h).1.trans (Option.some.inj hhead)

theorem lenDr_eq {bytes : List UInt8} {buf : Buffer} (h : Holds buf pos bytes)
    (hsized : Sized bytes) : lenDr buf pos = bytes.length := by
  rw [lenDr, Holds.first h hsized, UInt8.toNat_ofNat', Nat.mod_eq_of_lt hsized.2.1]

theorem Holds.shift {bytes : List UInt8} {buf : Buffer} (h : Holds buf pos bytes) :
    Holds (fun i => buf (pos + i)) 0 bytes := by
  intro i b hb
  rw [Nat.zero_add]
  exact h i b hb

/-- A record is taken. -/
theorem next_record {files last : Files} {bytes : List UInt8} {rest : List (List UInt8)}
    (h : Stands src block s k pos files) (hholds : Holds s.walk.buffer pos bytes)
    (hsized : Sized bytes) (hin : offsetAt k pos < size) (hfits : pos + bytes.length ≤ blockSize)
    (htakes : Takes r src files (bytes :: rest) last) :
    ∃ s' files', Next (readTurn r src block size) s s' ∧ s'.walk.buffer = s.walk.buffer ∧
      Stands src block s' k (pos + bytes.length) files' ∧ Takes r src files' rest last := by
  have hpos := hsized.1
  have hlen := lenDr_eq hholds hsized
  obtain ⟨hwalk, rfl⟩ := h
  have hmid : ¬ (s.walk.pos = blockSize ∨ s.walk.buffer s.walk.pos = 0) := by
    rw [hwalk.pos_eq]
    rintro (hfull | hzero)
    · omega
    · rw [lenDr, hzero] at hlen
      exact absurd hlen (Nat.ne_of_lt hpos)
  have hmore : s.walk.tlen < size := hwalk.tlen_eq ▸ hin
  cases htakes with
  | @record _ child' _ _ _ ret _ hgives hret hrest =>
    have hrecord : Holds s.record 0 bytes := by
      unfold Reading.record
      rw [hwalk.pos_eq]
      exact Holds.shift hholds
    obtain ⟨n, hn⟩ := hgives s.record hrecord
    have hbehind := hlen ▸ hwalk.behindRecord (by omega) ret
    refine ⟨s.next ret child', handed ret child' s.content, ⟨n, ?_⟩, ?_, ⟨?_, ?_⟩, hrest⟩
    · simp only [readTurn, if_pos hmore, if_neg hmid, hn, Option.map_some,
        if_neg (Int.not_lt.mpr hret)]
    · unfold Reading.next
      split
      next => rfl
      next => rfl
    · unfold Reading.next
      split
      next => exact hbehind
      next => exact hbehind
    · unfold Reading.next handed
      split
      next => rfl
      next => rfl

/-- Records of one block are taken one after the other. -/
theorem next_records {recs : List (List UInt8)} {files last : Files}
    (h : Stands src block s k pos files) (hholds : Holds s.walk.buffer pos recs.flatten)
    (hsized : ∀ bytes ∈ recs, Sized bytes) (hfits : pos + recs.flatten.length ≤ blockSize)
    (hin : blockSize * k + pos + recs.flatten.length ≤ size) (hsize : size < 2 ^ 32)
    (htakes : Takes r src files recs last) :
    ∃ s', ReflTransGen (Next (readTurn r src block size)) s s' ∧
      s'.walk.buffer = s.walk.buffer ∧
      Stands src block s' k (pos + recs.flatten.length) last := by
  induction recs generalizing s pos files with
  | nil =>
    cases htakes
    exact ⟨s, .refl, rfl, h⟩
  | cons bytes rest ih =>
    rw [List.flatten_cons] at hholds hfits hin
    rw [List.length_append] at hfits hin
    obtain ⟨hfirst, hothers⟩ := holds_append.mp hholds
    have hbytes := hsized bytes (List.mem_cons_self ..)
    have hpos := hbytes.1
    have hoffset : offsetAt k pos < size := by
      rw [offsetAt, Nat.mod_eq_of_lt (by omega)]
      omega
    obtain ⟨s₁, files₁, hnext, hbuf, hs₁, htakes₁⟩ :=
      @next_record r src block s k pos size files last bytes rest h hfirst hbytes hoffset
        (by omega) htakes
    obtain ⟨s', hreach, hbuf', hs'⟩ := ih hs₁ (hbuf ▸ hothers)
      (fun b hb => hsized b (List.mem_cons_of_mem _ hb)) (by omega) (by omega) htakes₁
    refine ⟨s', .head hnext hreach, hbuf'.trans hbuf, ?_⟩
    rw [List.flatten_cons, List.length_append, ← Nat.add_assoc]
    exact hs'

/-- Behind the last record of a block the next block is read, unless the directory ends. -/
theorem next_block {files : Files} (h : Stands src block s k pos files) (hpos : pos ≤ blockSize)
    (hend : pos = blockSize ∨ s.walk.buffer pos = 0) (hin : offsetAt k pos < size)
    {buffer : Buffer} (hread : blockAt src block (k + 1) = .ok buffer) :
    ∃ s', Next (readTurn r src block size) s s' ∧ s'.walk.buffer = buffer ∧
      Stands src block s' (k + 1) 0 files := by
  obtain ⟨hwalk, hfiles⟩ := h
  have hpad : s.walk.pos = blockSize ∨ s.walk.buffer s.walk.pos = 0 := by
    rw [hwalk.pos_eq]
    exact hend
  have hmore : s.walk.tlen < size := hwalk.tlen_eq ▸ hin
  have hread' : src.readBlock (blockNumber block (s.walk.advanced + 1)) = .ok buffer := by
    rw [hwalk.advanced_eq]
    exact hread
  refine ⟨{ s with walk := ReadDir.nextBlock s.walk buffer }, ⟨0, ?_⟩, rfl,
    hwalk.inNextBlock hpos hread, hfiles⟩
  simp only [readTurn, if_pos hmore, if_pos hpad, hread']

/-- At the end of the directory the content is complete. -/
theorem ends_at {files : Files} (h : Stands src block s k pos files)
    (hend : size ≤ offsetAt k pos) :
    Gives (fun n => loop (readTurn r src block size) n s) (.ok files.2) := by
  obtain ⟨hwalk, rfl⟩ := h
  have hmore : ¬ s.walk.tlen < size := by
    rw [hwalk.tlen_eq]
    omega
  refine gives_of_turn ⟨0, ?_⟩
  simp only [readTurn, if_neg hmore]

/-- The padding of a block begins behind the records. -/
theorem padBlock_end {recs : List (List UInt8)} {buffer : Buffer}
    (h : Holds buffer 0 (padBlock recs)) (_ : recs.flatten.length ≤ blockSize) :
    recs.flatten.length = blockSize ∨ buffer recs.flatten.length = 0 := by
  rcases Nat.lt_or_ge recs.flatten.length blockSize with hlt | hge
  · right
    obtain ⟨-, hzeros⟩ := holds_append.mp h
    have hroom : 0 < Joliet.blockSize - recs.flatten.length := Nat.sub_pos_of_lt hlt
    have hzero := hzeros 0 0 (by rw [List.getElem?_replicate, if_pos hroom])
    rwa [Nat.zero_add] at hzero
  · left
    omega

/-- The blocks of a directory, and one more block, can be read. -/
structure Stored (src : IsoDataSource) (block : UInt32) (blocks : List (List UInt8)) : Prop where
  read : ∀ k bytes, blocks[k]? = some bytes →
    ∃ buffer, blockAt src block k = .ok buffer ∧ Holds buffer 0 bytes
  behind : ∃ buffer, blockAt src block blocks.length = .ok buffer

/-- The records of a block fit into it, and they bear their lengths. -/
def Fits (recs : List (List UInt8)) : Prop :=
  recs.flatten.length ≤ blockSize ∧ ∀ bytes ∈ recs, Sized bytes

/-- From the last record of a block on, the blocks which follow are read to their end. -/
theorem read_blocks {blocks : List (List (List UInt8))}
    (hstored : Stored src block (blocks.map padBlock)) (hfit : ∀ recs ∈ blocks, Fits recs)
    (hsize : size = blockSize * blocks.length) (hlt : size < 2 ^ 32)
    {later : List (List (List UInt8))} {files last : Files}
    (hlater : blocks.drop (k + 1) = later) (hk : k < blocks.length)
    (h : Stands src block s k pos files) (hpos : pos ≤ blockSize)
    (hend : pos = blockSize ∨ s.walk.buffer pos = 0)
    (htakes : Takes r src files later.flatten last) :
    Gives (fun n => loop (readTurn r src block size) n s) (.ok last.2) := by
  induction later generalizing s k pos files with
  | nil =>
    have hlast : k + 1 = blocks.length := by
      have := List.drop_eq_nil_iff.mp hlater
      omega
    obtain rfl : files = last := by
      cases htakes
      rfl
    have hmul : blockSize * (k + 1) = blockSize * k + blockSize := Nat.mul_succ _ _
    rw [← hlast, hmul] at hsize
    rcases hpos.lt_or_eq with hmore | hfull
    · have hoffset : offsetAt k pos < size := by
        rw [offsetAt, Nat.mod_eq_of_lt (by omega)]
        omega
      obtain ⟨buffer, hread⟩ := hstored.behind
      rw [List.length_map, ← hlast] at hread
      obtain ⟨s', hnext, -, hs'⟩ := @next_block r src block s k pos size files h hpos hend hoffset
        buffer hread
      refine gives_of_next stable_readTurn hnext (ends_at hs' ?_)
      rw [offsetAt, Nat.mod_eq_of_lt (by omega)]
      omega
    · refine ends_at h ?_
      rw [offsetAt, Nat.mod_eq_of_lt (by omega)]
      omega
  | cons recs later ih =>
    have hget : blocks[k + 1]? = some recs := by
      rw [← List.head?_drop, hlater]
      rfl
    obtain ⟨hk', -⟩ := List.getElem?_eq_some_iff.mp hget
    have hdrop : blocks.drop (k + 1 + 1) = later := by
      rw [← List.drop_drop, hlater]
      rfl
    obtain ⟨hrecs, hsized⟩ := hfit recs (List.mem_of_getElem? hget)
    obtain ⟨buffer, hread, hholds⟩ := hstored.read (k + 1) (padBlock recs) (by
      rw [List.getElem?_map, hget]
      rfl)
    have hmul : blockSize * (k + 1 + 1) ≤ blockSize * blocks.length := Nat.mul_le_mul_left _ hk'
    rw [Nat.mul_succ] at hmul
    have hmul' : blockSize * (k + 1) = blockSize * k + blockSize := Nat.mul_succ _ _
    have hoffset : offsetAt k pos < size := by
      have hwide : 0 < blockSize := by decide
      rw [offsetAt, Nat.mod_eq_of_lt (by omega)]
      omega
    obtain ⟨s₁, hnext, hbuf, hs₁⟩ := @next_block r src block s k pos size files h hpos hend hoffset
      buffer hread
    rw [List.flatten_cons] at htakes
    obtain ⟨mid, hmid, hrest⟩ := htakes.split
    have hrecords : Holds s₁.walk.buffer 0 recs.flatten := by
      rw [hbuf]
      exact (holds_append.mp hholds).1
    obtain ⟨s₂, hreach, hbuf₂, hs₂⟩ := @next_records r src block s₁ (k + 1) 0 size recs files mid
      hs₁ hrecords hsized (by omega) (by omega) hlt hmid
    rw [Nat.zero_add] at hs₂
    have hgives := ih hdrop hk' hs₂ hrecs (by
      rw [hbuf₂, hbuf]
      exact padBlock_end hholds hrecs) hrest
    exact gives_of_reaches stable_readTurn (.head hnext hreach) hgives

/-- A medium with nothing but the blocks of a directory and an empty block behind them. -/
def medium (blocks : List (List UInt8)) : IsoDataSource :=
  DirImport.source (blocks.map (fun bytes i => bytes.getD i 0) ++ [fun _ => 0])

theorem readBlock_medium {blocks : List (List UInt8)} {k : Nat} (hk : k < 2 ^ 32) {data : Buffer}
    (h : (blocks.map (fun bytes (i : Nat) => bytes.getD i 0) ++ [fun _ => 0])[k]? = some data) :
    blockAt (medium blocks) 0 k = .ok fun i => if i < blockSize then data i else 0 := by
  have hnumber : (blockNumber 0 k).toNat = k := by
    rw [blockNumber, UInt32.zero_add, UInt32.toNat_ofNat', Nat.mod_eq_of_lt hk]
  simp only [blockAt, medium, DirImport.source, hnumber, h]

theorem stored_medium {blocks : List (List UInt8)} (hcount : blocks.length < 2 ^ 32)
    (hlen : ∀ bytes ∈ blocks, bytes.length ≤ blockSize) : Stored (medium blocks) 0 blocks where
  read k bytes h := by
    obtain ⟨hk, rfl⟩ := List.getElem?_eq_some_iff.mp h
    refine ⟨_, @readBlock_medium blocks k (by omega) (fun i => blocks[k].getD i 0) ?_, ?_⟩
    · rw [List.getElem?_append_left (by simpa using hk), List.getElem?_map, h]
      rfl
    · intro i b hb
      obtain ⟨hi, rfl⟩ := List.getElem?_eq_some_iff.mp hb
      have hle := hlen _ (List.getElem_mem hk)
      dsimp only
      rw [Nat.zero_add, if_pos (by omega), List.getD, hb, Option.getD_some]
  behind := by
    refine ⟨_, @readBlock_medium blocks _ hcount (fun _ => 0) ?_⟩
    rw [List.getElem?_append_right (by simp)]
    simp

end Blocks

/-! ## Directories -/

/-- The children with the records which get written for them. `susp` tells the System Use
fields of the records from index `i` on. -/
def groups (f : DirFormat) (susp : Nat → List UInt8) :
    (i : Nat) → List LowNode → List (LowNode × List (List UInt8))
  | _, [] => []
  | i, child :: rest =>
    (child, (childRecords f child).mapIdx fun j r => writeOneDirRecord f r (susp (i + j))) ::
      groups f susp (i + (childRecords f child).length) rest

/-- A directory of the ECMA-119 tree. Its length has been set by calc_dir_pos(), and the
number of sections of a file is a positive int. -/
structure WrittenDir where
  t : Ecma119Image
  entry : DirEntry
  short : ∀ bytes ∈ writtenRecords (ecma119Format t) entry, bytes.length < 256
  len_eq : entry.dir.len = blockSize * (dirBlocks (ecma119Format t) entry).length
  len_lt : entry.dir.len < 2 ^ 32
  sections : ∀ name time sections, .file name time sections ∈ entry.dir.children →
    sections ≠ [] ∧ sections.length < 2 ^ 31

namespace WrittenDir

/-- The blocks up to the Continuation Area. -/
def blocks (d : WrittenDir) : List (List UInt8) :=
  (dirBlocks (ecma119Format d.t) d.entry).map padBlock

def children (d : WrittenDir) : List (LowNode × List (List UInt8)) :=
  groups (ecma119Format d.t) (d.t.suspFields d.entry.dir) 2 d.entry.dir.children

end WrittenDir

section Directories

variable {f : DirFormat} {e : DirEntry}

theorem groups_records (susp : Nat → List UInt8) (i : Nat) (children : List LowNode) :
    (groups f susp i children).flatMap Prod.snd =
      (children.flatMap (childRecords f)).mapIdx fun j r =>
        writeOneDirRecord f r (susp (i + j)) := by
  induction children generalizing i with
  | nil => rfl
  | cons child rest ih =>
    rw [groups, List.flatMap_cons, List.flatMap_cons, List.mapIdx_append, ih]
    simp only [Nat.add_assoc, Nat.add_comm (childRecords f child).length]

theorem mem_groups {f : DirFormat} {susp : Nat → List UInt8} {i : Nat} {children : List LowNode}
    {p : LowNode × List (List UInt8)} (h : p ∈ groups f susp i children) :
    ∃ j, p.2 = (childRecords f p.1).mapIdx fun k d => writeOneDirRecord f d (susp (j + k)) := by
  induction children generalizing i with
  | nil => exact absurd h List.not_mem_nil
  | cons child rest ih =>
    rcases List.mem_cons.mp h with rfl | hmem
    · exact ⟨i, rfl⟩
    · exact ih hmem

/-- The records of "." and "..", and then those of the children. -/
theorem writtenRecords_eq : writtenRecords f e =
    writeOneDirRecord f (dotRecord e.dir e.ancestors.head? 0) (f.suspFields e.dir 0) ::
      writeOneDirRecord f (dotRecord (f.dotDotNode e.dir e.ancestors).1
        (f.dotDotNode e.dir e.ancestors).2 1) (f.suspFields e.dir 1) ::
      (groups f (f.suspFields e.dir) 2 e.dir.children).flatMap Prod.snd := by
  rw [groups_records]
  simp only [writtenRecords, dirRecords, List.mapIdx_cons, Nat.add_comm 2]

theorem head_writeOneDirRecord (r : DirRecord) (susp : List UInt8) :
    (writeOneDirRecord f r susp).head? =
      some (UInt8.ofNat (writeOneDirRecord f r susp).length) := by
  rw [length_writeOneDirRecord]
  simp only [writeOneDirRecord, identifier, List.append_assoc, List.cons_append, List.head?_cons,
    List.length_append]
  refine congrArg (fun n => some (UInt8.ofNat n)) ?_
  omega

theorem sized_written {bytes : List UInt8} (h : bytes ∈ writtenRecords f e)
    (hshort : bytes.length < 256) : Sized bytes := by
  obtain ⟨i, hi, rfl⟩ := List.mem_iff_getElem.mp h
  simp only [writtenRecords, List.getElem_mapIdx] at hshort ⊢
  refine ⟨?_, hshort, head_writeOneDirRecord _ _⟩
  rw [length_writeOneDirRecord]
  omega

end Directories

namespace WrittenDir

variable (d : WrittenDir)

theorem fits {recs : List (List UInt8)}
    (h : recs ∈ dirBlocks (ecma119Format d.t) d.entry) : Fits recs := by
  have hmem : ∀ bytes ∈ recs, bytes ∈ writtenRecords (ecma119Format d.t) d.entry := by
    intro bytes hbytes
    rw [← flatten_dirBlocks]
    exact List.mem_flatten.mpr ⟨recs, h, hbytes⟩
  refine ⟨?_, fun bytes hbytes => sized_written (hmem bytes hbytes) (d.short _ (hmem _ hbytes))⟩
  have hshort : ∀ bytes ∈ writtenRecords (ecma119Format d.t) d.entry,
      bytes.length ≤ Joliet.blockSize := by
    intro bytes hbytes
    exact Nat.le_trans (Nat.le_of_lt (d.short bytes hbytes)) (by decide)
  have htwo : total List.length ((writtenRecords (ecma119Format d.t) d.entry).take 2) ≤
      Joliet.blockSize := by
    have hle := @total_le _ List.length 255 ((writtenRecords (ecma119Format d.t) d.entry).take 2)
      fun bytes hbytes => Nat.le_of_lt_succ (d.short bytes (List.mem_of_mem_take hbytes))
    have hcount := List.length_take_le 2 (writtenRecords (ecma119Format d.t) d.entry)
    have hwide : Joliet.blockSize = 2048 := rfl
    have hmul := Nat.mul_le_mul_right 255 hcount
    omega
  have hfit := @pack_fit _ Joliet.blockSize List.length [] _ _ (by simp) htwo
    (fun bytes hbytes => hshort bytes (List.mem_of_mem_drop hbytes)) recs h
  rwa [total, ← List.length_flatten] at hfit

theorem children_short {p : LowNode × List (List UInt8)} (hp : p ∈ d.children)
    (bytes : List UInt8) (hbytes : bytes ∈ p.2) : bytes.length < 256 := by
  refine d.short bytes ?_
  rw [writtenRecords_eq]
  exact List.mem_cons_of_mem _ (List.mem_cons_of_mem _ (List.mem_flatMap.mpr ⟨p, hp, hbytes⟩))

/-- The first record is the one of ".", which tells the length of the directory. -/
theorem dirSize_eq {buffer : Buffer} {susp : List UInt8}
    (h : Holds buffer 0 (writeOneDirRecord (ecma119Format d.t)
      (dotRecord d.entry.dir d.entry.ancestors.head? 0) susp)) :
    ReadDir.dirSize buffer = d.entry.dir.len := by
  have hlength := (holdsRecord h).length
  have hlt : ReadDir.dirSize buffer < 2 ^ 32 := by
    have := ofLsb_lt (slice buffer (0 + 10) 4)
    rwa [length_slice] at this
  have hnat := congrArg UInt32.toNat hlength
  change (UInt32.ofNat (ReadDir.dirSize buffer)).toNat =
    (UInt32.ofNat d.entry.dir.len).toNat at hnat
  rwa [UInt32.toNat_ofNat', UInt32.toNat_ofNat', Nat.mod_eq_of_lt hlt,
    Nat.mod_eq_of_lt d.len_lt] at hnat

/-- read_dir() takes the records of the children, one after the other, and then it ends. -/
theorem readDir_gives {r : Reader} {src : IsoDataSource} {block : UInt32} {last : Files}
    (hstored : Stored src block d.blocks)
    (htakes : Takes r src (none, []) (d.children.flatMap Prod.snd) last) :
    Gives (readDir r src block) (.ok last.2) := by
  have hrecords := @writtenRecords_eq (ecma119Format d.t) d.entry
  obtain ⟨more, later, hpack⟩ := @pack_first _ Joliet.blockSize List.length
    ((writtenRecords (ecma119Format d.t) d.entry).take 2)
    ((writtenRecords (ecma119Format d.t) d.entry).drop 2)
  have hflatten := @flatten_dirBlocks (ecma119Format d.t) d.entry
  rw [← dirBlocks] at hpack
  rw [hrecords] at hpack hflatten
  generalize hdot : writeOneDirRecord (ecma119Format d.t)
    (dotRecord d.entry.dir d.entry.ancestors.head? 0) _ = dot at hpack hflatten
  generalize writeOneDirRecord (ecma119Format d.t) (dotRecord _ _ 1) _ = dotDot at hpack hflatten
  have hpack' : dirBlocks (ecma119Format d.t) d.entry = (dot :: dotDot :: more) :: later := hpack
  have hchildren : d.children.flatMap Prod.snd = more ++ later.flatten := by
    rw [hpack'] at hflatten
    exact (List.cons.inj (List.cons.inj hflatten).2).2.symm
  -- the first block
  obtain ⟨hfits, hsized⟩ := d.fits (hpack' ▸ List.mem_cons_self ..)
  obtain ⟨buffer, hread, hholds⟩ := hstored.read 0 (padBlock (dot :: dotDot :: more)) (by
    rw [blocks, hpack']
    rfl)
  have hfirst := (holds_append.mp hholds).1
  rw [List.flatten_cons, List.flatten_cons] at hfirst
  obtain ⟨hone, htwo⟩ := holds_append.mp hfirst
  obtain ⟨htwo, hmore⟩ := holds_append.mp htwo
  rw [Nat.zero_add] at htwo hmore
  have hsize := d.dirSize_eq (hdot ▸ hone)
  have hstart : ReadDir.firstPos buffer = dot.length + dotDot.length := by
    rw [ReadDir.firstPos, lenDr_eq hone (hsized dot (by simp)),
      lenDr_eq htwo (hsized dotDot (by simp))]
  have hread' : src.readBlock block = .ok buffer := by
    have hzero : blockNumber block 0 = block := UInt32.add_zero block
    rwa [blockAt, hzero] at hread
  have hshort : dot.length + dotDot.length + more.flatten.length ≤ blockSize := by
    rw [List.flatten_cons, List.flatten_cons, List.length_append, List.length_append] at hfits
    omega
  have hwide : blockSize = 2048 := rfl
  have hstands : Stands src block (readStart buffer) 0 (dot.length + dotDot.length) (none, []) := by
    refine ⟨⟨rfl, hread, hstart, ?_⟩, rfl⟩
    rw [offsetAt, Nat.mul_zero, Nat.zero_add, Nat.mod_eq_of_lt (by omega)]
    exact hstart
  have hcount : (dirBlocks (ecma119Format d.t) d.entry).length = later.length + 1 := by
    rw [hpack']
    rfl
  have hlen := d.len_eq
  have hlt := d.len_lt
  rw [hcount, Nat.mul_succ] at hlen
  rw [hchildren] at htakes
  obtain ⟨mid, hmid, hrest⟩ := htakes.split
  obtain ⟨s, hreach, hbuf, hs⟩ := @next_records r src block (readStart buffer) 0 _
    d.entry.dir.len more (none, []) mid hstands hmore
    (fun bytes hbytes => hsized bytes (by simp [hbytes])) hshort (by omega) d.len_lt hmid
  have hend := padBlock_end hholds hfits
  have hplace : (dot :: dotDot :: more).flatten.length =
      dot.length + dotDot.length + more.flatten.length := by
    rw [List.flatten_cons, List.flatten_cons, List.length_append, List.length_append]
    omega
  rw [hplace] at hend
  have hgives := read_blocks hstored (fun recs hrecs => d.fits hrecs) d.len_eq d.len_lt
    (by rw [hpack']; rfl : (dirBlocks (ecma119Format d.t) d.entry).drop (0 + 1) = later)
    (by omega) hs hshort (by rwa [hbuf]) hrest
  unfold readDir
  rw [hread']
  dsimp only
  rw [hsize]
  exact gives_of_reaches stable_readTurn hreach hgives

end WrittenDir

end WrittenDirs
