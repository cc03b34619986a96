import Libisofs.Lib.Alignment
import Libisofs.Lib.Layout
import Libisofs.Lib.Results
import Libisofs.ReadIntervals

/-!
# Appended partitions

iso_compute_append_partitions() reserves blocks for the partitions which shall be appended to
the ISO filesystem, before anything gets written. The inputs are read and written by
iso_write_partition_file() when it is their turn. All block numbers are 32 bit.
-/

namespace AppendedPartitions

open ByteBuffers ReadIntervals AlignedLayout ConsecutiveLayout

/-- A file which stat() finds to be regular or not, and which may refuse to be opened. Or the
reader which gets created from a description string. -/
inductive PartitionInput where
  | diskFile (regularSize : Option Nat) (opens : Bool) (content : Buffer)
  | intervals (ivr : Except Int IntervalReader)

structure IsoWriteOpts where
  systemAreaOptions : Nat
  appendable : Bool
  msBlock : UInt32
  isoMbrPartType : Int
  appendedPartitions : Fin 8 → Option PartitionInput

structure Ecma119Image where
  opts : IsoWriteOpts
  systemAreaOptions : Nat
  partitionHeadsPerCyl : Nat
  partitionSecsPerHead : Nat
  curblock : UInt32
  totalSize : Nat
  geometry_pos : 0 < partitionHeadsPerCyl * partitionSecsPerHead
  geometry_lt : partitionHeadsPerCyl * partitionSecsPerHead < 2 ^ 31

def isoBadPartitionNo : Int := 0xE830FE8F - 2 ^ 32

def isoMultiOverImported : Int := 0xE830FE5C - 2 ^ 32

def isoSunCylSize : UInt32 := 160

/-- The first and the last possible partition number. -/
def isoTellMaxPartRange (opts : IsoWriteOpts) : Nat × Nat :=
  if (opts.systemAreaOptions >>> 2) &&& 0x3f = 3 then (2, 8) else (1, 4)

/-- Whether a reader shall be kept in place. -/
def isoIntervalReaderKeep (t : Ecma119Image) (ivr : IntervalReader) : Except Int Bool :=
  match ivr.source with
  | .localFs _ => .ok false
  | .importedIso _ =>
    if !t.opts.appendable then .ok false
    else if t.opts.msBlock.toNat ≤ ivr.endByte / blockSize then .error isoMultiOverImported
    else .ok true

structure PartitionSize where
  size : UInt32
  keep : Bool

def computePartitionSize (t : Ecma119Image) : PartitionInput → Except Int PartitionSize
  | .intervals ivr => do
    let ivr ← ivr
    let byteCount := ivr.endByte - ivr.startByte + 1
    let keep ← isoIntervalReaderKeep t ivr
    .ok ⟨UInt32.ofNat ((byteCount + blockSize - 1) / blockSize), keep⟩
  | .diskFile none _ _ => .error isoBadPartitionFile
  | .diskFile (some size) _ _ =>
    let num := (size + 2047) / 2048
    if num > 0x3fffffff ∨ num = 0 then .error isoBadPartitionFile else .ok ⟨UInt32.ofNat num, false⟩

/-- The byte address of an interval which is kept in place. -/
def isoIntervalReaderStart : PartitionInput → Nat
  | .intervals (.ok ivr) => ivr.startByte
  | _ => 0

def saType (t : Ecma119Image) : Nat := (t.systemAreaOptions >>> 2) &&& 0x3f

def cylAlign (t : Ecma119Image) : Nat := (t.systemAreaOptions >>> 8) &&& 0x3

/-- In blocks of 2048. It stays 0 if a cylinder is not a whole number of them. -/
def cylSize (t : Ecma119Image) : UInt32 :=
  if saType t = 0 ∧ cylAlign t = 3 then
    let size := t.partitionHeadsPerCyl * t.partitionSecsPerHead
    if size % 4 ≠ 0 then 0 else UInt32.ofNat (size / 4)
  else 0

def addPos (t : Ecma119Image) (pos : UInt32) : UInt32 :=
  if saType t = 3 ∧ pos % isoSunCylSize ≠ 0 then isoSunCylSize - pos % isoSunCylSize
  else if cylSize t > 0 ∧ pos % cylSize t ≠ 0 then cylSize t - pos % cylSize t
  else 0

/-- Missing data will be written as zeros. -/
def cylinderAligned (t : Ecma119Image) (size : UInt32) : UInt32 :=
  if cylSize t > 0 ∧ size % cylSize t ≠ 0 then size + (cylSize t - size % cylSize t) else size

/-- The elements of the arrays `appended_part_prepad`, `_start`, and `_size`. -/
structure Appended where
  index : Fin 8
  keep : Bool
  prepad : UInt32
  start : UInt32
  size : UInt32

/-- What changes from turn to turn. -/
structure Computing where
  isoMbrPartType : Int
  totalSize : Nat
  curblock : UInt32
  pos : UInt32
  appended : List Appended

/-- A turn of the loop over the partition numbers. `flag` tells whether to count the blocks
as part of the ISO image. -/
def computeTurn (t : Ecma119Image) (flag : Bool) (i : Fin 8) (st : Computing) :
    Except Int Computing :=
  match t.opts.appendedPartitions i with
  | none => .ok st
  | some input =>
    let (firstPartition, lastPartition) := isoTellMaxPartRange t.opts
    if (i : Nat) + 1 > lastPartition ∨ (i : Nat) + 1 < firstPartition then .error isoBadPartitionNo
    else do
      let computed ← computePartitionSize t input
      if computed.keep then
        .ok { st with
          isoMbrPartType := 0
          appended := st.appended ++ [⟨i, true, 0,
            UInt32.ofNat (isoIntervalReaderStart input / blockSize), computed.size⟩] }
      else
        let add := addPos t st.pos
        let size := cylinderAligned t computed.size
        let pos := st.pos + (add + size)
        .ok { st with
          totalSize := st.totalSize + (add.toNat + size.toNat) * blockSize
          curblock := if flag then pos else st.curblock
          pos
          appended := st.appended ++ [⟨i, false, add, st.pos + add, size⟩] }

def computeLoop (t : Ecma119Image) (flag : Bool) :
    List (Fin 8) → Computing → Except Int Computing
  | [], st => .ok st
  | i :: rest, st => do
    let st ← computeTurn t flag i st
    computeLoop t flag rest st

/-- The image and the arrays after the computation. -/
def isoComputeAppendPartitions (t : Ecma119Image) (flag : Bool) :
    Except Int (Ecma119Image × List Appended) := do
  let st ← computeLoop t flag (List.finRange 8)
    ⟨t.opts.isoMbrPartType, t.totalSize, t.curblock, t.curblock, []⟩
  .ok ({ t with
    opts := { t.opts with isoMbrPartType := st.isoMbrPartType }
    totalSize := st.totalSize
    curblock := st.curblock }, st.appended)

def zeroBlock : List UInt8 := List.replicate blockSize 0

/-- The block of a file, filled up by zeros where the file is too short. -/
def fileBlock (size : Nat) (content : Buffer) (k : Nat) : List UInt8 :=
  (List.range blockSize).map fun j =>
    if blockSize * k + j < size then content (blockSize * k + j) else 0

def readBlocks : (blocks : Nat) → IntervalReader → Buffer → Except Int (List (List UInt8))
  | 0, _, _ => .ok []
  | blocks + 1, ivr, buf =>
    let out := isoIntervalReaderRead ivr buf
    if out.ret < 0 then .error out.ret
    else do
      let rest ← readBlocks blocks out.ivr out.buf
      .ok (slice out.buf 0 blockSize :: rest)

def isoWritePartitionFile (t : Ecma119Image) (input : PartitionInput) (prepad blocks : UInt32) :
    Except Int (List (List UInt8)) :=
  let padding := List.replicate prepad.toNat zeroBlock
  match input with
  | .intervals ivr => do
    let ivr ← ivr
    let keep ← isoIntervalReaderKeep t ivr
    if keep then .ok padding
    else do
      let written ← readBlocks blocks.toNat ivr fun _ => 0
      .ok (padding ++ written)
  | .diskFile size opens content =>
    if !opens then .error isoBadPartitionFile
    else .ok (padding ++ (List.range blocks.toNat).map (fileBlock (size.getD 0) content))

/-- What the arrays tell about a partition. -/
def placement (appended : List Appended) (i : Fin 8) : UInt32 × UInt32 :=
  match appended.find? fun a => a.index = i with
  | none => (0, 0)
  | some a => (a.prepad, a.size)

def writeLoop (t : Ecma119Image) (appended : List Appended) :
    List (Fin 8) → Except Int (List (List UInt8))
  | [] => .ok []
  | i :: rest =>
    match t.opts.appendedPartitions i with
    | none => writeLoop t appended rest
    | some input => do
      let (prepad, size) := placement appended i
      let blocks ← isoWritePartitionFile t input prepad size
      let others ← writeLoop t appended rest
      .ok (blocks ++ others)

/-- The partition numbers in their possible range. -/
def partitionRange (t : Ecma119Image) : List (Fin 8) :=
  (List.finRange 8).filter fun i =>
    (isoTellMaxPartRange t.opts).1 ≤ (i : Nat) + 1 ∧ (i : Nat) + 1 ≤ (isoTellMaxPartRange t.opts).2

def partappendWriterWriteData (t : Ecma119Image) (appended : List Appended) :
    Except Int (List (List UInt8)) :=
  writeLoop t appended (partitionRange t)

section Alignment

variable (t : Ecma119Image)

/-- The number of blocks of which the start of a partition shall be a multiple. -/
def startAlign : Nat := if saType t = 3 then isoSunCylSize.toNat else (cylSize t).toNat

def sizeAlign : Nat := (cylSize t).toNat

theorem toNat_padding {n align : UInt32} (hpos : 0 < align) :
    (align - n % align).toNat = align.toNat - n.toNat % align.toNat := by
  have hlt : n % align < align := UInt32.mod_lt n hpos
  rw [UInt32.toNat_sub_of_le _ _ (UInt32.le_of_lt hlt), UInt32.toNat_mod]

theorem mod_eq_zero_iff {n align : UInt32} : n % align = 0 ↔ n.toNat % align.toNat = 0 := by
  rw [← UInt32.toNat_inj, UInt32.toNat_mod, UInt32.toNat_zero]

/-- The padding leads to the next aligned block. -/
theorem toNat_addPos (pos : UInt32) :
    (addPos t pos).toNat = alignUp (startAlign t) pos.toNat - pos.toNat := by
  rw [addPos, startAlign]
  by_cases hsun : saType t = 3
  · have hcyl : cylSize t = 0 := by
      rw [cylSize, if_neg (by omega)]
    simp only [hsun, true_and, if_true, hcyl, UInt32.lt_irrefl, gt_iff_lt, false_and, if_false]
    rw [alignUp]
    by_cases hzero : pos % isoSunCylSize = 0
    · rw [if_neg (by simpa using hzero), if_pos (mod_eq_zero_iff.mp hzero)]
      simp
    · rw [if_pos hzero, if_neg (mt mod_eq_zero_iff.mpr hzero), toNat_padding (by decide)]
      omega
  · simp only [hsun, false_and, if_false]
    rw [alignUp]
    by_cases hpos : 0 < cylSize t
    · by_cases hzero : pos % cylSize t = 0
      · rw [if_neg (by simp [hzero]), if_pos (mod_eq_zero_iff.mp hzero)]
        simp
      · rw [if_pos ⟨hpos, hzero⟩, if_neg (mt mod_eq_zero_iff.mpr hzero), toNat_padding hpos]
        omega
    · have hcyl : cylSize t = 0 := by
        rw [UInt32.not_lt] at hpos
        exact UInt32.le_zero_iff.mp hpos
      rw [if_neg (fun h => hpos h.1), hcyl, UInt32.toNat_zero, Nat.mod_zero]
      split
      · simp
      · simp

/-- The rounded size, if it is not too large. -/
theorem toNat_cylinderAligned {size : UInt32} (h : alignUp (sizeAlign t) size.toNat < 2 ^ 32) :
    (cylinderAligned t size).toNat = alignUp (sizeAlign t) size.toNat := by
  rw [cylinderAligned]
  rw [alignUp, sizeAlign] at *
  by_cases hpos : 0 < cylSize t
  · by_cases hzero : size % cylSize t = 0
    · rw [if_neg (by simp [hzero]), if_pos (mod_eq_zero_iff.mp hzero)]
    · rw [if_neg (mt mod_eq_zero_iff.mpr hzero)] at *
      rw [if_pos ⟨hpos, hzero⟩, UInt32.toNat_add, toNat_padding hpos, Nat.mod_eq_of_lt h]
  · have hcyl : cylSize t = 0 := by
      rw [UInt32.not_lt] at hpos
      exact UInt32.le_zero_iff.mp hpos
    rw [if_neg fun h => hpos h.1]
    split
    · rfl
    · simp [hcyl]

end Alignment

section Computation

variable {t : Ecma119Image} {flag : Bool}

/-- The number of bytes which a partition shall get. -/
def inputBytes : PartitionInput → Nat
  | .intervals (.ok ivr) => ivr.endByte - ivr.startByte + 1
  | .intervals (.error _) => 0
  | .diskFile size _ _ => size.getD 0

def inputBlocks (input : PartitionInput) : Nat := (inputBytes input + 2047) / 2048

def isKept (t : Ecma119Image) : PartitionInput → Bool
  | .intervals (.ok ivr) => (isoIntervalReaderKeep t ivr).toOption.getD false
  | _ => false

/-- The inputs which shall be written, in the sequence of their numbers. -/
def newInputs (t : Ecma119Image) (numbers : List (Fin 8)) : List PartitionInput :=
  (numbers.filterMap t.opts.appendedPartitions).filter fun input => !isKept t input

/-- Where the partitions end if the block numbers are not limited. -/
def partitionsEnd (t : Ecma119Image) (pos : Nat) (numbers : List (Fin 8)) : Nat :=
  layoutEnd (startAlign t) (sizeAlign t) inputBlocks pos (newInputs t numbers)

theorem computePartitionSize_ok {input : PartitionInput} {computed : PartitionSize}
    (h : computePartitionSize t input = .ok computed) :
    computed.size = UInt32.ofNat (inputBlocks input) ∧ computed.keep = isKept t input := by
  cases input with
  | diskFile size opens content =>
    cases size with
    | none => cases h
    | some size =>
      rw [computePartitionSize] at h
      split at h
      next => cases h
      next =>
        obtain rfl := Except.ok.inj h
        exact ⟨rfl, rfl⟩
  | intervals ivr =>
    simp only [computePartitionSize, Results.bind_eq_ok] at h
    obtain ⟨reader, rfl, keep, hkeep, heq⟩ := h
    obtain rfl := Except.ok.inj heq
    refine ⟨rfl, ?_⟩
    rw [isKept, hkeep]
    rfl

/-- The partitions which do not stay in place. -/
def added (appended : List Appended) : List Appended := appended.filter fun a => !a.keep

def stop (a : Appended) : Nat := a.start.toNat + a.size.toNat

/-- The number of blocks with the padding before them. -/
def needed (a : Appended) : Nat := a.prepad.toNat + a.size.toNat

/-- Each partition begins at the next possible block. -/
def Laid (t : Ecma119Image) : (pos : Nat) → List Appended → Prop
  | _, [] => True
  | pos, a :: rest =>
    a.start.toNat = alignUp (startAlign t) pos ∧ a.prepad.toNat = a.start.toNat - pos ∧
      (∃ input, t.opts.appendedPartitions a.index = some input ∧
        a.size.toNat = alignUp (sizeAlign t) (inputBlocks input)) ∧ Laid t (stop a) rest

theorem Laid.stop_eq {pos : Nat} {a : Appended} {rest : List Appended}
    (h : Laid t pos (a :: rest)) : stop a = pos + needed a := by
  obtain ⟨hstart, hprepad, -⟩ := h
  have hle := le_alignUp (startAlign t) pos
  rw [stop, needed, hprepad]
  omega

theorem Laid.append {pos : Nat} {xs ys : List Appended} (hxs : Laid t pos xs)
    (hys : Laid t (pos + total needed xs) ys) : Laid t pos (xs ++ ys) := by
  induction xs generalizing pos with
  | nil => simpa using hys
  | cons a rest ih =>
    have hstop := hxs.stop_eq
    obtain ⟨hstart, hprepad, hinput, hrest⟩ := hxs
    refine ⟨hstart, hprepad, hinput, ih hrest ?_⟩
    rw [total_cons] at hys
    rw [hstop, Nat.add_assoc]
    exact hys

/-- What some turns of the loop do. -/
structure Advanced (t : Ecma119Image) (numbers : List (Fin 8)) (st st' : Computing)
    (new : List Appended) : Prop where
  appended : st'.appended = st.appended ++ new
  numbers : new.map Appended.index = numbers.filter fun i => (t.opts.appendedPartitions i).isSome
  inputs : ∀ a ∈ new, ∃ input, t.opts.appendedPartitions a.index = some input ∧
    a.keep = isKept t input ∧ (a.keep → a.prepad = 0)
  inRange : ∀ a ∈ new, (isoTellMaxPartRange t.opts).1 ≤ (a.index : Nat) + 1 ∧
    (a.index : Nat) + 1 ≤ (isoTellMaxPartRange t.opts).2
  laid : Laid t st.pos.toNat (added new)
  pos : st'.pos.toNat = st.pos.toNat + total needed (added new)
  totalSize : st'.totalSize = st.totalSize + total needed (added new) * blockSize
  curblock : st'.curblock = st'.pos

theorem Advanced.trans {numbers numbers' : List (Fin 8)} {st₀ st₁ st₂ : Computing}
    {new new' : List Appended} (h : Advanced t numbers st₀ st₁ new)
    (h' : Advanced t numbers' st₁ st₂ new') :
    Advanced t (numbers ++ numbers') st₀ st₂ (new ++ new') := by
  have hadded : added (new ++ new') = added new ++ added new' := List.filter_append ..
  constructor
  case appended => rw [h'.appended, h.appended, List.append_assoc]
  case numbers => rw [List.map_append, List.filter_append, h.numbers, h'.numbers]
  case inputs =>
    intro a ha
    rcases List.mem_append.mp ha with hfirst | hsecond
    · exact h.inputs a hfirst
    · exact h'.inputs a hsecond
  case inRange =>
    intro a ha
    rcases List.mem_append.mp ha with hfirst | hsecond
    · exact h.inRange a hfirst
    · exact h'.inRange a hsecond
  case laid =>
    rw [hadded]
    exact h.laid.append (h.pos ▸ h'.laid)
  case pos =>
    rw [hadded, total_append, h'.pos, h.pos, Nat.add_assoc]
  case totalSize =>
    rw [hadded, total_append, h'.totalSize, h.totalSize, Nat.add_assoc, Nat.add_mul]
  case curblock => exact h'.curblock

theorem computeTurn_advanced {i : Fin 8} {rest : List (Fin 8)} {st st' : Computing}
    (h : computeTurn t true i st = .ok st') (hcurblock : st.curblock = st.pos)
    (hfits : partitionsEnd t st.pos.toNat (i :: rest) < 2 ^ 32) :
    ∃ new, Advanced t [i] st st' new ∧
      partitionsEnd t st'.pos.toNat rest = partitionsEnd t st.pos.toNat (i :: rest) := by
  rw [computeTurn] at h
  cases hinput : t.opts.appendedPartitions i with
  | none =>
    rw [hinput] at h
    obtain rfl := Except.ok.inj h
    refine ⟨[], ?_, ?_⟩
    · constructor <;> simp [hinput, added, Laid, hcurblock]
    · simp [partitionsEnd, newInputs, hinput]
  | some input =>
    simp only [hinput] at h
    split at h
    next => cases h
    next hrange =>
      rw [Results.bind_eq_ok] at h
      obtain ⟨computed, hcomputed, h⟩ := h
      obtain ⟨hsize, hkeep⟩ := computePartitionSize_ok hcomputed
      have hinRange : (isoTellMaxPartRange t.opts).1 ≤ (i : Nat) + 1 ∧
          (i : Nat) + 1 ≤ (isoTellMaxPartRange t.opts).2 := by omega
      split at h
      next hkept =>
        obtain rfl := Except.ok.inj h
        rw [hkept] at hkeep
        refine ⟨[⟨i, true, 0, UInt32.ofNat (isoIntervalReaderStart input / blockSize),
          computed.size⟩], ?_, ?_⟩
        · constructor
          case appended => rfl
          case numbers => simp [hinput]
          case inputs => simp [hinput, ← hkeep]
          case inRange => simpa using hinRange
          case laid => trivial
          case pos => simp [added]
          case totalSize => simp [added]
          case curblock => exact hcurblock
        · simp [partitionsEnd, newInputs, hinput, ← hkeep]
      next hnew =>
        rw [Bool.not_eq_true] at hnew
        rw [hnew] at hkeep
        have hinputs : newInputs t (i :: rest) = input :: newInputs t rest := by
          simp [newInputs, hinput, ← hkeep]
        have hlayout : partitionsEnd t st.pos.toNat (i :: rest) = layoutEnd (startAlign t)
            (sizeAlign t) inputBlocks (alignUp (startAlign t) st.pos.toNat +
              alignUp (sizeAlign t) (inputBlocks input)) (newInputs t rest) := by
          rw [partitionsEnd, hinputs, layoutEnd]
        rw [hlayout] at hfits ⊢
        have hend := Nat.lt_of_le_of_lt (le_layoutEnd _ _) hfits
        have hblocks := le_alignUp (sizeAlign t) (inputBlocks input)
        have hnat : computed.size.toNat = inputBlocks input := by
          rw [hsize, UInt32.toNat_ofNat_of_lt' (by show inputBlocks input < 2 ^ 32; omega)]
        have hcyl : (cylinderAligned t computed.size).toNat =
            alignUp (sizeAlign t) (inputBlocks input) := by
          rw [toNat_cylinderAligned t (by rw [hnat]; omega), hnat]
        have hadd := toNat_addPos t st.pos
        have hle := le_alignUp (startAlign t) st.pos.toNat
        have hstart : (st.pos + addPos t st.pos).toNat = alignUp (startAlign t) st.pos.toNat := by
          rw [UInt32.toNat_add, hadd]
          omega
        have hpos : (st.pos + (addPos t st.pos + cylinderAligned t computed.size)).toNat =
            alignUp (startAlign t) st.pos.toNat + alignUp (sizeAlign t) (inputBlocks input) := by
          rw [← UInt32.add_assoc, UInt32.toNat_add, hstart, hcyl]
          omega
        obtain rfl := Except.ok.inj h
        refine ⟨[⟨i, false, addPos t st.pos, st.pos + addPos t st.pos,
          cylinderAligned t computed.size⟩], ?_, ?_⟩
        · constructor
          case appended => rfl
          case numbers => simp [hinput]
          case inputs => simp [hinput, ← hkeep]
          case inRange => simpa using hinRange
          case laid =>
            refine ⟨hstart, ?_, ⟨input, hinput, hcyl⟩, trivial⟩
            rw [hadd, hstart]
          case pos =>
            simp only [added, Bool.not_false, List.filter_cons_of_pos, List.filter_nil, total_cons,
              total_nil, needed, hpos, hadd, hcyl]
            omega
          case totalSize =>
            simp [added, needed]
          case curblock => rfl
        · rw [partitionsEnd, hpos]

theorem computeLoop_advanced {numbers : List (Fin 8)} {st st' : Computing}
    (h : computeLoop t true numbers st = .ok st') (hcurblock : st.curblock = st.pos)
    (hfits : partitionsEnd t st.pos.toNat numbers < 2 ^ 32) :
    ∃ new, Advanced t numbers st st' new := by
  induction numbers generalizing st with
  | nil =>
    obtain rfl := Except.ok.inj h
    refine ⟨[], ?_⟩
    constructor <;> simp [added, Laid, hcurblock]
  | cons i rest ih =>
    rw [computeLoop, Results.bind_eq_ok] at h
    obtain ⟨st₁, hturn, hrest⟩ := h
    obtain ⟨new, hadvanced, hend⟩ := computeTurn_advanced hturn hcurblock hfits
    obtain ⟨new', hadvanced'⟩ := ih hrest hadvanced.curblock (hend ▸ hfits)
    exact ⟨new ++ new', hadvanced.trans hadvanced'⟩

end Computation

end AppendedPartitions
