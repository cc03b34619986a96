import Libisofs.Lib.Results
import Libisofs.PartitionRequests

/-!
# The Apple Partition Map and the Master Boot Record

The gaps of the Apple Partition Map get filled when the size of the map is computed. The
last partition gets its size when the map is written, and so do the partitions of the
Master Boot Record which are requested with a block count of 0.
-/

namespace ApmMbr

open CLibrary PartitionRequests

/-- The options after a block size of 0 was replaced. -/
def chooseApmBlockSize (opts : IsoWriteOpts) : IsoWriteOpts :=
  { opts with
    apmBlockSize := if opts.apmBlockSize = 0 then 2048 else opts.apmBlockSize
    apmBlockSize_valid := by
      split
      next => exact Or.inr (Or.inr rfl)
      next => exact opts.apmBlockSize_valid }

/-- The number of units of `startBlock` in a block of 2 KiB. -/
def unitFactor (t : Ecma119Image) : Nat :=
  if t.apmReqFlags.testBit 2 then 2048 / t.opts.apmBlockSize else 1

/-- `img_blocks * block_fac` as `uint32_t`. -/
def imgUnits (t : Ecma119Image) (imgBlocks : UInt32) : Nat :=
  imgBlocks.toNat * unitFactor t % 2 ^ 32

structure ApmFillState where
  apmReq : List ApmPartitionRequest
  gapCounter : Nat

/-- One turn of the loop which fills the gaps. There is always a filler behind the last
request. -/
def fillApmTurn (t : Ecma119Image) (isLast : Bool) (partEnd goal : Nat) (inRange : goal < 2 ^ 32)
    (st : ApmFillState) : Except BootError ApmFillState :=
  if hover : partEnd > goal then .error .apmOverlap
  else if t.apmReqFlags.testBit 1 then .ok st
  else if partEnd < goal || isLast then do
    let apmReq ← isoRegisterApmEntry st.apmReq
      ⟨partEnd, goal - partEnd, "Gap" ++ toString st.gapCounter, "ISO9660_data", true, by omega⟩
    .ok ⟨apmReq, st.gapCounter + 1⟩
  else .ok st

/-- The end of the request before the goal, as `uint32_t`. The map itself reaches up to the
first volume descriptor or to the next partition. -/
def apmPartEnd (t : Ecma119Image) (isFirst : Bool) (prev : ApmPartitionRequest) (goal : Nat) :
    Nat :=
  if isFirst then if goal < 16 * unitFactor t ∧ goal > 1 then goal else 16 * unitFactor t
  else (prev.startBlock + prev.blockCount) % 2 ^ 32

def fillApmGapsAfter (t : Ecma119Image) (lastGoal : Nat) (inRange : lastGoal < 2 ^ 32) :
    (isFirst : Bool) → (prev : ApmPartitionRequest) → List ApmPartitionRequest → ApmFillState →
      Except BootError ApmFillState
  | isFirst, prev, [], st =>
    fillApmTurn t true (apmPartEnd t isFirst prev lastGoal) lastGoal inRange st
  | isFirst, prev, r :: rest, st => do
    let st ← fillApmTurn t false (apmPartEnd t isFirst prev r.startBlock) r.startBlock
      r.inRange.1 st
    fillApmGapsAfter t lastGoal inRange false r rest st

theorem imgUnits_lt (t : Ecma119Image) (imgBlocks : UInt32) : imgUnits t imgBlocks < 2 ^ 32 :=
  Nat.mod_lt _ (by decide)

/-- The request for the map itself. -/
def apmSelf : ApmPartitionRequest :=
  ⟨1, 0, "Apple", "Apple_partition_map", false, by decide⟩

def requestSelf (apmReq : List ApmPartitionRequest) :
    Except BootError (List ApmPartitionRequest) :=
  if apmReq.any fun r => r.startBlock ≤ 1 then .ok apmReq
  else isoRegisterApmEntry apmReq apmSelf

def fillSortedApm (libc : Qsort) (t : Ecma119Image) (imgBlocks : UInt32)
    (sorted : List ApmPartitionRequest) : Except BootError (List ApmPartitionRequest) :=
  if t.opts.partLikeIsohybrid then .ok sorted
  else match sorted with
    | [] => .ok []
    | first :: rest => do
      let st ← fillApmGapsAfter t (imgUnits t imgBlocks) (imgUnits_lt t imgBlocks) true first rest
        ⟨sorted, 0⟩
      .ok (if t.apmReqFlags.testBit 1 then st.apmReq else libc.run cmpApm st.apmReq)

/-- Sort and fill gaps in the requested APM. -/
def fillApmGaps (libc : Qsort) (t : Ecma119Image) (imgBlocks : UInt32) :
    Except BootError Ecma119Image := do
  let opts := if t.apmReqFlags.testBit 2 then chooseApmBlockSize t.opts else t.opts
  let apmReq ← requestSelf t.apmReq
  let apmReq ← fillSortedApm libc { t with opts } imgBlocks (libc.run cmpApm apmReq)
  .ok { t with opts, apmReq }

def rectifyApm (libc : Qsort) (t : Ecma119Image) (curblock : UInt32) :
    Except BootError Ecma119Image :=
  if t.apmReq = [] then .ok t
  else if t.gptReq ≠ [] ∧ t.opts.apmBlockSize ≠ 2048 then .error .apmGptBsize
  else fillApmGaps libc t curblock

/-- The numbers are in units of `apmBlockSize`. -/
structure ApmEntry where
  mapEntries : Nat
  startBlock : Nat
  blockCount : Nat
  name : String
  type : String
  flags : UInt32

/-- The number of APM blocks in a unit of `startBlock`. -/
def entryFactor (t : Ecma119Image) : Nat :=
  if t.apmReqFlags.testBit 2 then 1 else 2048 / t.opts.apmBlockSize

/-- The entry of the map itself is already in units of `apmBlockSize`. -/
def isoWriteApmEntry (t : Ecma119Image) (mapEntries : Nat) (isSelf : Bool)
    (req : ApmPartitionRequest) : ApmEntry :=
  let blockFac := if isSelf then 1 else entryFactor t
  ⟨mapEntries, req.startBlock * blockFac % 2 ^ 32, req.blockCount * blockFac % 2 ^ 32, req.name,
    req.type,
    if isSelf then 3 else if req.type = "Apple_HFS" then 0x13 ||| 0x40000000 else 0x13⟩

/-- The last partition shall reach up to the end of the image. -/
def resizeLast (imgUnits : Nat) (inRange : imgUnits < 2 ^ 32) (last : ApmPartitionRequest) :
    ApmPartitionRequest :=
  { last with
    blockCount := if imgUnits < last.startBlock then 0 else imgUnits - last.startBlock
    inRange := by
      have := last.inRange
      split
      · omega
      · omega }

/-- If the last partition is empty, it gets removed. -/
def adjustLast (imgUnits : Nat) (inRange : imgUnits < 2 ^ 32) :
    List ApmPartitionRequest → List ApmPartitionRequest
  | [] => []
  | [last] =>
    if (resizeLast imgUnits inRange last).blockCount = 0 then []
    else [resizeLast imgUnits inRange last]
  | r :: next :: rest => r :: adjustLast imgUnits inRange (next :: rest)

/-- If gaps have been filled, then there is a final request to care for. -/
def careForLast (t : Ecma119Image) (imgBlocks : UInt32) : List ApmPartitionRequest :=
  if t.apmReqFlags.testBit 1 then t.apmReq
  else adjustLast (imgUnits t imgBlocks) (imgUnits_lt t imgBlocks) t.apmReq

theorem mapEntries_inRange {mapEntries : Nat} (h : 1 + mapEntries < 2 ^ 32) :
    1 < 2 ^ 32 ∧ mapEntries < 2 ^ 32 ∧ (mapEntries = 2 ^ 32 - 1 → 1 = 0) := by
  omega

/-- The first entry describes the map itself. -/
def describeMap (mapEntries : Nat) (inRange : 1 + mapEntries < 2 ^ 32) :
    List ApmPartitionRequest → List ApmPartitionRequest
  | [] => []
  | first :: rest =>
    { first with
      startBlock := 1, blockCount := mapEntries, inRange := mapEntries_inRange inRange } :: rest

/-- `block0` is what gets written to the first bytes of the System Area. -/
structure ApmOutcome where
  ret : Int
  image : Ecma119Image
  block0 : Option (List UInt8)
  entries : List ApmEntry

theorem mapEntries_lt {mapEntries : Nat} {opts : IsoWriteOpts}
    (h : ¬ (mapEntries + 1) * (chooseApmBlockSize opts).apmBlockSize > 32768) :
    1 + mapEntries < 2 ^ 32 := by
  have hsize : 1 ≤ (chooseApmBlockSize opts).apmBlockSize := by
    rcases opts.apmBlockSize_valid with hvalid | hvalid | hvalid
    · simp [chooseApmBlockSize, hvalid]
    · simp [chooseApmBlockSize, hvalid]
    · simp [chooseApmBlockSize, hvalid]
  have hle := Nat.mul_le_mul_left (mapEntries + 1) hsize
  omega

/-- The image with the block size which gets written. -/
def sized (t : Ecma119Image) : Ecma119Image := { t with opts := chooseApmBlockSize t.opts }

/-- The block sizes of an image which has got one. -/
theorem apmBlockSize_cases (t : Ecma119Image) :
    (sized t).opts.apmBlockSize = 512 ∨ (sized t).opts.apmBlockSize = 2048 := by
  rw [sized, chooseApmBlockSize]
  rcases t.opts.apmBlockSize_valid with hsize | hsize | hsize
  · exact Or.inr (if_pos hsize)
  · exact Or.inl ((if_neg (by omega)).trans hsize)
  · exact Or.inr ((if_neg (by omega)).trans hsize)

def block0Template (apmBlockSize : Nat) : List UInt8 :=
  [0x45, 0x52, UInt8.ofNat (apmBlockSize / 256), 0, 0xeb, 0x02, 0xff, 0xff]

/-- Bit 0 of `flag` prevents the writing of block 0. -/
def writeAdjustedApm (t : Ecma119Image) (adjusted : List ApmPartitionRequest) (flag : Nat) :
    Except BootError ApmOutcome :=
  if h : (adjusted.length + 1) * (sized t).opts.apmBlockSize > 32768 then .error .tooManyApm
  else
    let apmReq := describeMap adjusted.length (mapEntries_lt h) adjusted
    .ok ⟨1, { sized t with apmReq },
      if flag.testBit 0 then none else some (block0Template (sized t).opts.apmBlockSize),
      apmReq.mapIdx fun i req => isoWriteApmEntry (sized t) adjusted.length (i = 0) req⟩

def isoWriteApm (t : Ecma119Image) (imgBlocks : UInt32) (flag : Nat) :
    Except BootError ApmOutcome :=
  if t.apmReq = [] then .ok ⟨2, t, none, []⟩
  else writeAdjustedApm t (careForLast (sized t) imgBlocks) flag

/-- The end of an MBR partition without a block count. -/
def nextStart (imgBlocks : UInt32) : List MbrPartitionRequest → UInt64
  | [] => imgBlocks.toUInt64 * 4
  | next :: _ => next.startBlock

/-- The tests of a request with its predecessor. An empty request may begin with it. -/
def mbrOverlaps (p r : MbrPartitionRequest) : Bool :=
  (r.startBlock ≤ p.startBlock && !(r.blockCount = 0 && r.startBlock = p.startBlock)) ||
    p.startBlock + p.blockCount > r.startBlock

/-- A block count of 0 gets replaced. -/
def fillMbr (imgBlocks : UInt32) (r : MbrPartitionRequest) (rest : List MbrPartitionRequest) :
    MbrPartitionRequest :=
  if r.blockCount ≠ 0 then r
  else { r with blockCount := nextStart imgBlocks rest - r.startBlock }

/-- The loop which adjusts the partition ends. `prev` is already adjusted. -/
def adjustMbr (imgBlocks : UInt32) : (prev : Option MbrPartitionRequest) →
    List MbrPartitionRequest → Except BootError (List MbrPartitionRequest)
  | _, [] => .ok []
  | prev, r :: rest =>
    if prev.any fun p => mbrOverlaps p r then .error .mbrOverlap
    else do
      let adjusted ← adjustMbr imgBlocks (some (fillMbr imgBlocks r rest)) rest
      .ok (fillMbr imgBlocks r rest :: adjusted)

/-- The loop over the requests with desired slots. -/
def assignDesired : List MbrPartitionRequest → (slots : Fin 4 → Option MbrPartitionRequest) →
    Except BootError (Fin 4 → Option MbrPartitionRequest)
  | [], slots => .ok slots
  | r :: rest, slots =>
    if h : 1 ≤ r.desiredSlot ∧ r.desiredSlot ≤ 4 then
      let slot : Fin 4 := ⟨(r.desiredSlot - 1).toNat, by omega⟩
      if (slots slot).isSome then .error .mbrCollision
      else assignDesired rest fun i => if i = slot then some r else slots i
    else assignDesired rest slots

/-- The loop over the other requests. -/
def assignOthers : List MbrPartitionRequest → (slots : Fin 4 → Option MbrPartitionRequest) →
    Except BootError (Fin 4 → Option MbrPartitionRequest)
  | [], slots => .ok slots
  | r :: rest, slots =>
    if 0 < r.desiredSlot then assignOthers rest slots
    else match (List.finRange 4).find? fun i => (slots i).isNone with
      | none => .error .tooManyMbr
      | some slot => assignOthers rest fun i => if i = slot then some r else slots i

structure Chs where
  cyl : Nat
  head : Nat
  sec : Nat

/-- `iso_compute_cyl_head_sec()` for blocks of 512 bytes: block and address. -/
def isoComputeCylHeadSec (hpc sph : Nat) (blocks : UInt64) (isStart : Bool) : Nat × Chs :=
  let secs := if blocks > 0xfffffffc then 0xfffffffc else blocks
  let secs := if isStart then secs.toNat else (secs - 1).toUInt32.toNat
  let cyl := secs / (sph * hpc)
  let head := (secs - cyl * (sph * hpc)) / sph
  let sec := secs - cyl * (sph * hpc) - head * sph + 1
  (secs, if 1024 ≤ cyl then ⟨1023, hpc - 1, sph⟩ else ⟨cyl, head, sec⟩)

structure MbrEntry where
  statusByte : UInt8
  startChs : Chs
  typeByte : UInt8
  endChs : Chs
  startLba : Nat
  sectors : Nat

def writeMbrPartitionEntry (t : Ecma119Image) (r : MbrPartitionRequest) : MbrEntry :=
  let afterEnd := (r.startBlock + r.blockCount).toUInt32.toUInt64
  let first := isoComputeCylHeadSec t.partitionHeadsPerCyl t.partitionSecsPerHead r.startBlock true
  let last := isoComputeCylHeadSec t.partitionHeadsPerCyl t.partitionSecsPerHead afterEnd false
  ⟨r.statusByte, first.2, r.typeByte, last.2, first.1, (last.1 + 1 + 2 ^ 32 - first.1) % 2 ^ 32⟩

/-- The four slots of the partition table. -/
structure MbrOutcome where
  ret : Int
  image : Ecma119Image
  slots : List (Option MbrEntry)

def isoWriteMbr (t : Ecma119Image) (imgBlocks : UInt32) : Except BootError MbrOutcome :=
  if t.mbrReq = [] then .ok ⟨2, t, []⟩
  else do
    let mbrReq ← adjustMbr imgBlocks none t.mbrReq
    let slots ← assignDesired mbrReq fun _ => none
    let slots ← assignOthers mbrReq slots
    .ok ⟨1, { t with mbrReq }, (List.finRange 4).map fun i =>
      ((slots i).filter (·.blockCount ≠ 0)).map (writeMbrPartitionEntry t)⟩

end ApmMbr
