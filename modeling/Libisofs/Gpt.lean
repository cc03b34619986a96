import Libisofs.Lib.Gaps
import Libisofs.Lib.Results
import Libisofs.PartitionRequests
import Mathlib.Data.List.ReduceOption

/-!
# The GUID Partition Table

HFS+ partitions of the Apple Partition Map become GPT partitions if they fit between the
requested ones. The requests get sorted, and the gaps up to the end of the image, or up to
the start of the backup GPT, get filled by partitions of their own.
-/

namespace Gpt

open CLibrary Tilings IntervalGaps PartitionRequests

/-- The name gets padded by 0 to 72 bytes. -/
def isoAsciiUtf16le (gapName : String) : List UInt8 :=
  let bytes := gapName.toList.flatMap fun c => [UInt8.ofNat c.toNat, 0]
  bytes ++ List.replicate (72 - bytes.length) 0

def hfsPlusUuid : Guid :=
  [0x00, 0x53, 0x46, 0x48, 0x00, 0x00, 0xaa, 0x11,
   0xaa, 0x11, 0x00, 0x30, 0x65, 0x43, 0xec, 0xac]

def basicDataUuid : Guid :=
  [0xa2, 0xa0, 0xd0, 0xeb, 0xe5, 0xb9, 0x33, 0x44,
   0x87, 0xc0, 0x68, 0xb6, 0xb7, 0x26, 0x99, 0xc7]

/-- Bit 60 is "read-only". -/
def gptFlags : UInt64 := ((1 : UInt64) <<< 60) ||| 1

/-- One turn of `intvl_overlap()`. The ends belong to the intervals. -/
def intvlTouches (start1 end1 start2 end2 : Nat) : Bool :=
  (start2 ≤ start1 && start1 ≤ end2) || (start2 ≤ end1 && end1 ≤ end2)

/-- The second turn is with the intervals exchanged. -/
def intvlOverlap (start1 end1 start2 end2 : Nat) : Bool :=
  intvlTouches start1 end1 start2 end2 || intvlTouches start2 end2 start1 end1

/-- The number of GPT blocks in an APM block. -/
def apmFactor (t : Ecma119Image) : Nat :=
  if t.apmReqFlags.testBit 2 && decide (0 < t.opts.apmBlockSize / 512) then
    t.opts.apmBlockSize / 512
  else 4

/-- The comparison of an APM partition with a GPT partition. -/
def hitsGpt (bfac : Nat) (a : ApmPartitionRequest) (startBlock blockCount : Nat) : Bool :=
  intvlOverlap (a.startBlock * bfac) (u64 (((a.startBlock + a.blockCount : Nat) - 1 : Int) * bfac))
    startBlock (u64 ((startBlock + blockCount : Nat) - 1))

theorem apmFactor_cases (t : Ecma119Image) : apmFactor t = 1 ∨ apmFactor t = 4 := by
  rw [apmFactor]
  split
  next h =>
    rcases t.opts.apmBlockSize_valid with hsize | hsize | hsize
    · simp [hsize] at h
    · simp [hsize]
    · simp [hsize]
  next => exact Or.inr rfl

theorem apmFactor_inRange (t : Ecma119Image) (a : ApmPartitionRequest) :
    a.startBlock * apmFactor t + a.blockCount * apmFactor t < 2 ^ 64 := by
  have := a.inRange
  rcases apmFactor_cases t with h | h
  · rw [h]
    omega
  · rw [h]
    omega

/-- The request for a copied partition. `counter` tells how many there are already. -/
def hfsPartition (t : Ecma119Image) (counter : Nat) (a : ApmPartitionRequest) :
    GptPartitionRequest :=
  let gptName := if counter + 1 > 1 then "HFSPLUS_" ++ toString (counter + 1) else "HFSPLUS"
  ⟨a.startBlock * apmFactor t, a.blockCount * apmFactor t, hfsPlusUuid, zeroUuid, gptFlags,
    isoAsciiUtf16le gptName, false, apmFactor_inRange t a⟩

/-- The loop over the APM requests. -/
def copyApmhfs (t : Ecma119Image) : (counter : Nat) → (apmReq : List ApmPartitionRequest) →
    (gptReq : List GptPartitionRequest) → Except BootError (List GptPartitionRequest)
  | _, [], gptReq => .ok gptReq
  | counter, a :: rest, gptReq =>
    if a.type ≠ "Apple_HFS" then copyApmhfs t counter rest gptReq
    else if gptReq.any fun r => hitsGpt (apmFactor t) a r.startBlock r.blockCount then
      copyApmhfs t counter rest gptReq
    else do
      let gptReq ← isoRegisterGptEntry gptReq (hfsPartition t counter a)
      copyApmhfs t (counter + 1) rest gptReq

def isoCopyApmhfsToGpt (t : Ecma119Image) : Except BootError (List GptPartitionRequest) :=
  copyApmhfs t 0 t.apmReq t.gptReq

/-- The first block of the backup GPT. -/
def backupEndLba (t : Ecma119Image) : Nat := (t.gptBackupEnd - t.gptBackupSize) * 4

/-- The goal behind the last request. -/
def lastGoal (t : Ecma119Image) (imgBlocks : UInt32) : Nat :=
  min (imgBlocks.toNat * 4) (backupEndLba t)

structure FillState where
  gptReq : List GptPartitionRequest
  partEnd : Nat
  gapCounter : Nat

/-- The request for a gap. The partition of the whole ISO 9660 filesystem has a name. -/
def gapPartition (t : Ecma119Image) (partEnd goal gapCounter : Nat) (inRange : goal < 2 ^ 64)
    (hgap : partEnd < goal) : GptPartitionRequest :=
  let gptFlags' := if t.systemAreaOptions.testBit 16 then gptFlags ||| 4 else gptFlags
  let (gptName, typeGuid, effGptFlags) :=
    if goal = t.volSpaceSize.toNat * 4 ∧ partEnd = t.opts.partitionOffset.toNat * 4 then
      ("ISO9660", if t.opts.isoGptFlag.testBit 0 then t.opts.isoGptTypeGuid else basicDataUuid,
        if t.systemAreaOptions.testBit 17 then gptFlags' &&& ~~~((1 : UInt64) <<< 60)
        else gptFlags')
    else ("Gap" ++ toString gapCounter, basicDataUuid, gptFlags)
  ⟨partEnd, goal - partEnd, typeGuid, zeroUuid, effGptFlags, isoAsciiUtf16le gptName, true,
    by omega⟩

/-- One turn of the loop which fills the gaps. -/
def fillGapTurn (t : Ecma119Image) (goal nextEnd : Nat) (inRange : goal < 2 ^ 64)
    (st : FillState) : Except BootError FillState :=
  let partEnd := max st.partEnd nextEnd
  if goal < partEnd then
    if t.gptReqFlags.testBit 0 then .ok { st with partEnd } else .error .gptOverlap
  else if hgap : partEnd < goal then do
    let gptReq ← isoRegisterGptEntry st.gptReq
      (gapPartition t partEnd goal st.gapCounter inRange hgap)
    .ok ⟨gptReq, partEnd, st.gapCounter + 1⟩
  else .ok { st with partEnd }

theorem lastGoal_lt (t : Ecma119Image) (imgBlocks : UInt32) : lastGoal t imgBlocks < 2 ^ 64 := by
  have := t.backupEnd_lt
  rw [lastGoal, backupEndLba]
  omega

theorem startBlock_lt (r : GptPartitionRequest) : r.startBlock < 2 ^ 64 := by
  have := r.inRange
  omega

/-- The turns behind the first request. -/
def fillGapsAfter (t : Ecma119Image) (imgBlocks : UInt32) :
    (prev : GptPartitionRequest) → List GptPartitionRequest → FillState →
      Except BootError FillState
  | prev, [], st =>
    fillGapTurn t (lastGoal t imgBlocks) (prev.startBlock + prev.blockCount)
      (lastGoal_lt t imgBlocks) st
  | prev, r :: rest, st => do
    let st ← fillGapTurn t r.startBlock (prev.startBlock + prev.blockCount) (startBlock_lt r) st
    fillGapsAfter t imgBlocks r rest st

/-- The turn before the first request. Blocks up to 64 may belong to the System Area. -/
def fillFirstGap (t : Ecma119Image) (goal : Nat) (inRange : goal < 2 ^ 64) (st : FillState) :
    Except BootError FillState :=
  if goal ≤ 16 * 4 then .ok st else fillGapTurn t goal (16 * 4) inRange st

def fillGptGaps (t : Ecma119Image) (imgBlocks : UInt32) (gptReq : List GptPartitionRequest) :
    Except BootError FillState :=
  match gptReq with
  | [] => fillFirstGap t (lastGoal t imgBlocks) (lastGoal_lt t imgBlocks) ⟨gptReq, 0, 0⟩
  | first :: rest => do
    let st ← fillFirstGap t first.startBlock (startBlock_lt first) ⟨gptReq, 0, 0⟩
    fillGapsAfter t imgBlocks first rest st

/-- The filling of gaps, unless the table shall look like the one of isohybrid. -/
def fillRequests (t : Ecma119Image) (imgBlocks : UInt32) (sorted : List GptPartitionRequest) :
    Except BootError (List GptPartitionRequest) :=
  if t.opts.partLikeIsohybrid then .ok sorted
  else (fillGptGaps t imgBlocks sorted).map (·.gptReq)

structure GptEntry where
  typeGuid : Guid
  partitionGuid : Guid
  startLba : Nat
  endLba : Nat
  flags : UInt64
  name : List UInt8

/-- The last block of a partition. A request of the largest size, as for the ISOHybrid
partition, is open ended. -/
def endLba (t : Ecma119Image) (req : GptPartitionRequest) : Nat :=
  let endLba :=
    if req.startBlock = t.opts.partitionOffset.toNat * 4 ∧ req.blockCount = 4 * 0xffffffff then
      (t.volSpaceSize * 4).toNat
    else req.startBlock + req.blockCount
  u64 ((min endLba (backupEndLba t) : Nat) - 1)

/-- A GUID of all zeros gets replaced by a generated one. -/
def isoWriteGptEntry (guids : Nat → Guid) (t : Ecma119Image) (guidsMade : Nat)
    (req : GptPartitionRequest) : GptEntry × GptPartitionRequest × Nat :=
  let guid := if req.partitionGuid = zeroUuid then guids guidsMade else req.partitionGuid
  (⟨req.typeGuid, guid, req.startBlock, endLba t req, req.flags, req.name⟩,
    { req with partitionGuid := guid },
    if req.partitionGuid = zeroUuid then guidsMade + 1 else guidsMade)

def writeGptEntries (guids : Nat → Guid) (t : Ecma119Image) :
    (guidsMade : Nat) → List GptPartitionRequest →
      List GptEntry × List GptPartitionRequest × Nat
  | guidsMade, [] => ([], [], guidsMade)
  | guidsMade, req :: rest =>
    let (entry, req', guidsMade) := isoWriteGptEntry guids t guidsMade req
    let (entries, rest', guidsMade) := writeGptEntries guids t guidsMade rest
    (entry :: entries, req' :: rest', guidsMade)

/-- The return value, the image with its changed requests, and the written array of
`gptMaxEntries` entries. Unused entries are filled by 0. -/
structure GptOutcome where
  ret : Int
  image : Ecma119Image
  slots : List (Option GptEntry)

def GptOutcome.entries (out : GptOutcome) : List GptEntry := out.slots.reduceOption

/-- The generated GUIDs depend on time and other random sources. -/
def isoWriteGpt (libc : Qsort) (guids : Nat → Guid) (t : Ecma119Image) (imgBlocks : UInt32) :
    Except BootError GptOutcome :=
  if t.gptReq = [] then .ok ⟨2, t, []⟩
  else do
    let copied ← isoCopyApmhfsToGpt t
    let sorted := libc.run cmpGpt copied
    let filled ← fillRequests t imgBlocks sorted
    let merged := libc.run cmpGpt filled
    if t.gptMaxEntries < merged.length then .error .tooManyGpt
    else
      let (entries, gptReq, guidsMade) := writeGptEntries guids t t.guidsMade merged
      .ok ⟨1, { t with gptReq, guidsMade },
        entries.map some ++ List.replicate (t.gptMaxEntries - entries.length) none⟩

end Gpt
