import Libisofs.Lib.Qsort
import Mathlib.Algebra.Order.Ring.Int

/-!
# Partition requests

The writers of an image register the partitions which they want to see in the Master Boot
Record, in the GUID Partition Table, and in the Apple Partition Map. The three tables get
written to the System Area when the size of the image is known.
-/

namespace PartitionRequests

open CLibrary

inductive BootError where
  | tooManyApm
  | apmOverlap
  | tooManyGpt
  | gptOverlap
  | tooManyMbr
  | mbrOverlap
  | mbrCollision
  | apmGptBsize
  | nonMbrSysArea

/-- The value of a result as `uint64_t`. -/
def u64 (x : Int) : Nat := (x % 2 ^ 64).toNat

abbrev Guid := List UInt8

def zeroUuid : Guid := List.replicate 16 0

/-- In blocks of 512 bytes. Bit 0 of the request status is `filler`: placed automatically.
Requests of which the end does not fit into uint64_t are not considered. -/
structure GptPartitionRequest where
  startBlock : Nat
  blockCount : Nat
  typeGuid : Guid
  partitionGuid : Guid
  flags : UInt64
  name : List UInt8
  filler : Bool
  inRange : startBlock + blockCount < 2 ^ 64

/-- In blocks of 2 KiB, or of `apmBlockSize` if bit 2 of `apmReqFlags` is set. All requests come
from iso_quick_apm_entry(), which takes both numbers as uint32_t. Not considered are 2^32 - 1
blocks behind block 0, of which the copy in the GPT would be taken for open ended. -/
structure ApmPartitionRequest where
  startBlock : Nat
  blockCount : Nat
  name : String
  type : String
  filler : Bool
  inRange : startBlock < 2 ^ 32 ∧ blockCount < 2 ^ 32 ∧ (blockCount = 2 ^ 32 - 1 → startBlock = 0)

/-- In blocks of 512 bytes. A block count of 0 means: up to the start of the next one. -/
structure MbrPartitionRequest where
  startBlock : UInt64
  blockCount : UInt64
  typeByte : UInt8
  statusByte : UInt8
  desiredSlot : Int
  deriving DecidableEq

structure IsoWriteOpts where
  partLikeIsohybrid : Bool
  apmBlockSize : Nat
  partitionOffset : UInt32
  isoGptFlag : Nat
  isoGptTypeGuid : Guid
  apmBlockSize_valid : apmBlockSize = 0 ∨ apmBlockSize = 512 ∨ apmBlockSize = 2048

/-- `guidsMade` counts the GUIDs which were generated so far. The backup GPT is at the end
of the image, which begins by the System Area. -/
structure Ecma119Image where
  opts : IsoWriteOpts
  systemAreaOptions : Nat
  volSpaceSize : UInt32
  partitionSecsPerHead : Nat
  partitionHeadsPerCyl : Nat
  apmReq : List ApmPartitionRequest
  apmReqFlags : Nat
  mbrReq : List MbrPartitionRequest
  gptReq : List GptPartitionRequest
  gptReqFlags : Nat
  gptBackupEnd : Nat
  gptBackupSize : Nat
  gptMaxEntries : Nat
  guidsMade : Nat
  backupEnd_lt : gptBackupEnd < 2 ^ 32
  backupSize_pos : 0 < gptBackupSize
  backupSize_lt : gptBackupSize < gptBackupEnd

def isoApmEntriesMax : Nat := 63

def isoMbrEntriesMax : Nat := 4

def isoGptEntriesMax : Nat := 248

def isoRegisterApmEntry (reqArray : List ApmPartitionRequest) (req : ApmPartitionRequest) :
    Except BootError (List ApmPartitionRequest) :=
  if isoApmEntriesMax ≤ reqArray.length then .error .tooManyApm else .ok (reqArray ++ [req])

def isoRegisterGptEntry (reqArray : List GptPartitionRequest) (req : GptPartitionRequest) :
    Except BootError (List GptPartitionRequest) :=
  if isoGptEntriesMax ≤ reqArray.length then .error .tooManyGpt else .ok (reqArray ++ [req])

/-- Requests of all kinds begin by their start block and their block count. -/
def cmpPartitionRequest {α : Type} (startBlock blockCount : α → Nat) (r1 r2 : α) : Int :=
  if startBlock r1 < startBlock r2 then -1
  else if startBlock r1 > startBlock r2 then 1
  -- in case of overlapping the largest partition shall be first
  else if blockCount r1 > blockCount r2 then -1
  else if blockCount r1 < blockCount r2 then 1
  else 0

def cmpGpt : GptPartitionRequest → GptPartitionRequest → Int :=
  cmpPartitionRequest (·.startBlock) (·.blockCount)

def cmpApm : ApmPartitionRequest → ApmPartitionRequest → Int :=
  cmpPartitionRequest (·.startBlock) (·.blockCount)

section Compare

variable {α : Type} {startBlock blockCount : α → Nat}

theorem cmpPartitionRequest_le_iff {r1 r2 : α} :
    cmpPartitionRequest startBlock blockCount r1 r2 ≤ 0 ↔
      startBlock r1 < startBlock r2 ∨
        startBlock r1 = startBlock r2 ∧ blockCount r2 ≤ blockCount r1 := by
  rw [cmpPartitionRequest]
  split_ifs
  all_goals constructor
  all_goals intro _
  all_goals omega

theorem cmpPartitionRequest_consistent :
    Consistent (cmpPartitionRequest startBlock blockCount) where
  trans a b c hab hbc := by
    rw [cmpPartitionRequest_le_iff] at *
    omega
  total a b := by
    rw [cmpPartitionRequest_le_iff, cmpPartitionRequest_le_iff]
    omega

end Compare

theorem cmpGpt_consistent : Consistent cmpGpt := cmpPartitionRequest_consistent

theorem cmpApm_consistent : Consistent cmpApm := cmpPartitionRequest_consistent

theorem u64_lt (x : Int) : u64 x < 2 ^ 64 := by
  rw [u64]
  omega

end PartitionRequests
