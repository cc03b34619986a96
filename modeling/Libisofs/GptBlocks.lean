import Libisofs.Gpt
import Libisofs.SystemAreaTables

/-!
# The blocks of the GPT

The header is in block 1 of 512 bytes, the array of entries is behind the Apple Partition Map.
The backup is made of what has been written as System Area. Its array and its header end by
the end of the image.
-/

namespace GptBlocks

open CLibrary ByteBuffers PartitionRequests Gpt
open SystemAreaTables hiding isoGptEntriesMax

/-- The start of the array, in blocks of 512 bytes. -/
structure GptPlan where
  gptPartStart : Nat
  two_le : 2 ≤ gptPartStart
  lt_end : gptPartStart < 64

/-- The array fills the rest of the System Area. Each block has 4 entries. -/
def GptPlan.maxEntries (plan : GptPlan) : Nat := (64 - plan.gptPartStart) * 4

/-- Blocks of 2 KiB for the backup array and the backup header. -/
def GptPlan.backupSize (plan : GptPlan) : Nat :=
  ((plan.maxEntries / 4 + 1) * 512 + 2047) / 2048

/-- The array begins behind the map entries of the Apple Partition Map. -/
def precomputeGpt (apmReqCount apmBlockSize : Nat) : Except BootError GptPlan :=
  let apmBlockSize := if apmBlockSize = 0 then 2048 else apmBlockSize
  let gptPartStart := if 0 < apmReqCount then (apmReqCount + 1) * (apmBlockSize / 512) else 0
  if gptPartStart < 2 then .ok ⟨2, by decide, by decide⟩
  else if h : 2 ≤ gptPartStart ∧ gptPartStart < 64 then .ok ⟨gptPartStart, h.1, h.2⟩
  else .error .tooManyGpt

/-- The plan if no Apple Partition Map is in front of the array. -/
def lowestPlan : GptPlan := ⟨2, by decide, by decide⟩

/-- The array sizes of the C structure. -/
structure FixedSizes (r : GptPartitionRequest) : Prop where
  typeGuid : r.typeGuid.length = 16
  partitionGuid : r.partitionGuid.length = 16
  name : r.name.length = 72

/-- An image of which the sizes are known, and the GUIDs which it will get. -/
structure GptTarget where
  image : Ecma119Image
  plan : GptPlan
  gptDiskGuid : Guid
  guids : Nat → Guid
  maxEntries_eq : image.gptMaxEntries = plan.maxEntries
  backupSize_eq : image.gptBackupSize = plan.backupSize
  diskGuid_length : gptDiskGuid.length = 16
  guids_length : ∀ n, (guids n).length = 16
  isoTypeGuid_length : image.opts.isoGptTypeGuid.length = 16
  requests : ∀ r ∈ image.gptReq, FixedSizes r

/-- A 64-bit number is written as two halves. -/
def lsbHalves (num : Nat) : List UInt8 :=
  toLsb 4 (num % 2 ^ 32) ++ toLsb 4 (num / 2 ^ 32 % 2 ^ 32)

def gptEntryBytes (e : GptEntry) : List UInt8 :=
  e.typeGuid ++ e.partitionGuid ++ lsbHalves e.startLba ++ lsbHalves e.endLba ++
    lsbHalves e.flags.toNat ++ e.name

def gptSlotBytes : Option GptEntry → List UInt8
  | some e => gptEntryBytes e
  | none => List.replicate 128 0

/-- The backup header is one block before the end of the backup. The product is of 32 bit. -/
def backLba (g : GptTarget) : Nat := (UInt32.ofNat g.image.gptBackupEnd * 4 - 1).toNat

/-- The 92 bytes of the header. -/
def gptHeaderBytes (g : GptTarget) (headCrc pArrCrc : UInt32) : List UInt8 :=
  let maxEntries := g.plan.maxEntries
  ascii "EFI PART" ++ [0, 0, 1, 0] ++ toLsb 4 92 ++ toLsb 4 headCrc.toNat ++ toLsb 4 0 ++
    (toLsb 4 1 ++ toLsb 4 0) ++ lsbHalves (backLba g) ++
    (toLsb 4 (g.plan.gptPartStart + maxEntries / 4) ++ toLsb 4 0) ++
    lsbHalves (u64 ((backLba g : Int) - (maxEntries / 4 : Nat) - 1)) ++ g.gptDiskGuid ++
    (toLsb 4 g.plan.gptPartStart ++ toLsb 4 0) ++ toLsb 4 maxEntries ++ toLsb 4 128 ++
    toLsb 4 pArrCrc.toNat

/-- The CRC of the header gets computed while its own field is 0. -/
def isoWriteGptHeaderBlock (g : GptTarget) (pArrCrc : UInt32) : List UInt8 :=
  let crc := isoCrc32Gpt (bufferOf (gptHeaderBytes g 0 pArrCrc)) 92
  gptHeaderBytes g crc pArrCrc ++ List.replicate 420 0

/-- The array and the header get written to the System Area. -/
def writeGptBlocks (g : GptTarget) (buf : Buffer) (slots : List (Option GptEntry)) : Buffer :=
  let buf := patch buf (512 * g.plan.gptPartStart) (slots.flatMap gptSlotBytes)
  let pArrCrc := isoCrc32Gpt (fun i => buf (512 * g.plan.gptPartStart + i))
    (128 * g.plan.maxEntries : Nat)
  patch buf 512 (isoWriteGptHeaderBlock g pArrCrc)

/-- `iso_write_gpt()` with the buffer of the System Area. -/
def isoWriteGptTo (libc : Qsort) (g : GptTarget) (imgBlocks : UInt32) (buf : Buffer) :
    Except BootError (GptOutcome × Buffer) := do
  let out ← isoWriteGpt libc g.guids g.image imgBlocks
  if out.ret = 2 then .ok (out, buf) else .ok (out, writeGptBlocks g buf out.slots)

/-- The header block came through to the System Area. -/
def headCameThrough (sysAreaAsWritten : Buffer) : Bool :=
  slice sysAreaAsWritten 512 8 = ascii "EFI PART" &&
    slice sysAreaAsWritten (512 + 92) 420 = List.replicate 420 0

/-- The first block of the backup array. This product is of 64 bit. -/
def backupPartStart (g : GptTarget) : Nat :=
  g.image.gptBackupEnd * 4 - 1 - g.plan.maxEntries / 4

/-- The copy of the header block with new addresses, and without CRC. -/
def relocatedHead (g : GptTarget) (head : Buffer) : Buffer :=
  -- exchange "Location of this header" and "Location of header backup"
  let newHead := copyInto head 24 8 fun i => head (32 + i)
  let newHead := copyInto newHead 32 8 fun i => head (24 + i)
  let newHead := patch newHead 72 (lsbHalves (backupPartStart g))
  copyInto newHead 16 4 fun _ => 0

def newHead (g : GptTarget) (head : Buffer) : Buffer :=
  patch (relocatedHead g head) 16 (toLsb 4 (isoCrc32Gpt (relocatedHead g head) 92).toNat)

/-- The bytes which get written as backup. Without header in the System Area they are 0. -/
def gptTailWriterWriteData (g : GptTarget) (sysAreaAsWritten : Buffer) : Buffer :=
  let headPos := g.plan.backupSize * 2048 - 512
  if headCameThrough sysAreaAsWritten then
    let backupBuf := copyInto (fun _ => 0) headPos 512
      (newHead g fun i => sysAreaAsWritten (512 + i))
    copyInto backupBuf (headPos - g.plan.maxEntries * 128) (g.plan.maxEntries * 128)
      fun i => sysAreaAsWritten (g.plan.gptPartStart * 512 + i)
  else fun _ => 0

section Sizes

variable {g : GptTarget}

theorem plan_range (plan : GptPlan) : 4 ≤ plan.maxEntries ∧ plan.maxEntries ≤ 248 ∧
    plan.maxEntries / 4 = 64 - plan.gptPartStart ∧ plan.maxEntries % 4 = 0 := by
  have h2 := plan.two_le
  have h64 := plan.lt_end
  simp only [GptPlan.maxEntries]
  omega

/-- The backup array and the backup header fit in the blocks of the backup. -/
theorem backup_fits (plan : GptPlan) :
    plan.maxEntries * 128 + 512 ≤ plan.backupSize * 2048 ∧ plan.backupSize ≤ 16 := by
  have h2 := plan.two_le
  have h64 := plan.lt_end
  simp only [GptPlan.backupSize, GptPlan.maxEntries]
  omega

@[simp] theorem length_lsbHalves (num : Nat) : (lsbHalves num).length = 8 := by
  simp [lsbHalves]

theorem lsbHalves_eq (num : Nat) : lsbHalves num = toLsb 8 num := by
  have hlow : toLsb 4 (num % 2 ^ 32) = toLsb 4 num := toLsb_mod 4 num
  have hhigh : toLsb 4 (num / 2 ^ 32 % 2 ^ 32) = toLsb 4 (num / 2 ^ 32) := toLsb_mod 4 _
  rw [lsbHalves, hlow, hhigh]
  exact (toLsb_add 4 4 num).symm

theorem length_gptHeaderBytes (headCrc pArrCrc : UInt32) :
    (gptHeaderBytes g headCrc pArrCrc).length = 92 := by
  have hsignature : (ascii "EFI PART").length = 8 := rfl
  simp only [gptHeaderBytes, List.length_append, length_toLsb, length_lsbHalves, hsignature,
    g.diskGuid_length, List.length_cons, List.length_nil]

theorem length_isoWriteGptHeaderBlock (pArrCrc : UInt32) :
    (isoWriteGptHeaderBlock g pArrCrc).length = 512 := by
  rw [isoWriteGptHeaderBlock, List.length_append, length_gptHeaderBytes, List.length_replicate]

end Sizes

section Crc

/-- Only the bytes before the count matter. -/
theorem isoCrc32Gpt_congr {data data' : Buffer} {count : Nat} (hcount : count < 2 ^ 32)
    (h : ∀ i < count, data i = data' i) :
    isoCrc32Gpt data count = isoCrc32Gpt data' count := by
  have hturn (acc : UInt32) (i : Nat) :
      crcTurn data (UInt32.ofNat count) acc i = crcTurn data' (UInt32.ofNat count) acc i := by
    have htoNat : (UInt32.ofNat count).toNat = count := by
      rw [UInt32.toNat_ofNat', Nat.mod_eq_of_lt hcount]
    simp only [crcTurn, htoNat]
    by_cases hi : i < count * 8
    · rw [if_pos hi, if_pos hi, h (i / 8) (by omega)]
    · rw [if_neg hi, if_neg hi]
  have hstep : crcTurn data (UInt32.ofNat count) = crcTurn data' (UInt32.ofNat count) := by
    funext acc i
    exact hturn acc i
  simp only [isoCrc32Gpt, Int.toNat_natCast, hstep]

end Crc

end GptBlocks
