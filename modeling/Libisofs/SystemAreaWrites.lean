import Libisofs.GptBlocks
import Libisofs.Lib.Logged
import Libisofs.OverwritePass

/-!
# The bytes which get written to the System Area

The partition tables get sprinkled over the loaded template, and the Master Boot Record is
adjusted to them. Each step reports the bytes which it writes. What it finds in the bytes of
the template is given by parameters, and so are the boot blocks of systems other than the PC.
-/

namespace SystemAreaWrites

open CLibrary PartitionRequests ApmMbr Gpt GptBlocks OverwritePass LoggedComputations

/-- The structures of the System Area. -/
inductive Part where
  | mbr
  | apmBlock0
  | apmEntry (i : Nat)
  | gptHeader
  | gptEntry (i : Nat)
  | otherSystem

/-- `size` bytes get written from `offset` on. -/
structure Write where
  part : Part
  offset : Nat
  size : Nat

inductive SystemAreaError where
  | boot (error : BootError)
  | bootImageNotValid
  | isolinuxCantPatch
  | otherSystem (ret : Int)

abbrev Run := LoggedComputations.Logged Write SystemAreaError

/-- `gptPartStart` is in blocks of 512 bytes. -/
structure Target where
  image : Ecma119Image
  gptPartStart : Nat

section Planning

/-- The blocks of the backup GPT are behind the other data. -/
structure BackupPlace where
  start : Nat
  pos : 0 < start
  inRange : start + 16 < 2 ^ 32

/-- The sizes which depend on the number of map entries. -/
def sizeGpt (t : Ecma119Image) (place : BackupPlace) (plan : GptPlan) : Target :=
  { image := { t with
      opts := if t.apmReq = [] then t.opts else chooseApmBlockSize t.opts
      gptMaxEntries := plan.maxEntries
      gptBackupSize := plan.backupSize
      gptBackupEnd := place.start + plan.backupSize
      backupEnd_lt := by
        have hfits := (backup_fits plan).2
        have hrange := place.inRange
        omega
      backupSize_pos := by
        have hfits := (backup_fits plan).1
        omega
      backupSize_lt := Nat.lt_add_of_pos_left place.pos }
    gptPartStart := plan.gptPartStart }

/-- `precompute_gpt()` when all requests are registered. -/
def precompute (libc : Qsort) (t : Ecma119Image) (curblock : UInt32) (place : BackupPlace) :
    Except BootError Target := do
  let t ← rectifyApm libc t curblock
  if t.gptReq = [] then .ok ⟨{ t with gptMaxEntries := 0 }, 0⟩
  else do
    let plan ← precomputeGpt t.apmReq.length t.opts.apmBlockSize
    .ok (sizeGpt t place plan)

end Planning

/-- `hasSource` tells whether its data are a file of the ISO 9660 filesystem, `isAppended`
whether they are an appended partition. -/
structure BootImage where
  isolinuxOptions : Nat
  hasSource : Bool
  isAppended : Bool

/-- What gets read besides the image. Without boot catalog there are no boot images.
`otherSystem` are the writes and the result for a system area which is not for PC. -/
structure Setup where
  hasSystemAreaData : Bool
  bootImages : List BootImage
  appendedPartitions : Nat → Bool
  appendedAsGpt : Bool
  appendedAsApm : Bool
  haveAppendedPartitions : Bool
  isoMbrPartType : Int
  gptBlocks : UInt32
  otherSystem : List (Nat × Nat) × Except Int Unit

/-- What gets found in the bytes of the System Area. Slots are counted from 0. -/
structure Findings where
  apmHeadPrepared : Bool
  foundPart : Option (Fin 4)
  firstIsProtective : Bool
  isProtective : Fin 4 → Bool
  hasActive : Bool
  activatable : Option (Fin 4)
  unusedSlot : Option (Fin 4)
  notEfiSlot : Option (Fin 4)

section Tables

def ofBoot {α : Type} (x : Except BootError α) : Run α := Logged.silent (x.mapError .boot)

def mbrWrite (offset size : Nat) : Write := ⟨.mbr, offset, size⟩

/-- The entry and the signature. -/
def writeMbrPartitionEntry (partitionNumber : Nat) : List Write :=
  [mbrWrite (446 + (partitionNumber - 1) * 16) 16, mbrWrite 510 2]

/-- Entries are as large as the blocks of the map. -/
def apmWrites (out : ApmOutcome) : List Write :=
  (if out.block0.isSome then [⟨.apmBlock0, 0, 8⟩] else []) ++
    out.entries.mapIdx fun i _ =>
      ⟨.apmEntry i, (i + 1) * out.image.opts.apmBlockSize, out.image.opts.apmBlockSize⟩

def writeApm (t : Ecma119Image) (imgBlocks : UInt32) (flag : Nat) : Run Ecma119Image := do
  let out ← ofBoot (isoWriteApm t imgBlocks flag)
  Logged.record (apmWrites out)
  pure out.image

def slotWrites (i : Nat) (slot : Option MbrEntry) : List Write :=
  mbrWrite (446 + i * 16) 16 :: if slot.isSome then [mbrWrite 510 2] else []

def writeMbr (t : Ecma119Image) (imgBlocks : UInt32) : Run Ecma119Image := do
  let out ← ofBoot (isoWriteMbr t imgBlocks)
  Logged.record (out.slots.mapIdx slotWrites).flatten
  pure out.image

/-- All entries of the array, and the header. -/
def gptWrites (gptPartStart : Nat) (out : GptOutcome) : List Write :=
  if out.ret = 2 then []
  else (out.slots.mapIdx fun i _ => ⟨.gptEntry i, 512 * gptPartStart + 128 * i, 128⟩) ++
    [⟨.gptHeader, 512, 512⟩]

def writeGpt (libc : Qsort) (guids : Nat → Guid) (t : Ecma119Image) (gptPartStart : Nat)
    (imgBlocks : UInt32) : Run Ecma119Image := do
  let out ← ofBoot (isoWriteGpt libc guids t imgBlocks)
  Logged.record (gptWrites gptPartStart out)
  pure out.image

/-- The template of ISOLINUX gets patched. -/
def doIsohybrid (t : Ecma119Image) : Bool := saType t = 0 ∧ t.systemAreaOptions % 4 = 2

/-- The MBR is like the one of ISOLINUX isohybrid. -/
def likeIsohybrid (t : Ecma119Image) : Bool :=
  saType t = 0 ∧ (t.systemAreaOptions % 4 = 2 ∨ t.opts.partLikeIsohybrid = true)

def gptCount (setup : Setup) : Nat :=
  let count := setup.bootImages.countP fun b =>
    (b.isolinuxOptions / 4 % 64 = 1 || b.isolinuxOptions / 4 % 64 = 2) &&
      !(b.isAppended && setup.appendedAsGpt)
  if count = 0 then 0 else count + 1

def apmCount (setup : Setup) : Nat :=
  setup.bootImages.countP fun b => b.isolinuxOptions.testBit 8

/-- The Block0 of isohybrid differs from the own one. -/
def apmFlag (setup : Setup) (t : Ecma119Image) : Nat :=
  if likeIsohybrid t ∧ 0 < apmCount setup then 1 else 0

def writeTables (libc : Qsort) (guids : Nat → Guid) (setup : Setup) (g : Target) : Run Target :=
  if likeIsohybrid g.image ∧ g.image.mbrReq ≠ [] then Logged.fail (.boot .mbrOverlap)
  else do
    let t ← writeApm g.image g.image.volSpaceSize (apmFlag setup g.image)
    let t ← writeMbr t g.image.volSpaceSize
    if t.mbrReq ≠ [] ∧ saType t ≠ 0 then Logged.fail (.boot .nonMbrSysArea)
    else do
      let t ← writeGpt libc guids t g.gptPartStart setup.gptBlocks
      pure ⟨t, g.gptPartStart⟩

end Tables

section BootRecord

/-- `partType` is the type of the first partition. -/
structure Boot where
  partType : Nat
  riskOfEe : Bool

def partTypeOr (setup : Setup) (partType : Nat) : Nat :=
  if 0 ≤ setup.isoMbrPartType ∧ setup.isoMbrPartType ≤ 255 then setup.isoMbrPartType.toNat
  else partType

def firstHasSource (setup : Setup) : Bool := setup.bootImages.head?.any (·.hasSource)

/-- The partition table gets filled with zeros before. -/
def makeGrubMsdosLabel : Run Unit := Logged.record [mbrWrite 446 64, mbrWrite 510 2]

def insertApmHead (setup : Setup) (findings : Findings) : Run Unit :=
  if apmCount setup = 0 then pure ()
  else if findings.apmHeadPrepared then Logged.record [⟨.apmBlock0, 0, 32⟩]
  else Logged.fail .isolinuxCantPatch

/-- The address of the boot image, the MBR Id, and the partition table. -/
def makeIsolinuxMbr (setup : Setup) (findings : Findings) (t : Ecma119Image) : Run Unit :=
  if firstHasSource setup then do
    if doIsohybrid t then do
      insertApmHead setup findings
      Logged.record [mbrWrite 432 14]
    Logged.record [mbrWrite 446 64, mbrWrite 510 2]
  else Logged.fail .bootImageNotValid

def isolinuxPartType (setup : Setup) (t : Ecma119Image) : Nat :=
  let partType :=
    if likeIsohybrid t ∧ (0 < gptCount setup ∨ 0 < apmCount setup) then 0x00 else 0x17
  -- real isohybrid insists in 0x00
  if partType ≠ 0 ∨ !doIsohybrid t then partTypeOr setup partType else partType

def writeIsolinux (setup : Setup) (findings : Findings) (t : Ecma119Image) : Run Boot :=
  if (setup.bootImages = [] ∨ !setup.hasSystemAreaData) ∧ doIsohybrid t then
    Logged.fail .isolinuxCantPatch
  else do
    makeIsolinuxMbr setup findings t
    if setup.appendedAsGpt && setup.haveAppendedPartitions then pure ⟨0xee, true⟩
    else pure ⟨isolinuxPartType setup t, false⟩

def writeOtherSystem (setup : Setup) : Run Boot := do
  Logged.record (setup.otherSystem.1.map fun range => ⟨.otherSystem, range.1, range.2⟩)
  Logged.silent (setup.otherSystem.2.mapError .otherSystem)
  pure ⟨0, false⟩

/-- The found partition gets a new size, or there will be a new partition table. -/
def isoEnsureMbrPartTable (findings : Findings) : Run Unit :=
  match findings.foundPart with
  | some slot => Logged.record (writeMbrPartitionEntry (slot + 1))
  | none => makeGrubMsdosLabel

def ensureMbr (setup : Setup) (findings : Findings) (t : Ecma119Image) : Run Boot := do
  isoEnsureMbrPartTable findings
  if setup.appendedAsGpt && setup.haveAppendedPartitions then do
    Logged.record (writeMbrPartitionEntry 1)
    pure ⟨0xee, true⟩
  else if t.opts.partitionOffset = 0 then do
    Logged.record (writeMbrPartitionEntry 1)
    pure ⟨partTypeOr setup 0x83, true⟩
  else pure ⟨0, true⟩

/-- First and last partition. -/
def isoTellMaxPartRange (t : Ecma119Image) : Nat × Nat := if saType t = 3 then (2, 8) else (1, 4)

def partRange (t : Ecma119Image) : List Nat :=
  List.range' ((isoTellMaxPartRange t).1 - 1)
    ((isoTellMaxPartRange t).2 + 1 - (isoTellMaxPartRange t).1)

def willAppend (setup : Setup) (t : Ecma119Image) : Bool :=
  (partRange t).any setup.appendedPartitions

def writeBootRecord (setup : Setup) (findings : Findings) (t : Ecma119Image) : Run Boot :=
  if saType t = 0 ∧ t.systemAreaOptions.testBit 0 then
    if t.mbrReq ≠ [] then pure ⟨0, false⟩
    else do
      makeGrubMsdosLabel
      if t.gptReq ≠ [] ∧ !t.opts.partLikeIsohybrid then pure ⟨0xee, true⟩
      else pure ⟨partTypeOr setup 0xcd, true⟩
  else if doIsohybrid t || t.opts.partLikeIsohybrid then writeIsolinux setup findings t
  else if 1 ≤ saType t ∧ saType t ≤ 6 then writeOtherSystem setup
  else if (0 < t.opts.partitionOffset ∨ willAppend setup t) ∧ saType t = 0 ∧ t.mbrReq = [] then
    ensureMbr setup findings t
  else pure ⟨0, false⟩

/-- A requested protective MBR gets adjusted to the size of the GPT. -/
def adjustProtective (findings : Findings) (t : Ecma119Image) (boot : Boot) : Run Boot :=
  if t.gptReq ≠ [] ∧ saType t = 0 ∧ t.mbrReq.length = 1 ∧ findings.firstIsProtective ∧
      t.mbrReq.all fun r => r.typeByte = 0xee && decide (r.desiredSlot ≤ 1) then do
    Logged.record (writeMbrPartitionEntry 1)
    pure ⟨0xee, true⟩
  else pure boot

/-- The type byte stays. Behind a protective MBR there are no other partitions. -/
def isoOffsetPartitionStart (isProtective : Bool) : Run Unit :=
  Logged.record (mbrWrite 446 4 :: mbrWrite 451 11 ::
    if isProtective then [mbrWrite 462 48] else [])

def offsetPartition (t : Ecma119Image) (boot : Boot) : Run Unit :=
  if 0 < t.opts.partitionOffset ∧ saType t = 0 ∧ t.mbrReq = [] then
    isoOffsetPartitionStart (boot.partType = 0xee ∧ t.gptReq ≠ [])
  else pure ()

/-- Type, address and size, and the checksum. -/
def writeSunPartitionEntry (partitionNumber : Nat) : List Write :=
  [⟨.otherSystem, 142 + (partitionNumber - 1) * 4, 4⟩,
    ⟨.otherSystem, 444 + (partitionNumber - 1) * 8, 8⟩, ⟨.otherSystem, 510, 2⟩]

/-- The partitions of requests must not be overwritten. -/
def writeAppended (setup : Setup) (t : Ecma119Image) : List Nat → Run Unit
  | [] => pure ()
  | i :: rest =>
    if !setup.appendedPartitions i then writeAppended setup t rest
    else if i < t.mbrReq.length then Logged.fail (.boot .mbrCollision)
    else do
      Logged.record (if saType t = 3 then writeSunPartitionEntry (i + 1)
        else writeMbrPartitionEntry (i + 1))
      writeAppended setup t rest

def appendPartitions (setup : Setup) (t : Ecma119Image) : Run Unit :=
  if saType t = 3 ∨ !(setup.appendedAsGpt || setup.appendedAsApm) then
    writeAppended setup t (partRange t)
  else pure ()

/-- The address where GRUB2 finds its boot image. -/
def patchGrub2 (setup : Setup) (t : Ecma119Image) : Run Unit :=
  if saType t = 0 ∧ t.systemAreaOptions.testBit 14 ∧ !doIsohybrid t then
    if firstHasSource setup then Logged.record [mbrWrite 0x1b0 8]
    else Logged.fail .bootImageNotValid
  else pure ()

/-- No partition is of type 0xee if no GPT emerged. -/
def preventEe (setup : Setup) (findings : Findings) (t : Ecma119Image) (boot : Boot) : Run Unit :=
  if saType t = 0 ∧ (t.systemAreaOptions % 4 ≠ 0 ∨ boot.riskOfEe ∨ t.mbrReq ≠ []) ∧
      (t.opts.partLikeIsohybrid ∨ t.gptReq = []) ∧ setup.isoMbrPartType ≠ 0xee then
    Logged.record (((List.finRange 4).filter findings.isProtective).map fun slot : Fin 4 =>
      mbrWrite (446 + 16 * slot + 4) 1)
  else pure ()

/-- An unused slot, or the flag of a partition which is not for EFI. -/
def isoDummyMbrPartition (findings : Findings) : Run Unit :=
  match findings.unusedSlot with
  | some slot => Logged.record [mbrWrite (446 + 16 * slot) 16]
  | none => Logged.record [mbrWrite (446 + 16 * findings.notEfiSlot.getD (Fin.last 3)) 1]

/-- The MBR shall have a partition with the flag for bootability. -/
def setActive (findings : Findings) (t : Ecma119Image) : Run Unit :=
  if saType t = 0 ∧ (t.systemAreaOptions % 4 ≠ 0 ∨ t.systemAreaOptions.testBit 14 ∨
      t.systemAreaOptions / 2 ^ 10 % 16 ≠ 1 ∧ t.systemAreaOptions.testBit 15) ∧
      !findings.hasActive then
    match findings.activatable with
    | some slot => Logged.record [mbrWrite (446 + 16 * slot) 1]
    | none =>
      if t.systemAreaOptions.testBit 15 then isoDummyMbrPartition findings else pure ()
  else pure ()

/-- The steps behind the tables. They do not change the image. -/
def finishBootRecord (setup : Setup) (findings : Findings) (t : Ecma119Image) : Run Unit := do
  let boot ← writeBootRecord setup findings t
  let boot ← adjustProtective findings t boot
  offsetPartition t boot
  appendPartitions setup t
  patchGrub2 setup t
  preventEe setup findings t boot
  setActive findings t

end BootRecord

/-- An old ISOLINUX image without template. -/
def hasBuiltinTemplate (setup : Setup) (t : Ecma119Image) : Bool :=
  !setup.hasSystemAreaData && saType t = 0 &&
    setup.bootImages.head?.any fun b => b.isolinuxOptions &&& 0x0a = 0x02

/-- The built-in template comes without partition tables. -/
def isoWriteSystemArea (libc : Qsort) (guids : Nat → Guid) (setup : Setup) (findings : Findings)
    (g : Target) : Run Target :=
  if hasBuiltinTemplate setup g.image then
    if firstHasSource setup then do
      Logged.record [mbrWrite 0 512]
      pure g
    else Logged.fail .bootImageNotValid
  else do
    let g ← writeTables libc guids setup g
    finishBootRecord setup findings g.image
    pure g

def deleteFillers (g : Target) : Target :=
  ⟨isoDeleteGptApmFillers g.image, g.gptPartStart⟩

/-- The targets which a run of the writers can reach. The System Area may get written before
any GPT was computed, and again when the fillers have been deleted. -/
inductive Reached (libc : Qsort) (guids : Nat → Guid) : Target → Prop where
  | created (t : Ecma119Image) : t.gptMaxEntries = 0 → Reached libc guids ⟨t, 0⟩
  | computed (t : Ecma119Image) (curblock : UInt32) (place : BackupPlace) {g : Target} :
    precompute libc t curblock place = .ok g → Reached libc guids g
  | written {g g' : Target} (setup : Setup) (findings : Findings) : Reached libc guids g →
    (isoWriteSystemArea libc guids setup findings g).result = .ok g' → Reached libc guids g'
  | deleted {g : Target} : Reached libc guids g → Reached libc guids (deleteFillers g)

end SystemAreaWrites
