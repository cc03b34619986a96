import Mathlib.Data.Nat.ModEq

/-!
# Alignment to cylinders

try_sph() and iso_align_isohybrid() of system_area.c. The image gets padded up to a multiple of
the cylinder size of the MBR. The macro Libisofs_part_align_writeR is defined, so that the padding
goes to part_align_blocks and tail_blocks stays.
-/

namespace CylinderAlignment

/-- What matters of Ecma119Image. The API documentation demands at most 255 heads and 63 sectors,
but iso_write_opts_set_part_offset() does not check them.
`firstOptions` is isolinux_options of the first boot image, if there is a catalog. -/
structure Ecma119Image where
  systemAreaOptions : Nat
  gptBackupOutside : Bool
  gptBackupSize : UInt32
  curblock : UInt32
  tailBlocks : UInt32
  appPartCount : Nat
  appendedAsGpt : Bool
  haveAppendedPartitions : Bool
  partitionHeadsPerCyl : Nat
  partitionSecsPerHead : Nat
  firstOptions : Option Nat
  systemAreaData : Bool
  partAlignBlocks : Nat
  postIsoPartPad : Nat

namespace Ecma119Image

variable (t : Ecma119Image)

def saType : Nat := t.systemAreaOptions >>> 2 &&& 0x3f

def alwaysAlign : Nat := t.systemAreaOptions >>> 8 &&& 3

def imgBlocks : UInt32 :=
  if t.appPartCount = 0 then t.curblock + (t.tailBlocks + t.gptBackupSize) else t.curblock

def imgsize : Nat := t.imgBlocks.toNat * 2048

/-- The test whether the magic number of ISOLINUX 3.72 was found. -/
def isolinuxTemplate : Bool :=
  match t.firstOptions with
  | none => false
  | some options => options &&& 0x0a = 0x02

def geometrySize : Nat := t.partitionHeadsPerCyl * t.partitionSecsPerHead * 512

/-- The variable cylsize where the alignment begins. It is 0 if nothing is to be aligned. -/
def cylsize : Nat :=
  if t.isolinuxTemplate then 64 * 32 * 512
  else if t.systemAreaOptions &&& 2 ≠ 0 then t.geometrySize
  else if t.alwaysAlign ≠ 0 then t.geometrySize
  else 0

/-- The bytes which are missing to the aligned image size. -/
def missing : Nat :=
  let frac := t.imgsize % t.cylsize
  t.imgsize + (if 0 < frac then t.cylsize - frac else 0) - t.imgBlocks.toNat * 2048

end Ecma119Image

open Ecma119Image

def isoSuccess : Int := 1
def isoIsolinuxCantPatch : Int := 0xE030FEB9 - 2 ^ 32

section Heads

end Heads

/-! ## The padding -/

section Padding

variable {t : Ecma119Image}

/-- The size of the image with the padding. -/
def paddedSize (t : Ecma119Image) : Nat := (t.imgBlocks.toNat + t.partAlignBlocks) * 2048

/-- Without postIsoPartPad the size is a multiple of the cylinder size. Less than a cylinder and a
block was added, and there are at most 1024 cylinders. -/
structure Aligned (t : Ecma119Image) : Prop where
  cylsize_pos : 0 < t.cylsize
  pad_le : t.postIsoPartPad ≤ paddedSize t
  multiple : (paddedSize t - t.postIsoPartPad) % t.cylsize = 0
  added : paddedSize t < t.imgsize + t.cylsize + 2048
  cylinders : paddedSize t ≤ 1024 * t.cylsize

end Padding

end CylinderAlignment
