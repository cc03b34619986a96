import Libisofs.Lib.Bytes
import Mathlib.Data.Nat.Bitwise

/-!
# Entries of the MBR partition table

write_mbr_partition_entry() of system_area.c, with iso_compute_cyl_head_sec(). It shall write
start and size of the partition, and the cylinders, heads, and sectors of its first and of its
last block. Numbers which are too large shall be truncated rather than rolled over.
-/

namespace MbrEntries

open ByteBuffers

/-- Where the start and the end of partitions get truncated. -/
def maxBlocks : Nat := 0xfffffffc

structure Chs where
  cyl : Nat
  head : Nat
  sec : Nat
  deriving DecidableEq

/-- Cylinder, head, and sector of an address. -/
def chsOf (hpc sph secs : Nat) : Chs :=
  let cyl := secs / (sph * hpc)
  let rest := secs - cyl * sph * hpc
  let head := rest / sph
  if 1024 ≤ cyl then ⟨1023, hpc - 1, sph⟩ else ⟨cyl, head, rest - head * sph + 1⟩

/-- *end_lba and the triple of iso_compute_cyl_head_sec(). `isStart` is flag bit0, `in512` is
flag bit1. -/
def isoComputeCylHeadSec (imgBlocks : UInt64) (hpc sph : Nat) (isStart in512 : Bool) :
    UInt32 × Chs :=
  let secs := if in512 then imgBlocks else imgBlocks * 4
  let secs := if secs > 0xfffffffc then 0xfffffffc else secs
  let lba := if isStart then secs.toUInt32 else (secs - 1).toUInt32
  (lba, chsOf hpc sph lba.toNat)

/-- The three bytes of a triple. -/
def chsBytes (c : Chs) : List UInt8 :=
  [UInt8.ofNat c.head, UInt8.ofNat (c.sec ||| (c.cyl &&& 0x300) >>> 2),
    UInt8.ofNat (c.cyl &&& 0xff)]

def writeMbrPartitionEntry (partitionNumber : Nat) (partitionType : UInt8)
    (partitionOffset partitionSize : UInt64) (sph hpc : Nat) (buf : Buffer) (in512 : Bool) :
    Buffer :=
  let afterEnd := (partitionOffset + partitionSize).toUInt32
  let first := isoComputeCylHeadSec partitionOffset hpc sph true in512
  let last := isoComputeCylHeadSec afterEnd.toUInt64 hpc sph false in512
  let entry := 0 :: chsBytes first.2 ++ partitionType :: chsBytes last.2 ++
    toLsb 4 first.1.toNat ++ toLsb 4 (last.1 - first.1 + 1).toNat
  patch (patch buf (446 + (partitionNumber - 1) * 16) entry) 510 [0x55, 0xaa]

/-! ## Reading -/

structure MbrEntry where
  first : Chs
  last : Chs
  startLba : Nat
  sectors : Nat

/-- The sector has 6 bits, and the cylinder has 10. -/
def readChs (bytes : List UInt8) : Chs :=
  let packed := (bytes.getD 1 0).toNat
  ⟨packed / 64 * 256 + (bytes.getD 2 0).toNat, (bytes.getD 0 0).toNat, packed % 64⟩

def readEntry (buf : Buffer) (partitionNumber : Nat) : MbrEntry :=
  let pos := 446 + (partitionNumber - 1) * 16
  ⟨readChs (slice buf (pos + 1) 3), readChs (slice buf (pos + 5) 3),
    ofLsb (slice buf (pos + 8) 4), ofLsb (slice buf (pos + 12) 4)⟩

theorem packed_eq {cyl sec : Nat} (hcyl : cyl < 1024) (hsec : sec < 64) :
    sec ||| (cyl &&& 0x300) >>> 2 = cyl / 256 * 64 + sec := by
  have hhigh : ∀ c < 1024, (c &&& 0x300) >>> 2 = 2 ^ 6 * (c / 256) := by decide +kernel
  rw [hhigh cyl hcyl, Nat.or_comm, ← Nat.two_pow_add_eq_or_of_lt hsec, Nat.mul_comm]

theorem readChs_chsBytes {c : Chs} (hcyl : c.cyl < 1024) (hhead : c.head < 256)
    (hsec : c.sec < 64) : readChs (chsBytes c) = c := by
  obtain ⟨cyl, head, sec⟩ := c
  have hlow : cyl &&& 0xff = cyl % 256 := Nat.and_two_pow_sub_one_eq_mod cyl 8
  have hpacked := packed_eq hcyl hsec
  simp only [readChs, chsBytes, hpacked, hlow, List.getD_cons_zero, List.getD_cons_succ,
    UInt8.toNat_ofNat', Chs.mk.injEq]
  simp only at hcyl hhead hsec
  omega

/-! ## Addresses -/

section Addresses

variable {hpc sph : Nat} (hhpc : 1 ≤ hpc ∧ hpc ≤ 255) (hsph : 1 ≤ sph ∧ sph ≤ 63)

def Chs.lba (hpc sph : Nat) (c : Chs) : Nat := (c.cyl * hpc + c.head) * sph + c.sec - 1

/-- The triple of an address, or the largest triple. -/
def Tells (hpc sph : Nat) (c : Chs) (lba : Nat) : Prop :=
  if lba / (sph * hpc) < 1024 then c.lba hpc sph = lba else c = ⟨1023, hpc - 1, sph⟩

include hhpc hsph

theorem chsOf_bounds (secs : Nat) : (chsOf hpc sph secs).cyl < 1024 ∧
    (chsOf hpc sph secs).head < 256 ∧ (chsOf hpc sph secs).sec < 64 := by
  have hrest : secs - secs / (sph * hpc) * sph * hpc < sph * hpc := by
    rw [Nat.mul_assoc, Nat.mul_comm _ (sph * hpc), ← Nat.mod_eq_sub_mul_div]
    exact Nat.mod_lt _ (Nat.mul_pos hsph.1 hhpc.1)
  rw [chsOf]
  generalize secs - secs / (sph * hpc) * sph * hpc = rest at hrest
  have hhead : rest / sph < hpc := Nat.div_lt_of_lt_mul hrest
  have hsec : rest - rest / sph * sph < sph := by
    rw [Nat.mul_comm, ← Nat.mod_eq_sub_mul_div]
    exact Nat.mod_lt _ hsph.1
  split
  next =>
    refine ⟨show 1023 < 1024 by decide, show hpc - 1 < 256 from ?_, show sph < 64 from ?_⟩
    · omega
    · omega
  next hcyl =>
    refine ⟨Nat.lt_of_not_le hcyl, show rest / sph < 256 from ?_,
      show rest - rest / sph * sph + 1 < 64 from ?_⟩
    · omega
    · omega

omit hhpc hsph in
theorem chsOf_tells (secs : Nat) : Tells hpc sph (chsOf hpc sph secs) secs := by
  rw [Tells, chsOf]
  by_cases hcyl : secs / (sph * hpc) < 1024
  · rw [if_pos hcyl, if_neg (Nat.not_le.mpr hcyl), Chs.lba]
    have hle : secs / (sph * hpc) * sph * hpc ≤ secs := by
      rw [Nat.mul_assoc]
      exact Nat.div_mul_le_self secs (sph * hpc)
    have hwhole := Nat.add_sub_of_le hle
    have hhead := Nat.add_sub_of_le
      (Nat.div_mul_le_self (secs - secs / (sph * hpc) * sph * hpc) sph)
    generalize secs - secs / (sph * hpc) * sph * hpc = rest at hwhole hhead
    show (secs / (sph * hpc) * hpc + rest / sph) * sph + (rest - rest / sph * sph) = secs
    rw [Nat.add_mul, Nat.mul_right_comm, Nat.add_assoc, hhead, hwhole]
  · rw [if_neg hcyl, if_pos (Nat.le_of_not_lt hcyl)]

/-- Behind the limit there are no cylinders. -/
theorem Tells.far {c : Chs} {secs lba : Nat} (h : Tells hpc sph c secs)
    (hsecs : maxBlocks ≤ secs + 1) (hlba : maxBlocks ≤ lba + 1) : Tells hpc sph c lba := by
  have hcylinder : sph * hpc ≤ 63 * 255 := Nat.mul_le_mul hsph.2 hhpc.2
  have hpos : 0 < sph * hpc := Nat.mul_pos hsph.1 hhpc.1
  have hfar {x : Nat} (hx : maxBlocks ≤ x + 1) : ¬ x / (sph * hpc) < 1024 := by
    rw [Nat.not_lt, Nat.le_div_iff_mul_le hpos]
    rw [maxBlocks] at hx
    omega
  rw [Tells, if_neg (hfar hsecs)] at h
  rw [Tells, if_neg (hfar hlba)]
  exact h

end Addresses

/-! ## The written numbers -/

section Numbers

variable {partitionOffset partitionSize : UInt64} {in512 : Bool} {hpc sph partitionNumber : Nat}
  {partitionType : UInt8} {buf : Buffer}

/-- The number of 512-byte units in a block. -/
def units (in512 : Bool) : Nat := if in512 then 1 else 4

theorem toNat_truncated (secs : UInt64) :
    (if secs > 0xfffffffc then 0xfffffffc else secs).toNat = min secs.toNat maxBlocks := by
  have hlimit : secs > 0xfffffffc ↔ maxBlocks < secs.toNat := UInt64.lt_iff_toNat_lt
  rcases Nat.lt_or_ge maxBlocks secs.toNat with hlt | hge
  · rw [if_pos (hlimit.mpr hlt), Nat.min_eq_right hlt.le]
    rfl
  · rw [if_neg (fun h => Nat.not_lt.mpr hge (hlimit.mp h)), Nat.min_eq_left hge]

/-- A number of blocks in units of 512 bytes. -/
theorem toNat_secs (blocks : UInt64) : (if in512 then blocks else blocks * 4).toNat =
    blocks.toNat * units in512 % 2 ^ 64 := by
  cases in512 with
  | true =>
    show blocks.toNat = blocks.toNat * 1 % 2 ^ 64
    rw [Nat.mul_one, Nat.mod_eq_of_lt blocks.toNat_lt]
  | false => exact UInt64.toNat_mul blocks 4

theorem toNat_first : (isoComputeCylHeadSec partitionOffset hpc sph true in512).1.toNat =
    min (partitionOffset.toNat * units in512 % 2 ^ 64) maxBlocks := by
  rw [← toNat_secs, ← toNat_truncated, isoComputeCylHeadSec]
  dsimp only
  rw [if_pos rfl, UInt64.toNat_toUInt32, toNat_truncated]
  exact Nat.mod_eq_of_lt ((Nat.min_le_right ..).trans_lt (by decide))

theorem toNat_last : (isoComputeCylHeadSec (partitionOffset + partitionSize).toUInt32.toUInt64
    hpc sph false in512).1.toNat =
      (min ((partitionOffset.toNat + partitionSize.toNat) % 2 ^ 32 * units in512) maxBlocks +
        (2 ^ 32 - 1)) % 2 ^ 32 := by
  have hafter : (partitionOffset + partitionSize).toUInt32.toUInt64.toNat * units in512 % 2 ^ 64 =
      (partitionOffset.toNat + partitionSize.toNat) % 2 ^ 32 * units in512 := by
    rw [UInt32.toNat_toUInt64, UInt64.toNat_toUInt32, UInt64.toNat_add,
      Nat.mod_mod_of_dvd _ (by decide : 2 ^ 32 ∣ 2 ^ 64)]
    refine Nat.mod_eq_of_lt ?_
    have hlt := Nat.mod_lt (partitionOffset.toNat + partitionSize.toNat) (show 0 < 2 ^ 32 by decide)
    cases in512
    · show _ * 4 < _
      omega
    · show _ * 1 < _
      omega
  rw [isoComputeCylHeadSec]
  dsimp only
  rw [if_neg Bool.false_ne_true, UInt64.toNat_toUInt32, UInt64.toNat_sub, toNat_truncated,
    toNat_secs, hafter]
  show (2 ^ 64 - 1 + _) % 2 ^ 64 % 2 ^ 32 = _
  generalize min _ maxBlocks = secs
  omega

/-- What gets read back from the entry. -/
theorem readEntry_write (hnumber : 1 ≤ partitionNumber ∧ partitionNumber ≤ 4)
    (hhpc : 1 ≤ hpc ∧ hpc ≤ 255) (hsph : 1 ≤ sph ∧ sph ≤ 63) :
    readEntry (writeMbrPartitionEntry partitionNumber partitionType partitionOffset partitionSize
      sph hpc buf in512) partitionNumber =
        let first := isoComputeCylHeadSec partitionOffset hpc sph true in512
        let last := isoComputeCylHeadSec (partitionOffset + partitionSize).toUInt32.toUInt64 hpc
          sph false in512
        ⟨chsOf hpc sph first.1.toNat, chsOf hpc sph last.1.toNat, first.1.toNat,
          (last.1 - first.1 + 1).toNat⟩ := by
  have hchs {c : UInt32 × Chs} (hc : c.2 = chsOf hpc sph c.1.toNat) : readChs (chsBytes c.2) =
      chsOf hpc sph c.1.toNat := by
    obtain ⟨hcyl, hhead, hsec⟩ := chsOf_bounds hhpc hsph c.1.toNat
    rw [hc, readChs_chsBytes hcyl hhead hsec]
  have hnum (x : UInt32) : x.toNat < 256 ^ 4 := x.toNat_lt
  rw [readEntry, writeMbrPartitionEntry]
  generalize hpos : 446 + (partitionNumber - 1) * 16 = pos
  generalize hfirst : isoComputeCylHeadSec partitionOffset hpc sph true in512 = first
  generalize hlast : isoComputeCylHeadSec _ hpc sph false in512 = last
  have hheld : Holds (patch (patch buf pos (0 :: chsBytes first.2 ++ partitionType ::
      chsBytes last.2 ++ toLsb 4 first.1.toNat ++ toLsb 4 (last.1 - first.1 + 1).toNat)) 510
        [0x55, 0xaa]) pos (0 :: chsBytes first.2 ++ partitionType :: chsBytes last.2 ++
          toLsb 4 first.1.toNat ++ toLsb 4 (last.1 - first.1 + 1).toNat) := by
    refine holds_patch.patch (Or.inl ?_)
    show pos + 16 ≤ 510
    omega
  rw [holds_append, holds_append, holds_append, holds_cons] at hheld
  obtain ⟨⟨⟨⟨-, h1⟩, h2⟩, h3⟩, h4⟩ := hheld
  replace h2 := (holds_cons.mp h2).2
  simp only [MbrEntry.mk.injEq]
  refine ⟨?_, ?_, ?_, ?_⟩
  · exact (congrArg readChs (h1.slice_of_length rfl)).trans (hchs (hfirst ▸ rfl))
  · exact (congrArg readChs (h2.slice_of_length rfl)).trans (hchs (hlast ▸ rfl))
  · exact h3.ofLsb_slice (hnum _)
  · exact h4.ofLsb_slice (hnum _)

end Numbers

/-! ## The addresses which an entry shall have -/

section Right

variable (in512 : Bool) (hpc sph : Nat) (partitionOffset partitionSize : UInt64)

def startOf : Nat := partitionOffset.toNat * units in512

/-- The address after the last one. -/
def endOf : Nat := startOf in512 partitionOffset + partitionSize.toNat * units in512

/-- Start and size are those of the partition, or truncated if 32 bits do not suffice for the
start or for the end. Each triple tells the first or the last address. -/
structure EntryRight (e : MbrEntry) : Prop where
  start : startOf in512 partitionOffset < 2 ^ 32 → e.startLba = startOf in512 partitionOffset
  startTruncated : 2 ^ 32 ≤ startOf in512 partitionOffset → maxBlocks ≤ e.startLba
  size : endOf in512 partitionOffset partitionSize < 2 ^ 32 →
    e.sectors = partitionSize.toNat * units in512
  sizeTruncated : 2 ^ 32 ≤ endOf in512 partitionOffset partitionSize →
    maxBlocks ≤ e.startLba + e.sectors ∧ e.startLba + e.sectors ≤ 2 ^ 32
  first : Tells hpc sph e.first (startOf in512 partitionOffset)
  last : 0 < partitionSize.toNat →
    Tells hpc sph e.last (endOf in512 partitionOffset partitionSize - 1)

/-- The start does not exceed the limit of truncation, or it exceeds 32 bits and does not roll
over at 64 bits. -/
def StartFits : Prop :=
  startOf in512 partitionOffset ≤ maxBlocks ∨
    2 ^ 32 ≤ startOf in512 partitionOffset ∧ maxBlocks ≤ startOf in512 partitionOffset % 2 ^ 64

/-- The end does not exceed the limit of truncation, or it exceeds 32 bits and the low 32 bits of
the block number after the partition still exceed the limit or are the end of all blocks. -/
def EndFits : Prop :=
  endOf in512 partitionOffset partitionSize ≤ maxBlocks ∨
    2 ^ 32 ≤ endOf in512 partitionOffset partitionSize ∧
      (maxBlocks ≤ (partitionOffset.toNat + partitionSize.toNat) % 2 ^ 32 * units in512 ∨
        (partitionOffset.toNat + partitionSize.toNat) % 2 ^ 32 = 0 ∧
          0 < startOf in512 partitionOffset)

end Right

section Main

variable {in512 : Bool} {hpc sph partitionNumber : Nat} {partitionOffset partitionSize : UInt64}

/-- The numbers after truncation. -/
theorem start_iff {start lba : Nat} (hlba : lba = min (start % 2 ^ 64) maxBlocks) :
    (start < 2 ^ 32 → lba = start) ∧ (2 ^ 32 ≤ start → maxBlocks ≤ lba) ↔
      start ≤ maxBlocks ∨ 2 ^ 32 ≤ start ∧ maxBlocks ≤ start % 2 ^ 64 := by
  rw [maxBlocks] at *
  constructor
  · rintro ⟨hsmall, hlarge⟩
    omega
  · intro h
    exact ⟨by omega, by omega⟩

theorem end_iff {start size after lba sectors : Nat} (hafter : start + size < 2 ^ 32 →
      after = start + size)
    (hlba : lba = start ∧ start ≤ maxBlocks ∨ lba = maxBlocks ∧ 2 ^ 32 ≤ start)
    (hsectors : sectors = (min after maxBlocks + (2 ^ 32 - lba)) % 2 ^ 32) :
    (start + size < 2 ^ 32 → sectors = size) ∧ (2 ^ 32 ≤ start + size →
        maxBlocks ≤ lba + sectors ∧ lba + sectors ≤ 2 ^ 32) ↔
      start + size ≤ maxBlocks ∨
        2 ^ 32 ≤ start + size ∧ (maxBlocks ≤ after ∨ after = 0 ∧ 0 < start) := by
  rw [maxBlocks] at *
  rcases Nat.lt_or_ge (start + size) (2 ^ 32) with hlt | hge
  · rw [hafter hlt] at hsectors
    constructor
    · rintro ⟨hsmall, -⟩
      have hsize := hsmall hlt
      omega
    · intro h
      exact ⟨by omega, by omega⟩
  · constructor
    · rintro ⟨-, hlarge⟩
      have hbounds := hlarge hge
      refine Or.inr ⟨hge, ?_⟩
      rcases Nat.lt_or_ge after 0xfffffffc with hsmall | hbig
      · rw [Nat.min_eq_left hsmall.le] at hsectors
        omega
      · exact Or.inl hbig
    · rintro (h | ⟨-, hbig | ⟨hzero, hstart⟩⟩)
      · omega
      · rw [Nat.min_eq_right hbig] at hsectors
        omega
      · rw [hzero, Nat.zero_min] at hsectors
        omega

/-- The entry is right if and only if neither its start nor its end rolls over, nor comes between
the limit of truncation and 32 bits. -/
theorem entryRight_iff (hnumber : 1 ≤ partitionNumber ∧ partitionNumber ≤ 4)
    (hhpc : 1 ≤ hpc ∧ hpc ≤ 255) (hsph : 1 ≤ sph ∧ sph ≤ 63) (partitionType : UInt8)
    (buf : Buffer) :
    EntryRight in512 hpc sph partitionOffset partitionSize
      (readEntry (writeMbrPartitionEntry partitionNumber partitionType partitionOffset
        partitionSize sph hpc buf in512) partitionNumber) ↔
      StartFits in512 partitionOffset ∧ EndFits in512 partitionOffset partitionSize := by
  rw [readEntry_write hnumber hhpc hsph]
  dsimp only
  have hfirst := @toNat_first partitionOffset in512 hpc sph
  have hlast := @toNat_last partitionOffset partitionSize in512 hpc sph
  generalize (isoComputeCylHeadSec partitionOffset hpc sph true in512).1 = first at *
  generalize (isoComputeCylHeadSec _ hpc sph false in512).1 = last at *
  have hsectors : (last - first + 1).toNat =
      (min ((partitionOffset.toNat + partitionSize.toNat) % 2 ^ 32 * units in512) maxBlocks +
        (2 ^ 32 - first.toNat)) % 2 ^ 32 := by
    have hlt := first.toNat_lt
    rw [UInt32.toNat_add, UInt32.toNat_sub, hlast]
    show (_ + 1) % 2 ^ 32 = _
    generalize min _ maxBlocks = secs
    omega
  have hend : endOf in512 partitionOffset partitionSize =
      (partitionOffset.toNat + partitionSize.toNat) * units in512 := (Nat.add_mul ..).symm
  have hunits : 1 ≤ units in512 := by cases in512 <;> decide
  have hafter : endOf in512 partitionOffset partitionSize < 2 ^ 32 →
      (partitionOffset.toNat + partitionSize.toNat) % 2 ^ 32 * units in512 =
        endOf in512 partitionOffset partitionSize := by
    intro hlt
    rw [hend] at hlt ⊢
    rw [Nat.mod_eq_of_lt ((Nat.le_mul_of_pos_right _ hunits).trans_lt hlt)]
  have hzero : (partitionOffset.toNat + partitionSize.toNat) % 2 ^ 32 * units in512 = 0 ↔
      (partitionOffset.toNat + partitionSize.toNat) % 2 ^ 32 = 0 := by
    rw [Nat.mul_eq_zero]
    exact or_iff_left (Nat.ne_of_gt hunits)
  have hboth (hstart : StartFits in512 partitionOffset) :
      first.toNat = startOf in512 partitionOffset ∧ startOf in512 partitionOffset ≤ maxBlocks ∨
        first.toNat = maxBlocks ∧ 2 ^ 32 ≤ startOf in512 partitionOffset := by
    rcases hstart with hsmall | ⟨hlarge, hkept⟩
    · refine Or.inl ⟨?_, hsmall⟩
      rw [hfirst, ← startOf, Nat.mod_eq_of_lt (hsmall.trans_lt (by decide)),
        Nat.min_eq_left hsmall]
    · exact Or.inr ⟨hfirst.trans (Nat.min_eq_right hkept), hlarge⟩
  rw [← startOf] at hfirst
  rw [EndFits, ← hzero]
  constructor
  · intro h
    have hstart := (start_iff hfirst).mp ⟨h.start, h.startTruncated⟩
    exact ⟨hstart, (end_iff hafter (hboth hstart) hsectors).mp ⟨h.size, h.sizeTruncated⟩⟩
  · rintro ⟨hstart, hfits⟩
    have hnumbers := (end_iff hafter (hboth hstart) hsectors).mpr hfits
    constructor
    case start => exact ((start_iff hfirst).mpr hstart).1
    case startTruncated => exact ((start_iff hfirst).mpr hstart).2
    case size => exact hnumbers.1
    case sizeTruncated => exact hnumbers.2
    case first =>
      have htells := @chsOf_tells hpc sph first.toNat
      rcases hboth hstart with ⟨hsame, -⟩ | ⟨hlimit, hlarge⟩
      · rwa [hsame] at htells ⊢
      · refine htells.far hhpc hsph ?_ ?_
        · exact hlimit ▸ Nat.le_succ _
        · exact (show maxBlocks ≤ 2 ^ 32 by decide).trans (hlarge.trans (Nat.le_succ _))
    case last =>
      intro hsome
      have htells := @chsOf_tells hpc sph last.toNat
      have hpos : 0 < endOf in512 partitionOffset partitionSize := by
        rw [hend]
        exact Nat.mul_pos (Nat.add_pos_right _ hsome) hunits
      rcases hfits with hsmall | ⟨hlarge, hbehind⟩
      · rw [hafter (hsmall.trans_lt (by decide)), Nat.min_eq_left hsmall] at hlast
        have hsame : last.toNat = endOf in512 partitionOffset partitionSize - 1 := by
          rw [maxBlocks] at hsmall
          omega
        rwa [hsame] at htells ⊢
      · refine htells.far hhpc hsph ?_ ?_
        · rcases hbehind with hbig | ⟨hnone, -⟩
          · rw [Nat.min_eq_right hbig] at hlast
            rw [hlast]
            decide
          · rw [hnone, Nat.zero_min] at hlast
            rw [hlast]
            decide
        · rw [maxBlocks]
          omega

/-- The last partition of a disk with 2 TiB ends at the end of all blocks. -/
theorem lastPartition_right :
    EntryRight true 255 63 2048 4294965248 (readEntry
      (writeMbrPartitionEntry 1 0x83 2048 4294965248 63 255 (fun _ => 0) true) 1) ↔
      StartFits true 2048 ∧ EndFits true 2048 4294965248 :=
  entryRight_iff (by decide) (by decide) (by decide) 0x83 fun _ => 0

/-- A partition of 2 TiB and 4 KiB is said to have 8 blocks. -/
theorem rolled_over : ¬ ∀ partitionOffset partitionSize : UInt64,
    EntryRight true 255 63 partitionOffset partitionSize (readEntry
      (writeMbrPartitionEntry 1 0x83 partitionOffset partitionSize 63 255 (fun _ => 0) true) 1) := by
  intro h
  have htruncated := (h 0 4294967304).sizeTruncated (by decide)
  exact absurd htruncated.1 (by decide +kernel)

end Main

end MbrEntries
