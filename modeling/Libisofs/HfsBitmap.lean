import Libisofs.Lib.Bitmaps

/-!
# The allocation bitmap of the HFS+ partition

hfsplus_tail_writer_compute_data_blocks() reserves the blocks of the allocation file and tells the
size of the partition. hfsplus_tail_writer_write_data() writes the file. The byte with the last
used block lacks its ones if it is full or if it would be the first one of its block.
-/

namespace HfsBitmap

open ByteBuffers Bitmaps

/-- `hfsp_iso_block_fac` -/
def hfspIsoBlockFac (blockSize : UInt32) : UInt32 := 2048 / blockSize

/-- `hfsp_part_start` as of hfsplus_writer_compute_data_blocks() at block `start`. -/
def hfspPartStart (blockSize start : UInt32) : UInt32 := start * hfspIsoBlockFac blockSize

structure HfsTail where
  hfspAllocationBlocks : UInt32
  hfspAllocationFileStart : UInt32
  hfspTotalBlocks : UInt32
  curblock : UInt32
  /-- start and number of blocks of the Apple partition -/
  apmEntry : UInt32 × UInt32

def hfsplusTailWriterComputeDataBlocks (blockSize hfspPartStart curblock : UInt32) : HfsTail :=
  let blockFac := hfspIsoBlockFac blockSize
  let hfspCurblock := curblock * blockFac
  let hfspSize := hfspCurblock - hfspPartStart + 1
  let allocationBlocks := hfspSize / (8 * blockSize - 1) + 1
  let fileStart := hfspCurblock
  let hfspCurblock := hfspCurblock + allocationBlocks
  let curblock := if hfspCurblock % blockFac ≠ 0 then hfspCurblock / blockFac + 1
    else hfspCurblock / blockFac
  let hfspCurblock := curblock * blockFac
  -- the superblock copy
  let hfspCurblock := hfspCurblock + blockFac
  let curblock := curblock + 1
  let total := hfspCurblock - hfspPartStart
  { hfspAllocationBlocks := allocationBlocks
    hfspAllocationFileStart := fileStart
    hfspTotalBlocks := total
    curblock
    apmEntry := (hfspPartStart / blockFac,
      total / blockFac + if total % blockFac ≠ 0 then 1 else 0) }

/-- `hfsp_allocation_size` as of write_sb(). -/
def hfspAllocationSize (total : UInt32) : UInt32 := (total + 7) >>> 3

/-- What the image is written to. -/
structure Output (σ : Type) where
  isoWrite : List UInt8 → σ → Except Int σ
  padUpBlock : σ → Except Int σ
  writeSb : σ → Except Int σ

def writeTimes {σ : Type} (out : Output σ) : Nat → List UInt8 → σ → Except Int σ
  | 0, _, s => .ok s
  | n + 1, block, s => do
    let s ← out.isoWrite block s
    writeTimes out n block s

def hfsplusTailWriterWriteData {σ : Type} (out : Output σ) (blockSize : UInt32) (tail : HfsTail)
    (s : σ) : Except Int σ := do
  let allocationSize := hfspAllocationSize tail.hfspTotalBlocks
  let buffer : Buffer := fun _ => 0xff
  let completeBlocks := (allocationSize - 1) / blockSize
  let remainingBlocks := tail.hfspAllocationBlocks - completeBlocks
  let s ← writeTimes out completeBlocks.toNat (slice buffer 0 blockSize.toNat) s
  let overBytes := ((allocationSize - 1) % blockSize).toNat
  let (s, remainingBlocks) ← if overBytes ≠ 0 then do
      let buffer := copyInto buffer overBytes (2 * 2048 - overBytes) fun _ => 0
      let buffer := Function.update buffer overBytes (headOnes (tail.hfspTotalBlocks % 8).toNat)
      let s ← out.isoWrite (slice buffer 0 blockSize.toNat) s
      pure (s, remainingBlocks - 1)
    else pure (s, remainingBlocks)
  let buffer : Buffer := fun _ => 0
  let s ← writeTimes out remainingBlocks.toNat (slice buffer 0 blockSize.toNat) s
  let s ← out.padUpBlock s
  out.writeSb s

/-- The blocks of the file get recorded. -/
def recording : Output (List (List UInt8)) :=
  ⟨fun block s => .ok (s ++ [block]), .ok, .ok⟩

/-- The partition begins at block `start` of the image and the tail at block `endBlock`. -/
def tailOf (blockSize start endBlock : UInt32) : HfsTail :=
  hfsplusTailWriterComputeDataBlocks blockSize (hfspPartStart blockSize start) endBlock

structure BitmapExact (blockSize start endBlock : UInt32) : Prop where
  /-- The total reaches from the first superblock over the allocation file to the last one. -/
  covers : (tailOf blockSize start endBlock).hfspTotalBlocks.toNat +
    (hfspIsoBlockFac blockSize).toNat * start.toNat = (hfspIsoBlockFac blockSize).toNat *
      (endBlock.toNat + ((tailOf blockSize start endBlock).hfspAllocationBlocks.toNat +
        (hfspIsoBlockFac blockSize).toNat - 1) / (hfspIsoBlockFac blockSize).toNat + 1)
  offers : (tailOf blockSize start endBlock).hfspTotalBlocks.toNat ≤
    8 * blockSize.toNat * (tailOf blockSize start endBlock).hfspAllocationBlocks.toNat
  written : ∃ blocks, hfsplusTailWriterWriteData recording blockSize
      (tailOf blockSize start endBlock) [] = .ok blocks ∧
    blocks.length = (tailOf blockSize start endBlock).hfspAllocationBlocks.toNat ∧
    (∀ block ∈ blocks, block.length = blockSize.toNat) ∧
    ∀ n < 8 * blockSize.toNat * (tailOf blockSize start endBlock).hfspAllocationBlocks.toNat,
      bitAt blocks.flatten n =
        decide (n < (tailOf blockSize start endBlock).hfspTotalBlocks.toNat)

/-- The number of HFS+ blocks before the allocation file. -/
def dataBlocks (fac start endBlock : Nat) : Nat := fac * (endBlock - start)

/-- The size of the allocation file for `d` blocks before it. -/
def mapBlocks (blockSize d : Nat) : Nat := (d + 1) / (8 * blockSize - 1) + 1

/-- The size of the partition with `d` blocks before the allocation file. -/
def partBlocks (blockSize fac d : Nat) : Nat :=
  d + fac * ((mapBlocks blockSize d + fac - 1) / fac) + fac

/-- The conditions on the size of the partition. -/
structure Regular (blockSize fac d : Nat) : Prop where
  fits : partBlocks blockSize fac d + 7 < 2 ^ 32
  enough : blockSize = 512 → partBlocks blockSize fac d ≤ 8 * 512 * mapBlocks blockSize d
  lastByte : partBlocks blockSize fac d % 8 ≠ 0
  lastBlock : (partBlocks blockSize fac d - 1) / 8 % blockSize ≠ 0

section File

variable {σ : Type}

/-- The blocks which get written one after the other. -/
def fileBlocks (blockSize : UInt32) (tail : HfsTail) : List (List UInt8) :=
  let q := hfspAllocationSize tail.hfspTotalBlocks - 1
  let complete := q / blockSize
  let overBytes := (q % blockSize).toNat
  let remaining := tail.hfspAllocationBlocks - complete
  List.replicate complete.toNat (List.replicate blockSize.toNat 0xff) ++
    if overBytes ≠ 0 then
      (List.replicate overBytes 0xff ++ headOnes (tail.hfspTotalBlocks % 8).toNat ::
        List.replicate (blockSize.toNat - overBytes - 1) 0) ::
        List.replicate (remaining - 1).toNat (List.replicate blockSize.toNat 0)
    else List.replicate remaining.toNat (List.replicate blockSize.toNat 0)

theorem writeTimes_eq (out : Output σ) (n : Nat) (block : List UInt8) (s : σ) :
    writeTimes out n block s =
      (List.replicate n block).foldlM (fun s block => out.isoWrite block s) s := by
  induction n generalizing s with
  | zero => rfl
  | succ n ih =>
    rw [writeTimes, List.replicate_succ, List.foldlM_cons]
    exact bind_congr fun s' => ih s'

theorem slice_const (b : UInt8) (n : Nat) : slice (fun _ => b) 0 n = List.replicate n b := by
  rw [slice, List.map_const', List.length_range]

theorem slice_mixed {overBytes n : Nat} (m : UInt8) (hover : overBytes < n) (hn : n ≤ 2 * 2048) :
    slice (Function.update (copyInto (fun _ => 0xff) overBytes (2 * 2048 - overBytes) fun _ => 0) overBytes m)
      0 n = List.replicate overBytes 0xff ++ m :: List.replicate (n - overBytes - 1) 0 := by
  refine Holds.slice_of_length (fun i b hb => ?_) (by simp; omega)
  rw [Nat.zero_add]
  rcases Nat.lt_trichotomy i overBytes with hlt | rfl | hgt
  · rw [List.getElem?_append_left (by rwa [List.length_replicate]), List.getElem?_replicate,
      if_pos hlt] at hb
    rw [Function.update_of_ne hlt.ne, copyInto_outside (Or.inl hlt)]
    exact Option.some.inj hb
  · rw [List.getElem?_append_right (by rw [List.length_replicate]), List.length_replicate,
      Nat.sub_self] at hb
    rw [Function.update_self]
    exact Option.some.inj hb
  · obtain ⟨k, rfl⟩ : ∃ k, i = overBytes + (k + 1) := ⟨i - overBytes - 1, by omega⟩
    rw [List.getElem?_append_right (by rw [List.length_replicate]; omega), List.length_replicate,
      Nat.add_sub_cancel_left, List.getElem?_cons_succ, List.getElem?_replicate] at hb
    split at hb
    case isTrue hk =>
      rw [Function.update_of_ne (by omega), copyInto_inside (by omega)]
      exact Option.some.inj hb
    case isFalse => exact nomatch hb

variable {blockSize start endBlock : UInt32} {tail : HfsTail}

/-- The allocation file is written block by block. -/
theorem hfsplusTailWriterWriteData_eq (out : Output σ)
    (hsize : blockSize = 512 ∨ blockSize = 2048) (s : σ) :
    hfsplusTailWriterWriteData out blockSize tail s = (do
      let s ← (fileBlocks blockSize tail).foldlM (fun s block => out.isoWrite block s) s
      let s ← out.padUpBlock s
      out.writeSb s) := by
  have hpos : 0 < blockSize.toNat ∧ blockSize.toNat ≤ 2048 := by
    rcases hsize with rfl | rfl <;> decide
  have hover : ((hfspAllocationSize tail.hfspTotalBlocks - 1) % blockSize).toNat <
      blockSize.toNat := by
    rw [UInt32.toNat_mod]
    exact Nat.mod_lt _ hpos.1
  rw [hfsplusTailWriterWriteData, fileBlocks]
  simp only [writeTimes_eq, slice_const, slice_mixed _ hover (by omega), List.foldlM_append,
    bind_assoc]
  refine bind_congr fun s' => ?_
  split
  case isTrue => simp only [List.foldlM_cons, bind_assoc, pure_bind]
  case isFalse => simp only [pure_bind]

theorem foldlM_recording (blocks s : List (List UInt8)) :
    blocks.foldlM (fun s block => recording.isoWrite block s) s = .ok (s ++ blocks) := by
  induction blocks generalizing s with
  | nil =>
    rw [List.append_nil]
    rfl
  | cons block rest ih =>
    rw [List.foldlM_cons, List.append_cons]
    exact ih (s ++ [block])

/-- What the recording yields. -/
theorem written_eq (hsize : blockSize = 512 ∨ blockSize = 2048) :
    hfsplusTailWriterWriteData recording blockSize tail [] = .ok (fileBlocks blockSize tail) := by
  rw [hfsplusTailWriterWriteData_eq recording hsize, foldlM_recording]
  rfl

theorem length_of_mem_fileBlocks (hsize : blockSize = 512 ∨ blockSize = 2048) :
    ∀ block ∈ fileBlocks blockSize tail, block.length = blockSize.toNat := by
  have hpos : 0 < blockSize.toNat := by rcases hsize with rfl | rfl <;> decide
  have hover : ((hfspAllocationSize tail.hfspTotalBlocks - 1) % blockSize).toNat <
      blockSize.toNat := by
    rw [UInt32.toNat_mod]
    exact Nat.mod_lt _ hpos
  have hreplicate {n : Nat} {b : UInt8} {block : List UInt8}
      (h : block ∈ List.replicate n (List.replicate blockSize.toNat b)) :
      block.length = blockSize.toNat := by
    rw [List.eq_of_mem_replicate h, List.length_replicate]
  intro block hblock
  rw [fileBlocks] at hblock
  rcases List.mem_append.mp hblock with hones | hrest
  · exact hreplicate hones
  · split at hrest
    case isTrue =>
      rcases List.mem_cons.mp hrest with rfl | hzeros
      · rw [List.length_append, List.length_cons, List.length_replicate, List.length_replicate]
        omega
      · exact hreplicate hzeros
    case isFalse => exact hreplicate hrest

end File

section Contents

variable {blockSize : UInt32} {tail : HfsTail}

/-- The number of bytes before the one with the last used block. -/
def bytesBefore (tail : HfsTail) : Nat := (hfspAllocationSize tail.hfspTotalBlocks - 1).toNat

theorem bytesBefore_eq (hpos : 0 < tail.hfspTotalBlocks.toNat)
    (hfits : tail.hfspTotalBlocks.toNat + 7 < 2 ^ 32) :
    bytesBefore tail = (tail.hfspTotalBlocks.toNat - 1) / 8 := by
  have hsize : (hfspAllocationSize tail.hfspTotalBlocks).toNat =
      (tail.hfspTotalBlocks.toNat + 7) / 8 := by
    rw [hfspAllocationSize, UInt32.toNat_shiftRight, UInt32.toNat_add,
      show (7 : UInt32).toNat = 7 from rfl, Nat.mod_eq_of_lt hfits, Nat.shiftRight_eq_div_pow]
    rfl
  rw [bytesBefore, UInt32.toNat_sub, hsize, show (1 : UInt32).toNat = 1 from rfl]
  omega

/-- The addition in write_sb() wraps around. -/
theorem bytesBefore_wrapped (hwrap : 2 ^ 32 ≤ tail.hfspTotalBlocks.toNat + 7) :
    bytesBefore tail = 2 ^ 32 - 1 := by
  have hlt := tail.hfspTotalBlocks.toNat_lt
  have hsize : (hfspAllocationSize tail.hfspTotalBlocks).toNat = 0 := by
    rw [hfspAllocationSize, UInt32.toNat_shiftRight, UInt32.toNat_add,
      show (7 : UInt32).toNat = 7 from rfl, Nat.shiftRight_eq_div_pow]
    exact Nat.div_eq_of_lt (show _ < 2 ^ 3 by omega)
  rw [bytesBefore, UInt32.toNat_sub, hsize]
  rfl

theorem length_fileBlocks_iff :
    (fileBlocks blockSize tail).length = tail.hfspAllocationBlocks.toNat ↔
      bytesBefore tail / blockSize.toNat +
        (if bytesBefore tail % blockSize.toNat ≠ 0 then 1 else 0) ≤
          tail.hfspAllocationBlocks.toNat := by
  have hcomplete : ((hfspAllocationSize tail.hfspTotalBlocks - 1) / blockSize).toNat =
      bytesBefore tail / blockSize.toNat := UInt32.toNat_div _ _
  have hover : ((hfspAllocationSize tail.hfspTotalBlocks - 1) % blockSize).toNat =
      bytesBefore tail % blockSize.toNat := UInt32.toNat_mod _ _
  have hclt : bytesBefore tail / blockSize.toNat < 2 ^ 32 := hcomplete ▸ UInt32.toNat_lt _
  have halt := tail.hfspAllocationBlocks.toNat_lt
  rw [fileBlocks]
  rw [hover, hcomplete]
  split
  all_goals
    simp only [List.length_append, List.length_cons, List.length_replicate, UInt32.toNat_sub,
      hcomplete, show (1 : UInt32).toNat = 1 from rfl]
    omega

/-- A block of the file is partly used. -/
theorem flatten_fileBlocks_mixed (hover : bytesBefore tail % blockSize.toNat ≠ 0) :
    ∃ k, (fileBlocks blockSize tail).flatten = List.replicate (bytesBefore tail) 0xff ++
      headOnes (tail.hfspTotalBlocks.toNat % 8) :: List.replicate k 0 := by
  have hcomplete : ((hfspAllocationSize tail.hfspTotalBlocks - 1) / blockSize).toNat =
      bytesBefore tail / blockSize.toNat := UInt32.toNat_div _ _
  have hmod : ((hfspAllocationSize tail.hfspTotalBlocks - 1) % blockSize).toNat =
      bytesBefore tail % blockSize.toNat := UInt32.toNat_mod _ _
  have hbit : (tail.hfspTotalBlocks % 8).toNat = tail.hfspTotalBlocks.toNat % 8 :=
    UInt32.toNat_mod _ _
  have hsum : bytesBefore tail / blockSize.toNat * blockSize.toNat +
      bytesBefore tail % blockSize.toNat = bytesBefore tail := by
    rw [Nat.mul_comm, Nat.div_add_mod]
  rw [fileBlocks]
  rw [hmod, hcomplete, hbit, if_pos hover, List.flatten_append, List.flatten_cons,
    List.flatten_replicate_replicate, List.flatten_replicate_replicate, List.append_assoc,
    List.cons_append, ← List.append_assoc, ← List.replicate_add, hsum, ← List.replicate_add]
  exact ⟨_, rfl⟩

/-- No block is partly used. -/
theorem flatten_fileBlocks_whole (hover : bytesBefore tail % blockSize.toNat = 0) :
    ∃ k, (fileBlocks blockSize tail).flatten = List.replicate (bytesBefore tail) 0xff ++
      List.replicate k 0 := by
  have hcomplete : ((hfspAllocationSize tail.hfspTotalBlocks - 1) / blockSize).toNat =
      bytesBefore tail / blockSize.toNat := UInt32.toNat_div _ _
  have hmod : ((hfspAllocationSize tail.hfspTotalBlocks - 1) % blockSize).toNat =
      bytesBefore tail % blockSize.toNat := UInt32.toNat_mod _ _
  rw [fileBlocks]
  rw [hmod, hcomplete, if_neg (not_not.mpr hover), List.flatten_append,
    List.flatten_replicate_replicate, List.flatten_replicate_replicate,
    Nat.div_mul_cancel (Nat.dvd_of_mod_eq_zero hover)]
  exact ⟨_, rfl⟩

/-- The bit of the last used block is missing. -/
theorem last_bit_missing (hpos : 0 < tail.hfspTotalBlocks.toNat)
    (hfits : tail.hfspTotalBlocks.toNat + 7 < 2 ^ 32)
    (hborder : tail.hfspTotalBlocks.toNat % 8 = 0 ∨
      (tail.hfspTotalBlocks.toNat - 1) / 8 % blockSize.toNat = 0) :
    bitAt (fileBlocks blockSize tail).flatten (tail.hfspTotalBlocks.toNat - 1) = false := by
  have hbefore := bytesBefore_eq hpos hfits
  by_cases hover : bytesBefore tail % blockSize.toNat = 0
  · obtain ⟨k, hflat⟩ := flatten_fileBlocks_whole hover
    rw [hflat, bitAt_ones_zeros, hbefore]
    exact decide_eq_false (by omega)
  · obtain ⟨k, hflat⟩ := flatten_fileBlocks_mixed hover
    have hzero : headOnes 0 = 0 := rfl
    have hmod : tail.hfspTotalBlocks.toNat % 8 = 0 := by
      rcases hborder with hmod | hwhole
      · exact hmod
      · exact absurd (hbefore ▸ hwhole) hover
    rw [hflat, hmod, hzero, ← List.replicate_succ, bitAt_ones_zeros, hbefore]
    exact decide_eq_false (by omega)

/-- Otherwise the bits are right. -/
theorem bits_right (hpos : 0 < tail.hfspTotalBlocks.toNat)
    (hfits : tail.hfspTotalBlocks.toNat + 7 < 2 ^ 32)
    (hbyte : tail.hfspTotalBlocks.toNat % 8 ≠ 0)
    (hblock : (tail.hfspTotalBlocks.toNat - 1) / 8 % blockSize.toNat ≠ 0) (n : Nat) :
    bitAt (fileBlocks blockSize tail).flatten n = decide (n < tail.hfspTotalBlocks.toNat) := by
  have hbefore := bytesBefore_eq hpos hfits
  obtain ⟨k, hflat⟩ := @flatten_fileBlocks_mixed blockSize tail (by rwa [hbefore])
  rw [hflat, bitAt_bitmap (Nat.mod_lt _ (by decide)) hbyte, hbefore]
  exact decide_eq_decide.mpr (by omega)

end Contents

section Numbers

variable {blockSize start endBlock : UInt32}

theorem toNat_difference (fac : UInt32) (hle : start ≤ endBlock) :
    (endBlock * fac - start * fac).toNat =
      dataBlocks fac.toNat start.toNat endBlock.toNat % 2 ^ 32 := by
  rw [← UInt32.sub_mul, UInt32.toNat_mul, UInt32.toNat_sub_of_le _ _ hle, dataBlocks,
    Nat.mul_comm]

/-- The end of the allocation file is rounded up to full blocks of the image. -/
theorem toNat_roundedUp {fac x : UInt32} (hfac : fac = 4 ∨ fac = 1)
    (hx : x.toNat % fac.toNat = 0) (a : UInt32) :
    ((if (x + a) % fac ≠ 0 then (x + a) / fac + 1 else (x + a) / fac) * fac).toNat =
      (x.toNat + fac.toNat * ((a.toNat + fac.toNat - 1) / fac.toNat)) % 2 ^ 32 := by
  have ha := a.toNat_lt
  have hxlt := x.toNat_lt
  have hrest : (x + a) % fac ≠ 0 ↔ (x.toNat + a.toNat) % 2 ^ 32 % fac.toNat ≠ 0 := by
    rw [Ne, ← UInt32.toNat_inj, UInt32.toNat_mod, UInt32.toNat_add]
    rfl
  rw [apply_ite (fun c : UInt32 => (c * fac).toNat)]
  simp only [hrest, UInt32.toNat_mul, UInt32.toNat_add, UInt32.toNat_div,
    show (1 : UInt32).toNat = 1 from rfl]
  rcases hfac with rfl | rfl
  · rw [show (4 : UInt32).toNat = 4 from rfl] at hx ⊢
    split <;> omega
  · rw [show (1 : UInt32).toNat = 1 from rfl] at hx ⊢
    split <;> omega

/-- The two numbers of the tail without their local variables. -/
theorem tail_eq (blockSize start endBlock : UInt32) :
    let fac := hfspIsoBlockFac blockSize
    let x := endBlock * fac
    let a := (x - start * fac + 1) / (8 * blockSize - 1) + 1
    (tailOf blockSize start endBlock).hfspAllocationBlocks = a ∧
      (tailOf blockSize start endBlock).hfspTotalBlocks =
        (if (x + a) % fac ≠ 0 then (x + a) / fac + 1 else (x + a) / fac) * fac + fac -
          start * fac :=
  ⟨rfl, rfl⟩

/-- A block size together with its factor. -/
theorem fac_cases (hsize : blockSize = 512 ∨ blockSize = 2048) :
    (blockSize = 512 ∧ hfspIsoBlockFac blockSize = 4) ∨
      (blockSize = 2048 ∧ hfspIsoBlockFac blockSize = 1) := by
  rcases hsize with rfl | rfl
  · exact Or.inl ⟨rfl, rfl⟩
  · exact Or.inr ⟨rfl, rfl⟩

theorem allocationBlocks_eq (hsize : blockSize = 512 ∨ blockSize = 2048)
    (hle : start ≤ endBlock) :
    (tailOf blockSize start endBlock).hfspAllocationBlocks.toNat =
      (dataBlocks (hfspIsoBlockFac blockSize).toNat start.toNat endBlock.toNat + 1) % 2 ^ 32 /
        (8 * blockSize.toNat - 1) + 1 := by
  have hbits : (8 * blockSize - 1).toNat = 8 * blockSize.toNat - 1 ∧
      4095 ≤ 8 * blockSize.toNat - 1 := by
    rcases hsize with rfl | rfl <;> decide
  rw [(tail_eq blockSize start endBlock).1, UInt32.toNat_add, UInt32.toNat_div,
    UInt32.toNat_add, toNat_difference _ hle, hbits.1, show (1 : UInt32).toNat = 1 from rfl,
    Nat.mod_add_mod]
  refine Nat.mod_eq_of_lt ?_
  have hlt : (dataBlocks (hfspIsoBlockFac blockSize).toNat start.toNat endBlock.toNat + 1) %
      2 ^ 32 / (8 * blockSize.toNat - 1) ≤ _ / 4095 := Nat.div_le_div_left hbits.2 (by decide)
  omega

theorem totalBlocks_eq (hsize : blockSize = 512 ∨ blockSize = 2048) (hle : start ≤ endBlock) :
    (tailOf blockSize start endBlock).hfspTotalBlocks.toNat =
      (dataBlocks (hfspIsoBlockFac blockSize).toNat start.toNat endBlock.toNat +
        (hfspIsoBlockFac blockSize).toNat *
          (((tailOf blockSize start endBlock).hfspAllocationBlocks.toNat +
            (hfspIsoBlockFac blockSize).toNat - 1) / (hfspIsoBlockFac blockSize).toNat) +
        (hfspIsoBlockFac blockSize).toNat) % 2 ^ 32 := by
  have hfac : hfspIsoBlockFac blockSize = 4 ∨ hfspIsoBlockFac blockSize = 1 :=
    (fac_cases hsize).imp And.right And.right
  obtain ⟨halloc, htotal⟩ := tail_eq blockSize start endBlock
  generalize hfspIsoBlockFac blockSize = fac at *
  have hx : (endBlock * fac).toNat % fac.toNat = 0 := by
    rw [UInt32.toNat_mul]
    rcases hfac with rfl | rfl
    · rw [show (4 : UInt32).toNat = 4 from rfl]
      omega
    · exact Nat.mod_one _
  have hround := toNat_roundedUp hfac hx (tailOf blockSize start endBlock).hfspAllocationBlocks
  have hdiff := toNat_difference fac hle
  rw [← halloc] at htotal
  rw [UInt32.toNat_sub] at hdiff
  rw [htotal, UInt32.toNat_sub, UInt32.toNat_add, hround]
  have hlt := (start * fac).toNat_lt
  omega

end Numbers

section Main

variable {blockSize start endBlock : UInt32}

/-- The factor as a number. -/
theorem toNat_fac (blockSize : UInt32) :
    (hfspIsoBlockFac blockSize).toNat = 2048 / blockSize.toNat := UInt32.toNat_div _ _

/-- If the total does not wrap around, then the numbers are the intended ones. -/
theorem numbers_of_total (hsize : blockSize = 512 ∨ blockSize = 2048) (hle : start ≤ endBlock)
    (hsmall : dataBlocks (2048 / blockSize.toNat) start.toNat endBlock.toNat + 1 < 2 ^ 32) :
    (tailOf blockSize start endBlock).hfspAllocationBlocks.toNat = mapBlocks blockSize.toNat
        (dataBlocks (2048 / blockSize.toNat) start.toNat endBlock.toNat) ∧
      (tailOf blockSize start endBlock).hfspTotalBlocks.toNat =
        partBlocks blockSize.toNat (2048 / blockSize.toNat)
          (dataBlocks (2048 / blockSize.toNat) start.toNat endBlock.toNat) % 2 ^ 32 := by
  have halloc := allocationBlocks_eq hsize hle
  have htotal := totalBlocks_eq hsize hle
  rw [toNat_fac] at halloc htotal
  rw [Nat.mod_eq_of_lt hsmall] at halloc
  exact ⟨halloc, by rw [htotal, halloc, partBlocks, mapBlocks]⟩

/-- The blocks from the start of the partition to the tail. -/
theorem dataBlocks_add {fac s e : Nat} (hle : s ≤ e) : dataBlocks fac s e + fac * s = fac * e := by
  rw [dataBlocks, ← Nat.mul_add, Nat.sub_add_cancel hle]

/-- The total is not smaller than the number of blocks before the allocation file. -/
theorem dataBlocks_lt_partBlocks {blockSize fac d : Nat} (hfac : 0 < fac) :
    d + 1 < partBlocks blockSize fac d := by
  have hmap : 0 < mapBlocks blockSize d := Nat.succ_pos _
  have hceil : fac ≤ fac * ((mapBlocks blockSize d + fac - 1) / fac) :=
    Nat.le_mul_of_pos_right _ (Nat.div_pos (by omega) hfac)
  rw [partBlocks]
  omega

theorem numbers_of_covers (hsize : blockSize = 512 ∨ blockSize = 2048) (hle : start ≤ endBlock)
    (h : BitmapExact blockSize start endBlock) :
    (tailOf blockSize start endBlock).hfspAllocationBlocks.toNat = mapBlocks blockSize.toNat
        (dataBlocks (2048 / blockSize.toNat) start.toNat endBlock.toNat) ∧
      (tailOf blockSize start endBlock).hfspTotalBlocks.toNat =
        partBlocks blockSize.toNat (2048 / blockSize.toNat)
          (dataBlocks (2048 / blockSize.toNat) start.toNat endBlock.toNat) := by
  have hle' := UInt32.le_iff_toNat_le.mp hle
  have hcovers := h.covers
  have hfac : 0 < 2048 / blockSize.toNat := by rcases hsize with rfl | rfl <;> decide
  have hlt := (tailOf blockSize start endBlock).hfspTotalBlocks.toNat_lt
  have hpos : 0 < (tailOf blockSize start endBlock).hfspAllocationBlocks.toNat := by
    rw [allocationBlocks_eq hsize hle]
    exact Nat.succ_pos _
  rw [toNat_fac, Nat.mul_add, Nat.mul_add, ← dataBlocks_add hle', Nat.mul_one] at hcovers
  have hsmall : dataBlocks (2048 / blockSize.toNat) start.toNat endBlock.toNat + 1 < 2 ^ 32 := by
    omega
  obtain ⟨halloc, htotal⟩ := numbers_of_total hsize hle hsmall
  refine ⟨halloc, ?_⟩
  rw [halloc] at hcovers
  rw [partBlocks]
  omega

/-- A total which wraps around in write_sb() lets too many blocks be written. -/
theorem fits_of_length (hsize : blockSize = 512 ∨ blockSize = 2048) {tail : HfsTail} {d : Nat}
    (halloc : tail.hfspAllocationBlocks.toNat = mapBlocks blockSize.toNat d)
    (hd : d + 1 < 2 ^ 32)
    (hlen : (fileBlocks blockSize tail).length = tail.hfspAllocationBlocks.toNat) :
    tail.hfspTotalBlocks.toNat + 7 < 2 ^ 32 := by
  by_contra hwrap
  have hcount := length_fileBlocks_iff.mp hlen
  rw [bytesBefore_wrapped (Nat.le_of_not_lt hwrap), halloc, mapBlocks] at hcount
  rcases hsize with rfl | rfl
  · rw [show (512 : UInt32).toNat = 512 from rfl] at hcount
    omega
  · rw [show (2048 : UInt32).toNat = 2048 from rfl] at hcount
    omega

theorem BitmapExact.regular (hsize : blockSize = 512 ∨ blockSize = 2048)
    (hle : start ≤ endBlock) (h : BitmapExact blockSize start endBlock) :
    Regular blockSize.toNat (2048 / blockSize.toNat)
      (dataBlocks (2048 / blockSize.toNat) start.toNat endBlock.toNat) := by
  obtain ⟨halloc, htotal⟩ := numbers_of_covers hsize hle h
  have hfac : 0 < 2048 / blockSize.toNat := by rcases hsize with rfl | rfl <;> decide
  have hless : _ < partBlocks blockSize.toNat _
    (dataBlocks (2048 / blockSize.toNat) start.toNat endBlock.toNat) :=
    dataBlocks_lt_partBlocks hfac
  have hlt := (tailOf blockSize start endBlock).hfspTotalBlocks.toNat_lt
  have hoffers := h.offers
  obtain ⟨blocks, hwritten, hlen, -, hbits⟩ := h.written
  obtain rfl := Except.ok.inj ((written_eq hsize).symm.trans hwritten)
  have hfits := fits_of_length hsize halloc (by omega) hlen
  have hlast : ¬ ((tailOf blockSize start endBlock).hfspTotalBlocks.toNat % 8 = 0 ∨
      ((tailOf blockSize start endBlock).hfspTotalBlocks.toNat - 1) / 8 % blockSize.toNat = 0) := by
    intro hborder
    have hmissing := last_bit_missing (by omega) hfits hborder
    rw [hbits _ (by omega)] at hmissing
    exact of_decide_eq_false hmissing (by omega)
  rw [htotal] at hfits hlast hoffers
  rw [halloc] at hoffers
  obtain ⟨hbyte, hblock⟩ := not_or.mp hlast
  exact ⟨hfits, fun h512 => by rwa [h512] at hoffers ⊢, hbyte, hblock⟩

/-- With blocks of 2048 bytes the size of the allocation file is always sufficient. -/
theorem enough_2048 (d : Nat) : partBlocks 2048 1 d ≤ 8 * 2048 * mapBlocks 2048 d := by
  rw [partBlocks, mapBlocks]
  omega

theorem Regular.exact (hsize : blockSize = 512 ∨ blockSize = 2048) (hle : start ≤ endBlock)
    (h : Regular blockSize.toNat (2048 / blockSize.toNat)
      (dataBlocks (2048 / blockSize.toNat) start.toNat endBlock.toNat)) :
    BitmapExact blockSize start endBlock := by
  have hle' := UInt32.le_iff_toNat_le.mp hle
  have hfac : 0 < 2048 / blockSize.toNat := by rcases hsize with rfl | rfl <;> decide
  have hsizepos : 0 < blockSize.toNat := by rcases hsize with rfl | rfl <;> decide
  have hless : _ < partBlocks blockSize.toNat _
    (dataBlocks (2048 / blockSize.toNat) start.toNat endBlock.toNat) :=
    dataBlocks_lt_partBlocks hfac
  have hfits := h.fits
  obtain ⟨halloc, htotal⟩ := numbers_of_total hsize hle (by omega)
  rw [Nat.mod_eq_of_lt (by omega)] at htotal
  have hoffers : (tailOf blockSize start endBlock).hfspTotalBlocks.toNat ≤
      8 * blockSize.toNat * (tailOf blockSize start endBlock).hfspAllocationBlocks.toNat := by
    rw [htotal, halloc]
    rcases hsize with rfl | rfl
    · exact h.enough rfl
    · exact enough_2048 _
  have hbyte := h.lastByte
  have hblock := h.lastBlock
  rw [← htotal] at hbyte hblock hfits hless
  refine ⟨?_, hoffers, _, written_eq hsize, ?_, length_of_mem_fileBlocks hsize, fun n _ =>
    bits_right (by omega) hfits hbyte hblock n⟩
  · rw [toNat_fac, Nat.mul_add, Nat.mul_add, ← dataBlocks_add hle', Nat.mul_one, htotal, halloc,
      partBlocks]
    omega
  · have hbefore := @bytesBefore_eq (tailOf blockSize start endBlock) (by omega) hfits
    have hq : bytesBefore (tailOf blockSize start endBlock) / blockSize.toNat <
        (tailOf blockSize start endBlock).hfspAllocationBlocks.toNat := by
      refine Nat.div_lt_of_lt_mul ?_
      rw [hbefore]
      rw [Nat.mul_assoc] at hoffers
      omega
    rw [length_fileBlocks_iff]
    split <;> omega

/-- The bitmap is exact if and only if the size of the partition avoids the borders. -/
theorem bitmapExact_iff (blockSize start endBlock : UInt32)
    (hsize : blockSize = 512 ∨ blockSize = 2048) (hle : start ≤ endBlock) :
    BitmapExact blockSize start endBlock ↔
      Regular blockSize.toNat (2048 / blockSize.toNat)
        (dataBlocks (2048 / blockSize.toNat) start.toNat endBlock.toNat) :=
  ⟨fun h => h.regular hsize hle, fun h => h.exact hsize hle⟩

theorem small_partition_exact : BitmapExact 2048 100 200 ↔ Regular 2048 1 100 :=
  bitmapExact_iff 2048 100 200 (Or.inr rfl) (by decide)

/-- 16 blocks in total: the byte for the last 8 of them is written as zero. -/
theorem sixteen_blocks_not_exact :
    ¬ ∀ blockSize start endBlock : UInt32, blockSize = 512 ∨ blockSize = 2048 →
      start ≤ endBlock → BitmapExact blockSize start endBlock := by
  intro h
  have hle : (100 : UInt32) ≤ 114 := by decide
  have hregular := (h 2048 100 114 (Or.inr rfl) hle).regular (Or.inr rfl) hle
  exact hregular.lastByte rfl

end Main

end HfsBitmap
