import Libisofs.Lib.Bytes

/-!
# The boot info table

make_boot_info_table() patches addresses, the size, and a checksum into a boot image. When an
image gets imported, the same function is applied to a copy of each boot image, in order to find
out whether this changes the table.
-/

namespace BootInfoTable

open ByteBuffers

def isoSuccess : Int := 1
def isoIsolinuxCantPatch : Int := 0xE030FEB9 - 2 ^ 32
def isoWrongPvd : Int := 0xE830FEC0 - 2 ^ 32

def isoReadLsb (buf : Buffer) (pos bytes : Nat) : UInt32 :=
  UInt32.ofNat (ofLsb (slice buf pos bytes))

section Writer

/-- `reads` are the positions and sizes of what has been read from the buffer. -/
structure Summation where
  offset : UInt32
  checksum : UInt32
  reads : List (Nat × Nat)

/-- The loop over the whole words. The result is `none` if it has not ended after `turns` turns. -/
def sumWords (buf : Buffer) (imgsize : UInt32) : (turns : Nat) → Summation → Option Summation
  | 0, _ => none
  | turns + 1, s =>
    if s.offset ≤ imgsize - 4 then
      sumWords buf imgsize turns
        ⟨s.offset + 4, s.checksum + isoReadLsb buf s.offset.toNat 4,
          s.reads ++ [(s.offset.toNat, 4)]⟩
    else some s

/-- The rest of less than 4 bytes. -/
def sumRest (buf : Buffer) (imgsize : UInt32) (s : Summation) : Summation :=
  if s.offset ≠ imgsize then
    let rest := (imgsize - s.offset).toNat
    { s with
      checksum := s.checksum + isoReadLsb buf s.offset.toNat rest
      reads := s.reads ++ [(s.offset.toNat, rest)] }
  else s

structure Outcome where
  ret : Int
  buf : Buffer
  reads : List (Nat × Nat)

/-- The four numbers of the table. -/
def tableBytes (pvdLba bootLba imgsize checksum : UInt32) : List UInt8 :=
  toLsb 4 pvdLba.toNat ++ toLsb 4 bootLba.toNat ++ toLsb 4 imgsize.toNat ++
    toLsb 4 checksum.toNat

def makeBootInfoTable (buf : Buffer) (pvdLba bootLba imgsize : UInt32) : Option Outcome :=
  if imgsize < 64 then some ⟨isoIsolinuxCantPatch, buf, []⟩
  else
    (sumWords buf imgsize imgsize.toNat ⟨64, 0, []⟩).map fun s =>
      let s := sumRest buf imgsize s
      let patched := patch buf 8 (tableBytes pvdLba bootLba imgsize s.checksum)
      ⟨isoSuccess, patch patched 24 (List.replicate 40 0), s.reads⟩

end Writer

section Import

/-- What is known about the imported image. `block` is the start of the session. -/
structure ImportedImage where
  readBlock : UInt32 → Except Int Buffer
  block : UInt32
  isoImageSize : UInt32

/-- The size which is told by the volume descriptor. -/
def readPvdBlock (image : ImportedImage) (block : UInt32) : Except Int UInt32 :=
  match image.readBlock block with
  | .error ret => .error ret
  | .ok pvm =>
    if pvm 0 ≠ 1 ∨ pvm 6 ≠ 1 ∨ slice pvm 1 5 ≠ [0x43, 0x44, 0x30, 0x30, 0x31] ∨ pvm 881 ≠ 1 then
      .error isoWrongPvd
    else .ok (isoReadLsb pvm 80 4)

/-- The address for the table, by regard to a superblock which might have been relocated. -/
def tablePvd (image : ImportedImage) (bootPvdFound : UInt32) : UInt32 :=
  let imagePvd := image.block + 16
  if imagePvd ≠ bootPvdFound ∧ imagePvd = 16 ∧ bootPvdFound < image.isoImageSize then
    match readPvdBlock image bootPvdFound with
    | .error _ => imagePvd
    | .ok allegedSize =>
      if allegedSize + bootPvdFound = image.isoImageSize + imagePvd then bootPvdFound
      else imagePvd
  else imagePvd

/-- A boot image file: its size, the block of its first section in the imported image, and what
comes from opening and reading its stream. -/
structure BootFile where
  size : Nat
  oldBlock : Option UInt32
  content : Except Int Buffer

structure Seems where
  bootInfoTable : Bool
  grub2BootInfo : Bool
  isohybridCapable : Bool

def seemsNothing : Seems := ⟨false, false, false⟩

def bootImageMaxSize : UInt32 := 4096 * 1024

/-- The number in 8 bytes which GRUB2 expects. -/
def grub2PatchPos : Nat := 512 * 5 - 12

def grub2PatchOffset : UInt32 := 5

/-- The body of the loop over the boot images. -/
def isoImageEvalBootInfoTable (image : ImportedImage) (file : BootFile) :
    Option (Except Int Seems) :=
  let imgSize := UInt32.ofNat file.size
  let imgLba := file.oldBlock.getD 0
  if bootImageMaxSize < imgSize ∨ imgSize < 64 then some (.ok seemsNothing)
  else if imgLba = 0 then some (.ok seemsNothing)
  else
    match file.content with
    | .error ret => some (.error ret)
    | .ok buf =>
      let bootInfoFound := slice buf 8 16
      let imagePvd := tablePvd image (isoReadLsb buf 8 4)
      (makeBootInfoTable buf imagePvd imgLba imgSize).map fun out =>
        if out.ret < 0 then .error out.ret
        else
          let bootInfoTable := slice out.buf 8 16 = bootInfoFound
          .ok {
            bootInfoTable := bootInfoTable
            grub2BootInfo := grub2PatchPos + 8 ≤ imgSize.toNat ∧
              ofLsb (slice out.buf grub2PatchPos 8) = (imgLba * 4 + grub2PatchOffset).toNat
            isohybridCapable := 68 ≤ imgSize ∧ bootInfoTable ∧
              slice out.buf 64 4 = [0xfb, 0xc0, 0x78, 0x70] }

end Import

section Spec

/-- The image with zeros behind its end. -/
def padded (buf : Buffer) (size : Nat) : Buffer := fun i => if i < size then buf i else 0

/-- The sum of the words from byte 64 on, the last one padded by zeros. -/
def bootChecksum (buf : Buffer) (size : Nat) : Nat :=
  ((List.range ((size - 64 + 3) / 4)).map fun k =>
    ofLsb (slice (padded buf size) (64 + 4 * k) 4)).sum % 2 ^ 32

/-- The table which belongs to the image. -/
def properTable (buf : Buffer) (pvdLba bootLba imgsize : UInt32) : List UInt8 :=
  tableBytes pvdLba bootLba imgsize (UInt32.ofNat (bootChecksum buf imgsize.toNat))

/-- The outcome of patching. -/
structure Patched (buf : Buffer) (pvdLba bootLba imgsize : UInt32) (out : Outcome) : Prop where
  ret : out.ret = isoSuccess
  untouched : ∀ i, i < 8 ∨ 64 ≤ i → out.buf i = buf i
  table : slice out.buf 8 16 = properTable buf pvdLba bootLba imgsize
  reserved : slice out.buf 24 40 = List.replicate 40 0
  inside : ∀ r ∈ out.reads, r.1 + r.2 ≤ imgsize.toNat

/-- The image gets patched properly. When it gets imported with the same addresses, its table is
recognised. Without patching it is recognised only if it has this table anyway. -/
structure Recognised (buf : Buffer) (pvdLba bootLba imgsize : UInt32) : Prop where
  patched : ∃ out, makeBootInfoTable buf pvdLba bootLba imgsize = some out ∧
    Patched buf pvdLba bootLba imgsize out
  marked : ∀ out, makeBootInfoTable buf pvdLba bootLba imgsize = some out →
    ∀ image, tablePvd image pvdLba = pvdLba →
      ∃ seems, isoImageEvalBootInfoTable image ⟨imgsize.toNat, some bootLba, .ok out.buf⟩ =
        some (.ok seems) ∧ seems.bootInfoTable = true
  unpatched : ∀ image seems,
    isoImageEvalBootInfoTable image ⟨imgsize.toNat, some bootLba, .ok buf⟩ = some (.ok seems) →
      seems.bootInfoTable = true →
        slice buf 8 16 = properTable buf (tablePvd image (isoReadLsb buf 8 4)) bootLba imgsize

end Spec

section Checksum

variable {buf : Buffer} {imgsize : UInt32} {size : Nat}

theorem ofLsb_append_zeros (bytes : List UInt8) (n : Nat) :
    ofLsb (bytes ++ List.replicate n 0) = ofLsb bytes := by
  induction bytes with
  | nil =>
    induction n with
    | zero => rfl
    | succ n ih =>
      rw [List.nil_append] at ih ⊢
      show (0 : UInt8).toNat + 256 * ofLsb (List.replicate n 0) = 0
      rw [ih]
      rfl
  | cons b rest ih => rw [List.cons_append, ofLsb, ofLsb, ih]

/-- A word inside of the image is what gets read. -/
theorem slice_padded {pos n : Nat} (h : pos + n ≤ size) :
    slice (padded buf size) pos n = slice buf pos n :=
  slice_congr fun i hi => by rw [padded, if_pos (by omega)]

/-- The last word is the rest of the image and zeros. -/
theorem ofLsb_lastWord {pos rest : Nat} (hend : pos + rest = size) (hrest : rest ≤ 4) :
    ofLsb (slice (padded buf size) pos 4) = ofLsb (slice buf pos rest) := by
  have hzeros : slice (padded buf size) (pos + rest) (4 - rest) = List.replicate (4 - rest) 0 := by
    refine List.ext_getElem (by simp) fun i hi _ => ?_
    simp only [slice, List.getElem_map, List.getElem_range, List.getElem_replicate]
    rw [padded, if_neg (by omega)]
  have hsplit := slice_append (padded buf size) pos rest (4 - rest)
  rw [show rest + (4 - rest) = 4 by omega, hzeros, slice_padded (Nat.le_of_eq hend)] at hsplit
  rw [← hsplit, ofLsb_append_zeros]

/-- The sum of the first `k` words. -/
def wordSum (buf : Buffer) (size k : Nat) : Nat :=
  ((List.range k).map fun j => ofLsb (slice (padded buf size) (64 + 4 * j) 4)).sum

theorem wordSum_succ (buf : Buffer) (size k : Nat) : wordSum buf size (k + 1) =
    wordSum buf size k + ofLsb (slice (padded buf size) (64 + 4 * k) 4) := by
  rw [wordSum, List.range_succ, List.map_append, List.sum_append, List.map_singleton,
    List.sum_singleton, wordSum]

/-- After `k` words. -/
structure Summed (buf : Buffer) (imgsize : UInt32) (k : Nat) (s : Summation) : Prop where
  offset : s.offset.toNat = 64 + 4 * k
  checksum : s.checksum = UInt32.ofNat (wordSum buf imgsize.toNat k)
  inside : ∀ r ∈ s.reads, r.1 + r.2 ≤ imgsize.toNat

theorem toNat_sub_four (hsize : 64 ≤ imgsize.toNat) : (imgsize - 4).toNat = imgsize.toNat - 4 :=
  UInt32.toNat_sub_of_le _ _ (UInt32.le_iff_toNat_le.mpr (Nat.le_trans (by decide) hsize))

theorem sumWords_summed {turns k : Nat} {s : Summation} (hsize : 64 ≤ imgsize.toNat)
    (hk : k ≤ (imgsize.toNat - 64) / 4) (hturns : (imgsize.toNat - 64) / 4 - k < turns)
    (h : Summed buf imgsize k s) :
    ∃ s', sumWords buf imgsize turns s = some s' ∧
      Summed buf imgsize ((imgsize.toNat - 64) / 4) s' := by
  have hlt := imgsize.toNat_lt
  induction turns generalizing k s with
  | zero => omega
  | succ turns ih =>
    have hcond : s.offset ≤ imgsize - 4 ↔ k < (imgsize.toNat - 64) / 4 := by
      rw [UInt32.le_iff_toNat_le, toNat_sub_four hsize, h.offset]
      omega
    rw [sumWords]
    by_cases hmore : k < (imgsize.toNat - 64) / 4
    · rw [if_pos (hcond.mpr hmore)]
      have hfour : (4 : UInt32).toNat = 4 := rfl
      refine @ih (k + 1) _ hmore (by omega) ?_
      constructor
      case offset =>
        rw [UInt32.toNat_add, h.offset, hfour, Nat.mod_eq_of_lt (by omega)]
        omega
      case checksum =>
        rw [h.checksum, isoReadLsb, h.offset, wordSum_succ, slice_padded (by omega),
          UInt32.ofNat_add]
      case inside =>
        intro r hr
        rcases List.mem_append.mp hr with hr | hr
        · exact h.inside r hr
        · rw [List.mem_singleton.mp hr, h.offset]
          show 64 + 4 * k + 4 ≤ imgsize.toNat
          omega
    · rw [if_neg (hcond.not.mpr hmore)]
      obtain rfl : k = (imgsize.toNat - 64) / 4 := by omega
      exact ⟨s, rfl, h⟩

theorem sumRest_checksum {s : Summation} (hsize : 64 ≤ imgsize.toNat)
    (h : Summed buf imgsize ((imgsize.toNat - 64) / 4) s) :
    (sumRest buf imgsize s).checksum = UInt32.ofNat (bootChecksum buf imgsize.toNat) ∧
      ∀ r ∈ (sumRest buf imgsize s).reads, r.1 + r.2 ≤ imgsize.toNat := by
  have hlt := imgsize.toNat_lt
  have hmod (n : Nat) : UInt32.ofNat (n % 2 ^ 32) = UInt32.ofNat n := by
    rw [← UInt32.toNat_inj, UInt32.toNat_ofNat', UInt32.toNat_ofNat', Nat.mod_mod]
  have hall : bootChecksum buf imgsize.toNat =
      wordSum buf imgsize.toNat ((imgsize.toNat - 64 + 3) / 4) % 2 ^ 32 := rfl
  rw [hall, hmod, sumRest]
  generalize hwords : (imgsize.toNat - 64) / 4 = words at h ⊢
  have hcond : s.offset ≠ imgsize ↔ 64 + 4 * words ≠ imgsize.toNat := by
    rw [← h.offset]
    exact not_congr UInt32.toNat_inj.symm
  by_cases hrest : 64 + 4 * words = imgsize.toNat
  · rw [if_neg (hcond.not.mpr (not_not.mpr hrest)),
      show (imgsize.toNat - 64 + 3) / 4 = words by omega]
    exact ⟨h.checksum, h.inside⟩
  · rw [if_pos (hcond.mpr hrest), show (imgsize.toNat - 64 + 3) / 4 = words + 1 by omega,
      wordSum_succ]
    have hle : s.offset ≤ imgsize := UInt32.le_iff_toNat_le.mpr (by rw [h.offset]; omega)
    have hsub : (imgsize - s.offset).toNat = imgsize.toNat - (64 + 4 * words) := by
      rw [UInt32.toNat_sub_of_le _ _ hle, h.offset]
    have hlast := @ofLsb_lastWord buf imgsize.toNat (64 + 4 * words)
      (imgsize.toNat - (64 + 4 * words)) (by omega) (by omega)
    constructor
    · show s.checksum + isoReadLsb buf s.offset.toNat (imgsize - s.offset).toNat = _
      rw [h.checksum, isoReadLsb, h.offset, hsub, hlast, UInt32.ofNat_add]
    · intro r hr
      rcases List.mem_append.mp hr with hr | hr
      · exact h.inside r hr
      · rw [List.mem_singleton.mp hr]
        show s.offset.toNat + (imgsize - s.offset).toNat ≤ imgsize.toNat
        rw [h.offset, hsub]
        omega

end Checksum

section Table

variable {buf : Buffer} {pvdLba bootLba imgsize : UInt32}

@[simp] theorem length_tableBytes (pvdLba bootLba imgsize checksum : UInt32) :
    (tableBytes pvdLba bootLba imgsize checksum).length = 16 := by
  simp [tableBytes]

/-- An image of at least 64 bytes gets patched. -/
theorem makeBootInfoTable_patched (buf : Buffer) (pvdLba bootLba : UInt32)
    (hsize : 64 ≤ imgsize.toNat) :
    ∃ out, makeBootInfoTable buf pvdLba bootLba imgsize = some out ∧
      Patched buf pvdLba bootLba imgsize out := by
  have hnot : ¬ imgsize < 64 := by
    rw [UInt32.lt_iff_toNat_lt, Nat.not_lt]
    exact hsize
  obtain ⟨s, hrun, hsummed⟩ := @sumWords_summed buf imgsize imgsize.toNat 0 ⟨64, 0, []⟩ hsize
    (Nat.zero_le _) (by omega) ⟨rfl, rfl, fun r hr => nomatch hr⟩
  obtain ⟨hchecksum, hinside⟩ := sumRest_checksum hsize hsummed
  rw [makeBootInfoTable, if_neg hnot, hrun]
  refine ⟨_, rfl, ?_⟩
  constructor
  case ret => rfl
  case inside => exact hinside
  case untouched =>
    intro i hi
    have hlength := length_tableBytes pvdLba bootLba imgsize (sumRest buf imgsize s).checksum
    show patch (patch buf 8 _) 24 (List.replicate 40 0) i = buf i
    rw [patch, copyInto_outside (by rw [List.length_replicate]; omega), patch,
      copyInto_outside (by omega)]
  case table =>
    rw [properTable, ← hchecksum]
    have hholds : Holds (patch (patch buf 8 (tableBytes pvdLba bootLba imgsize
        (sumRest buf imgsize s).checksum)) 24 (List.replicate 40 0)) 8
          (tableBytes pvdLba bootLba imgsize (sumRest buf imgsize s).checksum) :=
      holds_patch.patch (Or.inl (by rw [length_tableBytes]))
    exact hholds.slice_of_length (length_tableBytes ..)
  case reserved =>
    exact holds_patch.slice_of_length List.length_replicate

/-- The bytes before byte 64 do not matter for the checksum. -/
theorem bootChecksum_congr {buf' : Buffer} {size : Nat} (h : ∀ i, 64 ≤ i → buf' i = buf i) :
    bootChecksum buf' size = bootChecksum buf size := by
  have hword (k : Nat) : slice (padded buf' size) (64 + 4 * k) 4 =
      slice (padded buf size) (64 + 4 * k) 4 :=
    slice_congr fun i _ => by rw [padded, padded, h _ (by omega)]
  simp only [bootChecksum, hword]

theorem Patched.pvdFound {out : Outcome} (h : Patched buf pvdLba bootLba imgsize out) :
    isoReadLsb out.buf 8 4 = pvdLba := by
  have hsplit := slice_append out.buf 8 4 12
  rw [h.table, properTable, tableBytes, List.append_assoc, List.append_assoc] at hsplit
  have hfirst : slice out.buf 8 4 = toLsb 4 pvdLba.toNat :=
    (List.append_inj hsplit (by simp)).1
  rw [isoReadLsb, hfirst, ofLsb_toLsb_of_lt pvdLba.toNat_lt, UInt32.ofNat_toNat]

/-- The check is passed by the images which have their table already. -/
theorem isoImageEvalBootInfoTable_eq (image : ImportedImage) (hsize : 64 ≤ imgsize.toNat)
    (hmax : imgsize.toNat ≤ 4096 * 1024) (hboot : bootLba ≠ 0) (buf : Buffer) :
    ∃ seems, isoImageEvalBootInfoTable image ⟨imgsize.toNat, some bootLba, .ok buf⟩ =
        some (.ok seems) ∧
      (seems.bootInfoTable = true ↔
        slice buf 8 16 = properTable buf (tablePvd image (isoReadLsb buf 8 4)) bootLba imgsize) := by
  obtain ⟨out, hmake, hpatched⟩ := makeBootInfoTable_patched buf
    (tablePvd image (isoReadLsb buf 8 4)) bootLba hsize
  have hrange : ¬ (bootImageMaxSize < imgsize ∨ imgsize < 64) := by
    rw [not_or, UInt32.lt_iff_toNat_lt, UInt32.lt_iff_toNat_lt]
    exact ⟨Nat.not_lt.mpr hmax, Nat.not_lt.mpr hsize⟩
  rw [isoImageEvalBootInfoTable]
  simp only [UInt32.ofNat_toNat, Option.getD_some, hmake, Option.map_some]
  rw [if_neg hrange, if_neg hboot, if_neg (by rw [hpatched.ret]; decide)]
  refine ⟨_, rfl, ?_⟩
  rw [decide_eq_true_iff, hpatched.table]
  exact eq_comm

/-- A boot info table is recognised again, if the address of the boot image is known. -/
theorem boot_info_table_recognised (buf : Buffer) (pvdLba bootLba imgsize : UInt32)
    (hsize : 64 ≤ imgsize.toNat) (hmax : imgsize.toNat ≤ 4096 * 1024) (hboot : bootLba ≠ 0) :
    Recognised buf pvdLba bootLba imgsize := by
  constructor
  case patched => exact makeBootInfoTable_patched buf pvdLba bootLba hsize
  case marked =>
    intro out hmake image hpvd
    obtain ⟨out', hmake', hpatched⟩ := makeBootInfoTable_patched buf pvdLba bootLba hsize
    obtain rfl : out' = out := Option.some.inj (hmake'.symm.trans hmake)
    obtain ⟨seems, heval, hiff⟩ :=
      isoImageEvalBootInfoTable_eq image hsize hmax hboot out'.buf
    refine ⟨seems, heval, hiff.mpr ?_⟩
    rw [hpatched.pvdFound, hpvd, hpatched.table, properTable, properTable,
      bootChecksum_congr fun i hi => hpatched.untouched i (Or.inr hi)]
  case unpatched =>
    intro image seems heval hseems
    obtain ⟨seems', heval', hiff⟩ :=
      isoImageEvalBootInfoTable_eq image hsize hmax hboot buf
    obtain rfl : seems' = seems := by
      rw [heval'] at heval
      exact Except.ok.inj (Option.some.inj heval)
    exact hiff.mp hseems

/-- An image of 67 bytes at block 40. -/
theorem odd_image_recognised : 64 ≤ (67 : UInt32).toNat ∧ (67 : UInt32).toNat ≤ 4096 * 1024 ∧
    (40 : UInt32) ≠ 0 ∧ Recognised (fun i => UInt8.ofNat i) 16 40 67 :=
  ⟨by decide, by decide, by decide,
    boot_info_table_recognised _ 16 40 67 (by decide) (by decide) (by decide)⟩

/-- With block address 0 there is no check at all. -/
theorem address_zero_not_marked : ¬ Recognised (fun _ => 0) 16 0 64 := by
  intro h
  obtain ⟨out, hmake, -⟩ := h.patched
  obtain ⟨seems, heval, hseems⟩ :=
    h.marked out hmake ⟨fun _ => .error 0, 0, 100⟩ (by decide)
  have hnothing : isoImageEvalBootInfoTable ⟨fun _ => .error 0, 0, 100⟩
      ⟨64, some 0, .ok out.buf⟩ = some (.ok seemsNothing) := rfl
  obtain rfl : seemsNothing = seems :=
    Except.ok.inj (Option.some.inj (hnothing.symm.trans heval))
  cases hseems

end Table

end BootInfoTable
