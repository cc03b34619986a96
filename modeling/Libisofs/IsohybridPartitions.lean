import Mathlib.Algebra.Order.Ring.Int
import Mathlib.Data.List.Basic

/-!
# Partitions of boot images

assess_isohybrid_gpt_apm() registers boot images as partitions of GPT and APM.
make_isolinux_mbr() shows those of the GPT also in the MBR. Sizes of files get rounded down by
the one and rounded up by the other, and the MBR knows only of the first section of a file.
-/

namespace IsohybridPartitions

structure FileSection where
  block : UInt32
  size : UInt32

/-- An appended partition, or a file, or a NULL pointer in bootsrc. eltorito_writer_create() sets no
bootsrc for an appended partition. A file source has at least one section. -/
inductive BootSrc where
  | appended (start size : UInt32)
  | file (first : FileSection) (rest : List FileSection)
  | outside

namespace BootSrc

def isAppended : BootSrc → Bool
  | appended .. => true
  | _ => false

def isPresent : BootSrc → Bool
  | outside => false
  | _ => true

def startBlock : BootSrc → UInt32
  | appended start _ => start
  | file first _ => first.block
  | outside => 0

def addSize (blockCount : UInt32) (s : FileSection) : UInt32 := blockCount + s.size / 2048

def blockCount : BootSrc → UInt32
  | appended _ size => size
  | file first rest => (first :: rest).foldl addSize 0
  | outside => 0

end BootSrc

structure BootImage where
  isolinuxOptions : Nat
  src : BootSrc

def BootImage.gptMode (img : BootImage) : Nat := img.isolinuxOptions >>> 2 &&& 63

/-- The request does not tell its `image`, which is none for the overall partition. Blocks have 512
bytes. -/
structure GptRequest where
  image : Option Nat
  startBlock : Nat
  blockCount : Nat
  typeGuid : List UInt8
  flags : Nat
  name : String

/-- Blocks have 2048 bytes. -/
structure ApmRequest where
  image : Nat
  startBlock : UInt32
  blockCount : UInt32
  name : String
  type : String

/-- There are no boot images without catalog, and at most Libisofs_max_boot_imageS. The template is
prepared if the APM head may be put into it. `isoGptTypeGuid` is set if bit 0 of iso_gpt_flag is. -/
structure Ecma119Image where
  bootimages : List BootImage
  few : bootimages.length ≤ 32
  appendedAsGpt : Bool
  partitionOffset : UInt32
  isoGptTypeGuid : Option (List UInt8)
  systemAreaOptions : Nat
  optsSystemAreaOptions : Nat
  postIsoPartPad : Nat
  templatePrepared : Bool

/-- The variables of assess_isohybrid_gpt_apm() and what it registers. Its callers make sure that
there are no requests of the same kind yet. -/
structure Assessment where
  gptCount : Nat
  gptIdx : List Int
  apmCount : Nat
  gptReq : List GptRequest
  apmReq : List ApmRequest
  apmReqFlags : Nat
  gptReqFlags : Nat

inductive BootError where
  | tooManyGpt
  | tooManyApm
  | bootImageNotValid
  | isolinuxCantPatch

def basicDataUuid : List UInt8 :=
  [0xa2, 0xa0, 0xd0, 0xeb, 0xe5, 0xb9, 0x33, 0x44, 0x87, 0xc0, 0x68, 0xb6, 0xb7, 0x26, 0x99, 0xc7]

def hfsUuid : List UInt8 :=
  [0x00, 0x53, 0x46, 0x48, 0x00, 0x00, 0xaa, 0x11, 0xaa, 0x11, 0x00, 0x30, 0x65, 0x43, 0xec, 0xac]

def isoQuickGptEntry (st : Assessment) (req : GptRequest) : Except BootError Assessment :=
  if 248 ≤ st.gptReq.length then .error .tooManyGpt
  else .ok { st with gptReq := st.gptReq ++ [req] }

def isoQuickApmEntry (st : Assessment) (req : ApmRequest) : Except BootError Assessment :=
  if 63 ≤ st.apmReq.length then .error .tooManyApm
  else .ok { st with apmReq := st.apmReq ++ [req] }

section Model

variable (t : Ecma119Image)

/-- An image for the GPT. It comes with its index. -/
def marked (x : BootImage × Nat) : Bool :=
  (x.1.gptMode = 1 ∨ x.1.gptMode = 2) ∧ ¬ (x.1.src.isAppended ∧ t.appendedAsGpt)

def forApm (flag : Nat) (x : BootImage × Nat) : Bool :=
  x.1.isolinuxOptions &&& 256 ≠ 0 ∧ flag &&& 2 = 0

/-- Outside of the array of 128 numbers `List.set` does nothing. -/
def assessGpt (flag : Nat) (x : BootImage × Nat) (st : Assessment) : Except BootError Assessment :=
  if marked t x then
    let st := { st with gptIdx := st.gptIdx.set st.gptCount x.2, gptCount := st.gptCount + 1 }
    if flag &&& 1 ≠ 0 ∧ x.1.src.isPresent then
      isoQuickGptEntry st
        { image := some x.2
          startBlock := x.1.src.startBlock.toNat * 4
          blockCount := x.1.src.blockCount.toNat * 4
          typeGuid := if x.1.gptMode = 2 then hfsUuid else basicDataUuid
          flags := 2 ^ 60 ||| 1
          name := "ISOHybrid" ++ toString st.gptCount }
    else .ok st
  else .ok st

def assessApm (flag : Nat) (x : BootImage × Nat) (st : Assessment) : Except BootError Assessment :=
  if forApm flag x then
    let st := { st with apmCount := st.apmCount + 1 }
    if flag &&& 1 ≠ 0 ∧ x.1.src.isPresent then
      (isoQuickApmEntry st ⟨x.2, x.1.src.startBlock, x.1.src.blockCount, "EFI", "Apple_HFS"⟩).map
        fun st => { st with apmReqFlags := st.apmReqFlags ||| 2 }
    else .ok st
  else .ok st

def assessImages (flag : Nat) : List (BootImage × Nat) → Assessment → Except BootError Assessment
  | [], st => .ok st
  | x :: rest, st =>
    ((assessGpt t flag x st).bind (assessApm flag x)).bind (assessImages flag rest)

def overallRequest : GptRequest :=
  let gptFlags := if t.systemAreaOptions &&& 2 ^ 16 ≠ 0 then 2 ^ 60 ||| 1 ||| 4 else 2 ^ 60 ||| 1
  { image := none
    startBlock := t.partitionOffset.toNat * 4
    blockCount := 0xffffffff * 4
    typeGuid := t.isoGptTypeGuid.getD basicDataUuid
    flags := if t.optsSystemAreaOptions &&& 2 ^ 17 ≠ 0 then gptFlags % 2 ^ 60 else gptFlags
    name := "ISOHybrid" }

/-- The counter gets incremented before it is used as index. -/
def assessIsohybridGptApm (flag : Nat) (gptIdx : List Int) : Except BootError Assessment :=
  (assessImages t flag t.bootimages.zipIdx ⟨0, gptIdx, 0, [], [], 0, 0⟩).bind fun st =>
    if 0 < st.gptCount ∧ flag &&& 4 = 0 then
      let st := { st with
        gptCount := st.gptCount + 1
        gptIdx := st.gptIdx.set (st.gptCount + 1) (-1) }
      if flag &&& 1 ≠ 0 then
        (isoQuickGptEntry st (overallRequest t)).map fun st =>
          { st with gptReqFlags := st.gptReqFlags ||| 1 }
      else .ok st
    else .ok st

/-- A slot of the MBR without its cylinder addresses. It does not tell its `image`. -/
structure MbrSlot where
  image : Option Nat
  status : Nat
  typeByte : Nat
  startLba : Nat
  blocks : Nat

def zeroSlot : MbrSlot := ⟨none, 0, 0, 0, 0⟩

def hdBlocks (size : UInt32) : Nat :=
  size.toNat / 512 + if size.toNat % 512 ≠ 0 then 1 else 0

/-- `idx` is the element of gpt_idx at the cursor. -/
def gptImagesAsMbrPartitions (idx : Int) : MbrSlot :=
  if idx < 0 then zeroSlot
  else
    match t.bootimages[idx.toNat]? with
    | some ⟨options, .file first _⟩ =>
      { image := some idx.toNat
        status := 0
        typeByte := if options >>> 2 &&& 63 = 2 then 0 else 0xef
        startLba := (first.block * 4).toNat
        blocks := hdBlocks first.size }
    | _ => zeroSlot

/-- The numbers which the cursor has not passed yet, and a slot for each of the parts. -/
def mbrSlots (own : MbrSlot) (partNumber : Int) : List Int → List Int → List MbrSlot
  | [], _ => []
  | part :: parts, idxs =>
    if part = partNumber then own :: mbrSlots own partNumber parts idxs
    else
      match idxs with
      | [] => zeroSlot :: mbrSlots own partNumber parts []
      | idx :: idxs => gptImagesAsMbrPartitions t idx :: mbrSlots own partNumber parts idxs

/-- The four slots. In the end the type of the own partition may still change. -/
def makeIsolinuxMbr (imgBlocks partOffset partNumber : Int) (fsType flag : Nat) :
    Except BootError (List MbrSlot) :=
  match t.bootimages.head? with
  | some ⟨_, .file _ _⟩ =>
    let partNumber := if flag &&& 2 ≠ 0 then 1 else partNumber
    let partOffset := if flag &&& 2 ≠ 0 then 1 else partOffset
    let partSize := imgBlocks * 4 - t.postIsoPartPad / 512 - partOffset
    (assessIsohybridGptApm t 0 (List.replicate 128 (-1))).bind fun st =>
      if flag &&& 4 = 0 ∧ st.apmCount ≠ 0 ∧ ¬ t.templatePrepared then .error .isolinuxCantPatch
      else
        let own : MbrSlot := ⟨none, if flag &&& 2 ≠ 0 then 0 else 0x80, fsType,
          (partOffset % 2 ^ 32).toNat, (min partSize 0xffffffff % 2 ^ 32).toNat⟩
        .ok (mbrSlots t own partNumber [1, 2, 3, 4] (st.gptIdx.take st.gptCount))
  | _ => .error .bootImageNotValid

end Model

/-! ## The goals -/

namespace BootSrc

/-- Start and number of bytes of each piece of the content. -/
def content : BootSrc → List (Nat × Nat)
  | appended start size => [(start.toNat * 2048, size.toNat * 2048)]
  | file first rest => (first :: rest).map fun s => (s.block.toNat * 2048, s.size.toNat)
  | outside => []

/-- A partition begins at the first block and covers all bytes. -/
def Covered (src : BootSrc) (start count unit : Nat) : Prop :=
  start * unit = src.startBlock.toNat * 2048 ∧
    ∀ piece ∈ src.content, 0 < piece.2 →
      start * unit ≤ piece.1 ∧ piece.1 + piece.2 ≤ (start + count) * unit

def fullBlocks (first : FileSection) (rest : List FileSection) : Nat :=
  ((first :: rest).map fun s => s.size.toNat / 2048).sum % 2 ^ 32

/-- Each section with bytes lies in as many blocks from the first one on as are full. -/
def FitsFullBlocks : BootSrc → Prop
  | file first rest => ∀ s ∈ first :: rest, 0 < s.size.toNat →
      first.block ≤ s.block ∧
        s.block.toNat + (s.size.toNat + 2047) / 2048 ≤ first.block.toNat + fullBlocks first rest
  | _ => True

/-- The first block is in the range of the MBR, and the other sections with bytes lie in the sectors
of the first one. -/
def FitsFirstSection : BootSrc → Prop
  | file first rest => first.block.toNat < 2 ^ 30 ∧ ∀ s ∈ rest, 0 < s.size.toNat →
      first.block ≤ s.block ∧
        s.block.toNat * 4 + hdBlocks s.size ≤ first.block.toNat * 4 + hdBlocks first.size
  | _ => True

/-- All sections have as many full blocks as the first one has blocks. -/
def SameNumber : BootSrc → Prop
  | file first rest => fullBlocks first rest = (first.size.toNat + 2047) / 2048
  | _ => True

end BootSrc

section Goals

variable (t : Ecma119Image)

def markedImages : List (BootImage × Nat) := t.bootimages.zipIdx.filter (marked t)

/-- The partitions of boot images: index, start, and number of blocks. -/
def gptPlaces (st : Assessment) : List (Nat × Nat × Nat) :=
  st.gptReq.filterMap fun req => req.image.map (·, req.startBlock, req.blockCount)

def apmPlaces (st : Assessment) : List (Nat × Nat × Nat) :=
  st.apmReq.map fun req => (req.image, req.startBlock.toNat, req.blockCount.toNat)

def MbrSlot.place? (slot : MbrSlot) : Option (Nat × Nat × Nat) :=
  slot.image.map (·, slot.startLba, slot.blocks)

def mbrPlaces (slots : List MbrSlot) : List (Nat × Nat × Nat) := slots.filterMap MbrSlot.place?

structure PartitionsRight (st : Assessment) (slots : List MbrSlot) : Prop where
  gpt : ∀ x ∈ t.bootimages.zipIdx, ∀ p, (x.2, p) ∈ gptPlaces st → x.1.src.Covered p.1 p.2 512
  apm : ∀ x ∈ t.bootimages.zipIdx, ∀ p, (x.2, p) ∈ apmPlaces st → x.1.src.Covered p.1 p.2 2048
  mbr : ∀ x ∈ t.bootimages.zipIdx, ∀ p, (x.2, p) ∈ mbrPlaces slots → x.1.src.Covered p.1 p.2 512
  agree : ∀ x ∈ t.bootimages.zipIdx, ∀ p q, (x.2, p) ∈ gptPlaces st →
    (x.2, q) ∈ mbrPlaces slots → p.1 = q.1 ∧ p.2 < q.2 + 4 ∧ q.2 < p.2 + 4
  listed : (st.gptIdx.take st.gptCount).filter (0 ≤ ·) =
    (markedImages t).map fun x => (x.2 : Int)

/-- What an MBR is written with. -/
structure MbrArguments where
  imgBlocks : Int
  partOffset : Int
  partNumber : Int
  fsType : Nat
  flag : Nat

def MbrArguments.slots (m : MbrArguments) : List MbrSlot :=
  match makeIsolinuxMbr t m.imgBlocks m.partOffset m.partNumber m.fsType m.flag with
  | .ok slots => slots
  | .error _ => []

/-- Registration and MBR of the same image reach their goals. -/
def Right (flag : Nat) (gptIdx : List Int) (m : MbrArguments) : Prop :=
  ∃ st, assessIsohybridGptApm t flag gptIdx = .ok st ∧ PartitionsRight t st (m.slots t)

/-- The parts which are free for boot images. -/
def MbrArguments.freeParts (m : MbrArguments) : Nat :=
  ([1, 2, 3, 4].filter fun part : Int =>
    part ≠ if m.flag &&& 2 ≠ 0 then 1 else m.partNumber).length

def firstIsFile : Bool :=
  match t.bootimages.head? with
  | some ⟨_, .file _ _⟩ => true
  | _ => false

/-- The first image is in the image and the template accepts the APM head, if there is one. -/
def MbrArguments.Possible (m : MbrArguments) : Prop :=
  firstIsFile t ∧
    ¬ (m.flag &&& 4 = 0 ∧ (t.bootimages.zipIdx.filter (forApm 0)).length ≠ 0 ∧ ¬ t.templatePrepared)

/-- The condition on the boot images and on the array of indices. -/
structure Fits (flag : Nat) (gptIdx : List Int) (m : MbrArguments) : Prop where
  registered : flag &&& 1 ≠ 0 → ∀ x ∈ t.bootimages.zipIdx, marked t x ∨ forApm flag x →
    x.1.src.FitsFullBlocks
  shown : m.Possible t → ∀ x ∈ (markedImages t).take m.freeParts,
    x.1.src.FitsFirstSection ∧ (flag &&& 1 ≠ 0 → x.1.src.SameNumber)
  array : markedImages t ≠ [] → flag &&& 4 = 0 → ∀ idx ∈ gptIdx[(markedImages t).length]?, idx < 0

end Goals

/-! ## Sizes -/

section Sizes

open BootSrc

variable {src : BootSrc} {first : FileSection} {rest : List FileSection}

theorem foldl_addSize_toNat (sections : List FileSection) (count : UInt32) :
    (sections.foldl addSize count).toNat =
      (count.toNat + (sections.map fun s => s.size.toNat / 2048).sum) % 2 ^ 32 := by
  induction sections generalizing count with
  | nil => exact (Nat.mod_eq_of_lt count.toNat_lt).symm
  | cons s sections ih =>
    rw [List.foldl_cons, ih, addSize, UInt32.toNat_add, UInt32.toNat_div, List.map_cons,
      List.sum_cons, Nat.mod_add_mod, Nat.add_assoc]
    rfl

theorem blockCount_toNat : (file first rest).blockCount.toNat = fullBlocks first rest := by
  rw [blockCount, foldl_addSize_toNat, fullBlocks]
  exact congrArg (· % 2 ^ 32) (Nat.zero_add _)

theorem hdBlocks_eq (size : UInt32) : hdBlocks size = (size.toNat + 511) / 512 := by
  rw [hdBlocks]
  split
  · omega
  · omega

theorem covered_apm_iff (hpresent : src.isPresent) :
    src.Covered src.startBlock.toNat src.blockCount.toNat 2048 ↔ src.FitsFullBlocks := by
  cases src with
  | appended start size =>
    refine iff_of_true ⟨rfl, fun piece hpiece _ => ?_⟩ trivial
    rw [List.mem_singleton.mp hpiece]
    exact ⟨Nat.le_refl _, Nat.le_of_eq (Nat.add_mul ..).symm⟩
  | file first rest =>
    rw [Covered, and_iff_right rfl, content, List.forall_mem_map, FitsFullBlocks, blockCount_toNat]
    refine forall₂_congr fun s _ => imp_congr_right fun hsome => ?_
    rw [UInt32.le_iff_toNat_le, startBlock]
    dsimp only
    omega
  | outside => cases hpresent

theorem covered_gpt_iff (hpresent : src.isPresent) :
    src.Covered (src.startBlock.toNat * 4) (src.blockCount.toNat * 4) 512 ↔ src.FitsFullBlocks := by
  rw [← covered_apm_iff hpresent, Covered, Covered, ← Nat.add_mul, Nat.mul_assoc, Nat.mul_assoc]

theorem startLba_toNat (hrange : first.block.toNat < 2 ^ 30) :
    (first.block * 4).toNat = first.block.toNat * 4 := by
  rw [UInt32.toNat_mul]
  exact Nat.mod_eq_of_lt (show first.block.toNat * 4 < 2 ^ 32 by omega)

theorem covered_mbr_iff :
    (file first rest).Covered (first.block * 4).toNat (hdBlocks first.size) 512 ↔
      (file first rest).FitsFirstSection := by
  rw [Covered, FitsFirstSection]
  have hstart : (first.block * 4).toNat * 512 = (file first rest).startBlock.toNat * 2048 ↔
      first.block.toNat < 2 ^ 30 := by
    show _ = first.block.toNat * 2048 ↔ _
    rw [UInt32.toNat_mul]
    have hlt : first.block.toNat * UInt32.toNat 4 % 2 ^ 32 < 2 ^ 32 := Nat.mod_lt _ (by decide)
    have hsmall : first.block.toNat * 4 < 2 ^ 32 → first.block.toNat * UInt32.toNat 4 % 2 ^ 32 =
      first.block.toNat * 4 := Nat.mod_eq_of_lt
    omega
  rw [hstart]
  refine and_congr_right fun hrange => ?_
  rw [content, List.forall_mem_map, List.forall_mem_cons, startLba_toNat hrange, hdBlocks_eq]
  constructor
  · rintro ⟨-, hall⟩ s hs hsome
    have h := hall s hs hsome
    rw [UInt32.le_iff_toNat_le, hdBlocks_eq]
    dsimp only at h
    omega
  · refine fun hall => ⟨fun _ => ?_, fun s hs hsome => ?_⟩
    · dsimp only
      omega
    · have h := hall s hs hsome
      rw [UInt32.le_iff_toNat_le, hdBlocks_eq] at h
      dsimp only
      omega

/-- Where both partitions are right, their numbers agree if the sizes do. -/
theorem agree_iff (hfull : (file first rest).FitsFullBlocks)
    (hfirst : (file first rest).FitsFirstSection) :
    (first.block.toNat * 4 = (first.block * 4).toNat ∧
      fullBlocks first rest * 4 < hdBlocks first.size + 4 ∧
        hdBlocks first.size < fullBlocks first rest * 4 + 4) ↔
      (file first rest).SameNumber := by
  have hone := hfull first (List.mem_cons_self ..)
  rw [and_iff_right (startLba_toNat hfirst.1).symm, hdBlocks_eq, SameNumber]
  omega

end Sizes

/-! ## The run of the assessment -/

section Run

variable {t : Ecma119Image} {flag : Nat} {init : List Int} {done : List (BootImage × Nat)}
  {st : Assessment}

def gptPlace (t : Ecma119Image) (flag : Nat) (x : BootImage × Nat) : Option (Nat × Nat) :=
  if marked t x ∧ flag &&& 1 ≠ 0 ∧ x.1.src.isPresent then
    some (x.1.src.startBlock.toNat * 4, x.1.src.blockCount.toNat * 4)
  else none

def apmPlace (flag : Nat) (x : BootImage × Nat) : Option (Nat × Nat) :=
  if forApm flag x ∧ flag &&& 1 ≠ 0 ∧ x.1.src.isPresent then
    some (x.1.src.startBlock.toNat, x.1.src.blockCount.toNat)
  else none

def placesOf (place : BootImage × Nat → Option (Nat × Nat)) (images : List (BootImage × Nat)) :
    List (Nat × Nat × Nat) :=
  images.filterMap fun x => (place x).map (x.2, ·)

def numbers (images : List (BootImage × Nat)) : List Int := images.map fun x => (x.2 : Int)

/-- The state after the images `done`. -/
structure Done (t : Ecma119Image) (flag : Nat) (init : List Int) (done : List (BootImage × Nat))
    (st : Assessment) : Prop where
  count : st.gptCount = (done.filter (marked t)).length
  idx : st.gptIdx = numbers (done.filter (marked t)) ++ init.drop (done.filter (marked t)).length
  gpt : gptPlaces st = placesOf (gptPlace t flag) done
  fewGpt : st.gptReq.length ≤ done.length
  apmCount : st.apmCount = (done.filter (forApm flag)).length
  apm : apmPlaces st = placesOf (apmPlace flag) done
  fewApm : st.apmReq.length ≤ done.length

theorem placesOf_singleton (place : BootImage × Nat → Option (Nat × Nat)) (x : BootImage × Nat) :
    placesOf place [x] = ((place x).map (x.2, ·)).toList := by
  rw [placesOf, List.filterMap_cons]
  cases place x with
  | none => rfl
  | some p => rfl

/-- What the turn for an image does for the GPT. -/
theorem assessGpt_eq (hroom : st.gptReq.length < 248) (x : BootImage × Nat) :
    ∃ reqs, reqs.length ≤ 1 ∧ assessGpt t flag x st = .ok { st with
        gptIdx := if marked t x then st.gptIdx.set st.gptCount x.2 else st.gptIdx
        gptCount := st.gptCount + ([x].filter (marked t)).length
        gptReq := st.gptReq ++ reqs } ∧
      (reqs.filterMap fun req => req.image.map (·, req.startBlock, req.blockCount)) =
        placesOf (gptPlace t flag) [x] := by
  rw [assessGpt, placesOf_singleton, gptPlace]
  by_cases hmarked : marked t x
  · rw [if_pos hmarked, if_pos hmarked, List.filter_cons_of_pos hmarked]
    by_cases hreg : flag &&& 1 ≠ 0 ∧ x.1.src.isPresent
    · rw [if_pos (And.intro hmarked hreg)]
      refine ⟨[_], Nat.le_refl 1, (if_pos hreg).trans (if_neg (Nat.not_le.mpr hroom)), ?_⟩
      rfl
    · rw [if_neg fun h : marked t x ∧ _ => hreg h.2]
      refine ⟨[], Nat.zero_le 1, ?_, rfl⟩
      rw [List.append_nil]
      exact if_neg hreg
  · rw [if_neg hmarked, if_neg hmarked, if_neg fun h : marked t x ∧ _ => hmarked h.1,
      List.filter_cons_of_neg hmarked]
    exact ⟨[], Nat.zero_le 1, by rw [List.append_nil]; rfl, rfl⟩

theorem assessApm_eq (hroom : st.apmReq.length < 63) (x : BootImage × Nat) :
    ∃ reqs apmReqFlags, reqs.length ≤ 1 ∧ assessApm flag x st = .ok { st with
        apmCount := st.apmCount + ([x].filter (forApm flag)).length
        apmReq := st.apmReq ++ reqs
        apmReqFlags } ∧
      (reqs.map fun req => (req.image, req.startBlock.toNat, req.blockCount.toNat)) =
        placesOf (apmPlace flag) [x] := by
  rw [assessApm, placesOf_singleton, apmPlace]
  by_cases hforApm : forApm flag x
  · rw [if_pos hforApm, List.filter_cons_of_pos hforApm]
    by_cases hreg : flag &&& 1 ≠ 0 ∧ x.1.src.isPresent
    · rw [if_pos (And.intro hforApm hreg)]
      refine ⟨[⟨x.2, x.1.src.startBlock, x.1.src.blockCount, "EFI", "Apple_HFS"⟩],
        st.apmReqFlags ||| 2, Nat.le_refl 1, (if_pos hreg).trans ?_, rfl⟩
      rw [isoQuickApmEntry, if_neg (Nat.not_le.mpr hroom)]
      rfl
    · rw [if_neg fun h : forApm flag x ∧ _ => hreg h.2]
      refine ⟨[], st.apmReqFlags, Nat.zero_le 1, ?_, rfl⟩
      rw [List.append_nil]
      exact if_neg hreg
  · rw [if_neg hforApm, if_neg fun h : forApm flag x ∧ _ => hforApm h.1, List.filter_cons_of_neg hforApm]
    exact ⟨[], st.apmReqFlags, Nat.zero_le 1, by rw [List.append_nil]; rfl, rfl⟩

theorem numbers_set (hlen : init.length = 128) {images : List (BootImage × Nat)}
    (hfew : images.length < 32) (x : BootImage × Nat) :
    (numbers images ++ init.drop images.length).set images.length x.2 =
      numbers (images ++ [x]) ++ init.drop (images ++ [x]).length := by
  have hnumbers : (numbers images).length = images.length := List.length_map ..
  rw [List.set_append_right _ _ (Nat.le_of_eq hnumbers), hnumbers, Nat.sub_self,
    List.drop_eq_getElem_cons (show images.length < init.length by omega), List.set_cons_zero,
    List.length_append, numbers, numbers, List.map_append, List.append_assoc]
  rfl

theorem Done.step (hdone : Done t flag init done st) (hlen : init.length = 128)
    (hfew : done.length < 32) (x : BootImage × Nat) :
    ∃ st', (assessGpt t flag x st).bind (assessApm flag x) = .ok st' ∧
      Done t flag init (done ++ [x]) st' := by
  have hlength : (done ++ [x]).length = done.length + 1 := List.length_append
  have hgpt := hdone.fewGpt
  have hapm := hdone.fewApm
  obtain ⟨reqs, hreqs, heq, hplaces⟩ := @assessGpt_eq t flag st (by omega) x
  obtain ⟨reqs', flags, hreqs', heq', hplaces'⟩ := @assessApm_eq flag { st with
    gptIdx := if marked t x then st.gptIdx.set st.gptCount x.2 else st.gptIdx
    gptCount := st.gptCount + ([x].filter (marked t)).length
    gptReq := st.gptReq ++ reqs } (Nat.lt_of_le_of_lt hapm (by omega)) x
  refine ⟨_, by rw [heq]; exact heq', ?_⟩
  constructor
  case count => rw [List.filter_append, List.length_append, hdone.count]
  case idx =>
    show (if marked t x then st.gptIdx.set st.gptCount x.2 else st.gptIdx) = _
    rw [List.filter_append]
    by_cases hmarked : marked t x
    · rw [if_pos hmarked, List.filter_cons_of_pos hmarked, hdone.idx, hdone.count]
      exact numbers_set hlen (Nat.lt_of_le_of_lt (List.length_filter_le ..) hfew) x
    · rw [if_neg hmarked, List.filter_cons_of_neg hmarked, hdone.idx]
      exact congrArg (fun l => numbers l ++ init.drop l.length) (List.append_nil _).symm
  case gpt =>
    rw [placesOf, List.filterMap_append, ← placesOf, ← placesOf, ← hdone.gpt, ← hplaces]
    exact List.filterMap_append
  case fewGpt =>
    show (st.gptReq ++ reqs).length ≤ _
    rw [List.length_append]
    omega
  case apmCount => rw [List.filter_append, List.length_append, hdone.apmCount]
  case apm =>
    rw [placesOf, List.filterMap_append, ← placesOf, ← placesOf, ← hdone.apm, ← hplaces']
    exact List.map_append
  case fewApm =>
    show (st.apmReq ++ reqs').length ≤ _
    rw [List.length_append]
    omega

theorem assessImages_run (hlen : init.length = 128) (rest : List (BootImage × Nat))
    (hfew : done.length + rest.length ≤ 32) (hdone : Done t flag init done st) :
    ∃ st', assessImages t flag rest st = .ok st' ∧ Done t flag init (done ++ rest) st' := by
  induction rest generalizing done st with
  | nil => exact ⟨st, rfl, by rwa [List.append_nil]⟩
  | cons x rest ih =>
    rw [List.length_cons] at hfew
    obtain ⟨st₁, hst₁, hdone₁⟩ := hdone.step hlen (by omega) x
    obtain ⟨st', hst', hdone'⟩ :=
      ih (by rw [List.length_append, List.length_singleton]; omega) hdone₁
    rw [List.append_cons]
    refine ⟨st', ?_, hdone'⟩
    rw [assessImages, hst₁]
    exact hst'

/-- Whether the overall partition is counted. -/
def Overall (t : Ecma119Image) (flag : Nat) : Prop := markedImages t ≠ [] ∧ flag &&& 4 = 0

/-- The result of the assessment. -/
structure Assessed (t : Ecma119Image) (flag : Nat) (init : List Int) (st : Assessment) : Prop where
  gpt : gptPlaces st = placesOf (gptPlace t flag) t.bootimages.zipIdx
  apm : apmPlaces st = placesOf (apmPlace flag) t.bootimages.zipIdx
  apmCount : st.apmCount = (t.bootimages.zipIdx.filter (forApm flag)).length
  counted : Overall t flag → st.gptIdx.take st.gptCount =
    numbers (markedImages t) ++ init[(markedImages t).length]?.toList
  plain : ¬ Overall t flag → st.gptIdx.take st.gptCount = numbers (markedImages t)

theorem assessIsohybridGptApm_assessed (t : Ecma119Image) (flag : Nat) (hlen : init.length = 128) :
    ∃ st, assessIsohybridGptApm t flag init = .ok st ∧ Assessed t flag init st := by
  have hzip : t.bootimages.zipIdx.length ≤ 32 := by
    rw [List.length_zipIdx]
    exact t.few
  obtain ⟨st, hst, hdone⟩ := @assessImages_run t flag init [] ⟨0, init, 0, [], [], 0, 0⟩ hlen
    t.bootimages.zipIdx (by rwa [List.length_nil, Nat.zero_add])
    ⟨rfl, rfl, rfl, Nat.le_refl 0, rfl, rfl, Nat.le_refl 0⟩
  rw [List.nil_append] at hdone
  have hcount : st.gptCount = (markedImages t).length := hdone.count
  have hnumbers : (numbers (markedImages t)).length = st.gptCount := by
    rw [numbers, List.length_map, hcount]
  have hoverall : Overall t flag ↔ 0 < st.gptCount ∧ flag &&& 4 = 0 := by
    rw [Overall, hcount, List.length_pos_iff]
  rw [assessIsohybridGptApm, hst]
  show ∃ st', (if 0 < st.gptCount ∧ flag &&& 4 = 0 then _ else _) = _ ∧ _
  split
  next hyes =>
    have hcounted : (st.gptIdx.set (st.gptCount + 1) (-1)).take (st.gptCount + 1) =
        numbers (markedImages t) ++ init[(markedImages t).length]?.toList := by
      rw [List.take_set_of_le (Nat.le_refl _), hdone.idx, ← markedImages, ← hcount, ← hnumbers,
        List.take_length_add_append, List.take_one, List.head?_drop]
    have hroom : ¬ 248 ≤ st.gptReq.length := by
      have := hdone.fewGpt
      omega
    split
    · rw [isoQuickGptEntry, if_neg hroom]
      refine ⟨_, rfl, ⟨?_, hdone.apm, hdone.apmCount, fun _ => hcounted,
        fun h => absurd (hoverall.mpr hyes) h⟩⟩
      rw [← hdone.gpt]
      exact List.filterMap_append.trans (List.append_nil _)
    · exact ⟨_, rfl, ⟨hdone.gpt, hdone.apm, hdone.apmCount, fun _ => hcounted,
        fun h => absurd (hoverall.mpr hyes) h⟩⟩
  next hno =>
    refine ⟨_, rfl, ⟨hdone.gpt, hdone.apm, hdone.apmCount, fun h => absurd (hoverall.mp h) hno,
      fun _ => ?_⟩⟩
    rw [hdone.idx, ← markedImages, ← hnumbers]
    exact List.take_left ..

end Run

/-! ## The slots of the MBR -/

section Slots

variable {t : Ecma119Image}

/-- The slot of a marked image. -/
def mbrPlace (x : BootImage × Nat) : Option (Nat × Nat) :=
  match x.1.src with
  | .file first _ => some ((first.block * 4).toNat, hdBlocks first.size)
  | _ => none

theorem gptImagesAsMbrPartitions_place {x : BootImage × Nat} (hx : x ∈ t.bootimages.zipIdx) :
    (gptImagesAsMbrPartitions t x.2).place? = (mbrPlace x).map (x.2, ·) := by
  have hget : t.bootimages[x.2]? = some x.1 := List.mem_zipIdx_iff_getElem?.mp hx
  rw [gptImagesAsMbrPartitions, if_neg (by omega), Int.toNat_natCast, hget, mbrPlace]
  obtain ⟨⟨options, src⟩, i⟩ := x
  cases src with
  | appended start size => rfl
  | file first rest => rfl
  | outside => rfl

theorem mbrSlots_places {own : MbrSlot} (hown : own.image = none) (partNumber : Int)
    (parts idxs : List Int) :
    mbrPlaces (mbrSlots t own partNumber parts idxs) =
      (idxs.take (parts.filter fun part => part ≠ partNumber).length).filterMap
        fun idx => (gptImagesAsMbrPartitions t idx).place? := by
  induction parts generalizing idxs with
  | nil => rfl
  | cons part parts ih =>
    rw [mbrSlots.eq_def]
    dsimp only
    split
    next hpart =>
      rw [mbrPlaces, List.filterMap_cons_none (by rw [MbrSlot.place?, hown]; rfl), ← mbrPlaces, ih,
        List.filter_cons_of_neg (by simpa using hpart)]
    next hpart =>
      rw [List.filter_cons_of_pos (by simpa using hpart), List.length_cons]
      cases idxs with
      | nil => rw [mbrPlaces, List.filterMap_cons_none rfl, ← mbrPlaces, ih, List.take_nil,
          List.take_nil]
      | cons idx idxs =>
        rw [List.take_succ_cons, List.filterMap_cons, ← ih]
        exact List.filterMap_cons

theorem mem_zipIdx_of_marked {x : BootImage × Nat} (hx : x ∈ markedImages t) :
    x ∈ t.bootimages.zipIdx :=
  (List.mem_filter.mp hx).1

/-- Behind the images there is at most the number -1, which gives an empty slot. -/
theorem filterMap_take_numbers (n : Nat) {tail : List Int} (htail : ∀ idx ∈ tail, idx = -1) :
    (((numbers (markedImages t) ++ tail).take n).filterMap fun idx =>
      (gptImagesAsMbrPartitions t idx).place?) = placesOf mbrPlace ((markedImages t).take n) := by
  have hnone (k : Nat) :
      (tail.take k).filterMap (fun idx => (gptImagesAsMbrPartitions t idx).place?) = [] := by
    refine List.filterMap_eq_nil_iff.mpr fun idx hidx => ?_
    rw [htail idx (List.mem_of_mem_take hidx)]
    rfl
  rw [List.take_append, List.filterMap_append, hnone, List.append_nil, numbers, ← List.map_take,
    List.filterMap_map]
  exact List.filterMap_congr fun x hx => gptImagesAsMbrPartitions_place
    (mem_zipIdx_of_marked (List.mem_of_mem_take hx))

theorem slots_places (m : MbrArguments) :
    (m.Possible t → mbrPlaces (m.slots t) =
      placesOf mbrPlace ((markedImages t).take m.freeParts)) ∧
    (¬ m.Possible t → m.slots t = []) := by
  obtain ⟨st, hst, hassessed⟩ :=
    @assessIsohybridGptApm_assessed (List.replicate 128 (-1)) t 0 List.length_replicate
  have htail : ∃ tail : List Int, (∀ idx ∈ tail, idx = -1) ∧
      st.gptIdx.take st.gptCount = numbers (markedImages t) ++ tail := by
    by_cases hoverall : Overall t 0
    · refine ⟨_, fun idx hidx => ?_, hassessed.counted hoverall⟩
      exact List.eq_of_mem_replicate (List.mem_of_getElem? (Option.mem_toList.mp hidx))
    · exact ⟨[], fun _ h => absurd h List.not_mem_nil,
        (hassessed.plain hoverall).trans (List.append_nil _).symm⟩
  obtain ⟨tail, htail, hidx⟩ := htail
  rw [MbrArguments.slots, makeIsolinuxMbr, MbrArguments.Possible, firstIsFile]
  generalize t.bootimages.head? = head
  rcases head with _ | ⟨options, _ | ⟨first, rest⟩ | _⟩
  · exact ⟨fun h => absurd h.1 Bool.false_ne_true, fun _ => rfl⟩
  · exact ⟨fun h => absurd h.1 Bool.false_ne_true, fun _ => rfl⟩
  · rw [and_iff_right rfl, ← hassessed.apmCount, hst]
    dsimp only [Except.bind]
    by_cases hrefused : m.flag &&& 4 = 0 ∧ st.apmCount ≠ 0 ∧ ¬ t.templatePrepared
    · rw [if_pos hrefused]
      exact ⟨fun h => absurd hrefused h, fun _ => rfl⟩
    · rw [if_neg hrefused]
      refine ⟨fun _ => ?_, fun h => absurd hrefused h⟩
      dsimp only
      rw [mbrSlots_places rfl, hidx]
      exact filterMap_take_numbers _ htail
  · exact ⟨fun h => absurd h.1 Bool.false_ne_true, fun _ => rfl⟩

end Slots

/-! ## The condition -/

section Condition

variable {t : Ecma119Image} {flag : Nat} {init : List Int} {m : MbrArguments} {st : Assessment}
  {x : BootImage × Nat}

theorem mem_placesOf {images : List (BootImage × Nat)}
    (hsub : ∀ y ∈ images, y ∈ t.bootimages.zipIdx) {place : BootImage × Nat → Option (Nat × Nat)}
    (hx : x ∈ t.bootimages.zipIdx) (p : Nat × Nat) :
    (x.2, p) ∈ placesOf place images ↔ x ∈ images ∧ place x = some p := by
  rw [placesOf, List.mem_filterMap]
  constructor
  · rintro ⟨y, hy, heq⟩
    obtain ⟨q, hq, hpair⟩ := Option.map_eq_some_iff.mp heq
    obtain ⟨hsame, rfl⟩ := Prod.mk.inj hpair
    have hget := List.mem_zipIdx_iff_getElem?.mp hx
    rw [← hsame, List.mem_zipIdx_iff_getElem?.mp (hsub y hy)] at hget
    obtain rfl : y = x := Prod.ext (Option.some.inj hget) hsame
    exact ⟨hy, hq⟩
  · rintro ⟨hx, hp⟩
    exact ⟨x, hx, by rw [hp]; rfl⟩

theorem gptPlaces_iff (hst : Assessed t flag init st) (hx : x ∈ t.bootimages.zipIdx)
    (p : Nat × Nat) :
    (x.2, p) ∈ gptPlaces st ↔ (marked t x ∧ flag &&& 1 ≠ 0 ∧ x.1.src.isPresent) ∧
      (x.1.src.startBlock.toNat * 4, x.1.src.blockCount.toNat * 4) = p := by
  rw [hst.gpt, mem_placesOf (fun _ h => h) hx, and_iff_right hx, gptPlace,
    Option.ite_none_right_eq_some, Option.some.injEq]

theorem apmPlaces_iff (hst : Assessed t flag init st) (hx : x ∈ t.bootimages.zipIdx)
    (p : Nat × Nat) :
    (x.2, p) ∈ apmPlaces st ↔ (forApm flag x ∧ flag &&& 1 ≠ 0 ∧ x.1.src.isPresent) ∧
      (x.1.src.startBlock.toNat, x.1.src.blockCount.toNat) = p := by
  rw [hst.apm, mem_placesOf (fun _ h => h) hx, and_iff_right hx, apmPlace,
    Option.ite_none_right_eq_some, Option.some.injEq]

theorem mbrPlaces_iff (hx : x ∈ t.bootimages.zipIdx) (p : Nat × Nat) :
    (x.2, p) ∈ mbrPlaces (m.slots t) ↔
      m.Possible t ∧ x ∈ (markedImages t).take m.freeParts ∧ mbrPlace x = some p := by
  by_cases hpossible : m.Possible t
  · have hsub (y) (hy : y ∈ (markedImages t).take m.freeParts) : y ∈ t.bootimages.zipIdx :=
      mem_zipIdx_of_marked (List.mem_of_mem_take hy)
    rw [and_iff_right hpossible, (slots_places m).1 hpossible, mem_placesOf hsub hx]
  · rw [(slots_places m).2 hpossible]
    exact iff_of_false List.not_mem_nil fun h => hpossible h.1

theorem mbrPlace_eq_some {p : Nat × Nat} (hp : mbrPlace x = some p) : ∃ first rest,
    x.1.src = .file first rest ∧ ((first.block * 4).toNat, hdBlocks first.size) = p := by
  rw [mbrPlace] at hp
  split at hp
  next first rest hsrc => exact ⟨first, rest, hsrc, Option.some.inj hp⟩
  next => cases hp

theorem fits_of_absent {src : BootSrc} (habsent : ¬ src.isPresent) : src.FitsFullBlocks := by
  cases src with
  | outside => trivial
  | appended start size => exact absurd rfl habsent
  | file first rest => exact absurd rfl habsent

/-- The array lists the marked images unless its next number looks like an index. -/
theorem listed_iff (hst : Assessed t flag init st) :
    (st.gptIdx.take st.gptCount).filter (0 ≤ ·) = numbers (markedImages t) ↔
      (markedImages t ≠ [] → flag &&& 4 = 0 → ∀ idx ∈ init[(markedImages t).length]?, idx < 0) := by
  have hnumbers : (numbers (markedImages t)).filter (0 ≤ ·) = numbers (markedImages t) := by
    refine List.filter_eq_self.mpr fun idx hidx => ?_
    obtain ⟨x, -, rfl⟩ := List.mem_map.mp hidx
    exact decide_eq_true (Int.natCast_nonneg x.2)
  by_cases hoverall : Overall t flag
  · rw [hst.counted hoverall, List.filter_append, hnumbers, List.append_right_eq_self,
      List.filter_eq_nil_iff, imp_iff_right hoverall.1, imp_iff_right hoverall.2]
    refine forall_congr' fun idx => imp_congr Option.mem_toList ?_
    rw [decide_eq_true_iff, Int.not_le]
  · rw [hst.plain hoverall]
    exact iff_of_true hnumbers fun hsome hflag => absurd ⟨hsome, hflag⟩ hoverall

theorem right_of_fits (hst : Assessed t flag init st) (hfits : Fits t flag init m) :
    PartitionsRight t st (m.slots t) where
  gpt x hx p hp := by
    obtain ⟨⟨hmarked, hflag, hpresent⟩, rfl⟩ := (gptPlaces_iff hst hx p).mp hp
    exact (covered_gpt_iff hpresent).mpr (hfits.registered hflag x hx (Or.inl hmarked))
  apm x hx p hp := by
    obtain ⟨⟨hforApm, hflag, hpresent⟩, rfl⟩ := (apmPlaces_iff hst hx p).mp hp
    exact (covered_apm_iff hpresent).mpr (hfits.registered hflag x hx (Or.inr hforApm))
  mbr x hx p hp := by
    obtain ⟨hpossible, hshown, hplace⟩ := (mbrPlaces_iff hx p).mp hp
    obtain ⟨first, rest, hsrc, rfl⟩ := mbrPlace_eq_some hplace
    have hfirst := (hfits.shown hpossible x hshown).1
    rw [hsrc] at hfirst ⊢
    exact covered_mbr_iff.mpr hfirst
  agree x hx p q hp hq := by
    obtain ⟨⟨hmarked, hflag, -⟩, rfl⟩ := (gptPlaces_iff hst hx p).mp hp
    obtain ⟨hpossible, hshown, hplace⟩ := (mbrPlaces_iff hx q).mp hq
    obtain ⟨first, rest, hsrc, rfl⟩ := mbrPlace_eq_some hplace
    obtain ⟨hfirst, hsame⟩ := hfits.shown hpossible x hshown
    have hfull := hfits.registered hflag x hx (Or.inl hmarked)
    have hnumber := hsame hflag
    rw [hsrc] at hfirst hnumber hfull ⊢
    rw [blockCount_toNat]
    exact (agree_iff hfull hfirst).mpr hnumber
  listed := (listed_iff hst).mpr hfits.array

theorem fits_of_partitionsRight (hst : Assessed t flag init st)
    (hright : PartitionsRight t st (m.slots t)) : Fits t flag init m where
  registered hflag x hx hwanted := by
    by_cases hpresent : x.1.src.isPresent
    · rcases hwanted with hmarked | hforApm
      · have hp := (gptPlaces_iff hst hx _).mpr ⟨⟨hmarked, hflag, hpresent⟩, rfl⟩
        have hcovered := hright.gpt x hx _ hp
        exact (covered_gpt_iff hpresent).mp hcovered
      · have hp := (apmPlaces_iff hst hx _).mpr ⟨⟨hforApm, hflag, hpresent⟩, rfl⟩
        have hcovered := hright.apm x hx _ hp
        exact (covered_apm_iff hpresent).mp hcovered
    · exact fits_of_absent hpresent
  shown hpossible x hshown := by
    have hmarked := List.mem_of_mem_take hshown
    have hx := mem_zipIdx_of_marked hmarked
    cases hsrc : x.1.src with
    | appended start size => exact ⟨trivial, fun _ => trivial⟩
    | outside => exact ⟨trivial, fun _ => trivial⟩
    | file first rest =>
      have hq := (@mbrPlaces_iff t m x hx _).mpr ⟨hpossible, hshown, by rw [mbrPlace, hsrc]⟩
      have hcovered := hright.mbr x hx _ hq
      rw [hsrc] at hcovered
      have hfirst := covered_mbr_iff.mp hcovered
      refine ⟨hfirst, fun hflag => ?_⟩
      have hpresent : x.1.src.isPresent := by rw [hsrc]; rfl
      have hp := (gptPlaces_iff hst hx _).mpr
        ⟨⟨(List.mem_filter.mp hmarked).2, hflag, hpresent⟩, rfl⟩
      have hcovers := hright.gpt x hx _ hp
      have hfull := (covered_gpt_iff hpresent).mp hcovers
      have hagree := hright.agree x hx _ _ hp hq
      rw [hsrc] at hfull
      rw [hsrc, blockCount_toNat] at hagree
      exact (agree_iff hfull hfirst).mp hagree
  array := (listed_iff hst).mp hright.listed

theorem fits_of_right (hlen : init.length = 128) (h : Right t flag init m) :
    Fits t flag init m := by
  obtain ⟨st, hst, hright⟩ := h
  obtain ⟨st', hst', hassessed⟩ := assessIsohybridGptApm_assessed t flag hlen
  cases hst.symm.trans hst'
  exact fits_of_partitionsRight hassessed hright

end Condition

/-- Registration and MBR are right if and only if the sizes fit. The array has 128 elements. -/
theorem partitions_right_iff (t : Ecma119Image) (flag : Nat) (gptIdx : List Int) (m : MbrArguments)
    (hlen : gptIdx.length = 128) : Right t flag gptIdx m ↔ Fits t flag gptIdx m := by
  refine ⟨fits_of_right hlen, fun hfits => ?_⟩
  obtain ⟨st, hst, hassessed⟩ := assessIsohybridGptApm_assessed t flag hlen
  exact ⟨st, hst, right_of_fits hassessed hfits⟩

/-- An ISOLINUX image of one block and an EFI image at block 50, which gets into the GPT. -/
def efiImage (size : UInt32) : Ecma119Image :=
  { bootimages := [⟨1, .file ⟨40, 2048⟩ []⟩, ⟨4, .file ⟨50, size⟩ []⟩]
    few := Nat.le_of_ble_eq_true rfl
    appendedAsGpt := false
    partitionOffset := 0
    isoGptTypeGuid := none
    systemAreaOptions := 2
    optsSystemAreaOptions := 2
    postIsoPartPad := 0
    templatePrepared := true }

/-- An EFI image of two blocks fits. -/
theorem blocks_right : Right (efiImage 4096) 1 (List.replicate 128 (-1)) ⟨1000, 0, 1, 0, 1⟩ :=
  (partitions_right_iff _ _ _ _ List.length_replicate).mpr
    { registered := fun _ x hx _ => by
        rcases List.mem_cons.mp hx with rfl | hx
        · intro s hs _
          cases List.mem_singleton.mp hs
          decide
        · cases List.mem_singleton.mp hx
          intro s hs _
          cases List.mem_singleton.mp hs
          decide
      shown := fun _ x hx => by
        cases List.mem_singleton.mp hx
        exact ⟨⟨by decide, fun s hs => nomatch hs⟩, fun _ => rfl⟩
      array := fun _ _ idx hidx => by
        cases Option.mem_some_iff.mp hidx
        decide }

/-- The partition of an EFI image of 1000 bytes is empty. -/
theorem bytes_uncovered :
    ¬ Right (efiImage 1000) 1 (List.replicate 128 (-1)) ⟨1000, 0, 1, 0, 1⟩ := by
  intro hright
  have h := (fits_of_right List.length_replicate hright).registered (by decide)
    (⟨4, .file ⟨50, 1000⟩ []⟩, 1) (List.mem_cons_of_mem _ (List.mem_singleton.mpr rfl)) (Or.inl rfl)
  exact absurd (h ⟨50, 1000⟩ (List.mem_singleton.mpr rfl) (by decide)).2 (by decide)

end IsohybridPartitions
