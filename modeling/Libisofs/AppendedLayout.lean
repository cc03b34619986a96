import Libisofs.AppendedPartitions
import Mathlib.Data.List.Nodup

/-!
# The layout of appended partitions

What gets reserved is what gets written. The partitions do not overlap if the last one ends
inside the range of 32 bit block numbers.
-/

namespace AppendedLayout

open ByteBuffers ReadIntervals AlignedLayout ConsecutiveLayout AppendedPartitions

section Writing

variable {t : Ecma119Image} {appended : List Appended} {blocks : List (List UInt8)}

theorem readBlocks_ok {n : Nat} {ivr : IntervalReader} {buf : Buffer}
    (h : readBlocks n ivr buf = .ok blocks) :
    blocks.length = n ∧ ∀ b ∈ blocks, b.length = blockSize := by
  induction n generalizing ivr buf blocks with
  | zero =>
    obtain rfl := Except.ok.inj h
    exact ⟨rfl, by simp⟩
  | succ n ih =>
    rw [readBlocks] at h
    split at h
    next => cases h
    next =>
      rw [Results.bind_eq_ok] at h
      obtain ⟨rest, hrest, heq⟩ := h
      obtain rfl := Except.ok.inj heq
      obtain ⟨hlength, hblocks⟩ := ih hrest
      refine ⟨by rw [List.length_cons, hlength], fun b hb => ?_⟩
      rcases List.mem_cons.mp hb with hfirst | hlater
      · rw [hfirst, length_slice]
      · exact hblocks b hlater

theorem length_padding {n : Nat} : ∀ b ∈ List.replicate n zeroBlock, b.length = blockSize := by
  intro b hb
  rw [List.eq_of_mem_replicate hb, zeroBlock, List.length_replicate]

theorem isoWritePartitionFile_ok {input : PartitionInput} {prepad size : UInt32}
    (h : isoWritePartitionFile t input prepad size = .ok blocks) :
    blocks.length = prepad.toNat + (if isKept t input then 0 else size.toNat) ∧
      ∀ b ∈ blocks, b.length = blockSize := by
  cases input with
  | diskFile regularSize opens content =>
    simp only [isoWritePartitionFile] at h
    split at h
    next => cases h
    next =>
      obtain rfl := Except.ok.inj h
      refine ⟨by simp [isKept], fun b hb => ?_⟩
      rcases List.mem_append.mp hb with hpad | hdata
      · exact length_padding b hpad
      · obtain ⟨k, -, rfl⟩ := List.mem_map.mp hdata
        rw [fileBlock, List.length_map, List.length_range]
  | intervals ivr =>
    simp only [isoWritePartitionFile, Results.bind_eq_ok] at h
    obtain ⟨reader, rfl, keep, hkeep, h⟩ := h
    have hkept : isKept t (.intervals (.ok reader)) = keep := by
      rw [isKept, hkeep]
      rfl
    rw [hkept]
    cases keep with
    | true =>
      obtain rfl := Except.ok.inj h
      exact ⟨by simp, length_padding⟩
    | false =>
      simp only [Bool.false_eq_true, if_false, Results.bind_eq_ok] at h
      obtain ⟨written, hwritten, heq⟩ := h
      obtain rfl := Except.ok.inj heq
      obtain ⟨hlength, hblocks⟩ := readBlocks_ok hwritten
      refine ⟨by simp [hlength], fun b hb => ?_⟩
      rcases List.mem_append.mp hb with hpad | hdata
      · exact length_padding b hpad
      · exact hblocks b hdata

/-- The number of blocks which get written for a partition number. -/
def writtenBlocks (t : Ecma119Image) (appended : List Appended) (i : Fin 8) : Nat :=
  match t.opts.appendedPartitions i with
  | none => 0
  | some input => (placement appended i).1.toNat +
      if isKept t input then 0 else (placement appended i).2.toNat

theorem writeLoop_ok {numbers : List (Fin 8)} (h : writeLoop t appended numbers = .ok blocks) :
    blocks.length = total (writtenBlocks t appended) numbers ∧
      ∀ b ∈ blocks, b.length = blockSize := by
  induction numbers generalizing blocks with
  | nil =>
    obtain rfl := Except.ok.inj h
    exact ⟨rfl, by simp⟩
  | cons i rest ih =>
    rw [writeLoop] at h
    rw [total_cons, writtenBlocks]
    cases hinput : t.opts.appendedPartitions i with
    | none =>
      rw [hinput] at h
      simpa using ih h
    | some input =>
      simp only [hinput, Results.bind_eq_ok] at h
      obtain ⟨first, hfirst, others, hothers, heq⟩ := h
      obtain rfl := Except.ok.inj heq
      obtain ⟨hlength, hblocks⟩ := isoWritePartitionFile_ok hfirst
      obtain ⟨hlength', hblocks'⟩ := ih hothers
      refine ⟨by rw [List.length_append, hlength, hlength'], fun b hb => ?_⟩
      rcases List.mem_append.mp hb with hmem | hmem
      · exact hblocks b hmem
      · exact hblocks' b hmem

theorem total_filter {α : Type} {len : α → Nat} {p : α → Bool} {l : List α}
    (h : ∀ a ∈ l, p a = false → len a = 0) : total len (l.filter p) = total len l := by
  induction l with
  | nil => rfl
  | cons a rest ih =>
    have hrest := ih fun b hb => h b (List.mem_cons_of_mem _ hb)
    by_cases hp : p a = true
    · rw [List.filter_cons_of_pos hp, total_cons, total_cons, hrest]
    · rw [List.filter_cons_of_neg hp, total_cons, hrest,
        h a List.mem_cons_self (by simpa using hp), Nat.zero_add]

theorem total_map {α β : Type} {len : β → Nat} {f : α → β} {l : List α} :
    total len (l.map f) = total (len ∘ f) l := by
  rw [total, total, List.map_map]

theorem placement_eq {a : Appended} (hnodup : (appended.map Appended.index).Nodup)
    (ha : a ∈ appended) : placement appended a.index = (a.prepad, a.size) := by
  have hfind : appended.find? (fun b => b.index = a.index) = some a := by
    cases hb : appended.find? fun b => b.index = a.index with
    | none => simpa using List.find?_eq_none.mp hb a ha
    | some b =>
      have hindex : b.index = a.index := by simpa using List.find?_some hb
      exact congrArg some (List.inj_on_of_nodup_map hnodup (List.mem_of_find?_eq_some hb) ha hindex)
  rw [placement, hfind]

end Writing

section Main

variable {t : Ecma119Image} {out : Ecma119Image × List Appended}

/-- What is expected of the reserved and of the written blocks. -/
structure LaidOut (t : Ecma119Image) (out : Ecma119Image × List Appended) : Prop where
  numbers : out.2.map Appended.index =
    (List.finRange 8).filter fun i => (t.opts.appendedPartitions i).isSome
  kept : ∀ a ∈ out.2, ∃ input, t.opts.appendedPartitions a.index = some input ∧
    a.keep = isKept t input
  behindIso : ∀ a ∈ added out.2, t.curblock.toNat ≤ a.start.toNat
  apart : (added out.2).Pairwise fun a b => a.index < b.index ∧ stop a ≤ b.start.toNat
  sunAligned : saType t = 3 → ∀ a ∈ added out.2, a.start.toNat % 160 = 0
  /-- Cylinders are counted in blocks of 512. -/
  cylinderAligned : saType t = 0 → cylAlign t = 3 →
    t.partitionHeadsPerCyl * t.partitionSecsPerHead % 4 = 0 → ∀ a ∈ added out.2,
    4 * a.start.toNat % (t.partitionHeadsPerCyl * t.partitionSecsPerHead) = 0 ∧
      4 * a.size.toNat % (t.partitionHeadsPerCyl * t.partitionSecsPerHead) = 0
  covered : ∀ a ∈ added out.2, ∃ input, t.opts.appendedPartitions a.index = some input ∧
    inputBytes input ≤ a.size.toNat * blockSize
  written : ∀ a ∈ added out.2, ∀ input blocks, t.opts.appendedPartitions a.index = some input →
    isoWritePartitionFile t input a.prepad a.size = .ok blocks →
      blocks.length = needed a ∧ ∀ b ∈ blocks, b.length = blockSize
  curblock : out.1.curblock.toNat = t.curblock.toNat + total needed (added out.2)
  totalSize : out.1.totalSize = t.totalSize + total needed (added out.2) * blockSize
  emitted : ∀ blocks, partappendWriterWriteData t out.2 = .ok blocks →
    blocks.length = total needed (added out.2) ∧ ∀ b ∈ blocks, b.length = blockSize

theorem Laid.facts {pos : Nat} {l : List Appended} (h : Laid t pos l) :
    (∀ a ∈ l, pos ≤ a.start.toNat ∧ (0 < startAlign t → a.start.toNat % startAlign t = 0) ∧
      ∃ input, t.opts.appendedPartitions a.index = some input ∧
        a.size.toNat = alignUp (sizeAlign t) (inputBlocks input)) ∧
      l.Pairwise fun a b => stop a ≤ b.start.toNat := by
  induction l generalizing pos with
  | nil => exact ⟨by simp, List.Pairwise.nil⟩
  | cons a rest ih =>
    obtain ⟨hstart, -, hinput, hrest⟩ := h
    obtain ⟨hfacts, hapart⟩ := ih hrest
    have hle := le_alignUp (startAlign t) pos
    refine ⟨fun b hb => ?_, List.pairwise_cons.mpr ⟨fun b hb => (hfacts b hb).1, hapart⟩⟩
    rcases List.mem_cons.mp hb with rfl | hlater
    · refine ⟨by omega, fun hpos => ?_, hinput⟩
      rw [hstart]
      exact alignUp_mod hpos pos
    · obtain ⟨hbehind, halign, hsize⟩ := hfacts b hlater
      rw [stop] at hbehind
      exact ⟨by omega, halign, hsize⟩

theorem cylSize_eq (hsa : saType t = 0) (halign : cylAlign t = 3)
    (hmod : t.partitionHeadsPerCyl * t.partitionSecsPerHead % 4 = 0) :
    4 * (cylSize t).toNat = t.partitionHeadsPerCyl * t.partitionSecsPerHead := by
  have hlt := t.geometry_lt
  rw [cylSize, if_pos ⟨hsa, halign⟩]
  simp only [hmod, ne_eq, not_true_eq_false, if_false]
  rw [UInt32.toNat_ofNat_of_lt' (by
    show t.partitionHeadsPerCyl * t.partitionSecsPerHead / 4 < 2 ^ 32
    omega)]
  omega

theorem mul_mod_eq_zero {align cyl n : Nat} (hcyl : 4 * align = cyl) (h : n % align = 0) :
    4 * n % cyl = 0 := by
  rw [← hcyl, Nat.mul_mod_mul_left, h, Nat.mul_zero]

theorem emitted_eq {new : List Appended} {st st' : Computing}
    (h : Advanced t (List.finRange 8) st st' new) {blocks : List (List UInt8)}
    (hwrite : partappendWriterWriteData t new = .ok blocks) :
    blocks.length = total needed (added new) ∧ ∀ b ∈ blocks, b.length = blockSize := by
  obtain ⟨hlength, hblocks⟩ := writeLoop_ok hwrite
  refine ⟨?_, hblocks⟩
  have hnodup : (new.map Appended.index).Nodup := by
    rw [h.numbers]
    exact (List.nodup_finRange 8).filter _
  -- only the partitions of the arrays get written
  have hpresent : (partitionRange t).filter (fun i => (t.opts.appendedPartitions i).isSome) =
      new.map Appended.index := by
    rw [h.numbers, partitionRange, List.filter_filter]
    refine List.filter_congr fun i hi => ?_
    cases hinput : (t.opts.appendedPartitions i).isSome with
    | false => rfl
    | true =>
      have hmem : i ∈ new.map Appended.index := by
        rw [h.numbers]
        exact List.mem_filter.mpr ⟨hi, hinput⟩
      obtain ⟨a, ha, rfl⟩ := List.mem_map.mp hmem
      simpa using h.inRange a ha
  have hwritten : ∀ a ∈ new, writtenBlocks t new a.index = if a.keep then 0 else needed a := by
    intro a ha
    obtain ⟨input, hinput, hkeep, hprepad⟩ := h.inputs a ha
    rw [writtenBlocks, hinput]
    simp only [placement_eq hnodup ha, ← hkeep]
    cases hcase : a.keep with
    | false => simp [needed]
    | true => simp [hprepad hcase]
  rw [hlength, ← total_filter (p := fun i => (t.opts.appendedPartitions i).isSome), hpresent,
    total_map, added]
  · have hsame : total (writtenBlocks t new ∘ Appended.index) new =
        total (fun a => if a.keep then 0 else needed a) new := by
      rw [total, total]
      exact congrArg List.sum (List.map_congr_left hwritten)
    rw [hsame, ← total_filter (p := fun a => !a.keep)]
    · rw [total, total]
      refine congrArg List.sum (List.map_congr_left fun a ha => ?_)
      have hkeep := (List.mem_filter.mp ha).2
      rw [Bool.not_eq_true'] at hkeep
      rw [hkeep]
      rfl
    · intro a _ hkeep
      rw [Bool.not_eq_false'] at hkeep
      rw [hkeep]
      rfl
  · intro i _ hnone
    rw [Option.isSome_eq_false_iff, Option.isNone_iff_eq_none] at hnone
    rw [writtenBlocks, hnone]

/-- Partitions which end inside the range of block numbers are laid out as they get written. -/
theorem laid_out (h : isoComputeAppendPartitions t true = .ok out)
    (hfits : partitionsEnd t t.curblock.toNat (List.finRange 8) < 2 ^ 32) : LaidOut t out := by
  simp only [isoComputeAppendPartitions, Results.bind_eq_ok] at h
  obtain ⟨st, hloop, heq⟩ := h
  obtain rfl := Except.ok.inj heq
  obtain ⟨new, hadvanced⟩ := computeLoop_advanced hloop rfl hfits
  have hnew : st.appended = new := hadvanced.appended
  obtain ⟨hfacts, hapart⟩ := Laid.facts hadvanced.laid
  constructor <;> simp only [hnew]
  case numbers => exact hadvanced.numbers
  case kept =>
    intro a ha
    obtain ⟨input, hinput, hkeep, -⟩ := hadvanced.inputs a ha
    exact ⟨input, hinput, hkeep⟩
  case behindIso => exact fun a ha => (hfacts a ha).1
  case apart =>
    have hindexes : (new.map Appended.index).Pairwise (· < ·) := by
      rw [hadvanced.numbers]
      exact List.Pairwise.filter _ (List.pairwise_lt_finRange 8)
    exact ((List.pairwise_map.mp hindexes).filter _).and hapart
  case sunAligned =>
    intro hsun a ha
    have halign := (hfacts a ha).2.1
    rw [startAlign, if_pos hsun] at halign
    exact halign (by decide)
  case cylinderAligned =>
    intro hsa halign hmod a ha
    have hcyl := cylSize_eq hsa halign hmod
    have hpos := t.geometry_pos
    obtain ⟨-, hstart, input, -, hsize⟩ := hfacts a ha
    rw [startAlign, if_neg (by omega)] at hstart
    refine ⟨mul_mod_eq_zero hcyl (hstart (by omega)), mul_mod_eq_zero hcyl ?_⟩
    rw [hsize, sizeAlign]
    exact alignUp_mod (by omega) _
  case covered =>
    intro a ha
    obtain ⟨-, -, input, hinput, hsize⟩ := hfacts a ha
    have hle := le_alignUp (sizeAlign t) (inputBlocks input)
    refine ⟨input, hinput, ?_⟩
    rw [inputBlocks] at hle hsize
    rw [blockSize]
    omega
  case written =>
    intro a ha input blocks hinput hwrite
    obtain ⟨hmem, hkeep⟩ := List.mem_filter.mp ha
    obtain ⟨input', hinput', hkeep', -⟩ := hadvanced.inputs a hmem
    obtain rfl := Option.some.inj (hinput.symm.trans hinput')
    obtain ⟨hlength, hblocks⟩ := isoWritePartitionFile_ok hwrite
    rw [Bool.not_eq_true'] at hkeep
    rw [← hkeep', hkeep] at hlength
    exact ⟨hlength, hblocks⟩
  case curblock => rw [hadvanced.curblock, hadvanced.pos]
  case totalSize => exact hadvanced.totalSize
  case emitted => exact fun blocks => emitted_eq hadvanced

end Main

section Instances

/-- Files of some sizes, to be appended behind an ISO filesystem of 1000 blocks. -/
def filesImage (options heads secs : Nat) (sizes : Fin 8 → Option Nat)
    (pos : 0 < heads * secs) (lt : heads * secs < 2 ^ 31) : Ecma119Image where
  opts := ⟨options, false, 0, -1, fun i => (sizes i).map fun size =>
    .diskFile (some size) true fun _ => 0⟩
  systemAreaOptions := options
  partitionHeadsPerCyl := heads
  partitionSecsPerHead := secs
  curblock := 1000
  totalSize := 1000 * 2048
  geometry_pos := pos
  geometry_lt := lt

/-- Alignment to cylinders of 512 blocks is requested for two files. -/
def alignedFiles : Ecma119Image :=
  filesImage 0x300 64 32 (fun i => if i < 2 then some (3000000 * (i + 1)) else none)
    (by decide) (by decide)

theorem alignedFiles_laid_out : ∃ out, isoComputeAppendPartitions alignedFiles true = .ok out ∧
    LaidOut alignedFiles out :=
  ⟨_, rfl, laid_out rfl (by decide)⟩

/-- A cylinder is not a whole number of blocks. -/
def oddCylinders : Ecma119Image :=
  filesImage 0x300 255 63 (fun i => if i = 0 then some 3000000 else none) (by decide) (by decide)

/-- Four files of the largest possible size. -/
def largeFiles : Ecma119Image :=
  filesImage 0 64 32 (fun i => if i < 4 then some (0x3fffffff * 2048) else none)
    (by decide) (by decide)

/-- Cylinder alignment is not obeyed, or the block numbers wrap around. -/
theorem files_not_laid_out :
    (∃ out, isoComputeAppendPartitions oddCylinders true = .ok out ∧ saType oddCylinders = 0 ∧
      cylAlign oddCylinders = 3 ∧ ∃ a ∈ added out.2, 4 * a.start.toNat %
        (oddCylinders.partitionHeadsPerCyl * oddCylinders.partitionSecsPerHead) ≠ 0) ∧
    ∃ out, isoComputeAppendPartitions largeFiles true = .ok out ∧ ¬ out.1.curblock.toNat =
      largeFiles.curblock.toNat + total needed (added out.2) := by
  constructor
  · exact ⟨_, rfl, rfl, rfl, _, List.mem_cons_self, by decide⟩
  · exact ⟨_, rfl, by decide⟩

end Instances

end AppendedLayout
