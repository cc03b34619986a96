import Libisofs.SystemAreaWrites

/-!
# The structures of the System Area do not collide

The APM comes first, and the array of GPT entries fills the rest of the 32 KiB. Only Block0 of
the APM shares its 512 bytes with the Master Boot Record.
-/

namespace SystemAreaApart

open CLibrary PartitionRequests ApmMbr Gpt GptBlocks OverwritePass RewriteMaps RewriteGpt
open LoggedComputations SystemAreaWrites

section Layouts

/-- The places of the structures. -/
structure Layout where
  apmBlockSize : Nat
  apmEntries : Nat
  gptPartStart : Nat
  gptEntries : Nat
  le_blockSize : 512 ≤ apmBlockSize
  apm_fits : (apmEntries + 1) * apmBlockSize ≤ 32768
  gpt_fits : 0 < gptEntries → 2 ≤ gptPartStart ∧ 512 * gptPartStart + 128 * gptEntries ≤ 32768
  behind_apm : 0 < gptEntries → 0 < apmEntries →
    1024 ≤ apmBlockSize ∧ (apmEntries + 1) * apmBlockSize ≤ 512 * gptPartStart

/-- The write is at the place of its structure. -/
def Layout.Placed (l : Layout) (w : Write) : Prop :=
  match w.part with
  | .mbr => w.offset + w.size ≤ 512
  | .apmBlock0 => w.offset + w.size ≤ 512
  | .gptHeader => 0 < l.gptEntries ∧ w.offset = 512 ∧ w.size = 512
  | .apmEntry i => i < l.apmEntries ∧ w.offset = (i + 1) * l.apmBlockSize ∧
      w.size = l.apmBlockSize
  | .gptEntry i => i < l.gptEntries ∧ w.offset = 512 * l.gptPartStart + 128 * i ∧ w.size = 128
  | .otherSystem => True

def Apart (w w' : Write) : Prop :=
  w.offset + w.size ≤ w'.offset ∨ w'.offset + w'.size ≤ w.offset

def InBlock0 (w : Write) : Prop :=
  (w.part = .mbr ∨ w.part = .apmBlock0) ∧ w.offset + w.size ≤ 512

/-- The structures in the order of their places. -/
def rank : Part → Nat
  | .mbr => 0
  | .apmBlock0 => 0
  | .gptHeader => 1
  | .apmEntry _ => 2
  | .gptEntry _ => 3
  | .otherSystem => 4

variable {l : Layout} {w w' : Write} {i j : Nat}

theorem block_end (size : Nat) (h : i < j) : (i + 1) * size + size ≤ (j + 1) * size := by
  have hle := Nat.mul_le_mul_right size (show i + 2 ≤ j + 1 by omega)
  rw [show i + 2 = i + 1 + 1 by rfl, Nat.add_mul (i + 1)] at hle
  omega

theorem Layout.Placed.inBlock0 (h : l.Placed w) (hrank : rank w.part = 0) : InBlock0 w := by
  obtain ⟨part, offset, size⟩ := w
  cases part with
  | mbr => exact ⟨Or.inl rfl, h⟩
  | apmBlock0 => exact ⟨Or.inr rfl, h⟩
  | _ => cases hrank

/-- Where the structures of a rank begin and end. -/
def Layout.zone (l : Layout) : Part → Nat × Nat
  | .gptHeader => (512, 1024)
  | .apmEntry _ => (l.apmBlockSize, (l.apmEntries + 1) * l.apmBlockSize)
  | .gptEntry _ => (512 * l.gptPartStart, 512 * l.gptPartStart + 128 * l.gptEntries)
  | _ => (0, 512)

def Layout.Used (l : Layout) : Part → Prop
  | .gptHeader => 0 < l.gptEntries
  | .apmEntry _ => 0 < l.apmEntries
  | .gptEntry _ => 0 < l.gptEntries
  | .otherSystem => False
  | _ => True

theorem Layout.Placed.used (h : l.Placed w) (hpc : w.part ≠ .otherSystem) : l.Used w.part := by
  obtain ⟨part, offset, size⟩ := w
  cases part with
  | mbr => trivial
  | apmBlock0 => trivial
  | gptHeader => exact h.1
  | apmEntry i => exact Nat.zero_lt_of_lt h.1
  | gptEntry i => exact Nat.zero_lt_of_lt h.1
  | otherSystem => exact absurd rfl hpc

theorem Layout.Placed.in_zone (h : l.Placed w) (hpc : w.part ≠ .otherSystem) :
    (l.zone w.part).1 ≤ w.offset ∧ w.offset + w.size ≤ (l.zone w.part).2 := by
  obtain ⟨part, offset, size⟩ := w
  cases part with
  | mbr => exact ⟨Nat.zero_le _, h⟩
  | apmBlock0 => exact ⟨Nat.zero_le _, h⟩
  | gptHeader =>
    obtain ⟨-, hoffset, hsize⟩ := h
    exact ⟨hoffset.ge, (congrArg₂ Nat.add hoffset hsize).le⟩
  | apmEntry i =>
    obtain ⟨hi, hoffset, hsize⟩ := h
    simp only at hoffset hsize
    rw [hoffset, hsize]
    exact ⟨Nat.le_mul_of_pos_left _ (Nat.succ_pos i), block_end l.apmBlockSize hi⟩
  | gptEntry i =>
    obtain ⟨hi, hoffset, hsize⟩ := h
    simp only [zone] at hoffset hsize ⊢
    omega
  | otherSystem => exact absurd rfl hpc

theorem zone_fits {p : Part} (h : l.Used p) : (l.zone p).2 ≤ 32768 := by
  cases p with
  | apmEntry i => exact l.apm_fits
  | gptEntry i => exact (l.gpt_fits h).2
  | otherSystem => cases h
  | _ => simp only [Layout.zone, Nat.reduceLeDiff]

/-- The structures of a rank end before those of the next rank begin. -/
theorem zones_ordered {p p' : Part} (h : l.Used p) (h' : l.Used p') (hrank : rank p < rank p') :
    (l.zone p).2 ≤ (l.zone p').1 := by
  cases p' with
  | mbr => cases hrank
  | apmBlock0 => cases hrank
  | otherSystem => cases h'
  | gptHeader =>
    cases p with
    | mbr => exact le_rfl
    | apmBlock0 => exact le_rfl
    | otherSystem => cases h
    | _ => simp [rank] at hrank
  | apmEntry j =>
    cases p with
    | mbr => exact l.le_blockSize
    | apmBlock0 => exact l.le_blockSize
    | gptHeader => exact (l.behind_apm h h').1
    | otherSystem => cases h
    | _ => simp [rank] at hrank
  | gptEntry j =>
    obtain ⟨hstart, -⟩ := l.gpt_fits h'
    cases p with
    | apmEntry i => exact (l.behind_apm h' h).2
    | gptEntry i => simp [rank] at hrank
    | otherSystem => cases h
    | _ =>
      simp only [Layout.zone]
      omega

/-- Entries of a table are apart from each other. -/
theorem Layout.Placed.entries (h : l.Placed w) (h' : l.Placed w')
    (hrank : rank w.part = rank w'.part) (hne : w.part ≠ w'.part) :
    Apart w w' ∨ InBlock0 w ∧ InBlock0 w' := by
  by_cases hzero : rank w.part = 0
  · exact Or.inr ⟨h.inBlock0 hzero, h'.inBlock0 (hrank ▸ hzero)⟩
  · left
    obtain ⟨part, offset, size⟩ := w
    obtain ⟨part', offset', size'⟩ := w'
    cases part with
    | mbr => exact absurd rfl hzero
    | apmBlock0 => exact absurd rfl hzero
    | gptHeader =>
      cases part' with
      | gptHeader => exact absurd rfl hne
      | _ => cases hrank
    | otherSystem =>
      cases part' with
      | otherSystem => exact absurd rfl hne
      | _ => cases hrank
    | apmEntry i =>
      cases part' with
      | apmEntry j =>
        obtain ⟨-, hoffset, hlength⟩ := h
        obtain ⟨-, hoffset', hlength'⟩ := h'
        simp only at hoffset hlength hoffset' hlength'
        have hij : i ≠ j := fun heq => hne (congrArg Part.apmEntry heq)
        rcases Nat.lt_or_gt_of_ne hij with hlt | hlt
        · have hend := block_end l.apmBlockSize hlt
          left
          simp only
          omega
        · have hend := block_end l.apmBlockSize hlt
          right
          simp only
          omega
      | _ => cases hrank
    | gptEntry i =>
      cases part' with
      | gptEntry j =>
        obtain ⟨-, hoffset, hlength⟩ := h
        obtain ⟨-, hoffset', hlength'⟩ := h'
        simp only at hoffset hlength hoffset' hlength'
        have hij : i ≠ j := fun heq => hne (congrArg Part.gptEntry heq)
        rw [Apart]
        simp only
        omega
      | _ => cases hrank

/-- Writes for different structures do not overlap, unless both are in block 0. All of them
are in the System Area. Other systems than PC do not count. -/
structure NoCollision (log : List Write) : Prop where
  inside : ∀ w ∈ log, w.part ≠ .otherSystem → w.offset + w.size ≤ 32768
  apart : ∀ w ∈ log, ∀ w' ∈ log, w.part ≠ .otherSystem → w'.part ≠ .otherSystem →
    w.part ≠ w'.part → Apart w w' ∨ InBlock0 w ∧ InBlock0 w'

theorem noCollision_of_placed {log : List Write} (h : ∀ w ∈ log, l.Placed w) :
    NoCollision log := by
  constructor
  case inside =>
    intro w hw hpc
    exact ((h w hw).in_zone hpc).2.trans (zone_fits ((h w hw).used hpc))
  case apart =>
    intro w hw w' hw' hpc hpc' hne
    have hused := (h w hw).used hpc
    have hused' := (h w' hw').used hpc'
    obtain ⟨hbegin, hend⟩ := (h w hw).in_zone hpc
    obtain ⟨hbegin', hend'⟩ := (h w' hw').in_zone hpc'
    rcases lt_trichotomy (rank w.part) (rank w'.part) with hlt | heq | hgt
    · exact Or.inl (Or.inl (hend.trans ((zones_ordered hused hused' hlt).trans hbegin')))
    · exact (h w hw).entries (h w' hw') heq hne
    · exact Or.inl (Or.inr (hend'.trans ((zones_ordered hused' hused hgt).trans hbegin)))

end Layouts

section BootRecord

/-- The write stays in block 0, or is for another system. -/
def OnlyBlock0 (w : Write) : Prop := w.part = .otherSystem ∨ InBlock0 w

variable {setup : Setup} {findings : Findings} {t : Ecma119Image} {boot : Boot} {w : Write}

theorem OnlyBlock0.placed (h : OnlyBlock0 w) (l : Layout) : l.Placed w := by
  rw [Layout.Placed]
  rcases h with hother | ⟨hpart | hpart, hend⟩
  · simp only [hother]
  · simp only [hpart, hend]
  · simp only [hpart, hend]

@[simp] theorem onlyBlock0_mbrWrite {offset size : Nat} :
    OnlyBlock0 (mbrWrite offset size) ↔ offset + size ≤ 512 := by
  simp [OnlyBlock0, InBlock0, mbrWrite]

@[simp] theorem onlyBlock0_block0 {offset size : Nat} :
    OnlyBlock0 ⟨.apmBlock0, offset, size⟩ ↔ offset + size ≤ 512 := by
  simp [OnlyBlock0, InBlock0]

@[simp] theorem onlyBlock0_otherSystem {offset size : Nat} :
    OnlyBlock0 ⟨.otherSystem, offset, size⟩ := Or.inl rfl

theorem writeMbrPartitionEntry_block0 {partitionNumber : Nat} (h : partitionNumber ≤ 4) :
    ∀ w ∈ writeMbrPartitionEntry partitionNumber, OnlyBlock0 w := by
  intro w hw
  rcases List.mem_pair.mp hw with rfl | rfl
  · rw [onlyBlock0_mbrWrite]
    omega
  · rw [onlyBlock0_mbrWrite]

theorem writeSunPartitionEntry_block0 {partitionNumber : Nat} :
    ∀ w ∈ writeSunPartitionEntry partitionNumber, OnlyBlock0 w := by
  simp [writeSunPartitionEntry]

theorem makeGrubMsdosLabel_block0 : Emits OnlyBlock0 makeGrubMsdosLabel := by
  simp [makeGrubMsdosLabel]

theorem makeIsolinuxMbr_block0 : Emits OnlyBlock0 (makeIsolinuxMbr setup findings t) := by
  have hhead : Emits OnlyBlock0 (insertApmHead setup findings) := by
    rw [insertApmHead]
    split
    · exact emits_pure _
    · split
      · simp
      · exact emits_fail _
  have htable : Emits OnlyBlock0
      (Logged.record [mbrWrite 446 64, mbrWrite 510 2] : Run Unit) := by simp
  rw [makeIsolinuxMbr]
  split
  · split
    · refine Emits.bind hhead fun _ _ => Emits.bind ?_ fun _ _ => htable
      simp
    · exact htable
  · exact emits_fail _

theorem writeIsolinux_block0 : Emits OnlyBlock0 (writeIsolinux setup findings t) := by
  rw [writeIsolinux]
  split
  · exact emits_fail _
  · refine Emits.bind makeIsolinuxMbr_block0 fun _ _ => ?_
    split
    · exact emits_pure _
    · exact emits_pure _

theorem writeOtherSystem_block0 : Emits OnlyBlock0 (writeOtherSystem setup) := by
  refine Emits.bind ?_ fun _ _ => Emits.bind (emits_silent _) fun _ _ => emits_pure _
  rw [emits_record]
  intro w hw
  obtain ⟨range, -, rfl⟩ := List.mem_map.mp hw
  exact onlyBlock0_otherSystem

theorem ensureMbr_block0 : Emits OnlyBlock0 (ensureMbr setup findings t) := by
  have hfirst : Emits OnlyBlock0 (Logged.record (writeMbrPartitionEntry 1) : Run Unit) :=
    emits_record.mpr (writeMbrPartitionEntry_block0 (by decide))
  have htable : Emits OnlyBlock0 (isoEnsureMbrPartTable findings) := by
    rw [isoEnsureMbrPartTable]
    split
    next slot _ => exact emits_record.mpr (writeMbrPartitionEntry_block0 (by omega))
    next => exact makeGrubMsdosLabel_block0
  refine Emits.bind htable fun _ _ => ?_
  split
  · exact Emits.bind hfirst fun _ _ => emits_pure _
  · split
    · exact Emits.bind hfirst fun _ _ => emits_pure _
    · exact emits_pure _

theorem writeBootRecord_block0 : Emits OnlyBlock0 (writeBootRecord setup findings t) := by
  rw [writeBootRecord]
  split
  · split
    · exact emits_pure _
    · refine Emits.bind makeGrubMsdosLabel_block0 fun _ _ => ?_
      split
      · exact emits_pure _
      · exact emits_pure _
  split
  · exact writeIsolinux_block0
  split
  · exact writeOtherSystem_block0
  split
  · exact ensureMbr_block0
  · exact emits_pure _

theorem adjustProtective_block0 : Emits OnlyBlock0 (adjustProtective findings t boot) := by
  rw [adjustProtective]
  split
  · exact Emits.bind (emits_record.mpr (writeMbrPartitionEntry_block0 (by decide)))
      fun _ _ => emits_pure _
  · exact emits_pure _

theorem offsetPartition_block0 : Emits OnlyBlock0 (offsetPartition t boot) := by
  rw [offsetPartition]
  split
  · rw [isoOffsetPartitionStart, emits_record]
    split
    · simp
    · simp
  · exact emits_pure _

theorem writeAppended_block0 {numbers : List Nat}
    (hrange : saType t ≠ 3 → ∀ i ∈ numbers, i < 4) :
    Emits OnlyBlock0 (writeAppended setup t numbers) := by
  induction numbers with
  | nil => exact emits_pure _
  | cons i rest ih =>
    have hrest := ih fun hsa k hk => hrange hsa k (List.mem_cons_of_mem i hk)
    rw [writeAppended]
    split
    · exact hrest
    split
    · exact emits_fail _
    · refine Emits.bind (emits_record.mpr ?_) fun _ _ => hrest
      split
      next => exact writeSunPartitionEntry_block0
      next hsa => exact writeMbrPartitionEntry_block0 (hrange hsa i List.mem_cons_self)

theorem appendPartitions_block0 : Emits OnlyBlock0 (appendPartitions setup t) := by
  rw [appendPartitions]
  split
  · refine writeAppended_block0 fun hsa i hi => ?_
    rw [partRange, isoTellMaxPartRange, if_neg hsa, List.mem_range'] at hi
    obtain ⟨k, hk, rfl⟩ := hi
    omega
  · exact emits_pure _

theorem patchGrub2_block0 : Emits OnlyBlock0 (patchGrub2 setup t) := by
  rw [patchGrub2]
  split
  · split
    · simp
    · exact emits_fail _
  · exact emits_pure _

theorem preventEe_block0 : Emits OnlyBlock0 (preventEe setup findings t boot) := by
  rw [preventEe]
  split
  · rw [emits_record]
    intro w hw
    obtain ⟨slot, -, rfl⟩ := List.mem_map.mp hw
    have hslot := slot.isLt
    rw [onlyBlock0_mbrWrite]
    omega
  · exact emits_pure _

theorem setActive_block0 : Emits OnlyBlock0 (setActive findings t) := by
  have hslot (slot : Fin 4) (size : Nat) (h : size ≤ 16) :
      Emits OnlyBlock0 (Logged.record [mbrWrite (446 + 16 * slot) size] : Run Unit) := by
    rw [emits_record]
    intro w hw
    rw [List.mem_singleton.mp hw, onlyBlock0_mbrWrite]
    omega
  rw [setActive]
  split
  · split
    · exact hslot _ 1 (by decide)
    · split
      · rw [isoDummyMbrPartition]
        split
        · exact hslot _ 16 (by decide)
        · exact hslot _ 1 (by decide)
      · exact emits_pure _
  · exact emits_pure _

theorem finishBootRecord_block0 : Emits OnlyBlock0 (finishBootRecord setup findings t) :=
  Emits.bind writeBootRecord_block0 fun _ _ => Emits.bind adjustProtective_block0 fun _ _ =>
    Emits.bind offsetPartition_block0 fun _ _ => Emits.bind appendPartitions_block0 fun _ _ =>
      Emits.bind patchGrub2_block0 fun _ _ => Emits.bind preventEe_block0 fun _ _ =>
        setActive_block0

end BootRecord

section Tables

variable {libc : Qsort} {guids : Nat → Guid} {setup : Setup} {g g' : Target} {t t' : Ecma119Image}
  {imgBlocks : UInt32} {flag : Nat}

theorem ofBoot_ok {α : Type} {x : Except BootError α} {a : α} :
    (ofBoot x).result = .ok a ↔ x = .ok a := by
  cases x with
  | error e => simp [ofBoot, Logged.silent, Except.mapError]
  | ok b => simp [ofBoot, Logged.silent, Except.mapError]

/-- A table which gets written if its outcome is good. -/
theorem written_ok {α : Type} {x : Except BootError α} {writes : α → List Write}
    {image : α → Ecma119Image} :
    (ofBoot x >>= fun out => Logged.record (writes out) >>= fun _ => pure (image out)).result =
      .ok t' ↔ ∃ out, x = .ok out ∧ image out = t' := by
  simp only [Logged.result_bind_eq_ok, ofBoot_ok, Logged.result_record, Logged.result_pure,
    Except.ok.injEq, exists_const, true_and]

theorem mem_written {α : Type} {x : Except BootError α} {writes : α → List Write}
    {image : α → Ecma119Image} {w : Write} :
    w ∈ (ofBoot x >>= fun out => Logged.record (writes out) >>= fun _ => pure (image out)).log ↔
      ∃ out, x = .ok out ∧ w ∈ writes out := by
  have hsilent : (ofBoot x).log = [] := rfl
  simp only [Logged.mem_log_bind, hsilent, List.not_mem_nil, false_or, ofBoot_ok,
    Logged.log_record, Logged.log_pure, and_false, exists_false, or_false]

theorem length_describeMap {mapEntries : Nat} (inRange : 1 + mapEntries < 2 ^ 32)
    (reqs : List ApmPartitionRequest) :
    (describeMap mapEntries inRange reqs).length = reqs.length := by
  cases reqs with
  | nil => rfl
  | cons first rest => rfl

/-- What the writing of the map does to the image and to the System Area. -/
structure ApmWritten (t : Ecma119Image) (out : ApmOutcome) : Prop where
  image : out.image = { t with opts := out.image.opts, apmReq := out.image.apmReq }
  entries : out.entries.length = out.image.apmReq.length
  fewer : out.image.apmReq.length ≤ t.apmReq.length
  fits : (out.entries.length + 1) * (sized t).opts.apmBlockSize ≤ 32768
  blockSize : t.apmReq ≠ [] → out.image.opts.apmBlockSize = (sized t).opts.apmBlockSize

theorem isoWriteApm_written {out : ApmOutcome} (h : isoWriteApm t imgBlocks flag = .ok out) :
    ApmWritten t out := by
  have himage := (isoWriteApm_image h).1
  rw [isoWriteApm] at h
  split at h
  next hnil =>
    obtain rfl := Except.ok.inj h
    constructor
    case image => exact himage
    case entries => exact (congrArg List.length hnil).symm
    case fewer => exact le_rfl
    case fits =>
      simp only [List.length_nil, Nat.zero_add, Nat.one_mul]
      rcases apmBlockSize_cases t with hsize | hsize
      · omega
      · omega
    case blockSize => exact fun hne => absurd hnil hne
  next =>
    have hroom : (((careForLast (sized t) imgBlocks).length + 1) *
        (sized t).opts.apmBlockSize) ≤ 32768 := by
      rw [writeAdjustedApm] at h
      split at h
      next => cases h
      next hsize => exact Nat.not_lt.mp hsize
    obtain ⟨hmap, hsized, hentries⟩ := writeAdjustedApm_ok h
    have hlength : out.entries.length = (careForLast (sized t) imgBlocks).length := by
      rw [hentries, List.length_mapIdx, length_describeMap]
    constructor
    case image => exact himage
    case entries =>
      rw [hlength, hsized]
      exact (length_describeMap hmap _).symm
    case fewer =>
      rw [hsized]
      exact (length_describeMap hmap _).le.trans careForLast_length_le
    case fits =>
      rw [hlength]
      exact hroom
    case blockSize =>
      intro _
      rw [hsized]

/-- The request is still there. Only the one for the map itself gets another start. -/
structure ApmKept (i : Nat) (r r' : ApmPartitionRequest) : Prop where
  name : r'.name = r.name
  type : r'.type = r.type
  start : 0 < i → r'.startBlock = r.startBlock

theorem describeMap_kept {mapEntries : Nat} (hmap : 1 + mapEntries < 2 ^ 32)
    {reqs : List ApmPartitionRequest} {i : Nat} {r : ApmPartitionRequest}
    (hr : reqs[i]? = some r) :
    ∃ r', (describeMap mapEntries hmap reqs)[i]? = some r' ∧ ApmKept i r r' := by
  cases reqs with
  | nil => cases hr
  | cons first rest =>
    cases i with
    | zero =>
      obtain rfl := Option.some.inj hr
      exact ⟨_, rfl, rfl, rfl, fun hpos => absurd hpos (lt_irrefl 0)⟩
    | succ i => exact ⟨r, hr, rfl, rfl, fun _ => rfl⟩

theorem isoWriteApm_kept {out : ApmOutcome} (h : isoWriteApm t imgBlocks flag = .ok out) {i : Nat}
    {r : ApmPartitionRequest} (hr : (keptReq t imgBlocks)[i]? = some r) :
    ∃ r', out.image.apmReq[i]? = some r' ∧ ApmKept i r r' := by
  have hlabels := @careForLast_kept t imgBlocks _ (fun r => (r.startBlock, r.name, r.type))
    fun _ _ _ => rfl
  have hlabel := congrArg (·[i]?) hlabels
  simp only [List.getElem?_map, hr, Option.map_some] at hlabel
  obtain ⟨r1, hr1, heq⟩ := Option.map_eq_some_iff.mp hlabel
  obtain ⟨hstart, hname, htype⟩ : r1.startBlock = r.startBlock ∧ r1.name = r.name ∧
      r1.type = r.type := by simpa using heq
  rw [isoWriteApm] at h
  split at h
  next hnil => simp [careForLast, sized, hnil, adjustLast] at hr1
  next =>
    obtain ⟨hmap, himage, -⟩ := writeAdjustedApm_ok h
    obtain ⟨r', hr', hkept⟩ := describeMap_kept hmap hr1
    rw [himage]
    exact ⟨r', hr', hkept.name.trans hname, hkept.type.trans htype,
      fun hpos => (hkept.start hpos).trans hstart⟩

/-- What the writing of the GPT does, if one is requested. -/
structure GptWritten (t : Ecma119Image) (out : GptOutcome) : Prop where
  ret : out.ret ≠ 2
  fewer : t.gptReq.length ≤ out.image.gptReq.length
  kept : ∀ r ∈ t.gptReq, ∃ guid, { r with partitionGuid := guid } ∈ out.image.gptReq
  slots : out.slots.length = t.gptMaxEntries
  room : out.image.gptReq.length ≤ t.gptMaxEntries
  pos : 0 < t.gptMaxEntries

theorem length_requests {guidsMade : Nat} {reqs : List GptPartitionRequest} :
    (writeGptEntries guids t guidsMade reqs).2.1.length = reqs.length := by
  induction reqs generalizing guidsMade with
  | nil => rfl
  | cons r rest ih => exact congrArg (· + 1) ih

/-- A request gets a GUID at most. -/
theorem mem_requests {guidsMade : Nat} {reqs : List GptPartitionRequest} {r : GptPartitionRequest}
    (hr : r ∈ reqs) : ∃ guid,
      { r with partitionGuid := guid } ∈ (writeGptEntries guids t guidsMade reqs).2.1 := by
  induction reqs generalizing guidsMade with
  | nil => cases hr
  | cons q rest ih =>
    rcases List.mem_cons.mp hr with rfl | hlater
    · exact ⟨_, List.mem_cons_self⟩
    · obtain ⟨guid, hmem⟩ := @ih (isoWriteGptEntry guids t guidsMade q).2.2 hlater
      exact ⟨guid, List.mem_cons_of_mem _ hmem⟩

theorem isoWriteGpt_written {out : GptOutcome} (hne : t.gptReq ≠ [])
    (h : isoWriteGpt libc guids t imgBlocks = .ok out) : GptWritten t out := by
  obtain ⟨copies, fillers, merged⟩ := merged_of_isoWriteGpt hne h
  have hperm : (mergedReq libc t copies fillers).Perm (t.gptReq ++ copies ++ fillers) :=
    mergedReq_perm
  have hfewer : t.gptReq.length ≤ out.image.gptReq.length := by
    rw [merged.image_eq, length_requests, hperm.length_eq, List.length_append, List.length_append]
    omega
  have hkept : ∀ r ∈ t.gptReq, ∃ guid, { r with partitionGuid := guid } ∈ out.image.gptReq := by
    intro r hr
    rw [merged.image_eq]
    exact mem_requests (hperm.mem_iff.mpr (List.mem_append_left _ (List.mem_append_left _ hr)))
  have hlength : out.image.gptReq.length = out.entries.length := by
    rw [merged.image_eq, merged.entries_eq, GptGapless.length_writeGptEntries, length_requests]
  have hroom : out.entries.length ≤ t.gptMaxEntries := by
    rw [merged.entries_eq, GptGapless.length_writeGptEntries]
    exact merged.room
  have hsome : 0 < t.gptReq.length := List.length_pos_iff.mpr hne
  have hcount := merged.entries_length
  rw [List.length_append] at hcount
  rw [isoWriteGpt, if_neg hne] at h
  simp only [Results.bind_eq_ok] at h
  obtain ⟨copied, -, filled, -, hwrite⟩ := h
  split at hwrite
  next => cases hwrite
  next hfew =>
    obtain rfl := Except.ok.inj hwrite
    constructor
    case ret => exact show (1 : Int) ≠ 2 by decide
    case fewer => exact hfewer
    case kept => exact hkept
    case slots =>
      rw [List.length_append, List.length_map, List.length_replicate,
        GptGapless.length_writeGptEntries]
      exact Nat.add_sub_cancel' (Nat.not_lt.mp hfew)
    case room => exact hlength.le.trans hroom
    case pos => omega

/-- The GPT array begins behind the map, if there is one. -/
structure Planned (g : Target) : Prop where
  start : g.image.gptMaxEntries ≠ 0 → 2 ≤ g.gptPartStart ∧
    512 * g.gptPartStart + 128 * g.image.gptMaxEntries ≤ 32768
  behind_apm : g.image.gptMaxEntries ≠ 0 → g.image.apmReq ≠ [] →
    g.image.opts.apmBlockSize = 2048 ∧
      (g.image.apmReq.length + 1) * 2048 ≤ 512 * g.gptPartStart

/-- The places when the map is written. -/
theorem exists_layout (planned : Planned g) {out : ApmOutcome} (h : ApmWritten g.image out) :
    ∃ l : Layout, l.apmBlockSize = (sized g.image).opts.apmBlockSize ∧
      l.apmEntries = out.entries.length ∧ l.gptPartStart = g.gptPartStart ∧
      l.gptEntries = g.image.gptMaxEntries := by
  refine ⟨⟨(sized g.image).opts.apmBlockSize, out.entries.length, g.gptPartStart,
    g.image.gptMaxEntries, ?_, h.fits, ?_, ?_⟩, rfl, rfl, rfl, rfl⟩
  · have hsize := apmBlockSize_cases g.image
    omega
  · exact fun hpos => planned.start (Nat.ne_of_gt hpos)
  · intro hpos hentries
    have hfewer := h.entries.le.trans h.fewer
    have hne : g.image.apmReq ≠ [] := List.length_pos_iff.mp (Nat.lt_of_lt_of_le hentries hfewer)
    obtain ⟨hsize, hbehind⟩ := planned.behind_apm (Nat.ne_of_gt hpos) hne
    have hblock : (sized g.image).opts.apmBlockSize = 2048 := by
      rw [sized, chooseApmBlockSize]
      simp only [hsize]
      rfl
    rw [hblock]
    omega

theorem apmWrites_placed {l : Layout} {out : ApmOutcome}
    (hentries : l.apmEntries = out.entries.length)
    (hsize : out.entries ≠ [] → out.image.opts.apmBlockSize = l.apmBlockSize) :
    ∀ w ∈ apmWrites out, l.Placed w := by
  intro w hw
  rcases List.mem_append.mp hw with hblock | hentry
  · split at hblock
    · rw [List.mem_singleton.mp hblock]
      exact show 0 + 8 ≤ 512 by decide
    · cases hblock
  · obtain ⟨i, hi, rfl⟩ := List.mem_mapIdx.mp hentry
    have hsome : out.entries ≠ [] := List.length_pos_iff.mp (Nat.zero_lt_of_lt hi)
    rw [hsize hsome]
    exact ⟨hentries ▸ hi, rfl, rfl⟩

theorem gptWrites_placed {l : Layout} {out : GptOutcome} (hret : out.ret ≠ 2)
    (hslots : out.slots.length = l.gptEntries) (hpos : 0 < l.gptEntries) :
    ∀ w ∈ gptWrites l.gptPartStart out, l.Placed w := by
  intro w hw
  rw [gptWrites, if_neg hret] at hw
  rcases List.mem_append.mp hw with hentry | hheader
  · obtain ⟨i, hi, rfl⟩ := List.mem_mapIdx.mp hentry
    exact ⟨hslots ▸ hi, rfl, rfl⟩
  · rw [List.mem_singleton.mp hheader]
    exact ⟨hpos, rfl, rfl⟩

theorem mbrWrites_block0 {out : MbrOutcome} (h : isoWriteMbr t imgBlocks = .ok out) :
    ∀ w ∈ (out.slots.mapIdx slotWrites).flatten, OnlyBlock0 w := by
  have hfour : out.slots.length ≤ 4 := by
    rw [isoWriteMbr] at h
    split at h
    next =>
      obtain rfl := Except.ok.inj h
      exact Nat.zero_le 4
    next =>
      simp only [Results.bind_eq_ok] at h
      obtain ⟨mbrReq, -, slots1, -, slots2, -, heq⟩ := h
      obtain rfl := Except.ok.inj heq
      exact (List.length_map _).le
  intro w hw
  obtain ⟨writes, hwrites, hw⟩ := List.mem_flatten.mp hw
  obtain ⟨i, hi, rfl⟩ := List.mem_mapIdx.mp hwrites
  rcases List.mem_cons.mp hw with rfl | hsignature
  · rw [onlyBlock0_mbrWrite]
    omega
  · split at hsignature
    · rw [List.mem_singleton.mp hsignature, onlyBlock0_mbrWrite]
    · cases hsignature

/-- The outcomes behind the records. -/
theorem writeTables_log {w : Write} (h : w ∈ (writeTables libc guids setup g).log) :
    ∃ apm, isoWriteApm g.image g.image.volSpaceSize (apmFlag setup g.image) = .ok apm ∧
      (w ∈ apmWrites apm ∨
        ∃ mbr, isoWriteMbr apm.image g.image.volSpaceSize = .ok mbr ∧
          (w ∈ (mbr.slots.mapIdx slotWrites).flatten ∨
            ∃ gpt, isoWriteGpt libc guids mbr.image setup.gptBlocks = .ok gpt ∧
              w ∈ gptWrites g.gptPartStart gpt)) := by
  rw [writeTables] at h
  split at h
  next => cases h
  next =>
    rcases Logged.mem_log_bind.mp h with hw | ⟨t1, hok, hw⟩
    · obtain ⟨apm, hapm, hw⟩ := mem_written.mp hw
      exact ⟨apm, hapm, Or.inl hw⟩
    obtain ⟨apm, hapm, rfl⟩ := written_ok.mp hok
    refine ⟨apm, hapm, Or.inr ?_⟩
    rcases Logged.mem_log_bind.mp hw with hw | ⟨t2, hok, hw⟩
    · obtain ⟨mbr, hmbr, hw⟩ := mem_written.mp hw
      exact ⟨mbr, hmbr, Or.inl hw⟩
    obtain ⟨mbr, hmbr, rfl⟩ := written_ok.mp hok
    refine ⟨mbr, hmbr, Or.inr ?_⟩
    split at hw
    next => cases hw
    next =>
      rcases Logged.mem_log_bind.mp hw with hw | ⟨t3, -, hw⟩
      · exact mem_written.mp hw
      · cases hw

/-- The three tables have been written. -/
structure TablesWritten (libc : Qsort) (guids : Nat → Guid) (setup : Setup) (g g' : Target)
    (apm : ApmOutcome) (mbr : MbrOutcome) (gpt : GptOutcome) : Prop where
  writeApm : isoWriteApm g.image g.image.volSpaceSize (apmFlag setup g.image) = .ok apm
  writeMbr : isoWriteMbr apm.image g.image.volSpaceSize = .ok mbr
  writeGpt : isoWriteGpt libc guids mbr.image setup.gptBlocks = .ok gpt
  target : g' = ⟨gpt.image, g.gptPartStart⟩
  apmLogged : ∀ w ∈ apmWrites apm, w ∈ (writeTables libc guids setup g).log
  mbrLogged : ∀ w ∈ (mbr.slots.mapIdx slotWrites).flatten,
    w ∈ (writeTables libc guids setup g).log
  gptLogged : ∀ w ∈ gptWrites g.gptPartStart gpt, w ∈ (writeTables libc guids setup g).log

theorem writeTables_ok (h : (writeTables libc guids setup g).result = .ok g') :
    ∃ apm mbr gpt, TablesWritten libc guids setup g g' apm mbr gpt := by
  rw [writeTables] at h
  split at h
  next => cases h
  next hiso =>
    obtain ⟨t1, hok1, h⟩ := Logged.result_bind_eq_ok.mp h
    obtain ⟨apm, hapm, rfl⟩ := written_ok.mp hok1
    obtain ⟨t2, hok2, h⟩ := Logged.result_bind_eq_ok.mp h
    obtain ⟨mbr, hmbr, rfl⟩ := written_ok.mp hok2
    split at h
    next => cases h
    next hsa =>
      obtain ⟨t3, hok3, h⟩ := Logged.result_bind_eq_ok.mp h
      obtain ⟨gpt, hgpt, rfl⟩ := written_ok.mp hok3
      refine ⟨apm, mbr, gpt, ?_⟩
      constructor
      case writeApm => exact hapm
      case writeMbr => exact hmbr
      case writeGpt => exact hgpt
      case target => exact (Except.ok.inj h).symm
      case apmLogged =>
        intro w hw
        rw [writeTables, if_neg hiso]
        exact Logged.mem_log_bind.mpr (Or.inl (mem_written.mpr ⟨apm, hapm, hw⟩))
      case mbrLogged =>
        intro w hw
        rw [writeTables, if_neg hiso]
        refine Logged.mem_log_bind.mpr (Or.inr ⟨_, hok1, ?_⟩)
        exact Logged.mem_log_bind.mpr (Or.inl (mem_written.mpr ⟨mbr, hmbr, hw⟩))
      case gptLogged =>
        intro w hw
        rw [writeTables, if_neg hiso]
        refine Logged.mem_log_bind.mpr (Or.inr ⟨_, hok1, ?_⟩)
        refine Logged.mem_log_bind.mpr (Or.inr ⟨_, hok2, ?_⟩)
        rw [if_neg hsa]
        exact Logged.mem_log_bind.mpr (Or.inl (mem_written.mpr ⟨gpt, hgpt, hw⟩))

/-- A layout for a run without tables. -/
def emptyLayout : Layout where
  apmBlockSize := 2048
  apmEntries := 0
  gptPartStart := 2
  gptEntries := 0
  le_blockSize := by decide
  apm_fits := by decide
  gpt_fits := fun h => absurd h (lt_irrefl 0)
  behind_apm := fun h => absurd h (lt_irrefl 0)

/-- Whatever the tables have come to, they are at their places. -/
theorem writeTables_placed (planned : Planned g) :
    ∃ l : Layout, Emits l.Placed (writeTables libc guids setup g) := by
  cases hapm : isoWriteApm g.image g.image.volSpaceSize (apmFlag setup g.image) with
  | error e =>
    refine ⟨emptyLayout, fun w hw => ?_⟩
    obtain ⟨apm, hok, -⟩ := writeTables_log hw
    cases hapm.symm.trans hok
  | ok apm =>
    have hwritten := isoWriteApm_written hapm
    obtain ⟨l, hsize, hentries, hstart, hgptEntries⟩ := exists_layout planned hwritten
    refine ⟨l, fun w hw => ?_⟩
    obtain ⟨apm', hok, hw⟩ := writeTables_log hw
    obtain rfl := Except.ok.inj (hok.symm.trans hapm)
    rcases hw with hw | ⟨mbr, hmbr, hw | ⟨gpt, hgpt, hw⟩⟩
    · refine apmWrites_placed hentries (fun hsome => ?_) w hw
      have hfewer := hwritten.entries.le.trans hwritten.fewer
      have hpos := List.length_pos_iff.mpr hsome
      rw [hsize]
      exact hwritten.blockSize (List.length_pos_iff.mp (Nat.lt_of_lt_of_le hpos hfewer))
    · exact (mbrWrites_block0 hmbr w hw).placed l
    · have himage : mbr.image.gptMaxEntries = g.image.gptMaxEntries := by
        rw [isoWriteMbr_image hmbr, hwritten.image]
      by_cases hne : mbr.image.gptReq = []
      · rw [isoWriteGpt, if_pos hne] at hgpt
        obtain rfl := Except.ok.inj hgpt
        rw [gptWrites, if_pos rfl] at hw
        cases hw
      · have hgptWritten := isoWriteGpt_written hne hgpt
        rw [← hstart] at hw
        refine gptWrites_placed hgptWritten.ret ?_ ?_ w hw
        · rw [hgptWritten.slots, himage, hgptEntries]
        · rw [hgptEntries, ← himage]
          exact hgptWritten.pos

theorem isoWriteSystemArea_placed {findings : Findings} (planned : Planned g) :
    ∃ l : Layout, Emits l.Placed (isoWriteSystemArea libc guids setup findings g) := by
  obtain ⟨l, htables⟩ := @writeTables_placed libc guids setup g planned
  refine ⟨l, ?_⟩
  rw [isoWriteSystemArea]
  split
  · split
    · refine Emits.bind ?_ fun _ _ => emits_pure _
      rw [emits_record]
      intro w hw
      rw [List.mem_singleton.mp hw]
      exact OnlyBlock0.placed (onlyBlock0_mbrWrite.mpr le_rfl) l
    · exact emits_fail _
  · refine Emits.bind htables fun g1 _ => Emits.bind ?_ fun _ _ => emits_pure _
    exact fun w hw => (finishBootRecord_block0 w hw).placed l

end Tables

section Runs

variable {libc : Qsort} {guids : Nat → Guid} {setup : Setup} {findings : Findings}
  {g g' : Target} {t t' : Ecma119Image} {curblock : UInt32} {place : BackupPlace}

theorem chooseApmBlockSize_of_2048 {opts : IsoWriteOpts} (h : opts.apmBlockSize = 2048) :
    (chooseApmBlockSize opts).apmBlockSize = 2048 := by
  rw [chooseApmBlockSize]
  simp only [h]
  rfl

/-- GPT and APM together need a block size of 2048. -/
theorem rectifyApm_blockSize (h : rectifyApm libc t curblock = .ok t') (hgpt : t'.gptReq ≠ [])
    (hapm : t'.apmReq ≠ []) : t'.opts.apmBlockSize = 2048 := by
  rw [rectifyApm_gptReq h] at hgpt
  rw [rectifyApm] at h
  split at h
  next hnil =>
    obtain rfl := Except.ok.inj h
    exact absurd hnil hapm
  next =>
    split at h
    next => cases h
    next hsize =>
      have h2048 : t.opts.apmBlockSize = 2048 := by
        by_contra hne
        exact hsize ⟨hgpt, hne⟩
      rw [fillApmGaps] at h
      simp only [Results.bind_eq_ok] at h
      obtain ⟨apmReq, -, filled, -, heq⟩ := h
      obtain rfl := Except.ok.inj heq
      simp only
      split
      · exact chooseApmBlockSize_of_2048 h2048
      · exact h2048

/-- Requests which need more room than there is get refused. -/
theorem precomputeGpt_ok {apmReqCount apmBlockSize : Nat} {plan : GptPlan}
    (h : precomputeGpt apmReqCount apmBlockSize = .ok plan) (hsize : apmBlockSize = 2048)
    (hcount : 0 < apmReqCount) : (apmReqCount + 1) * 2048 ≤ 512 * plan.gptPartStart := by
  have hfour : (apmReqCount + 1) * (2048 / 512) = 4 * (apmReqCount + 1) := Nat.mul_comm _ _
  rw [precomputeGpt, hsize] at h
  simp only [if_pos hcount, OfNat.ofNat_ne_zero, if_false, hfour] at h
  split at h
  next => omega
  next =>
    split at h
    next =>
      obtain rfl := Except.ok.inj h
      simp only
      omega
    next => cases h

theorem precompute_planned (h : precompute libc t curblock place = .ok g) : Planned g := by
  rw [precompute] at h
  simp only [Results.bind_eq_ok] at h
  obtain ⟨t1, hrectify, h⟩ := h
  split at h
  next =>
    obtain rfl := Except.ok.inj h
    exact ⟨fun hne => absurd rfl hne, fun hne => absurd rfl hne⟩
  next hgpt =>
    simp only [Results.bind_eq_ok] at h
    obtain ⟨plan, hplan, heq⟩ := h
    obtain rfl := Except.ok.inj heq
    constructor
    case start =>
      intro _
      have htwo := plan.two_le
      have hlt := plan.lt_end
      simp only [sizeGpt, GptPlan.maxEntries]
      omega
    case behind_apm =>
      intro _ hapm
      have hsize := rectifyApm_blockSize hrectify hgpt hapm
      constructor
      · simp only [sizeGpt]
        split
        · exact hsize
        · exact chooseApmBlockSize_of_2048 hsize
      · exact precomputeGpt_ok hplan hsize (List.length_pos_iff.mpr hapm)

/-- Neither the writing nor the deletion of fillers enlarges the map. -/
theorem Planned.shrink (h : Planned g) (hstart : g'.gptPartStart = g.gptPartStart)
    (hmax : g'.image.gptMaxEntries = g.image.gptMaxEntries)
    (hfewer : g'.image.apmReq.length ≤ g.image.apmReq.length)
    (hsize : g.image.apmReq ≠ [] → g.image.opts.apmBlockSize = 2048 →
      g'.image.opts.apmBlockSize = 2048) : Planned g' := by
  constructor
  case start =>
    rw [hstart, hmax]
    exact h.start
  case behind_apm =>
    intro hne hsome
    have hpos := List.length_pos_iff.mpr hsome
    have hold : g.image.apmReq ≠ [] := List.length_pos_iff.mp (Nat.lt_of_lt_of_le hpos hfewer)
    obtain ⟨hblock, hbehind⟩ := h.behind_apm (hmax ▸ hne) hold
    have hcount := Nat.mul_le_mul_right 2048 (Nat.add_le_add_right hfewer 1)
    exact ⟨hsize hold hblock, hstart.symm ▸ hcount.trans hbehind⟩

theorem TablesWritten.planned {apm : ApmOutcome} {mbr : MbrOutcome} {gpt : GptOutcome}
    (h : TablesWritten libc guids setup g g' apm mbr gpt) (planned : Planned g) : Planned g' := by
  have hwritten := isoWriteApm_written h.writeApm
  have himage : gpt.image = { g.image with
      opts := apm.image.opts
      apmReq := apm.image.apmReq
      mbrReq := mbr.image.mbrReq
      gptReq := gpt.image.gptReq
      guidsMade := gpt.image.guidsMade } := by
    rw [isoWriteGpt_image h.writeGpt, isoWriteMbr_image h.writeMbr, hwritten.image]
  have hapm : gpt.image.apmReq = apm.image.apmReq := by rw [himage]
  have hopts : gpt.image.opts = apm.image.opts := by rw [himage]
  rw [h.target]
  refine planned.shrink rfl ?_ ?_ ?_
  · simp only
    rw [himage]
  · exact (congrArg List.length hapm).le.trans hwritten.fewer
  · intro hsome h2048
    have hsize := chooseApmBlockSize_of_2048 h2048
    exact (congrArg _ hopts).trans ((hwritten.blockSize hsome).trans hsize)

/-- A run which has succeeded: without template there are no tables. -/
theorem isoWriteSystemArea_ok
    (h : (isoWriteSystemArea libc guids setup findings g).result = .ok g') :
    g' = g ∧ hasBuiltinTemplate setup g.image = true ∨
      hasBuiltinTemplate setup g.image = false ∧
        (writeTables libc guids setup g).result = .ok g' ∧
          ∀ w ∈ (writeTables libc guids setup g).log,
            w ∈ (isoWriteSystemArea libc guids setup findings g).log := by
  cases hbuiltin : hasBuiltinTemplate setup g.image with
  | true =>
    rw [isoWriteSystemArea, if_pos hbuiltin] at h
    split at h
    next =>
      obtain ⟨-, -, heq⟩ := Logged.result_bind_eq_ok.mp h
      exact Or.inl ⟨(Except.ok.inj heq).symm, rfl⟩
    next => cases h
  | false =>
    have hnot : ¬ hasBuiltinTemplate setup g.image = true := by
      rw [hbuiltin]
      decide
    rw [isoWriteSystemArea, if_neg hnot] at h ⊢
    obtain ⟨g1, htables, hrest⟩ := Logged.result_bind_eq_ok.mp h
    obtain ⟨-, -, heq⟩ := Logged.result_bind_eq_ok.mp hrest
    obtain rfl := Except.ok.inj heq
    exact Or.inr ⟨rfl, htables, fun w hw => Logged.mem_log_bind.mpr (Or.inl hw)⟩

theorem planned_of_reached (h : Reached libc guids g) : Planned g := by
  induction h with
  | created t hmax => exact ⟨fun hne => absurd hmax hne, fun hne => absurd hmax hne⟩
  | computed t curblock place hok => exact precompute_planned hok
  | written setup findings _ hok ih =>
    rcases isoWriteSystemArea_ok hok with ⟨rfl, -⟩ | ⟨-, htables, -⟩
    · exact ih
    · obtain ⟨apm, mbr, gpt, hwritten⟩ := writeTables_ok htables
      exact hwritten.planned ih
  | deleted _ ih =>
    refine ih.shrink rfl rfl (List.length_filter_le _ _) fun _ h2048 => ?_
    exact h2048

/-- All entries of the tables which were requested before are in the record, except one for a
last APM request which does not begin inside the image. The requests are still there. -/
structure WholeTables (log : List Write) (g g' : Target) : Prop where
  apm : ∀ i r, (keptReq g.image g.image.volSpaceSize)[i]? = some r →
    ⟨.apmEntry i, (i + 1) * (sized g.image).opts.apmBlockSize,
      (sized g.image).opts.apmBlockSize⟩ ∈ log ∧
    ∃ r', g'.image.apmReq[i]? = some r' ∧ ApmKept i r r'
  mbr : g.image.mbrReq ≠ [] → ∀ i < 4, mbrWrite (446 + i * 16) 16 ∈ log
  gptRoom : g.image.gptReq ≠ [] → g.image.gptReq.length ≤ g.image.gptMaxEntries
  gptKept : ∀ r ∈ g.image.gptReq, ∃ guid, { r with partitionGuid := guid } ∈ g'.image.gptReq
  gptEntries : g.image.gptReq ≠ [] → ∀ i < g.image.gptMaxEntries,
    ⟨.gptEntry i, 512 * g.gptPartStart + 128 * i, 128⟩ ∈ log
  gptHeader : g.image.gptReq ≠ [] → ⟨.gptHeader, 512, 512⟩ ∈ log

theorem length_slots {out : MbrOutcome} {imgBlocks : UInt32}
    (h : isoWriteMbr t imgBlocks = .ok out) (hne : t.mbrReq ≠ []) : out.slots.length = 4 := by
  rw [isoWriteMbr, if_neg hne] at h
  simp only [Results.bind_eq_ok] at h
  obtain ⟨mbrReq, -, slots1, -, slots2, -, heq⟩ := h
  obtain rfl := Except.ok.inj heq
  exact List.length_map _

theorem TablesWritten.whole {apm : ApmOutcome} {mbr : MbrOutcome} {gpt : GptOutcome}
    (h : TablesWritten libc guids setup g g' apm mbr gpt) :
    WholeTables (writeTables libc guids setup g).log g g' := by
  have hwritten := isoWriteApm_written h.writeApm
  have hgpt := isoWriteGpt_image h.writeGpt
  have hmbr := isoWriteMbr_image h.writeMbr
  have hapmReq : gpt.image.apmReq = apm.image.apmReq := by rw [hgpt, hmbr]
  have hgptReq : mbr.image.gptReq = g.image.gptReq := by rw [hmbr, hwritten.image]
  have hmbrReq : apm.image.mbrReq = g.image.mbrReq := by rw [hwritten.image]
  have hmax : mbr.image.gptMaxEntries = g.image.gptMaxEntries := by rw [hmbr, hwritten.image]
  have hrequested (hne : g.image.gptReq ≠ []) : GptWritten mbr.image gpt :=
    isoWriteGpt_written (hgptReq ▸ hne) h.writeGpt
  rw [h.target]
  constructor
  case apm =>
    intro i r hr
    obtain ⟨r', hr', hkept⟩ := isoWriteApm_kept h.writeApm hr
    have hsome : g.image.apmReq ≠ [] := by
      intro hnil
      have := (List.getElem?_eq_some_iff.mp hr').1
      have := hwritten.fewer
      rw [hnil, List.length_nil] at this
      omega
    rw [← hwritten.blockSize hsome]
    refine ⟨h.apmLogged _ (List.mem_append_right _ ?_), r', hapmReq ▸ hr', hkept⟩
    exact List.mem_mapIdx.mpr
      ⟨i, hwritten.entries.symm ▸ (List.getElem?_eq_some_iff.mp hr').1, rfl⟩
  case mbr =>
    intro hne i hi
    have hfour := length_slots h.writeMbr (hmbrReq ▸ hne)
    refine h.mbrLogged _ (List.mem_flatten.mpr ?_)
    exact ⟨_, List.mem_mapIdx.mpr ⟨i, hfour.symm ▸ hi, rfl⟩, List.mem_cons_self⟩
  case gptRoom =>
    intro hne
    rw [← hmax, ← hgptReq]
    exact (hrequested hne).fewer.trans (hrequested hne).room
  case gptKept =>
    intro r hr
    exact (hrequested (List.ne_nil_of_mem hr)).kept r (hgptReq ▸ hr)
  case gptEntries =>
    intro hne i hi
    refine h.gptLogged _ ?_
    rw [gptWrites, if_neg (hrequested hne).ret]
    refine List.mem_append_left _ (List.mem_mapIdx.mpr ⟨i, ?_, rfl⟩)
    rw [(hrequested hne).slots, hmax]
    exact hi
  case gptHeader =>
    intro hne
    refine h.gptLogged _ ?_
    rw [gptWrites, if_neg (hrequested hne).ret]
    exact List.mem_append_right _ List.mem_cons_self

/-- Whether or not the writing succeeds, the structures do not collide. If it does, then all
requested tables are there as a whole. -/
theorem structures_apart (h : Reached libc guids g) (setup : Setup) (findings : Findings) :
    NoCollision (isoWriteSystemArea libc guids setup findings g).log ∧
      ∀ g', (isoWriteSystemArea libc guids setup findings g).result = .ok g' →
        hasBuiltinTemplate setup g.image = false →
          WholeTables (isoWriteSystemArea libc guids setup findings g).log g g' := by
  constructor
  · obtain ⟨l, hplaced⟩ := @isoWriteSystemArea_placed libc guids setup g findings
      (planned_of_reached h)
    exact noCollision_of_placed hplaced
  · intro g' hok hbuiltin
    rcases isoWriteSystemArea_ok hok with ⟨-, htrue⟩ | ⟨-, htables, hlogged⟩
    · cases hbuiltin.symm.trans htrue
    · obtain ⟨apm, mbr, gpt, hwritten⟩ := writeTables_ok htables
      have hwhole := hwritten.whole
      constructor
      case apm => exact fun i r hr => (hwhole.apm i r hr).imp_left (hlogged _)
      case mbr => exact fun hne i hi => hlogged _ (hwhole.mbr hne i hi)
      case gptRoom => exact hwhole.gptRoom
      case gptKept => exact hwhole.gptKept
      case gptEntries => exact fun hne i hi => hlogged _ (hwhole.gptEntries hne i hi)
      case gptHeader => exact fun hne => hlogged _ (hwhole.gptHeader hne)

open GptGapless

def plainSetup : Setup where
  hasSystemAreaData := false
  bootImages := []
  appendedPartitions := fun _ => false
  appendedAsGpt := false
  appendedAsApm := false
  haveAppendedPartitions := false
  isoMbrPartType := -1
  gptBlocks := 1000
  otherSystem := ([], .ok ())

def plainFindings : Findings where
  apmHeadPrepared := false
  foundPart := none
  firstIsProtective := false
  isProtective := fun _ => false
  hasActive := false
  activatable := none
  unusedSlot := none
  notEfiSlot := none

/-- With the map and its filler there are three entries, so that the array begins in block 16. -/
theorem even_apart : ∃ g g',
    precompute smallQsort evenImage 1000 ⟨1000, by decide, by decide⟩ = .ok g ∧
      g.gptPartStart = 16 ∧
      (isoWriteSystemArea smallQsort (fun _ => basicDataUuid) plainSetup plainFindings g).result =
        .ok g' ∧
      NoCollision (isoWriteSystemArea smallQsort (fun _ => basicDataUuid) plainSetup plainFindings
        g).log ∧
      WholeTables (isoWriteSystemArea smallQsort (fun _ => basicDataUuid) plainSetup plainFindings
        g).log g g' := by
  obtain ⟨g, g', hg, hstart, hplain, hok⟩ : ∃ g g', precompute smallQsort evenImage 1000
      ⟨1000, by decide, by decide⟩ = .ok g ∧ g.gptPartStart = 16 ∧
      hasBuiltinTemplate plainSetup g.image = false ∧
      (isoWriteSystemArea smallQsort (fun _ => basicDataUuid) plainSetup plainFindings g).result =
        .ok g' := ⟨_, _, rfl, rfl, rfl, rfl⟩
  obtain ⟨hapart, hwhole⟩ :=
    structures_apart (Reached.computed _ _ _ hg) plainSetup plainFindings
  exact ⟨g, g', hg, hstart, hok, hapart, hwhole g' hok hplain⟩

end Runs

end SystemAreaApart
