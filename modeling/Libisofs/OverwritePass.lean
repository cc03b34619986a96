import Libisofs.RewriteMaps
import Libisofs.RewriteGpt

/-!
# The overwrite pass

If a superblock for the start of the medium is wanted, then the System Area gets written
twice. In between the fillers get deleted. Those of the GPT come back with the second
writing, but those of the Apple Partition Map do not.
-/

namespace OverwritePass

open CLibrary PartitionRequests ApmMbr Gpt RewriteMaps RewriteGpt

/-- Dispose the requests which were placed automatically. -/
def isoDeleteGptApmFillers (target : Ecma119Image) : Ecma119Image :=
  { target with
    gptReq := target.gptReq.filter fun r => !r.filler
    apmReq := target.apmReq.filter fun r => !r.filler }

def saType (t : Ecma119Image) : Nat := t.systemAreaOptions / 4 % 64

/-- The entries which get sprinkled over the System Area. -/
structure PartitionTables where
  image : Ecma119Image
  apm : List ApmEntry
  mbr : List (Option MbrEntry)
  gpt : List GptEntry

/-- The part of `iso_write_system_area()` which deals with requests. Bit 0 of `apmFlag` is set
for the Block0 of isohybrid. -/
def writePartitionTables (libc : Qsort) (guids : Nat → Guid) (t : Ecma119Image)
    (imgBlocks gptBlocks : UInt32) (apmFlag : Nat) : Except BootError PartitionTables :=
  if saType t = 0 ∧ (t.systemAreaOptions % 4 = 2 ∨ t.opts.partLikeIsohybrid = true) ∧
      t.mbrReq ≠ [] then .error .mbrOverlap
  else do
    let apm ← isoWriteApm t imgBlocks apmFlag
    let mbr ← isoWriteMbr apm.image imgBlocks
    if mbr.image.mbrReq ≠ [] ∧ saType mbr.image ≠ 0 then .error .nonMbrSysArea
    else do
      let gpt ← isoWriteGpt libc guids mbr.image gptBlocks
      .ok ⟨gpt.image, apm.entries, mbr.slots, gpt.entries⟩

/-- The tables are the same apart from generated GUIDs. -/
structure SameTables (guids : Nat → Guid) (tables tables' : PartitionTables) : Prop where
  apm : tables'.apm = tables.apm
  mbr : tables'.mbr = tables.mbr
  gpt : SameGpt guids tables.gpt tables'.gpt

/-- The image when its GPT gets written: the last request of the map reaches up to the end
of the image, or is gone, and the first one describes the map. -/
def beforeGpt (t : Ecma119Image) (imgBlocks : UInt32) : Ecma119Image :=
  if hmap : 1 + (careForLast (sized t) imgBlocks).length < 2 ^ 32 then
    { sized t with apmReq := describeMap _ hmap (careForLast (sized t) imgBlocks) }
  else sized t

/-- The conditions under which the fillers are not missed, and nothing gets requested twice. -/
structure OverwriteHarmless (t : Ecma119Image) (imgBlocks : UInt32) : Prop where
  apm : ApmHarmless t imgBlocks
  mbr : MbrHarmless imgBlocks none t.mbrReq
  gpt : GptHarmless (beforeGpt t imgBlocks)

section Passes

variable {libc : Qsort} {guids : Nat → Guid} {t : Ecma119Image} {imgBlocks gptBlocks : UInt32}
  {apmFlag : Nat} {tables : PartitionTables}

theorem isoWriteApm_image {out : ApmOutcome} (h : isoWriteApm t imgBlocks apmFlag = .ok out) :
    out.image = { t with opts := out.image.opts, apmReq := out.image.apmReq } ∧
      out.image.opts.partLikeIsohybrid = t.opts.partLikeIsohybrid := by
  rw [isoWriteApm] at h
  split at h
  next =>
    obtain rfl := Except.ok.inj h
    exact ⟨rfl, rfl⟩
  next =>
    obtain ⟨hmap, himage, -⟩ := writeAdjustedApm_ok h
    rw [himage]
    exact ⟨rfl, rfl⟩

theorem apmFactor_sized : apmFactor (sized t) = apmFactor t := by
  have hopts : (sized t).opts.apmBlockSize =
      if t.opts.apmBlockSize = 0 then 2048 else t.opts.apmBlockSize := rfl
  have hflags : (sized t).apmReqFlags = t.apmReqFlags := rfl
  rw [apmFactor, apmFactor, hopts, hflags]
  by_cases hzero : t.opts.apmBlockSize = 0
  · simp [hzero]
  · rw [if_neg hzero]

/-- The writing of the map leaves what the GPT is made of. -/
theorem isoWriteApm_beforeGpt {out : ApmOutcome}
    (h : isoWriteApm t imgBlocks apmFlag = .ok out) :
    out.image.apmReq = (beforeGpt t imgBlocks).apmReq ∧
      apmFactor out.image = apmFactor (beforeGpt t imgBlocks) := by
  have hfactor : apmFactor (beforeGpt t imgBlocks) = apmFactor (sized t) := by
    rw [beforeGpt]
    split
    · rfl
    · rfl
  rw [isoWriteApm] at h
  split at h
  next hnil =>
    obtain rfl := Except.ok.inj h
    have hnone : careForLast (sized t) imgBlocks = [] := by
      have hle := @careForLast_length_le (sized t) imgBlocks
      rw [show (sized t).apmReq = [] from hnil] at hle
      exact List.eq_nil_of_length_eq_zero (Nat.le_zero.mp hle)
    constructor
    · rw [beforeGpt]
      split
      · rw [hnil]
        simp only [hnone, describeMap]
      · rfl
    · exact (hfactor.trans apmFactor_sized).symm
  next =>
    obtain ⟨hmap, himage, -⟩ := writeAdjustedApm_ok h
    constructor
    · rw [himage, beforeGpt, dif_pos hmap]
    · rw [himage, hfactor]
      rfl

theorem isoWriteMbr_image {out : MbrOutcome} (h : isoWriteMbr t imgBlocks = .ok out) :
    out.image = { t with mbrReq := out.image.mbrReq } := by
  rw [isoWriteMbr] at h
  split at h
  next =>
    obtain rfl := Except.ok.inj h
    rfl
  next =>
    simp only [Results.bind_eq_ok] at h
    obtain ⟨mbrReq, -, slots1, -, slots2, -, heq⟩ := h
    obtain rfl := Except.ok.inj heq
    rfl

/-- The three writings behind written tables. -/
structure Passed (libc : Qsort) (guids : Nat → Guid) (t : Ecma119Image)
    (imgBlocks gptBlocks : UInt32) (apmFlag : Nat) (tables : PartitionTables) (apm : ApmOutcome)
    (mbr : MbrOutcome) (gpt : GptOutcome) : Prop where
  noIsohybrid : ¬ (saType t = 0 ∧
    (t.systemAreaOptions % 4 = 2 ∨ t.opts.partLikeIsohybrid = true) ∧ t.mbrReq ≠ [])
  writeApm : isoWriteApm t imgBlocks apmFlag = .ok apm
  writeMbr : isoWriteMbr apm.image imgBlocks = .ok mbr
  isMbr : ¬ (mbr.image.mbrReq ≠ [] ∧ saType mbr.image ≠ 0)
  writeGpt : isoWriteGpt libc guids mbr.image gptBlocks = .ok gpt
  tables_eq : tables = ⟨gpt.image, apm.entries, mbr.slots, gpt.entries⟩

theorem passed_iff : writePartitionTables libc guids t imgBlocks gptBlocks apmFlag = .ok tables ↔
    ∃ apm mbr gpt, Passed libc guids t imgBlocks gptBlocks apmFlag tables apm mbr gpt := by
  rw [writePartitionTables]
  constructor
  · intro h
    split at h
    next => cases h
    next hiso =>
      simp only [Results.bind_eq_ok] at h
      obtain ⟨apm, hapm, mbr, hmbr, hrest⟩ := h
      split at hrest
      next => cases hrest
      next hsa =>
        simp only [Results.bind_eq_ok] at hrest
        obtain ⟨gpt, hgpt, heq⟩ := hrest
        exact ⟨apm, mbr, gpt, hiso, hapm, hmbr, hsa, hgpt, (Except.ok.inj heq).symm⟩
  · rintro ⟨apm, mbr, gpt, hiso, hapm, hmbr, hsa, hgpt, rfl⟩
    rw [if_neg hiso, hapm]
    simp only [bind, Except.bind, hmbr, if_neg hsa, hgpt]

theorem isoWriteMbr_nil {out : MbrOutcome} (h : isoWriteMbr t imgBlocks = .ok out)
    (hnil : t.mbrReq = []) : out.image.mbrReq = [] := by
  rw [isoWriteMbr, if_pos hnil] at h
  obtain rfl := Except.ok.inj h
  exact hnil

end Passes

section Twice

variable {libc : Qsort} {guids : Nat → Guid} {t : Ecma119Image} {imgBlocks gptBlocks : UInt32}
  {apmFlag : Nat} {tables : PartitionTables} {apm : ApmOutcome} {mbr : MbrOutcome}
  {gpt : GptOutcome}

/-- The gaps of the map are filled before the tables get written. -/
theorem rectifyApm_gptReq {curblock : UInt32} {t' : Ecma119Image}
    (h : rectifyApm libc t curblock = .ok t') : t'.gptReq = t.gptReq := by
  rw [rectifyApm] at h
  split at h
  next =>
    obtain rfl := Except.ok.inj h
    rfl
  next =>
    split at h
    next => cases h
    next =>
      rw [fillApmGaps] at h
      simp only [Results.bind_eq_ok] at h
      obtain ⟨apmReq, -, filled, -, heq⟩ := h
      obtain rfl := Except.ok.inj heq
      rfl

variable (passed : Passed libc guids t imgBlocks gptBlocks apmFlag tables apm mbr gpt)

include passed

theorem Passed.image_eq :
    tables.image = { t with
      opts := apm.image.opts
      apmReq := apm.image.apmReq
      mbrReq := mbr.image.mbrReq
      gptReq := gpt.image.gptReq
      guidsMade := gpt.image.guidsMade } := by
  rw [passed.tables_eq, isoWriteGpt_image passed.writeGpt, isoWriteMbr_image passed.writeMbr,
    (isoWriteApm_image passed.writeApm).1]

/-- The image between the second writings of the map and of the GPT. -/
theorem Passed.middle_eq :
    { isoDeleteGptApmFillers tables.image with apmReq := apm.image.apmReq } =
      { mbr.image with gptReq := keptGpt gpt, guidsMade := gpt.image.guidsMade } := by
  rw [passed.image_eq, isoWriteMbr_image passed.writeMbr, (isoWriteApm_image passed.writeApm).1]
  rfl

theorem Passed.second :
    SecondApm t (isoDeleteGptApmFillers tables.image) apm := by
  rw [passed.image_eq]
  constructor
  case apmReq => rfl
  case opts => rfl
  case flags => rfl

theorem Passed.gpt_iff :
    GptHarmless mbr.image ↔ GptHarmless (beforeGpt t imgBlocks) := by
  obtain ⟨hapm, hfactor⟩ := isoWriteApm_beforeGpt passed.writeApm
  have hgpt : (beforeGpt t imgBlocks).gptReq = t.gptReq := by
    rw [beforeGpt]
    split
    · rfl
    · rfl
  rw [isoWriteMbr_image passed.writeMbr]
  refine gptHarmless_congr ?_ hapm hfactor
  rw [hgpt, (isoWriteApm_image passed.writeApm).1]

theorem Passed.registered
    (registered : ∀ r ∈ t.gptReq, r.filler = false) :
    ∀ r ∈ mbr.image.gptReq, r.filler = false := by
  rw [isoWriteMbr_image passed.writeMbr, (isoWriteApm_image passed.writeApm).1]
  exact registered

theorem Passed.mbrReq_eq :
    apm.image.mbrReq = t.mbrReq := by
  rw [(isoWriteApm_image passed.writeApm).1]

/-- Harmless requests yield the same tables again. -/
theorem Passed.twice
    (registered : ∀ r ∈ t.gptReq, r.filler = false) (harmless : OverwriteHarmless t imgBlocks) :
    ∃ tables', writePartitionTables libc guids (isoDeleteGptApmFillers tables.image) imgBlocks
      gptBlocks apmFlag = .ok tables' ∧ SameTables guids tables tables' := by
  obtain ⟨apm', hapm', hentries, himage⟩ :=
    isoWriteApm_again passed.writeApm harmless.apm passed.second
  rw [passed.middle_eq] at himage
  have hmbr' : isoWriteMbr apm'.image imgBlocks = .ok ⟨mbr.ret, apm'.image, mbr.slots⟩ := by
    refine isoWriteMbr_again passed.writeMbr (passed.mbrReq_eq ▸ harmless.mbr) ?_ ?_ ?_
    · rw [himage]
    · rw [himage, isoWriteMbr_image passed.writeMbr]
    · rw [himage, isoWriteMbr_image passed.writeMbr]
  obtain ⟨gpt', hgpt', hsame⟩ := isoWriteGpt_again passed.writeGpt
    (passed.registered registered) (passed.gpt_iff.mpr harmless.gpt) gpt.image.guidsMade
  rw [← himage] at hgpt'
  refine ⟨⟨gpt'.image, apm'.entries, mbr.slots, gpt'.entries⟩, passed_iff.mpr
    ⟨apm', ⟨mbr.ret, apm'.image, mbr.slots⟩, gpt', ?_⟩, ?_⟩
  · constructor
    case noIsohybrid =>
      rintro ⟨hsa, hiso, hsome⟩
      rw [passed.image_eq] at hsa hiso hsome
      refine passed.noIsohybrid ⟨hsa, ?_, fun hnil => hsome ?_⟩
      · rw [← (isoWriteApm_image passed.writeApm).2]
        exact hiso
      · exact isoWriteMbr_nil passed.writeMbr (passed.mbrReq_eq.trans hnil)
    case writeApm => exact hapm'
    case writeMbr => exact hmbr'
    case isMbr =>
      simp only [himage]
      exact passed.isMbr
    case writeGpt => exact hgpt'
    case tables_eq => rfl
  · rw [passed.tables_eq]
    constructor
    case apm => exact hentries
    case mbr => rfl
    case gpt => exact hsame

/-- The same tables again come from harmless requests. -/
theorem Passed.harmless
    (registered : ∀ r ∈ t.gptReq, r.filler = false) (fits : ApmFits t imgBlocks)
    {tables' : PartitionTables}
    (h : writePartitionTables libc guids (isoDeleteGptApmFillers tables.image) imgBlocks gptBlocks
      apmFlag = .ok tables') (same : SameTables guids tables tables') :
    OverwriteHarmless t imgBlocks := by
  obtain ⟨apm', mbr', gpt', passed'⟩ := passed_iff.mp h
  have hentries : apm'.entries = apm.entries := by
    have := same.apm
    rwa [passed.tables_eq, passed'.tables_eq] at this
  have hsame : SameGpt guids gpt.entries gpt'.entries := by
    have := same.gpt
    rwa [passed.tables_eq, passed'.tables_eq] at this
  have hapm := harmless_of_isoWriteApm_again passed.writeApm fits passed.second
    passed'.writeApm hentries
  obtain ⟨apm2, hapm2, -, himage⟩ := isoWriteApm_again passed.writeApm hapm passed.second
  obtain rfl := Except.ok.inj (passed'.writeApm.symm.trans hapm2)
  rw [passed.middle_eq] at himage
  have hreq : apm'.image.mbrReq = mbr.image.mbrReq := by rw [himage]
  have hmbr := harmless_of_isoWriteMbr_again passed.writeMbr hreq passed'.writeMbr
  have hmbr' := isoWriteMbr_again passed.writeMbr hmbr hreq
    (by rw [himage, isoWriteMbr_image passed.writeMbr])
    (by rw [himage, isoWriteMbr_image passed.writeMbr])
  obtain rfl := Except.ok.inj (passed'.writeMbr.symm.trans hmbr')
  have hgpt' := passed'.writeGpt
  simp only [himage] at hgpt'
  have hgpt := harmless_of_isoWriteGpt_again passed.writeGpt (passed.registered registered) hgpt'
    hsame
  constructor
  case apm => exact hapm
  case mbr => exact passed.mbrReq_eq ▸ hmbr
  case gpt => exact passed.gpt_iff.mp hgpt

end Twice

section Undisturbed

variable {libc : Qsort} {guids : Nat → Guid} {t0 t : Ecma119Image}
  {curblock imgBlocks gptBlocks : UInt32} {apmFlag : Nat} {tables : PartitionTables}

/-- The overwrite pass does not disturb the real pass if nothing depends on fillers of the
map. If its numbers fit into 32 bits, then this condition is necessary too. -/
theorem undisturbed_iff_harmless (registered : ∀ r ∈ t0.gptReq, r.filler = false)
    (hfilled : rectifyApm libc t0 curblock = .ok t)
    (h : writePartitionTables libc guids t imgBlocks gptBlocks apmFlag = .ok tables) :
    (OverwriteHarmless t imgBlocks →
      ∃ tables', writePartitionTables libc guids (isoDeleteGptApmFillers tables.image) imgBlocks
        gptBlocks apmFlag = .ok tables' ∧ SameTables guids tables tables') ∧
    (ApmFits t imgBlocks →
      (∃ tables', writePartitionTables libc guids (isoDeleteGptApmFillers tables.image) imgBlocks
        gptBlocks apmFlag = .ok tables' ∧ SameTables guids tables tables') →
      OverwriteHarmless t imgBlocks) := by
  obtain ⟨apm, mbr, gpt, passed⟩ := passed_iff.mp h
  rw [← rectifyApm_gptReq hfilled] at registered
  constructor
  · intro harmless
    exact passed.twice registered harmless
  · rintro fits ⟨tables', hagain, hsame⟩
    exact passed.harmless registered fits hagain hsame

open GptGapless

/-- The HFS+ partition reaches from the end of the System Area to the end of the image. -/
def evenImage : Ecma119Image :=
  { smallImage [smallRequest 64 8 (by decide)]
      [⟨16, 984, "HFS", "Apple_HFS", false, by decide⟩] with
    mbrReq := [⟨64, 0, 0x83, 0, 1⟩] }

def evenFilled : Ecma119Image :=
  { evenImage with
    apmReq := apmSelf :: evenImage.apmReq ++
      [⟨1000, 0, "Gap0", "ISO9660_data", true, by decide⟩] }

theorem evenFilled_undisturbed : ∃ tables tables',
    rectifyApm smallQsort evenImage 1000 = .ok evenFilled ∧
      writePartitionTables smallQsort (fun _ => basicDataUuid) evenFilled 1000 1000 0 =
        .ok tables ∧
      writePartitionTables smallQsort (fun _ => basicDataUuid)
        (isoDeleteGptApmFillers tables.image) 1000 1000 0 = .ok tables' ∧
      SameTables (fun _ => basicDataUuid) tables tables' := by
  have hfilled : rectifyApm smallQsort evenImage 1000 = .ok evenFilled := rfl
  obtain ⟨tables, htables⟩ : ∃ tables, writePartitionTables smallQsort (fun _ => basicDataUuid)
      evenFilled 1000 1000 0 = .ok tables := ⟨_, rfl⟩
  have hharmless : OverwriteHarmless evenFilled 1000 := by
    constructor
    case apm =>
      constructor
      case noFiller => decide
      case reachesEnd =>
        intro _ _ _ last hlast
        obtain rfl := Option.some.inj hlast
        decide
      case mapInside => decide
    case mbr => exact ⟨fun h => absurd h (by simp), trivial⟩
    case gpt =>
      have hnone : copiedHfs (beforeGpt evenFilled 1000) = [] := rfl
      intro _ a ha
      rw [hnone] at ha
      cases ha
  obtain ⟨tables', hagain, hsame⟩ :=
    (undisturbed_iff_harmless (by decide) hfilled htables).1 hharmless
  exact ⟨tables, tables', hfilled, htables, hagain, hsame⟩

/-- The HFS+ partition has the blocks 100 to 149. -/
def gappedImage : Ecma119Image :=
  smallImage [] [⟨100, 50, "HFS", "Apple_HFS", false, by decide⟩]

theorem gappedImage_disturbed : ∃ t tables tables',
    rectifyApm smallQsort gappedImage 1000 = .ok t ∧
      writePartitionTables smallQsort (fun _ => basicDataUuid) t 1000 1000 0 = .ok tables ∧
      writePartitionTables smallQsort (fun _ => basicDataUuid)
        (isoDeleteGptApmFillers tables.image) 1000 1000 0 = .ok tables' ∧
      tables.apm.map (fun e => (e.startBlock, e.blockCount)) =
        [(1, 4), (16, 84), (100, 50), (150, 850)] ∧
      tables'.apm.map (fun e => (e.startBlock, e.blockCount)) = [(1, 2), (100, 900)] ∧
      ¬ SameTables (fun _ => basicDataUuid) tables tables' := by
  refine ⟨_, _, _, rfl, rfl, rfl, rfl, rfl, fun same => ?_⟩
  have := congrArg List.length same.apm
  exact absurd this (by decide)

end Undisturbed

end OverwritePass
