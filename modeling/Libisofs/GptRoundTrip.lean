import Libisofs.GptWritten

/-!
# The round trip of the GPT

A table without gaps is written to the System Area and its backup to the end of the image. The
analysis of the image shall find the same entries, correct checksums, and a backup which agrees
with the table.
-/

namespace GptRoundTrip

open CLibrary Results ByteBuffers IntervalGaps PartitionRequests Gpt GptGapless GptBlocks
  GptReadBack GptBackup GptWritten
open SystemAreaTables hiding isoGptEntriesMax

section Overlaps

/-- The inner comparison by the reader. -/
def overlaps (r q : GptRequest) : Bool :=
  let endBlock := r.startBlock + r.blockCount
  let jEnd := q.startBlock + q.blockCount
  q.blockCount ≠ 0 &&
    ((r.startBlock ≤ q.startBlock && q.startBlock < endBlock) ||
      (r.startBlock ≤ jEnd && jEnd < endBlock) ||
      (q.startBlock ≤ r.startBlock && r.startBlock < jEnd))

/-- The flag for overlapping partitions. -/
def gptMayOverlap : List GptRequest → Bool
  | [] => false
  | r :: rest => (r.blockCount ≠ 0 && rest.any (overlaps r)) || gptMayOverlap rest

theorem gptMayOverlap_false {reqs : List GptRequest}
    (h : reqs.Pairwise fun r q => r.blockCount ≠ 0 → overlaps r q = false) :
    gptMayOverlap reqs = false := by
  induction h with
  | nil => rfl
  | @cons r rest hfirst _ ih =>
    rw [gptMayOverlap, ih, Bool.or_false, Bool.and_eq_false_iff]
    by_cases hzero : r.blockCount = 0
    · exact Or.inl (decide_eq_false (not_not.mpr hzero))
    · exact Or.inr (List.any_eq_false.mpr fun q hq => by simp [hfirst q hq hzero])

end Overlaps

/-- The backup header is a copy of the header with exchanged addresses and an own checksum.
The array is in the blocks before it. Both end where `gptBackupEnd` announces it. -/
structure BackupAgrees (g : GptTarget) (sad tail : Buffer) : Prop where
  ownLba : (isoReadLsb64 tail (g.plan.backupSize * 2048 - 512 + 24)).toNat =
    g.image.gptBackupEnd * 4 - 1
  exchanged : slice tail (g.plan.backupSize * 2048 - 512 + 24) 8 = slice sad (512 + 32) 8 ∧
    slice tail (g.plan.backupSize * 2048 - 512 + 32) 8 = slice sad (512 + 24) 8
  crc : isoReadLsb tail (g.plan.backupSize * 2048 - 512 + 16) = isoCrc32Gpt
    (copyInto (fun i => tail (g.plan.backupSize * 2048 - 512 + i)) 16 4 fun _ => 0) 92
  copied : ∀ i < 512, i < 16 ∨ 20 ≤ i ∧ i < 24 ∨ 40 ≤ i ∧ i < 72 ∨ 80 ≤ i →
    tail (g.plan.backupSize * 2048 - 512 + i) = sad (512 + i)
  arrayStart : (isoReadLsb64 tail (g.plan.backupSize * 2048 - 512 + 72)).toNat =
    g.image.gptBackupEnd * 4 - 1 - g.plan.maxEntries / 4
  array : slice tail ((g.image.gptBackupEnd * 4 - 1 - g.plan.maxEntries / 4 -
      (g.image.gptBackupEnd - g.plan.backupSize) * 4) * 512) (128 * g.plan.maxEntries) =
    slice sad (512 * g.plan.gptPartStart) (128 * g.plan.maxEntries)
  arrayCrc : isoReadLsb tail (g.plan.backupSize * 2048 - 512 + 88) = isoCrc32Gpt (fun i => tail
    ((g.image.gptBackupEnd * 4 - 1 - g.plan.maxEntries / 4 -
      (g.image.gptBackupEnd - g.plan.backupSize) * 4) * 512 + i)) (128 * g.plan.maxEntries : Nat)

/-- What the analysis of the image finds. -/
structure RoundTrip (g : GptTarget) (sad tail : Buffer) (src : DataSource)
    (entries : List GptEntry) : Prop where
  analyzed : (isoAnalyzeGpt sad src).ret = 1
  headCrc : (gptInfo sad).headCrcFound = (gptInfo sad).headCrcShould
  arrayCrc : (gptInfo sad).arrayCrcFound = (gptInfo sad).arrayCrcShould
  readBack : (gptEntries sad (gptInfo sad).partStart (toInt (gptInfo sad).maxEntries).toNat
    0 []).2.1 = entries.mapIdx readEntry
  noOverlap : gptMayOverlap (entries.mapIdx readEntry) = false
  backupRead : (isoAnalyzeGptBackup sad src (gptInfo sad)).ret = 1
  backup : BackupAgrees g sad tail

/-- The reader skips a partition which is just block 0, and one which starts in the backup. -/
def Readable (t : Ecma119Image) (e : Extent) : Prop := e ≠ (0, 1) ∧ e.1 ≤ backupEndLba t

instance (t : Ecma119Image) (e : Extent) : Decidable (Readable t e) :=
  inferInstanceAs (Decidable (_ ∧ _))

section Entries

variable {t : Ecma119Image} {imgBlocks : UInt32} {guids : Nat → Guid} {out : GptOutcome}
  {copies fillers merged : List GptPartitionRequest}

theorem endLba_succ (t : Ecma119Image) (r : GptPartitionRequest) :
    endLba t r + 1 ≤ backupEndLba t ∨ endLba t r + 1 = 2 ^ 64 := by
  have hback := backupEndLba_range t
  simp only [endLba, u64]
  omega

theorem entry_extents (h : Composed t imgBlocks guids out copies fillers merged) :
    out.entries.map entryExtent = merged.map (writtenExtent t) := by
  rw [h.entries_eq, writeGptEntries_extents]

/-- A request which is recorded unchanged ends before the backup. -/
theorem requests_inside (h : Composed t imgBlocks guids out copies fillers merged)
    (hgapless : Gapless t imgBlocks out.entries) :
    ∀ r ∈ t.gptReq, extent r ≠ (0, 0) ∧ (extent r).2 ≤ backupEndLba t := by
  intro r hr
  obtain ⟨e, he, hrecords⟩ := hgapless.unchanged r hr
  have hmem : extent r ∈ merged.map (writtenExtent t) := by
    rw [← entry_extents h, ← hrecords.extent_eq]
    exact List.mem_map_of_mem he
  obtain ⟨q, -, hq⟩ := List.mem_map.mp hmem
  have hend : endLba t q + 1 = (extent r).2 := congrArg Prod.snd hq
  have hrange := r.inRange
  rw [extent_snd] at hend ⊢
  constructor
  · intro hzero
    have := congrArg Prod.snd hzero
    rw [extent_snd] at this
    omega
  · have := endLba_succ t q
    omega

theorem merged_ordinary (h : Composed t imgBlocks guids out copies fillers merged)
    (hgapless : Gapless t imgBlocks out.entries) : ∀ r ∈ merged, Ordinary (extent r) := by
  have hinside := requests_inside h hgapless
  have hpartition := partitions_ordinary h.requested (fun r hr => (hinside r hr).2)
    fun r hr => (hinside r hr).1
  have hall : ∀ q ∈ t.gptReq ++ copies, Ordinary (extent q) ∧ (extent q).1 ≤ 4 * 0xffffffff := by
    intro q hq
    refine hpartition _ ?_
    rw [partitionExtents, ← h.copies_eq, ← List.map_append]
    exact List.mem_map_of_mem hq
  have hgoal := lastGoal_le t imgBlocks
  have hback := backupEndLba_range t
  intro r hr
  rcases List.mem_append.mp (h.perm.mem_iff.mp hr) with hpart | hfill
  · exact (hall r hpart).1
  · obtain ⟨hbehind, hlt, hstop, -⟩ := h.fillers_ok r hfill
    have hpos : 0 < r.startBlock := by
      rcases hbehind with h64 | ⟨q, hq, hle⟩
      · omega
      · exact Nat.lt_of_lt_of_le (hall q hq).1.1 hle
    have hend : (extent r).2 ≤ 4 * 0xffffffff := by
      rcases hstop with hlast | ⟨q, hq, heq⟩
      · omega
      · rw [heq]
        exact (hall q hq).2
    refine ⟨by omega, ?_⟩
    rw [extent_fst]
    omega

theorem entries_end (h : Composed t imgBlocks guids out copies fillers merged)
    (hgapless : Gapless t imgBlocks out.entries) :
    ∀ e ∈ out.entries, e.endLba + 1 ≤ backupEndLba t := by
  intro e he
  have hwritten : entryExtent e ∈ merged.map (writtenExtent t) := by
    rw [← entry_extents h]
    exact List.mem_map_of_mem he
  obtain ⟨r, hr, heq⟩ := List.mem_map.mp hwritten
  rw [writtenExtent_of_ordinary (merged_ordinary h hgapless r hr)] at heq
  have hend : min (extent r).2 (backupEndLba t) = e.endLba + 1 := congrArg Prod.snd heq
  omega

theorem kept_iff {e : GptEntry} {r : GptPartitionRequest} (hordinary : Ordinary (extent r))
    (he : entryExtent e = writtenExtent t r) : Kept e ↔ Readable t (extent r) := by
  have hback := backupEndLba_range t
  have hproper := extent_proper r
  rw [writtenExtent_of_ordinary hordinary] at he
  have hstart : e.startLba = (extent r).1 := congrArg Prod.fst he
  have hend : e.endLba + 1 = min (extent r).2 (backupEndLba t) := congrArg Prod.snd he
  have hpos := hordinary.1
  rw [Kept, Readable, ne_eq, Prod.ext_iff, hend]
  have hmod : backupEndLba t % 4 = 0 := Nat.mul_mod_left ..
  omega

/-- All entries are read if all partitions are readable. The gaps between them are, too. -/
theorem all_kept_iff (h : Composed t imgBlocks guids out copies fillers merged)
    (hgapless : Gapless t imgBlocks out.entries) :
    (∀ e ∈ out.entries, Kept e) ↔ ∀ e ∈ partitionExtents t, Readable t e := by
  have hordinary := merged_ordinary h hgapless
  have hextents := entry_extents h
  have hparts : partitionExtents t = (t.gptReq ++ copies).map extent := by
    rw [partitionExtents, ← h.copies_eq, ← List.map_append]
  constructor
  · intro hkept p hp
    rw [hparts] at hp
    obtain ⟨r, hr, rfl⟩ := List.mem_map.mp hp
    have hmem : r ∈ merged := h.perm.mem_iff.mpr (List.mem_append_left _ hr)
    have hwritten : writtenExtent t r ∈ out.entries.map entryExtent := by
      rw [hextents]
      exact List.mem_map_of_mem hmem
    obtain ⟨e, he, heq⟩ := List.mem_map.mp hwritten
    exact (kept_iff (hordinary r hmem) heq).mp (hkept e he)
  · intro hreadable e he
    have hwritten : entryExtent e ∈ merged.map (writtenExtent t) := by
      rw [← hextents]
      exact List.mem_map_of_mem he
    obtain ⟨r, hr, heq⟩ := List.mem_map.mp hwritten
    refine (kept_iff (hordinary r hr) heq.symm).mpr ?_
    rcases List.mem_append.mp (h.perm.mem_iff.mp hr) with hpart | hfill
    · exact hreadable _ (hparts ▸ List.mem_map_of_mem hpart)
    · -- a gap ends at the start of a partition or before the backup
      obtain ⟨hbehind, hlt, hstop, -⟩ := h.fillers_ok r hfill
      have hend : (extent r).2 ≤ backupEndLba t := by
        rcases hstop with hlast | ⟨q, hq, hq'⟩
        · rw [hlast]
          exact lastGoal_le t imgBlocks
        · rw [hq']
          exact (hreadable _ (hparts ▸ List.mem_map_of_mem hq)).2
      refine ⟨fun hzero => ?_, ?_⟩
      · have hstart : r.startBlock = 0 := congrArg Prod.fst hzero
        rcases hbehind with h64 | ⟨q, hq, hle⟩
        · omega
        · have := (hordinary q (h.perm.mem_iff.mpr (List.mem_append_left _ hq))).1
          omega
      · rw [extent_fst]
        omega

theorem writeGptEntries_sizes (hguids : ∀ n, (guids n).length = 16) {guidsMade : Nat}
    {reqs : List GptPartitionRequest} (hreqs : ∀ r ∈ reqs, FixedSizes r) :
    ∀ e ∈ (writeGptEntries guids t guidsMade reqs).1, EntrySizes e := by
  induction reqs generalizing guidsMade with
  | nil => exact fun _ he => nomatch he
  | cons r rest ih =>
    rw [List.forall_mem_cons] at hreqs
    obtain ⟨htype, hguid, hname⟩ := hreqs.1
    intro e he
    rcases List.mem_cons.mp he with rfl | he
    · refine ⟨htype, ?_, hname, startBlock_lt r, u64_lt _⟩
      show (if r.partitionGuid = zeroUuid then guids guidsMade else r.partitionGuid).length = 16
      split
      · exact hguids guidsMade
      · exact hguid
    · exact ih hreqs.2 e he

/-- The numbers of an entry which is not skipped do not wrap around. -/
theorem readEntry_numbers (i : Nat) {e : GptEntry} (hend : e.endLba + 1 < 2 ^ 64)
    (hproper : e.startLba ≤ e.endLba + 1) :
    (readEntry i e).startBlock.toNat = e.startLba ∧
      (readEntry i e).blockCount.toNat = e.endLba + 1 - e.startLba ∧
      ((readEntry i e).startBlock + (readEntry i e).blockCount).toNat = e.endLba + 1 := by
  have hone : (1 : UInt64).toNat = 1 := rfl
  have hstart := toNat_quad (show e.startLba < 2 ^ 64 by omega)
  have hlast := toNat_quad (show e.endLba < 2 ^ 64 by omega)
  simp only [readEntry, UInt64.toNat_add, UInt64.toNat_sub, hstart, hlast, hone]
  refine ⟨trivial, ?_, ?_⟩
  · omega
  · omega

/-- The overlap test finds nothing among disjoint partitions. -/
theorem noOverlap_of_gapless (hgapless : Gapless t imgBlocks out.entries)
    (hsizes : ∀ e ∈ out.entries, e.endLba + 1 < 2 ^ 64)
    (hkept : ∀ e ∈ out.entries, Kept e) :
    gptMayOverlap (out.entries.mapIdx readEntry) = false := by
  refine gptMayOverlap_false ?_
  have hboth := hgapless.sorted.and (List.pairwise_map.mp hgapless.disjoint)
  rw [List.pairwise_iff_getElem] at hboth ⊢
  intro i j hi hj hij hcount
  simp only [List.length_mapIdx] at hi hj
  obtain ⟨hle, hdisjoint⟩ := hboth i j hi hj hij
  have hmi := List.getElem_mem hi
  have hmj := List.getElem_mem hj
  rw [List.getElem_mapIdx, List.getElem_mapIdx] at *
  generalize out.entries[i] = e at *
  generalize out.entries[j] = f at *
  have hei := hsizes e hmi
  have hfj := hsizes f hmj
  obtain ⟨-, hke⟩ := hkept e hmi
  obtain ⟨-, hkf⟩ := hkept f hmj
  rw [Nat.mod_eq_of_lt hei] at hke
  rw [Nat.mod_eq_of_lt hfj] at hkf
  obtain ⟨hes, hec, hee⟩ := readEntry_numbers i hei hke
  obtain ⟨hfs, hfc, hfe⟩ := readEntry_numbers j hfj hkf
  have hcount' : e.startLba < e.endLba + 1 := by
    have : (readEntry i e).blockCount.toNat ≠ 0 := fun hzero =>
      hcount (UInt64.toNat_inj.mp hzero)
    omega
  by_cases hempty : (readEntry j f).blockCount = 0
  · simp [overlaps, hempty]
  · have hcountf : (readEntry j f).blockCount.toNat ≠ 0 := fun hzero =>
      hempty (UInt64.toNat_inj.mp hzero)
    -- the first partition ends before the second one starts
    have hbefore : e.endLba + 1 ≤ f.startLba := by
      by_contra hover
      refine hdisjoint f.startLba ⟨covers_iff.mpr ?_, covers_iff.mpr ?_⟩
      · simp only [entryExtent]
        omega
      · simp only [entryExtent]
        omega
    simp only [overlaps, UInt64.le_iff_toNat_le, UInt64.lt_iff_toNat_lt, hes, hee, hfs, hfe,
      Bool.and_eq_false_iff, Bool.or_eq_false_iff, decide_eq_false_iff_not]
    omega

end Entries

section Backup

variable {g : GptTarget} {sad tail : Buffer} {slots : List (Option GptEntry)}

/-- The backup header as it stands in the backup. -/
theorem mirrored_head (h : Present g sad slots) (hmirror : Mirrored g sad tail) :
    ∃ headCrc, HeadHolds (fun i => tail (g.plan.backupSize * 2048 - 512 + i)) (backLba g) 1
      (backupPartStart g) g.plan.maxEntries headCrc
      (isoCrc32Gpt (fun i => sad (512 * g.plan.gptPartStart + i)) (128 * g.plan.maxEntries : Nat))
      g.gptDiskGuid := by
  obtain ⟨crc, hprimary⟩ := h.head
  obtain ⟨crc', hnew⟩ := newHead_holds hprimary
  exact ⟨crc', hnew.congr g.diskGuid_length fun i hi => hmirror.head i (by omega)⟩

theorem ownLba_eq (h : Present g sad slots) (hmirror : Mirrored g sad tail) :
    (isoReadLsb64 tail (g.plan.backupSize * 2048 - 512 + 24)).toNat = backLba g := by
  obtain ⟨crc, hhead⟩ := mirrored_head h hmirror
  have hback := backLba_lt g
  rw [isoReadLsb64_of_holds (holds_shift.mp hhead.own) (by omega), toNat_quad (by omega)]

theorem backup_agrees (h : Present g sad slots) (hmirror : Mirrored g sad tail)
    (hsmall : g.image.gptBackupEnd ≤ 2 ^ 30) : BackupAgrees g sad tail := by
  obtain ⟨crc, hhead⟩ := mirrored_head h hmirror
  obtain ⟨crc', hprimary⟩ := h.head
  have hstart := backupPartStart_eq g
  have hend := g.image.backupEnd_lt
  have hfit := backup_fits g.plan
  have hcount := plan_range g.plan
  have hlt := g.image.backupSize_lt
  rw [g.backupSize_eq] at hlt
  have hbyte (i : Nat) (hi : i < 128 * g.plan.maxEntries) :
      tail ((g.image.gptBackupEnd * 4 - 1 - g.plan.maxEntries / 4 -
        (g.image.gptBackupEnd - g.plan.backupSize) * 4) * 512 + i) =
          sad (512 * g.plan.gptPartStart + i) := by
    rw [← hmirror.array i hi]
    exact congrArg tail (by omega)
  constructor
  case ownLba => rw [ownLba_eq h hmirror, (backLba_eq_iff g).mpr hsmall]
  case exchanged =>
    have hown := (holds_shift.mp hhead.own).slice_of_length (length_toLsb 8 _)
    have hother := (holds_shift.mp hhead.other).slice_of_length (length_toLsb 8 _)
    have hown' := (holds_shift.mp hprimary.own).slice_of_length (length_toLsb 8 _)
    have hother' := (holds_shift.mp hprimary.other).slice_of_length (length_toLsb 8 _)
    exact ⟨hown.trans hother'.symm, hother.trans hown'.symm⟩
  case crc =>
    rw [isoReadLsb_of_holds (holds_shift.mp hhead.crc) crc.toNat_lt, UInt32.ofNat_toNat]
    exact hhead.crc_eq
  case copied =>
    intro i hi hapart
    have hsingle : Holds (fun k => sad (512 + k)) i [sad (512 + i)] := by
      rw [holds_cons]
      exact ⟨rfl, holds_nil⟩
    have hkeep := newHead_keeps (g := g) hsingle (by
      rw [List.length_singleton]
      omega)
    rw [hmirror.head i hi]
    exact (holds_cons.mp hkeep).1
  case arrayStart =>
    rw [isoReadLsb64_of_holds (holds_shift.mp hhead.start) (by omega), toNat_quad (by omega)]
    rfl
  case array => exact slice_congr hbyte
  case arrayCrc =>
    rw [isoReadLsb_of_holds (holds_shift.mp hhead.arrayCrc) (UInt32.toNat_lt _),
      UInt32.ofNat_toNat]
    exact (isoCrc32Gpt_congr (by omega) hbyte).symm

end Backup

section Trips

variable {g : GptTarget} {imgBlocks : UInt32} {buf sad : Buffer} {out : GptOutcome}

/-- The System Area gets the entries of the table. -/
theorem isoWriteGptTo_inv {libc : Qsort}
    (hout : isoWriteGptTo libc g imgBlocks buf = .ok (out, sad)) (hret : out.ret = 1) :
    ∃ copies fillers merged, Composed g.image imgBlocks g.guids out copies fillers merged ∧
      Present g sad out.slots := by
  rw [isoWriteGptTo, bind_eq_ok] at hout
  obtain ⟨out', hwrite, hrest⟩ := hout
  by_cases hnone : out'.ret = 2
  · rw [if_pos hnone] at hrest
    obtain ⟨rfl, -⟩ := Prod.ext_iff.mp (Except.ok.inj hrest)
    exact absurd (hret.symm.trans hnone) (by decide)
  · rw [if_neg hnone] at hrest
    obtain ⟨rfl, rfl⟩ := Prod.ext_iff.mp (Except.ok.inj hrest)
    obtain ⟨copies, fillers, merged, h⟩ := isoWriteGpt_inv g.isoTypeGuid_length hwrite hret
    have hmerged : ∀ r ∈ merged, FixedSizes r := by
      intro r hr
      rcases List.mem_append.mp (h.perm.mem_iff.mp hr) with hpart | hfill
      · rcases List.mem_append.mp hpart with hreq | hcopy
        · exact g.requests r hreq
        · exact h.copies_sizes r hcopy
      · exact (h.fillers_ok r hfill).sizes
    have hsizes : ∀ e ∈ out'.entries, EntrySizes e := by
      rw [h.entries_eq]
      exact writeGptEntries_sizes g.guids_length hmerged
    refine ⟨copies, fillers, merged, h, writeGptBlocks_present ?_ fun e he => ?_⟩
    · have := h.length_le
      rw [h.slots_eq, List.length_append, List.length_map, List.length_replicate,
        ← g.maxEntries_eq]
      omega
    · refine hsizes e ?_
      rw [h.slots_eq] at he
      rcases List.mem_append.mp he with he | he
      · obtain ⟨e', he', heq⟩ := List.mem_map.mp he
        exact Option.some.inj heq ▸ he'
      · exact absurd (List.eq_of_mem_replicate he) (by simp)

/-- The table is found again exactly if the 32-bit address of the backup is right and
the reader skips no partition. -/
theorem gpt_round_trip_iff (libc : Qsort) (src : DataSource)
    (hout : isoWriteGptTo libc g imgBlocks buf = .ok (out, sad)) (hret : out.ret = 1)
    (hgapless : Gapless g.image imgBlocks out.entries)
    (hsrc : Delivers g src (gptTailWriterWriteData g sad)) :
    RoundTrip g sad (gptTailWriterWriteData g sad) src out.entries ↔
      g.image.gptBackupEnd ≤ 2 ^ 30 ∧ ∀ e ∈ partitionExtents g.image, Readable g.image e := by
  obtain ⟨copies, fillers, merged, hcomposed, hpresent⟩ := isoWriteGptTo_inv hout hret
  have hmirror := hpresent.mirrored
  obtain ⟨hanalyzed, hread⟩ := @Present.entries g sad src out.slots hpresent
  rw [hcomposed.slots_eq] at hread
  have hall := @readSlots_eq_iff out.entries 0 (g.image.gptMaxEntries - out.entries.length)
  simp only [Nat.zero_add] at hall
  constructor
  · intro h
    refine ⟨(backLba_eq_iff g).mp ?_, (all_kept_iff hcomposed hgapless).mp (hall.mp ?_)⟩
    · rw [← ownLba_eq hpresent hmirror, h.backup.ownLba]
    · exact hread.symm.trans h.readBack
  · rintro ⟨hsmall, hreadable⟩
    have hkept := (all_kept_iff hcomposed hgapless).mpr hreadable
    have hback := backupEndLba_range g.image
    constructor
    case analyzed => exact hanalyzed
    case headCrc => exact hpresent.crcs.1
    case arrayCrc => exact hpresent.crcs.2
    case readBack => exact hread.trans (hall.mpr hkept)
    case noOverlap =>
      refine noOverlap_of_gapless hgapless (fun e he => ?_) hkept
      have := entries_end hcomposed hgapless e he
      omega
    case backupRead => exact backup_accepted hpresent hmirror hsrc hsmall
    case backup => exact backup_agrees hpresent hmirror hsmall

end Trips

section Examples

theorem smallBlockSize_valid : 2048 = 0 ∨ 2048 = 512 ∨ 2048 = 2048 := by decide

theorem smallRequest_inRange : 400 + 8 < 2 ^ 64 := by decide

/-- One partition of 8 blocks in an image with a backup GPT of 16 blocks. -/
def smallImage (gptBackupEnd : Nat) (hend : 1000 ≤ gptBackupEnd ∧ gptBackupEnd < 2 ^ 32) :
    Ecma119Image :=
  ⟨⟨false, 2048, 16, 0, zeroUuid, smallBlockSize_valid⟩, 0, UInt32.ofNat (gptBackupEnd - 16), 63, 255, [], 0,
    [], [⟨400, 8, basicDataUuid, zeroUuid, gptFlags, List.replicate 72 0, false,
      smallRequest_inRange⟩], 0,
    gptBackupEnd, 16, 248, 0, hend.2, by decide, by omega⟩

def smallTarget (gptBackupEnd : Nat) (hend : 1000 ≤ gptBackupEnd ∧ gptBackupEnd < 2 ^ 32) :
    GptTarget where
  image := smallImage gptBackupEnd hend
  plan := lowestPlan
  gptDiskGuid := basicDataUuid
  guids := fun _ => hfsPlusUuid
  maxEntries_eq := rfl
  backupSize_eq := rfl
  diskGuid_length := rfl
  guids_length := fun _ => rfl
  isoTypeGuid_length := rfl
  requests := fun r hr => by
    rw [List.mem_singleton.mp hr]
    exact ⟨rfl, rfl, List.length_replicate⟩

/-- A source which delivers the backup where it is announced. -/
def backupSource (g : GptTarget) (tail : Buffer) : DataSource := fun lba =>
  (0, fun j => tail ((lba.toNat - (g.image.gptBackupEnd - g.plan.backupSize)) * 2048 + j))

theorem backupSource_delivers (g : GptTarget) (tail : Buffer) :
    Delivers g (backupSource g tail) tail := by
  have hend := g.image.backupEnd_lt
  have hlt := g.image.backupSize_lt
  rw [g.backupSize_eq] at hlt
  intro k hk
  refine ⟨Int.le_refl 0, fun j _ => ?_⟩
  simp only [backupSource]
  rw [toNat_word (by omega), Nat.add_sub_cancel_left]

theorem smallTarget_gapless (gptBackupEnd : Nat)
    (hend : 1000 ≤ gptBackupEnd ∧ gptBackupEnd < 2 ^ 32) (buf : Buffer) :
    ∃ out sad, isoWriteGptTo smallQsort (smallTarget gptBackupEnd hend)
        (UInt32.ofNat (gptBackupEnd - 16)) buf = .ok (out, sad) ∧ out.ret = 1 ∧
      Gapless (smallImage gptBackupEnd hend) (UInt32.ofNat (gptBackupEnd - 16)) out.entries := by
  have hextents : partitionExtents (smallImage gptBackupEnd hend) = [(400, 408)] := rfl
  have hgoal : lastGoal (smallImage gptBackupEnd hend) (UInt32.ofNat (gptBackupEnd - 16)) =
      (gptBackupEnd - 16) * 4 := by
    rw [lastGoal, toNat_word (by omega), backupEndLba]
    exact Nat.min_self _
  have hroom : Room (smallImage gptBackupEnd hend) (UInt32.ofNat (gptBackupEnd - 16)) := by
    have hgaps := @length_gaps_le _ Prod.fst Prod.snd ((gptBackupEnd - 16) * 4)
      (firstBlock [(400, 408)]) [(400, 408)]
    rw [Room, gapExtents, hextents, hgoal]
    change 1 + _ ≤ 248
    exact Nat.le_trans (Nat.add_le_add_left hgaps 1) (by decide)
  have hharmless : Harmless (smallImage gptBackupEnd hend)
      (UInt32.ofNat (gptBackupEnd - 16)) := by
    constructor
    case nonzero =>
      intro r hr hzero
      rw [List.mem_singleton.mp hr] at hzero
      exact absurd (congrArg Prod.fst hzero) (by decide)
    case lastBlock => exact fun a ha => absurd ha List.not_mem_nil
    case emptyOutside =>
      intro _ e he hempty
      rw [hextents] at he
      rw [List.mem_singleton.mp he] at hempty
      exact absurd hempty (by decide)
    case copiedInside => exact fun _ a ha => absurd ha List.not_mem_nil
  have hdisjoint : ((smallImage gptBackupEnd hend).gptReq.map extent).Pairwise
      (Disjoint Prod.fst Prod.snd) := List.pairwise_singleton ..
  have hinside : ∀ r ∈ (smallImage gptBackupEnd hend).gptReq,
      (extent r).2 ≤ lastGoal (smallImage gptBackupEnd hend) (UInt32.ofNat (gptBackupEnd - 16)) := by
    intro r hr
    rw [List.mem_singleton.mp hr, hgoal]
    show 408 ≤ _
    omega
  obtain ⟨out, copies, fillers, merged, hout, hret, hwritten⟩ := isoWriteGpt_ok smallQsort
    (fun _ => hfsPlusUuid) (List.cons_ne_nil _ _) rfl hroom
      (Or.inr (hharmless.separated hdisjoint hinside
        (show (0 : Nat).testBit 0 = false by decide)))
  refine ⟨out, writeGptBlocks (smallTarget gptBackupEnd hend) buf out.slots, ?_, hret,
    hwritten.gapless (List.cons_ne_nil _ _) hdisjoint hinside hharmless⟩
  rw [isoWriteGptTo, bind_eq_ok]
  exact ⟨out, hout, if_neg (by rw [hret]; decide)⟩

theorem round_trip_small : ∃ out sad, isoWriteGptTo smallQsort (smallTarget 1016 (by decide))
      1000 (fun _ => 0) = .ok (out, sad) ∧
    RoundTrip (smallTarget 1016 (by decide)) sad
      (gptTailWriterWriteData (smallTarget 1016 (by decide)) sad)
      (backupSource (smallTarget 1016 (by decide))
        (gptTailWriterWriteData (smallTarget 1016 (by decide)) sad)) out.entries := by
  obtain ⟨out, sad, hout, hret, hgapless⟩ := smallTarget_gapless 1016 (by decide) fun _ => 0
  exact ⟨out, sad, hout, (gpt_round_trip_iff smallQsort _ hout hret hgapless
    (backupSource_delivers _ _)).mpr ⟨by decide, by decide⟩⟩

/-- One block more than the 32-bit product can tell. -/
def largeTarget : GptTarget := smallTarget (2 ^ 30 + 1) (by decide)

/-- The header announces its backup in block 3. -/
theorem backup_address_wraps : ∃ out sad,
    isoWriteGptTo smallQsort largeTarget (UInt32.ofNat (2 ^ 30 - 15)) (fun _ => 0) =
      .ok (out, sad) ∧ out.ret = 1 ∧
    Gapless largeTarget.image (UInt32.ofNat (2 ^ 30 - 15)) out.entries ∧
    (gptInfo sad).backupLba = 3 ∧
    ¬ RoundTrip largeTarget sad (gptTailWriterWriteData largeTarget sad)
      (backupSource largeTarget (gptTailWriterWriteData largeTarget sad)) out.entries := by
  obtain ⟨out, sad, hout, hret, hgapless⟩ := smallTarget_gapless (2 ^ 30 + 1) (by decide) fun _ => 0
  obtain ⟨-, -, -, -, hwritten⟩ := isoWriteGptTo_inv hout hret
  have hpresent : Present largeTarget sad out.slots := hwritten
  have hback : backLba largeTarget = 3 := by decide
  refine ⟨out, sad, hout, hret, hgapless, ?_, fun htrip => ?_⟩
  · exact hpresent.info.2.2.2.trans (congrArg UInt64.ofNat hback)
  · have hown := htrip.backup.ownLba
    rw [ownLba_eq hpresent hpresent.mirrored, hback] at hown
    exact absurd hown (by decide)

end Examples

end GptRoundTrip
