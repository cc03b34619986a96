import Libisofs.GptReadBack

/-!
# The backup GPT

The table in the System Area and its copy at the end of the image, as they are found by the
reader. The announced addresses are those of blocks of 512 bytes.
-/

namespace GptBackup

open ByteBuffers PartitionRequests Gpt GptBlocks GptReadBack
open SystemAreaTables hiding isoGptEntriesMax

/-- The table is in the System Area. -/
structure Present (g : GptTarget) (sad : Buffer) (slots : List (Option GptEntry)) : Prop where
  length_slots : slots.length = g.plan.maxEntries
  sizes : ∀ e, some e ∈ slots → EntrySizes e
  head : ∃ headCrc, HeadHolds (fun i => sad (512 + i)) 1 (backLba g) g.plan.gptPartStart
    g.plan.maxEntries headCrc (isoCrc32Gpt (fun i => sad (512 * g.plan.gptPartStart + i))
      (128 * g.plan.maxEntries : Nat)) g.gptDiskGuid
  padding : Holds sad (512 + 92) (List.replicate 420 0)
  array : Holds sad (512 * g.plan.gptPartStart) (slots.flatMap gptSlotBytes)

/-- The blocks of the backup come from the source as they were written. -/
def Delivers (g : GptTarget) (src : DataSource) (tail : Buffer) : Prop :=
  ∀ k < g.plan.backupSize,
    let block := src (UInt32.ofNat (g.image.gptBackupEnd - g.plan.backupSize + k))
    0 ≤ block.1 ∧ ∀ j < 2048, block.2 j = tail (k * 2048 + j)

section Primary

variable {g : GptTarget} {sad buf : Buffer} {src : DataSource} {slots : List (Option GptEntry)}

theorem writeGptBlocks_present (hlength : slots.length = g.plan.maxEntries)
    (hsizes : ∀ e, some e ∈ slots → EntrySizes e) :
    Present g (writeGptBlocks g buf slots) slots := by
  have h2 := g.plan.two_le
  have h64 := g.plan.lt_end
  have hrange := plan_range g.plan
  rw [writeGptBlocks]
  generalize hbuf : patch buf (512 * g.plan.gptPartStart) (slots.flatMap gptSlotBytes) = buf'
  have harray : Holds buf' (512 * g.plan.gptPartStart) (slots.flatMap gptSlotBytes) := by
    rw [← hbuf]
    exact holds_patch
  generalize hcrc : isoCrc32Gpt (fun i => buf' (512 * g.plan.gptPartStart + i))
    (128 * g.plan.maxEntries : Nat) = pArrCrc
  have hblock : Holds (patch buf' 512 (isoWriteGptHeaderBlock g pArrCrc)) 512
      (isoWriteGptHeaderBlock g pArrCrc) := holds_patch
  have hlen := length_isoWriteGptHeaderBlock (g := g) pArrCrc
  refine ⟨hlength, hsizes, ?_, ?_, ?_⟩
  · have harrayCrc : isoCrc32Gpt (fun i => patch buf' 512 (isoWriteGptHeaderBlock g pArrCrc)
        (512 * g.plan.gptPartStart + i)) (128 * g.plan.maxEntries : Nat) = pArrCrc := by
      rw [← hcrc]
      refine isoCrc32Gpt_congr (by omega) fun i hi => ?_
      exact copyInto_outside (Or.inr (by rw [hcrc, hlen]; omega))
    rw [harrayCrc]
    have hzero : Holds (fun i => patch buf' 512 (isoWriteGptHeaderBlock g pArrCrc) (512 + i)) 0
        (isoWriteGptHeaderBlock g pArrCrc) :=
      (holds_congr fun i _ => by rw [Nat.zero_add]).mpr hblock
    obtain ⟨crc, hhead, hcrc'⟩ := headerBlock_crc hzero
    exact ⟨crc, holds_gptHeaderBytes hhead hcrc'⟩
  · rw [isoWriteGptHeaderBlock, holds_append, length_gptHeaderBytes] at hblock
    exact hblock.2
  · exact harray.patch (Or.inr (by rw [hlen]; omega))

theorem Present.info (h : Present g sad slots) :
    (gptInfo sad).partStart = UInt64.ofNat g.plan.gptPartStart ∧
      (gptInfo sad).maxEntries = UInt32.ofNat g.plan.maxEntries ∧
      (gptInfo sad).diskGuid = g.gptDiskGuid ∧
      (gptInfo sad).backupLba = UInt64.ofNat (backLba g) := by
  obtain ⟨crc, hhead⟩ := h.head
  have hstart := g.plan.lt_end
  have hcount := plan_range g.plan
  have hback := backLba_lt g
  exact ⟨isoReadLsb64_of_holds hhead.start (by omega), isoReadLsb_of_holds hhead.entries (by omega),
    hhead.guid.slice_of_length g.diskGuid_length, isoReadLsb64_of_holds hhead.other (by omega)⟩

theorem offset_eq (plan : GptPlan) :
    (UInt64.ofNat plan.gptPartStart * 512).toNat = plan.gptPartStart * 512 := by
  have hstart := plan.lt_end
  have hnum := toNat_quad (show plan.gptPartStart < 2 ^ 64 by omega)
  rw [SystemAreaBounds.toNat_byteOffset (by omega), hnum]

theorem count_eq (plan : GptPlan) :
    (toInt (UInt32.ofNat plan.maxEntries)).toNat = plan.maxEntries := by
  have hcount := plan_range plan
  have hnum := toNat_word (show plan.maxEntries < 2 ^ 32 by omega)
  rw [SystemAreaBounds.toInt_toNat (by omega), hnum]

/-- Both CRCs are found as they should be. -/
theorem Present.crcs (h : Present g sad slots) :
    (gptInfo sad).headCrcFound = (gptInfo sad).headCrcShould ∧
      (gptInfo sad).arrayCrcFound = (gptInfo sad).arrayCrcShould := by
  obtain ⟨crc, hhead⟩ := h.head
  have hcount := plan_range g.plan
  constructor
  · exact hhead.headCrc_eq.trans hhead.crc_eq
  · have hfound := isoReadLsb_of_holds hhead.arrayCrc (UInt32.toNat_lt _)
    rw [UInt32.ofNat_toNat] at hfound
    obtain ⟨hstart, hmax, -, -⟩ := h.info
    have hbytes : toInt (UInt32.ofNat g.plan.maxEntries * 128) =
        ((128 * g.plan.maxEntries : Nat) : Int) := by
      have hnum : (UInt32.ofNat g.plan.maxEntries * 128).toNat = 128 * g.plan.maxEntries := by
        have hfactor : (128 : UInt32).toNat = 128 := rfl
        rw [UInt32.toNat_mul, hfactor, toNat_word (by omega)]
        omega
      rw [toInt, hnum, if_pos (by omega)]
    show isoReadLsb _ 88 = isoCrc32Gpt (fun i => sad (((gptInfo sad).partStart * 512).toNat + i))
      (toInt ((gptInfo sad).maxEntries * 128))
    rw [hfound, hstart, hmax, hbytes, offset_eq, Nat.mul_comm g.plan.gptPartStart]

theorem Present.head_accepted (h : Present g sad slots) : (isoAnalyzeGptHead sad src).ret = 1 := by
  obtain ⟨crc, hhead⟩ := h.head
  obtain ⟨hstart, hmax, -, -⟩ := h.info
  have hlimit : rangeOk (gptInfo sad).partStart (gptInfo sad).maxEntries = true := by
    have h64 := g.plan.lt_end
    have hcount := plan_range g.plan
    have hthree : (3 : UInt32).toNat = 3 := rfl
    have hfour : (4 : UInt32).toNat = 4 := rfl
    have hend : (64 : UInt64).toNat = 64 := rfl
    rw [hstart, hmax, rangeOk, decide_eq_true_eq, UInt64.le_iff_toNat_le, UInt64.toNat_add,
      UInt32.toNat_toUInt64, UInt32.toNat_div, UInt32.toNat_add, hthree, hfour, hend,
      toNat_quad (by omega), toNat_word (by omega)]
    omega
  simp only [isoAnalyzeGptHead, hhead.usable, hhead.crcOk, hlimit, Bool.not_true,
    Bool.false_eq_true, if_false]
  rw [if_neg (Int.not_lt.mpr (SystemAreaBounds.backup_ret _ _ _))]

/-- The reader gets the entries which it does not skip. -/
theorem Present.entries (h : Present g sad slots) :
    (isoAnalyzeGpt sad src).ret = 1 ∧
      (gptEntries sad (gptInfo sad).partStart (toInt (gptInfo sad).maxEntries).toNat 0 []).2.1 =
        readSlots 0 slots := by
  obtain ⟨hstart, hmax, -, -⟩ := h.info
  have hcount := plan_range g.plan
  have harray : Holds sad (g.plan.gptPartStart * 512 + 128 * 0) (slots.flatMap gptSlotBytes) := by
    rw [Nat.mul_zero, Nat.add_zero, Nat.mul_comm]
    exact h.array
  obtain ⟨hret, hreqs⟩ := @gptEntries_eq sad slots _ 0 [] g.plan.lt_end h.sizes
    (by rw [h.length_slots, List.length_nil]; omega) harray
  rw [h.length_slots] at hret hreqs
  rw [hstart, hmax, count_eq]
  constructor
  · simp only [isoAnalyzeGpt, h.head_accepted]
    rw [if_neg (by decide), hstart, hmax, count_eq]
    exact hret
  · rw [hreqs, List.nil_append]

end Primary

section Backup

variable {g : GptTarget} {sad : Buffer} {src : DataSource} {slots : List (Option GptEntry)}

/-- Bytes which do not get patched stay in the copy. -/
theorem newHead_keeps {head : Buffer} {pos : Nat} {bytes : List UInt8} (h : Holds head pos bytes)
    (hapart : pos + bytes.length ≤ 16 ∨ 20 ≤ pos ∧ pos + bytes.length ≤ 24 ∨
      40 ≤ pos ∧ pos + bytes.length ≤ 72 ∨ 80 ≤ pos) : Holds (newHead g head) pos bytes := by
  rw [newHead, relocatedHead]
  refine Holds.patch ?_ (by rw [length_toLsb]; omega)
  refine Holds.copyInto ?_ (by omega)
  refine Holds.patch ?_ (by rw [length_lsbHalves]; omega)
  refine Holds.copyInto ?_ (by omega)
  exact h.copyInto (by omega)

theorem backupPartStart_eq (g : GptTarget) :
    backupPartStart g + g.plan.maxEntries / 4 + 1 = g.image.gptBackupEnd * 4 ∧
      (g.image.gptBackupEnd - g.plan.backupSize) * 4 ≤ backupPartStart g := by
  have hlt := g.image.backupSize_lt
  have hfit := backup_fits g.plan
  rw [g.backupSize_eq] at hlt
  rw [backupPartStart]
  omega

theorem newHead_holds {head : Buffer} {headCrc pArrCrc : UInt32}
    (h : HeadHolds head 1 (backLba g) g.plan.gptPartStart g.plan.maxEntries headCrc pArrCrc
      g.gptDiskGuid) :
    ∃ crc, HeadHolds (newHead g head) (backLba g) 1 (backupPartStart g) g.plan.maxEntries crc
      pArrCrc g.gptDiskGuid := by
  have hguid := g.diskGuid_length
  refine ⟨_, newHead_keeps h.signature (by decide), newHead_keeps h.revision (by decide),
    newHead_keeps h.headSize (by simp), holds_patch, ?_, ?_,
    newHead_keeps h.guid (by omega), ?_, newHead_keeps h.entries (by simp),
    newHead_keeps h.entrySize (by simp), newHead_keeps h.arrayCrc (by simp), ?_⟩
  · rw [newHead, relocatedHead]
    refine Holds.patch (Holds.copyInto (Holds.patch (Holds.copyInto ?_ ?_) ?_) ?_) ?_
    · exact @holds_copyInto head (fun i => head (32 + i)) 24 8 _ 0
        ((holds_congr fun i _ => by rw [Nat.zero_add]).mpr h.other) (by simp)
    all_goals simp
  · rw [newHead, relocatedHead]
    refine Holds.patch (Holds.copyInto (Holds.patch ?_ ?_) ?_) ?_
    · exact @holds_copyInto _ (fun i => head (24 + i)) 32 8 _ 0
        ((holds_congr fun i _ => by rw [Nat.zero_add]).mpr h.own) (by simp)
    all_goals simp
  · rw [newHead, relocatedHead]
    refine Holds.patch (Holds.copyInto ?_ ?_) ?_
    · rw [← lsbHalves_eq]
      exact holds_patch
    all_goals simp
  · -- the field of the CRC was 0 already when the CRC was computed
    refine @isoCrc32Gpt_congr _ _ 92 (by decide) fun i _ => ?_
    by_cases hin : 16 ≤ i ∧ i < 16 + 4
    · rw [relocatedHead, copyInto, if_pos hin, copyInto, if_pos hin]
    · have hkeep : newHead g head i = relocatedHead g head i :=
        copyInto_outside (by rw [length_toLsb]; omega)
      rw [copyInto_outside (by omega), hkeep]

/-- The header and the array of the backup at their places. -/
structure Mirrored (g : GptTarget) (sad tail : Buffer) : Prop where
  head : ∀ i < 512, tail (g.plan.backupSize * 2048 - 512 + i) =
    newHead g (fun k => sad (512 + k)) i
  array : ∀ i < 128 * g.plan.maxEntries,
    tail (g.plan.backupSize * 2048 - 512 - g.plan.maxEntries * 128 + i) =
      sad (512 * g.plan.gptPartStart + i)

theorem Present.mirrored (h : Present g sad slots) :
    Mirrored g sad (gptTailWriterWriteData g sad) := by
  obtain ⟨crc, hhead⟩ := h.head
  have hsignature : slice sad 512 8 = ascii "EFI PART" :=
    Holds.slice_of_length ((holds_congr fun i _ => by rw [Nat.zero_add]).mp hhead.signature) rfl
  have hcame : headCameThrough sad = true := by
    rw [headCameThrough, hsignature, h.padding.slice_of_length List.length_replicate,
      decide_eq_true rfl, decide_eq_true rfl, Bool.and_self]
  have hfit := backup_fits g.plan
  rw [gptTailWriterWriteData]
  simp only [hcame, if_true]
  constructor
  · intro i hi
    rw [copyInto_outside (Or.inr (by omega)), copyInto_inside hi]
  · intro i hi
    rw [copyInto_inside (by omega), Nat.mul_comm g.plan.gptPartStart]

/-- A successful read of the array yields its blocks. -/
theorem readArray_eq {isoBlock : UInt32} {n : Nat} {buf : Buffer}
    (hok : ∀ k < n, 0 ≤ (src (isoBlock + UInt32.ofNat k)).1) :
    ∃ buf' reads, readArray src isoBlock n buf = (some buf', reads) ∧
      ∀ i < n * 2048, buf' i = (src (isoBlock + UInt32.ofNat (i / 2048))).2 (i % 2048) := by
  induction n with
  | zero => exact ⟨buf, [], rfl, fun i hi => absurd hi (by omega)⟩
  | succ n ih =>
    obtain ⟨buf', reads, hread, hbytes⟩ := ih fun k hk => hok k (by omega)
    refine ⟨copyInto buf' (n * 2048) 2048 (src (isoBlock + UInt32.ofNat n)).2,
      reads ++ [⟨.backupBuffer, n * 2048, 2048⟩], ?_, ?_⟩
    · rw [readArray, hread]
      simp only
      rw [if_neg (Int.not_lt.mpr (hok n (by omega)))]
    · intro i hi
      by_cases hlast : n * 2048 ≤ i
      · have hdiv : i / 2048 = n := by omega
        have hmod : i - n * 2048 = i % 2048 := by omega
        have hin : n * 2048 ≤ i ∧ i < n * 2048 + 2048 := by omega
        simp only [copyInto, hin, and_self, if_true, hdiv, hmod]
      · have hbefore : i < n * 2048 := Nat.lt_of_not_le hlast
        rw [copyInto_outside (Or.inl hbefore)]
        exact hbytes i hbefore

theorem compareEntries_same {buf : Buffer} {bPart mPart n : Nat}
    (h : ∀ i < 128 * n, buf (bPart + i) = sad (mPart + i)) :
    (compareEntries buf sad bPart mPart n).1 = true := by
  induction n with
  | zero => rfl
  | succ n ih =>
    have hslice : slice buf (bPart + 128 * n) 128 = slice sad (mPart + 128 * n) 128 := by
      refine slice_congr fun i hi => ?_
      rw [Nat.add_assoc, Nat.add_assoc]
      exact h (128 * n + i) (by omega)
    rw [compareEntries]
    simp only [ih fun i hi => h i (by omega), hslice, decide_true, Bool.and_self]

/-- The 32-bit product is the address of the backup header if it does not wrap around. -/
theorem backLba_eq_iff (g : GptTarget) :
    backLba g = g.image.gptBackupEnd * 4 - 1 ↔ g.image.gptBackupEnd ≤ 2 ^ 30 := by
  have hend := g.image.backupEnd_lt
  have hpos := g.image.backupSize_lt
  have hfour : (4 : UInt32).toNat = 4 := rfl
  have hone : (1 : UInt32).toNat = 1 := rfl
  rw [backLba, UInt32.toNat_sub, UInt32.toNat_mul, toNat_word hend, hfour, hone]
  omega

theorem toUInt32_div_four {x : Nat} (hx : x < 2 ^ 34) :
    (UInt64.ofNat x / 4).toUInt32 = UInt32.ofNat (x / 4) := by
  have hfour : (4 : UInt64).toNat = 4 := rfl
  refine UInt32.toNat_inj.mp ?_
  rw [UInt64.toNat_toUInt32, UInt64.toNat_div, hfour, toNat_quad (by omega),
    toNat_word (by omega)]
  omega

theorem toNat_mod_four {x : Nat} (hx : x < 2 ^ 34) : (UInt64.ofNat x % 4).toNat = x % 4 := by
  have hfour : (4 : UInt64).toNat = 4 := rfl
  rw [UInt64.toNat_mod, hfour, toNat_quad (by omega)]

variable {tail buf : Buffer}

/-- The blocks which get read for the array end by the block of the header. -/
theorem numIsoBlocks_eq (g : GptTarget) :
    (toInt ((UInt64.ofNat (backupPartStart g) +
      ((UInt32.ofNat g.plan.maxEntries + 3) / 4).toUInt64) / 4 -
        (UInt32.ofNat (backupPartStart g / 4)).toUInt64 + 1).toUInt32).toNat =
      g.image.gptBackupEnd - backupPartStart g / 4 := by
  have hcount := plan_range g.plan
  have hstart := backupPartStart_eq g
  have hsize := backup_fits g.plan
  have hend := g.image.backupEnd_lt
  have hthree : (3 : UInt32).toNat = 3 := rfl
  have hfour : (4 : UInt32).toNat = 4 := rfl
  have hfour' : (4 : UInt64).toNat = 4 := rfl
  have hone : (1 : UInt64).toNat = 1 := rfl
  have hnum : (((UInt64.ofNat (backupPartStart g) +
      ((UInt32.ofNat g.plan.maxEntries + 3) / 4).toUInt64) / 4 -
        (UInt32.ofNat (backupPartStart g / 4)).toUInt64 + 1).toUInt32).toNat =
      g.image.gptBackupEnd - backupPartStart g / 4 := by
    simp only [UInt64.toNat_toUInt32, UInt64.toNat_add, UInt64.toNat_sub, UInt64.toNat_div,
      UInt32.toNat_toUInt64, UInt32.toNat_div, UInt32.toNat_add, hthree, hfour, hfour', hone]
    rw [toNat_quad (by omega), toNat_word (by omega), toNat_word (by omega)]
    omega
  rw [SystemAreaBounds.toInt_toNat (by rw [hnum]; omega), hnum]

theorem backupArray_accepted (h : Present g sad slots) (hmirror : Mirrored g sad tail)
    (hsrc : Delivers g src tail) :
    (analyzeBackupArray sad src (gptInfo sad) buf (UInt64.ofNat (backupPartStart g))
      (UInt32.ofNat g.plan.maxEntries)).ret = 1 := by
  obtain ⟨hstart, -, -, -⟩ := h.info
  have hback := backupPartStart_eq g
  have hcount := plan_range g.plan
  have hsize := backup_fits g.plan
  have hend := g.image.backupEnd_lt
  have hlt := g.image.backupSize_lt
  rw [g.backupSize_eq] at hlt
  -- the number of the block in the backup
  have hblock (k : Nat) (hk : k < g.image.gptBackupEnd - backupPartStart g / 4) :
      UInt32.ofNat (backupPartStart g / 4) + UInt32.ofNat k =
        UInt32.ofNat (g.image.gptBackupEnd - g.plan.backupSize +
          (backupPartStart g / 4 + k - (g.image.gptBackupEnd - g.plan.backupSize))) := by
    rw [← UInt32.ofNat_add]
    exact congrArg UInt32.ofNat (by omega)
  obtain ⟨buf', reads, hread, hbytes⟩ := @readArray_eq src
    (UInt32.ofNat (backupPartStart g / 4)) (g.image.gptBackupEnd - backupPartStart g / 4) buf
    fun k hk => by
      rw [hblock k hk]
      exact (hsrc _ (by omega)).1
  have hsame : ∀ i < 128 * g.plan.maxEntries,
      buf' (backupPartStart g % 4 * 512 + i) = sad (g.plan.gptPartStart * 512 + i) := by
    intro i hi
    rw [hbytes _ (by omega), hblock _ (by omega), (hsrc _ (by omega)).2 _ (by omega),
      Nat.mul_comm g.plan.gptPartStart, ← hmirror.array i hi]
    exact congrArg tail (by omega)
  simp only [analyzeBackupArray, numIsoBlocks_eq, toUInt32_div_four
    (show backupPartStart g < 2 ^ 34 by omega), hread, toNat_mod_four
    (show backupPartStart g < 2 ^ 34 by omega), hstart, offset_eq, count_eq,
    compareEntries_same hsame, if_true]

/-- The backup header is in the last quarter of the last block. -/
theorem backupHead_found {headCrc pArrCrc : UInt32} (hnew : HeadHolds
      (newHead g fun i => sad (512 + i)) (backLba g) 1 (backupPartStart g) g.plan.maxEntries
      headCrc pArrCrc g.gptDiskGuid) (hmirror : Mirrored g sad tail) {data : Buffer}
    (hdata : ∀ j < 2048, data j = tail ((g.plan.backupSize - 1) * 2048 + j)) :
    HeadHolds (fun i => copyInto (fun _ => 0) 0 2048 data (3 * 512 + i)) (backLba g) 1
      (backupPartStart g) g.plan.maxEntries headCrc pArrCrc g.gptDiskGuid := by
  have hsize := backup_fits g.plan
  refine hnew.congr g.diskGuid_length fun i hi => ?_
  have hin : 3 * 512 + i < 2048 := by omega
  rw [← hmirror.head i (by omega)]
  simp only [copyInto, Nat.zero_le, Nat.zero_add, hin, and_self, if_true, Nat.sub_zero]
  rw [hdata _ hin]
  exact congrArg tail (by omega)

/-- The reader finds the backup header by its announced address, and the same entries. -/
theorem backup_accepted (h : Present g sad slots) (hmirror : Mirrored g sad tail)
    (hsrc : Delivers g src tail) (hsmall : g.image.gptBackupEnd ≤ 2 ^ 30) :
    (isoAnalyzeGptBackup sad src (gptInfo sad)).ret = 1 := by
  obtain ⟨-, hmax, -, hinfo⟩ := h.info
  obtain ⟨crc, hprimary⟩ := h.head
  obtain ⟨crc', hnew⟩ := newHead_holds hprimary
  have hsize := backup_fits g.plan
  have hcount := plan_range g.plan
  have hback := backupPartStart_eq g
  have hlt := g.image.backupSize_lt
  rw [g.backupSize_eq] at hlt
  rw [(backLba_eq_iff g).mpr hsmall] at hinfo
  have hlast : (g.image.gptBackupEnd * 4 - 1) / 4 =
      g.image.gptBackupEnd - g.plan.backupSize + (g.plan.backupSize - 1) := by omega
  have hpos : (g.image.gptBackupEnd * 4 - 1) % 4 = 3 := by omega
  obtain ⟨hok, hdata⟩ := hsrc (g.plan.backupSize - 1) (by omega)
  have hhead := backupHead_found hnew hmirror hdata
  have hentries := isoReadLsb_of_holds hhead.entries (by omega)
  have hstart := isoReadLsb64_of_holds hhead.start (by omega)
  rw [isoAnalyzeGptBackup]
  simp only [hinfo, toUInt32_div_four (show g.image.gptBackupEnd * 4 - 1 < 2 ^ 34 by omega),
    toNat_mod_four (show g.image.gptBackupEnd * 4 - 1 < 2 ^ 34 by omega), hlast, hpos, hmax]
  rw [if_neg (Int.not_lt.mpr hok), hhead.usable, hhead.crcOk]
  simp only [hentries, hstart, Bool.not_true, Bool.false_eq_true, if_false, ne_eq,
    not_true_eq_false]
  exact backupArray_accepted h hmirror hsrc

end Backup

end GptBackup
