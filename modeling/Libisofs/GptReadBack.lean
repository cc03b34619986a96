import Libisofs.GptBlocks
import Libisofs.SystemAreaBounds

/-!
# Reading the blocks of the GPT

What the analysis of an imported image finds in the blocks which got written. The reader
skips entries which it deems invalid.
-/

namespace GptReadBack

open ByteBuffers PartitionRequests Gpt GptBlocks
open SystemAreaTables hiding isoGptEntriesMax

section Numbers

variable {buf : Buffer} {pos num : Nat}

theorem isoReadLsb_of_holds (h : Holds buf pos (toLsb 4 num)) (hnum : num < 2 ^ 32) :
    isoReadLsb buf pos = UInt32.ofNat num := by
  rw [isoReadLsb, h.ofLsb_slice hnum]

theorem isoReadLsb64_of_holds (h : Holds buf pos (toLsb 8 num)) (hnum : num < 2 ^ 64) :
    isoReadLsb64 buf pos = UInt64.ofNat num := by
  rw [isoReadLsb64, h.ofLsb_slice hnum]

theorem toNat_word {num : Nat} (h : num < 2 ^ 32) : (UInt32.ofNat num).toNat = num := by
  rw [UInt32.toNat_ofNat', Nat.mod_eq_of_lt h]

theorem toNat_quad {num : Nat} (h : num < 2 ^ 64) : (UInt64.ofNat num).toNat = num := by
  rw [UInt64.toNat_ofNat', Nat.mod_eq_of_lt h]

end Numbers

section Heads

/-- A header with its own address, the address of the other one, and the start of its array. -/
structure HeadHolds (head : Buffer) (ownLba otherLba arrayStart maxEntries : Nat)
    (headCrc pArrCrc : UInt32) (diskGuid : Guid) : Prop where
  signature : Holds head 0 (ascii "EFI PART")
  revision : Holds head 8 [0, 0, 1, 0]
  headSize : Holds head 12 (toLsb 4 92)
  crc : Holds head 16 (toLsb 4 headCrc.toNat)
  own : Holds head 24 (toLsb 8 ownLba)
  other : Holds head 32 (toLsb 8 otherLba)
  guid : Holds head 56 diskGuid
  start : Holds head 72 (toLsb 8 arrayStart)
  entries : Holds head 80 (toLsb 4 maxEntries)
  entrySize : Holds head 84 (toLsb 4 128)
  arrayCrc : Holds head 88 (toLsb 4 pArrCrc.toNat)
  crc_eq : headCrc = isoCrc32Gpt (copyInto head 16 4 fun _ => 0) 92

variable {head : Buffer} {ownLba otherLba arrayStart maxEntries : Nat}
  {headCrc pArrCrc : UInt32} {diskGuid : Guid}

theorem HeadHolds.usable
    (h : HeadHolds head ownLba otherLba arrayStart maxEntries headCrc pArrCrc diskGuid) :
    isoSeemsUsableGptHead head = true := by
  have hsize := isoReadLsb_of_holds h.headSize (by decide)
  have hentry := isoReadLsb_of_holds h.entrySize (by decide)
  have hsignature : slice head 0 8 = ascii "EFI PART" := h.signature.slice_of_length rfl
  have hrevision : slice head 8 4 = [0, 0, 1, 0] := h.revision.slice_of_length rfl
  simp only [isoSeemsUsableGptHead, hsignature, hrevision, hsize, hentry]
  decide

theorem HeadHolds.headCrc_eq
    (h : HeadHolds head ownLba otherLba arrayStart maxEntries headCrc pArrCrc diskGuid) :
    isoReadLsb head 16 = headCrc := by
  rw [isoReadLsb_of_holds h.crc headCrc.toNat_lt, UInt32.ofNat_toNat]

theorem HeadHolds.crcOk
    (h : HeadHolds head ownLba otherLba arrayStart maxEntries headCrc pArrCrc diskGuid) :
    headCrcOk head = true := by
  rw [headCrcOk, h.headCrc_eq, ← h.crc_eq, decide_eq_true rfl, Bool.true_or]

/-- Only the 92 bytes of the header matter. -/
theorem HeadHolds.congr {head' : Buffer}
    (h : HeadHolds head ownLba otherLba arrayStart maxEntries headCrc pArrCrc diskGuid)
    (hguid : diskGuid.length = 16) (hsame : ∀ i < 92, head' i = head i) :
    HeadHolds head' ownLba otherLba arrayStart maxEntries headCrc pArrCrc diskGuid := by
  have hfield {pos : Nat} {bytes : List UInt8} (hfit : pos + bytes.length ≤ 92)
      (hholds : Holds head pos bytes) : Holds head' pos bytes :=
    (holds_congr fun i hi => hsame (pos + i) (by omega)).mpr hholds
  have hcrc : isoCrc32Gpt (copyInto head' 16 4 fun _ => 0) (92 : Nat) =
      isoCrc32Gpt (copyInto head 16 4 fun _ => 0) (92 : Nat) := by
    refine isoCrc32Gpt_congr (by decide) fun i hi => ?_
    simp only [copyInto, hsame i hi]
  exact ⟨hfield (by decide) h.signature, hfield (by decide) h.revision,
    hfield (by simp) h.headSize, hfield (by simp) h.crc, hfield (by simp) h.own,
    hfield (by simp) h.other, hfield (by omega) h.guid, hfield (by simp) h.start,
    hfield (by simp) h.entries, hfield (by simp) h.entrySize, hfield (by simp) h.arrayCrc,
    h.crc_eq.trans hcrc.symm⟩

/-- The field of the CRC can be set to 0. -/
theorem Holds.cleared {buf : Buffer} {pre mid post : List UInt8}
    (h : Holds buf 0 (pre ++ mid ++ post)) :
    Holds (copyInto buf pre.length mid.length fun _ => 0) 0
      (pre ++ List.replicate mid.length 0 ++ post) := by
  rw [holds_append, holds_append] at h ⊢
  simp only [Nat.zero_add, List.length_append, List.length_replicate] at h ⊢
  refine ⟨⟨?_, ?_⟩, ?_⟩
  · exact h.1.1.copyInto (Or.inl (Nat.le_of_eq (Nat.zero_add _)))
  · intro i b hb
    have hi := (List.getElem?_eq_some_iff.mp hb).1
    rw [List.length_replicate] at hi
    rw [copyInto_inside hi]
    rw [List.getElem?_replicate, if_pos hi] at hb
    exact Option.some.inj hb
  · exact h.2.copyInto (Or.inr (Nat.le_refl _))

variable {g : GptTarget}

theorem backLba_lt (g : GptTarget) : backLba g < 2 ^ 32 := UInt32.toNat_lt _

/-- The fields of the header at their places. -/
theorem holds_gptHeaderBytes (h : Holds head 0 (gptHeaderBytes g headCrc pArrCrc))
    (hcrc : headCrc = isoCrc32Gpt (copyInto head 16 4 fun _ => 0) 92) :
    HeadHolds head 1 (backLba g) g.plan.gptPartStart g.plan.maxEntries headCrc pArrCrc
      g.gptDiskGuid := by
  have hsignature : (ascii "EFI PART").length = 8 := rfl
  have hone : toLsb 4 1 ++ toLsb 4 0 = toLsb 8 1 := rfl
  have hstart : toLsb 4 g.plan.gptPartStart ++ toLsb 4 0 = toLsb 8 g.plan.gptPartStart := by
    have hsmall : g.plan.gptPartStart / 256 ^ 4 = 0 := by
      have := g.plan.lt_end
      omega
    rw [toLsb_add 4 4, hsmall]
  rw [gptHeaderBytes, hone, hstart, lsbHalves_eq, lsbHalves_eq] at h
  simp only [holds_append, List.length_append, hsignature, length_toLsb, List.length_cons,
    List.length_nil, g.diskGuid_length, Nat.zero_add, Nat.reduceAdd] at h
  obtain ⟨⟨⟨⟨⟨⟨⟨⟨⟨⟨⟨⟨⟨hsig, hrev⟩, hsize⟩, hcrcField⟩, -⟩, hown⟩, hother⟩, -⟩, -⟩, hguid⟩, hpart⟩,
    hentries⟩, hentry⟩, harray⟩ := h
  exact ⟨hsig, hrev, hsize, hcrcField, hown, hother, hguid, hpart, hentries, hentry, harray,
    hcrc⟩

/-- The CRC of the header block is the one which the reader computes. -/
theorem headerBlock_crc {pArrCrc : UInt32}
    (h : Holds head 0 (isoWriteGptHeaderBlock g pArrCrc)) :
    ∃ crc, Holds head 0 (gptHeaderBytes g crc pArrCrc) ∧
      crc = isoCrc32Gpt (copyInto head 16 4 fun _ => 0) 92 := by
  rw [isoWriteGptHeaderBlock, holds_append] at h
  refine ⟨_, h.1, isoCrc32Gpt_congr (by decide) fun i hi => ?_⟩
  obtain ⟨pre, post, hpre, hbytes⟩ : ∃ pre post : List UInt8, pre.length = 16 ∧
      ∀ crc, gptHeaderBytes g crc pArrCrc = pre ++ toLsb 4 crc.toNat ++ post := by
    exact ⟨ascii "EFI PART" ++ [0, 0, 1, 0] ++ toLsb 4 92, _, rfl, fun crc => by
      simp only [gptHeaderBytes, List.append_assoc]
      rfl⟩
  have hhead := h.1
  rw [hbytes] at hhead
  have hclear := Holds.cleared hhead
  rw [length_toLsb, hpre] at hclear
  have hzero : gptHeaderBytes g 0 pArrCrc = pre ++ List.replicate 4 0 ++ post := hbytes 0
  have hlen : i < (gptHeaderBytes g 0 pArrCrc).length := by
    rw [length_gptHeaderBytes]
    exact hi
  rw [← hzero] at hclear
  have := Holds.agree holds_bufferOf hclear hlen
  rwa [Nat.zero_add] at this

end Heads

section Entries

/-- An entry as it fits in its 128 bytes. -/
structure EntrySizes (e : GptEntry) : Prop where
  typeGuid : e.typeGuid.length = 16
  partitionGuid : e.partitionGuid.length = 16
  name : e.name.length = 72
  startLba : e.startLba < 2 ^ 64
  endLba : e.endLba < 2 ^ 64

/-- The reader does not skip the entry. -/
def Kept (e : GptEntry) : Prop :=
  ¬ (e.startLba = 0 ∧ e.endLba = 0) ∧ e.startLba ≤ (e.endLba + 1) % 2 ^ 64

instance (e : GptEntry) : Decidable (Kept e) := inferInstanceAs (Decidable (_ ∧ _))

/-- The request which the reader makes of the entry number `i`, counted from 0. -/
def readEntry (i : Nat) (e : GptEntry) : GptRequest :=
  ⟨UInt64.ofNat e.startLba, UInt64.ofNat e.endLba + 1 - UInt64.ofNat e.startLba, e.flags,
    e.typeGuid, e.partitionGuid, e.name, i + 1⟩

def readSlots : Nat → List (Option GptEntry) → List GptRequest
  | _, [] => []
  | i, none :: rest => readSlots (i + 1) rest
  | i, some e :: rest =>
    if Kept e then readEntry i e :: readSlots (i + 1) rest else readSlots (i + 1) rest

variable {sad : Buffer} {slots : List (Option GptEntry)}

theorem length_gptEntryBytes {e : GptEntry} (h : EntrySizes e) :
    (gptEntryBytes e).length = 128 := by
  simp only [gptEntryBytes, List.length_append, length_lsbHalves, h.typeGuid, h.partitionGuid,
    h.name]

theorem length_gptSlotBytes {slot : Option GptEntry} (h : ∀ e, slot = some e → EntrySizes e) :
    (gptSlotBytes slot).length = 128 := by
  cases slot with
  | none => exact List.length_replicate
  | some e => exact length_gptEntryBytes (h e rfl)

/-- The fields of an entry at their places. -/
structure EntryHolds (sad : Buffer) (part : Nat) (e : GptEntry) : Prop where
  typeGuid : slice sad part 16 = e.typeGuid
  partitionGuid : slice sad (part + 16) 16 = e.partitionGuid
  startLba : isoReadLsb64 sad (part + 32) = UInt64.ofNat e.startLba
  endLba : isoReadLsb64 sad (part + 40) = UInt64.ofNat e.endLba
  flags : isoReadLsb64 sad (part + 48) = e.flags
  name : slice sad (part + 56) 72 = e.name

theorem holds_gptEntryBytes {part : Nat} {e : GptEntry} (hsizes : EntrySizes e)
    (h : Holds sad part (gptEntryBytes e)) : EntryHolds sad part e := by
  rw [gptEntryBytes, lsbHalves_eq, lsbHalves_eq, lsbHalves_eq] at h
  simp only [holds_append, List.length_append, length_toLsb, hsizes.typeGuid,
    hsizes.partitionGuid, Nat.reduceAdd] at h
  obtain ⟨⟨⟨⟨⟨htype, hguid⟩, hstart⟩, hend⟩, hflags⟩, hname⟩ := h
  have hread := isoReadLsb64_of_holds hflags e.flags.toNat_lt
  rw [UInt64.ofNat_toNat] at hread
  exact ⟨htype.slice_of_length hsizes.typeGuid, hguid.slice_of_length hsizes.partitionGuid,
    isoReadLsb64_of_holds hstart hsizes.startLba, isoReadLsb64_of_holds hend hsizes.endLba,
    hread, hname.slice_of_length hsizes.name⟩

/-- If all bytes of an entry are 0, then so are its numbers. -/
theorem read_allZero {part k : Nat} (hall : slice sad part 128 = List.replicate 128 0)
    (hk : k + 8 ≤ 128) : isoReadLsb64 sad (part + k) = 0 := by
  have hrep : List.replicate 128 (0 : UInt8) = slice (fun _ => 0) 0 128 := by
    simp [slice]
  rw [hrep] at hall
  have hsame : slice sad (part + k) 8 = slice (fun _ => 0) 0 8 :=
    slice_congr fun i hi => by
      rw [Nat.add_assoc]
      exact (eq_of_slice_eq hall).2 (k + i) (by omega)
  rw [isoReadLsb64, hsame]
  rfl

/-- The test for invalid entries. -/
theorem skipped_iff {part : Nat} {e : GptEntry} (hsizes : EntrySizes e)
    (h : EntryHolds sad part e) :
    (slice sad part 128 = List.replicate 128 0 ||
      (isoReadLsb64 sad (part + 32) = 0 && isoReadLsb64 sad (part + 40) = 0) ||
        decide (isoReadLsb64 sad (part + 40) + 1 < isoReadLsb64 sad (part + 32))) = true ↔
      ¬ Kept e := by
  have hzero {num : Nat} (hnum : num < 2 ^ 64) : UInt64.ofNat num = 0 ↔ num = 0 := by
    rw [← UInt64.toNat_inj, toNat_quad hnum]
    rfl
  have hnext : UInt64.ofNat e.endLba + 1 < UInt64.ofNat e.startLba ↔
      (e.endLba + 1) % 2 ^ 64 < e.startLba := by
    rw [UInt64.lt_iff_toNat_lt, UInt64.toNat_add, toNat_quad hsizes.startLba,
      toNat_quad hsizes.endLba]
    rfl
  rw [h.startLba, h.endLba]
  rw [Kept, not_and_or, not_not, Nat.not_le]
  simp only [Bool.or_eq_true, Bool.and_eq_true, decide_eq_true_eq, hzero hsizes.startLba,
    hzero hsizes.endLba, hnext]
  constructor
  · rintro ((hall | hboth) | hless)
    · left
      exact ⟨(hzero hsizes.startLba).mp (h.startLba.symm.trans (read_allZero hall (by decide))),
        (hzero hsizes.endLba).mp (h.endLba.symm.trans (read_allZero hall (by decide)))⟩
    · exact Or.inl hboth
    · exact Or.inr hless
  · rintro (hboth | hless)
    · exact Or.inl (Or.inr hboth)
    · exact Or.inr hless

/-- The reader yields the entries which it does not skip. -/
theorem gptEntries_eq {p i : Nat} {reqs : List GptRequest} (hp : p < 64)
    (hsizes : ∀ e, some e ∈ slots → EntrySizes e)
    (hroom : reqs.length + slots.length ≤ 248)
    (h : Holds sad (p * 512 + 128 * i) (slots.flatMap gptSlotBytes)) :
    (gptEntries sad (UInt64.ofNat p) slots.length i reqs).1 = 1 ∧
      (gptEntries sad (UInt64.ofNat p) slots.length i reqs).2.1 = reqs ++ readSlots i slots := by
  induction slots generalizing i reqs with
  | nil => exact ⟨rfl, (List.append_nil _).symm⟩
  | cons slot rest ih =>
    have hpos : (UInt64.ofNat p * 512).toNat = p * 512 := by
      have hnum := toNat_quad (show p < 2 ^ 64 by omega)
      rw [SystemAreaBounds.toNat_byteOffset (by omega), hnum]
    have hslot := length_gptSlotBytes fun e (he : slot = some e) =>
      hsizes e (he ▸ List.mem_cons_self ..)
    rw [List.flatMap_cons, holds_append, hslot] at h
    obtain ⟨hfirst, hlater⟩ := h
    have hnext : p * 512 + 128 * i + 128 = p * 512 + 128 * (i + 1) := by omega
    rw [hnext] at hlater
    have hsizes' : ∀ e, some e ∈ rest → EntrySizes e := fun e he =>
      hsizes e (List.mem_cons_of_mem _ he)
    rw [List.length_cons] at hroom ⊢
    rw [gptEntries]
    simp only [hpos]
    cases slot with
    | none =>
      have hall : slice sad (p * 512 + 128 * i) 128 = List.replicate 128 0 :=
        hfirst.slice_of_length List.length_replicate
      rw [hall, decide_eq_true rfl, Bool.true_or, Bool.true_or, if_pos rfl]
      exact ih hsizes' (by omega) hlater
    | some e =>
      have he := hsizes e (List.mem_cons_self ..)
      have hfields := holds_gptEntryBytes he hfirst
      rw [readSlots]
      by_cases hkept : Kept e
      · rw [if_neg fun hskip => (skipped_iff he hfields).mp hskip hkept, if_pos hkept,
          if_neg (by rw [SystemAreaTables.isoGptEntriesMax]; omega), hfields.typeGuid,
          hfields.partitionGuid, hfields.startLba, hfields.endLba, hfields.flags, hfields.name]
        have hrest := @ih (i + 1) (reqs ++ [readEntry i e]) hsizes' (by
          rw [List.length_append, List.length_singleton]
          omega) hlater
        rw [List.append_assoc, List.singleton_append] at hrest
        exact hrest
      · rw [if_pos ((skipped_iff he hfields).mpr hkept), if_neg hkept]
        exact ih hsizes' (by omega) hlater

/-- Nothing gets lost exactly if no entry gets skipped. -/
theorem readSlots_eq_iff {entries : List GptEntry} {i free : Nat} :
    readSlots i (entries.map some ++ List.replicate free none) =
      entries.mapIdx (fun k e => readEntry (i + k) e) ↔ ∀ e ∈ entries, Kept e := by
  have hnone (i : Nat) : readSlots i (List.replicate free none) = [] := by
    induction free generalizing i with
    | zero => rfl
    | succ n ih => exact ih (i + 1)
  have hle (entries : List GptEntry) (i : Nat) :
      (readSlots i (entries.map some ++ List.replicate free none)).length ≤ entries.length := by
    induction entries generalizing i with
    | nil => simp [hnone]
    | cons e rest ih =>
      have hrest := ih (i + 1)
      rw [List.map_cons, List.cons_append, readSlots, List.length_cons]
      split
      · rw [List.length_cons]
        omega
      · omega
  induction entries generalizing i with
  | nil => simp [hnone]
  | cons e rest ih =>
    rw [List.map_cons, List.cons_append, readSlots, List.mapIdx_cons, List.forall_mem_cons]
    have hshift : rest.mapIdx (fun k e => readEntry (i + (k + 1)) e) =
        rest.mapIdx (fun k e => readEntry (i + 1 + k) e) := by
      simp only [Nat.add_assoc, Nat.add_comm 1]
    by_cases hkept : Kept e
    · rw [if_pos hkept, hshift]
      show readEntry i e :: _ = readEntry i e :: _ ↔ _
      rw [List.cons_inj_right]
      exact ih.trans (and_iff_right hkept).symm
    · rw [if_neg hkept]
      constructor
      · intro heq
        have hlen := congrArg List.length heq
        have := hle rest (i + 1)
        rw [List.length_cons, List.length_mapIdx] at hlen
        omega
      · exact fun hall => absurd hall.1 hkept

end Entries

end GptReadBack
