import Libisofs.Lib.Gaps
import Libisofs.MbrSlots

/-!
# MBR partition requests are honoured or refused

The overlap test adds start and size of a request by 64 bit arithmetic. If no sum wraps
around, except of the last request, then the partitions are written as they are requested.
-/

namespace MbrHonoured

open ByteBuffers PartitionRequests ApmMbr RewriteMaps Slots MbrSlots

section Assigning

variable {reqs : List MbrPartitionRequest} {slots : Fin 4 → Option MbrPartitionRequest}

def desires (r : MbrPartitionRequest) : Bool := 0 < r.desiredSlot

/-- The desired slots are free and differ from each other. So each request gets its one. -/
theorem assignDesired_housed (hslots : ∀ r ∈ reqs, r.desiredSlot ≤ 4)
    (hdistinct : reqs.Pairwise fun p r => p.desiredSlot = r.desiredSlot → ¬ desires p)
    (hfree : ∀ r ∈ reqs, ∀ slot : Fin 4, r.desiredSlot = slot + 1 → slots slot = none) :
    ∃ slots', assignDesired reqs slots = .ok slots' ∧
      Housed slots (reqs.filter desires) slots' ∧
      ∀ r ∈ reqs, ∀ slot : Fin 4, r.desiredSlot = slot + 1 → slots' slot = some r := by
  induction reqs generalizing slots with
  | nil => exact ⟨slots, rfl, Housed.nil, by simp⟩
  | cons r rest ih =>
    obtain ⟨hr, hrest⟩ := List.pairwise_cons.mp hdistinct
    have hle := hslots r List.mem_cons_self
    by_cases hdesires : desires r = true
    · have hpos : 0 < r.desiredSlot := of_decide_eq_true hdesires
      have hrange : 1 ≤ r.desiredSlot ∧ r.desiredSlot ≤ 4 := by omega
      let slot : Fin 4 := ⟨(r.desiredSlot - 1).toNat, by omega⟩
      have hslot : r.desiredSlot = slot + 1 := by
        show r.desiredSlot = ((r.desiredSlot - 1).toNat : Nat) + 1
        omega
      have hnone := hfree r List.mem_cons_self slot hslot
      have hfree' : ∀ s ∈ rest, ∀ i : Fin 4, s.desiredSlot = i + 1 → put slots slot r i = none := by
        intro s hs i hi
        have hne : i ≠ slot := by
          rintro rfl
          exact hr s hs (hslot.trans hi.symm) hdesires
        rw [put_ne hne]
        exact hfree s (List.mem_cons_of_mem _ hs) i hi
      obtain ⟨slots', heq, hhoused, hplaced⟩ :=
        ih (fun s hs => hslots s (List.mem_cons_of_mem _ hs)) hrest hfree'
      refine ⟨slots', ?_, ?_, ?_⟩
      · rw [assignDesired, dif_pos hrange]
        simp only [slot] at hnone
        rw [if_neg (by rw [hnone]; simp)]
        exact heq
      · rw [List.filter_cons_of_pos hdesires]
        exact Housed.cons hnone hhoused
      · intro s hs i hi
        rcases List.mem_cons.mp hs with rfl | hmem
        · have hi' : i = slot := Fin.ext (by omega)
          exact hi' ▸ hhoused.keeps slot s put_self
        · exact hplaced s hmem i hi
    · have hpos : ¬ 0 < r.desiredSlot := fun h => hdesires (decide_eq_true h)
      obtain ⟨slots', heq, hhoused, hplaced⟩ :=
        ih (fun s hs => hslots s (List.mem_cons_of_mem _ hs)) hrest
          (fun s hs => hfree s (List.mem_cons_of_mem _ hs))
      refine ⟨slots', ?_, ?_, ?_⟩
      · rw [assignDesired, dif_neg (by omega)]
        exact heq
      · rw [List.filter_cons_of_neg hdesires]
        exact hhoused
      · intro s hs i hi
        rcases List.mem_cons.mp hs with rfl | hmem
        · omega
        · exact hplaced s hmem i hi

/-- The others find slots if there are enough of them. -/
theorem assignOthers_housed
    (hroom : (taken slots).card + (reqs.filter fun r => !desires r).length ≤ 4) :
    ∃ slots', assignOthers reqs slots = .ok slots' ∧
      Housed slots (reqs.filter fun r => !desires r) slots' := by
  induction reqs generalizing slots with
  | nil => exact ⟨slots, rfl, Housed.nil⟩
  | cons r rest ih =>
    by_cases hdesires : desires r = true
    · have hskip : (r :: rest).filter (fun r => !desires r) = rest.filter fun r => !desires r :=
        List.filter_cons_of_neg (by simp [hdesires])
      rw [hskip] at hroom ⊢
      obtain ⟨slots', heq, hhoused⟩ := ih hroom
      refine ⟨slots', ?_, hhoused⟩
      rw [assignOthers, if_pos (of_decide_eq_true hdesires)]
      exact heq
    · have htake : (r :: rest).filter (fun r => !desires r) =
          r :: rest.filter fun r => !desires r :=
        List.filter_cons_of_pos (by simpa using hdesires)
      rw [htake, List.length_cons] at hroom
      rw [htake]
      have hpos : ¬ 0 < r.desiredSlot := fun h => hdesires (decide_eq_true h)
      cases hfind : (List.finRange 4).find? fun i => (slots i).isNone with
      | none =>
        have hsome : (taken slots).card < Fintype.card (Fin 4) := by
          rw [Fintype.card_fin]
          omega
        obtain ⟨i, hi⟩ := exists_free hsome
        have := List.find?_eq_none.mp hfind i (List.mem_finRange i)
        simp [hi] at this
      | some slot =>
        have hnone : slots slot = none := by simpa using List.find?_some hfind
        obtain ⟨slots', heq, hhoused⟩ := @ih (put slots slot r)
          (by rw [card_taken_put hnone]; omega)
        refine ⟨slots', ?_, Housed.cons hnone hhoused⟩
        rw [assignOthers, if_neg hpos, hfind]
        exact heq

/-- Up to four admitted requests get distributed to the slots. -/
theorem assign_housed (h : Admitted reqs) : ∃ slots' slots'' : Fin 4 → Option MbrPartitionRequest,
    assignDesired reqs (fun _ => none) = .ok slots' ∧ assignOthers reqs slots' = .ok slots'' ∧
      (∀ r, (heldBy slots'' r).card = reqs.count r) ∧
      ∀ r ∈ reqs, ∀ slot : Fin 4, r.desiredSlot = slot + 1 → slots'' slot = some r := by
  have hdistinct : reqs.Pairwise fun p r => p.desiredSlot = r.desiredSlot → ¬ desires p := by
    refine h.distinct.imp fun {p r} hpr hsame hdesires => ?_
    have hpos : 0 < p.desiredSlot := of_decide_eq_true hdesires
    have := hpr hsame
    omega
  obtain ⟨slots', hdesired, hhoused, hplaced⟩ := @assignDesired_housed reqs (fun _ => none)
    (fun r hr => (h.slots r hr).2) hdistinct fun _ _ _ _ => rfl
  have hperm : (reqs.filter desires ++ reqs.filter fun r => !desires r).Perm reqs :=
    List.filter_append_perm desires reqs
  have hroom : (taken slots').card + (reqs.filter fun r => !desires r).length ≤ 4 := by
    have hnone : taken (fun _ : Fin 4 => (none : Option MbrPartitionRequest)) = ∅ := by
      ext i
      simp
    have hlength := hperm.length_eq
    rw [List.length_append] at hlength
    have hfew := h.few
    rw [hhoused.taken, hnone, Finset.card_empty]
    omega
  obtain ⟨slots'', hothers, hhoused'⟩ := assignOthers_housed hroom
  refine ⟨slots', slots'', hdesired, hothers, fun r => ?_, fun r hr slot hslot => ?_⟩
  · rw [(hhoused.append hhoused').from_free]
    exact hperm.count_eq r
  · exact hhoused'.keeps slot r (hplaced r hr slot hslot)

end Assigning

section Numbers

variable {t : Ecma119Image} {imgBlocks : UInt32} {p r : MbrPartitionRequest}
  {reqs rest : List MbrPartitionRequest}

/-- The largest number of blocks for which iso_compute_cyl_head_sec() is good. -/
def maxBlocks : Nat := 0xfffffffc

/-- The first block and the block after the last one. -/
def stop (e : MbrEntry) : Nat := e.startLba + e.sectors

theorem toNat_last (x : UInt64) : (x - 1).toUInt32.toNat = (x.toNat + (2 ^ 32 - 1)) % 2 ^ 32 := by
  have hx := x.toNat_lt
  have hsub : (x - 1).toNat = (2 ^ 64 - 1 + x.toNat) % 2 ^ 64 := UInt64.toNat_sub x 1
  rw [UInt64.toNat_toUInt32, hsub]
  omega

/-- What gets written of the numbers of a request. -/
theorem entry_numbers (hstart : r.startBlock.toNat ≤ maxBlocks) :
    (writeMbrPartitionEntry t r).startLba = r.startBlock.toNat ∧
      (writeMbrPartitionEntry t r).sectors =
        (min ((r.startBlock.toNat + r.blockCount.toNat) % 2 ^ 32) maxBlocks + 2 ^ 32 -
          r.startBlock.toNat) % 2 ^ 32 := by
  rw [maxBlocks] at hstart ⊢
  have hfirst : ¬ r.startBlock > 0xfffffffc := by
    rw [gt_iff_lt, UInt64.lt_iff_toNat_lt]
    show ¬ 0xfffffffc < r.startBlock.toNat
    omega
  have hend : (r.startBlock + r.blockCount).toUInt32.toUInt64.toNat =
      (r.startBlock.toNat + r.blockCount.toNat) % 2 ^ 32 := by
    rw [UInt32.toNat_toUInt64, UInt64.toNat_toUInt32, UInt64.toNat_add]
    omega
  simp only [writeMbrPartitionEntry, isoComputeCylHeadSec, if_true, hfirst, if_false, true_and,
    Bool.false_eq_true]
  rw [toNat_last]
  split
  next hbig =>
    rw [gt_iff_lt, UInt64.lt_iff_toNat_lt, hend] at hbig
    replace hbig : 0xfffffffc < (r.startBlock.toNat + r.blockCount.toNat) % 2 ^ 32 := hbig
    rw [Nat.min_eq_right (by omega)]
    show ((0xfffffffc + (2 ^ 32 - 1)) % 2 ^ 32 + 1 + 2 ^ 32 - r.startBlock.toNat) % 2 ^ 32 = _
    rfl
  next hsmall =>
    rw [gt_iff_lt, UInt64.lt_iff_toNat_lt, hend] at hsmall
    replace hsmall : ¬ 0xfffffffc < (r.startBlock.toNat + r.blockCount.toNat) % 2 ^ 32 := hsmall
    rw [hend, Nat.min_eq_left (by omega)]
    omega

/-- A partition which is inside the image gets written with the size of its request. -/
theorem stop_eq (h : r.startBlock.toNat + r.blockCount.toNat ≤ maxBlocks) :
    stop (writeMbrPartitionEntry t r) = r.startBlock.toNat + r.blockCount.toNat := by
  obtain ⟨hstart, hsectors⟩ := entry_numbers (t := t) (r := r) (by omega)
  rw [maxBlocks] at h hsectors
  rw [stop, hstart, hsectors]
  omega

/-- If the sum wraps around, then the partition ends far behind its end. -/
theorem stop_wrapped (hstart : r.startBlock.toNat < 2 ^ 32)
    (hwrap : 2 ^ 64 ≤ r.startBlock.toNat + r.blockCount.toNat)
    (hend : (r.startBlock + r.blockCount).toNat ≤ maxBlocks)
    (hsmall : r.startBlock.toNat ≤ maxBlocks) :
    2 ^ 32 ≤ stop (writeMbrPartitionEntry t r) := by
  obtain ⟨hlba, hsectors⟩ := entry_numbers (t := t) hsmall
  have hcount := r.blockCount.toNat_lt
  rw [UInt64.toNat_add] at hend
  rw [maxBlocks] at hend hsectors
  rw [stop, hlba, hsectors]
  omega

end Numbers

section Order

variable {t : Ecma119Image} {imgBlocks : UInt32} {p r : MbrPartitionRequest}
  {reqs rest : List MbrPartitionRequest}

/-- The block where a request without size shall end. -/
def nextBlock (imgBlocks : UInt32) (reqs : List MbrPartitionRequest) (k : Nat) : Nat :=
  (nextStart imgBlocks (reqs.drop (k + 1))).toNat

def Before (p r : MbrPartitionRequest) : Prop :=
  p.startBlock.toNat + p.blockCount.toNat ≤ r.startBlock.toNat

/-- What the overlap test says about the starts. -/
def StartsBefore (p r : MbrPartitionRequest) : Prop :=
  p.startBlock.toNat < r.startBlock.toNat ∨
    r.blockCount = 0 ∧ p.startBlock.toNat = r.startBlock.toNat

instance : IsTrans MbrPartitionRequest Before := ⟨fun p q r hpq hqr => by
  rw [Before] at *
  omega⟩

instance : IsTrans MbrPartitionRequest StartsBefore := ⟨fun p q r hpq hqr => by
  rcases hqr with hlt | ⟨hauto, hsame⟩
  · rw [StartsBefore] at hpq
    exact Or.inl (by omega)
  · rcases hpq with hlt | ⟨-, hsame'⟩
    · exact Or.inl (hsame ▸ hlt)
    · exact Or.inr ⟨hauto, hsame'.trans hsame⟩⟩

theorem startsBefore_of_tolerated (h : mbrOverlaps p r = false) :
    StartsBefore p r ∧ (p.startBlock + p.blockCount).toNat ≤ r.startBlock.toNat := by
  obtain ⟨horder, hend⟩ := mbrOverlaps_false_iff.mp h
  refine ⟨?_, UInt64.le_iff_toNat_le.mp hend⟩
  rcases horder with hlt | ⟨hauto, hsame⟩
  · exact Or.inl (UInt64.lt_iff_toNat_lt.mp hlt)
  · exact Or.inr ⟨hauto, congrArg UInt64.toNat hsame.symm⟩

theorem startsBefore_pairwise (h : Tolerated reqs) : reqs.Pairwise StartsBefore :=
  List.isChain_iff_pairwise.mp (h.imp fun _ _ htest => (startsBefore_of_tolerated htest).1)

theorem filled_getElem? (k : Nat) : (filled imgBlocks reqs)[k]? =
    (reqs[k]?).map fun r => fillMbr imgBlocks r (reqs.drop (k + 1)) := by
  induction reqs generalizing k with
  | nil => rfl
  | cons r rest ih =>
    cases k with
    | zero => rfl
    | succ k => simpa [filled] using ih k

/-- A request without size reaches up to the next one. -/
theorem fillMbr_reaches (hauto : r.blockCount = 0) (hle : r.startBlock ≤ nextStart imgBlocks rest) :
    (fillMbr imgBlocks r rest).startBlock.toNat + (fillMbr imgBlocks r rest).blockCount.toNat =
      (nextStart imgBlocks rest).toNat := by
  have hcount : (fillMbr imgBlocks r rest).blockCount =
      nextStart imgBlocks rest - r.startBlock := by
    rw [fillMbr, if_neg (by simpa using hauto)]
  have hnat := UInt64.le_iff_toNat_le.mp hle
  rw [fillMbr_startBlock, hcount, UInt64.toNat_sub_of_le _ _ hle]
  omega

/-- The end of the image. -/
theorem nextStart_nil : (nextStart imgBlocks []).toNat = 4 * imgBlocks.toNat := by
  have himg := imgBlocks.toNat_lt
  rw [nextStart, UInt64.toNat_mul, UInt32.toNat_toUInt64]
  show imgBlocks.toNat * 4 % 2 ^ 64 = _
  omega

/-- All starts are before the end of the image, and the overlap test is passed. -/
theorem le_nextStart (hinside : ∀ r ∈ reqs, r.startBlock.toNat < 4 * imgBlocks.toNat)
    (h : Tolerated reqs) {k : Nat} (hk : reqs[k]? = some r) :
    r.startBlock ≤ nextStart imgBlocks (reqs.drop (k + 1)) := by
  rw [UInt64.le_iff_toNat_le]
  cases hnext : reqs[k + 1]? with
  | none =>
    have hdrop : reqs.drop (k + 1) = [] := List.drop_of_length_le (by simpa using hnext)
    rw [hdrop, nextStart_nil]
    exact Nat.le_of_lt (hinside r (List.mem_of_getElem? hk))
  | some s =>
    have hdrop : reqs.drop (k + 1) = s :: reqs.drop (k + 2) :=
      (List.drop_eq_getElem?_toList_append).trans (by rw [hnext]; rfl)
    obtain ⟨hlt, rfl⟩ := List.getElem?_eq_some_iff.mp hk
    obtain ⟨hlt', rfl⟩ := List.getElem?_eq_some_iff.mp hnext
    have hbefore := List.pairwise_iff_getElem.mp (startsBefore_pairwise h) k (k + 1) hlt hlt'
      (Nat.lt_succ_self k)
    rw [hdrop, nextStart]
    rw [StartsBefore] at hbefore
    omega

/-- Without wrapping around, each partition ends before the next one begins. -/
theorem filled_before (h : Tolerated reqs)
    (hwrap : ∀ r ∈ reqs.dropLast, r.startBlock.toNat + r.blockCount.toNat < 2 ^ 64) :
    (filled imgBlocks reqs).IsChain Before := by
  induction reqs with
  | nil => exact List.IsChain.nil
  | cons p rest ih =>
    cases rest with
    | nil => exact List.IsChain.singleton _
    | cons r rest =>
      obtain ⟨htest, hrest⟩ := List.isChain_cons_cons.mp h
      obtain ⟨hstarts, hend⟩ := startsBefore_of_tolerated htest
      rw [List.dropLast_cons_cons] at hwrap
      refine List.isChain_cons_cons.mpr
        ⟨?_, ih hrest fun s hs => hwrap s (List.mem_cons_of_mem _ hs)⟩
      rw [Before, fillMbr_startBlock (r := r)]
      by_cases hauto : p.blockCount = 0
      · have hle : p.startBlock ≤ nextStart imgBlocks (r :: rest) := by
          rw [UInt64.le_iff_toNat_le, nextStart]
          rw [StartsBefore] at hstarts
          omega
        rw [fillMbr_reaches hauto hle]
        exact Nat.le_refl _
      · have hsame : fillMbr imgBlocks p (r :: rest) = p := if_pos hauto
        have hsum := hwrap p List.mem_cons_self
        rw [UInt64.toNat_add] at hend
        rw [hsame]
        omega

end Order

section Outcome

variable {t : Ecma119Image} {imgBlocks : UInt32} {out : MbrOutcome} {buf : Buffer}
  {slots : Fin 4 → Option MbrPartitionRequest}

def entryOf (out : MbrOutcome) (slot : Fin 4) : Option MbrEntry := out.slots.getD slot none

/-- The image, the entries and the slots from which they are made. -/
structure Distributed (t : Ecma119Image) (imgBlocks : UInt32) (out : MbrOutcome)
    (slots : Fin 4 → Option MbrPartitionRequest) : Prop where
  mbrReq : out.image.mbrReq = filled imgBlocks t.mbrReq
  entries : ∀ slot, entryOf out slot =
    ((slots slot).filter (·.blockCount ≠ 0)).map (writeMbrPartitionEntry t)
  held : ∀ r, (heldBy slots r).card = (filled imgBlocks t.mbrReq).count r
  placed : ∀ r ∈ filled imgBlocks t.mbrReq, ∀ slot : Fin 4, r.desiredSlot = slot + 1 →
    slots slot = some r

theorem isoWriteMbr_ok (hadmitted : Admitted t.mbrReq) (htolerated : Tolerated t.mbrReq)
    (hne : t.mbrReq ≠ []) :
    ∃ out slots, isoWriteMbr t imgBlocks = .ok out ∧ Distributed t imgBlocks out slots := by
  obtain ⟨slots', slots'', hdesired, hothers, hheld, hplaced⟩ :=
    assign_housed (@Admitted.filled imgBlocks _ hadmitted)
  have hadjust : adjustMbr imgBlocks none t.mbrReq = .ok (filled imgBlocks t.mbrReq) :=
    adjustMbr_eq_filled (by simp) htolerated
  refine ⟨⟨1, { t with mbrReq := filled imgBlocks t.mbrReq }, (List.finRange 4).map fun slot =>
    ((slots'' slot).filter (·.blockCount ≠ 0)).map (writeMbrPartitionEntry t)⟩, slots'', ?_, rfl,
    fun slot => ?_, hheld, hplaced⟩
  · rw [isoWriteMbr, if_neg hne, hadjust]
    simp only [bind, Except.bind, hdesired, hothers]
  · simp [entryOf, List.getD]

theorem tolerated_of_isoWriteMbr (h : isoWriteMbr t imgBlocks = .ok out) :
    Tolerated t.mbrReq := by
  rw [isoWriteMbr] at h
  split at h
  next hnone => exact hnone ▸ List.IsChain.nil
  next =>
    simp only [Results.bind_eq_ok] at h
    obtain ⟨mbrReq, hadjust, -⟩ := h
    exact (tolerated_of_adjustMbr hadjust).1

theorem length_slotBytes (e : Option MbrEntry) : (slotBytes e).length = 16 := by
  cases e with
  | none => rfl
  | some e => simp [slotBytes, entryBytes, chsBytes]

/-- The bytes of a slot are those of its entry. -/
theorem slice_writeSlots (slots : List (Option MbrEntry)) {k : Nat} (hk : k < 4) :
    slice (writeSlots slots buf) (446 + 16 * k) 16 = slotBytes (slots.getD k none) := by
  refine Holds.slice_of_length (fun i b hb => ?_) (length_slotBytes _)
  have hi := (List.getElem?_eq_some_iff.mp hb).1
  rw [length_slotBytes] at hi
  have hslot : (446 + 16 * k + i - 446) / 16 = k := by omega
  have hbyte : (446 + 16 * k + i - 446) % 16 = i := by omega
  rw [writeSlots, if_pos (by omega), hslot, hbyte, List.getD, hb]
  rfl

end Outcome

section Main

/-- What an accepted partition table looks like. -/
structure Honoured (t : Ecma119Image) (imgBlocks : UInt32) (buf : Buffer) (out : MbrOutcome) :
    Prop where
  bytes : t.mbrReq ≠ [] → ∀ slot : Fin 4,
    slice (mbrBuffer t imgBlocks buf) (446 + 16 * slot) 16 = slotBytes (entryOf out slot)
  kept : ∀ k : Nat, out.image.mbrReq[k]? = (t.mbrReq[k]?).map fun r =>
    if r.blockCount ≠ 0 then r
    else { r with blockCount := UInt64.ofNat (nextBlock imgBlocks t.mbrReq k) - r.startBlock }
  occupied : ∀ r ∈ out.image.mbrReq, r.blockCount ≠ 0 →
    ∃! slot, entryOf out slot = some (writeMbrPartitionEntry t r)
  desired : ∀ r ∈ out.image.mbrReq, r.blockCount ≠ 0 → ∀ slot : Fin 4,
    r.desiredSlot = slot + 1 → entryOf out slot = some (writeMbrPartitionEntry t r)
  requested : ∀ slot e, entryOf out slot = some e → ∃ r ∈ out.image.mbrReq,
    r.blockCount ≠ 0 ∧ e = writeMbrPartitionEntry t r ∧ e.startLba = r.startBlock.toNat
  disjoint : ∀ slot slot' e e', slot ≠ slot' → entryOf out slot = some e →
    entryOf out slot' = some e' → IntervalGaps.Apart MbrEntry.startLba stop e e'
  /-- An automatic size reaches up to the next request, or to the end of the image. -/
  automatic : ∀ k r r', t.mbrReq[k]? = some r → r.blockCount = 0 →
    out.image.mbrReq[k]? = some r' → stop (writeMbrPartitionEntry t r') =
      nextBlock imgBlocks t.mbrReq k

def Ascending (reqs : List MbrPartitionRequest) : Prop :=
  reqs.IsChain fun p r => p.startBlock < r.startBlock ∧ Before p r

/-- The requests are honoured, or refused without any effect on the partition table. -/
structure HonouredOrRefused (t : Ecma119Image) (imgBlocks : UInt32) (buf : Buffer) : Prop where
  refused : ∀ e, isoWriteMbr t imgBlocks = .error e →
    ∀ i, 446 ≤ i → i < 510 → mbrBuffer t imgBlocks buf i = buf i
  honoured : ∀ out, isoWriteMbr t imgBlocks = .ok out → Honoured t imgBlocks buf out
  accepted : Ascending t.mbrReq → ∃ out, isoWriteMbr t imgBlocks = .ok out

/-- Requests which begin inside an image of less than 2 TiB. -/
structure Requested (t : Ecma119Image) (imgBlocks : UInt32) : Prop where
  registered : Registered t.mbrReq
  inside : ∀ r ∈ t.mbrReq, r.startBlock.toNat < 4 * imgBlocks.toNat
  small : imgBlocks.toNat < 2 ^ 30

/-- If the overlap test is passed, then no sum but the last one wraps around. -/
def Harmless (reqs : List MbrPartitionRequest) : Prop :=
  Tolerated reqs → ∀ r ∈ reqs.dropLast, r.startBlock.toNat + r.blockCount.toNat < 2 ^ 64

variable {t : Ecma119Image} {imgBlocks : UInt32} {out : MbrOutcome} {buf : Buffer}
  {slots : Fin 4 → Option MbrPartitionRequest} {r r' : MbrPartitionRequest}

theorem mem_filled (h : r' ∈ filled imgBlocks t.mbrReq) :
    ∃ k r, t.mbrReq[k]? = some r ∧ r' = fillMbr imgBlocks r (t.mbrReq.drop (k + 1)) := by
  obtain ⟨k, hk⟩ := List.getElem?_of_mem h
  rw [filled_getElem?, Option.map_eq_some_iff] at hk
  obtain ⟨r, hr, rfl⟩ := hk
  exact ⟨k, r, hr, rfl⟩

theorem Requested.start_le (h : Requested t imgBlocks) (hr : r' ∈ filled imgBlocks t.mbrReq) :
    r'.startBlock.toNat < maxBlocks := by
  obtain ⟨k, r, hk, rfl⟩ := mem_filled hr
  have hinside := h.inside r (List.mem_of_getElem? hk)
  have hsmall := h.small
  rw [fillMbr_startBlock, maxBlocks]
  omega

theorem entry_of_slot (h : Distributed t imgBlocks out slots) {slot : Fin 4}
    (hslot : slots slot = some r) (hsize : r.blockCount ≠ 0) :
    entryOf out slot = some (writeMbrPartitionEntry t r) := by
  rw [h.entries, hslot, Option.filter_some, if_pos (by simpa using hsize), Option.map_some]

theorem slot_of_entry (h : Distributed t imgBlocks out slots) {slot : Fin 4} {e : MbrEntry}
    (he : entryOf out slot = some e) : ∃ r ∈ filled imgBlocks t.mbrReq,
      slots slot = some r ∧ r.blockCount ≠ 0 ∧ e = writeMbrPartitionEntry t r := by
  rw [h.entries, Option.map_eq_some_iff] at he
  obtain ⟨r, hr, rfl⟩ := he
  obtain ⟨hslot, hsize⟩ := Option.filter_eq_some_iff.mp hr
  refine ⟨r, ?_, hslot, by simpa using hsize, rfl⟩
  have hheld : 0 < (heldBy slots r).card := Finset.card_pos.mpr ⟨slot, mem_heldBy.mpr hslot⟩
  rw [h.held] at hheld
  exact List.count_pos_iff.mp hheld

/-- A request which differs from all others is in one slot. -/
theorem existsUnique_entry (h : Distributed t imgBlocks out slots)
    (hcount : (filled imgBlocks t.mbrReq).count r = 1) (hsize : r.blockCount ≠ 0)
    (hdiffer : ∀ s ∈ filled imgBlocks t.mbrReq, s.blockCount ≠ 0 →
      writeMbrPartitionEntry t s = writeMbrPartitionEntry t r → s = r) :
    ∃! slot, entryOf out slot = some (writeMbrPartitionEntry t r) := by
  obtain ⟨slot, hslot, honly⟩ := existsUnique_of_card ((h.held r).trans hcount)
  refine ⟨slot, entry_of_slot h hslot hsize, fun slot' hslot' => ?_⟩
  obtain ⟨s, hs, hheld, hsize', heq⟩ := slot_of_entry h hslot'
  exact honly slot' (hdiffer s hs hsize' heq.symm ▸ hheld)

/-- All facts about final requests: their order makes entries differ and be apart. -/
theorem apart_of_before (ht : Requested t imgBlocks) (hr : r ∈ filled imgBlocks t.mbrReq)
    (hr' : r' ∈ filled imgBlocks t.mbrReq) (hbefore : Before r r') (hsize : r.blockCount ≠ 0) :
    (writeMbrPartitionEntry t r).startLba < (writeMbrPartitionEntry t r').startLba ∧
      IntervalGaps.Apart MbrEntry.startLba stop (writeMbrPartitionEntry t r)
        (writeMbrPartitionEntry t r') := by
  have hstart := ht.start_le hr
  have hstart' := ht.start_le hr'
  have hpos : 0 < r.blockCount.toNat :=
    Nat.pos_of_ne_zero fun hzero => hsize (UInt64.toNat_inj.mp hzero)
  have hlba := (entry_numbers (t := t) (Nat.le_of_lt hstart)).1
  have hlba' := (entry_numbers (t := t) (Nat.le_of_lt hstart')).1
  rw [Before] at hbefore
  have hstop : stop (writeMbrPartitionEntry t r) = r.startBlock.toNat + r.blockCount.toNat :=
    stop_eq (by omega)
  rw [IntervalGaps.Apart, IntervalGaps.covers_false_iff, IntervalGaps.covers_false_iff, hstop]
  omega

theorem apart_of_ne (ht : Requested t imgBlocks)
    (hbefore : (filled imgBlocks t.mbrReq).Pairwise Before) (hr : r ∈ filled imgBlocks t.mbrReq)
    (hr' : r' ∈ filled imgBlocks t.mbrReq) (hne : r ≠ r') (hsize : r.blockCount ≠ 0)
    (hsize' : r'.blockCount ≠ 0) :
    (writeMbrPartitionEntry t r).startLba ≠ (writeMbrPartitionEntry t r').startLba ∧
      IntervalGaps.Apart MbrEntry.startLba stop (writeMbrPartitionEntry t r)
        (writeMbrPartitionEntry t r') := by
  have hsymm : Std.Symm fun p q : MbrPartitionRequest => Before p q ∨ Before q p :=
    ⟨fun _ _ h => h.symm⟩
  have heither : (filled imgBlocks t.mbrReq).Pairwise fun p q => Before p q ∨ Before q p :=
    hbefore.imp Or.inl
  rcases heither.forall hr hr' hne with hfirst | hfirst
  · obtain ⟨hlt, hapart⟩ := apart_of_before ht hr hr' hfirst hsize
    exact ⟨Nat.ne_of_lt hlt, hapart⟩
  · obtain ⟨hlt, hapart⟩ := apart_of_before ht hr' hr hfirst hsize'
    exact ⟨Nat.ne_of_gt hlt, hapart.symm⟩

theorem count_eq_one {l : List MbrPartitionRequest} (hbefore : l.Pairwise Before) (hr : r ∈ l)
    (hsize : r.blockCount ≠ 0) : l.count r = 1 := by
  have hpos : 0 < r.blockCount.toNat :=
    Nat.pos_of_ne_zero fun hzero => hsize (UInt64.toNat_inj.mp hzero)
  have hfilter : (l.filter (· == r)).Pairwise Before := hbefore.filter _
  rw [List.filter_beq, List.pairwise_replicate] at hfilter
  have hcount := List.count_pos_iff.mpr hr
  rcases hfilter with hle | hself
  · omega
  · rw [Before] at hself
    omega

theorem honoured_of_before (ht : Requested t imgBlocks) (htolerated : Tolerated t.mbrReq)
    (hbefore : (filled imgBlocks t.mbrReq).Pairwise Before)
    (hok : isoWriteMbr t imgBlocks = .ok out) (h : Distributed t imgBlocks out slots) :
    Honoured t imgBlocks buf out := by
  have hdiffer : ∀ r ∈ filled imgBlocks t.mbrReq, r.blockCount ≠ 0 →
      ∀ s ∈ filled imgBlocks t.mbrReq, s.blockCount ≠ 0 →
      writeMbrPartitionEntry t s = writeMbrPartitionEntry t r → s = r := by
    intro r hr hsize s hs hsize' heq
    by_contra hne
    exact (apart_of_ne ht hbefore hs hr hne hsize' hsize).1 (congrArg MbrEntry.startLba heq)
  constructor
  case bytes =>
    intro hne slot
    rw [mbrBuffer, hok]
    simp only [hne, if_false]
    exact slice_writeSlots out.slots slot.isLt
  case kept =>
    intro k
    rw [h.mbrReq, filled_getElem?]
    congr 1
    funext r
    rw [fillMbr, nextBlock, UInt64.ofNat_toNat]
  case occupied =>
    intro r hr hsize
    rw [h.mbrReq] at hr
    exact existsUnique_entry h (count_eq_one hbefore hr hsize) hsize (hdiffer r hr hsize)
  case desired =>
    intro r hr hsize slot hslot
    rw [h.mbrReq] at hr
    exact entry_of_slot h (h.placed r hr slot hslot) hsize
  case requested =>
    intro slot e he
    obtain ⟨r, hr, -, hsize, rfl⟩ := slot_of_entry h he
    rw [h.mbrReq]
    exact ⟨r, hr, hsize, rfl, (entry_numbers (Nat.le_of_lt (ht.start_le hr))).1⟩
  case disjoint =>
    intro slot slot' e e' hne he he'
    obtain ⟨r, hr, hslot, hsize, rfl⟩ := slot_of_entry h he
    obtain ⟨r', hr', hslot', hsize', rfl⟩ := slot_of_entry h he'
    refine (apart_of_ne ht hbefore hr hr' ?_ hsize hsize').2
    rintro rfl
    obtain ⟨only, -, honly⟩ :=
      existsUnique_of_card ((h.held r).trans (count_eq_one hbefore hr hsize))
    exact hne ((honly slot hslot).trans (honly slot' hslot').symm)
  case automatic =>
    intro k r r' hk hauto hk'
    rw [h.mbrReq, filled_getElem?, hk, Option.map_some] at hk'
    obtain rfl := Option.some.inj hk'
    have hreaches := fillMbr_reaches hauto (le_nextStart ht.inside htolerated hk)
    rw [nextBlock, ← hreaches]
    refine stop_eq ?_
    rw [hreaches]
    have hsmall := ht.small
    rw [maxBlocks]
    cases hrest : t.mbrReq.drop (k + 1) with
    | nil =>
      rw [nextStart_nil]
      omega
    | cons s rest =>
      have hs : s ∈ t.mbrReq := List.mem_of_mem_drop (hrest ▸ List.mem_cons_self)
      have := ht.inside s hs
      rw [nextStart]
      omega

/-- The last request gets a size. If it begins where an earlier one does, then it is inside
the image. -/
theorem exists_last (ht : Requested t imgBlocks) (htolerated : Tolerated t.mbrReq)
    {p : MbrPartitionRequest} (hp : p ∈ t.mbrReq.dropLast) :
    ∃ last ∈ filled imgBlocks t.mbrReq, last.blockCount ≠ 0 ∧
      p.startBlock.toNat ≤ last.startBlock.toNat ∧
      (p.startBlock.toNat = last.startBlock.toNat →
        stop (writeMbrPartitionEntry t last) ≤ maxBlocks) := by
  obtain ⟨init, last, hreqs⟩ : ∃ init last, t.mbrReq = init ++ [last] := by
    rcases List.eq_nil_or_concat t.mbrReq with hnil | hconcat
    · rw [hnil] at hp
      cases hp
    · obtain ⟨init, last, heq⟩ := hconcat
      exact ⟨init, last, by rw [heq, List.concat_eq_append]⟩
  rw [hreqs, List.dropLast_concat] at hp
  have hlast : t.mbrReq[init.length]? = some last := by rw [hreqs]; simp
  have hdrop : t.mbrReq.drop (init.length + 1) = [] := by rw [hreqs]; simp
  have hinside := ht.inside last (List.mem_of_getElem? hlast)
  have hle := le_nextStart ht.inside htolerated hlast
  have hmem : fillMbr imgBlocks last [] ∈ filled imgBlocks t.mbrReq := by
    refine List.mem_of_getElem? (i := init.length) ?_
    rw [filled_getElem?, hlast, hdrop, Option.map_some]
  have hstarts : StartsBefore p last := by
    have hpairs := startsBefore_pairwise htolerated
    rw [hreqs, List.pairwise_append] at hpairs
    exact hpairs.2.2 p hp last (List.mem_singleton_self last)
  rw [hdrop] at hle
  refine ⟨_, hmem, fun hzero => ?_, ?_, fun hsame => ?_⟩
  · obtain ⟨-, hnext⟩ := fillMbr_blockCount_eq_zero.mp hzero
    have hend := congrArg UInt64.toNat hnext
    rw [nextStart_nil] at hend
    omega
  · rw [fillMbr_startBlock]
    rw [StartsBefore] at hstarts
    omega
  · rw [fillMbr_startBlock] at hsame
    rcases hstarts with hlt | ⟨hauto, -⟩
    · omega
    · have hsmall := ht.small
      have hreaches := fillMbr_reaches hauto hle
      rw [nextStart_nil] at hreaches
      have hmax : 4 * imgBlocks.toNat ≤ maxBlocks := by
        rw [maxBlocks]
        omega
      rw [stop_eq (hreaches ▸ hmax), hreaches]
      exact hmax

/-- A request whose sum wraps around keeps its size, and its sum is small. -/
theorem wrapping_mem (ht : Requested t imgBlocks) (htolerated : Tolerated t.mbrReq)
    {p : MbrPartitionRequest} (hp : p ∈ t.mbrReq.dropLast)
    (hwrap : 2 ^ 64 ≤ p.startBlock.toNat + p.blockCount.toNat) :
    p ∈ filled imgBlocks t.mbrReq ∧ (p.startBlock + p.blockCount).toNat ≤ maxBlocks := by
  obtain ⟨k, hk, rfl⟩ := List.getElem_of_mem hp
  rw [List.length_dropLast] at hk
  have hlt : k < t.mbrReq.length := by omega
  have hlt' : k + 1 < t.mbrReq.length := by omega
  rw [List.getElem_dropLast] at hwrap ⊢
  have hsize : t.mbrReq[k].blockCount ≠ 0 := by
    intro hzero
    have hstart := t.mbrReq[k].startBlock.toNat_lt
    rw [hzero, UInt64.toNat_zero] at hwrap
    omega
  constructor
  · refine List.mem_of_getElem? (i := k) ?_
    rw [filled_getElem?, List.getElem?_eq_getElem hlt, Option.map_some, fillMbr, if_pos hsize]
  · have htest := List.isChain_iff_getElem.mp htolerated k hlt'
    have hend := (startsBefore_of_tolerated htest).2
    have hinside := ht.inside t.mbrReq[k + 1] (List.getElem_mem hlt')
    have hsmall := ht.small
    rw [maxBlocks]
    omega

/-- A sum which wraps around lets a partition reach over the last one. -/
theorem not_honoured_of_wrap (ht : Requested t imgBlocks) (htolerated : Tolerated t.mbrReq)
    {p : MbrPartitionRequest} (hp : p ∈ t.mbrReq.dropLast)
    (hwrap : 2 ^ 64 ≤ p.startBlock.toNat + p.blockCount.toNat)
    (hreq : out.image.mbrReq = filled imgBlocks t.mbrReq) : ¬ Honoured t imgBlocks buf out := by
  intro honoured
  obtain ⟨last, hlast, hsize, hle, hend⟩ := exists_last ht htolerated hp
  obtain ⟨hmem, hsum⟩ := wrapping_mem ht htolerated hp hwrap
  have hpsize : p.blockCount ≠ 0 := by
    intro hzero
    have hlt := p.startBlock.toNat_lt
    rw [hzero, UInt64.toNat_zero] at hwrap
    omega
  have hstart := ht.start_le hmem
  have hstart' := ht.start_le hlast
  have hfar := stop_wrapped (t := t) (Nat.lt_of_lt_of_le hstart (by decide)) hwrap hsum
    (Nat.le_of_lt hstart)
  obtain ⟨slot, hslot, -⟩ := honoured.occupied p (hreq ▸ hmem) hpsize
  obtain ⟨slot', hslot', -⟩ := honoured.occupied last (hreq ▸ hlast) hsize
  have hlba := (entry_numbers (t := t) (Nat.le_of_lt hstart)).1
  have hlba' := (entry_numbers (t := t) (Nat.le_of_lt hstart')).1
  have hne : slot ≠ slot' := by
    rintro rfl
    have hsame : writeMbrPartitionEntry t p = writeMbrPartitionEntry t last :=
      Option.some.inj (hslot.symm.trans hslot')
    have hstarts : p.startBlock.toNat = last.startBlock.toNat := by
      rw [← hlba, ← hlba', hsame]
    have hnear := hend hstarts
    rw [← hsame, maxBlocks] at hnear
    omega
  have hapart := (honoured.disjoint slot slot' _ _ hne hslot hslot').2
  rw [IntervalGaps.covers_false_iff, hlba, hlba'] at hapart
  rw [maxBlocks] at hstart'
  have := hapart hle
  omega

/-- iso_write_mbr() honours or refuses registered requests exactly if no accepted one has a
size which wraps around. -/
theorem honoured_iff (ht : Requested t imgBlocks) (buf : Buffer) :
    HonouredOrRefused t imgBlocks buf ↔ Harmless t.mbrReq := by
  constructor
  · intro h htolerated p hp
    by_contra hwrap
    have hne : t.mbrReq ≠ [] := by
      rintro hnil
      rw [hnil] at hp
      cases hp
    obtain ⟨out, slots, hok, hout⟩ := @isoWriteMbr_ok t imgBlocks
      ht.registered.admitted htolerated hne
    exact not_honoured_of_wrap ht htolerated hp (by omega) hout.mbrReq (h.honoured out hok)
  · intro harmless
    constructor
    case refused =>
      intro e he i _ _
      rw [mbrBuffer, he]
    case honoured =>
      intro out hok
      have htolerated := tolerated_of_isoWriteMbr hok
      by_cases hne : t.mbrReq = []
      · have hout : out = ⟨2, t, []⟩ := by
          rw [isoWriteMbr, if_pos hne] at hok
          exact (Except.ok.inj hok).symm
        subst hout
        constructor <;> simp [hne, entryOf]
      · obtain ⟨out', slots, hok', hout⟩ := @isoWriteMbr_ok t imgBlocks
          ht.registered.admitted htolerated hne
        obtain rfl : out = out' := Except.ok.inj (hok.symm.trans hok')
        exact honoured_of_before ht htolerated
          (List.isChain_iff_pairwise.mp (filled_before htolerated (harmless htolerated))) hok hout
    case accepted =>
      intro hascending
      have htolerated : Tolerated t.mbrReq := by
        refine hascending.imp fun p r hpr => mbrOverlaps_false_iff.mpr ⟨Or.inl hpr.1, ?_⟩
        have hbefore := hpr.2
        have hlt := r.startBlock.toNat_lt
        rw [Before] at hbefore
        rw [UInt64.le_iff_toNat_le, UInt64.toNat_add]
        omega
      by_cases hne : t.mbrReq = []
      · exact ⟨⟨2, t, []⟩, by rw [isoWriteMbr, if_pos hne]⟩
      · obtain ⟨out, -, hok, -⟩ := @isoWriteMbr_ok t imgBlocks
          ht.registered.admitted htolerated hne
        exact ⟨out, hok⟩

end Main

section Instances

theorem plainBlockSize_valid : 0 = 0 ∨ 0 = 512 ∨ 0 = 2048 := Or.inl rfl

/-- An image with nothing but requested MBR partitions. -/
def mbrImage (mbrReq : List MbrPartitionRequest) : Ecma119Image where
  opts := ⟨false, 0, 0, 0, zeroUuid, plainBlockSize_valid⟩
  systemAreaOptions := 0
  volSpaceSize := 1000
  partitionSecsPerHead := 32
  partitionHeadsPerCyl := 64
  apmReq := []
  apmReqFlags := 0
  mbrReq := mbrReq
  gptReq := []
  gptReqFlags := 0
  gptBackupEnd := 2
  gptBackupSize := 1
  gptMaxEntries := 0
  guidsMade := 0
  backupEnd_lt := by decide
  backupSize_pos := by decide
  backupSize_lt := by decide

/-- The second partition desires the first slot and has no size yet. -/
def prepRequests : List MbrPartitionRequest := [⟨0, 400, 0xcd, 0, 0⟩, ⟨400, 0, 0x0c, 0x80, 1⟩]

theorem prepRequests_requested : Requested (mbrImage prepRequests) 1000 where
  registered := @Registered.entry _ _ ⟨400, 0, 0x0c, 0x80, 1⟩
    (@Registered.entry _ _ ⟨0, 400, 0xcd, 0, 0⟩ .none rfl) rfl
  inside := by decide
  small := by decide

theorem prepRequests_honoured : HonouredOrRefused (mbrImage prepRequests) 1000 fun _ => 0 :=
  (honoured_iff prepRequests_requested _).mpr fun _ => by decide

/-- Start and size of the first request add up to 2 exp 64 plus 500. -/
def wrappingRequests : List MbrPartitionRequest :=
  [⟨1000, 0xfffffffffffffe0c, 0xcd, 0, 0⟩, ⟨2000, 100, 0x0c, 0, 0⟩]

theorem wrappingRequests_requested : Requested (mbrImage wrappingRequests) 1000 where
  registered := @Registered.entry _ _ ⟨2000, 100, 0x0c, 0, 0⟩
    (@Registered.entry _ _ ⟨1000, 0xfffffffffffffe0c, 0xcd, 0, 0⟩ .none rfl) rfl
  inside := by decide
  small := by decide

/-- The first partition reaches over the second one. -/
theorem wrappingRequests_not_honoured : Requested (mbrImage wrappingRequests) 1000 ∧
    ¬ HonouredOrRefused (mbrImage wrappingRequests) 1000 fun _ => 0 := by
  refine ⟨wrappingRequests_requested, fun h => ?_⟩
  have htolerated : Tolerated wrappingRequests := by
    refine List.isChain_cons_cons.mpr ⟨by decide, List.IsChain.singleton _⟩
  obtain ⟨out, slots, hok, hout⟩ := @isoWriteMbr_ok (mbrImage wrappingRequests) 1000
    wrappingRequests_requested.registered.admitted htolerated (List.cons_ne_nil _ _)
  exact not_honoured_of_wrap wrappingRequests_requested htolerated List.mem_cons_self (by decide)
    hout.mbrReq (h.honoured out hok)

end Instances

end MbrHonoured
