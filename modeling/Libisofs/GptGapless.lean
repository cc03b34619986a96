import Libisofs.Gpt

/-!
# The GPT has no gaps

An entry is right if its blocks are those of the request. The entries shall cover each
block from the first partition to the end of the image exactly once.
-/

namespace GptGapless

open CLibrary Tilings IntervalGaps PartitionRequests Gpt

/-- The first block of a partition, and the first one behind it. -/
abbrev Extent := Nat × Nat

def extent (r : GptPartitionRequest) : Extent := (r.startBlock, r.startBlock + r.blockCount)

@[simp] theorem extent_fst (r : GptPartitionRequest) : (extent r).1 = r.startBlock := rfl

@[simp] theorem extent_snd (r : GptPartitionRequest) :
    (extent r).2 = r.startBlock + r.blockCount := rfl

def hfsExtent (t : Ecma119Image) (a : ApmPartitionRequest) : Extent :=
  (a.startBlock * apmFactor t, (a.startBlock + a.blockCount) * apmFactor t)

/-- The HFS+ partitions which hit none of the taken extents and none of each other. -/
def freeHfs (t : Ecma119Image) : (taken : List Extent) → List ApmPartitionRequest →
    List ApmPartitionRequest
  | _, [] => []
  | taken, a :: rest =>
    if a.type ≠ "Apple_HFS" then freeHfs t taken rest
    else if taken.any fun e => hitsGpt (apmFactor t) a e.1 (e.2 - e.1) then freeHfs t taken rest
    else a :: freeHfs t (taken ++ [hfsExtent t a]) rest

def copiedHfs (t : Ecma119Image) : List ApmPartitionRequest :=
  freeHfs t (t.gptReq.map extent) t.apmReq

def partitionExtents (t : Ecma119Image) : List Extent :=
  t.gptReq.map extent ++ (copiedHfs t).map (hfsExtent t)

/-- The gaps get filled from here on. -/
def firstBlock (extents : List Extent) : Nat := (extents.map Prod.fst).foldr min 64

def gapExtents (t : Ecma119Image) (imgBlocks : UInt32) : List Extent :=
  gaps Prod.fst Prod.snd (lastGoal t imgBlocks) (firstBlock (partitionExtents t))
    ((partitionExtents t).insertionSort fun e f => e.1 ≤ f.1)

/-- There is room in the array for the partitions and for the gaps between them. -/
def Room (t : Ecma119Image) (imgBlocks : UInt32) : Prop :=
  (partitionExtents t).length + (gapExtents t imgBlocks).length ≤
    min isoGptEntriesMax t.gptMaxEntries

instance (t : Ecma119Image) (imgBlocks : UInt32) : Decidable (Room t imgBlocks) :=
  inferInstanceAs (Decidable (_ ≤ _))

def entryExtent (e : GptEntry) : Extent := (e.startLba, e.endLba + 1)

/-- The entry tells about the requested partition. A GUID of zeros asks for a new one. -/
structure Records (e : GptEntry) (r : GptPartitionRequest) : Prop where
  extent_eq : entryExtent e = extent r
  typeGuid : e.typeGuid = r.typeGuid
  partitionGuid : r.partitionGuid ≠ zeroUuid → e.partitionGuid = r.partitionGuid
  flags : e.flags = r.flags
  name : e.name = r.name

structure Gapless (t : Ecma119Image) (imgBlocks : UInt32) (entries : List GptEntry) : Prop where
  sorted : entries.Pairwise fun e f => e.startLba ≤ f.startLba
  disjoint : (entries.map entryExtent).Pairwise (Disjoint Prod.fst Prod.snd)
  unchanged : ∀ r ∈ t.gptReq, ∃ e ∈ entries, Records e r
  covered : ∀ b, firstBlock (t.gptReq.map extent) ≤ b → b < lastGoal t imgBlocks →
    (entries.map entryExtent).countP (covers Prod.fst Prod.snd b) = 1

/-- The conditions under which the table has no gaps. The overlap test takes the start of
the last block of an APM partition for its end. -/
structure Harmless (t : Ecma119Image) (imgBlocks : UInt32) : Prop where
  nonzero : ∀ r ∈ t.gptReq, extent r ≠ (0, 0)
  lastBlock : ∀ a ∈ copiedHfs t, ∀ r ∈ t.gptReq, 0 < a.blockCount → 0 < r.blockCount →
    ¬ ((a.startBlock + a.blockCount - 1) * apmFactor t < r.startBlock ∧
      r.startBlock < (a.startBlock + a.blockCount) * apmFactor t)
  emptyOutside : t.gptReqFlags.testBit 0 = false → ∀ e ∈ partitionExtents t, e.1 = e.2 →
    ∀ p ∈ partitionExtents t, covers Prod.fst Prod.snd e.1 p = false
  copiedInside : t.gptReqFlags.testBit 0 = false → ∀ a ∈ copiedHfs t,
    (hfsExtent t a).2 ≤ lastGoal t imgBlocks

section Copies

variable {t : Ecma119Image} {taken : List Extent} {apmReq : List ApmPartitionRequest}

theorem intvlOverlap_false_iff {start1 end1 start2 end2 : Nat} :
    intvlOverlap start1 end1 start2 end2 = false ↔
      ((start2 ≤ start1 → end2 < start1) ∧ (start2 ≤ end1 → end2 < end1)) ∧
        (start1 ≤ start2 → end1 < start2) ∧ (start1 ≤ end2 → end1 < end2) := by
  simp [intvlOverlap, intvlTouches]

/-- A copied partition may reach into one which starts in its last block. -/
theorem disjoint_of_not_hits {bfac : Nat} (hbfac : bfac = 1 ∨ bfac = 4)
    {a : ApmPartitionRequest} {startBlock blockCount : Nat}
    (hrange : startBlock + blockCount < 2 ^ 64)
    (hnot : hitsGpt bfac a startBlock blockCount = false)
    (hlast : 0 < a.blockCount → 0 < blockCount →
      ¬ ((a.startBlock + a.blockCount - 1) * bfac < startBlock ∧
        startBlock < (a.startBlock + a.blockCount) * bfac)) :
    Disjoint Prod.fst Prod.snd
      (a.startBlock * bfac, (a.startBlock + a.blockCount) * bfac)
      (startBlock, startBlock + blockCount) := by
  have ha := a.inRange
  rintro b ⟨hb1, hb2⟩
  rw [covers_iff] at hb1 hb2
  rw [hitsGpt, intvlOverlap_false_iff, u64, u64] at hnot
  simp only at hb1 hb2
  rcases hbfac with rfl | rfl
  · omega
  · omega

/-- The smallest and the largest partition at block 0 hit everything. -/
theorem hits_of_extreme {bfac : Nat} (hbfac : bfac = 1 ∨ bfac = 4) {a : ApmPartitionRequest}
    {startBlock blockCount : Nat} (hrange : startBlock + blockCount ≤ 4 * 0xfffffffe)
    (hextreme : (a.startBlock + a.blockCount) * bfac = 0 ∨
      4 * 0xffffffff ≤ a.blockCount * bfac) :
    hitsGpt bfac a startBlock blockCount = true := by
  have ha := a.inRange
  by_contra hnot
  rw [Bool.not_eq_true, hitsGpt, intvlOverlap_false_iff, u64, u64] at hnot
  rcases hbfac with rfl | rfl
  · omega
  · omega

theorem freeHfs_not_hits : ∀ a ∈ freeHfs t taken apmReq, ∀ e ∈ taken,
    hitsGpt (apmFactor t) a e.1 (e.2 - e.1) = false := by
  induction apmReq generalizing taken with
  | nil => simp [freeHfs]
  | cons b rest ih =>
    intro a ha e he
    rw [freeHfs] at ha
    split at ha
    next => exact ih a ha e he
    next =>
      split at ha
      next => exact ih a ha e he
      next hfree =>
        rcases List.mem_cons.mp ha with rfl | hlater
        · simp only [List.any_eq_true, not_exists, not_and, Bool.not_eq_true] at hfree
          exact hfree e he
        · exact ih a hlater e (List.mem_append_left _ he)

/-- A copied partition starts at the start of an APM block, not inside of one. -/
theorem hfsExtent_disjoint {a b : ApmPartitionRequest}
    (hnot : hitsGpt (apmFactor t) b (hfsExtent t a).1 ((hfsExtent t a).2 - (hfsExtent t a).1) =
      false) : Disjoint Prod.fst Prod.snd (hfsExtent t a) (hfsExtent t b) := by
  have hlen : (hfsExtent t a).1 + ((hfsExtent t a).2 - (hfsExtent t a).1) = (hfsExtent t a).2 := by
    simp only [hfsExtent, Nat.add_mul]
    omega
  have hrange : (hfsExtent t a).2 < 2 ^ 64 := by
    have := apmFactor_inRange t a
    simpa only [hfsExtent, Nat.add_mul] using this
  have hdisjoint := disjoint_of_not_hits (apmFactor_cases t) (by rw [hlen]; exact hrange) hnot ?_
  · rw [hlen] at hdisjoint
    exact hdisjoint.symm
  · rintro - - ⟨hlow, hhigh⟩
    simp only [hfsExtent] at hlow hhigh
    rcases apmFactor_cases t with h | h
    · rw [h] at hlow hhigh
      omega
    · rw [h] at hlow hhigh
      omega

theorem freeHfs_disjoint :
    ((freeHfs t taken apmReq).map (hfsExtent t)).Pairwise (Disjoint Prod.fst Prod.snd) := by
  induction apmReq generalizing taken with
  | nil => exact List.Pairwise.nil
  | cons a rest ih =>
    rw [freeHfs]
    split
    next => exact ih
    next =>
      split
      next => exact ih
      next =>
        rw [List.map_cons, List.pairwise_cons]
        constructor
        · intro e he
          obtain ⟨b, hb, rfl⟩ := List.mem_map.mp he
          exact hfsExtent_disjoint (freeHfs_not_hits b hb _ (by simp))
        · exact ih

theorem hfsPartition_extent (counter : Nat) (a : ApmPartitionRequest) :
    extent (hfsPartition t counter a) = hfsExtent t a := by
  simp [extent, hfsExtent, hfsPartition, Nat.add_mul]

theorem any_hits_extent {gptReq : List GptPartitionRequest} {a : ApmPartitionRequest} :
    ((gptReq.map extent).any fun e => hitsGpt (apmFactor t) a e.1 (e.2 - e.1)) =
      gptReq.any fun r => hitsGpt (apmFactor t) a r.startBlock r.blockCount := by
  simp [List.any_map, Function.comp_def, extent]

theorem isoRegisterGptEntry_eq_ok {gptReq reqs : List GptPartitionRequest}
    {req : GptPartitionRequest} :
    isoRegisterGptEntry gptReq req = .ok reqs ↔
      gptReq.length < isoGptEntriesMax ∧ gptReq ++ [req] = reqs := by
  rw [isoRegisterGptEntry]
  split
  next h =>
    constructor
    · exact fun hok => nomatch hok
    · exact fun hok => absurd h (Nat.not_le.mpr hok.1)
  next h =>
    rw [Except.ok.injEq]
    exact (and_iff_right (Nat.lt_of_not_le h)).symm

/-- The new requests are the free HFS+ partitions. -/
theorem copyApmhfs_spec {counter : Nat} {gptReq : List GptPartitionRequest}
    (hroom : gptReq.length + (freeHfs t (gptReq.map extent) apmReq).length ≤ isoGptEntriesMax) :
    ∃ copies, copyApmhfs t counter apmReq gptReq = .ok (gptReq ++ copies) ∧
      copies.map extent = (freeHfs t (gptReq.map extent) apmReq).map (hfsExtent t) := by
  induction apmReq generalizing counter gptReq with
  | nil => exact ⟨[], by simp [copyApmhfs], by simp [freeHfs]⟩
  | cons a rest ih =>
    rw [freeHfs, any_hits_extent] at hroom ⊢
    rw [copyApmhfs]
    split
    next htype =>
      rw [if_pos htype] at hroom
      exact ih hroom
    next htype =>
      rw [if_neg htype] at hroom
      split
      next hhits =>
        rw [if_pos hhits] at hroom
        exact ih hroom
      next hfree =>
        rw [if_neg hfree, List.length_cons] at hroom
        rw [isoRegisterGptEntry, if_neg (by omega)]
        have hmap : (gptReq ++ [hfsPartition t counter a]).map extent =
            gptReq.map extent ++ [hfsExtent t a] := by
          rw [List.map_append, List.map_singleton, hfsPartition_extent]
        obtain ⟨copies, hcopies, hextents⟩ := @ih (counter + 1)
          (gptReq ++ [hfsPartition t counter a]) (by
            rw [hmap, List.length_append, List.length_singleton]
            omega)
        refine ⟨hfsPartition t counter a :: copies, ?_, ?_⟩
        · rw [List.append_assoc, List.singleton_append] at hcopies
          exact hcopies
        · rw [List.map_cons, hfsPartition_extent, hextents, hmap, List.map_cons]

/-- The copies are the free HFS+ partitions. -/
theorem copyApmhfs_inv {counter : Nat} {gptReq reqs : List GptPartitionRequest}
    (hcounter : counter ≤ gptReq.length) (h : copyApmhfs t counter apmReq gptReq = .ok reqs) :
    ∃ copies, reqs = gptReq ++ copies ∧
      copies.map extent = (freeHfs t (gptReq.map extent) apmReq).map (hfsExtent t) ∧
      ∀ c ∈ copies, ∃ number a, number < isoGptEntriesMax ∧ c = hfsPartition t number a := by
  induction apmReq generalizing counter gptReq with
  | nil =>
    rw [copyApmhfs, Except.ok.injEq] at h
    exact ⟨[], by rw [h, List.append_nil], by simp [freeHfs], by simp⟩
  | cons a rest ih =>
    rw [copyApmhfs] at h
    rw [freeHfs, any_hits_extent]
    split at h
    next htype =>
      rw [if_pos htype]
      exact ih hcounter h
    next htype =>
      rw [if_neg htype]
      split at h
      next hhits =>
        rw [if_pos hhits]
        exact ih hcounter h
      next hfree =>
        cases hreg : isoRegisterGptEntry gptReq (hfsPartition t counter a) with
        | error e =>
          rw [hreg] at h
          cases h
        | ok reqs₁ =>
          rw [hreg] at h
          obtain ⟨hfull, rfl⟩ := isoRegisterGptEntry_eq_ok.mp hreg
          obtain ⟨copies, rfl, hextents, hcopies⟩ := ih (by
            rw [List.length_append, List.length_singleton]
            omega) h
          refine ⟨hfsPartition t counter a :: copies, ?_, ?_, ?_⟩
          · rw [List.append_assoc, List.singleton_append]
          · rw [if_neg hfree, List.map_cons, hextents, List.map_append, List.map_singleton,
              hfsPartition_extent, List.map_cons]
          · exact List.forall_mem_cons.mpr ⟨⟨counter, a, by omega, rfl⟩, hcopies⟩

end Copies

section Filling

variable {t : Ecma119Image} {imgBlocks : UInt32} {st : FillState}

theorem fillGapTurn_ok {goal nextEnd : Nat} (inRange : goal < 2 ^ 64)
    (hfits : t.gptReqFlags.testBit 0 = true ∨ max st.partEnd nextEnd ≤ goal)
    (hroom : st.gptReq.length + (gap (max st.partEnd nextEnd) goal).length ≤ isoGptEntriesMax) :
    ∃ st' fillers, fillGapTurn t goal nextEnd inRange st = .ok st' ∧
      st'.partEnd = max st.partEnd nextEnd ∧ st'.gptReq = st.gptReq ++ fillers ∧
      fillers.map extent = gap (max st.partEnd nextEnd) goal := by
  simp only [fillGapTurn, gap] at *
  by_cases hover : goal < max st.partEnd nextEnd
  · have hflag : t.gptReqFlags.testBit 0 = true := hfits.resolve_right (by omega)
    rw [if_pos hover, if_pos hflag, if_neg (by omega)]
    exact ⟨_, [], rfl, rfl, (List.append_nil _).symm, rfl⟩
  · rw [if_neg hover]
    by_cases hgap : max st.partEnd nextEnd < goal
    · rw [if_pos hgap, List.length_singleton] at hroom
      have hsum : max st.partEnd nextEnd + (goal - max st.partEnd nextEnd) = goal := by omega
      rw [dif_pos hgap, if_pos hgap, isoRegisterGptEntry, if_neg (by omega)]
      refine ⟨_, [_], rfl, rfl, rfl, ?_⟩
      simp [extent, gapPartition, hsum]
    · rw [dif_neg hgap, if_neg hgap]
      exact ⟨_, [], rfl, rfl, (List.append_nil _).symm, rfl⟩

theorem fillGapTurn_overlap {goal nextEnd : Nat} (inRange : goal < 2 ^ 64)
    (hflag : t.gptReqFlags.testBit 0 = false) (hover : goal < max st.partEnd nextEnd) :
    fillGapTurn t goal nextEnd inRange st = .error .gptOverlap := by
  simp [fillGapTurn, hover, hflag]

/-- The loop fills the gaps if nothing reaches over the start of the next partition. -/
theorem fillGapsAfter_ok {prev : GptPartitionRequest} {rest : List GptPartitionRequest}
    (hfits : t.gptReqFlags.testBit 0 = true ∨ Fits Prod.fst Prod.snd (lastGoal t imgBlocks)
      (max st.partEnd (prev.startBlock + prev.blockCount)) (rest.map extent))
    (hroom : st.gptReq.length + (gaps Prod.fst Prod.snd (lastGoal t imgBlocks)
      (max st.partEnd (prev.startBlock + prev.blockCount)) (rest.map extent)).length ≤
        isoGptEntriesMax) :
    ∃ st' fillers, fillGapsAfter t imgBlocks prev rest st = .ok st' ∧
      st'.gptReq = st.gptReq ++ fillers ∧
      fillers.map extent = gaps Prod.fst Prod.snd (lastGoal t imgBlocks)
        (max st.partEnd (prev.startBlock + prev.blockCount)) (rest.map extent) := by
  induction rest generalizing prev st with
  | nil =>
    obtain ⟨st', fillers, hok, -, hreq, hextents⟩ :=
      fillGapTurn_ok (lastGoal_lt t imgBlocks) hfits hroom
    exact ⟨st', fillers, hok, hreq, hextents⟩
  | cons r rest ih =>
    simp only [List.map_cons, Fits, gaps, extent_fst, extent_snd, List.length_append]
      at hfits hroom ⊢
    obtain ⟨st1, new, hok, hend, hreq, hextents⟩ :=
      fillGapTurn_ok (startBlock_lt r) (hfits.imp_right And.left) (by omega)
    have hnew := congrArg List.length hextents
    rw [List.length_map] at hnew
    obtain ⟨st', fillers, hok', hreq', hextents'⟩ := @ih st1 r
      (by
        rw [hend]
        exact hfits.imp_right And.right)
      (by
        rw [hend, hreq, List.length_append]
        omega)
    refine ⟨st', new ++ fillers, ?_, ?_, ?_⟩
    · rw [fillGapsAfter, hok]
      exact hok'
    · rw [hreq', hreq, List.append_assoc]
    · rw [List.map_append, hextents, hextents', hend]

/-- The loop ends by an error at the first partition which starts too early. -/
theorem fillGapsAfter_overlap {prev : GptPartitionRequest} {rest : List GptPartitionRequest}
    (hflag : t.gptReqFlags.testBit 0 = false)
    (hover : ¬ Fits Prod.fst Prod.snd (lastGoal t imgBlocks)
      (max st.partEnd (prev.startBlock + prev.blockCount)) (rest.map extent))
    (hroom : st.gptReq.length + (gaps Prod.fst Prod.snd (lastGoal t imgBlocks)
      (max st.partEnd (prev.startBlock + prev.blockCount)) (rest.map extent)).length ≤
        isoGptEntriesMax) :
    fillGapsAfter t imgBlocks prev rest st = .error .gptOverlap := by
  induction rest generalizing prev st with
  | nil => exact fillGapTurn_overlap (lastGoal_lt t imgBlocks) hflag (Nat.not_le.mp hover)
  | cons r rest ih =>
    simp only [List.map_cons, Fits, gaps, extent_fst, extent_snd, List.length_append]
      at hover hroom
    rw [fillGapsAfter]
    by_cases hfirst : max st.partEnd (prev.startBlock + prev.blockCount) ≤ r.startBlock
    · obtain ⟨st1, new, hok, hend, hreq, hextents⟩ :=
        fillGapTurn_ok (startBlock_lt r) (Or.inr hfirst) (by omega)
      have hnew := congrArg List.length hextents
      rw [List.length_map] at hnew
      have hrest := @ih st1 r
        (by
          rw [hend]
          exact fun hfits => hover ⟨hfirst, hfits⟩)
        (by
          rw [hend, hreq, List.length_append]
          omega)
      rw [hok]
      exact hrest
    · rw [fillGapTurn_overlap (startBlock_lt r) hflag (Nat.not_le.mp hfirst)]
      rfl

theorem fillFirstGap_ok {goal : Nat} (inRange : goal < 2 ^ 64) {gptReq : List GptPartitionRequest}
    (hroom : gptReq.length + (gap (min 64 goal) goal).length ≤ isoGptEntriesMax) :
    ∃ st' fillers, fillFirstGap t goal inRange ⟨gptReq, 0, 0⟩ = .ok st' ∧
      st'.partEnd = (if goal ≤ 64 then 0 else 64) ∧ st'.gptReq = gptReq ++ fillers ∧
      fillers.map extent = gap (min 64 goal) goal := by
  rw [fillFirstGap]
  by_cases hsystem : goal ≤ 16 * 4
  · have hnone : gap (min 64 goal) goal = [] := if_neg (by omega)
    rw [if_pos hsystem, if_pos (show goal ≤ 64 from hsystem), hnone]
    exact ⟨_, [], rfl, rfl, (List.append_nil _).symm, rfl⟩
  · have hmin : min 64 goal = max 0 (16 * 4) := by omega
    rw [hmin] at hroom ⊢
    rw [if_neg hsystem, if_neg (show ¬ goal ≤ 64 from hsystem)]
    exact fillGapTurn_ok inRange (Or.inr (Nat.le_of_not_le hsystem)) hroom

theorem firstBlock_le {extents : List Extent} : ∀ e ∈ extents, firstBlock extents ≤ e.1 := by
  induction extents with
  | nil => simp
  | cons e rest ih =>
    intro f hf
    rw [firstBlock, List.map_cons, List.foldr_cons]
    rcases List.mem_cons.mp hf with rfl | hlater
    · exact Nat.min_le_left ..
    · exact Nat.le_trans (Nat.min_le_right ..) (ih f hlater)

theorem firstBlock_eq {extents : List Extent} :
    firstBlock extents = 64 ∨ ∃ e ∈ extents, firstBlock extents = e.1 := by
  induction extents with
  | nil => exact Or.inl rfl
  | cons e rest ih =>
    have hcons : firstBlock (e :: rest) = min e.1 (firstBlock rest) := rfl
    rcases Nat.le_total e.1 (firstBlock rest) with hle | hle
    · exact Or.inr ⟨e, List.mem_cons_self .., hcons.trans (Nat.min_eq_left hle)⟩
    · rw [hcons, Nat.min_eq_right hle]
      exact ih.imp_right fun ⟨f, hf, heq⟩ => ⟨f, List.mem_cons_of_mem e hf, heq⟩

theorem firstBlock_le_sixtyFour (extents : List Extent) : firstBlock extents ≤ 64 := by
  induction extents with
  | nil => exact Nat.le_refl 64
  | cons e rest ih => exact Nat.le_trans (Nat.min_le_right ..) ih

theorem firstBlock_sorted {e : Extent} {rest : List Extent} (h : ∀ f ∈ rest, e.1 ≤ f.1) :
    firstBlock (e :: rest) = min 64 e.1 := by
  have hsmall := firstBlock_le_sixtyFour (e :: rest)
  have hfirst := firstBlock_le e (List.mem_cons_self (a := e) (l := rest))
  rcases @firstBlock_eq (e :: rest) with heq | ⟨f, hf, heq⟩
  · omega
  · have : e.1 ≤ f.1 := by
      rcases List.mem_cons.mp hf with rfl | hlater
      · exact Nat.le_refl _
      · exact h f hlater
    omega

theorem firstBlock_mono {es fs : List Extent} (h : ∀ e ∈ es, e ∈ fs) :
    firstBlock fs ≤ firstBlock es := by
  rcases @firstBlock_eq es with heq | ⟨e, he, heq⟩
  · rw [heq]
    exact firstBlock_le_sixtyFour fs
  · rw [heq]
    exact firstBlock_le e (h e he)

variable {first : GptPartitionRequest} {rest : List GptPartitionRequest}

theorem fillGptGaps_ok (hfirst : ∀ r ∈ rest, first.startBlock ≤ r.startBlock)
    (hfits : t.gptReqFlags.testBit 0 = true ∨ Fits Prod.fst Prod.snd (lastGoal t imgBlocks)
      (firstBlock ((first :: rest).map extent)) ((first :: rest).map extent))
    (hroom : (first :: rest).length + (gaps Prod.fst Prod.snd (lastGoal t imgBlocks)
      (firstBlock ((first :: rest).map extent)) ((first :: rest).map extent)).length ≤
        isoGptEntriesMax) :
    ∃ st fillers, fillGptGaps t imgBlocks (first :: rest) = .ok st ∧
      st.gptReq = first :: rest ++ fillers ∧
      fillers.map extent = gaps Prod.fst Prod.snd (lastGoal t imgBlocks)
        (firstBlock ((first :: rest).map extent)) ((first :: rest).map extent) := by
  rw [List.map_cons, firstBlock_sorted (by simpa using hfirst)] at *
  simp only [Fits, gaps, extent_fst, extent_snd, List.length_append] at hfits hroom ⊢
  obtain ⟨st1, new, hok, hend, hreq, hextents⟩ :=
    @fillFirstGap_ok t _ (startBlock_lt first) (first :: rest) (by omega)
  have hnew := congrArg List.length hextents
  rw [List.length_map] at hnew
  have hreached : max st1.partEnd (first.startBlock + first.blockCount) =
      max (min 64 first.startBlock) (first.startBlock + first.blockCount) := by
    rw [hend]
    split
    · omega
    · omega
  obtain ⟨st, fillers, hok', hreq', hextents'⟩ := @fillGapsAfter_ok t imgBlocks st1 first rest
    (by
      rw [hreached]
      exact hfits.imp_right And.right)
    (by
      rw [hreached, hreq, List.length_append]
      omega)
  refine ⟨st, new ++ fillers, ?_, ?_, ?_⟩
  · rw [fillGptGaps, hok]
    exact hok'
  · rw [hreq', hreq, List.append_assoc]
  · rw [List.map_append, hextents, hextents', hreached]

theorem fillGptGaps_overlap (hfirst : ∀ r ∈ rest, first.startBlock ≤ r.startBlock)
    (hflag : t.gptReqFlags.testBit 0 = false)
    (hover : ¬ Fits Prod.fst Prod.snd (lastGoal t imgBlocks)
      (firstBlock ((first :: rest).map extent)) ((first :: rest).map extent))
    (hroom : (first :: rest).length + (gaps Prod.fst Prod.snd (lastGoal t imgBlocks)
      (firstBlock ((first :: rest).map extent)) ((first :: rest).map extent)).length ≤
        isoGptEntriesMax) :
    fillGptGaps t imgBlocks (first :: rest) = .error .gptOverlap := by
  rw [List.map_cons, firstBlock_sorted (by simpa using hfirst)] at *
  simp only [Fits, gaps, extent_fst, extent_snd, List.length_append] at hover hroom
  obtain ⟨st1, new, hok, hend, hreq, hextents⟩ :=
    @fillFirstGap_ok t _ (startBlock_lt first) (first :: rest) (by omega)
  have hnew := congrArg List.length hextents
  rw [List.length_map] at hnew
  have hreached : max st1.partEnd (first.startBlock + first.blockCount) =
      max (min 64 first.startBlock) (first.startBlock + first.blockCount) := by
    rw [hend]
    split
    · omega
    · omega
  have hafter := @fillGapsAfter_overlap t imgBlocks st1 first rest hflag
    (by
      rw [hreached]
      exact fun hfits => hover ⟨Nat.min_le_right .., hfits⟩)
    (by
      rw [hreached, hreq, List.length_append]
      omega)
  rw [fillGptGaps, hok]
  exact hafter

end Filling

section Entries

variable {t : Ecma119Image} {guids : Nat → Guid} {guidsMade : Nat}
  {reqs : List GptPartitionRequest}

/-- The extent as it gets written. -/
def writtenExtent (t : Ecma119Image) (r : GptPartitionRequest) : Extent :=
  (r.startBlock, endLba t r + 1)

theorem writeGptEntries_extents :
    (writeGptEntries guids t guidsMade reqs).1.map entryExtent = reqs.map (writtenExtent t) := by
  induction reqs generalizing guidsMade with
  | nil => rfl
  | cons r rest ih =>
    rw [List.map_cons, ← ih]
    rfl

theorem length_writeGptEntries :
    (writeGptEntries guids t guidsMade reqs).1.length = reqs.length := by
  have := congrArg List.length (@writeGptEntries_extents t guids guidsMade reqs)
  rwa [List.length_map, List.length_map] at this

/-- Each request gets its entry. -/
theorem writeGptEntries_records {r : GptPartitionRequest} (hr : r ∈ reqs)
    (hextent : writtenExtent t r = extent r) :
    ∃ e ∈ (writeGptEntries guids t guidsMade reqs).1, Records e r := by
  induction reqs generalizing guidsMade with
  | nil => simp at hr
  | cons q rest ih =>
    rcases List.mem_cons.mp hr with rfl | hlater
    · refine ⟨_, List.mem_cons_self .., hextent, rfl, fun hguid => ?_, rfl, rfl⟩
      exact if_neg hguid
    · obtain ⟨e, he, hrecords⟩ := @ih (isoWriteGptEntry guids t guidsMade q).2.2 hlater
      exact ⟨e, List.mem_cons_of_mem _ he, hrecords⟩

end Entries

section Writing

variable {t : Ecma119Image} {imgBlocks : UInt32}

/-- No partition has its start inside of another one, and none reaches over the last goal. -/
def Separated (t : Ecma119Image) (imgBlocks : UInt32) : Prop :=
  (partitionExtents t).Pairwise (Apart Prod.fst Prod.snd) ∧
    ∀ e ∈ partitionExtents t, e.2 ≤ lastGoal t imgBlocks

theorem extent_proper (r : GptPartitionRequest) : (extent r).1 ≤ (extent r).2 :=
  Nat.le_add_right ..

/-- Of two partitions with the same start the larger one comes first. -/
theorem apart_iff_of_cmp {p q : GptPartitionRequest} (h : cmpGpt p q ≤ 0) :
    Apart Prod.fst Prod.snd (extent p) (extent q) ↔ (extent p).2 ≤ (extent q).1 := by
  rw [cmpGpt, cmpPartitionRequest_le_iff] at h
  simp only [Apart, covers_false_iff, extent_fst, extent_snd]
  omega

theorem fits_iff_apart {limit : Nat} {sorted : List GptPartitionRequest} (hne : sorted ≠ [])
    (hcmp : sorted.Pairwise fun p q => cmpGpt p q ≤ 0) :
    Fits Prod.fst Prod.snd limit (firstBlock (sorted.map extent)) (sorted.map extent) ↔
      (sorted.map extent).Pairwise (Apart Prod.fst Prod.snd) ∧
        ∀ e ∈ sorted.map extent, e.2 ≤ limit := by
  rw [fits_iff, List.pairwise_map, List.pairwise_map]
  constructor
  · rintro ⟨-, hall, hnext⟩
    constructor
    · exact (hcmp.and hnext).imp fun ⟨hle, hstop⟩ => (apart_iff_of_cmp hle).mpr hstop
    · exact fun e he => (hall e he).2
  · rintro ⟨hapart, hlimit⟩
    refine ⟨?_, fun e he => ⟨firstBlock_le e he, hlimit e he⟩, ?_⟩
    · obtain ⟨r, hr⟩ := List.exists_mem_of_ne_nil sorted hne
      have hmem := List.mem_map_of_mem (f := extent) hr
      exact (firstBlock_le _ hmem).trans ((extent_proper r).trans (hlimit _ hmem))
    · exact (hcmp.and hapart).imp fun ⟨hle, h⟩ => (apart_iff_of_cmp hle).mp h

/-- What the first sorting yields. -/
structure Arranged (t : Ecma119Image) (imgBlocks : UInt32) (copies : List GptPartitionRequest)
    (first : GptPartitionRequest) (rest : List GptPartitionRequest) : Prop where
  perm : (first :: rest).Perm (t.gptReq ++ copies)
  first_le : ∀ r ∈ rest, first.startBlock ≤ r.startBlock
  gaps_eq : gaps Prod.fst Prod.snd (lastGoal t imgBlocks)
    (firstBlock ((first :: rest).map extent)) ((first :: rest).map extent) =
      gapExtents t imgBlocks
  fits_iff : Fits Prod.fst Prod.snd (lastGoal t imgBlocks)
    (firstBlock ((first :: rest).map extent)) ((first :: rest).map extent) ↔
      Separated t imgBlocks

theorem start_le_of_cmp {p q : GptPartitionRequest} (h : cmpGpt p q ≤ 0) :
    p.startBlock ≤ q.startBlock := by
  rw [cmpGpt, cmpPartitionRequest_le_iff] at h
  omega

theorem arrange (libc : Qsort) (hne : t.gptReq ≠ []) {copies : List GptPartitionRequest}
    (hcopies : copies.map extent = (copiedHfs t).map (hfsExtent t)) :
    ∃ first rest, libc.run cmpGpt (t.gptReq ++ copies) = first :: rest ∧
      Arranged t imgBlocks copies first rest := by
  have hperm := libc.perm cmpGpt (t.gptReq ++ copies)
  have hcmp := libc.sorted cmpGpt_consistent (t.gptReq ++ copies)
  cases hrun : libc.run cmpGpt (t.gptReq ++ copies) with
  | nil =>
    rw [hrun] at hperm
    exact absurd (List.append_eq_nil_iff.mp hperm.nil_eq.symm).1 hne
  | cons first rest =>
    rw [hrun] at hperm hcmp
    have hextents : ((first :: rest).map extent).Perm (partitionExtents t) := by
      have := hperm.map extent
      rwa [List.map_append, hcopies] at this
    have hstart : ((first :: rest).map extent).Pairwise fun e f => e.1 ≤ f.1 :=
      List.pairwise_map.mpr (hcmp.imp start_le_of_cmp)
    refine ⟨first, rest, rfl, hperm, ?_, ?_, ?_⟩
    · exact fun r hr => start_le_of_cmp ((List.pairwise_cons.mp hcmp).1 r hr)
    · have hfirst : firstBlock ((first :: rest).map extent) = firstBlock (partitionExtents t) :=
        Nat.le_antisymm (firstBlock_mono fun e he => hextents.mem_iff.mpr he)
          (firstBlock_mono fun e he => hextents.mem_iff.mp he)
      have : Std.Total fun e f : Extent => e.1 ≤ f.1 := ⟨fun e f => Nat.le_total e.1 f.1⟩
      have : IsTrans Extent fun e f => e.1 ≤ f.1 := ⟨fun _ _ _ => Nat.le_trans⟩
      rw [hfirst, gapExtents]
      refine gaps_perm (hextents.trans (List.perm_insertionSort _ _).symm) ?_ hstart
        (List.pairwise_insertionSort _ _)
      intro e he
      obtain ⟨r, -, rfl⟩ := List.mem_map.mp he
      exact extent_proper r
    · rw [fits_iff_apart (List.cons_ne_nil first rest) hcmp, Separated,
        hextents.pairwise_iff Apart.symm]
      simp only [hextents.mem_iff]

/-- The table which gets written. -/
structure Written (t : Ecma119Image) (imgBlocks : UInt32) (guids : Nat → Guid)
    (entries : List GptEntry) (copies fillers merged : List GptPartitionRequest) : Prop where
  perm : merged.Perm (t.gptReq ++ copies ++ fillers)
  copies_eq : copies.map extent = (copiedHfs t).map (hfsExtent t)
  fillers_eq : fillers.map extent = gapExtents t imgBlocks
  sorted : merged.Pairwise fun p q => p.startBlock ≤ q.startBlock
  entries_eq : entries = (writeGptEntries guids t t.guidsMade merged).1

theorem isoWriteGpt_ok (libc : Qsort) (guids : Nat → Guid) (hne : t.gptReq ≠ [])
    (hiso : t.opts.partLikeIsohybrid = false) (hroom : Room t imgBlocks)
    (hfits : t.gptReqFlags.testBit 0 = true ∨ Separated t imgBlocks) :
    ∃ out copies fillers merged, isoWriteGpt libc guids t imgBlocks = .ok out ∧
      out.ret = 1 ∧ Written t imgBlocks guids out.entries copies fillers merged := by
  simp only [Room, partitionExtents, List.length_append, List.length_map] at hroom
  obtain ⟨copies, hcopy, hcopies⟩ := @copyApmhfs_spec t t.apmReq 0 t.gptReq (by
    rw [copiedHfs] at hroom
    omega)
  have hcount := congrArg List.length hcopies
  rw [List.length_map, List.length_map] at hcount
  obtain ⟨first, rest, hrun, harranged⟩ := @arrange t imgBlocks libc hne copies hcopies
  have hlength := harranged.perm.length_eq
  rw [List.length_append] at hlength
  rw [copiedHfs] at hroom
  obtain ⟨st, fillers, hfill, hreq, hfillers⟩ :=
    @fillGptGaps_ok t imgBlocks first rest harranged.first_le
      (hfits.imp_right harranged.fits_iff.mpr) (by
        rw [harranged.gaps_eq]
        omega)
  rw [harranged.gaps_eq] at hfillers
  have hgaps := congrArg List.length hfillers
  rw [List.length_map] at hgaps
  have hmerged := libc.perm cmpGpt st.gptReq
  have hsize := hmerged.length_eq
  rw [hreq, List.length_append, hlength] at hsize
  obtain ⟨out, hout, hret, hentries⟩ : ∃ out, isoWriteGpt libc guids t imgBlocks = .ok out ∧
      out.ret = 1 ∧ out.entries =
        (writeGptEntries guids t t.guidsMade (libc.run cmpGpt st.gptReq)).1 := by
    rw [isoWriteGpt, if_neg hne, isoCopyApmhfsToGpt, hcopy]
    simp only [bind, Except.bind, fillRequests, hrun, hiso, Bool.false_eq_true, if_false, hfill,
      Except.map]
    rw [if_neg (by rw [hreq]; omega)]
    exact ⟨_, rfl, rfl, by simp [GptOutcome.entries, List.reduceOption]⟩
  refine ⟨out, copies, fillers, _, hout, hret, ?_, hcopies, hfillers, ?_, hentries⟩
  · rw [hreq] at hmerged ⊢
    exact hmerged.trans (harranged.perm.append_right fillers)
  · exact (libc.sorted cmpGpt_consistent _).imp start_le_of_cmp

theorem isoWriteGpt_overlap (libc : Qsort) (guids : Nat → Guid) (hne : t.gptReq ≠ [])
    (hiso : t.opts.partLikeIsohybrid = false) (hroom : Room t imgBlocks)
    (hflag : t.gptReqFlags.testBit 0 = false) (hover : ¬ Separated t imgBlocks) :
    isoWriteGpt libc guids t imgBlocks = .error .gptOverlap := by
  simp only [Room, partitionExtents, List.length_append, List.length_map] at hroom
  obtain ⟨copies, hcopy, hcopies⟩ := @copyApmhfs_spec t t.apmReq 0 t.gptReq (by
    rw [copiedHfs] at hroom
    omega)
  have hcount := congrArg List.length hcopies
  rw [List.length_map, List.length_map] at hcount
  obtain ⟨first, rest, hrun, harranged⟩ := @arrange t imgBlocks libc hne copies hcopies
  have hlength := harranged.perm.length_eq
  rw [List.length_append] at hlength
  rw [copiedHfs] at hroom
  have hfill := @fillGptGaps_overlap t imgBlocks first rest harranged.first_le hflag
    (harranged.fits_iff.not.mpr hover) (by
      rw [harranged.gaps_eq]
      omega)
  rw [isoWriteGpt, if_neg hne, isoCopyApmhfsToGpt, hcopy]
  simp only [bind, Except.bind, fillRequests, hrun, hiso, Bool.false_eq_true, if_false, hfill,
      Except.map]

end Writing

section Counting

variable {t : Ecma119Image} {imgBlocks : UInt32} {guids : Nat → Guid} {entries : List GptEntry}
  {copies fillers merged : List GptPartitionRequest}

/-- Not at the very start with no blocks, and not of the size which is taken for open ended. -/
def Ordinary (e : Extent) : Prop := 0 < e.2 ∧ e.2 - e.1 < 4 * 0xffffffff

theorem backupEndLba_range (t : Ecma119Image) :
    0 < backupEndLba t ∧ backupEndLba t ≤ 4 * 0xfffffffe := by
  have h1 := t.backupSize_pos
  have h2 := t.backupSize_lt
  have h3 := t.backupEnd_lt
  rw [backupEndLba]
  omega

theorem lastGoal_le (t : Ecma119Image) (imgBlocks : UInt32) :
    lastGoal t imgBlocks ≤ backupEndLba t := Nat.min_le_right ..

/-- Ordinary partitions get truncated at the start of the backup GPT. -/
theorem writtenExtent_of_ordinary {r : GptPartitionRequest} (h : Ordinary (extent r)) :
    writtenExtent t r = ((extent r).1, min (extent r).2 (backupEndLba t)) := by
  obtain ⟨hpos, hsize⟩ := h
  simp only [extent_fst, extent_snd, Nat.add_sub_cancel_left] at hpos hsize
  have hback := backupEndLba_range t
  have hrange := r.inRange
  rw [writtenExtent, endLba, if_neg (by omega), u64]
  simp only [extent_fst, extent_snd, Prod.mk.injEq, true_and]
  omega

theorem count_written {reqs : List GptPartitionRequest}
    (hall : ∀ e ∈ reqs.map extent, Ordinary e) (b : Nat) :
    (reqs.map (writtenExtent t)).countP (covers Prod.fst Prod.snd b) =
      if b < backupEndLba t then (reqs.map extent).countP (covers Prod.fst Prod.snd b) else 0 := by
  induction reqs with
  | nil => simp
  | cons r rest ih =>
    rw [List.map_cons, List.forall_mem_cons] at hall
    rw [List.map_cons, List.map_cons, List.countP_cons, List.countP_cons, ih hall.2,
      writtenExtent_of_ordinary hall.1]
    have hcovers : covers Prod.fst Prod.snd b ((extent r).1, min (extent r).2 (backupEndLba t)) =
        (covers Prod.fst Prod.snd b (extent r) && decide (b < backupEndLba t)) := by
      rw [Bool.eq_iff_iff, Bool.and_eq_true, covers_iff, covers_iff, decide_eq_true_eq]
      omega
    rw [hcovers]
    by_cases hb : b < backupEndLba t
    · simp [hb]
    · simp [hb]

/-- A block below the backup GPT is in as many entries as there are partitions and gaps
around it. -/
theorem Written.count (h : Written t imgBlocks guids entries copies fillers merged)
    (hall : ∀ e ∈ partitionExtents t ++ gapExtents t imgBlocks, Ordinary e) (b : Nat) :
    (entries.map entryExtent).countP (covers Prod.fst Prod.snd b) =
      if b < backupEndLba t then
        (partitionExtents t).countP (covers Prod.fst Prod.snd b) +
          (gapExtents t imgBlocks).countP (covers Prod.fst Prod.snd b)
      else 0 := by
  have hextents : (merged.map extent).Perm (partitionExtents t ++ gapExtents t imgBlocks) := by
    have := h.perm.map extent
    rwa [List.map_append, List.map_append, h.copies_eq, h.fillers_eq] at this
  rw [h.entries_eq, writeGptEntries_extents,
    count_written (fun e he => hall e (hextents.mem_iff.mp he)), hextents.countP_eq,
    List.countP_append]

theorem partition_proper : ∀ e ∈ partitionExtents t, e.1 ≤ e.2 := by
  intro e he
  rcases List.mem_append.mp he with hreq | hcopy
  · obtain ⟨r, -, rfl⟩ := List.mem_map.mp hreq
    exact extent_proper r
  · obtain ⟨a, -, rfl⟩ := List.mem_map.mp hcopy
    exact Nat.mul_le_mul_right _ (Nat.le_add_right ..)

theorem sortedExtents_perm :
    ((partitionExtents t).insertionSort fun e f => e.1 ≤ f.1).Perm (partitionExtents t) :=
  List.perm_insertionSort _ _

theorem sortedExtents_sorted :
    ((partitionExtents t).insertionSort fun e f => e.1 ≤ f.1).Pairwise fun e f => e.1 ≤ f.1 := by
  have : Std.Total fun e f : Extent => e.1 ≤ f.1 := ⟨fun e f => Nat.le_total e.1 f.1⟩
  have : IsTrans Extent fun e f => e.1 ≤ f.1 := ⟨fun _ _ _ => Nat.le_trans⟩
  exact List.pairwise_insertionSort _ _

theorem count_gapExtents_covered {b : Nat}
    (h : ∃ e ∈ partitionExtents t, covers Prod.fst Prod.snd b e = true) :
    (gapExtents t imgBlocks).countP (covers Prod.fst Prod.snd b) = 0 := by
  obtain ⟨e, he, hcovers⟩ := h
  exact count_gaps_covered sortedExtents_sorted ⟨e, sortedExtents_perm.mem_iff.mpr he, hcovers⟩

theorem count_gapExtents_free {b : Nat} (hfirst : firstBlock (partitionExtents t) ≤ b)
    (hlast : b < lastGoal t imgBlocks)
    (h : ∀ e ∈ partitionExtents t, covers Prod.fst Prod.snd b e = false) :
    (gapExtents t imgBlocks).countP (covers Prod.fst Prod.snd b) = 1 :=
  count_gaps_free (fun e he => partition_proper e (sortedExtents_perm.mem_iff.mp he)) hfirst hlast
    fun e he => h e (sortedExtents_perm.mem_iff.mp he)

theorem count_gapExtents_le (b : Nat) :
    (gapExtents t imgBlocks).countP (covers Prod.fst Prod.snd b) ≤ 1 :=
  count_gaps_le fun e he => partition_proper e (sortedExtents_perm.mem_iff.mp he)

theorem copied_not_hits {a : ApmPartitionRequest} (ha : a ∈ copiedHfs t)
    {r : GptPartitionRequest} (hr : r ∈ t.gptReq) :
    hitsGpt (apmFactor t) a r.startBlock r.blockCount = false := by
  have := freeHfs_not_hits a ha (extent r) (List.mem_map_of_mem hr)
  simpa using this

/-- If the requests end before the backup GPT then all partitions are ordinary. -/
theorem partitions_ordinary (hne : t.gptReq ≠ [])
    (hinside : ∀ r ∈ t.gptReq, (extent r).2 ≤ backupEndLba t)
    (hnonzero : ∀ r ∈ t.gptReq, extent r ≠ (0, 0)) :
    ∀ e ∈ partitionExtents t, Ordinary e ∧ e.1 ≤ 4 * 0xffffffff := by
  have hback := backupEndLba_range t
  obtain ⟨r0, hr0⟩ := List.exists_mem_of_ne_nil _ hne
  intro e he
  rcases List.mem_append.mp he with hreq | hcopy
  · obtain ⟨r, hr, rfl⟩ := List.mem_map.mp hreq
    have hle := hinside r hr
    have hproper := extent_proper r
    refine ⟨⟨?_, by omega⟩, by omega⟩
    refine Nat.pos_of_ne_zero fun hzero => hnonzero r hr (Prod.ext ?_ hzero)
    exact Nat.le_zero.mp (hzero ▸ hproper)
  · obtain ⟨a, ha, rfl⟩ := List.mem_map.mp hcopy
    have hrange := a.inRange
    have hextreme : ¬ ((a.startBlock + a.blockCount) * apmFactor t = 0 ∨
        4 * 0xffffffff ≤ a.blockCount * apmFactor t) := fun hextreme => by
      have hle : r0.startBlock + r0.blockCount ≤ 4 * 0xfffffffe := by
        have := hinside r0 hr0
        rw [extent_snd] at this
        omega
      have hhits := hits_of_extreme (apmFactor_cases t) hle hextreme
      rw [copied_not_hits ha hr0] at hhits
      exact Bool.false_ne_true hhits
    simp only [Ordinary, hfsExtent, Nat.add_mul] at hextreme ⊢
    rcases apmFactor_cases t with hfactor | hfactor
    · rw [hfactor] at hextreme ⊢
      omega
    · rw [hfactor] at hextreme ⊢
      omega

/-- If the requests are inside of the image then all partitions and gaps are ordinary. -/
theorem all_ordinary (hne : t.gptReq ≠ [])
    (hinside : ∀ r ∈ t.gptReq, (extent r).2 ≤ lastGoal t imgBlocks)
    (hnonzero : ∀ r ∈ t.gptReq, extent r ≠ (0, 0)) :
    ∀ e ∈ partitionExtents t ++ gapExtents t imgBlocks, Ordinary e := by
  have hback := backupEndLba_range t
  have hgoal := lastGoal_le t imgBlocks
  have hpartition := partitions_ordinary hne (fun r hr => (hinside r hr).trans hgoal) hnonzero
  intro e he
  rcases List.mem_append.mp he with hpart | hgap
  · exact (hpartition e hpart).1
  · have hstop : e.2 ≤ 4 * 0xffffffff := by
      rcases gaps_stop e hgap with hlimit | ⟨p, hp, hstart⟩
      · omega
      · rw [hstart]
        exact (hpartition p (sortedExtents_perm.mem_iff.mp hp)).2
    obtain ⟨hfirst, hlt⟩ := gaps_range e hgap
    refine ⟨by omega, ?_⟩
    -- no gap starts at block 0, because a partition would have to start there
    have hpos : 0 < e.1 := by
      refine Nat.pos_of_ne_zero fun hzero => ?_
      rcases @firstBlock_eq (partitionExtents t) with h64 | ⟨p, hp, hstart⟩
      · omega
      · have hcovers : covers Prod.fst Prod.snd 0 p = true :=
          covers_iff.mpr ⟨by omega, (hpartition p hp).1.1⟩
        have hnone := @count_gapExtents_covered t imgBlocks 0 ⟨p, hp, hcovers⟩
        exact List.countP_eq_zero.mp hnone e hgap (covers_iff.mpr ⟨by omega, by omega⟩)
    omega

end Counting

section Gaplessness

variable {t : Ecma119Image} {imgBlocks : UInt32}

theorem Harmless.partitions_disjoint (h : Harmless t imgBlocks)
    (hdisjoint : (t.gptReq.map extent).Pairwise (Disjoint Prod.fst Prod.snd)) :
    (partitionExtents t).Pairwise (Disjoint Prod.fst Prod.snd) := by
  refine List.pairwise_append.mpr ⟨hdisjoint, freeHfs_disjoint, ?_⟩
  intro e he f hf
  obtain ⟨r, hr, rfl⟩ := List.mem_map.mp he
  obtain ⟨a, ha, rfl⟩ := List.mem_map.mp hf
  exact (disjoint_of_not_hits (apmFactor_cases t) r.inRange (copied_not_hits ha hr)
    (h.lastBlock a ha r hr)).symm

theorem Harmless.separated (h : Harmless t imgBlocks)
    (hdisjoint : (t.gptReq.map extent).Pairwise (Disjoint Prod.fst Prod.snd))
    (hinside : ∀ r ∈ t.gptReq, (extent r).2 ≤ lastGoal t imgBlocks)
    (hflag : t.gptReqFlags.testBit 0 = false) : Separated t imgBlocks := by
  constructor
  · refine List.Pairwise.imp_of_mem ?_ (h.partitions_disjoint hdisjoint)
    intro e f he hf hef
    have hstart {x y : Extent} (hx : x ∈ partitionExtents t) (hy : y ∈ partitionExtents t)
        (hxy : Disjoint Prod.fst Prod.snd x y) : covers Prod.fst Prod.snd x.1 y = false := by
      rcases Nat.eq_or_lt_of_le (partition_proper x hx) with hempty | hlt
      · exact h.emptyOutside hflag x hx hempty y hy
      · exact Bool.eq_false_iff.mpr fun hcovers =>
          hxy x.1 ⟨covers_iff.mpr ⟨Nat.le_refl _, hlt⟩, hcovers⟩
    exact ⟨hstart he hf hef, hstart hf he hef.symm⟩
  · intro e he
    rcases List.mem_append.mp he with hreq | hcopy
    · obtain ⟨r, hr, rfl⟩ := List.mem_map.mp hreq
      exact hinside r hr
    · obtain ⟨a, ha, rfl⟩ := List.mem_map.mp hcopy
      exact h.copiedInside hflag a ha

theorem Written.gapless {guids : Nat → Guid} {entries : List GptEntry}
    {copies fillers merged : List GptPartitionRequest}
    (hwritten : Written t imgBlocks guids entries copies fillers merged) (hne : t.gptReq ≠ [])
    (hdisjoint : (t.gptReq.map extent).Pairwise (Disjoint Prod.fst Prod.snd))
    (hinside : ∀ r ∈ t.gptReq, (extent r).2 ≤ lastGoal t imgBlocks)
    (h : Harmless t imgBlocks) : Gapless t imgBlocks entries := by
  have hordinary := @all_ordinary t imgBlocks hne hinside h.nonzero
  have hpartitions := pairwise_disjoint_iff.mp (h.partitions_disjoint hdisjoint)
  have hgoal := lastGoal_le t imgBlocks
  constructor
  case sorted =>
    have hextents := hwritten.entries_eq ▸
      @writeGptEntries_extents t guids t.guidsMade merged
    have hsorted : (entries.map entryExtent).Pairwise fun e f => e.1 ≤ f.1 := by
      rw [hextents, List.pairwise_map]
      exact hwritten.sorted
    rw [List.pairwise_map] at hsorted
    exact hsorted
  case disjoint =>
    rw [pairwise_disjoint_iff]
    intro b
    rw [hwritten.count hordinary]
    split
    next =>
      by_cases hcovered : ∃ e ∈ partitionExtents t, covers Prod.fst Prod.snd b e = true
      · rw [count_gapExtents_covered hcovered]
        exact hpartitions b
      · have hnone : (partitionExtents t).countP (covers Prod.fst Prod.snd b) = 0 :=
          List.countP_eq_zero.mpr fun e he hcovers => hcovered ⟨e, he, hcovers⟩
        rw [hnone, Nat.zero_add]
        exact count_gapExtents_le b
    next => exact Nat.zero_le 1
  case unchanged =>
    intro r hr
    have hmem : r ∈ merged :=
      hwritten.perm.mem_iff.mpr (List.mem_append_left _ (List.mem_append_left _ hr))
    have hextent : writtenExtent t r = extent r := by
      have hr' : Ordinary (extent r) := hordinary _
        (List.mem_append_left _ (List.mem_append_left _ (List.mem_map_of_mem hr)))
      rw [writtenExtent_of_ordinary hr', Nat.min_eq_left ((hinside r hr).trans hgoal)]
    rw [hwritten.entries_eq]
    exact writeGptEntries_records hmem hextent
  case covered =>
    intro b hfirst hlast
    rw [hwritten.count hordinary, if_pos (by omega)]
    by_cases hcovered : ∃ e ∈ partitionExtents t, covers Prod.fst Prod.snd b e = true
    · have hle := hpartitions b
      have hpos : 0 < (partitionExtents t).countP (covers Prod.fst Prod.snd b) :=
        List.countP_pos_iff.mpr hcovered
      rw [count_gapExtents_covered hcovered]
      omega
    · have hnone : ∀ e ∈ partitionExtents t, covers Prod.fst Prod.snd b e = false :=
        fun e he => Bool.eq_false_iff.mpr fun hcovers => hcovered ⟨e, he, hcovers⟩
      have hstart : firstBlock (partitionExtents t) ≤ firstBlock (t.gptReq.map extent) :=
        firstBlock_mono fun e he => List.mem_append_left _ he
      rw [count_gapExtents_free (hstart.trans hfirst) hlast hnone,
        List.countP_eq_zero.mpr fun e he => by simp [hnone e he]]

/-- A written table without gaps comes from harmless requests. -/
theorem Written.harmless {guids : Nat → Guid} {entries : List GptEntry}
    {copies fillers merged : List GptPartitionRequest}
    (hwritten : Written t imgBlocks guids entries copies fillers merged) (hne : t.gptReq ≠ [])
    (hinside : ∀ r ∈ t.gptReq, (extent r).2 ≤ lastGoal t imgBlocks)
    (hseparated : t.gptReqFlags.testBit 0 = false → Separated t imgBlocks)
    (h : Gapless t imgBlocks entries) : Harmless t imgBlocks := by
  have hnonzero : ∀ r ∈ t.gptReq, extent r ≠ (0, 0) := by
    intro r hr hzero
    obtain ⟨e, -, hrecords⟩ := h.unchanged r hr
    have := congrArg Prod.snd (hrecords.extent_eq.trans hzero)
    exact Nat.succ_ne_zero _ this
  have hordinary := @all_ordinary t imgBlocks hne hinside hnonzero
  have hgoal := lastGoal_le t imgBlocks
  constructor
  case nonzero => exact hnonzero
  case lastBlock =>
    rintro a ha r hr hcount hpos ⟨hlow, hhigh⟩
    -- the first block of the requested partition is in the copied one too
    have hle := pairwise_disjoint_iff.mp h.disjoint r.startBlock
    have hlt : r.startBlock < backupEndLba t := by
      have := hinside r hr
      rw [extent_snd] at this
      omega
    have hreq : 0 < (t.gptReq.map extent).countP (covers Prod.fst Prod.snd r.startBlock) :=
      List.countP_pos_iff.mpr ⟨extent r, List.mem_map_of_mem hr,
        covers_iff.mpr ⟨Nat.le_refl _, Nat.lt_add_of_pos_right hpos⟩⟩
    have hcopy : 0 < ((copiedHfs t).map (hfsExtent t)).countP
        (covers Prod.fst Prod.snd r.startBlock) := by
      have hmono : a.startBlock * apmFactor t ≤
          (a.startBlock + a.blockCount - 1) * apmFactor t :=
        Nat.mul_le_mul_right _ (by omega)
      exact List.countP_pos_iff.mpr ⟨hfsExtent t a, List.mem_map_of_mem ha,
        covers_iff.mpr ⟨hmono.trans (Nat.le_of_lt hlow), hhigh⟩⟩
    rw [hwritten.count hordinary, if_pos hlt, partitionExtents, List.countP_append] at hle
    omega
  case emptyOutside =>
    intro hflag e he hempty p hp
    by_cases hsame : e = p
    · rw [← hsame, covers_false_iff]
      omega
    · exact ((hseparated hflag).1.forall he hp hsame).1
  case copiedInside =>
    intro hflag a ha
    exact (hseparated hflag).2 _ (List.mem_append_right _ (List.mem_map_of_mem ha))

/-- Disjoint requests yield a table without gaps exactly if they are harmless. Overlapping
requests are refused. -/
theorem gapless_iff_harmless (libc : Qsort) (guids : Nat → Guid) (hne : t.gptReq ≠ [])
    (hiso : t.opts.partLikeIsohybrid = false) (hroom : Room t imgBlocks) :
    ((t.gptReq.map extent).Pairwise (Disjoint Prod.fst Prod.snd) →
      (∀ r ∈ t.gptReq, (extent r).2 ≤ lastGoal t imgBlocks) →
      ((∃ out, isoWriteGpt libc guids t imgBlocks = .ok out ∧ out.ret = 1 ∧
        Gapless t imgBlocks out.entries) ↔ Harmless t imgBlocks)) ∧
    (¬ (t.gptReq.map extent).Pairwise (Disjoint Prod.fst Prod.snd) →
      t.gptReqFlags.testBit 0 = false →
      isoWriteGpt libc guids t imgBlocks = .error .gptOverlap) := by
  constructor
  · intro hdisjoint hinside
    constructor
    · rintro ⟨out, hout, -, hgapless⟩
      have hseparated : t.gptReqFlags.testBit 0 = false → Separated t imgBlocks := by
        intro hflag
        by_contra hover
        rw [isoWriteGpt_overlap libc guids hne hiso hroom hflag hover] at hout
        cases hout
      have hfits : t.gptReqFlags.testBit 0 = true ∨ Separated t imgBlocks :=
        (Bool.eq_false_or_eq_true _).imp_right hseparated
      obtain ⟨out', copies, fillers, merged, hout', -, hwritten⟩ :=
        isoWriteGpt_ok libc guids hne hiso hroom hfits
      obtain rfl := Except.ok.inj (hout.symm.trans hout')
      exact hwritten.harmless hne hinside hseparated hgapless
    · intro h
      have hfits : t.gptReqFlags.testBit 0 = true ∨ Separated t imgBlocks :=
        (Bool.eq_false_or_eq_true _).imp_right (h.separated hdisjoint hinside)
      obtain ⟨out, copies, fillers, merged, hout, hret, hwritten⟩ :=
        isoWriteGpt_ok libc guids hne hiso hroom hfits
      exact ⟨out, hout, hret, hwritten.gapless hne hdisjoint hinside h⟩
  · intro hoverlap hflag
    refine isoWriteGpt_overlap libc guids hne hiso hroom hflag fun hseparated => hoverlap ?_
    exact (List.pairwise_append.mp hseparated.1).1.imp Apart.disjoint

end Gaplessness

section Examples

def smallRequest (startBlock blockCount : Nat) (inRange : startBlock + blockCount < 2 ^ 64) :
    GptPartitionRequest :=
  ⟨startBlock, blockCount, basicDataUuid, zeroUuid, 0, [], false, inRange⟩

/-- An image of 1004 blocks of 2 KiB with a backup GPT in the last 4 of them. -/
def smallImage (gptReq : List GptPartitionRequest) (apmReq : List ApmPartitionRequest) :
    Ecma119Image :=
  ⟨⟨false, 2048, 16, 0, zeroUuid, by decide⟩, 0, 1000, 63, 255, apmReq, 0, [], gptReq, 0, 1004, 4,
    216, 0, by decide, by decide, by decide⟩

def harmlessImage : Ecma119Image :=
  smallImage [smallRequest 400 8 (by decide), smallRequest 100 20 (by decide)] []

theorem gapless_small : ∃ out,
    isoWriteGpt smallQsort (fun _ => basicDataUuid) harmlessImage 1000 = .ok out ∧
      out.ret = 1 ∧ Gapless harmlessImage 1000 out.entries := by
  refine ((gapless_iff_harmless smallQsort _ (by decide) rfl (by decide)).1 ?_ (by decide)).mpr ?_
  · refine List.pairwise_pair.mpr fun o => ?_
    simp only [covers_iff, extent, smallRequest]
    omega
  · constructor
    case nonzero => decide
    case lastBlock => decide
    case emptyOutside => decide
    case copiedInside => decide

/-- One partition is requested to begin at GPT block 438. The HFS+ partition has the APM
blocks 100 to 109, which are the GPT blocks 400 to 439. -/
def hfsImage : Ecma119Image :=
  smallImage [smallRequest 438 100 (by decide)] [⟨100, 10, "HFS", "Apple_HFS", false, by decide⟩]

theorem copied_over_request : (hfsImage.gptReq.map extent).Pairwise (Disjoint Prod.fst Prod.snd) ∧
    (∀ r ∈ hfsImage.gptReq, (extent r).2 ≤ lastGoal hfsImage 1000) ∧ Room hfsImage 1000 ∧
    isoWriteGpt smallQsort (fun _ => basicDataUuid) hfsImage 1000 = .error .gptOverlap := by
  refine ⟨List.pairwise_singleton .., by decide, by decide, ?_⟩
  rfl

end Examples

end GptGapless
