import Libisofs.GptGapless
import Libisofs.GptBackup

/-!
# The partitions of a written GPT

A table which was written without error tells about the requested partitions, about copied
HFS+ partitions, and about gaps. This holds with and without filling of gaps.
-/

namespace GptWritten

open CLibrary Results PartitionRequests Gpt GptGapless GptBlocks GptReadBack

section Names

variable {t : Ecma119Image}

theorem length_isoAsciiUtf16le {gapName : String} (h : gapName.toList.length ≤ 36) :
    (isoAsciiUtf16le gapName).length = 72 := by
  have hbytes : (gapName.toList.flatMap fun c => [UInt8.ofNat c.toNat, 0]).length =
      gapName.toList.length * 2 := by
    simp [List.length_flatMap]
  rw [isoAsciiUtf16le, List.length_append, List.length_replicate, hbytes]
  omega

/-- There are at most three digits in the names. -/
theorem length_numbered {label : String} {counter : Nat} (hlabel : label.toList.length ≤ 33)
    (hcounter : counter < 1000) :
    (isoAsciiUtf16le (label ++ toString counter)).length = 72 := by
  have hdigits : (toString counter).toList.length ≤ 3 := by
    rw [Nat.toString_eq_ofList_toDigits, String.toList_ofList]
    exact (Nat.length_toDigits_le_iff (by decide) (by decide)).mpr hcounter
  refine length_isoAsciiUtf16le ?_
  rw [String.toList_append, List.length_append]
  omega

theorem hfsPartition_sizes {counter : Nat} (hcounter : counter + 1 < 1000)
    (a : ApmPartitionRequest) : FixedSizes (hfsPartition t counter a) := by
  refine ⟨rfl, rfl, ?_⟩
  simp only [hfsPartition]
  split
  · exact length_numbered (by decide) hcounter
  · exact length_isoAsciiUtf16le (by decide)

theorem gapPartition_sizes (hiso : t.opts.isoGptTypeGuid.length = 16)
    {partEnd goal gapCounter : Nat} (inRange : goal < 2 ^ 64) (hgap : partEnd < goal)
    (hcounter : gapCounter < 1000) :
    FixedSizes (gapPartition t partEnd goal gapCounter inRange hgap) := by
  simp only [gapPartition]
  split
  next => exact ⟨by split; exacts [hiso, rfl], rfl, @length_isoAsciiUtf16le "ISO9660" (by decide)⟩
  next => exact ⟨rfl, rfl, length_numbered (by decide) hcounter⟩

end Names

section Fillers

variable {t : Ecma119Image} {imgBlocks : UInt32} {st st' : FillState}

/-- A gap is behind a partition or behind the System Area, and reaches to the next partition or
to the last goal. -/
structure Filler (t : Ecma119Image) (imgBlocks : UInt32) (around : List GptPartitionRequest)
    (f : GptPartitionRequest) : Prop where
  behind : 64 ≤ f.startBlock ∨ ∃ q ∈ around, (extent q).2 ≤ f.startBlock
  nonempty : f.startBlock < (extent f).2
  stops : (extent f).2 = lastGoal t imgBlocks ∨ ∃ q ∈ around, (extent f).2 = q.startBlock
  sizes : FixedSizes f

theorem Filler.mono {around around' : List GptPartitionRequest} {f : GptPartitionRequest}
    (h : Filler t imgBlocks around f) (hsub : ∀ q ∈ around, q ∈ around') :
    Filler t imgBlocks around' f where
  behind := h.behind.imp_right fun ⟨q, hq, hle⟩ => ⟨q, hsub q hq, hle⟩
  nonempty := h.nonempty
  stops := h.stops.imp_right fun ⟨q, hq, heq⟩ => ⟨q, hsub q hq, heq⟩
  sizes := h.sizes

theorem fillGapTurn_inv (hiso : t.opts.isoGptTypeGuid.length = 16) {goal nextEnd : Nat}
    {inRange : goal < 2 ^ 64} (hcounter : st.gapCounter ≤ st.gptReq.length)
    (h : fillGapTurn t goal nextEnd inRange st = .ok st') :
    ∃ fillers, st'.gptReq = st.gptReq ++ fillers ∧ st'.gapCounter ≤ st'.gptReq.length ∧
      ∀ f ∈ fillers, nextEnd ≤ f.startBlock ∧ f.startBlock < (extent f).2 ∧
        (extent f).2 = goal ∧ FixedSizes f := by
  simp only [fillGapTurn] at h
  split at h
  next =>
    split at h
    next =>
      obtain rfl := Except.ok.inj h
      exact ⟨[], (List.append_nil _).symm, hcounter, by simp⟩
    next => cases h
  next =>
    split at h
    next hgap =>
      rw [bind_eq_ok] at h
      obtain ⟨reqs, hreg, hst⟩ := h
      obtain ⟨hfull, rfl⟩ := isoRegisterGptEntry_eq_ok.mp hreg
      obtain rfl := Except.ok.inj hst
      rw [isoGptEntriesMax] at hfull
      refine ⟨[gapPartition t (max st.partEnd nextEnd) goal st.gapCounter inRange hgap], rfl,
        ?_, ?_⟩
      · rw [List.length_append, List.length_singleton]
        exact Nat.add_le_add_right hcounter 1
      · intro f hf
        rw [List.mem_singleton.mp hf]
        have hsum : max st.partEnd nextEnd + (goal - max st.partEnd nextEnd) = goal := by omega
        have hend : (extent (gapPartition t (max st.partEnd nextEnd) goal st.gapCounter inRange
            hgap)).2 = goal := hsum
        refine ⟨Nat.le_max_right .., ?_, hend, gapPartition_sizes hiso _ _ (by omega)⟩
        rw [hend]
        exact hgap
    next =>
      obtain rfl := Except.ok.inj h
      exact ⟨[], (List.append_nil _).symm, hcounter, by simp⟩

theorem fillGapsAfter_inv (hiso : t.opts.isoGptTypeGuid.length = 16)
    {prev : GptPartitionRequest} {rest : List GptPartitionRequest}
    (hcounter : st.gapCounter ≤ st.gptReq.length)
    (h : fillGapsAfter t imgBlocks prev rest st = .ok st') :
    ∃ fillers, st'.gptReq = st.gptReq ++ fillers ∧
      ∀ f ∈ fillers, Filler t imgBlocks (prev :: rest) f := by
  induction rest generalizing prev st with
  | nil =>
    obtain ⟨fillers, hreq, -, hfillers⟩ := fillGapTurn_inv hiso hcounter h
    refine ⟨fillers, hreq, fun f hf => ?_⟩
    obtain ⟨hbehind, hlt, hstop, hsizes⟩ := hfillers f hf
    exact ⟨Or.inr ⟨prev, List.mem_cons_self .., hbehind⟩, hlt, Or.inl hstop, hsizes⟩
  | cons r rest ih =>
    rw [fillGapsAfter, bind_eq_ok] at h
    obtain ⟨st1, hturn, hrest⟩ := h
    obtain ⟨fillers1, hreq1, hcounter1, hfillers1⟩ := fillGapTurn_inv hiso hcounter hturn
    obtain ⟨fillers2, hreq2, hfillers2⟩ := ih hcounter1 hrest
    refine ⟨fillers1 ++ fillers2, by rw [hreq2, hreq1, List.append_assoc], fun f hf => ?_⟩
    rcases List.mem_append.mp hf with hf | hf
    · obtain ⟨hbehind, hlt, hstop, hsizes⟩ := hfillers1 f hf
      exact ⟨Or.inr ⟨prev, List.mem_cons_self .., hbehind⟩, hlt,
        Or.inr ⟨r, List.mem_cons_of_mem _ (List.mem_cons_self ..), hstop⟩, hsizes⟩
    · exact (hfillers2 f hf).mono fun q hq => List.mem_cons_of_mem _ hq

theorem fillRequests_inv (hiso : t.opts.isoGptTypeGuid.length = 16)
    {sorted filled : List GptPartitionRequest} (h : fillRequests t imgBlocks sorted = .ok filled) :
    ∃ fillers, filled = sorted ++ fillers ∧ ∀ f ∈ fillers, Filler t imgBlocks sorted f := by
  rw [fillRequests] at h
  split at h
  next =>
    obtain rfl := Except.ok.inj h
    exact ⟨[], (List.append_nil _).symm, by simp⟩
  next =>
    rw [map_eq_ok] at h
    obtain ⟨st, hfill, rfl⟩ := h
    have hfirst {goal : Nat} {inRange : goal < 2 ^ 64} {st1 : FillState}
        (hok : fillFirstGap t goal inRange ⟨sorted, 0, 0⟩ = .ok st1) :
        ∃ fillers, st1.gptReq = sorted ++ fillers ∧ st1.gapCounter ≤ st1.gptReq.length ∧
          ∀ f ∈ fillers, 64 ≤ f.startBlock ∧ f.startBlock < (extent f).2 ∧
            (extent f).2 = goal ∧ FixedSizes f := by
      rw [fillFirstGap] at hok
      split at hok
      next =>
        obtain rfl := Except.ok.inj hok
        exact ⟨[], (List.append_nil _).symm, Nat.zero_le _, by simp⟩
      next => exact fillGapTurn_inv hiso (Nat.zero_le _) hok
    cases sorted with
    | nil =>
      obtain ⟨fillers, hreq, -, hfillers⟩ := hfirst hfill
      refine ⟨fillers, hreq, fun f hf => ?_⟩
      obtain ⟨hbehind, hlt, hstop, hsizes⟩ := hfillers f hf
      exact ⟨Or.inl hbehind, hlt, Or.inl hstop, hsizes⟩
    | cons first rest =>
      rw [fillGptGaps, bind_eq_ok] at hfill
      obtain ⟨st1, hturn, hrest⟩ := hfill
      obtain ⟨fillers1, hreq1, hcounter1, hfillers1⟩ := hfirst hturn
      obtain ⟨fillers2, hreq2, hfillers2⟩ := fillGapsAfter_inv hiso hcounter1 hrest
      refine ⟨fillers1 ++ fillers2, by rw [hreq2, hreq1, List.append_assoc], fun f hf => ?_⟩
      rcases List.mem_append.mp hf with hf | hf
      · obtain ⟨hbehind, hlt, hstop, hsizes⟩ := hfillers1 f hf
        exact ⟨Or.inl hbehind, hlt, Or.inr ⟨first, List.mem_cons_self .., hstop⟩, hsizes⟩
      · exact hfillers2 f hf

end Fillers

section Tables

variable {t : Ecma119Image} {imgBlocks : UInt32} {guids : Nat → Guid} {out : GptOutcome}

/-- What a table tells about. -/
structure Composed (t : Ecma119Image) (imgBlocks : UInt32) (guids : Nat → Guid)
    (out : GptOutcome) (copies fillers merged : List GptPartitionRequest) : Prop where
  requested : t.gptReq ≠ []
  perm : merged.Perm (t.gptReq ++ copies ++ fillers)
  copies_eq : copies.map extent = (copiedHfs t).map (hfsExtent t)
  copies_sizes : ∀ c ∈ copies, FixedSizes c
  fillers_ok : ∀ f ∈ fillers, Filler t imgBlocks (t.gptReq ++ copies) f
  entries_eq : out.entries = (writeGptEntries guids t t.guidsMade merged).1
  slots_eq : out.slots =
    out.entries.map some ++ List.replicate (t.gptMaxEntries - out.entries.length) none
  length_le : out.entries.length ≤ t.gptMaxEntries

theorem isoWriteGpt_inv {libc : Qsort} (hiso : t.opts.isoGptTypeGuid.length = 16)
    (h : isoWriteGpt libc guids t imgBlocks = .ok out) (hret : out.ret = 1) :
    ∃ copies fillers merged, Composed t imgBlocks guids out copies fillers merged := by
  rw [isoWriteGpt] at h
  split at h
  next =>
    obtain rfl := Except.ok.inj h
    exact absurd hret (show ¬ (2 : Int) = 1 by decide)
  next hne =>
    simp only [bind_eq_ok] at h
    obtain ⟨copied, hcopy, filled, hfill, hrest⟩ := h
    obtain ⟨copies, rfl, hcopies, hmade⟩ := copyApmhfs_inv (Nat.zero_le _) hcopy
    have hsizes : ∀ c ∈ copies, FixedSizes c := by
      intro c hc
      obtain ⟨number, a, hnumber, rfl⟩ := hmade c hc
      rw [isoGptEntriesMax] at hnumber
      exact hfsPartition_sizes (by omega) a
    obtain ⟨fillers, rfl, hfillers⟩ := fillRequests_inv hiso hfill
    split at hrest
    next => cases hrest
    next hroom =>
      have hsorted := libc.perm cmpGpt (t.gptReq ++ copies)
      have hmerged := libc.perm cmpGpt (libc.run cmpGpt (t.gptReq ++ copies) ++ fillers)
      revert hroom hrest
      generalize libc.run cmpGpt (libc.run cmpGpt (t.gptReq ++ copies) ++ fillers) = merged at *
      intro hroom hrest
      have hlen := @length_writeGptEntries t guids t.guidsMade merged
      have hout := Except.ok.inj hrest
      have hentries : out.entries = (writeGptEntries guids t t.guidsMade merged).1 := by
        rw [← hout]
        simp [GptOutcome.entries, List.reduceOption]
      refine ⟨copies, fillers, merged, hne, hmerged.trans (hsorted.append_right fillers), hcopies,
        hsizes, fun f hf => (hfillers f hf).mono fun q hq => hsorted.mem_iff.mp hq, hentries,
        ?_, ?_⟩
      · rw [hentries, ← hout]
      · rw [hentries, hlen]
        exact Nat.le_of_not_lt hroom

end Tables

end GptWritten
