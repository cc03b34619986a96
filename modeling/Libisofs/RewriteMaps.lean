import Libisofs.ApmMbr

/-!
# Writing the APM and the MBR a second time

Each writing changes the requests. The second one meets the sizes which the first one has
set, and an Apple Partition Map without its fillers.
-/

namespace RewriteMaps

open PartitionRequests ApmMbr

section Mbr

variable {imgBlocks : UInt32} {prev : Option MbrPartitionRequest} {r : MbrPartitionRequest}
  {rest adjusted : List MbrPartitionRequest}

/-- Two requests begin at the same block only if the next one, or the end of the image, is
there too. `prev` is where the request before begins. -/
def MbrHarmless (imgBlocks : UInt32) : (prev : Option UInt64) → List MbrPartitionRequest → Prop
  | _, [] => True
  | prev, r :: rest =>
    (prev = some r.startBlock → nextStart imgBlocks rest = r.startBlock) ∧
      MbrHarmless imgBlocks (some r.startBlock) rest

theorem mbrOverlaps_false_iff {p r : MbrPartitionRequest} :
    mbrOverlaps p r = false ↔ (p.startBlock < r.startBlock ∨
      r.blockCount = 0 ∧ r.startBlock = p.startBlock) ∧
        p.startBlock + p.blockCount ≤ r.startBlock := by
  simp only [mbrOverlaps, Bool.or_eq_false_iff, Bool.and_eq_false_iff, decide_eq_false_iff_not,
    Bool.not_eq_false', Bool.and_eq_true, decide_eq_true_eq, gt_iff_lt, UInt64.not_le,
    UInt64.not_lt]

theorem fillMbr_startBlock : (fillMbr imgBlocks r rest).startBlock = r.startBlock := by
  rw [fillMbr]
  split
  · rfl
  · rfl

theorem fillMbr_blockCount_eq_zero : (fillMbr imgBlocks r rest).blockCount = 0 ↔
    r.blockCount = 0 ∧ nextStart imgBlocks rest = r.startBlock := by
  rw [fillMbr]
  split
  next h => simp [h]
  next h =>
    rw [ne_eq, Decidable.not_not] at h
    simp only [h, true_and]
    rw [UInt64.sub_eq_iff_eq_add, UInt64.zero_add]

theorem fillMbr_fillMbr {rest' : List MbrPartitionRequest}
    (hnext : nextStart imgBlocks rest' = nextStart imgBlocks rest) :
    fillMbr imgBlocks (fillMbr imgBlocks r rest) rest' = fillMbr imgBlocks r rest := by
  by_cases hzero : (fillMbr imgBlocks r rest).blockCount = 0
  · obtain ⟨hcount, hstart⟩ := fillMbr_blockCount_eq_zero.mp hzero
    rw [fillMbr, if_neg (by simpa using hzero), fillMbr_startBlock, hnext]
    simp [fillMbr, hcount]
  · rw [fillMbr, if_pos hzero]

theorem adjustMbr_cons (h : adjustMbr imgBlocks prev (r :: rest) = .ok adjusted) :
    (∀ p, prev = some p → mbrOverlaps p r = false) ∧
      ∃ tail, adjustMbr imgBlocks (some (fillMbr imgBlocks r rest)) rest = .ok tail ∧
        adjusted = fillMbr imgBlocks r rest :: tail := by
  rw [adjustMbr] at h
  split at h
  next => cases h
  next hover =>
    rw [Results.bind_eq_ok] at h
    obtain ⟨tail, htail, heq⟩ := h
    refine ⟨?_, tail, htail, (Except.ok.inj heq).symm⟩
    rintro p rfl
    simpa using hover

theorem adjustMbr_nextStart (h : adjustMbr imgBlocks prev rest = .ok adjusted) :
    nextStart imgBlocks adjusted = nextStart imgBlocks rest := by
  cases rest with
  | nil =>
    obtain rfl := Except.ok.inj h
    rfl
  | cons r rest =>
    obtain ⟨-, tail, -, rfl⟩ := adjustMbr_cons h
    exact fillMbr_startBlock

/-- A filled request overlaps with its predecessor, if it begins there and is not empty. -/
theorem mbrOverlaps_fillMbr {p : MbrPartitionRequest} (h : mbrOverlaps p r = false) :
    mbrOverlaps p (fillMbr imgBlocks r rest) = false ↔
      (p.startBlock = r.startBlock → nextStart imgBlocks rest = r.startBlock) := by
  rw [mbrOverlaps_false_iff] at h
  obtain ⟨horder, hend⟩ := h
  rw [mbrOverlaps_false_iff, fillMbr_startBlock, fillMbr_blockCount_eq_zero]
  constructor
  · rintro ⟨hlt | ⟨⟨-, hnext⟩, -⟩, -⟩ hsame
    · exact absurd hlt (hsame ▸ UInt64.lt_irrefl _)
    · exact hnext
  · intro hnext
    refine ⟨?_, hend⟩
    rcases horder with hlt | ⟨hcount, hsame⟩
    · exact Or.inl hlt
    · exact Or.inr ⟨⟨hcount, hnext hsame.symm⟩, hsame⟩

/-- The loop changes nothing any more if the requests are harmless. -/
theorem adjustMbr_again (h : adjustMbr imgBlocks prev rest = .ok adjusted)
    (harmless : MbrHarmless imgBlocks (prev.map (·.startBlock)) rest) :
    adjustMbr imgBlocks prev adjusted = .ok adjusted := by
  induction rest generalizing prev adjusted with
  | nil =>
    obtain rfl := Except.ok.inj h
    rfl
  | cons r rest ih =>
    obtain ⟨hover, tail, htail, rfl⟩ := adjustMbr_cons h
    obtain ⟨hfirst, hrest⟩ := harmless
    have hfill : fillMbr imgBlocks (fillMbr imgBlocks r rest) tail = fillMbr imgBlocks r rest :=
      fillMbr_fillMbr (adjustMbr_nextStart htail)
    have hagain : adjustMbr imgBlocks (some (fillMbr imgBlocks r rest)) tail = .ok tail := by
      refine ih htail ?_
      rw [Option.map_some, fillMbr_startBlock]
      exact hrest
    have hnot : (prev.any fun p => mbrOverlaps p (fillMbr imgBlocks r rest)) = false := by
      rw [Option.any_eq_false]
      rintro p rfl
      refine Bool.not_eq_true _ ▸ (mbrOverlaps_fillMbr (hover p rfl)).mpr fun hsame => ?_
      exact hfirst (congrArg some hsame)
    rw [adjustMbr, hnot, hfill, hagain]
    rfl

/-- Otherwise it ends by an error. -/
theorem harmless_of_adjustMbr_again {again : List MbrPartitionRequest}
    (h : adjustMbr imgBlocks prev rest = .ok adjusted)
    (hagain : adjustMbr imgBlocks prev adjusted = .ok again) :
    MbrHarmless imgBlocks (prev.map (·.startBlock)) rest := by
  induction rest generalizing prev adjusted again with
  | nil => trivial
  | cons r rest ih =>
    obtain ⟨hover, tail, htail, rfl⟩ := adjustMbr_cons h
    obtain ⟨hover', tail', htail', -⟩ := adjustMbr_cons hagain
    rw [fillMbr_fillMbr (adjustMbr_nextStart htail)] at htail'
    constructor
    · intro hsame
      obtain ⟨p, rfl, hstart⟩ := Option.map_eq_some_iff.mp hsame
      exact (mbrOverlaps_fillMbr (hover p rfl)).mp (hover' p rfl) hstart
    · have hrest := ih htail htail'
      rw [Option.map_some, fillMbr_startBlock] at hrest
      exact hrest

/-- The second writing yields the same partition table if no two requests begin at the same
block while the next one does not. -/
theorem isoWriteMbr_again {t t' : Ecma119Image} {out : MbrOutcome}
    (h : isoWriteMbr t imgBlocks = .ok out) (harmless : MbrHarmless imgBlocks none t.mbrReq)
    (hreq : t'.mbrReq = out.image.mbrReq)
    (hheads : t'.partitionHeadsPerCyl = t.partitionHeadsPerCyl)
    (hsecs : t'.partitionSecsPerHead = t.partitionSecsPerHead) :
    isoWriteMbr t' imgBlocks = .ok ⟨out.ret, t', out.slots⟩ := by
  rw [isoWriteMbr] at h
  split at h
  next hnone =>
    obtain rfl := Except.ok.inj h
    rw [isoWriteMbr, if_pos (hreq.trans hnone)]
  next hsome =>
    simp only [Results.bind_eq_ok] at h
    obtain ⟨mbrReq, hadjust, slots1, hdesired, slots2, hothers, heq⟩ := h
    obtain rfl := Except.ok.inj heq
    have hagain := adjustMbr_again hadjust harmless
    have hne : mbrReq ≠ [] := by
      cases hlist : t.mbrReq with
      | nil => exact absurd hlist hsome
      | cons r rest =>
        rw [hlist] at hadjust
        obtain ⟨-, tail, -, rfl⟩ := adjustMbr_cons hadjust
        exact List.cons_ne_nil _ _
    have hsame : { t' with mbrReq } = t' := by
      rw [← show t'.mbrReq = mbrReq from hreq]
    have hentry : writeMbrPartitionEntry t' = writeMbrPartitionEntry t := by
      funext r
      simp only [writeMbrPartitionEntry, hheads, hsecs]
    rw [isoWriteMbr, if_neg (hreq ▸ hne), hreq]
    simp only [hagain, hdesired, hothers, bind, Except.bind, hsame, hentry]

theorem harmless_of_isoWriteMbr_again {t t' : Ecma119Image} {out out' : MbrOutcome}
    (h : isoWriteMbr t imgBlocks = .ok out) (hreq : t'.mbrReq = out.image.mbrReq)
    (hagain : isoWriteMbr t' imgBlocks = .ok out') : MbrHarmless imgBlocks none t.mbrReq := by
  rw [isoWriteMbr] at h
  split at h
  next hnone =>
    rw [hnone]
    trivial
  next hsome =>
    simp only [Results.bind_eq_ok] at h
    obtain ⟨mbrReq, hadjust, slots1, -, slots2, -, heq⟩ := h
    obtain rfl := Except.ok.inj heq
    rw [isoWriteMbr] at hagain
    split at hagain
    next hnone =>
      cases hlist : t.mbrReq with
      | nil => trivial
      | cons r rest =>
        rw [hlist] at hadjust
        obtain ⟨-, tail, -, rfl⟩ := adjustMbr_cons hadjust
        rw [hreq] at hnone
        cases hnone
    next =>
      simp only [Results.bind_eq_ok] at hagain
      obtain ⟨mbrReq', hadjust', -⟩ := hagain
      rw [hreq] at hadjust'
      exact harmless_of_adjustMbr_again hadjust hadjust'

end Mbr

section Apm

variable {units mapEntries : Nat} {init rest : List ApmPartitionRequest}
  {last : ApmPartitionRequest}

theorem resizeLast_blockCount (hunits : units < 2 ^ 32) :
    (resizeLast units hunits last).blockCount = units - last.startBlock := by
  simp only [resizeLast]
  split
  · omega
  · rfl

theorem adjustLast_concat (hunits : units < 2 ^ 32) :
    adjustLast units hunits (init ++ [last]) =
      if units ≤ last.startBlock then init else init ++ [resizeLast units hunits last] := by
  induction init with
  | nil =>
    rw [List.nil_append, adjustLast, resizeLast_blockCount]
    by_cases hle : units ≤ last.startBlock
    · rw [if_pos hle, if_pos (by omega)]
    · rw [if_neg hle, if_neg (by omega)]
      rfl
  | cons r init ih =>
    have hcons : adjustLast units hunits (r :: init ++ [last]) =
        r :: adjustLast units hunits (init ++ [last]) := by
      cases init with
      | nil => rfl
      | cons next init => rfl
    rw [hcons, ih]
    split
    · rfl
    · rfl

theorem resizeLast_eq_self (hunits : units < 2 ^ 32)
    (hend : last.startBlock + last.blockCount = units) : resizeLast units hunits last = last := by
  have hcount : (resizeLast units hunits last).blockCount = last.blockCount := by
    rw [resizeLast_blockCount]
    omega
  cases last
  simp only [resizeLast, ApmPartitionRequest.mk.injEq, true_and] at hcount ⊢
  exact ⟨hcount, trivial⟩

theorem describeMap_length (h : 1 + mapEntries < 2 ^ 32) :
    (describeMap mapEntries h rest).length = rest.length := by
  cases rest with
  | nil => rfl
  | cons r rest => rfl

theorem describeMap_append (h : 1 + mapEntries < 2 ^ 32) (hne : init ≠ []) :
    describeMap mapEntries h (init ++ rest) = describeMap mapEntries h init ++ rest := by
  cases init with
  | nil => exact absurd rfl hne
  | cons r init => rfl

theorem describeMap_again (h : 1 + mapEntries < 2 ^ 32) :
    describeMap mapEntries h (describeMap mapEntries h rest) = describeMap mapEntries h rest := by
  cases rest with
  | nil => rfl
  | cons r rest => rfl

theorem describeMap_filler (h : 1 + mapEntries < 2 ^ 32) :
    (∀ r ∈ describeMap mapEntries h rest, r.filler = false) ↔ ∀ r ∈ rest, r.filler = false := by
  cases rest with
  | nil => rfl
  | cons r rest => simp [describeMap]

theorem chooseApmBlockSize_again (opts : IsoWriteOpts) :
    chooseApmBlockSize (chooseApmBlockSize opts) = chooseApmBlockSize opts := by
  have hsize : (chooseApmBlockSize opts).apmBlockSize ≠ 0 := by
    simp only [chooseApmBlockSize]
    split
    next => decide
    next h => exact h
  cases opts
  simp only [chooseApmBlockSize, IsoWriteOpts.mk.injEq, true_and, and_true] at hsize ⊢
  exact if_neg hsize

/-- The requests without a last one which begins at the end of the image or behind it. -/
def keptReq (t : Ecma119Image) (imgBlocks : UInt32) : List ApmPartitionRequest :=
  if t.apmReqFlags.testBit 1 then t.apmReq
  else match t.apmReq.getLast? with
    | none => []
    | some last =>
      if imgUnits (sized t) imgBlocks ≤ last.startBlock then t.apmReq.dropLast else t.apmReq

/-- There are no fillers except an empty one behind a partition which reaches up to the end
of the image. -/
structure ApmHarmless (t : Ecma119Image) (imgBlocks : UInt32) : Prop where
  noFiller : ∀ r ∈ keptReq t imgBlocks, r.filler = false
  reachesEnd : t.apmReqFlags.testBit 1 = false →
    (keptReq t imgBlocks).length < t.apmReq.length → 2 ≤ (keptReq t imgBlocks).length →
    ∀ last, (keptReq t imgBlocks).getLast? = some last →
      0 < last.blockCount ∧ last.startBlock + last.blockCount = imgUnits (sized t) imgBlocks
  mapInside : t.apmReqFlags.testBit 1 = false → (keptReq t imgBlocks).length = 1 →
    1 < imgUnits (sized t) imgBlocks

variable {t t' : Ecma119Image} {imgBlocks : UInt32} {flag : Nat} {out again : ApmOutcome}

theorem careForLast_concat {t : Ecma119Image} (hreq : t.apmReq = init ++ [last])
    (hbit : t.apmReqFlags.testBit 1 = false) :
    careForLast t imgBlocks = if imgUnits t imgBlocks ≤ last.startBlock then init
      else init ++ [resizeLast (imgUnits t imgBlocks) (imgUnits_lt t imgBlocks) last] := by
  rw [careForLast, hbit, hreq]
  exact adjustLast_concat (imgUnits_lt t imgBlocks)

theorem keptReq_concat (hreq : t.apmReq = init ++ [last])
    (hbit : t.apmReqFlags.testBit 1 = false) :
    keptReq t imgBlocks = if imgUnits (sized t) imgBlocks ≤ last.startBlock then init
      else init ++ [last] := by
  rw [keptReq, hbit, hreq]
  simp

theorem careForLast_length_le : (careForLast t imgBlocks).length ≤ t.apmReq.length := by
  cases hbit : t.apmReqFlags.testBit 1 with
  | true => simp [careForLast, hbit]
  | false =>
    rcases List.eq_nil_or_concat t.apmReq with hnil | ⟨init, last, hreq⟩
    · simp [careForLast, hbit, hnil, adjustLast]
    · rw [List.concat_eq_append] at hreq
      rw [careForLast_concat hreq hbit, hreq]
      split
      · simp
      · simp

/-- What gets left and written, if there is room for all entries. -/
theorem writeAdjustedApm_ok {adjusted : List ApmPartitionRequest}
    (h : writeAdjustedApm t adjusted flag = .ok out) :
    ∃ hmap : 1 + adjusted.length < 2 ^ 32,
      out.image = { sized t with apmReq := describeMap adjusted.length hmap adjusted } ∧
      out.entries = (describeMap adjusted.length hmap adjusted).mapIdx fun i req =>
        isoWriteApmEntry (sized t) adjusted.length (i = 0) req := by
  rw [writeAdjustedApm] at h
  split at h
  next => cases h
  next hsize =>
    obtain rfl := Except.ok.inj h
    exact ⟨mapEntries_lt hsize, rfl, rfl⟩

/-- Requests which yield the same map get written in the same way. -/
theorem writeAdjustedApm_again {adjusted adjusted' : List ApmPartitionRequest}
    (h : writeAdjustedApm t adjusted flag = .ok out) (hopts : (sized t').opts = (sized t).opts)
    (hflags : t'.apmReqFlags = t.apmReqFlags) (hlength : adjusted'.length = adjusted.length)
    (hmap : ∀ hmap, describeMap adjusted.length hmap adjusted' = out.image.apmReq) :
    ∃ again, writeAdjustedApm t' adjusted' flag = .ok again ∧ again.entries = out.entries ∧
      again.image = { sized t' with apmReq := out.image.apmReq } := by
  obtain ⟨hentries, himage, hout⟩ := writeAdjustedApm_ok h
  have hsize : ¬ (adjusted'.length + 1) * (sized t').opts.apmBlockSize > 32768 := by
    intro hsize
    rw [hlength, hopts] at hsize
    rw [writeAdjustedApm, dif_pos hsize] at h
    cases h
  have hentry : isoWriteApmEntry (sized t') = isoWriteApmEntry (sized t) := by
    funext mapEntries isSelf req
    simp only [isoWriteApmEntry, entryFactor, hopts,
      show (sized t').apmReqFlags = (sized t).apmReqFlags from hflags]
  have hsame (hm : 1 + adjusted'.length < 2 ^ 32) :
      describeMap adjusted'.length hm adjusted' = out.image.apmReq := by
    simp only [hlength]
    exact hmap _
  have hapmReq : out.image.apmReq = describeMap adjusted.length hentries adjusted := by
    rw [himage]
  rw [writeAdjustedApm, dif_neg hsize]
  refine ⟨_, rfl, ?_, ?_⟩
  · simp only [hout, hentry, hlength, ← hapmReq]
    rw [hmap]
  · simp only [hsame]

/-- The image as it is for the second writing of the map. -/
structure SecondApm (t t' : Ecma119Image) (out : ApmOutcome) : Prop where
  apmReq : t'.apmReq = out.image.apmReq.filter fun r => !r.filler
  opts : t'.opts = out.image.opts
  flags : t'.apmReqFlags = t.apmReqFlags

theorem filter_noFiller {reqs : List ApmPartitionRequest} (h : ∀ r ∈ reqs, r.filler = false) :
    (reqs.filter fun r => !r.filler) = reqs := by
  refine List.filter_eq_self.mpr fun r hr => ?_
  rw [h r hr]
  rfl

/-- Nothing but the sizes gets adjusted. -/
theorem careForLast_kept {β : Type} {f : ApmPartitionRequest → β}
    (hf : ∀ units hunits r, f (resizeLast units hunits r) = f r) :
    (careForLast (sized t) imgBlocks).map f = (keptReq t imgBlocks).map f := by
  cases hbit : t.apmReqFlags.testBit 1 with
  | true => simp [careForLast, keptReq, sized, hbit]
  | false =>
    rcases List.eq_nil_or_concat t.apmReq with hnil | ⟨init, last, hreq⟩
    · simp [careForLast, keptReq, sized, hbit, hnil, adjustLast]
    · rw [List.concat_eq_append] at hreq
      have hreq' : (sized t).apmReq = init ++ [last] := hreq
      rw [careForLast_concat hreq' hbit, keptReq_concat hreq hbit]
      split
      · rfl
      · rw [List.map_append, List.map_append, List.map_singleton, List.map_singleton, hf]

theorem keptReq_filler : (∀ r ∈ keptReq t imgBlocks, r.filler = false) ↔
    ∀ r ∈ careForLast (sized t) imgBlocks, r.filler = false := by
  have hfillers := @careForLast_kept t imgBlocks _ (fun r => r.filler) fun _ _ _ => rfl
  simpa using congrArg (∀ b ∈ ·, b = false) hfillers.symm

theorem keptReq_length :
    (keptReq t imgBlocks).length = (careForLast (sized t) imgBlocks).length := by
  have hfillers := @careForLast_kept t imgBlocks _ (fun r => r.filler) fun _ _ _ => rfl
  simpa using congrArg List.length hfillers.symm

/-- The last one of harmless requests reaches up to the end of the image. -/
theorem careForLast_last (harmless : ApmHarmless t imgBlocks)
    (hbit : t.apmReqFlags.testBit 1 = false) (hne : careForLast (sized t) imgBlocks ≠ []) :
    ∃ init last, careForLast (sized t) imgBlocks = init ++ [last] ∧
      (init = [] → 1 < imgUnits (sized t) imgBlocks) ∧
      (init ≠ [] → last.startBlock < imgUnits (sized t) imgBlocks ∧
        last.startBlock + last.blockCount = imgUnits (sized t) imgBlocks) := by
  rcases List.eq_nil_or_concat t.apmReq with hnil | ⟨init, last, hreq⟩
  · exact absurd (by simp [careForLast, sized, hbit, hnil, adjustLast]) hne
  rw [List.concat_eq_append] at hreq
  have hsized : (sized t).apmReq = init ++ [last] := hreq
  have hkept : keptReq t imgBlocks = _ := keptReq_concat hreq hbit
  rw [careForLast_concat hsized hbit] at hne ⊢
  by_cases hle : imgUnits (sized t) imgBlocks ≤ last.startBlock
  · rw [if_pos hle] at hkept hne ⊢
    rcases List.eq_nil_or_concat init with hnil | ⟨init, p, rfl⟩
    · exact absurd hnil hne
    rw [List.concat_eq_append] at *
    refine ⟨init, p, rfl, fun hnil => ?_, fun hsome => ?_⟩
    · refine harmless.mapInside hbit ?_
      rw [hkept, hnil]
      rfl
    · have hpos := List.length_pos_iff.mpr hsome
      have hend := harmless.reachesEnd hbit (by simp [hkept, hreq])
        (by simp [hkept]; omega) p (by simp [hkept])
      omega
  · rw [if_neg hle] at hkept ⊢
    refine ⟨init, _, rfl, fun hnil => ?_, fun _ => ?_⟩
    · refine harmless.mapInside hbit ?_
      rw [hkept, hnil]
      rfl
    · rw [resizeLast_blockCount]
      simp only [resizeLast]
      omega

/-- Harmless requests stay as the first writing has left them. -/
theorem careForLast_again (harmless : ApmHarmless t imgBlocks)
    (hmap : 1 + (careForLast (sized t) imgBlocks).length < 2 ^ 32) {u : Ecma119Image}
    (hne : careForLast (sized t) imgBlocks ≠ [])
    (hreq : u.apmReq = describeMap (careForLast (sized t) imgBlocks).length hmap
      (careForLast (sized t) imgBlocks))
    (hflags : u.apmReqFlags = t.apmReqFlags)
    (hunits : imgUnits u imgBlocks = imgUnits (sized t) imgBlocks) :
    (careForLast u imgBlocks).length = (careForLast (sized t) imgBlocks).length ∧
      describeMap (careForLast (sized t) imgBlocks).length hmap (careForLast u imgBlocks) =
        u.apmReq := by
  cases hbit : t.apmReqFlags.testBit 1 with
  | true =>
    have hsame : careForLast u imgBlocks = u.apmReq := by
      rw [careForLast, hflags, hbit]
      rfl
    rw [hsame, hreq, describeMap_length, describeMap_again]
    exact ⟨rfl, rfl⟩
  | false =>
    obtain ⟨init, last, hlast, hsingle, hmany⟩ := careForLast_last harmless hbit hne
    simp only [hlast] at hmap hreq ⊢
    have hbit' : u.apmReqFlags.testBit 1 = false := hflags ▸ hbit
    by_cases hinit : init = []
    · subst hinit
      -- only the map itself is left
      have hself : u.apmReq = [] ++
          [{ last with startBlock := 1, blockCount := 1, inRange := by decide }] := hreq
      rw [careForLast_concat hself hbit', if_neg (by simpa [hunits] using hsingle rfl), hself]
      exact ⟨rfl, rfl⟩
    · obtain ⟨hstart, hend⟩ := hmany hinit
      rw [describeMap_append _ hinit] at hreq
      rw [careForLast_concat hreq hbit', if_neg (by omega),
        resizeLast_eq_self _ (hend.trans hunits.symm), hreq]
      constructor
      · simp [describeMap_length]
      · rw [← describeMap_append _ hinit, describeMap_again]

theorem SecondApm.sized_eq (second : SecondApm t t' out) (hopts : out.image.opts = (sized t).opts) :
    sized t' = t' := by
  have hsame : chooseApmBlockSize t'.opts = t'.opts := by
    rw [second.opts, hopts]
    exact chooseApmBlockSize_again t.opts
  simp only [sized, hsame]

/-- The second writing of harmless requests yields the same entries. -/
theorem isoWriteApm_again (h : isoWriteApm t imgBlocks flag = .ok out)
    (harmless : ApmHarmless t imgBlocks) (second : SecondApm t t' out) :
    ∃ again, isoWriteApm t' imgBlocks flag = .ok again ∧ again.entries = out.entries ∧
      again.image = { t' with apmReq := out.image.apmReq } := by
  rw [isoWriteApm] at h
  by_cases hnil : t.apmReq = []
  · rw [if_pos hnil] at h
    obtain rfl := Except.ok.inj h
    have hnil' : t'.apmReq = [] := by
      rw [second.apmReq, hnil]
      rfl
    refine ⟨⟨2, t', none, []⟩, by rw [isoWriteApm, if_pos hnil'], rfl, ?_⟩
    simp only [hnil.trans hnil'.symm]
  rw [if_neg hnil] at h
  obtain ⟨hmap, himage, hentries⟩ := writeAdjustedApm_ok h
  have hreq : out.image.apmReq = describeMap (careForLast (sized t) imgBlocks).length hmap
      (careForLast (sized t) imgBlocks) := by rw [himage]
  have hopts : out.image.opts = (sized t).opts := by rw [himage]
  have hfiller : ∀ r ∈ out.image.apmReq, r.filler = false := by
    rw [hreq]
    exact (describeMap_filler hmap).mpr (keptReq_filler.mp harmless.noFiller)
  have hreq' : t'.apmReq = out.image.apmReq := by
    rw [second.apmReq, filter_noFiller hfiller]
  have hsized := second.sized_eq hopts
  by_cases hempty : careForLast (sized t) imgBlocks = []
  · have hgone : out.image.apmReq = [] := by
      rw [hreq]
      simp only [hempty, describeMap]
    refine ⟨⟨2, t', none, []⟩, by rw [isoWriteApm, if_pos (hreq'.trans hgone)], ?_, ?_⟩
    · rw [hentries, ← hreq, hgone]
      rfl
    · simp only [← hreq']
  · have hunits : imgUnits t' imgBlocks = imgUnits (sized t) imgBlocks := by
      simp only [imgUnits, unitFactor, second.flags, second.opts, hopts]
      rfl
    obtain ⟨hlength, hsame⟩ := careForLast_again harmless hmap hempty (hreq'.trans hreq)
      second.flags hunits
    obtain ⟨again, hagain, hentries', himage'⟩ := @writeAdjustedApm_again t t' flag out _ _ h
      (by rw [hsized, second.opts, hopts]) second.flags hlength
      (fun _ => hsame.trans hreq')
    have hne : t'.apmReq ≠ [] := by
      intro hnone
      rw [hreq', hreq] at hnone
      have hzero := congrArg List.length hnone
      rw [describeMap_length] at hzero
      exact hempty (List.length_eq_zero_iff.mp hzero)
    refine ⟨again, ?_, hentries', ?_⟩
    · rw [isoWriteApm, if_neg hne, hsized]
      exact hagain
    · rw [himage', hsized]

/-- The numbers of APM blocks fit into 32 bits. -/
structure ApmFits (t : Ecma119Image) (imgBlocks : UInt32) : Prop where
  image : imgUnits (sized t) imgBlocks * entryFactor (sized t) < 2 ^ 32
  requests : ∀ r ∈ t.apmReq, r.blockCount * entryFactor (sized t) < 2 ^ 32

theorem isoWriteApm_length (hsized : sized t = t) (h : isoWriteApm t imgBlocks flag = .ok out) :
    out.entries.length = (careForLast t imgBlocks).length := by
  rw [isoWriteApm] at h
  split at h
  next hnil =>
    obtain rfl := Except.ok.inj h
    have hle := @careForLast_length_le t imgBlocks
    rw [hnil, List.length_nil, Nat.le_zero] at hle
    exact hle.symm
  next =>
    obtain ⟨hmap, -, hentries⟩ := writeAdjustedApm_ok h
    rw [hentries, List.length_mapIdx, describeMap_length, hsized]

theorem isoWriteApm_last (h : isoWriteApm t imgBlocks flag = .ok out)
    (hlast : careForLast (sized t) imgBlocks = init ++ [last]) (hinit : init ≠ []) :
    out.entries.getLast? =
      some (isoWriteApmEntry (sized t) (init.length + 1) false last) := by
  rw [isoWriteApm] at h
  split at h
  next hnil =>
    have hle := @careForLast_length_le (sized t) imgBlocks
    rw [hlast, show (sized t).apmReq = [] from hnil] at hle
    simp at hle
  next =>
    obtain ⟨hmap, -, hentries⟩ := writeAdjustedApm_ok h
    simp only [hlast, describeMap_append _ hinit, List.mapIdx_concat, describeMap_length,
      List.length_append, List.length_singleton] at hentries
    rw [hentries, List.getLast?_concat]
    simp [List.length_eq_zero_iff, hinit]

/-- The request whose size would change has the same size in both maps. -/
theorem last_blockCount (fits : ApmFits t imgBlocks)
    (hunits : imgUnits t' imgBlocks = imgUnits (sized t) imgBlocks)
    (hlast : last ∈ t.apmReq) (hlt : last.startBlock < imgUnits (sized t) imgBlocks)
    (hsame : (isoWriteApmEntry (sized t) mapEntries false
        (resizeLast (imgUnits t' imgBlocks) (imgUnits_lt t' imgBlocks) last)).blockCount =
      (isoWriteApmEntry (sized t) mapEntries false last).blockCount) :
    last.startBlock + last.blockCount = imgUnits (sized t) imgBlocks := by
  have hfactor : 0 < entryFactor (sized t) := by
    rw [entryFactor]
    split
    · exact Nat.one_pos
    · rcases t.opts.apmBlockSize_valid with h | h | h
      · simp [sized, chooseApmBlockSize, h]
      · simp [sized, chooseApmBlockSize, h]
      · simp [sized, chooseApmBlockSize, h]
  have hresized : (imgUnits (sized t) imgBlocks - last.startBlock) * entryFactor (sized t) <
      2 ^ 32 := Nat.lt_of_le_of_lt (Nat.mul_le_mul_right _ (Nat.sub_le ..)) fits.image
  simp only [isoWriteApmEntry, Bool.false_eq_true, if_false, resizeLast_blockCount, hunits,
    Nat.mod_eq_of_lt hresized, Nat.mod_eq_of_lt (fits.requests last hlast)] at hsame
  have hcount := Nat.eq_of_mul_eq_mul_right hfactor hsame
  omega

theorem careForLast_dropped (hbit : t.apmReqFlags.testBit 1 = false)
    (hdropped : (keptReq t imgBlocks).length < t.apmReq.length) :
    careForLast (sized t) imgBlocks = keptReq t imgBlocks ∧
      ∀ r ∈ keptReq t imgBlocks, r ∈ t.apmReq := by
  rcases List.eq_nil_or_concat t.apmReq with hnil | ⟨init, last, hreq⟩
  · rw [hnil] at hdropped
    exact absurd hdropped (Nat.not_lt_zero _)
  · rw [List.concat_eq_append] at hreq
    have hsized : (sized t).apmReq = init ++ [last] := hreq
    rw [keptReq_concat hreq hbit] at hdropped ⊢
    rw [careForLast_concat hsized hbit]
    split at hdropped
    next hle =>
      rw [if_pos hle, if_pos hle, hreq]
      exact ⟨rfl, fun r hr => List.mem_append_left _ hr⟩
    next =>
      rw [hreq] at hdropped
      exact absurd hdropped (Nat.lt_irrefl _)

/-- Other requests do not yield the same entries. -/
theorem harmless_of_isoWriteApm_again (h : isoWriteApm t imgBlocks flag = .ok out)
    (fits : ApmFits t imgBlocks) (second : SecondApm t t' out)
    (hagain : isoWriteApm t' imgBlocks flag = .ok again) (hsame : again.entries = out.entries) :
    ApmHarmless t imgBlocks := by
  by_cases hnil : t.apmReq = []
  · have hkept : keptReq t imgBlocks = [] := by simp [keptReq, hnil]
    constructor
    case noFiller => simp [hkept]
    case reachesEnd => simp [hkept]
    case mapInside => simp [hkept]
  have h' := h
  rw [isoWriteApm, if_neg hnil] at h
  obtain ⟨hmap, himage, hentries⟩ := writeAdjustedApm_ok h
  have hreq : out.image.apmReq = describeMap (careForLast (sized t) imgBlocks).length hmap
      (careForLast (sized t) imgBlocks) := by rw [himage]
  have hopts : out.image.opts = (sized t).opts := by rw [himage]
  have hsized := second.sized_eq hopts
  have hunits : imgUnits t' imgBlocks = imgUnits (sized t) imgBlocks := by
    simp only [imgUnits, unitFactor, second.flags, second.opts, hopts]
    rfl
  -- nothing was lost between the two maps
  have hcount : (careForLast t' imgBlocks).length = out.image.apmReq.length := by
    rw [← isoWriteApm_length hsized hagain, hsame, hentries, ← hreq, List.length_mapIdx]
  have hkeeps := @careForLast_length_le t' imgBlocks
  have hfilters := List.length_filter_le (fun r : ApmPartitionRequest => !r.filler)
    out.image.apmReq
  rw [← second.apmReq] at hfilters
  have hfiller : ∀ r ∈ out.image.apmReq, r.filler = false := by
    have hall := List.length_filter_eq_length_iff.mp
      (show (out.image.apmReq.filter fun r => !r.filler).length = out.image.apmReq.length by
        rw [← second.apmReq]
        omega)
    intro r hr
    simpa using hall r hr
  have hreq' : t'.apmReq = out.image.apmReq := by
    rw [second.apmReq, filter_noFiller hfiller]
  constructor
  case noFiller =>
    rw [hreq] at hfiller
    exact keptReq_filler.mpr ((describeMap_filler hmap).mp hfiller)
  case reachesEnd =>
    intro hbit hdropped htwo last hlast
    have hbit' : t'.apmReqFlags.testBit 1 = false := second.flags ▸ hbit
    obtain ⟨init, hkept⟩ := List.getLast?_eq_some_iff.mp hlast
    obtain ⟨hsettled, hmem⟩ := careForLast_dropped hbit hdropped
    rw [hkept] at hsettled hmem htwo
    have hinit : init ≠ [] := by
      rintro rfl
      simp at htwo
    simp only [hsettled] at hmap hreq hentries
    have hmap' := hreq'.trans hreq
    rw [describeMap_append _ hinit] at hmap'
    have hlt : last.startBlock < imgUnits (sized t) imgBlocks := by
      by_contra hle
      rw [careForLast_concat hmap' hbit', if_pos (by omega), hreq, describeMap_length,
        describeMap_length, List.length_append, List.length_singleton] at hcount
      omega
    have hcare := (careForLast_concat hmap' hbit').trans
      (if_neg (Nat.not_le.mpr (hunits.symm ▸ hlt)))
    have hinit' : describeMap (init ++ [last]).length hmap init ≠ [] := by
      intro hnone
      have hzero := congrArg List.length hnone
      rw [describeMap_length] at hzero
      exact hinit (List.length_eq_zero_iff.mp hzero)
    have hlast' := isoWriteApm_last hagain (by
      rw [hsized]
      exact hcare) hinit'
    rw [hsame, isoWriteApm_last h' hsettled hinit, describeMap_length] at hlast'
    have hentry : isoWriteApmEntry (sized t') = isoWriteApmEntry (sized t) := by
      funext mapEntries isSelf req
      simp only [isoWriteApmEntry, entryFactor, hsized, second.flags, second.opts, hopts]
      rfl
    rw [hentry] at hlast'
    have hend := last_blockCount fits hunits (hmem last (by simp)) hlt
      (congrArg ApmEntry.blockCount (Option.some.inj hlast')).symm
    omega
  case mapInside =>
    intro hbit hone
    have hbit' : t'.apmReqFlags.testBit 1 = false := second.flags ▸ hbit
    rw [keptReq_length] at hone
    obtain ⟨x, hx⟩ := List.length_eq_one_iff.mp hone
    simp only [hx] at hmap hreq
    have hself : t'.apmReq = [] ++
        [{ x with startBlock := 1, blockCount := 1, inRange := by decide }] := hreq'.trans hreq
    by_contra hle
    rw [careForLast_concat hself hbit', if_pos (by simp only; omega), hreq] at hcount
    simp [describeMap] at hcount

end Apm

end RewriteMaps
