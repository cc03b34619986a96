import Libisofs.GptGapless

/-!
# Writing the GPT a second time

The second writing begins with the requests, and with the HFS+ partitions which the first
one has copied. It finds the same gaps.
-/

namespace RewriteGpt

open CLibrary Tilings IntervalGaps PartitionRequests Gpt GptGapless

section Copies

variable {t : Ecma119Image} {apmReq : List ApmPartitionRequest}
  {gptReq result : List GptPartitionRequest} {counter : Nat}

/-- Nothing gets copied if all HFS+ partitions hit something. -/
theorem copyApmhfs_none (h : freeHfs t (gptReq.map extent) apmReq = []) :
    copyApmhfs t counter apmReq gptReq = .ok gptReq := by
  induction apmReq with
  | nil => rfl
  | cons a rest ih =>
    rw [freeHfs, any_hits_extent] at h
    rw [copyApmhfs]
    split at h
    next htype =>
      rw [if_pos htype]
      exact ih h
    next htype =>
      rw [if_neg htype]
      split at h
      next hhits =>
        rw [if_pos hhits]
        exact ih h
      next => cases h

end Copies

section Filling

variable {t : Ecma119Image} {imgBlocks : UInt32} {st st' : FillState}

/-- The fillers depend on the extents of the requests only. -/
theorem fillGapTurn_inv {goal nextEnd : Nat} {inRange : goal < 2 ^ 64}
    (h : fillGapTurn t goal nextEnd inRange st = .ok st') :
    ∃ fillers, st'.gptReq = st.gptReq ++ fillers ∧ (∀ f ∈ fillers, f.filler = true) ∧
      st'.partEnd = max st.partEnd nextEnd ∧
      fillers.map extent = gap (max st.partEnd nextEnd) goal ∧
      ∀ reqs : List GptPartitionRequest, reqs.length = st.gptReq.length →
        fillGapTurn t goal nextEnd inRange { st with gptReq := reqs } =
          .ok { st' with gptReq := reqs ++ fillers } := by
  simp only [fillGapTurn] at h ⊢
  split at h
  next hover =>
    split at h
    next hflag =>
      obtain rfl := Except.ok.inj h
      refine ⟨[], by simp, by simp, rfl, ?_, fun reqs _ => ?_⟩
      · rw [gap, if_neg (by omega)]
        rfl
      · rw [if_pos hover, if_pos hflag, List.append_nil]
    next => cases h
  next hover =>
    split at h
    next hgap =>
      rw [isoRegisterGptEntry] at h
      split at h
      next => cases h
      next hroom =>
        obtain rfl := Except.ok.inj h
        refine ⟨[_], rfl, ?_, rfl, ?_, fun reqs hlength => ?_⟩
        · exact List.forall_mem_singleton.mpr rfl
        · have hsum : max st.partEnd nextEnd + (goal - max st.partEnd nextEnd) = goal := by omega
          rw [gap, if_pos hgap]
          simp [extent, gapPartition, hsum]
        · rw [if_neg hover, dif_pos hgap, isoRegisterGptEntry, if_neg (hlength ▸ hroom)]
          rfl
    next hgap =>
      obtain rfl := Except.ok.inj h
      refine ⟨[], by simp, by simp, rfl, ?_, fun reqs _ => ?_⟩
      · rw [gap, if_neg hgap]
        rfl
      · rw [if_neg hover, dif_neg hgap, List.append_nil]

theorem fillGapTurn_goal {goal goal' nextEnd : Nat} {inRange : goal < 2 ^ 64}
    (inRange' : goal' < 2 ^ 64) (h : goal = goal') :
    fillGapTurn t goal nextEnd inRange st = fillGapTurn t goal' nextEnd inRange' st := by
  subst h
  rfl

theorem fillFirstGap_goal {goal goal' : Nat} {inRange : goal < 2 ^ 64}
    (inRange' : goal' < 2 ^ 64) (h : goal = goal') :
    fillFirstGap t goal inRange st = fillFirstGap t goal' inRange' st := by
  subst h
  rfl

theorem fillGapsAfter_inv {prev : GptPartitionRequest} {rest : List GptPartitionRequest}
    (h : fillGapsAfter t imgBlocks prev rest st = .ok st') :
    ∃ fillers, st'.gptReq = st.gptReq ++ fillers ∧ (∀ f ∈ fillers, f.filler = true) ∧
      fillers.map extent = gaps Prod.fst Prod.snd (lastGoal t imgBlocks)
        (max st.partEnd (prev.startBlock + prev.blockCount)) (rest.map extent) ∧
      ∀ (prev' : GptPartitionRequest) (rest' reqs : List GptPartitionRequest),
        extent prev' = extent prev → rest'.map extent = rest.map extent →
        reqs.length = st.gptReq.length →
        fillGapsAfter t imgBlocks prev' rest' { st with gptReq := reqs } =
          .ok { st' with gptReq := reqs ++ fillers } := by
  induction rest generalizing prev st with
  | nil =>
    obtain ⟨fillers, hreq, hfiller, -, hextents, hsame⟩ := fillGapTurn_inv h
    refine ⟨fillers, hreq, hfiller, hextents, fun prev' rest' reqs hprev hrest hlength => ?_⟩
    obtain rfl := List.map_eq_nil_iff.mp hrest
    have hend : prev'.startBlock + prev'.blockCount = prev.startBlock + prev.blockCount :=
      congrArg Prod.snd hprev
    rw [fillGapsAfter, hend]
    exact hsame reqs hlength
  | cons r rest ih =>
    rw [fillGapsAfter, Results.bind_eq_ok] at h
    obtain ⟨st1, hturn, hrest⟩ := h
    obtain ⟨new, hreq, hfiller, hend, hextents, hsame⟩ := fillGapTurn_inv hturn
    obtain ⟨fillers, hreq', hfiller', hextents', hsame'⟩ := ih hrest
    refine ⟨new ++ fillers, ?_, ?_, ?_, fun prev' rest' reqs hprev hrest' hlength => ?_⟩
    · rw [hreq', hreq, List.append_assoc]
    · exact List.forall_mem_append.mpr ⟨hfiller, hfiller'⟩
    · rw [List.map_append, hextents, hextents', hend]
      rfl
    · obtain ⟨r', rest', rfl, hr, hmap⟩ := List.map_eq_cons_iff.mp hrest'
      have hstart : r'.startBlock = r.startBlock := congrArg Prod.fst hr
      have hprevEnd : prev'.startBlock + prev'.blockCount = prev.startBlock + prev.blockCount :=
        congrArg Prod.snd hprev
      have hnext := hsame' r' rest' (reqs ++ new) hr hmap (by
        rw [hreq, List.length_append, List.length_append, hlength])
      rw [fillGapsAfter, hprevEnd, fillGapTurn_goal (startBlock_lt r) hstart,
        hsame reqs hlength, ← List.append_assoc]
      exact hnext

theorem fillFirstGap_inv {goal : Nat} {inRange : goal < 2 ^ 64}
    (h : fillFirstGap t goal inRange st = .ok st') (hzero : st.partEnd = 0) :
    ∃ fillers, st'.gptReq = st.gptReq ++ fillers ∧ (∀ f ∈ fillers, f.filler = true) ∧
      st'.partEnd = (if goal ≤ 64 then 0 else 64) ∧
      fillers.map extent = gap (min 64 goal) goal ∧
      ∀ reqs : List GptPartitionRequest, reqs.length = st.gptReq.length →
        fillFirstGap t goal inRange { st with gptReq := reqs } =
          .ok { st' with gptReq := reqs ++ fillers } := by
  rw [fillFirstGap] at h
  split at h
  next hsystem =>
    obtain rfl := Except.ok.inj h
    refine ⟨[], by simp, by simp, ?_, ?_, fun reqs _ => ?_⟩
    · rw [hzero, if_pos hsystem]
    · rw [gap, if_neg (by omega)]
      rfl
    · rw [fillFirstGap, if_pos hsystem, List.append_nil]
  next hsystem =>
    obtain ⟨fillers, hreq, hfiller, hend, hextents, hsame⟩ := fillGapTurn_inv h
    rw [hzero] at hend hextents
    refine ⟨fillers, hreq, hfiller, ?_, ?_, fun reqs hlength => ?_⟩
    · rw [hend, if_neg (show ¬ goal ≤ 64 from hsystem)]
      rfl
    · rw [hextents]
      congr 1
      omega
    · rw [fillFirstGap, if_neg hsystem]
      exact hsame reqs hlength

theorem fillGptGaps_inv {first : GptPartitionRequest} {rest : List GptPartitionRequest}
    (hfirst : ∀ r ∈ rest, first.startBlock ≤ r.startBlock)
    (h : fillGptGaps t imgBlocks (first :: rest) = .ok st') :
    ∃ fillers, st'.gptReq = first :: rest ++ fillers ∧ (∀ f ∈ fillers, f.filler = true) ∧
      fillers.map extent = gaps Prod.fst Prod.snd (lastGoal t imgBlocks)
        (firstBlock ((first :: rest).map extent)) ((first :: rest).map extent) ∧
      ∀ reqs : List GptPartitionRequest, reqs.map extent = (first :: rest).map extent →
        (fillGptGaps t imgBlocks reqs).map (·.gptReq) = .ok (reqs ++ fillers) := by
  rw [fillGptGaps, Results.bind_eq_ok] at h
  obtain ⟨st1, hstart, hrest⟩ := h
  obtain ⟨new, hreq, hfiller, hend, hextents, hsame⟩ := fillFirstGap_inv hstart rfl
  obtain ⟨fillers, hreq', hfiller', hextents', hsame'⟩ := fillGapsAfter_inv hrest
  refine ⟨new ++ fillers, ?_, ?_, ?_, fun reqs hreqs => ?_⟩
  · rw [hreq', hreq, List.append_assoc]
  · exact List.forall_mem_append.mpr ⟨hfiller, hfiller'⟩
  · have hreached : max st1.partEnd (first.startBlock + first.blockCount) =
        max (min 64 first.startBlock) (first.startBlock + first.blockCount) := by
      rw [hend]
      split
      · omega
      · omega
    rw [List.map_append, hextents, hextents', hreached, List.map_cons,
      firstBlock_sorted (by simpa using hfirst)]
    rfl
  · obtain ⟨first', rest', rfl, hf, hmap⟩ := List.map_eq_cons_iff.mp hreqs
    have hlength : (first' :: rest').length = (first :: rest).length := by
      have := congrArg List.length hreqs
      rwa [List.length_map, List.length_map] at this
    have hnext := hsame' first' rest' (first' :: rest' ++ new) hf hmap (by
      rw [hreq, List.length_append, List.length_append, hlength])
    have hstart' : fillFirstGap t first'.startBlock (startBlock_lt first')
        ⟨first' :: rest', 0, 0⟩ = .ok { st1 with gptReq := first' :: rest' ++ new } := by
      have hgoal : first'.startBlock = first.startBlock := congrArg Prod.fst hf
      rw [fillFirstGap_goal (startBlock_lt first) hgoal]
      exact hsame (first' :: rest') hlength
    rw [fillGptGaps, hstart', ← List.append_assoc]
    simp only [bind, Except.bind, hnext, Except.map]

end Filling

section Hits

variable {t : Ecma119Image} {taken : List Extent} {apmReq : List ApmPartitionRequest}

/-- The comparison of an APM partition with an extent. -/
def hitsExtent (t : Ecma119Image) (a : ApmPartitionRequest) (e : Extent) : Bool :=
  hitsGpt (apmFactor t) a e.1 (e.2 - e.1)

/-- An HFS+ partition is free, or it hits something. -/
theorem free_or_hits {a : ApmPartitionRequest} (ha : a ∈ apmReq) (htype : a.type = "Apple_HFS") :
    a ∈ freeHfs t taken apmReq ∨
      ∃ e ∈ taken ++ (freeHfs t taken apmReq).map (hfsExtent t), hitsExtent t a e = true := by
  induction apmReq generalizing taken with
  | nil => simp at ha
  | cons b rest ih =>
    rw [freeHfs]
    split
    next hother =>
      rcases List.mem_cons.mp ha with rfl | hlater
      · exact absurd htype hother
      · exact ih hlater
    next =>
      split
      next hhits =>
        rcases List.mem_cons.mp ha with rfl | hlater
        · obtain ⟨e, he, hhit⟩ := List.any_eq_true.mp hhits
          exact Or.inr ⟨e, List.mem_append_left _ he, hhit⟩
        · exact ih hlater
      next =>
        rcases List.mem_cons.mp ha with rfl | hlater
        · exact Or.inl (List.mem_cons_self ..)
        · rcases @ih (taken ++ [hfsExtent t b]) hlater with hfree | ⟨e, he, hhit⟩
          · exact Or.inl (List.mem_cons_of_mem b hfree)
          · rw [List.append_assoc, List.singleton_append, ← List.map_cons] at he
            exact Or.inr ⟨e, he, hhit⟩

theorem freeHfs_mem {a : ApmPartitionRequest} (ha : a ∈ freeHfs t taken apmReq) :
    a ∈ apmReq ∧ a.type = "Apple_HFS" := by
  induction apmReq generalizing taken with
  | nil => simp [freeHfs] at ha
  | cons b rest ih =>
    have hlater {taken : List Extent} (h : a ∈ freeHfs t taken rest) :
        a ∈ b :: rest ∧ a.type = "Apple_HFS" :=
      ⟨List.mem_cons_of_mem b (ih h).1, (ih h).2⟩
    rw [freeHfs] at ha
    split at ha
    next => exact hlater ha
    next htype =>
      split at ha
      next => exact hlater ha
      next =>
        rcases List.mem_cons.mp ha with rfl | h
        · exact ⟨List.mem_cons_self .., not_not.mp htype⟩
        · exact hlater h

/-- A partition which is not empty hits its own copy. -/
theorem hits_own_extent {a : ApmPartitionRequest} (hpos : 0 < a.blockCount) :
    hitsExtent t a (hfsExtent t a) = true := by
  have ha := a.inRange
  by_contra hnot
  rw [Bool.not_eq_true, hitsExtent, hitsGpt, intvlOverlap_false_iff, u64, u64] at hnot
  simp only [hfsExtent] at hnot
  rcases apmFactor_cases t with hfactor | hfactor
  · rw [hfactor] at hnot
    omega
  · rw [hfactor] at hnot
    omega

/-- If a GPT is requested, then no empty HFS+ partition gets copied, except next to another
one which it hits. -/
def GptHarmless (t : Ecma119Image) : Prop :=
  t.gptReq ≠ [] → ∀ a ∈ copiedHfs t, a.blockCount = 0 →
    ∃ b ∈ copiedHfs t, hitsExtent t a (hfsExtent t b) = true

/-- With harmless requests each HFS+ partition hits a partition of the table. -/
theorem GptHarmless.hits (harmless : GptHarmless t) (hne : t.gptReq ≠ [])
    {a : ApmPartitionRequest} (ha : a ∈ t.apmReq)
    (htype : a.type = "Apple_HFS") : ∃ e ∈ partitionExtents t, hitsExtent t a e = true := by
  rcases @free_or_hits t (t.gptReq.map extent) _ _ ha htype with hfree | hhits
  · rcases Nat.eq_zero_or_pos a.blockCount with hzero | hpos
    · obtain ⟨b, hb, hhit⟩ := harmless hne a hfree hzero
      exact ⟨_, List.mem_append_right _ (List.mem_map_of_mem hb), hhit⟩
    · exact ⟨_, List.mem_append_right _ (List.mem_map_of_mem hfree), hits_own_extent hpos⟩
  · exact hhits

theorem freeHfs_eq_nil (h : ∀ a ∈ apmReq, a.type = "Apple_HFS" →
    ∃ e ∈ taken, hitsExtent t a e = true) : freeHfs t taken apmReq = [] := by
  rw [List.eq_nil_iff_forall_not_mem]
  intro a ha
  obtain ⟨hmem, htype⟩ := freeHfs_mem ha
  obtain ⟨e, he, hhit⟩ := h a hmem htype
  rw [hitsExtent, freeHfs_not_hits a ha e he] at hhit
  exact Bool.false_ne_true hhit

/-- What gets copied again are empty partitions which were already copied. -/
theorem recopied {taken : List Extent} (hperm : taken.Perm (partitionExtents t)) :
    ∀ a ∈ freeHfs t taken t.apmReq, a ∈ copiedHfs t ∧ a.blockCount = 0 := by
  intro a ha
  obtain ⟨hmem, htype⟩ := freeHfs_mem ha
  have hnot (e : Extent) (he : e ∈ partitionExtents t) : hitsExtent t a e ≠ true := by
    rw [hitsExtent, freeHfs_not_hits a ha e (hperm.mem_iff.mpr he)]
    exact Bool.false_ne_true
  rcases @free_or_hits t (t.gptReq.map extent) _ _ hmem htype with hfree | ⟨e, he, hhit⟩
  · refine ⟨hfree, Nat.eq_zero_of_not_pos fun hpos => ?_⟩
    exact hnot _ (List.mem_append_right _ (List.mem_map_of_mem hfree)) (hits_own_extent hpos)
  · exact absurd hhit (hnot e he)

theorem recopied_ne_nil {taken : List Extent} (hperm : taken.Perm (partitionExtents t))
    (h : ¬ GptHarmless t) : freeHfs t taken t.apmReq ≠ [] := by
  intro hnil
  refine h fun _ a ha hzero => ?_
  obtain ⟨hmem, htype⟩ := freeHfs_mem ha
  rcases @free_or_hits t taken _ _ hmem htype with hfree | ⟨e, he, hhit⟩
  · rw [hnil] at hfree
    cases hfree
  · rw [hnil, List.map_nil, List.append_nil, hperm.mem_iff] at he
    rcases List.mem_append.mp he with hreq | hcopy
    · rw [hitsExtent, freeHfs_not_hits a ha e hreq] at hhit
      cases hhit
    · obtain ⟨b, hb, rfl⟩ := List.mem_map.mp hcopy
      exact ⟨b, hb, hhit⟩

end Hits

section Anonymous

variable {guids : Nat → Guid} {t : Ecma119Image} {reqs : List GptPartitionRequest}
  {guidsMade : Nat}

open Classical in
/-- Generated GUIDs get forgotten. -/
noncomputable def anonymous (guids : Nat → Guid) (guid : Guid) : Guid :=
  if ∃ i, guids i = guid then zeroUuid else guid

noncomputable def anonymousEntry (guids : Nat → Guid) (e : GptEntry) : GptEntry :=
  { e with partitionGuid := anonymous guids e.partitionGuid }

/-- The entry which a request gets, apart from a generated GUID. -/
noncomputable def describe (guids : Nat → Guid) (t : Ecma119Image) (r : GptPartitionRequest) :
    GptEntry :=
  ⟨r.typeGuid, anonymous guids r.partitionGuid, r.startBlock, endLba t r, r.flags, r.name⟩

/-- The entries are the same apart from generated GUIDs, and from the order of those which
have the same blocks. -/
structure SameGpt (guids : Nat → Guid) (entries entries' : List GptEntry) : Prop where
  extents : entries'.map entryExtent = entries.map entryExtent
  entries : (entries'.map (anonymousEntry guids)).Perm (entries.map (anonymousEntry guids))

theorem anonymous_written {guid : Guid} :
    anonymous guids (if guid = zeroUuid then guids guidsMade else guid) = anonymous guids guid := by
  by_cases hzero : guid = zeroUuid
  · rw [if_pos hzero, hzero, anonymous, anonymous, if_pos ⟨guidsMade, rfl⟩]
    split
    · rfl
    · rfl
  · rw [if_neg hzero]

theorem writeGptEntries_describe :
    (writeGptEntries guids t guidsMade reqs).1.map (anonymousEntry guids) =
      reqs.map (describe guids t) := by
  induction reqs generalizing guidsMade with
  | nil => rfl
  | cons r rest ih =>
    simp only [writeGptEntries, List.map_cons, ih, isoWriteGptEntry, anonymousEntry, describe,
      anonymous_written]

/-- The GUIDs do not matter for what holds of the requests otherwise. -/
theorem writeGptEntries_requests {β : Type} {f : GptPartitionRequest → β}
    (hf : ∀ r n, f { r with partitionGuid :=
      if r.partitionGuid = zeroUuid then guids n else r.partitionGuid } = f r) :
    ((writeGptEntries guids t guidsMade reqs).2.1.filter fun r => !r.filler).map f =
      (reqs.filter fun r => !r.filler).map f := by
  induction reqs generalizing guidsMade with
  | nil => rfl
  | cons r rest ih =>
    have hkeep : (isoWriteGptEntry guids t guidsMade r).2.1.filler = r.filler := rfl
    rw [writeGptEntries, List.filter_cons, List.filter_cons, hkeep]
    cases r.filler with
    | true => exact ih
    | false =>
      simp only [Bool.not_false, if_true, List.map_cons, List.cons.injEq]
      exact ⟨hf r guidsMade, ih⟩

end Anonymous

section Writing

variable {t : Ecma119Image} {imgBlocks : UInt32} {libc : Qsort} {guids : Nat → Guid}
  {out : GptOutcome} {sorted filled : List GptPartitionRequest}

theorem isoWriteGpt_inv (hne : t.gptReq ≠ []) (h : isoWriteGpt libc guids t imgBlocks = .ok out) :
    ∃ copied filled, isoCopyApmhfsToGpt t = .ok copied ∧
      fillRequests t imgBlocks (libc.run cmpGpt copied) = .ok filled ∧
      (libc.run cmpGpt filled).length ≤ t.gptMaxEntries ∧
      out.entries = (writeGptEntries guids t t.guidsMade (libc.run cmpGpt filled)).1 ∧
      out.image = { t with
        gptReq := (writeGptEntries guids t t.guidsMade (libc.run cmpGpt filled)).2.1
        guidsMade := (writeGptEntries guids t t.guidsMade (libc.run cmpGpt filled)).2.2 } := by
  rw [isoWriteGpt, if_neg hne] at h
  simp only [Results.bind_eq_ok] at h
  obtain ⟨copied, hcopied, filled, hfilled, hwrite⟩ := h
  refine ⟨copied, filled, hcopied, hfilled, ?_⟩
  split at hwrite
  next => cases hwrite
  next hroom =>
    obtain rfl := Except.ok.inj hwrite
    exact ⟨Nat.not_lt.mp hroom, by simp [GptOutcome.entries, List.reduceOption], rfl⟩

theorem isoWriteGpt_of (hne : t.gptReq ≠ []) {copied : List GptPartitionRequest}
    (hcopied : isoCopyApmhfsToGpt t = .ok copied)
    (hfilled : fillRequests t imgBlocks (libc.run cmpGpt copied) = .ok filled)
    (hroom : (libc.run cmpGpt filled).length ≤ t.gptMaxEntries) :
    ∃ out, isoWriteGpt libc guids t imgBlocks = .ok out ∧
      out.entries = (writeGptEntries guids t t.guidsMade (libc.run cmpGpt filled)).1 := by
  rw [isoWriteGpt, if_neg hne]
  simp only [bind, Except.bind, hcopied, hfilled, if_neg (Nat.not_lt.mpr hroom)]
  exact ⟨_, rfl, by simp [GptOutcome.entries, List.reduceOption]⟩

theorem fillGapsAfter_image {gptReq : List GptPartitionRequest} {guidsMade : Nat}
    {prev : GptPartitionRequest} {rest : List GptPartitionRequest} {st : FillState} :
    fillGapsAfter { t with gptReq, guidsMade } imgBlocks prev rest st =
      fillGapsAfter t imgBlocks prev rest st := by
  induction rest generalizing prev st with
  | nil => rfl
  | cons r rest ih =>
    simp only [fillGapsAfter, ih]
    rfl

theorem fillRequests_image {gptReq : List GptPartitionRequest} {guidsMade : Nat} :
    fillRequests { t with gptReq, guidsMade } imgBlocks sorted =
      fillRequests t imgBlocks sorted := by
  cases sorted with
  | nil => rfl
  | cons first rest =>
    simp only [fillRequests, fillGptGaps, fillGapsAfter_image]
    rfl

theorem freeHfs_congr {u : Ecma119Image} (h : apmFactor u = apmFactor t) {taken : List Extent}
    {apmReq : List ApmPartitionRequest} : freeHfs u taken apmReq = freeHfs t taken apmReq := by
  induction apmReq generalizing taken with
  | nil => rfl
  | cons a rest ih => simp only [freeHfs, ih, h, hfsExtent]

/-- The fillers of sorted requests depend on the extents only. -/
theorem fillRequests_inv (hsorted : sorted.Pairwise fun p q => p.startBlock ≤ q.startBlock)
    (hne : sorted ≠ []) (h : fillRequests t imgBlocks sorted = .ok filled) :
    ∃ fillers, filled = sorted ++ fillers ∧ (∀ f ∈ fillers, f.filler = true) ∧
      fillers.map extent = (if t.opts.partLikeIsohybrid then [] else
        gaps Prod.fst Prod.snd (lastGoal t imgBlocks) (firstBlock (sorted.map extent))
          (sorted.map extent)) ∧
      ∀ reqs : List GptPartitionRequest, reqs.map extent = sorted.map extent →
        fillRequests t imgBlocks reqs = .ok (reqs ++ fillers) := by
  rw [fillRequests] at h
  split at h
  next hiso =>
    obtain rfl := Except.ok.inj h
    refine ⟨[], by simp, by simp, by simp [hiso], fun reqs _ => ?_⟩
    rw [fillRequests, if_pos hiso, List.append_nil]
  next hiso =>
    cases sorted with
    | nil => exact absurd rfl hne
    | cons first rest =>
      rw [Results.map_eq_ok] at h
      obtain ⟨st, hst, rfl⟩ := h
      obtain ⟨fillers, hreq, hfiller, hextents, hsame⟩ :=
        fillGptGaps_inv (List.pairwise_cons.mp hsorted).1 hst
      refine ⟨fillers, hreq, hfiller, ?_, fun reqs hreqs => ?_⟩
      · rw [if_neg hiso]
        exact hextents
      · rw [fillRequests, if_neg hiso]
        exact hsame reqs hreqs

theorem run_sorted (reqs : List GptPartitionRequest) :
    (libc.run cmpGpt reqs).Pairwise fun p q => p.startBlock ≤ q.startBlock :=
  (libc.sorted cmpGpt_consistent reqs).imp start_le_of_cmp

/-- The order of the extents depends on the extents only. -/
theorem run_extents {reqs reqs' : List GptPartitionRequest}
    (h : (reqs.map extent).Perm (reqs'.map extent)) :
    (libc.run cmpGpt reqs).map extent = (libc.run cmpGpt reqs').map extent := by
  have hsorted (l : List GptPartitionRequest) : ((libc.run cmpGpt l).map extent).Pairwise
      fun e f : Extent => e.1 < f.1 ∨ e.1 = f.1 ∧ f.2 ≤ e.2 := by
    rw [List.pairwise_map]
    refine (libc.sorted cmpGpt_consistent l).imp fun hle => ?_
    rw [cmpGpt, cmpPartitionRequest_le_iff] at hle
    simp only [extent_fst, extent_snd]
    omega
  refine List.Perm.eq_of_pairwise ?_ (hsorted reqs) (hsorted reqs') ?_
  · intro e f _ _ hef hfe
    refine Prod.ext ?_ ?_
    · omega
    · omega
  · exact ((libc.perm cmpGpt reqs).map extent).trans
      (h.trans ((libc.perm cmpGpt reqs').map extent).symm)

end Writing

section Again

variable {t : Ecma119Image} {imgBlocks : UInt32} {libc : Qsort} {guids : Nat → Guid}
  {out : GptOutcome} {copies fillers : List GptPartitionRequest}

/-- The requests as they get written. -/
def mergedReq (libc : Qsort) (t : Ecma119Image) (copies fillers : List GptPartitionRequest) :
    List GptPartitionRequest :=
  libc.run cmpGpt (libc.run cmpGpt (t.gptReq ++ copies) ++ fillers)

/-- The parts of a table which got written. -/
structure Merged (libc : Qsort) (guids : Nat → Guid) (t : Ecma119Image) (imgBlocks : UInt32)
    (out : GptOutcome) (copies fillers : List GptPartitionRequest) : Prop where
  copies_extents : copies.map extent = (copiedHfs t).map (hfsExtent t)
  copies_filler : ∀ r ∈ copies, r.filler = false
  fillers_filler : ∀ f ∈ fillers, f.filler = true
  fillers_extents : fillers.map extent = (if t.opts.partLikeIsohybrid then [] else
    gaps Prod.fst Prod.snd (lastGoal t imgBlocks)
      (firstBlock ((libc.run cmpGpt (t.gptReq ++ copies)).map extent))
      ((libc.run cmpGpt (t.gptReq ++ copies)).map extent))
  filled : ∀ reqs : List GptPartitionRequest,
    reqs.map extent = (libc.run cmpGpt (t.gptReq ++ copies)).map extent →
      fillRequests t imgBlocks reqs = .ok (reqs ++ fillers)
  room : (mergedReq libc t copies fillers).length ≤ t.gptMaxEntries
  entries_eq : out.entries =
    (writeGptEntries guids t t.guidsMade (mergedReq libc t copies fillers)).1
  image_eq : out.image = { t with
    gptReq := (writeGptEntries guids t t.guidsMade (mergedReq libc t copies fillers)).2.1
    guidsMade := (writeGptEntries guids t t.guidsMade (mergedReq libc t copies fillers)).2.2 }

theorem merged_of_isoWriteGpt (hne : t.gptReq ≠ [])
    (h : isoWriteGpt libc guids t imgBlocks = .ok out) :
    ∃ copies fillers, Merged libc guids t imgBlocks out copies fillers := by
  obtain ⟨copied, filled, hcopied, hfilled, hroom, hentries, himage⟩ := isoWriteGpt_inv hne h
  obtain ⟨copies, rfl, hextents, hmade⟩ := copyApmhfs_inv (Nat.zero_le _) hcopied
  have hfiller : ∀ r ∈ copies, r.filler = false := by
    intro r hr
    obtain ⟨number, a, -, rfl⟩ := hmade r hr
    rfl
  have hsorted := libc.perm cmpGpt (t.gptReq ++ copies)
  have hsome : libc.run cmpGpt (t.gptReq ++ copies) ≠ [] := fun hnil => by
    rw [hnil] at hsorted
    exact hne (List.append_eq_nil_iff.mp hsorted.nil_eq.symm).1
  obtain ⟨fillers, rfl, hfillers, hgaps, hsame⟩ := fillRequests_inv (run_sorted _) hsome hfilled
  refine ⟨copies, fillers, ?_⟩
  constructor
  case copies_extents => exact hextents
  case copies_filler => exact hfiller
  case fillers_filler => exact hfillers
  case fillers_extents => exact hgaps
  case filled => exact hsame
  case room => exact hroom
  case entries_eq => exact hentries
  case image_eq => exact himage

theorem mergedReq_perm :
    (mergedReq libc t copies fillers).Perm (t.gptReq ++ copies ++ fillers) :=
  (libc.perm cmpGpt _).trans ((libc.perm cmpGpt _).append_right fillers)

/-- What the deletion of the fillers leaves. -/
def keptGpt (out : GptOutcome) : List GptPartitionRequest :=
  out.image.gptReq.filter fun r => !r.filler

theorem Merged.kept (merged : Merged libc guids t imgBlocks out copies fillers)
    (registered : ∀ r ∈ t.gptReq, r.filler = false) {β : Type} {f : GptPartitionRequest → β}
    (hf : ∀ r n, f { r with partitionGuid :=
      if r.partitionGuid = zeroUuid then guids n else r.partitionGuid } = f r) :
    ((keptGpt out).map f).Perm ((t.gptReq ++ copies).map f) := by
  have hall : ((t.gptReq ++ copies ++ fillers).filter fun r => !r.filler) = t.gptReq ++ copies := by
    rw [List.filter_append, List.filter_eq_self.mpr, List.filter_eq_nil_iff.mpr, List.append_nil]
    · intro f hmem
      simp [merged.fillers_filler f hmem]
    · intro r hmem
      rcases List.mem_append.mp hmem with hreq | hcopy
      · simp [registered r hreq]
      · simp [merged.copies_filler r hcopy]
  rw [keptGpt, merged.image_eq, writeGptEntries_requests hf]
  have := ((@mergedReq_perm t libc copies fillers).filter fun r => !r.filler).map f
  rwa [hall] at this

theorem Merged.kept_extents (merged : Merged libc guids t imgBlocks out copies fillers)
    (registered : ∀ r ∈ t.gptReq, r.filler = false) :
    ((keptGpt out).map extent).Perm ((t.gptReq ++ copies).map extent) :=
  merged.kept registered fun _ _ => rfl

theorem Merged.partitionExtents_eq (merged : Merged libc guids t imgBlocks out copies fillers) :
    (t.gptReq ++ copies).map extent = partitionExtents t := by
  rw [List.map_append, merged.copies_extents, partitionExtents]

theorem Merged.kept_ne_nil (merged : Merged libc guids t imgBlocks out copies fillers)
    (registered : ∀ r ∈ t.gptReq, r.filler = false) (hne : t.gptReq ≠ []) :
    keptGpt out ≠ [] := fun hnil => by
  have hperm := merged.kept_extents registered
  rw [hnil] at hperm
  exact hne (List.append_eq_nil_iff.mp (List.map_eq_nil_iff.mp hperm.nil_eq.symm)).1

theorem Merged.entries_length (merged : Merged libc guids t imgBlocks out copies fillers) :
    out.entries.length = (t.gptReq ++ copies).length + fillers.length := by
  rw [merged.entries_eq, length_writeGptEntries, mergedReq_perm.length_eq, List.length_append]

theorem map_of_extents {β : Type} {f : GptPartitionRequest → β}
    (hf : ∀ p q, extent p = extent q → f p = f q) {reqs reqs' : List GptPartitionRequest}
    (h : reqs.map extent = reqs'.map extent) : reqs.map f = reqs'.map f := by
  induction reqs generalizing reqs' with
  | nil =>
    obtain rfl := List.map_eq_nil_iff.mp h.symm
    rfl
  | cons p reqs ih =>
    obtain ⟨q, rest, rfl, hq, hrest⟩ := List.map_eq_cons_iff.mp h.symm
    rw [List.map_cons, List.map_cons, hf p q hq.symm, ih hrest.symm]

theorem writtenExtent_congr {p q : GptPartitionRequest} (h : extent p = extent q) :
    writtenExtent t p = writtenExtent t q := by
  have hstart : p.startBlock = q.startBlock := congrArg Prod.fst h
  have hend : p.startBlock + p.blockCount = q.startBlock + q.blockCount := congrArg Prod.snd h
  have hcount : p.blockCount = q.blockCount := by omega
  simp only [writtenExtent, endLba, hstart, hcount]

/-- The second writing of harmless requests finds the same partitions and gaps. -/
theorem Merged.again (merged : Merged libc guids t imgBlocks out copies fillers)
    (registered : ∀ r ∈ t.gptReq, r.filler = false) (hne : t.gptReq ≠ [])
    (harmless : GptHarmless t) (guidsMade : Nat) :
    ∃ again, isoWriteGpt libc guids { t with gptReq := keptGpt out, guidsMade } imgBlocks =
      .ok again ∧ SameGpt guids out.entries again.entries := by
  have hkept := merged.kept_extents registered
  have hsorted : (libc.run cmpGpt (keptGpt out)).map extent =
      (libc.run cmpGpt (t.gptReq ++ copies)).map extent := run_extents hkept
  have hcopied : isoCopyApmhfsToGpt { t with gptReq := keptGpt out, guidsMade } =
      .ok (keptGpt out) := by
    refine copyApmhfs_none ?_
    rw [freeHfs_congr rfl]
    refine freeHfs_eq_nil fun a ha htype => ?_
    obtain ⟨e, he, hhit⟩ := harmless.hits hne ha htype
    exact ⟨e, (merged.partitionExtents_eq ▸ hkept).mem_iff.mpr he, hhit⟩
  have hfilled : fillRequests { t with gptReq := keptGpt out, guidsMade } imgBlocks
      (libc.run cmpGpt (keptGpt out)) = .ok (libc.run cmpGpt (keptGpt out) ++ fillers) := by
    rw [fillRequests_image]
    exact merged.filled _ hsorted
  have hmerged : (libc.run cmpGpt (libc.run cmpGpt (keptGpt out) ++ fillers)).map extent =
      (mergedReq libc t copies fillers).map extent := by
    refine run_extents ?_
    rw [List.map_append, List.map_append, hsorted]
  have hroom := congrArg List.length hmerged
  rw [List.length_map, List.length_map] at hroom
  obtain ⟨again, hagain, hentries⟩ :=
    @isoWriteGpt_of _ imgBlocks libc guids _ (merged.kept_ne_nil registered hne) _ hcopied
      hfilled (hroom ▸ merged.room)
  refine ⟨again, hagain, ?_⟩
  constructor
  case extents =>
    rw [hentries, merged.entries_eq, writeGptEntries_extents, writeGptEntries_extents]
    exact map_of_extents (fun p q => writtenExtent_congr) hmerged
  case entries =>
    rw [hentries, merged.entries_eq, writeGptEntries_describe, writeGptEntries_describe]
    have hkept' : ((keptGpt out).map (describe guids t)).Perm
        ((t.gptReq ++ copies).map (describe guids t)) := by
      refine merged.kept registered fun r n => ?_
      simp only [describe, anonymous_written]
      rfl
    have hnew := (libc.perm cmpGpt (libc.run cmpGpt (keptGpt out) ++ fillers)).trans
      ((libc.perm cmpGpt (keptGpt out)).append_right fillers)
    have hold := (@mergedReq_perm t libc copies fillers).map (describe guids t)
    refine (hnew.map (describe guids t)).trans (List.Perm.trans ?_ hold.symm)
    have hsplit (front : List GptPartitionRequest) : (front ++ fillers).map (describe guids t) =
        front.map (describe guids t) ++ fillers.map (describe guids t) := List.map_append
    rw [hsplit, hsplit]
    exact hkept'.append_right _

/-- Otherwise the second writing yields more entries, if it succeeds at all. -/
theorem Merged.longer (merged : Merged libc guids t imgBlocks out copies fillers)
    (registered : ∀ r ∈ t.gptReq, r.filler = false) (hne : t.gptReq ≠ [])
    (harmful : ¬ GptHarmless t) {guidsMade : Nat} {again : GptOutcome}
    (hagain : isoWriteGpt libc guids { t with gptReq := keptGpt out, guidsMade } imgBlocks =
      .ok again) : out.entries.length < again.entries.length := by
  have hkept := merged.kept_extents registered
  have hpartitions := merged.partitionExtents_eq ▸ hkept
  obtain ⟨copies', fillers', merged'⟩ :=
    merged_of_isoWriteGpt (merged.kept_ne_nil registered hne) hagain
  have hcopies' : copies'.map extent =
      (freeHfs t ((keptGpt out).map extent) t.apmReq).map (hfsExtent t) := by
    have hfactor : apmFactor { t with gptReq := keptGpt out, guidsMade } = apmFactor t := rfl
    rw [merged'.copies_extents, copiedHfs]
    exact congrArg (List.map (hfsExtent t)) (freeHfs_congr hfactor)
  have hempty : ∀ e ∈ copies'.map extent, e.1 = e.2 ∧ e ∈ partitionExtents t := by
    intro e he
    rw [hcopies'] at he
    obtain ⟨a, ha, rfl⟩ := List.mem_map.mp he
    obtain ⟨hcopied, hzero⟩ := recopied hpartitions a ha
    constructor
    · change a.startBlock * apmFactor t = (a.startBlock + a.blockCount) * apmFactor t
      rw [hzero, Nat.add_zero]
    · exact List.mem_append_right _ (List.mem_map_of_mem hcopied)
  have hsome : 0 < copies'.length := by
    have hlength := congrArg List.length hcopies'
    rw [List.length_map, List.length_map] at hlength
    rw [hlength]
    exact List.length_pos_of_ne_nil (recopied_ne_nil hpartitions harmful)
  have hlength := hkept.length_eq
  rw [List.length_map, List.length_map] at hlength
  have hfillers : fillers.length ≤ fillers'.length := by
    have hold := congrArg List.length merged.fillers_extents
    have hnew := congrArg List.length merged'.fillers_extents
    rw [List.length_map] at hold hnew
    rw [hold, hnew]
    cases hiso : t.opts.partLikeIsohybrid with
    | true => exact Nat.zero_le _
    | false =>
      have hsorted := (libc.perm cmpGpt (t.gptReq ++ copies)).map extent
      have hsorted' := (libc.perm cmpGpt (keptGpt out ++ copies')).map extent
      have hperm : ((libc.run cmpGpt (keptGpt out ++ copies')).map extent).Perm
          ((libc.run cmpGpt (t.gptReq ++ copies)).map extent ++ copies'.map extent) := by
        rw [List.map_append] at hsorted'
        exact hsorted'.trans ((hkept.trans hsorted.symm).append_right _)
      have hfirst : firstBlock ((libc.run cmpGpt (keptGpt out ++ copies')).map extent) =
          firstBlock ((libc.run cmpGpt (t.gptReq ++ copies)).map extent) := by
        refine Nat.le_antisymm (firstBlock_mono fun e he => ?_) (firstBlock_mono fun e he => ?_)
        · exact hperm.mem_iff.mpr (List.mem_append_left _ he)
        · rcases List.mem_append.mp (hperm.mem_iff.mp he) with hsame | hnewer
          · exact hsame
          · rw [hsorted.mem_iff, merged.partitionExtents_eq]
            exact (hempty e hnewer).2
      simp only [Bool.false_eq_true, if_false]
      rw [hfirst]
      refine gaps_length_le hperm ?_ (fun e he => (hempty e he).1) ?_ ?_
      · intro e he
        obtain ⟨r, -, rfl⟩ := List.mem_map.mp he
        exact extent_proper r
      · exact List.pairwise_map.mpr (run_sorted _)
      · exact List.pairwise_map.mpr (run_sorted _)
  have hnew : again.entries.length = (keptGpt out ++ copies').length + fillers'.length :=
    merged'.entries_length
  rw [List.length_append] at hnew
  rw [merged.entries_length, hnew]
  omega

theorem gptHarmless_congr {u : Ecma119Image} (hgpt : u.gptReq = t.gptReq)
    (hapm : u.apmReq = t.apmReq) (hfactor : apmFactor u = apmFactor t) :
    GptHarmless u ↔ GptHarmless t := by
  simp only [GptHarmless, copiedHfs, hgpt, hapm, freeHfs_congr hfactor, hitsExtent, hfsExtent,
    hfactor]

theorem isoWriteGpt_image (h : isoWriteGpt libc guids t imgBlocks = .ok out) :
    out.image = { t with gptReq := out.image.gptReq, guidsMade := out.image.guidsMade } := by
  by_cases hne : t.gptReq = []
  · rw [isoWriteGpt, if_pos hne] at h
    obtain rfl := Except.ok.inj h
    rfl
  · obtain ⟨copies, fillers, merged⟩ := merged_of_isoWriteGpt hne h
    rw [merged.image_eq]

/-- The second writing of harmless requests yields the same entries. -/
theorem isoWriteGpt_again (h : isoWriteGpt libc guids t imgBlocks = .ok out)
    (registered : ∀ r ∈ t.gptReq, r.filler = false) (harmless : GptHarmless t) (guidsMade : Nat) :
    ∃ again, isoWriteGpt libc guids { t with gptReq := keptGpt out, guidsMade } imgBlocks =
      .ok again ∧ SameGpt guids out.entries again.entries := by
  by_cases hne : t.gptReq = []
  · rw [isoWriteGpt, if_pos hne] at h
    obtain rfl := Except.ok.inj h
    have hnone : keptGpt ⟨2, t, []⟩ = [] := by rw [keptGpt, hne, List.filter_nil]
    refine ⟨⟨2, _, []⟩, by rw [isoWriteGpt, if_pos hnone], ?_⟩
    constructor
    case extents => rfl
    case entries => exact List.Perm.refl _
  · obtain ⟨copies, fillers, merged⟩ := merged_of_isoWriteGpt hne h
    exact merged.again registered hne harmless guidsMade

theorem harmless_of_isoWriteGpt_again (h : isoWriteGpt libc guids t imgBlocks = .ok out)
    (registered : ∀ r ∈ t.gptReq, r.filler = false) {guidsMade : Nat} {again : GptOutcome}
    (hagain : isoWriteGpt libc guids { t with gptReq := keptGpt out, guidsMade } imgBlocks =
      .ok again) (hsame : SameGpt guids out.entries again.entries) : GptHarmless t := by
  by_contra harmful
  have hne : t.gptReq ≠ [] := fun hnil => harmful fun hne => absurd hnil hne
  obtain ⟨copies, fillers, merged⟩ := merged_of_isoWriteGpt hne h
  have hlonger := merged.longer registered hne harmful hagain
  have hlength := hsame.entries.length_eq
  rw [List.length_map, List.length_map] at hlength
  omega

end Again

end RewriteGpt
