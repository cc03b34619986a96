import Libisofs.Lib.Gaps
import Libisofs.RewriteMaps

/-!
# The Apple Partition Map covers the image

The map gets its gap fillers when its size is computed, and its last size when it is
written. In between the image may grow.
-/

namespace ApmCover

open CLibrary Tilings IntervalGaps PartitionRequests ApmMbr RewriteMaps

abbrev Extent := Nat × Nat

def extent (r : ApmPartitionRequest) : Extent := (r.startBlock, r.startBlock + r.blockCount)

@[simp] theorem extent_fst (r : ApmPartitionRequest) : (extent r).1 = r.startBlock := rfl

@[simp] theorem extent_snd (r : ApmPartitionRequest) :
    (extent r).2 = r.startBlock + r.blockCount := rfl

theorem extent_proper (r : ApmPartitionRequest) : (extent r).1 ≤ (extent r).2 :=
  Nat.le_add_right _ _

/-- The requests which do not become the description of the map itself. -/
def partitions (t : Ecma119Image) : List ApmPartitionRequest :=
  t.apmReq.filter fun r => 1 < r.startBlock

theorem mem_partitions {t : Ecma119Image} {r : ApmPartitionRequest} :
    r ∈ partitions t ↔ r ∈ t.apmReq ∧ 1 < r.startBlock := by
  simp [partitions]

section Filling

variable {t : Ecma119Image} {isLast isFirst : Bool} {partEnd goal lastGoal : Nat}
  {inRange : goal < 2 ^ 32} {inRange' : lastGoal < 2 ^ 32} {st st' : ApmFillState}
  {prev : ApmPartitionRequest} {rest : List ApmPartitionRequest}

/-- The start of the first partition, or the end of the image. -/
def firstGoal (lastGoal : Nat) : List ApmPartitionRequest → Nat
  | [] => lastGoal
  | r :: _ => r.startBlock

theorem fillApmTurn_fits (h : fillApmTurn t isLast partEnd goal inRange st = .ok st') :
    partEnd ≤ goal := by
  rw [fillApmTurn] at h
  split at h
  next => cases h
  next hover => exact Nat.not_lt.mp hover

theorem fillApmTurn_unfilled (hbit : t.apmReqFlags.testBit 1 = true)
    (h : fillApmTurn t isLast partEnd goal inRange st = .ok st') : st' = st := by
  rw [fillApmTurn] at h
  split at h
  next => cases h
  next => exact (Except.ok.inj h).symm

theorem isoRegisterApmEntry_ok {apmReq apmReq' : List ApmPartitionRequest}
    {r : ApmPartitionRequest} (h : isoRegisterApmEntry apmReq r = .ok apmReq') :
    apmReq' = apmReq ++ [r] := by
  rw [isoRegisterApmEntry] at h
  split at h
  next => cases h
  next => exact (Except.ok.inj h).symm

/-- A turn which finds a gap, and the last turn, register a filler. -/
theorem fillApmTurn_filler (hbit : t.apmReqFlags.testBit 1 = false)
    (hgap : partEnd < goal ∨ isLast = true)
    (h : fillApmTurn t isLast partEnd goal inRange st = .ok st') :
    ∃ f, st'.apmReq = st.apmReq ++ [f] ∧ extent f = (partEnd, goal) := by
  have hfits := fillApmTurn_fits h
  have hsum : partEnd + (goal - partEnd) = goal := by omega
  rw [fillApmTurn, dif_neg (by omega), hbit, if_neg Bool.false_ne_true,
    if_pos (by simpa using hgap), Results.bind_eq_ok] at h
  obtain ⟨apmReq, hreq, heq⟩ := h
  obtain rfl := Except.ok.inj heq
  refine ⟨_, isoRegisterApmEntry_ok hreq, ?_⟩
  rw [extent, hsum]

theorem fillApmTurn_gap (hbit : t.apmReqFlags.testBit 1 = false)
    (h : fillApmTurn t false partEnd goal inRange st = .ok st') :
    ∃ fillers, st'.apmReq = st.apmReq ++ fillers ∧ fillers.map extent = gap partEnd goal := by
  by_cases hgap : partEnd < goal
  · obtain ⟨f, hreq, hextent⟩ := fillApmTurn_filler hbit (Or.inl hgap) h
    refine ⟨[f], hreq, ?_⟩
    rw [gap, if_pos hgap, List.map_singleton, hextent]
  · rw [fillApmTurn] at h
    split at h
    next => cases h
    next =>
      rw [hbit, if_neg Bool.false_ne_true, if_neg (by simpa using hgap)] at h
      obtain rfl := Except.ok.inj h
      exact ⟨[], (List.append_nil _).symm, by rw [gap, if_neg hgap]; rfl⟩

theorem max_extent {r : ApmPartitionRequest} {o : Nat} (h : o ≤ r.startBlock) :
    max o (extent r).2 = (extent r).2 :=
  Nat.max_eq_right (h.trans (extent_proper r))

/-- The end of a request which does not roll over. -/
theorem apmPartEnd_behind {r : ApmPartitionRequest} (h : (extent r).2 < 2 ^ 32) :
    apmPartEnd t false r goal = (extent r).2 :=
  Nat.mod_eq_of_lt h

theorem fillApmGapsAfter_fits (hends : ∀ r ∈ rest, (extent r).2 < 2 ^ 32)
    (h : fillApmGapsAfter t lastGoal inRange' isFirst prev rest st = .ok st') :
    Fits Prod.fst Prod.snd lastGoal (apmPartEnd t isFirst prev (firstGoal lastGoal rest))
      (rest.map extent) := by
  induction rest generalizing isFirst prev st with
  | nil => exact fillApmTurn_fits h
  | cons r rest ih =>
    rw [fillApmGapsAfter, Results.bind_eq_ok] at h
    obtain ⟨st1, hturn, hrest⟩ := h
    have hfits : apmPartEnd t isFirst prev r.startBlock ≤ r.startBlock := fillApmTurn_fits hturn
    rw [List.forall_mem_cons] at hends
    refine ⟨hfits, ?_⟩
    rw [firstGoal, max_extent hfits, ← apmPartEnd_behind hends.1]
    exact ih hends.2 hrest

theorem fillApmGapsAfter_unfilled (hbit : t.apmReqFlags.testBit 1 = true)
    (h : fillApmGapsAfter t lastGoal inRange' isFirst prev rest st = .ok st') : st' = st := by
  induction rest generalizing isFirst prev st with
  | nil => exact fillApmTurn_unfilled hbit h
  | cons r rest ih =>
    rw [fillApmGapsAfter, Results.bind_eq_ok] at h
    obtain ⟨st1, hturn, hrest⟩ := h
    exact (ih hrest).trans (fillApmTurn_unfilled hbit hturn)

/-- The fillers are the gaps. There is one at the end in any case, which fills the last gap
up to whatever gets the end of the image. -/
structure Filled (apmReq apmReq' : List ApmPartitionRequest) (reached lastGoal : Nat)
    (rest fillers : List ApmPartitionRequest) (last : ApmPartitionRequest) : Prop where
  registered : apmReq' = apmReq ++ (fillers ++ [last])
  lastStop : (extent last).2 = lastGoal
  reached_le : reached ≤ last.startBlock
  rest_le : ∀ r ∈ rest, r.startBlock + r.blockCount ≤ last.startBlock
  fillers_lt : ∀ f ∈ fillers, f.startBlock < last.startBlock
  isGaps : ∀ limit, fillers.map extent ++ gap last.startBlock limit =
    gaps Prod.fst Prod.snd limit reached (rest.map extent)

theorem fillApmGapsAfter_filled (hbit : t.apmReqFlags.testBit 1 = false)
    (hends : ∀ r ∈ rest, (extent r).2 < 2 ^ 32)
    (h : fillApmGapsAfter t lastGoal inRange' isFirst prev rest st = .ok st') :
    ∃ fillers last, Filled st.apmReq st'.apmReq
      (apmPartEnd t isFirst prev (firstGoal lastGoal rest)) lastGoal rest fillers last := by
  induction rest generalizing isFirst prev st with
  | nil =>
    obtain ⟨f, hreq, hextent⟩ := fillApmTurn_filler hbit (Or.inr rfl) h
    have hstart : f.startBlock = apmPartEnd t isFirst prev lastGoal := congrArg Prod.fst hextent
    refine ⟨[], f, hreq, congrArg Prod.snd hextent, Nat.le_of_eq hstart.symm, by simp, by simp, ?_⟩
    intro limit
    rw [hstart]
    rfl
  | cons r rest ih =>
    rw [fillApmGapsAfter, Results.bind_eq_ok] at h
    obtain ⟨st1, hturn, hrest⟩ := h
    have hfits : apmPartEnd t isFirst prev r.startBlock ≤ r.startBlock := fillApmTurn_fits hturn
    obtain ⟨new, hreq, hnew⟩ := fillApmTurn_gap hbit hturn
    rw [List.forall_mem_cons] at hends
    obtain ⟨fillers, last, filled⟩ := ih hends.2 hrest
    rw [apmPartEnd_behind hends.1] at filled
    have hr : r.startBlock + r.blockCount ≤ last.startBlock := filled.reached_le
    refine ⟨new ++ fillers, last, ?_, filled.lastStop, ?_, ?_, ?_, fun limit => ?_⟩
    · rw [filled.registered, hreq, List.append_assoc, List.append_assoc]
    · rw [firstGoal]
      omega
    · exact List.forall_mem_cons.mpr ⟨hr, filled.rest_le⟩
    · refine List.forall_mem_append.mpr ⟨fun f hf => ?_, filled.fillers_lt⟩
      have hmem : extent f ∈ gap (apmPartEnd t isFirst prev r.startBlock) r.startBlock :=
        hnew ▸ List.mem_map_of_mem hf
      obtain ⟨heq, hlt⟩ := mem_gap hmem
      have hstart : f.startBlock = apmPartEnd t isFirst prev r.startBlock := congrArg Prod.fst heq
      omega
    · rw [List.map_append, hnew, List.append_assoc, filled.isGaps limit, firstGoal, List.map_cons,
        gaps, extent_fst, max_extent hfits]

end Filling

section Sorting

variable {t : Ecma119Image} {reqs sorted rest : List ApmPartitionRequest}
  {first : ApmPartitionRequest}

theorem requestSelf_spec (h : requestSelf t.apmReq = .ok reqs) :
    (∃ r ∈ reqs, r.startBlock ≤ 1) ∧ (reqs.filter fun r => 1 < r.startBlock) = partitions t := by
  rw [requestSelf] at h
  split at h
  next hself =>
    obtain rfl := Except.ok.inj h
    exact ⟨by simpa using hself, rfl⟩
  next =>
    obtain rfl := isoRegisterApmEntry_ok h
    refine ⟨⟨apmSelf, by simp, by decide⟩, ?_⟩
    rw [List.filter_append, partitions]
    exact List.append_nil _

theorem requestSelf_mem (h : requestSelf t.apmReq = .ok reqs) :
    ∀ r ∈ reqs, r ∈ t.apmReq ∨ r = apmSelf := by
  rw [requestSelf] at h
  split at h
  next =>
    obtain rfl := Except.ok.inj h
    exact fun r hr => Or.inl hr
  next =>
    obtain rfl := isoRegisterApmEntry_ok h
    simp

/-- The first request is the one for the map if all others begin behind it. -/
theorem sorted_spec (libc : Qsort) (hself : requestSelf t.apmReq = .ok reqs)
    (hsorted : libc.run cmpApm reqs = first :: rest) (hrest : ∀ r ∈ rest, 1 < r.startBlock) :
    first.startBlock ≤ 1 ∧ rest.Perm (partitions t) := by
  obtain ⟨⟨r, hr, hstart⟩, hfilter⟩ := requestSelf_spec hself
  have hperm := libc.perm cmpApm reqs
  rw [hsorted] at hperm
  have hfirst : first.startBlock ≤ 1 := by
    rcases List.mem_cons.mp (hperm.mem_iff.mpr hr) with rfl | hmem
    · exact hstart
    · exact absurd hstart (Nat.not_le.mpr (hrest r hmem))
  refine ⟨hfirst, ?_⟩
  have hall : rest.filter (fun r => 1 < r.startBlock) = rest :=
    List.filter_eq_self.mpr fun r hr => decide_eq_true (hrest r hr)
  have hkept := hperm.filter fun r => 1 < r.startBlock
  rw [List.filter_cons_of_neg (by simpa using hfirst), hall, hfilter] at hkept
  exact hkept

theorem start_le_of_cmp {p q : ApmPartitionRequest} (h : cmpApm p q ≤ 0) :
    p.startBlock ≤ q.startBlock := by
  have := cmpPartitionRequest_le_iff.mp h
  omega

theorem not_cmp_of_start_lt {p q : ApmPartitionRequest} (h : q.startBlock < p.startBlock) :
    ¬ cmpApm p q ≤ 0 :=
  fun hle => absurd (start_le_of_cmp hle) (Nat.not_le.mpr h)

end Sorting

section Rectified

variable {libc : Qsort} {t t1 : Ecma119Image} {curblock : UInt32}

/-- The options while gaps get filled. -/
def fillOpts (t : Ecma119Image) : IsoWriteOpts :=
  if t.apmReqFlags.testBit 2 then chooseApmBlockSize t.opts else t.opts

theorem fillOpts_partLikeIsohybrid : (fillOpts t).partLikeIsohybrid = t.opts.partLikeIsohybrid := by
  rw [fillOpts]
  split
  · rfl
  · rfl

theorem unitFactor_fillOpts : unitFactor { t with opts := fillOpts t } = unitFactor (sized t) := by
  by_cases hbit : t.apmReqFlags.testBit 2 = true
  · simp [unitFactor, fillOpts, sized, hbit]
  · simp [unitFactor, hbit, sized]

theorem chooseApmBlockSize_fillOpts :
    chooseApmBlockSize (fillOpts t) = chooseApmBlockSize t.opts := by
  rw [fillOpts]
  split
  · exact chooseApmBlockSize_again t.opts
  · rfl

/-- The end of what the map keeps free for itself. -/
def mapEnd (t : Ecma119Image) (goal : Nat) : Nat :=
  if goal < 16 * unitFactor (sized t) ∧ goal > 1 then goal else 16 * unitFactor (sized t)

theorem unitFactor_pos (t : Ecma119Image) : 0 < unitFactor (sized t) := by
  rw [unitFactor]
  split
  · rcases apmBlockSize_cases t with hsize | hsize
    · rw [hsize]
      decide
    · rw [hsize]
      decide
  · exact Nat.one_pos

theorem mapEnd_gt (t : Ecma119Image) (goal : Nat) : 1 < mapEnd t goal := by
  have := unitFactor_pos t
  rw [mapEnd]
  split
  · omega
  · omega

theorem mapEnd_le (t : Ecma119Image) (goal : Nat) : mapEnd t goal ≤ 16 * unitFactor (sized t) := by
  rw [mapEnd]
  split
  · omega
  · exact Nat.le_refl _

/-- What the filling has made of the requests. -/
structure Rectified (libc : Qsort) (t : Ecma119Image) (curblock : UInt32) (t1 : Ecma119Image)
    (first : ApmPartitionRequest) (rest : List ApmPartitionRequest) : Prop where
  image : sized t1 = { sized t with apmReq := t1.apmReq }
  self : first.startBlock ≤ 1
  perm : rest.Perm (partitions t)
  ordered : rest.Pairwise fun p q => cmpApm p q ≤ 0
  fits : Fits Prod.fst Prod.snd (imgUnits (sized t) curblock)
    (mapEnd t (firstGoal (imgUnits (sized t) curblock) rest)) (rest.map extent)
  unfilled : t.apmReqFlags.testBit 1 = true → t1.apmReq = first :: rest
  filled : t.apmReqFlags.testBit 1 = false → ∃ apmReq fillers last,
    t1.apmReq = libc.run cmpApm apmReq ∧
    Filled (first :: rest) apmReq (mapEnd t (firstGoal (imgUnits (sized t) curblock) rest))
      (imgUnits (sized t) curblock) rest fillers last

theorem rectifyApm_ok (hsome : t.apmReq ≠ []) (hiso : t.opts.partLikeIsohybrid = false)
    (hends : ∀ r ∈ t.apmReq, r.startBlock + r.blockCount < 2 ^ 32)
    (h : rectifyApm libc t curblock = .ok t1) :
    ∃ first rest, Rectified libc t curblock t1 first rest := by
  rw [rectifyApm, if_neg hsome] at h
  split at h
  next => cases h
  next =>
    rw [fillApmGaps, Results.bind_eq_ok] at h
    obtain ⟨reqs, hself, h⟩ := h
    rw [Results.bind_eq_ok] at h
    obtain ⟨apmReq, hfill, heq⟩ := h
    obtain rfl := Except.ok.inj heq
    have hunits :
        imgUnits { t with opts := fillOpts t } curblock = imgUnits (sized t) curblock := by
      rw [imgUnits, unitFactor_fillOpts, imgUnits]
    have hgoal (prev : ApmPartitionRequest) (goal : Nat) :
        apmPartEnd { t with opts := fillOpts t } true prev goal = mapEnd t goal := by
      rw [apmPartEnd, if_pos rfl, unitFactor_fillOpts, mapEnd]
    change fillSortedApm libc { t with opts := fillOpts t } curblock _ = _ at hfill
    rw [fillSortedApm.eq_def, if_neg (by
      rw [fillOpts_partLikeIsohybrid, hiso]
      exact Bool.false_ne_true)] at hfill
    have hordered := libc.sorted cmpApm_consistent reqs
    cases hlist : libc.run cmpApm reqs with
    | nil =>
      obtain ⟨⟨r, hr, -⟩, -⟩ := requestSelf_spec hself
      have hmem := (libc.perm cmpApm reqs).mem_iff.mpr hr
      rw [hlist] at hmem
      exact absurd hmem (List.not_mem_nil)
    | cons first rest =>
      rw [hlist] at hfill hordered
      rw [Results.bind_eq_ok] at hfill
      obtain ⟨st, hgaps, hreq⟩ := hfill
      have hreq := Except.ok.inj hreq
      have hends' : ∀ r ∈ rest, (extent r).2 < 2 ^ 32 := by
        intro r hr
        have hmem := (libc.perm cmpApm reqs).mem_iff.mp (hlist ▸ List.mem_cons_of_mem first hr)
        rcases requestSelf_mem hself r hmem with hreq | rfl
        · exact hends r hreq
        · decide
      have hfits := fillApmGapsAfter_fits hends' hgaps
      rw [hgoal, hunits] at hfits
      have hbehind : ∀ r ∈ rest, 1 < r.startBlock := by
        intro r hr
        have hstart := ((fits_iff.mp hfits).2.1 (extent r) (List.mem_map_of_mem hr)).1
        exact Nat.lt_of_lt_of_le (mapEnd_gt t _) hstart
      obtain ⟨hfirst, hperm⟩ := sorted_spec libc hself hlist hbehind
      refine ⟨first, rest, ?_, hfirst, hperm, (List.pairwise_cons.mp hordered).2, hfits, ?_, ?_⟩
      · exact congrArg (fun opts => { t with opts, apmReq }) chooseApmBlockSize_fillOpts
      · intro hbit
        obtain rfl := fillApmGapsAfter_unfilled (t := { t with opts := fillOpts t }) hbit hgaps
        rw [if_pos hbit] at hreq
        exact hreq.symm
      · intro hbit
        obtain ⟨fillers, last, filled⟩ :=
          fillApmGapsAfter_filled (t := { t with opts := fillOpts t }) hbit hends' hgaps
        rw [hgoal, hunits] at filled
        rw [if_neg (by simpa using hbit)] at hreq
        exact ⟨st.apmReq, fillers, last, hreq.symm, filled⟩

end Rectified

section Adjusted

variable {libc : Qsort} {t t1 : Ecma119Image} {curblock imgBlocks : UInt32} {flag : Nat}
  {first : ApmPartitionRequest} {rest : List ApmPartitionRequest}

/-- The sizes fit the 32 bit numbers of the map, and the fillers come last. -/
structure Ordinary (t : Ecma119Image) (curblock imgBlocks : UInt32) : Prop where
  notIsohybrid : t.opts.partLikeIsohybrid = false
  grows : curblock ≤ imgBlocks
  ends : ∀ r ∈ t.apmReq, r.startBlock + r.blockCount < 2 ^ 32
  inUint32 : imgBlocks.toNat * (2048 / (sized t).opts.apmBlockSize) < 2 ^ 32
  lastNonempty : t.apmReqFlags.testBit 1 = false → ∀ r ∈ t.apmReq, 1 < r.startBlock →
    r.blockCount = 0 → ∃ q ∈ t.apmReq, r.startBlock < q.startBlock

/-- The gaps which get filled. -/
def filledGaps (t : Ecma119Image) (limit reached : Nat) (rest : List ApmPartitionRequest) :
    List Extent :=
  if t.apmReqFlags.testBit 1 then [] else gaps Prod.fst Prod.snd limit reached (rest.map extent)

/-- The partitions of the map are the requests and the gaps. -/
structure Adjusted (t : Ecma119Image) (curblock imgBlocks : UInt32)
    (rest others : List ApmPartitionRequest) : Prop where
  sorted : others.Pairwise fun p q => p.startBlock ≤ q.startBlock
  requested : ∀ r ∈ partitions t, r ∈ others
  extents : (others.map extent).Perm (rest.map extent ++ filledGaps t (imgUnits (sized t) imgBlocks)
    (mapEnd t (firstGoal (imgUnits (sized t) curblock) rest)) rest)

theorem Rectified.rest_gt (rectified : Rectified libc t curblock t1 first rest) :
    ∀ r ∈ rest, mapEnd t (firstGoal (imgUnits (sized t) curblock) rest) ≤ r.startBlock := by
  intro r hr
  exact ((fits_iff.mp rectified.fits).2.1 (extent r) (List.mem_map_of_mem hr)).1

theorem careForLast_unfilled (hbit : t.apmReqFlags.testBit 1 = true)
    (rectified : Rectified libc t curblock t1 first rest) :
    careForLast (sized t1) imgBlocks = first :: rest := by
  have hflag : (sized t1).apmReqFlags.testBit 1 = true := by
    rw [rectified.image]
    exact hbit
  rw [careForLast, if_pos hflag]
  exact rectified.unfilled hbit

theorem fillers_gt {apmReq apmReq' fillers : List ApmPartitionRequest} {reached lastGoal : Nat}
    {last : ApmPartitionRequest}
    (filled : Filled apmReq apmReq' reached lastGoal rest fillers last) :
    ∀ f ∈ fillers, reached ≤ f.startBlock := by
  intro f hf
  have hmem : extent f ∈ gaps Prod.fst Prod.snd 0 reached (rest.map extent) := by
    rw [← filled.isGaps 0]
    exact List.mem_append_left _ (List.mem_map_of_mem hf)
  exact (gaps_range (extent f) hmem).1

/-- All requests begin before the final filler. -/
theorem rest_lt (ordinary : Ordinary t curblock imgBlocks) (hbit : t.apmReqFlags.testBit 1 = false)
    (hperm : rest.Perm (partitions t)) {last : ApmPartitionRequest}
    (hle : ∀ r ∈ rest, r.startBlock + r.blockCount ≤ last.startBlock) :
    ∀ r ∈ rest, r.startBlock < last.startBlock := by
  intro r hr
  have hend := hle r hr
  by_cases hempty : r.blockCount = 0
  · obtain ⟨hmem, hstart⟩ := mem_partitions.mp (hperm.mem_iff.mp hr)
    obtain ⟨q, hq, hlt⟩ := ordinary.lastNonempty hbit r hmem hstart hempty
    have hq' := hle q (hperm.mem_iff.mpr (mem_partitions.mpr ⟨hq, by omega⟩))
    omega
  · omega

/-- Sorting puts the map first and the final filler last. -/
theorem sorted_again (hbit : t.apmReqFlags.testBit 1 = false)
    (ordinary : Ordinary t curblock imgBlocks)
    (rectified : Rectified libc t curblock t1 first rest) :
    ∃ fillers last tail, t1.apmReq = first :: tail ++ [last] ∧ tail.Perm (rest ++ fillers) ∧
      (tail ++ [last]).Pairwise (fun p q => p.startBlock ≤ q.startBlock) ∧
      ∀ limit, fillers.map extent ++ gap last.startBlock limit = gaps Prod.fst Prod.snd limit
        (mapEnd t (firstGoal (imgUnits (sized t) curblock) rest)) (rest.map extent) := by
  obtain ⟨apmReq, fillers, last, hreq, filled⟩ := rectified.filled hbit
  have hgt := mapEnd_gt t (firstGoal (imgUnits (sized t) curblock) rest)
  have hself := rectified.self
  have hreached := filled.reached_le
  have hsorted := libc.sorted cmpApm_consistent apmReq
  have hperm := libc.perm cmpApm apmReq
  rw [← hreq] at hsorted hperm
  rw [filled.registered, ← List.append_assoc] at hperm
  obtain ⟨init, hinit, hinitPerm⟩ := sorted_last hsorted hperm (by
    intro x hx
    apply not_cmp_of_start_lt
    rcases List.mem_append.mp hx with hx | hx
    · rcases List.mem_cons.mp hx with rfl | hx
      · omega
      · exact rest_lt ordinary hbit rectified.perm filled.rest_le x hx
    · exact filled.fillers_lt x hx)
  rw [hinit] at hsorted
  obtain ⟨tail, rfl, htail⟩ := sorted_first (List.pairwise_append.mp hsorted).1
    (show init.Perm (first :: (rest ++ fillers)) from hinitPerm) (by
      intro x hx
      apply not_cmp_of_start_lt
      rcases List.mem_append.mp hx with hx | hx
      · have := rectified.rest_gt x hx
        omega
      · have := fillers_gt filled x hx
        omega)
  have hstarts := hsorted.imp start_le_of_cmp
  rw [List.cons_append, List.pairwise_cons] at hstarts
  exact ⟨fillers, last, tail, hinit, htail, hstarts.2, filled.isGaps⟩

theorem extent_resizeLast {units : Nat} (inRange : units < 2 ^ 32) {last : ApmPartitionRequest}
    (h : last.startBlock ≤ units) :
    extent (resizeLast units inRange last) = (last.startBlock, units) := by
  rw [extent, resizeLast_blockCount,
    show (resizeLast _ _ last).startBlock = last.startBlock from rfl,
    Nat.add_sub_cancel' h]

theorem careForLast_filled (hbit : t.apmReqFlags.testBit 1 = false)
    (ordinary : Ordinary t curblock imgBlocks)
    (rectified : Rectified libc t curblock t1 first rest) :
    ∃ others, careForLast (sized t1) imgBlocks = first :: others ∧
      Adjusted t curblock imgBlocks rest others := by
  obtain ⟨fillers, last, tail, hreq, hperm, hsorted, hisGaps⟩ :=
    sorted_again hbit ordinary rectified
  have hmem : ∀ r ∈ partitions t, r ∈ tail := fun r hr =>
    hperm.mem_iff.mpr (List.mem_append_left _ (rectified.perm.mem_iff.mpr hr))
  have hextents := hperm.map extent
  rw [List.map_append] at hextents
  have hflag : (sized t1).apmReqFlags.testBit 1 = false := by
    rw [rectified.image]
    exact hbit
  have hunits : imgUnits (sized t1) imgBlocks = imgUnits (sized t) imgBlocks := by
    rw [rectified.image]
    rfl
  have hcare := @careForLast_concat _ _ imgBlocks _
    (show (sized t1).apmReq = first :: tail ++ [last] from hreq) hflag
  have hgaps := hisGaps (imgUnits (sized t) imgBlocks)
  simp only [hunits] at hcare
  by_cases hend : imgUnits (sized t) imgBlocks ≤ last.startBlock
  · rw [if_pos hend] at hcare
    refine ⟨tail, hcare, (List.pairwise_append.mp hsorted).1, hmem, ?_⟩
    rw [gap, if_neg (by omega), List.append_nil] at hgaps
    rw [filledGaps, if_neg (by simpa using hbit), ← hgaps]
    exact hextents
  · rw [if_neg hend, List.cons_append] at hcare
    refine ⟨_, hcare, ?_, fun r hr => List.mem_append_left _ (hmem r hr), ?_⟩
    · rw [List.pairwise_append] at hsorted ⊢
      refine ⟨hsorted.1, List.pairwise_singleton _ _, ?_⟩
      intro p hp q hq
      obtain rfl := List.mem_singleton.mp hq
      exact hsorted.2.2 p hp last (List.mem_singleton_self last)
    · rw [gap, if_pos (by omega)] at hgaps
      rw [filledGaps, if_neg (by simpa using hbit), ← hgaps, List.map_append, List.map_singleton,
        extent_resizeLast _ (by omega), ← List.append_assoc]
      exact hextents.append_right _

theorem careForLast_adjusted (ordinary : Ordinary t curblock imgBlocks)
    (rectified : Rectified libc t curblock t1 first rest) :
    ∃ others, careForLast (sized t1) imgBlocks = first :: others ∧
      Adjusted t curblock imgBlocks rest others := by
  cases hbit : t.apmReqFlags.testBit 1 with
  | false => exact careForLast_filled hbit ordinary rectified
  | true =>
    refine ⟨rest, careForLast_unfilled hbit rectified, rectified.ordered.imp start_le_of_cmp,
      fun r hr => rectified.perm.mem_iff.mpr hr, ?_⟩
    rw [filledGaps, if_pos hbit, List.append_nil]

end Adjusted

section Written

variable {libc : Qsort} {t t1 : Ecma119Image} {curblock imgBlocks : UInt32} {flag : Nat}
  {first : ApmPartitionRequest} {rest others : List ApmPartitionRequest} {out : ApmOutcome}

/-- The range of an entry in units of `apmBlockSize`. -/
def entryExtent (e : ApmEntry) : Extent := (e.startBlock, e.startBlock + e.blockCount)

/-- The number of APM blocks in a block of 2 KiB. -/
def apmPerBlock (t : Ecma119Image) : Nat := 2048 / (sized t).opts.apmBlockSize

theorem apmPerBlock_pos (t : Ecma119Image) : 0 < apmPerBlock t := by
  rw [apmPerBlock]
  rcases apmBlockSize_cases t with hsize | hsize
  · rw [hsize]
    decide
  · rw [hsize]
    decide

theorem unitFactor_mul_entryFactor (t : Ecma119Image) :
    unitFactor (sized t) * entryFactor (sized t) = apmPerBlock t := by
  rw [unitFactor, entryFactor, apmPerBlock]
  split
  · exact Nat.mul_one _
  · exact Nat.one_mul _

theorem entryFactor_pos (t : Ecma119Image) : 0 < entryFactor (sized t) := by
  have hpos := apmPerBlock_pos t
  rw [← unitFactor_mul_entryFactor] at hpos
  exact Nat.pos_of_mul_pos_left hpos

theorem imgUnits_eq (ordinary : Ordinary t curblock imgBlocks) :
    imgUnits (sized t) imgBlocks = imgBlocks.toNat * unitFactor (sized t) := by
  have hle : imgBlocks.toNat * unitFactor (sized t) ≤ imgBlocks.toNat * apmPerBlock t := by
    rw [← unitFactor_mul_entryFactor]
    exact Nat.mul_le_mul_left _ (Nat.le_mul_of_pos_right _ (entryFactor_pos t))
  exact Nat.mod_eq_of_lt (Nat.lt_of_le_of_lt hle ordinary.inUint32)

theorem imgUnits_le (t : Ecma119Image) (ordinary : Ordinary t curblock imgBlocks) :
    imgUnits (sized t) curblock ≤ imgUnits (sized t) imgBlocks := by
  rw [imgUnits_eq ordinary]
  exact Nat.le_trans (Nat.mod_le _ _)
    (Nat.mul_le_mul_right _ (UInt32.le_iff_toNat_le.mp ordinary.grows))

/-- Where the first gap or partition begins. -/
def reached (t : Ecma119Image) (curblock : UInt32) (rest : List ApmPartitionRequest) : Nat :=
  mapEnd t (firstGoal (imgUnits (sized t) curblock) rest)

theorem count_rest_le (rectified : Rectified libc t curblock t1 first rest) (o : Nat) :
    (rest.map extent).countP (covers Prod.fst Prod.snd o) ≤ 1 := by
  refine pairwise_disjoint_iff.mp ?_ o
  refine (fits_iff.mp rectified.fits).2.2.imp fun hle o ho => ?_
  rw [covers_iff, covers_iff] at ho
  omega

theorem rest_proper : ∀ e ∈ rest.map extent, e.1 ≤ e.2 := by
  intro e he
  obtain ⟨r, -, rfl⟩ := List.mem_map.mp he
  exact extent_proper r

theorem rest_starts (rectified : Rectified libc t curblock t1 first rest) :
    (rest.map extent).Pairwise fun d e => d.1 ≤ e.1 :=
  List.pairwise_map.mpr (rectified.ordered.imp start_le_of_cmp)

/-- No position is covered twice. -/
theorem count_others_le (rectified : Rectified libc t curblock t1 first rest)
    (adjusted : Adjusted t curblock imgBlocks rest others) (o : Nat) :
    (others.map extent).countP (covers Prod.fst Prod.snd o) ≤ 1 := by
  rw [adjusted.extents.countP_eq, List.countP_append, filledGaps]
  have hrest := count_rest_le rectified o
  split
  next => exact hrest
  next =>
    by_cases hcovered : ∃ e ∈ rest.map extent, covers Prod.fst Prod.snd o e = true
    · rw [count_gaps_covered (rest_starts rectified) hcovered]
      exact hrest
    · have hnone : (rest.map extent).countP (covers Prod.fst Prod.snd o) = 0 :=
        List.countP_eq_zero.mpr fun e he hcovers => hcovered ⟨e, he, hcovers⟩
      rw [hnone, Nat.zero_add]
      exact count_gaps_le rest_proper

/-- If gaps get filled, then all positions up to the end of the image are covered. -/
theorem others_cover (hbit : t.apmReqFlags.testBit 1 = false)
    (adjusted : Adjusted t curblock imgBlocks rest others) {o : Nat}
    (hreached : reached t curblock rest ≤ o) (hlimit : o < imgUnits (sized t) imgBlocks) :
    ∃ r ∈ others, covers Prod.fst Prod.snd o (extent r) = true := by
  have hcovered : ∃ e ∈ others.map extent, covers Prod.fst Prod.snd o e = true := by
    by_cases hrest : ∃ e ∈ rest.map extent, covers Prod.fst Prod.snd o e = true
    · obtain ⟨e, he, hcovers⟩ := hrest
      exact ⟨e, adjusted.extents.mem_iff.mpr (List.mem_append_left _ he), hcovers⟩
    · have hcount :=
        @count_gaps_free _ _ _ (imgUnits (sized t) imgBlocks) _ _ _ rest_proper hreached
        hlimit fun e he => Bool.eq_false_iff.mpr fun hcovers => hrest ⟨e, he, hcovers⟩
      obtain ⟨e, he, hcovers⟩ := List.countP_pos_iff.mp (hcount ▸ Nat.one_pos)
      refine ⟨e, adjusted.extents.mem_iff.mpr (List.mem_append_right _ ?_), hcovers⟩
      rw [filledGaps, if_neg (by simpa using hbit)]
      exact he
  obtain ⟨e, he, hcovers⟩ := hcovered
  obtain ⟨r, hr, rfl⟩ := List.mem_map.mp he
  exact ⟨r, hr, hcovers⟩

/-- All partitions lie between the end of the map and the end of the image. -/
theorem others_inside (ordinary : Ordinary t curblock imgBlocks)
    (rectified : Rectified libc t curblock t1 first rest)
    (adjusted : Adjusted t curblock imgBlocks rest others) :
    ∀ r ∈ others, reached t curblock rest ≤ r.startBlock ∧
      r.startBlock + r.blockCount ≤ imgUnits (sized t) imgBlocks := by
  intro r hr
  have hle := imgUnits_le t ordinary
  have hfits := (fits_iff.mp rectified.fits).2.1
  rcases List.mem_append.mp (adjusted.extents.mem_iff.mp (List.mem_map_of_mem hr)) with hmem | hmem
  · obtain ⟨hstart, hend⟩ := hfits (extent r) hmem
    exact ⟨hstart, Nat.le_trans hend hle⟩
  · rw [filledGaps] at hmem
    split at hmem
    next => exact absurd hmem List.not_mem_nil
    next =>
      refine ⟨(gaps_range (extent r) hmem).1, ?_⟩
      rcases gaps_stop (extent r) hmem with hlimit | ⟨e, he, hstop⟩
      · exact Nat.le_of_eq hlimit
      · have hend := (hfits e he).2
        have hproper := rest_proper e he
        rw [extent_snd] at hstop
        omega

/-- The entry of the map itself. -/
def selfEntry (t : Ecma119Image) (mapEntries : Nat) (inRange : 1 + mapEntries < 2 ^ 32)
    (first : ApmPartitionRequest) : ApmEntry :=
  isoWriteApmEntry (sized t) mapEntries true
    { first with
      startBlock := 1, blockCount := mapEntries, inRange := mapEntries_inRange inRange }

/-- The entries behind it. -/
def partitionEntry (t : Ecma119Image) (mapEntries : Nat) : ApmPartitionRequest → ApmEntry :=
  isoWriteApmEntry (sized t) mapEntries false

theorem describeMap_entries {mapEntries : Nat} (inRange : 1 + mapEntries < 2 ^ 32) :
    ((describeMap mapEntries inRange (first :: others)).mapIdx fun i req =>
      isoWriteApmEntry (sized t) mapEntries (i = 0) req) =
    selfEntry t mapEntries inRange first :: others.map (partitionEntry t mapEntries) := by
  rw [describeMap, List.mapIdx_cons]
  refine congrArg _ (List.ext_getElem (by simp) fun i hi hi' => ?_)
  simp [partitionEntry]

/-- The written entries, if there is room for them. -/
structure Outcome (t : Ecma119Image) (others : List ApmPartitionRequest) (first : ApmEntry)
    (entries : List ApmEntry) : Prop where
  room : (entries.length + 1) * (sized t).opts.apmBlockSize ≤ 32768
  first_counted : first.mapEntries = entries.length
  first_extent : entryExtent first = (1, 1 + entries.length)
  entries_eq : entries = first :: others.map (partitionEntry t entries.length)

theorem careForLast_nonempty (h : careForLast (sized t1) imgBlocks = first :: others) :
    t1.apmReq ≠ [] := by
  intro hnil
  have hnone : careForLast (sized t1) imgBlocks = [] := by
    simp [careForLast, sized, hnil, adjustLast]
  rw [hnone] at h
  cases h

theorem isoWriteApm_outcome (himage : sized t1 = { sized t with apmReq := t1.apmReq })
    (hcare : careForLast (sized t1) imgBlocks = first :: others)
    (h : isoWriteApm t1 imgBlocks flag = .ok out) :
    ∃ first, Outcome t others first out.entries := by
  have hentry : isoWriteApmEntry (sized t1) = isoWriteApmEntry (sized t) := by
    rw [himage]
    rfl
  rw [isoWriteApm, if_neg (careForLast_nonempty hcare), hcare, writeAdjustedApm] at h
  split at h
  next => cases h
  next hroom =>
    have hentries := congrArg ApmOutcome.entries (Except.ok.inj h)
    simp only [hentry, describeMap_entries] at hentries
    have hlength : (first :: others).length = out.entries.length := by
      rw [← hentries]
      simp
    rw [show (sized t1).opts = (sized t).opts by rw [himage]] at hroom
    have inRange : 1 + (first :: others).length < 2 ^ 32 := mapEntries_lt hroom
    refine ⟨selfEntry t (first :: others).length inRange first, ?_, ?_, ?_, ?_⟩
    · rw [← hlength]
      exact Nat.not_lt.mp hroom
    · exact hlength
    · rw [← hlength]
      simp only [entryExtent, selfEntry, isoWriteApmEntry, if_true, Nat.mul_one]
      rw [Nat.mod_eq_of_lt (by omega), Nat.mod_eq_of_lt (by omega)]
    · rw [← hlength]
      exact hentries.symm

theorem covers_scaled {k o : Nat} (hk : 0 < k) (e : Extent) :
    covers Prod.fst Prod.snd o (e.1 * k, e.2 * k) = covers Prod.fst Prod.snd (o / k) e := by
  simp only [covers, Nat.le_div_iff_mul_le hk, Nat.div_lt_iff_lt_mul hk]

theorem imgUnits_scaled (ordinary : Ordinary t curblock imgBlocks) :
    imgUnits (sized t) imgBlocks * entryFactor (sized t) = imgBlocks.toNat * apmPerBlock t := by
  rw [imgUnits_eq ordinary, Nat.mul_assoc, unitFactor_mul_entryFactor]

/-- No number of an entry wraps around. -/
theorem partitionEntry_extent (ordinary : Ordinary t curblock imgBlocks) {mapEntries : Nat}
    {r : ApmPartitionRequest} (h : r.startBlock + r.blockCount ≤ imgUnits (sized t) imgBlocks) :
    (partitionEntry t mapEntries r).startBlock = r.startBlock * entryFactor (sized t) ∧
      (partitionEntry t mapEntries r).blockCount = r.blockCount * entryFactor (sized t) ∧
      entryExtent (partitionEntry t mapEntries r) =
        ((extent r).1 * entryFactor (sized t), (extent r).2 * entryFactor (sized t)) := by
  have hlt : (r.startBlock + r.blockCount) * entryFactor (sized t) < 2 ^ 32 := by
    refine Nat.lt_of_le_of_lt (Nat.mul_le_mul_right _ h) ?_
    rw [imgUnits_scaled ordinary]
    exact ordinary.inUint32
  rw [Nat.add_mul] at hlt
  have hstartLt : r.startBlock * entryFactor (sized t) < 2 ^ 32 := by omega
  have hcountLt : r.blockCount * entryFactor (sized t) < 2 ^ 32 := by omega
  have hstart : (partitionEntry t mapEntries r).startBlock =
      r.startBlock * entryFactor (sized t) := Nat.mod_eq_of_lt hstartLt
  have hcount : (partitionEntry t mapEntries r).blockCount =
      r.blockCount * entryFactor (sized t) := Nat.mod_eq_of_lt hcountLt
  refine ⟨hstart, hcount, ?_⟩
  rw [entryExtent, hstart, hcount, extent_fst, extent_snd, Nat.add_mul]

/-- The map describes the requested partitions and what is between them and the end of
the image. The first entry is the one of the map itself. -/
structure CoversImage (t : Ecma119Image) (curblock imgBlocks : UInt32) (entries : List ApmEntry) :
    Prop where
  bounded : entries.length ≤ 63
  counted : ∀ e ∈ entries, e.mapEntries = entries.length
  self : entries.head?.map entryExtent = some (1, 1 + entries.length)
  sorted : entries.Pairwise fun d e => d.startBlock ≤ e.startBlock
  disjoint : (entries.tail.map entryExtent).Pairwise (Disjoint Prod.fst Prod.snd)
  mapApart : 16 ≤ curblock → (∀ r ∈ partitions t, 16 * unitFactor (sized t) ≤ r.startBlock) →
    (entries.map entryExtent).Pairwise (Disjoint Prod.fst Prod.snd)
  requested : ∀ r ∈ partitions t, ∃ e ∈ entries.tail,
    e.startBlock = r.startBlock * entryFactor (sized t) ∧
      e.blockCount = r.blockCount * entryFactor (sized t) ∧ e.name = r.name ∧ e.type = r.type
  covered : t.apmReqFlags.testBit 1 = false → ∀ b < imgBlocks.toNat * apmPerBlock t,
    (16 * apmPerBlock t ≤ b ∨ ∃ r ∈ partitions t, r.startBlock * entryFactor (sized t) ≤ b) →
    ∃ e ∈ entries.tail, covers Prod.fst Prod.snd b (entryExtent e) = true

section Conclusions

variable {firstEntry : ApmEntry} {entries : List ApmEntry}

theorem Outcome.bounded (outcome : Outcome t others firstEntry entries) :
    entries.length + 1 ≤ 16 * apmPerBlock t := by
  have hroom := outcome.room
  rw [apmPerBlock]
  rcases apmBlockSize_cases t with hsize | hsize
  · rw [hsize] at hroom ⊢
    omega
  · rw [hsize] at hroom ⊢
    omega

theorem apmPerBlock_le (t : Ecma119Image) : apmPerBlock t ≤ 4 := by
  rw [apmPerBlock]
  rcases apmBlockSize_cases t with hsize | hsize
  · rw [hsize]
  · rw [hsize]
    decide

theorem Outcome.counted (outcome : Outcome t others firstEntry entries) :
    ∀ e ∈ entries, e.mapEntries = entries.length := by
  intro e he
  rw [outcome.entries_eq] at he
  rcases List.mem_cons.mp he with rfl | hmem
  · exact outcome.first_counted
  · obtain ⟨r, -, rfl⟩ := List.mem_map.mp hmem
    rfl

theorem Outcome.tail_eq (outcome : Outcome t others firstEntry entries) :
    entries.tail = others.map (partitionEntry t entries.length) :=
  congrArg List.tail outcome.entries_eq

variable (ordinary : Ordinary t curblock imgBlocks)
  (rectified : Rectified libc t curblock t1 first rest)
  (adjusted : Adjusted t curblock imgBlocks rest others)
  (outcome : Outcome t others firstEntry entries)

include ordinary rectified

theorem reached_eq (hlarge : 16 ≤ curblock)
    (hbehind : ∀ r ∈ partitions t, 16 * unitFactor (sized t) ≤ r.startBlock) :
    reached t curblock rest = 16 * unitFactor (sized t) := by
  rw [reached, mapEnd, if_neg]
  rintro ⟨hlt, -⟩
  cases rest with
  | nil =>
    have hlarge' : 16 ≤ curblock.toNat := UInt32.le_iff_toNat_le.mp hlarge
    have hgrows := UInt32.le_iff_toNat_le.mp ordinary.grows
    have hmul := Nat.mul_le_mul_right (unitFactor (sized t)) hgrows
    have hunits : imgUnits (sized t) curblock = curblock.toNat * unitFactor (sized t) := by
      refine Nat.mod_eq_of_lt (Nat.lt_of_le_of_lt hmul ?_)
      rw [← imgUnits_eq ordinary]
      exact imgUnits_lt _ _
    rw [firstGoal, hunits] at hlt
    have hge := Nat.mul_le_mul_right (unitFactor (sized t)) hlarge'
    omega
  | cons r rest =>
    rw [firstGoal] at hlt
    have hge := hbehind r (rectified.perm.mem_iff.mp (List.mem_cons_self ..))
    omega

include adjusted

/-- The entries of the partitions and their extents. -/
theorem mem_entries {r : ApmPartitionRequest} (hr : r ∈ others) (mapEntries : Nat) :
    (partitionEntry t mapEntries r).startBlock = r.startBlock * entryFactor (sized t) ∧
      (partitionEntry t mapEntries r).blockCount = r.blockCount * entryFactor (sized t) ∧
      entryExtent (partitionEntry t mapEntries r) =
        ((extent r).1 * entryFactor (sized t), (extent r).2 * entryFactor (sized t)) :=
  partitionEntry_extent ordinary (others_inside ordinary rectified adjusted r hr).2

include outcome

theorem Outcome.sorted : entries.Pairwise fun d e => d.startBlock ≤ e.startBlock := by
  have hfirst : firstEntry.startBlock = 1 := congrArg Prod.fst outcome.first_extent
  have hk := entryFactor_pos t
  rw [outcome.entries_eq, List.pairwise_cons]
  constructor
  · intro e he
    obtain ⟨r, hr, rfl⟩ := List.mem_map.mp he
    have hstart := (mem_entries ordinary rectified adjusted hr entries.length).1
    have hgt := (others_inside ordinary rectified adjusted r hr).1
    have hmap := mapEnd_gt t (firstGoal (imgUnits (sized t) curblock) rest)
    have hscaled := Nat.le_mul_of_pos_right r.startBlock hk
    rw [reached] at hgt
    omega
  · rw [List.pairwise_map]
    refine adjusted.sorted.imp_of_mem fun hp hq hle => ?_
    rw [(mem_entries ordinary rectified adjusted hp entries.length).1,
      (mem_entries ordinary rectified adjusted hq entries.length).1]
    exact Nat.mul_le_mul_right _ hle

theorem Outcome.disjoint :
    (entries.tail.map entryExtent).Pairwise (Disjoint Prod.fst Prod.snd) := by
  have hall : (others.map extent).Pairwise (Disjoint Prod.fst Prod.snd) :=
    pairwise_disjoint_iff.mpr (count_others_le rectified adjusted)
  rw [outcome.tail_eq, List.map_map, List.pairwise_map]
  rw [List.pairwise_map] at hall
  refine hall.imp_of_mem fun hp hq hdisjoint => ?_
  intro o ho
  simp only [Function.comp, (mem_entries ordinary rectified adjusted hp entries.length).2.2,
    (mem_entries ordinary rectified adjusted hq entries.length).2.2,
    covers_scaled (entryFactor_pos t)] at ho
  exact hdisjoint _ ho

theorem Outcome.mapApart (hlarge : 16 ≤ curblock)
    (hbehind : ∀ r ∈ partitions t, 16 * unitFactor (sized t) ≤ r.startBlock) :
    (entries.map entryExtent).Pairwise (Disjoint Prod.fst Prod.snd) := by
  have htail := outcome.disjoint ordinary rectified adjusted
  have hbounded := outcome.bounded
  rw [outcome.tail_eq] at htail
  rw [outcome.entries_eq, List.map_cons, List.pairwise_cons, outcome.first_extent]
  refine ⟨fun x hx o ho => ?_, htail⟩
  obtain ⟨e, he, rfl⟩ := List.mem_map.mp hx
  obtain ⟨r, hr, rfl⟩ := List.mem_map.mp he
  have hstart := (others_inside ordinary rectified adjusted r hr).1
  rw [reached_eq ordinary rectified hlarge hbehind] at hstart
  have hscaled := Nat.mul_le_mul_right (entryFactor (sized t)) hstart
  rw [Nat.mul_assoc, unitFactor_mul_entryFactor] at hscaled
  rw [(mem_entries ordinary rectified adjusted hr entries.length).2.2, covers_iff, covers_iff,
    extent_fst] at ho
  omega

theorem Outcome.requested :
    ∀ r ∈ partitions t, ∃ e ∈ entries.tail,
      e.startBlock = r.startBlock * entryFactor (sized t) ∧
        e.blockCount = r.blockCount * entryFactor (sized t) ∧ e.name = r.name ∧
        e.type = r.type := by
  intro r hr
  have hmem := adjusted.requested r hr
  obtain ⟨hstart, hcount, -⟩ := mem_entries ordinary rectified adjusted hmem entries.length
  refine ⟨partitionEntry t entries.length r, ?_, hstart, hcount, rfl, rfl⟩
  rw [outcome.tail_eq]
  exact List.mem_map_of_mem hmem

theorem Outcome.covered (hbit : t.apmReqFlags.testBit 1 = false) {b : Nat}
    (hlimit : b < imgBlocks.toNat * apmPerBlock t)
    (hbegin : 16 * apmPerBlock t ≤ b ∨
      ∃ r ∈ partitions t, r.startBlock * entryFactor (sized t) ≤ b) :
    ∃ e ∈ entries.tail, covers Prod.fst Prod.snd b (entryExtent e) = true := by
  have hk := entryFactor_pos t
  have hreached : reached t curblock rest ≤ b / entryFactor (sized t) := by
    rcases hbegin with hle | ⟨r, hr, hle⟩
    · rw [← unitFactor_mul_entryFactor, ← Nat.mul_assoc] at hle
      exact Nat.le_trans (mapEnd_le t _) ((Nat.le_div_iff_mul_le hk).mpr hle)
    · exact Nat.le_trans (rectified.rest_gt r (rectified.perm.mem_iff.mpr hr))
        ((Nat.le_div_iff_mul_le hk).mpr hle)
  have hend : b / entryFactor (sized t) < imgUnits (sized t) imgBlocks := by
    rw [Nat.div_lt_iff_lt_mul hk, imgUnits_scaled ordinary]
    exact hlimit
  obtain ⟨r, hr, hcovers⟩ := others_cover hbit adjusted hreached hend
  refine ⟨partitionEntry t entries.length r, ?_, ?_⟩
  · rw [outcome.tail_eq]
    exact List.mem_map_of_mem hr
  · rw [(mem_entries ordinary rectified adjusted hr entries.length).2.2, covers_scaled hk]
    exact hcovers

end Conclusions

/-- The map which gets written after the gaps were filled covers the image. -/
theorem written_covers (hsome : t.apmReq ≠ []) (ordinary : Ordinary t curblock imgBlocks)
    (hrectify : rectifyApm libc t curblock = .ok t1)
    (hwrite : isoWriteApm t1 imgBlocks flag = .ok out) :
    CoversImage t curblock imgBlocks out.entries := by
  obtain ⟨first, rest, rectified⟩ := rectifyApm_ok hsome ordinary.notIsohybrid ordinary.ends hrectify
  obtain ⟨others, hcare, adjusted⟩ := careForLast_adjusted ordinary rectified
  obtain ⟨firstEntry, outcome⟩ := isoWriteApm_outcome rectified.image hcare hwrite
  have hbounded := outcome.bounded
  have hper := apmPerBlock_le t
  exact {
    bounded := by omega
    counted := outcome.counted
    self := by
      rw [outcome.entries_eq, List.head?_cons, Option.map_some, outcome.first_extent,
        ← outcome.entries_eq]
    sorted := outcome.sorted ordinary rectified adjusted
    disjoint := outcome.disjoint ordinary rectified adjusted
    mapApart := outcome.mapApart ordinary rectified adjusted
    requested := outcome.requested ordinary rectified adjusted
    covered := fun hbit b hlimit hbegin =>
      outcome.covered ordinary rectified adjusted hbit hlimit hbegin }

end Written

section Examples

def smallPartition : ApmPartitionRequest := ⟨30, 20, "HFS", "Apple_HFS", false, by decide⟩

theorem smallBackup_pos : 0 < 4 := by decide

def smallImage : Ecma119Image :=
  ⟨⟨false, 0, 0, 0, zeroUuid, by decide⟩, 0, 100, 63, 255, [smallPartition], 0, [], [], 0, 100, 4,
    0, 0, by decide, smallBackup_pos, by decide⟩

theorem smallImage_ordinary : Ordinary smallImage 90 100 where
  notIsohybrid := rfl
  grows := by decide
  ends := by decide
  inUint32 := by decide
  lastNonempty := by decide

/-- The gaps before and behind the partition got filled. -/
def rectifiedImage : Ecma119Image :=
  { smallImage with
    apmReq := [apmSelf, ⟨16, 14, "Gap0", "ISO9660_data", true, by decide⟩, smallPartition,
      ⟨50, 40, "Gap1", "ISO9660_data", true, by decide⟩] }

theorem rectifyApm_small : rectifyApm smallQsort smallImage 90 = .ok rectifiedImage := rfl

theorem written_covers_small : ∃ out, isoWriteApm rectifiedImage 100 0 = .ok out ∧
    CoversImage smallImage 90 100 out.entries := by
  obtain ⟨out, hout⟩ : ∃ out, isoWriteApm rectifiedImage 100 0 = .ok out := ⟨_, rfl⟩
  exact ⟨out, hout, written_covers (by decide) smallImage_ordinary rectifyApm_small hout⟩

/-- The map has blocks 1 to 4, and its partitions begin at block 16. -/
theorem system_area_uncovered :
    ∃ t1 out, rectifyApm smallQsort smallImage 90 = .ok t1 ∧
      isoWriteApm t1 100 0 = .ok out ∧ out.entries.length = 4 ∧
      ∀ e ∈ out.entries, covers Prod.fst Prod.snd 10 (entryExtent e) = false := by
  refine ⟨rectifiedImage, _, rectifyApm_small, rfl, rfl, ?_⟩
  decide

end Examples

end ApmCover
