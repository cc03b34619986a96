import Libisofs.GptReadBack

/-!
# Overlapping GPT partitions

iso_analyze_gpt() registers the entries of an imported GPT and tells whether they overlap. It
takes an entry which ends directly before an earlier one of the array for an overlap.
-/

namespace GptOverlap

open ByteBuffers SystemAreaTables GptBlocks GptReadBack

/-- The comparison of two requests. -/
def overlapPair (r q : GptRequest) : Bool :=
  let startBlock := r.startBlock
  let endBlock := startBlock + r.blockCount
  let jStart := q.startBlock
  let jEnd := jStart + q.blockCount
  (startBlock ≤ jStart && jStart < endBlock) || (startBlock ≤ jEnd && jEnd < endBlock) ||
    (jStart ≤ startBlock && startBlock < jEnd)

/-- The loops over all pairs. -/
def overlapLoop : List GptRequest → Bool
  | [] => false
  | r :: rest =>
    (r.blockCount != 0 && rest.any fun q => q.blockCount != 0 && overlapPair r q) ||
      overlapLoop rest

/-- `mayOverlap` is bit 0 of `gpt_req_flags`. -/
structure Analysis where
  ret : Int
  reqs : List GptRequest
  mayOverlap : Bool

/-- As isoAnalyzeGpt, with the registered requests and the flag. -/
def isoAnalyzeGpt (sad : Buffer) (src : DataSource) : Analysis :=
  let head := isoAnalyzeGptHead sad src
  if head.ret ≤ 0 then ⟨head.ret, [], false⟩
  else
    let info := gptInfo sad
    let (ret, reqs, _) := gptEntries sad info.partStart (toInt info.maxEntries).toNat 0 []
    if ret < 0 then ⟨ret, reqs, false⟩ else ⟨ret, reqs, overlapLoop reqs⟩

/-! ## The entries of the array -/

/-- The byte address of an entry. -/
def partOf (sad : Buffer) (i : Nat) : Nat := ((gptInfo sad).partStart * 512).toNat + 128 * i

def startLba (sad : Buffer) (i : Nat) : Nat := (isoReadLsb64 sad (partOf sad i + 32)).toNat

def endLba (sad : Buffer) (i : Nat) : Nat := (isoReadLsb64 sad (partOf sad i + 40)).toNat

/-- An entry is empty if both addresses are 0, or if the end is before the start. -/
def Used (sad : Buffer) (i : Nat) : Prop :=
  ¬ (startLba sad i = 0 ∧ endLba sad i = 0) ∧ startLba sad i ≤ endLba sad i

def maxEntries (sad : Buffer) : Nat := (gptInfo sad).maxEntries.toNat

/-- Two different entries have a block in common. -/
def Overlap (sad : Buffer) : Prop :=
  ∃ i j, i ≠ j ∧ i < maxEntries sad ∧ j < maxEntries sad ∧ Used sad i ∧ Used sad j ∧
    ∃ b, startLba sad i ≤ b ∧ b ≤ endLba sad i ∧ startLba sad j ≤ b ∧ b ≤ endLba sad j

structure AnalysisExact (sad : Buffer) (src : DataSource) : Prop where
  completed : (isoAnalyzeGpt sad src).ret = 1
  flag : (isoAnalyzeGpt sad src).mayOverlap = true ↔ Overlap sad
  registered : ∀ i < maxEntries sad, Used sad i → ∃ r ∈ (isoAnalyzeGpt sad src).reqs, r.idx = i + 1
  described : ∀ r ∈ (isoAnalyzeGpt sad src).reqs, ∃ i < maxEntries sad, r.idx = i + 1 ∧
    r.startBlock.toNat = startLba sad i ∧
    r.startBlock.toNat + r.blockCount.toNat = endLba sad i + 1

/-- The reader does not skip the entry. -/
def Kept (sad : Buffer) (i : Nat) : Prop :=
  ¬ (startLba sad i = 0 ∧ endLba sad i = 0) ∧ startLba sad i ≤ (endLba sad i + 1) % 2 ^ 64

instance (sad : Buffer) (i : Nat) : Decidable (Kept sad i) := inferInstanceAs (Decidable (_ ∧ _))

/-- The number of entries as the loop sees it. -/
def loopEntries (sad : Buffer) : Nat := (toInt (gptInfo sad).maxEntries).toNat

structure Harmless (sad : Buffer) : Prop where
  counted : ∀ i < maxEntries sad, Used sad i → i < loopEntries sad
  few : ((List.range (loopEntries sad)).filter (Kept sad ·)).length ≤ 248
  ends : ∀ i < maxEntries sad, Used sad i → endLba sad i + 1 < 2 ^ 64
  apart : Overlap sad ∨ ∀ j < maxEntries sad, ∀ i < j, Used sad i → Used sad j →
    endLba sad j + 1 ≠ startLba sad i

section Registration

variable {sad : Buffer} {i n : Nat} {reqs : List GptRequest}

/-- The request for entry number `i`, counted from 0. -/
def request (sad : Buffer) (i : Nat) : GptRequest :=
  ⟨isoReadLsb64 sad (partOf sad i + 32),
    isoReadLsb64 sad (partOf sad i + 40) + 1 - isoReadLsb64 sad (partOf sad i + 32),
    isoReadLsb64 sad (partOf sad i + 48), slice sad (partOf sad i) 16,
    slice sad (partOf sad i + 16) 16, slice sad (partOf sad i + 56) 72, i + 1⟩

theorem skipped_iff_not_kept :
    (slice sad (partOf sad i) 128 = List.replicate 128 0 ||
      (isoReadLsb64 sad (partOf sad i + 32) = 0 && isoReadLsb64 sad (partOf sad i + 40) = 0) ||
        decide (isoReadLsb64 sad (partOf sad i + 40) + 1 < isoReadLsb64 sad (partOf sad i + 32)))
      = true ↔ ¬ Kept sad i := by
  have hzero (x : UInt64) : x = 0 ↔ x.toNat = 0 := by
    rw [← UInt64.toNat_inj]
    rfl
  have hnext : isoReadLsb64 sad (partOf sad i + 40) + 1 < isoReadLsb64 sad (partOf sad i + 32) ↔
      (endLba sad i + 1) % 2 ^ 64 < startLba sad i := by
    rw [UInt64.lt_iff_toNat_lt, UInt64.toNat_add]
    rfl
  have hboth : isoReadLsb64 sad (partOf sad i + 32) = 0 ∧
      isoReadLsb64 sad (partOf sad i + 40) = 0 ↔ startLba sad i = 0 ∧ endLba sad i = 0 :=
    and_congr (hzero _) (hzero _)
  rw [Kept, not_and_or, not_not, Nat.not_le, ← hnext, ← hboth]
  simp only [Bool.or_eq_true, Bool.and_eq_true, decide_eq_true_eq]
  constructor
  · rintro ((hall | hboth) | hless)
    · exact Or.inl ⟨read_allZero hall (by decide), read_allZero hall (by decide)⟩
    · exact Or.inl hboth
    · exact Or.inr hless
  · rintro (hboth | hless)
    · exact Or.inl (Or.inr hboth)
    · exact Or.inr hless

/-- The requests for the entries which are kept. -/
def keptRequests (sad : Buffer) (i n : Nat) : List GptRequest :=
  ((List.range' i n).filter (Kept sad ·)).map (request sad)

/-- The return value and the requests. -/
def registered (sad : Buffer) (n i : Nat) (reqs : List GptRequest) : Int × List GptRequest :=
  ((gptEntries sad (gptInfo sad).partStart n i reqs).1,
    (gptEntries sad (gptInfo sad).partStart n i reqs).2.1)

theorem registered_skip (h : ¬ Kept sad i) :
    registered sad (n + 1) i reqs = registered sad n (i + 1) reqs := by
  have hskip := skipped_iff_not_kept.mpr h
  rw [partOf] at hskip
  rw [registered, gptEntries]
  dsimp only
  rw [if_pos hskip]
  rfl

theorem registered_full (h : Kept sad i) (hfull : 248 ≤ reqs.length) :
    registered sad (n + 1) i reqs = (isoBootTooManyGpt, reqs) := by
  have hkeep := skipped_iff_not_kept.not.mpr (not_not.mpr h)
  rw [partOf] at hkeep
  rw [registered, gptEntries]
  dsimp only
  rw [if_neg hkeep, if_pos (show SystemAreaTables.isoGptEntriesMax ≤ reqs.length from hfull)]

theorem registered_keep (h : Kept sad i) (hroom : reqs.length < 248) :
    registered sad (n + 1) i reqs = registered sad n (i + 1) (reqs ++ [request sad i]) := by
  have hkeep := skipped_iff_not_kept.not.mpr (not_not.mpr h)
  rw [partOf] at hkeep
  rw [registered, gptEntries]
  dsimp only
  rw [if_neg hkeep, if_neg (show ¬ SystemAreaTables.isoGptEntriesMax ≤ reqs.length from
    Nat.not_le.mpr hroom)]
  rfl

theorem keptRequests_succ (sad : Buffer) (i n : Nat) : keptRequests sad i (n + 1) =
    if Kept sad i then request sad i :: keptRequests sad (i + 1) n
    else keptRequests sad (i + 1) n := by
  rw [keptRequests, List.range'_succ, List.filter_cons]
  by_cases h : Kept sad i
  · rw [decide_eq_true h, if_pos rfl, if_pos h]
    rfl
  · rw [decide_eq_false h, if_neg Bool.false_ne_true, if_neg h]
    rfl

/-- Either all kept entries get registered, or there are too many of them. -/
theorem registered_cases (hroom : reqs.length ≤ 248) :
    (reqs.length + (keptRequests sad i n).length ≤ 248 ∧
      registered sad n i reqs = (1, reqs ++ keptRequests sad i n)) ∨
    (248 < reqs.length + (keptRequests sad i n).length ∧
      (registered sad n i reqs).1 = isoBootTooManyGpt) := by
  induction n generalizing i reqs with
  | zero =>
    left
    refine ⟨hroom, ?_⟩
    rw [registered, gptEntries]
    exact congrArg _ (List.append_nil _).symm
  | succ n ih =>
    rw [keptRequests_succ]
    by_cases hkept : Kept sad i
    · rw [if_pos hkept, List.length_cons]
      by_cases hfull : 248 ≤ reqs.length
      · right
        rw [registered_full hkept hfull]
        exact ⟨by omega, rfl⟩
      · rw [registered_keep hkept (Nat.not_le.mp hfull)]
        have hnext := @ih (i + 1) (reqs ++ [request sad i]) (by
          rw [List.length_append, List.length_singleton]
          omega)
        rw [List.append_assoc, List.singleton_append, List.length_append,
          List.length_singleton] at hnext
        rw [← Nat.add_assoc, Nat.add_right_comm]
        exact hnext
    · rw [if_neg hkept, registered_skip hkept]
      exact ih hroom

end Registration

section Pairs

variable {sad : Buffer} {i j : Nat}

/-- Both requests have blocks, and the comparison finds an overlap. -/
def hit (r q : GptRequest) : Bool := r.blockCount != 0 && (q.blockCount != 0 && overlapPair r q)

theorem overlapLoop_iff {reqs : List GptRequest} :
    overlapLoop reqs = true ↔ ¬ reqs.Pairwise fun r q => ¬ hit r q = true := by
  induction reqs with
  | nil => simp [overlapLoop]
  | cons r rest ih =>
    rw [overlapLoop, Bool.or_eq_true, ih, List.pairwise_cons, not_and_or]
    refine or_congr_left ?_
    simp only [hit, Bool.and_eq_true, List.any_eq_true, not_forall, not_not, exists_prop]
    constructor
    · rintro ⟨hr, q, hq, hpair⟩
      exact ⟨q, hq, hr, hpair⟩
    · rintro ⟨q, hq, hr, hpair⟩
      exact ⟨hr, q, hq, hpair⟩

theorem pairwise_range {R : Nat → Nat → Prop} {n : Nat} :
    (List.range n).Pairwise R ↔ ∀ j < n, ∀ i < j, R i j := by
  induction n with
  | zero => simp
  | succ n ih =>
    rw [List.range_succ, List.pairwise_append, ih]
    simp only [List.pairwise_cons, List.not_mem_nil, List.Pairwise.nil, List.mem_range,
      List.mem_singleton, forall_eq, false_imp_iff, implies_true, and_true, true_and]
    constructor
    · rintro ⟨hless, hlast⟩ j hj i hi
      rcases Nat.lt_succ_iff_lt_or_eq.mp hj with hj | rfl
      · exact hless j hj i hi
      · exact hlast i hi
    · intro h
      exact ⟨fun j hj => h j (Nat.lt_succ_of_lt hj), h n (Nat.lt_succ_self n)⟩

theorem startLba_lt (sad : Buffer) (i : Nat) : startLba sad i < 2 ^ 64 := UInt64.toNat_lt _

theorem endLba_lt (sad : Buffer) (i : Nat) : endLba sad i < 2 ^ 64 := UInt64.toNat_lt _

theorem request_startBlock : (request sad i).startBlock.toNat = startLba sad i := rfl

theorem request_blockCount : (request sad i).blockCount.toNat =
    (2 ^ 64 - startLba sad i + (endLba sad i + 1) % 2 ^ 64) % 2 ^ 64 := by
  show (isoReadLsb64 sad (partOf sad i + 40) + 1 - isoReadLsb64 sad (partOf sad i + 32)).toNat = _
  rw [UInt64.toNat_sub, UInt64.toNat_add]
  rfl

/-- The number of blocks of a kept entry which does not end at the last address. -/
theorem blockCount_kept (hkept : Kept sad i) (hend : endLba sad i + 1 < 2 ^ 64) :
    (request sad i).blockCount.toNat = endLba sad i + 1 - startLba sad i := by
  have hle := hkept.2
  have hlt := startLba_lt sad i
  rw [request_blockCount]
  omega

theorem Used.kept (hused : Used sad i) (hend : endLba sad i + 1 < 2 ^ 64) : Kept sad i := by
  refine ⟨hused.1, ?_⟩
  have hle := hused.2
  omega

/-- A kept entry which ends at the last address begins at block 0, and gets registered with no
blocks. -/
theorem Kept.start_eq (hkept : Kept sad i) (hend : ¬ endLba sad i + 1 < 2 ^ 64) :
    startLba sad i = 0 := by
  have hle := hkept.2
  have hlt := endLba_lt sad i
  omega

theorem used_of_end (hkept : Kept sad i) (hend : ¬ endLba sad i + 1 < 2 ^ 64) : Used sad i :=
  ⟨hkept.1, by rw [hkept.start_eq hend]; exact Nat.zero_le _⟩

/-- With kept entries, the comparison finds what it shall find, and the end of the later one
directly before the start of the earlier one. -/
theorem hit_iff (hi : Kept sad i) (hj : Kept sad j) (hiend : endLba sad i + 1 < 2 ^ 64)
    (hjend : endLba sad j + 1 < 2 ^ 64) : hit (request sad i) (request sad j) = true ↔
      Used sad i ∧ Used sad j ∧ (startLba sad i ≤ endLba sad j ∧ startLba sad j ≤ endLba sad i ∨
        endLba sad j + 1 = startLba sad i) := by
  have hicount := blockCount_kept hi hiend
  have hjcount := blockCount_kept hj hjend
  have hne (x : UInt64) : (x != 0) = true ↔ x.toNat ≠ 0 := by
    rw [bne_iff_ne, ne_eq, ← UInt64.toNat_inj]
    rfl
  have hile := hi.2
  have hjle := hj.2
  have hisum : ((request sad i).startBlock + (request sad i).blockCount).toNat =
      endLba sad i + 1 := by
    rw [UInt64.toNat_add, request_startBlock, hicount]
    omega
  have hjsum : ((request sad j).startBlock + (request sad j).blockCount).toNat =
      endLba sad j + 1 := by
    rw [UInt64.toNat_add, request_startBlock, hjcount]
    omega
  rw [hit, Bool.and_eq_true, Bool.and_eq_true, hne, hne, hicount, hjcount, overlapPair, Used, Used]
  simp only [Bool.or_eq_true, Bool.and_eq_true, decide_eq_true_eq, UInt64.le_iff_toNat_le,
    UInt64.lt_iff_toNat_lt, hisum, hjsum, request_startBlock, hi.1, hj.1, not_false_eq_true,
    true_and]
  omega

end Pairs

section Main

variable {sad : Buffer} {src : DataSource}

theorem isoAnalyzeGpt_cases (haccepted : 0 < (isoAnalyzeGptHead sad src).ret) :
    ((keptRequests sad 0 (loopEntries sad)).length ≤ 248 ∧ isoAnalyzeGpt sad src =
      ⟨1, keptRequests sad 0 (loopEntries sad), overlapLoop (keptRequests sad 0 (loopEntries sad))⟩) ∨
    (248 < (keptRequests sad 0 (loopEntries sad)).length ∧ (isoAnalyzeGpt sad src).ret ≠ 1) := by
  have hcases := @registered_cases sad 0 (loopEntries sad) [] (Nat.zero_le _)
  rw [List.length_nil, Nat.zero_add, List.nil_append] at hcases
  rw [isoAnalyzeGpt]
  dsimp only
  rw [if_neg (Int.not_le.mpr haccepted)]
  rcases hcases with ⟨hroom, hrun⟩ | ⟨hmany, hret⟩
  · left
    obtain ⟨hret, hreqs⟩ := Prod.mk.inj hrun
    refine ⟨hroom, ?_⟩
    rw [loopEntries] at hret hreqs
    rw [hret, hreqs, if_neg (by decide)]
    rfl
  · right
    refine ⟨hmany, ?_⟩
    rw [registered, loopEntries] at hret
    dsimp only at hret
    rw [hret, if_pos (by decide)]
    exact show isoBootTooManyGpt ≠ 1 by decide

theorem mem_keptRequests {r : GptRequest} {n : Nat} :
    r ∈ keptRequests sad 0 n ↔ ∃ i < n, Kept sad i ∧ r = request sad i := by
  simp only [keptRequests, ← List.range_eq_range', List.mem_map, List.mem_filter, List.mem_range,
    decide_eq_true_eq]
  constructor
  · rintro ⟨i, ⟨hi, hkept⟩, rfl⟩
    exact ⟨i, hi, hkept, rfl⟩
  · rintro ⟨i, hi, hkept, rfl⟩
    exact ⟨i, ⟨hi, hkept⟩, rfl⟩

theorem length_keptRequests (n : Nat) :
    (keptRequests sad 0 n).length = ((List.range n).filter (Kept sad ·)).length := by
  rw [keptRequests, ← List.range_eq_range', List.length_map]

theorem overlapLoop_kept {n : Nat} : overlapLoop (keptRequests sad 0 n) = true ↔
    ∃ j < n, ∃ i < j, Kept sad i ∧ Kept sad j ∧ hit (request sad i) (request sad j) = true := by
  rw [overlapLoop_iff, keptRequests, ← List.range_eq_range', List.pairwise_map,
    List.pairwise_filter, pairwise_range]
  simp only [decide_eq_true_eq, not_forall, not_not, exists_prop]

theorem loopEntries_le (sad : Buffer) : loopEntries sad ≤ maxEntries sad :=
  SystemAreaBounds.toInt_le _

/-- Used entries overlap if each begins before the end of the other. -/
theorem overlap_of_used {i j : Nat} (hne : i ≠ j) (hi : i < maxEntries sad)
    (hj : j < maxEntries sad) (hiused : Used sad i) (hjused : Used sad j)
    (h : startLba sad i ≤ endLba sad j ∧ startLba sad j ≤ endLba sad i) : Overlap sad := by
  have hile := hiused.2
  have hjle := hjused.2
  exact ⟨i, j, hne, hi, hj, hiused, hjused, max (startLba sad i) (startLba sad j), by omega,
    by omega, by omega, by omega⟩

/-- The flag tells about overlaps, and about entries directly before earlier ones. -/
theorem flag_iff (hcounted : ∀ i < maxEntries sad, Used sad i → i < loopEntries sad)
    (hends : ∀ i < maxEntries sad, Used sad i → endLba sad i + 1 < 2 ^ 64) :
    overlapLoop (keptRequests sad 0 (loopEntries sad)) = true ↔ Overlap sad ∨
      ∃ j < maxEntries sad, ∃ i < j, Used sad i ∧ Used sad j ∧
        endLba sad j + 1 = startLba sad i := by
  have hle := loopEntries_le sad
  have hkeptEnds {k : Nat} (hk : k < loopEntries sad) (hkept : Kept sad k) :
      endLba sad k + 1 < 2 ^ 64 := by
    by_contra hend
    exact hend (hends k (by omega) (used_of_end hkept hend))
  rw [overlapLoop_kept]
  constructor
  · rintro ⟨j, hj, i, hi, hikept, hjkept, hhit⟩
    obtain ⟨hiused, hjused, hcommon | hadjacent⟩ :=
      (hit_iff hikept hjkept (hkeptEnds (by omega) hikept) (hkeptEnds hj hjkept)).mp hhit
    · exact Or.inl (overlap_of_used (by omega) (by omega) (by omega) hiused hjused hcommon)
    · exact Or.inr ⟨j, by omega, i, hi, hiused, hjused, hadjacent⟩
  · have hpair {i j : Nat} (hij : i < j) (hj : j < maxEntries sad) (hiused : Used sad i)
        (hjused : Used sad j) (h : startLba sad i ≤ endLba sad j ∧ startLba sad j ≤ endLba sad i ∨
          endLba sad j + 1 = startLba sad i) :
        ∃ j < loopEntries sad, ∃ i < j, Kept sad i ∧ Kept sad j ∧
          hit (request sad i) (request sad j) = true := by
      have hiend := hends i (by omega) hiused
      have hjend := hends j hj hjused
      exact ⟨j, hcounted j hj hjused, i, hij, hiused.kept hiend, hjused.kept hjend,
        (hit_iff (hiused.kept hiend) (hjused.kept hjend) hiend hjend).mpr ⟨hiused, hjused, h⟩⟩
    rintro (⟨i, j, hne, hi, hj, hiused, hjused, b, h1, h2, h3, h4⟩ |
      ⟨j, hj, i, hij, hiused, hjused, hadjacent⟩)
    · rcases Nat.lt_or_gt_of_ne hne with hij | hji
      · exact hpair hij hj hiused hjused (Or.inl ⟨by omega, by omega⟩)
      · exact hpair hji hi hjused hiused (Or.inl ⟨by omega, by omega⟩)
    · exact hpair hij hj hiused hjused (Or.inr hadjacent)

theorem AnalysisExact.harmless (haccepted : 0 < (isoAnalyzeGptHead sad src).ret)
    (h : AnalysisExact sad src) : Harmless sad := by
  have hle := loopEntries_le sad
  rcases isoAnalyzeGpt_cases haccepted with ⟨hroom, hrun⟩ | ⟨-, hret⟩
  · obtain ⟨-, hflag, hregistered, hdescribed⟩ := h
    rw [hrun] at hflag hregistered hdescribed
    have hkept : ∀ i < maxEntries sad, Used sad i → i < loopEntries sad ∧ Kept sad i := by
      intro i hi hused
      obtain ⟨r, hr, hidx⟩ := hregistered i hi hused
      obtain ⟨k, hk, hkkept, rfl⟩ := mem_keptRequests.mp hr
      obtain rfl : k = i := Nat.succ.inj hidx
      exact ⟨hk, hkkept⟩
    have hends : ∀ i < maxEntries sad, Used sad i → endLba sad i + 1 < 2 ^ 64 := by
      intro i hi hused
      obtain ⟨hloop, hikept⟩ := hkept i hi hused
      obtain ⟨k, -, hidx, -, hsum⟩ :=
        hdescribed (request sad i) (mem_keptRequests.mpr ⟨i, hloop, hikept, rfl⟩)
      obtain rfl : i = k := Nat.succ.inj hidx
      by_contra hend
      have hlast := endLba_lt sad i
      rw [request_startBlock, request_blockCount, hikept.start_eq hend] at hsum
      omega
    have hcounted : ∀ i < maxEntries sad, Used sad i → i < loopEntries sad :=
      fun i hi hused => (hkept i hi hused).1
    refine ⟨hcounted, by rwa [length_keptRequests] at hroom, hends, ?_⟩
    have hexact := (flag_iff hcounted hends).symm.trans hflag
    by_cases hoverlap : Overlap sad
    · exact Or.inl hoverlap
    · right
      intro j hj i hij hiused hjused hadjacent
      exact hoverlap (hexact.mp (Or.inr ⟨j, hj, i, hij, hiused, hjused, hadjacent⟩))
  · exact absurd h.completed hret

theorem Harmless.exact (haccepted : 0 < (isoAnalyzeGptHead sad src).ret) (h : Harmless sad) :
    AnalysisExact sad src := by
  have hle := loopEntries_le sad
  have hfew := h.few
  rw [← length_keptRequests] at hfew
  rcases isoAnalyzeGpt_cases haccepted with ⟨-, hrun⟩ | ⟨hmany, -⟩
  · constructor
    case completed => rw [hrun]
    case flag =>
      rw [hrun, flag_iff h.counted h.ends]
      constructor
      · rintro (hoverlap | ⟨j, hj, i, hij, hiused, hjused, hadjacent⟩)
        · exact hoverlap
        · rcases h.apart with hoverlap | hapart
          · exact hoverlap
          · exact absurd hadjacent (hapart j hj i hij hiused hjused)
      · exact Or.inl
    case registered =>
      intro i hi hused
      rw [hrun]
      exact ⟨request sad i, mem_keptRequests.mpr
        ⟨i, h.counted i hi hused, hused.kept (h.ends i hi hused), rfl⟩, rfl⟩
    case described =>
      intro r hr
      rw [hrun] at hr
      obtain ⟨i, hi, hkept, rfl⟩ := mem_keptRequests.mp hr
      have hend : endLba sad i + 1 < 2 ^ 64 := by
        by_contra hend
        exact hend (h.ends i (by omega) (used_of_end hkept hend))
      refine ⟨i, by omega, rfl, rfl, ?_⟩
      have hless := hkept.2
      rw [request_startBlock, blockCount_kept hkept hend]
      omega
  · omega

/-- The analysis of an accepted array is exact if and only if its entries are harmless. -/
theorem analysisExact_iff (sad : Buffer) (src : DataSource)
    (haccepted : 0 < (isoAnalyzeGptHead sad src).ret) : AnalysisExact sad src ↔ Harmless sad :=
  ⟨fun h => h.harmless haccepted, fun h => h.exact haccepted⟩

end Main

section Adjacent

/-- The header before its CRC. -/
def smallPre : List UInt8 :=
  ascii "EFI PART" ++ [0, 0, 1, 0] ++ toLsb 4 92

/-- The header after its CRC: two entries from block 2 on. -/
def smallPost : List UInt8 :=
  toLsb 4 0 ++ toLsb 8 1 ++ toLsb 8 0 ++ toLsb 16 0 ++ List.replicate 16 0 ++ toLsb 8 2 ++
    toLsb 4 2 ++ toLsb 4 128 ++ toLsb 4 0

def smallCrc : UInt32 :=
  isoCrc32Gpt (bufferOf (smallPre ++ List.replicate 4 0 ++ smallPost)) (92 : Nat)

def smallHead : List UInt8 :=
  smallPre ++ toLsb 4 smallCrc.toNat ++ smallPost

/-- An entry of an unknown type. -/
def smallEntry (first last : Nat) : List UInt8 :=
  List.replicate 32 1 ++ toLsb 8 first ++ toLsb 8 last ++ List.replicate 80 0

/-- The entries are for blocks 100 to 199 and for the given blocks. -/
def twoEntries (first last : Nat) : Buffer := fun i =>
  if i < 512 then 0
  else if i < 1024 then smallHead.getD (i - 512) 0
  else (smallEntry 100 199 ++ smallEntry first last).getD (i - 1024) 0

def noBackup : DataSource := fun _ => (-1, fun _ => 0)

theorem length_smallHead : smallHead.length = 92 := by
  simp only [smallHead, smallPre, smallPost, List.length_append, length_toLsb,
    List.length_replicate, List.length_cons, List.length_nil]
  rfl

theorem twoEntries_head (first last : Nat) :
    Holds (fun i => twoEntries first last (512 + i)) 0 smallHead := by
  refine (holds_congr fun i hi => ?_).mpr holds_bufferOf
  rw [length_smallHead] at hi
  rw [twoEntries, if_neg (by omega), if_pos (by omega), Nat.add_sub_cancel_left]
  rfl

theorem twoEntries_holds (first last : Nat) :
    HeadHolds (fun i => twoEntries first last (512 + i)) 1 0 2 2 smallCrc 0
      (List.replicate 16 0) := by
  have hhead := twoEntries_head first last
  have hcleared := Holds.cleared hhead
  have hcrc : smallCrc = isoCrc32Gpt
      (copyInto (fun i => twoEntries first last (512 + i)) 16 4 fun _ => 0) (92 : Nat) := by
    refine isoCrc32Gpt_congr (by decide) fun i hi => ?_
    have hlen : i < (smallPre ++ List.replicate 4 0 ++ smallPost).length := hi
    have := Holds.agree holds_bufferOf hcleared hlen
    rwa [Nat.zero_add] at this
  have hsignature : (ascii "EFI PART").length = 8 := rfl
  simp only [smallHead, smallPre, smallPost, ← List.append_assoc, holds_append,
    List.length_append, hsignature, length_toLsb, List.length_cons, List.length_nil,
    List.length_replicate, Nat.zero_add, Nat.reduceAdd] at hhead
  obtain ⟨⟨⟨⟨⟨⟨⟨⟨⟨⟨⟨⟨hsig, hrev⟩, hsize⟩, hcrcField⟩, -⟩, hown⟩, hother⟩, -⟩, hguid⟩, hpart⟩,
    hentries⟩, hentry⟩, harray⟩ := hhead
  exact ⟨hsig, hrev, hsize, hcrcField, hown, hother, hguid, hpart, hentries, hentry, harray,
    hcrc⟩

theorem twoEntries_accepted (first last : Nat) :
    0 < (isoAnalyzeGptHead (twoEntries first last) noBackup).ret := by
  have h := twoEntries_holds first last
  have hstart : isoReadLsb64 (fun i => twoEntries first last (512 + i)) 72 = 2 :=
    isoReadLsb64_of_holds h.start (by decide)
  have hentries : isoReadLsb (fun i => twoEntries first last (512 + i)) 80 = 2 :=
    isoReadLsb_of_holds h.entries (by decide)
  have hrange : rangeOk (gptInfo (twoEntries first last)).partStart
      (gptInfo (twoEntries first last)).maxEntries = true := by
    dsimp only [gptInfo]
    rw [hstart, hentries]
    decide
  rw [isoAnalyzeGptHead, h.usable, h.crcOk]
  dsimp only
  rw [hrange]
  exact show (0 : Int) < 1 by decide

theorem twoEntries_max (first last : Nat) : maxEntries (twoEntries first last) = 2 := by
  have hentries : (gptInfo (twoEntries first last)).maxEntries = 2 :=
    isoReadLsb_of_holds (twoEntries_holds first last).entries (by decide)
  rw [maxEntries, hentries]
  rfl

theorem twoEntries_loop (first last : Nat) : loopEntries (twoEntries first last) = 2 := by
  have hentries : (gptInfo (twoEntries first last)).maxEntries = 2 :=
    isoReadLsb_of_holds (twoEntries_holds first last).entries (by decide)
  rw [loopEntries, hentries]
  rfl

theorem twoEntries_part (first last i : Nat) :
    partOf (twoEntries first last) i = 1024 + 128 * i := by
  have hstart : (gptInfo (twoEntries first last)).partStart = 2 :=
    isoReadLsb64_of_holds (twoEntries_holds first last).start (by decide)
  rw [partOf, hstart]
  rfl

/-- A block is left free between the entries. -/
theorem twoEntries_exact :
    0 < (isoAnalyzeGptHead (twoEntries 50 98) noBackup).ret ∧
      AnalysisExact (twoEntries 50 98) noBackup := by
  have haccepted := twoEntries_accepted 50 98
  have hfirst : startLba (twoEntries 50 98) 0 = 100 ∧ endLba (twoEntries 50 98) 0 = 199 := by
    rw [startLba, endLba, twoEntries_part]
    decide +kernel
  have hsecond : startLba (twoEntries 50 98) 1 = 50 ∧ endLba (twoEntries 50 98) 1 = 98 := by
    rw [startLba, endLba, twoEntries_part]
    decide +kernel
  have hcases : ∀ i < maxEntries (twoEntries 50 98), i = 0 ∨ i = 1 := by
    intro i hi
    rw [twoEntries_max] at hi
    omega
  refine ⟨haccepted, (analysisExact_iff _ _ haccepted).mpr ⟨?_, ?_, ?_, Or.inr ?_⟩⟩
  · intro i hi _
    rwa [twoEntries_loop, ← twoEntries_max 50 98]
  · refine (List.length_filter_le _ _).trans ?_
    rw [List.length_range, twoEntries_loop]
    decide
  · intro i hi _
    rcases hcases i hi with rfl | rfl
    · rw [hfirst.2]
      decide
    · rw [hsecond.2]
      decide
  · intro j hj i hij _ _
    rcases hcases j hj with rfl | rfl
    · omega
    · obtain rfl : i = 0 := by omega
      rw [hsecond.2, hfirst.1]
      decide

/-- The second entry ends directly before the first one. -/
theorem adjacent_not_exact :
    ¬ ∀ sad src, 0 < (isoAnalyzeGptHead sad src).ret → AnalysisExact sad src := by
  intro h
  have haccepted := twoEntries_accepted 50 99
  have hexact := (h (twoEntries 50 99) noBackup haccepted).harmless haccepted
  have hmax := twoEntries_max 50 99
  have hfirst : startLba (twoEntries 50 99) 0 = 100 ∧ endLba (twoEntries 50 99) 0 = 199 := by
    rw [startLba, endLba, twoEntries_part]
    decide +kernel
  have hsecond : startLba (twoEntries 50 99) 1 = 50 ∧ endLba (twoEntries 50 99) 1 = 99 := by
    rw [startLba, endLba, twoEntries_part]
    decide +kernel
  have hused : Used (twoEntries 50 99) 0 ∧ Used (twoEntries 50 99) 1 := by
    rw [Used, Used, hfirst.1, hfirst.2, hsecond.1, hsecond.2]
    decide
  rcases hexact.apart with ⟨i, j, hne, hi, hj, -, -, b, hib, hbi, hjb, hbj⟩ | hapart
  · rw [hmax] at hi hj
    obtain ⟨rfl, rfl⟩ | ⟨rfl, rfl⟩ : (i = 0 ∧ j = 1) ∨ (i = 1 ∧ j = 0) := by omega
    · rw [hfirst.1] at hib
      rw [hsecond.2] at hbj
      omega
    · rw [hsecond.2] at hbi
      rw [hfirst.1] at hjb
      omega
  · exact hapart 1 (by omega) 0 (by decide) hused.1 hused.2 (by rw [hsecond.2, hfirst.1])

end Adjacent

end GptOverlap
