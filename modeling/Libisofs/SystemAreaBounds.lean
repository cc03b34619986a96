import Libisofs.SystemAreaTables

/-!
# Bounds of the partition tables in the System Area

An accepted table shall be inside its buffer, and so shall be all accesses. For GPT this can
fail only by numbers which wrap around. The length of an APM is not checked at all.
-/

namespace SystemAreaBounds

open ByteBuffers SystemAreaTables

def Inside (a : Access) : Prop := a.offset + a.size ≤ a.area.size

structure Safe (out : Outcome) : Prop where
  accesses : ∀ a ∈ out.accesses, Inside a
  tables : ∀ t ∈ out.tables, Inside t

/-- The announced numbers of an acceptable head do not wrap around. -/
def GptHarmless (sad : Buffer) : Prop :=
  isoSeemsUsableGptHead (fun i => sad (512 + i)) = true →
    headCrcOk (fun i => sad (512 + i)) = true →
      rangeOk (gptInfo sad).partStart (gptInfo sad).maxEntries = true →
        (gptInfo sad).maxEntries.toNat + 3 < 2 ^ 32 ∧
          (gptInfo sad).partStart.toNat + ((gptInfo sad).maxEntries.toNat + 3) / 4 < 2 ^ 64

/-- The announced map entries fit. -/
def ApmHarmless (sad : Buffer) : Prop :=
  ∀ blockSize, isoAnalyzeApmHead sad = some blockSize →
    ((isoReadMsb sad (blockSize + 4) 4).toNat + 1) * blockSize ≤ 32768

section Numbers

theorem toInt_toNat {x : UInt32} (h : x.toNat < 2 ^ 31) : (toInt x).toNat = x.toNat := by
  rw [toInt, if_pos h]
  exact Int.toNat_natCast _

theorem toInt_le (x : UInt32) : (toInt x).toNat ≤ x.toNat := by
  rw [toInt]
  split <;> omega

/-- Without wrapping, the range of the entries is inside the System Area. -/
theorem range_fits {partStart : UInt64} {maxEntries : UInt32}
    (hok : rangeOk partStart maxEntries = true) (hcount : maxEntries.toNat + 3 < 2 ^ 32)
    (hsum : partStart.toNat + (maxEntries.toNat + 3) / 4 < 2 ^ 64) :
    partStart.toNat + (maxEntries.toNat + 3) / 4 ≤ 64 := by
  rw [rangeOk, decide_eq_true_eq, UInt64.le_iff_toNat_le, UInt64.toNat_add, UInt32.toNat_toUInt64,
    UInt32.toNat_div, UInt32.toNat_add] at hok
  have hthree : (3 : UInt32).toNat = 3 := rfl
  have hfour : (4 : UInt32).toNat = 4 := rfl
  have hlimit : (64 : UInt64).toNat = 64 := rfl
  rw [hthree, hfour, hlimit, Nat.mod_eq_of_lt hcount, Nat.mod_eq_of_lt hsum] at hok
  exact hok

theorem toNat_byteOffset {partStart : UInt64} (h : partStart.toNat ≤ 64) :
    (partStart * 512).toNat = partStart.toNat * 512 := by
  have hfactor : (512 : UInt64).toNat = 512 := rfl
  rw [UInt64.toNat_mul, hfactor]
  omega

/-- The number of blocks which get read for the backup array. -/
theorem numIsoBlocks_le (arrayStart : UInt64) {entryCount : UInt32}
    (hcount : entryCount.toNat ≤ 256) :
    (toInt ((arrayStart + ((entryCount + 3) / 4).toUInt64) / 4 -
      ((arrayStart / 4).toUInt32).toUInt64 + 1).toUInt32).toNat ≤ 17 := by
  refine (toInt_le _).trans ?_
  have hthree : (3 : UInt32).toNat = 3 := rfl
  have hfour : (4 : UInt32).toNat = 4 := rfl
  have hfour' : (4 : UInt64).toNat = 4 := rfl
  have hone : (1 : UInt64).toNat = 1 := rfl
  have hstart := arrayStart.toNat_lt
  simp only [UInt64.toNat_toUInt32, UInt64.toNat_add, UInt64.toNat_sub, UInt64.toNat_div,
    UInt32.toNat_toUInt64, UInt32.toNat_div, UInt32.toNat_add, hthree, hfour, hfour', hone]
  generalize arrayStart.toNat = start at *
  generalize entryCount.toNat = count at *
  omega

end Numbers

section Gpt

variable {sad buf : Buffer} {src : DataSource} {info : GptInfo}

theorem readArray_inside {isoBlock : UInt32} {n : Nat} (hn : n ≤ 17) :
    ∀ a ∈ (readArray src isoBlock n buf).2, Inside a := by
  induction n with
  | zero => exact fun _ hmem => by cases hmem
  | succ n ih =>
    have hbefore := ih (by omega)
    have hlast : Inside ⟨.backupBuffer, n * 2048, 2048⟩ := by
      show n * 2048 + 2048 ≤ 34816
      omega
    rw [readArray]
    split
    next hread =>
      rw [hread] at hbefore
      exact hbefore
    next reads hread =>
      rw [hread] at hbefore
      have hall : ∀ a ∈ reads ++ [⟨Area.backupBuffer, n * 2048, 2048⟩], Inside a := by
        intro a hmem
        rcases List.mem_append.mp hmem with hmem | hmem
        · exact hbefore a hmem
        · rw [List.mem_singleton.mp hmem]
          exact hlast
      simp only
      split
      · exact hall
      · exact hall

theorem compareEntries_inside {bPart mPart n : Nat} (hb : bPart + 128 * n ≤ 34816)
    (hm : mPart + 128 * n ≤ 32768) : ∀ a ∈ (compareEntries buf sad bPart mPart n).2, Inside a := by
  induction n with
  | zero => exact fun _ hmem => by cases hmem
  | succ n ih =>
    have hbefore := ih (by omega) (by omega)
    rw [compareEntries]
    intro a hmem
    rcases List.mem_append.mp hmem with hmem | hmem
    · exact hbefore a hmem
    · rcases List.mem_pair.mp hmem with rfl | rfl
      · show bPart + 128 * n + 128 ≤ 34816
        omega
      · show mPart + 128 * n + 128 ≤ 32768
        omega

theorem gptEntries_inside {partStart : UInt64} {n i : Nat} {reqs : List GptRequest}
    (hfit : (partStart * 512).toNat + 128 * (i + n) ≤ 32768) :
    ∀ a ∈ (gptEntries sad partStart n i reqs).2.2, Inside a := by
  induction n generalizing i reqs with
  | zero => exact fun _ hmem => by cases hmem
  | succ n ih =>
    have hfirst : Inside ⟨.systemArea, (partStart * 512).toNat + 128 * i, 128⟩ := by
      show (partStart * 512).toNat + 128 * i + 128 ≤ 32768
      omega
    have hrest (reqs' : List GptRequest) (a : Access)
        (hmem : a ∈ ⟨.systemArea, (partStart * 512).toNat + 128 * i, 128⟩ ::
          (gptEntries sad partStart n (i + 1) reqs').2.2) : Inside a := by
      rcases List.mem_cons.mp hmem with rfl | hmem
      · exact hfirst
      · exact @ih (i + 1) reqs' (by omega) a hmem
    rw [gptEntries]
    simp only
    split
    · exact hrest reqs
    · split
      · intro a hmem
        rw [List.mem_singleton.mp hmem]
        exact hfirst
      · exact hrest _

theorem safe_rejected {ret : Int} {accesses : List Access} (h : ∀ a ∈ accesses, Inside a) :
    Safe ⟨ret, accesses, []⟩ := by
  constructor
  case accesses => exact h
  case tables => exact fun _ hmem => by cases hmem

theorem inside_append {xs ys : List Access} (hx : ∀ a ∈ xs, Inside a) (hy : ∀ a ∈ ys, Inside a) :
    ∀ a ∈ xs ++ ys, Inside a := by
  intro a hmem
  rcases List.mem_append.mp hmem with hmem | hmem
  · exact hx a hmem
  · exact hy a hmem

theorem quarter_le (x : UInt64) : (x % 4).toNat ≤ 3 := by
  have hfour : (4 : UInt64).toNat = 4 := rfl
  rw [UInt64.toNat_mod, hfour]
  omega

/-- The numbers of entries which go with an accepted main GPT. -/
theorem entryBytes {entryCount : UInt32} (h : entryCount.toNat ≤ 256) :
    (toInt entryCount).toNat = entryCount.toNat ∧
      (toInt (128 * entryCount)).toNat = 128 * entryCount.toNat ∧
      (toInt (entryCount * 128)).toNat = 128 * entryCount.toNat := by
  have hfactor : (128 : UInt32).toNat = 128 := rfl
  have hleft : (128 * entryCount).toNat = 128 * entryCount.toNat := by
    rw [UInt32.toNat_mul, hfactor]
    omega
  have hright : (entryCount * 128).toNat = 128 * entryCount.toNat := by
    rw [UInt32.toNat_mul, hfactor]
    omega
  refine ⟨toInt_toNat (by omega), ?_, ?_⟩
  · rw [toInt_toNat (by omega), hleft]
  · rw [toInt_toNat (by omega), hright]

theorem analyzeBackupArray_safe {arrayStart : UInt64} {entryCount : UInt32}
    (hcount : entryCount.toNat ≤ 256)
    (hfit : (info.partStart * 512).toNat + 128 * entryCount.toNat ≤ 32768) :
    Safe (analyzeBackupArray sad src info buf arrayStart entryCount) := by
  have hquarter := quarter_le arrayStart
  obtain ⟨hint, hbytes, -⟩ := entryBytes hcount
  have hreads := @readArray_inside buf src (arrayStart / 4).toUInt32 _
    (numIsoBlocks_le arrayStart hcount)
  rw [analyzeBackupArray]
  simp only
  split
  next hnone =>
    rw [hnone] at hreads
    exact safe_rejected hreads
  next read reads hsome =>
    rw [hsome] at hreads
    have hcompared := @compareEntries_inside sad read ((arrayStart % 4).toNat * 512)
      (info.partStart * 512).toNat (toInt entryCount).toNat (by omega) (by omega)
    constructor
    case accesses =>
      refine inside_append hreads fun a hmem => ?_
      rcases List.mem_cons.mp hmem with rfl | hmem
      · show (arrayStart % 4).toNat * 512 + (toInt (128 * entryCount)).toNat ≤ 34816
        omega
      · exact hcompared a hmem
    case tables =>
      simp only
      split
      · intro t hmem
        rw [List.mem_singleton.mp hmem]
        show (arrayStart % 4).toNat * 512 + 128 * entryCount.toNat ≤ 34816
        omega
      · exact fun _ hmem => by cases hmem

/-- The backup GPT is inside its buffer wherever its header claims to be. -/
theorem isoAnalyzeGptBackup_safe
    (hfit : info.partStart.toNat + (info.maxEntries.toNat + 3) / 4 ≤ 64) :
    Safe (isoAnalyzeGptBackup sad src info) := by
  have hread : Inside ⟨.backupBuffer, 0, 2048⟩ := by
    show 0 + 2048 ≤ 34816
    decide
  have hhead : ∀ a ∈ [⟨Area.backupBuffer, 0, 2048⟩,
      ⟨Area.backupBuffer, (info.backupLba % 4).toNat * 512, 512⟩], Inside a := by
    intro a hmem
    rcases List.mem_pair.mp hmem with rfl | rfl
    · exact hread
    · have := quarter_le info.backupLba
      show (info.backupLba % 4).toNat * 512 + 512 ≤ 34816
      omega
  rw [isoAnalyzeGptBackup]
  simp only
  split
  · exact safe_rejected fun a hmem => List.mem_singleton.mp hmem ▸ hread
  split
  · exact safe_rejected hhead
  split
  · exact safe_rejected hhead
  split
  · exact safe_rejected hhead
  next hcount =>
  rw [not_not] at hcount
  rw [hcount]
  have hoffset := toNat_byteOffset (by omega : info.partStart.toNat ≤ 64)
  have harray := fun buf arrayStart => @analyzeBackupArray_safe sad buf src info arrayStart
    info.maxEntries (by omega) (by omega)
  constructor
  case accesses => exact inside_append hhead (harray _ _).accesses
  case tables => exact (harray _ _).tables

/-- If the main GPT gets accepted, then its range is inside or a number wrapped around. -/
theorem isoAnalyzeGptHead_safe (h : GptHarmless sad) : Safe (isoAnalyzeGptHead sad src) := by
  have hhead : ∀ a ∈ [(⟨.systemArea, 512, 512⟩ : Access)], Inside a := by
    intro a hmem
    rw [List.mem_singleton.mp hmem]
    show 512 + 512 ≤ 32768
    decide
  rw [isoAnalyzeGptHead]
  simp only
  split
  · exact safe_rejected hhead
  next husable =>
  split
  · exact safe_rejected hhead
  next hcrc =>
  split
  · exact safe_rejected hhead
  next hrange =>
  rw [Bool.not_eq_true, Bool.not_eq_false'] at husable hcrc hrange
  obtain ⟨hcount, hsum⟩ := h husable hcrc hrange
  have hfit := range_fits hrange hcount hsum
  have hoffset := toNat_byteOffset (by omega : (gptInfo sad).partStart.toNat ≤ 64)
  obtain ⟨-, -, hbytes⟩ := entryBytes (by omega : (gptInfo sad).maxEntries.toNat ≤ 256)
  have hbackup := @isoAnalyzeGptBackup_safe sad src (gptInfo sad) hfit
  constructor
  case accesses =>
    refine inside_append ?_ hbackup.accesses
    intro a hmem
    rcases List.mem_pair.mp hmem with rfl | rfl
    · exact hhead _ List.mem_cons_self
    · show ((gptInfo sad).partStart * 512).toNat +
        (toInt ((gptInfo sad).maxEntries * 128)).toNat ≤ 32768
      omega
  case tables =>
    intro t hmem
    rcases List.mem_cons.mp hmem with rfl | hmem
    · show (gptInfo sad).partStart.toNat * 512 + 128 * (gptInfo sad).maxEntries.toNat ≤ 32768
      omega
    · exact hbackup.tables t hmem

/-- The conditions under which the main GPT gets accepted. -/
def Accepted (sad : Buffer) : Prop :=
  isoSeemsUsableGptHead (fun i => sad (512 + i)) = true ∧
    headCrcOk (fun i => sad (512 + i)) = true ∧
      rangeOk (gptInfo sad).partStart (gptInfo sad).maxEntries = true

theorem backup_ret (sad : Buffer) (src : DataSource) (info : GptInfo) :
    0 ≤ (isoAnalyzeGptBackup sad src info).ret := by
  rw [isoAnalyzeGptBackup]
  simp only
  split
  · exact Int.le_refl 0
  split
  · exact Int.le_refl 0
  split
  · exact Int.le_refl 0
  split
  · exact Int.le_refl 0
  · rw [analyzeBackupArray]
    simp only
    split
    · exact Int.le_refl 0
    · simp only
      split <;> decide

theorem accepted_of_ret (h : 0 < (isoAnalyzeGptHead sad src).ret) : Accepted sad := by
  rw [isoAnalyzeGptHead] at h
  simp only at h
  split at h
  next => exact absurd h (by decide)
  next husable =>
  split at h
  next => exact absurd h (by decide)
  next hcrc =>
  split at h
  next => exact absurd h (by decide)
  next hrange =>
  rw [Bool.not_eq_true, Bool.not_eq_false'] at husable hcrc hrange
  exact ⟨husable, hcrc, hrange⟩

/-- An accepted table is announced as such. -/
theorem Accepted.table (h : Accepted sad) : (isoAnalyzeGptHead sad src).ret = 1 ∧
    ⟨.systemArea, (gptInfo sad).partStart.toNat * 512, 128 * (gptInfo sad).maxEntries.toNat⟩ ∈
      (isoAnalyzeGptHead sad src).tables := by
  obtain ⟨husable, hcrc, hrange⟩ := h
  have hret := backup_ret sad src (gptInfo sad)
  rw [isoAnalyzeGptHead]
  simp only [husable, hcrc, hrange, Bool.not_true, Bool.false_eq_true, if_false]
  exact ⟨if_neg (Int.not_lt.mpr hret), List.mem_cons_self⟩

theorem isoAnalyzeGpt_safe (h : GptHarmless sad) : Safe (isoAnalyzeGpt sad src) := by
  have hhead := @isoAnalyzeGptHead_safe sad src h
  rw [isoAnalyzeGpt]
  simp only
  split
  · exact hhead
  next hret =>
  obtain ⟨husable, hcrc, hrange⟩ := accepted_of_ret (Int.not_le.mp hret)
  obtain ⟨hcount, hsum⟩ := h husable hcrc hrange
  have hfit := range_fits hrange hcount hsum
  have hoffset := toNat_byteOffset (by omega : (gptInfo sad).partStart.toNat ≤ 64)
  obtain ⟨hint, -, -⟩ := entryBytes (by omega : (gptInfo sad).maxEntries.toNat ≤ 256)
  constructor
  case accesses => exact inside_append hhead.accesses (gptEntries_inside (by omega))
  case tables => exact hhead.tables

theorem gptHarmless_of_safe (h : Safe (isoAnalyzeGpt sad src)) : GptHarmless sad := by
  intro husable hcrc hrange
  obtain ⟨hret, hmem⟩ := @Accepted.table sad src ⟨husable, hcrc, hrange⟩
  have htables : (isoAnalyzeGpt sad src).tables = (isoAnalyzeGptHead sad src).tables := by
    rw [isoAnalyzeGpt]
    simp only
    split
    · rfl
    · rfl
  have hinside := h.tables _ (htables ▸ hmem)
  rw [Inside] at hinside
  simp only [Area.size] at hinside
  omega

end Gpt

section Apm

variable {sad : Buffer} {blockSize n i : Nat} {st : ApmState}

theorem blockSize_bounds (h : isoAnalyzeApmHead sad = some blockSize) :
    512 ≤ blockSize ∧ blockSize ≤ 2048 := by
  rw [isoAnalyzeApmHead] at h
  split at h
  · cases h
  · simp only at h
    split at h
    next => cases h
    next hsize =>
      obtain rfl := Option.some.inj h
      simp only [Bool.and_eq_true, decide_eq_true_eq, not_and, not_not] at hsize
      by_cases hbig : (isoReadMsb sad 2 2).toNat = 2048
      · omega
      · have := hsize hbig
        omega

theorem apmEntries_inside (hblock : 512 ≤ blockSize) (hfit : (i + n + 1) * blockSize ≤ 32768) :
    ∀ a ∈ (apmEntries sad blockSize n i st).2.2, Inside a := by
  induction n generalizing i st with
  | zero => exact fun _ hmem => by cases hmem
  | succ n ih =>
    have hpart : (i + 1) * blockSize + blockSize ≤ 32768 := by
      refine le_trans ?_ hfit
      rw [← Nat.succ_mul]
      exact Nat.mul_le_mul_right _ (by omega)
    have hsignature : Inside ⟨.systemArea, (i + 1) * blockSize, 2⟩ := by
      show (i + 1) * blockSize + 2 ≤ 32768
      omega
    have hentry : Inside ⟨.systemArea, (i + 1) * blockSize, 92⟩ := by
      show (i + 1) * blockSize + 92 ≤ 32768
      omega
    have hrest (st' : ApmState) (a : Access)
        (hmem : a ∈ ⟨.systemArea, (i + 1) * blockSize, 2⟩ ::
          ⟨.systemArea, (i + 1) * blockSize, 92⟩ ::
            (apmEntries sad blockSize n (i + 1) st').2.2) : Inside a := by
      rcases List.mem_cons.mp hmem with rfl | hmem
      · exact hsignature
      · rcases List.mem_cons.mp hmem with rfl | hmem
        · exact hentry
        · have hcount : i + 1 + n + 1 = i + (n + 1) + 1 := by omega
          exact @ih (i + 1) st' (hcount ▸ hfit) a hmem
    rw [apmEntries]
    simp only
    split
    · intro a hmem
      rw [List.mem_singleton.mp hmem]
      exact hsignature
    · split
      · exact hrest st
      · split
        · intro a hmem
          rcases List.mem_pair.mp hmem with rfl | rfl
          · exact hsignature
          · exact hentry
        · exact hrest _

/-- If there are too many entries, then the System Area was already left. -/
theorem apmEntries_outside (hblock : 512 ≤ blockSize) (hreqs : st.reqs.length ≤ i)
    (hret : (apmEntries sad blockSize n i st).1 ≠ 1) :
    ∃ a ∈ (apmEntries sad blockSize n i st).2.2, ¬ Inside a := by
  induction n generalizing i st with
  | zero => exact absurd rfl hret
  | succ n ih =>
    have hrest (st' : ApmState) (hlen : st'.reqs.length ≤ i + 1)
        (hret' : (apmEntries sad blockSize n (i + 1) st').1 ≠ 1) :
        ∃ a ∈ (⟨.systemArea, (i + 1) * blockSize, 2⟩ ::
          ⟨.systemArea, (i + 1) * blockSize, 92⟩ ::
            (apmEntries sad blockSize n (i + 1) st').2.2 : List Access), ¬ Inside a := by
      obtain ⟨a, hmem, houtside⟩ := @ih (i + 1) st' hlen hret'
      exact ⟨a, List.mem_cons_of_mem _ (List.mem_cons_of_mem _ hmem), houtside⟩
    rw [apmEntries] at hret ⊢
    simp only at hret ⊢
    split at hret
    next => exact absurd rfl hret
    next hsig =>
      rw [if_neg hsig]
      split at hret
      next hskip =>
        rw [if_pos hskip]
        exact hrest st (by omega) hret
      next hskip =>
        rw [if_neg hskip]
        split at hret
        next hmany =>
          rw [if_pos hmany]
          refine ⟨_, List.mem_cons_self, ?_⟩
          show ¬ (i + 1) * blockSize + 2 ≤ 32768
          have hfar : 64 * 512 ≤ (i + 1) * blockSize := by
            refine Nat.mul_le_mul ?_ hblock
            rw [isoApmEntriesMax] at hmany
            omega
          omega
        next hmany =>
          rw [if_neg hmany]
          refine hrest _ ?_ hret
          split
          · rw [List.length_append, List.length_singleton]
            omega
          · rw [List.length_append, List.length_singleton]
            omega

theorem isoAnalyzeApm_safe (h : ApmHarmless sad) : Safe (isoAnalyzeApm sad) := by
  have hhead : Inside ⟨.systemArea, 0, 4⟩ := by
    show 0 + 4 ≤ 32768
    decide
  rw [isoAnalyzeApm]
  simp only
  split
  next => exact safe_rejected fun a hmem => List.mem_singleton.mp hmem ▸ hhead
  next blockSize hblockSize =>
  obtain ⟨hlow, hhigh⟩ := blockSize_bounds hblockSize
  have hfit := h blockSize hblockSize
  have hcount : (isoReadMsb sad (blockSize + 4) 4).toNat + 1 ≤ 64 := by
    by_contra hmany
    have := Nat.mul_le_mul (by omega : 65 ≤ (isoReadMsb sad (blockSize + 4) 4).toNat + 1) hlow
    omega
  have hint := toInt_toNat (by omega : (isoReadMsb sad (blockSize + 4) 4).toNat < 2 ^ 31)
  rw [hint]
  have hentries := @apmEntries_inside sad blockSize (isoReadMsb sad (blockSize + 4) 4).toNat 0
    ⟨[], 0, true⟩ hlow (by rw [Nat.zero_add]; exact hfit)
  rw [Nat.succ_mul] at hfit
  constructor
  case accesses =>
    intro a hmem
    rcases List.mem_cons.mp hmem with rfl | hmem
    · exact hhead
    · rcases List.mem_cons.mp hmem with rfl | hmem
      · show blockSize + 4 + 4 ≤ 32768
        omega
      · exact hentries a hmem
  case tables =>
    simp only
    split
    · intro t hmem
      rw [List.mem_singleton.mp hmem]
      show blockSize + (isoReadMsb sad (blockSize + 4) 4).toNat * blockSize ≤ 32768
      omega
    · exact fun _ hmem => by cases hmem

theorem apmHarmless_of_safe (h : Safe (isoAnalyzeApm sad)) : ApmHarmless sad := by
  intro blockSize hblockSize
  obtain ⟨hlow, -⟩ := blockSize_bounds hblockSize
  rw [isoAnalyzeApm, hblockSize] at h
  simp only at h
  by_cases hret : (apmEntries sad blockSize
      (toInt (isoReadMsb sad (blockSize + 4) 4)).toNat 0 ⟨[], 0, true⟩).1 = 1
  · have hinside := h.tables ⟨.systemArea, blockSize,
      (isoReadMsb sad (blockSize + 4) 4).toNat * blockSize⟩ (by
        rw [if_pos hret]
        exact List.mem_singleton_self _)
    rw [Inside] at hinside
    simp only [Area.size] at hinside
    rw [Nat.succ_mul]
    omega
  · obtain ⟨a, hmem, houtside⟩ := apmEntries_outside hlow (Nat.le_refl 0) hret
    exact absurd (h.accesses a (List.mem_cons_of_mem _ (List.mem_cons_of_mem _ hmem))) houtside

end Apm

/-- All accesses and all accepted tables are inside if and only if the announced numbers of
entries are harmless. -/
theorem tables_safe_iff (sad : Buffer) (src : DataSource) :
    Safe (isoAnalyzeGpt sad src) ∧ Safe (isoAnalyzeApm sad) ↔
      GptHarmless sad ∧ ApmHarmless sad :=
  ⟨fun h => ⟨gptHarmless_of_safe h.1, apmHarmless_of_safe h.2⟩,
    fun h => ⟨isoAnalyzeGpt_safe h.1, isoAnalyzeApm_safe h.2⟩⟩

/-- An APM of block size 512 which announces 100 entries. Each block holds one of them, also
behind the System Area. -/
def longApm : Buffer := fun i =>
  if i < 4 then [69, 82, 2, 0].getD i 0
  else if i % 512 = 0 then 80
  else if i % 512 = 1 then 77
  else if i % 512 = 7 then 100
  else 0

theorem longApm_outside : (isoAnalyzeApm longApm).ret = 1 ∧
    ⟨.systemArea, 32768, 2⟩ ∈ (isoAnalyzeApm longApm).accesses ∧
    ¬ Safe (isoAnalyzeApm longApm) := by
  have hmem : ⟨.systemArea, 32768, 2⟩ ∈ (isoAnalyzeApm longApm).accesses := by decide +kernel
  refine ⟨by decide +kernel, hmem, fun h => ?_⟩
  have hinside := h.accesses _ hmem
  rw [Inside] at hinside
  exact absurd hinside (by decide)

end SystemAreaBounds
