import Libisofs.FileSrc

/-!
# The order of file content

Data files with a high sort weight shall be written before those with a low one.
cmp_by_weight() subtracts one weight from the other, and the difference of two numbers
of type int needs not to be one.
-/

namespace FileWeights

open CLibrary ThreeWay FileSrc

/-- What filesrc_writer_pre_compute() gives to qsort(). -/
def sourceArray (t : Ecma119Image) : List IsoFileSrc :=
  let array := isoEcma119ToFilesrcArray t
  if 0 < t.files.countP (shallBeWrittenIfNotTaken array) then t.files.filter (includeItem t)
  else array

theorem filelist_eq (qsort : Qsort) {t : Ecma119Image} (hsort : t.sortFiles = true) :
    filelist qsort t = qsort.run cmpByWeight (sourceArray t) := by
  rw [filelist, if_pos hsort]
  rfl

/-- Heavy sources come first. -/
def HighestFirst (array : List IsoFileSrc) : Prop :=
  array.Pairwise fun f g => g.sortWeight ≤ f.sortWeight

/-- The array has to be a sorted permutation, whatever qsort() does with sources of equal
weight, and the comparison function has to be a consistent one. -/
structure WeightsRule (t : Ecma119Image) : Prop where
  perm : ∀ qsort : RecordingQsort, (filelist qsort.plain t).Perm (sourceArray t)
  sorted : ∀ qsort : RecordingQsort, HighestFirst (filelist qsort.plain t)
  consistent : ConsistentOn cmpByWeight (sourceArray t)

/-- No difference of weights exceeds the range of int. -/
def Moderate (array : List IsoFileSrc) : Prop :=
  ∀ f ∈ array, ∀ g ∈ array, g.sortWeight.toInt - f.sortWeight.toInt < 2 ^ 31

instance (array : List IsoFileSrc) : Decidable (Moderate array) :=
  inferInstanceAs <| Decidable <|
    ∀ f ∈ array, ∀ g ∈ array, g.sortWeight.toInt - f.sortWeight.toInt < 2 ^ 31

section Difference

variable {f g : IsoFileSrc}

theorem weight_bounds (f : IsoFileSrc) :
    -2 ^ 31 ≤ f.sortWeight.toInt ∧ f.sortWeight.toInt < 2 ^ 31 :=
  ⟨f.sortWeight.le_toInt, f.sortWeight.toInt_lt⟩

theorem cmpByWeight_eq_bmod (f g : IsoFileSrc) :
    cmpByWeight f g = (g.sortWeight.toInt - f.sortWeight.toInt).bmod (2 ^ 32) :=
  Int32.toInt_sub g.sortWeight f.sortWeight

/-- The exact difference, where it is a number of type int. -/
theorem cmpByWeight_exact (hfg : g.sortWeight.toInt - f.sortWeight.toInt < 2 ^ 31)
    (hgf : f.sortWeight.toInt - g.sortWeight.toInt ≤ 2 ^ 31) :
    cmpByWeight f g = g.sortWeight.toInt - f.sortWeight.toInt := by
  rw [cmpByWeight_eq_bmod, Int.bmod_eq_of_le] <;> omega

/-- A difference which is too large wraps around to a negative number. -/
theorem cmpByWeight_wraps (hfar : 2 ^ 31 ≤ g.sortWeight.toInt - f.sortWeight.toInt) :
    cmpByWeight f g = g.sortWeight.toInt - f.sortWeight.toInt - 2 ^ 32 := by
  have hf := weight_bounds f
  have hg := weight_bounds g
  rw [cmpByWeight_eq_bmod, ← Int.sub_bmod_right, Int.bmod_eq_of_le] <;> omega

/-- A difference which is too small wraps around to a positive number, except -2^31
which is of type int. -/
theorem cmpByWeight_wraps_back (hfar : 2 ^ 31 < g.sortWeight.toInt - f.sortWeight.toInt) :
    cmpByWeight g f = 2 ^ 32 - (g.sortWeight.toInt - f.sortWeight.toInt) := by
  have hf := weight_bounds f
  have hg := weight_bounds g
  rw [cmpByWeight_eq_bmod, ← Int.add_bmod_right, Int.bmod_eq_of_le] <;> omega

end Difference

theorem Moderate.exact {array : List IsoFileSrc} (moderate : Moderate array) {f g : IsoFileSrc}
    (hf : f ∈ array) (hg : g ∈ array) :
    cmpByWeight f g = g.sortWeight.toInt - f.sortWeight.toInt :=
  cmpByWeight_exact (moderate f hf g hg) (Int.le_of_lt (moderate g hg f hf))

theorem Moderate.consistent {array : List IsoFileSrc} (moderate : Moderate array) :
    ConsistentOn cmpByWeight array where
  antisymm f hf g hg := by
    rw [moderate.exact hf hg, moderate.exact hg hf, ← sign_neg, Int.neg_sub]
  trans f hf g hg h hh hfg hgh := by
    rw [moderate.exact hf hg] at hfg
    rw [moderate.exact hg hh] at hgh
    rw [moderate.exact hf hh]
    omega

theorem Moderate.highestFirst {t : Ecma119Image} (hsort : t.sortFiles = true)
    (moderate : Moderate (sourceArray t)) (qsort : RecordingQsort) :
    HighestFirst (filelist qsort.plain t) := by
  rw [filelist_eq qsort.plain hsort]
  have hperm := qsort.plain.perm cmpByWeight (sourceArray t)
  refine (qsort.plain_sorted moderate.consistent).imp_of_mem ?_
  intro f g hf hg hle
  rw [moderate.exact (hperm.mem_iff.mp hf) (hperm.mem_iff.mp hg)] at hle
  rw [Int32.le_iff_toInt_le]
  omega

/-- In a sorted array which obeys the weights, cmp_by_weight() has told of each pair of
different weights which one is the heavy one. -/
theorem WeightsRule.heavy_first {t : Ecma119Image} (hsort : t.sortFiles = true)
    (rule : WeightsRule t) {f g : IsoFileSrc} (hf : f ∈ sourceArray t) (hg : g ∈ sourceArray t)
    (hlt : f.sortWeight < g.sortWeight) : cmpByWeight g f ≤ 0 := by
  have hperm := rule.perm insertionQsort
  have hcompared := insertionQsort.plain_sorted rule.consistent
  rw [← filelist_eq _ hsort] at hcompared
  let Told (a b : IsoFileSrc) : Prop := a.sortWeight < b.sortWeight → cmpByWeight b a ≤ 0
  have : Std.Symm fun a b => Told a b ∧ Told b a := ⟨fun _ _ h => ⟨h.2, h.1⟩⟩
  have htold : (filelist insertionQsort.plain t).Pairwise fun a b => Told a b ∧ Told b a := by
    refine (hcompared.and (rule.sorted insertionQsort)).imp ?_
    rintro a b ⟨hle, hweight⟩
    exact ⟨fun hlt => absurd hlt (Int32.not_lt.mpr hweight), fun _ => hle⟩
  have hself : ∀ a ∈ filelist insertionQsort.plain t, Told a a ∧ Told a a :=
    fun _ _ => ⟨fun hlt => absurd hlt Int32.lt_irrefl, fun hlt => absurd hlt Int32.lt_irrefl⟩
  exact (htold.forall_of_forall hself (hperm.mem_iff.mpr hf) (hperm.mem_iff.mpr hg)).1 hlt

theorem WeightsRule.moderate {t : Ecma119Image} (hsort : t.sortFiles = true)
    (rule : WeightsRule t) : Moderate (sourceArray t) := by
  intro f hf g hg
  by_contra hfar
  have hlow : 2 ^ 31 ≤ g.sortWeight.toInt - f.sortWeight.toInt := Int.not_lt.mp hfar
  have hbounds := weight_bounds f
  have hbounds' := weight_bounds g
  rcases Int.lt_or_eq_of_le hlow with hmore | hexact
  · have hgf := rule.heavy_first hsort hf hg (Int32.lt_iff_toInt_lt.mpr (by omega))
    rw [cmpByWeight_wraps_back hmore] at hgf
    omega
  · -- each of the two sources claims to be the heavier one
    have hswap := rule.consistent.antisymm f hf g hg
    have hfg : cmpByWeight f g < 0 := by
      rw [cmpByWeight_wraps hlow]
      omega
    have hgf : cmpByWeight g f < 0 := by
      rw [cmpByWeight_exact] <;> omega
    rw [sign_eq_lt.mpr hfg, sign_eq_lt.mpr hgf] at hswap
    exact absurd hswap (by decide)

/-- The sorted array obeys the weights exactly if no two weights are too far apart. -/
theorem weightsRule_iff_moderate {t : Ecma119Image} (hsort : t.sortFiles = true) :
    WeightsRule t ↔ Moderate (sourceArray t) := by
  refine ⟨fun rule => rule.moderate hsort, fun moderate => ⟨?_, ?_, moderate.consistent⟩⟩
  · intro qsort
    rw [filelist_eq qsort.plain hsort]
    exact qsort.plain.perm cmpByWeight (sourceArray t)
  · exact moderate.highestFirst hsort

/-- A new file of one block. -/
def weightedFile (sortWeight : Int32) : IsoFile where
  size := 2048
  fromOldSession := false
  oldSections := [⟨0, 0⟩]
  oldSections_ne := by decide
  sortWeight := sortWeight

/-- Two new files with the given weights. -/
def twoFiles (first second : Int32) : Ecma119Image where
  appendable := false
  oldEmpty := false
  sortFiles := true
  files := [isoFileSrcCreate false 1 (weightedFile first),
    isoFileSrcCreate false 2 (weightedFile second)]
  files_registered := by
    rintro f hf
    rcases List.mem_pair.mp hf with rfl | rfl
    · exact .created 1 (weightedFile first)
    · exact .created 2 (weightedFile second)
  files_distinct := by simp [isoFileSrcCreate]
  visits := [isoFileSrcCreate false 1 (weightedFile first),
    isoFileSrcCreate false 2 (weightedFile second)]
  visits_files := fun _ hf => hf
  terminatorBlock := 30
  curblock := 40
  curblock_ge := by decide
  curblock_lt := by decide
  terminator_le := by decide

theorem default_before_light :
    (twoFiles (-5) 0).sortFiles = true ∧ WeightsRule (twoFiles (-5) 0) :=
  ⟨rfl, (weightsRule_iff_moderate rfl).mpr (by decide)⟩

/-- A file of weight -2 is put before one of weight 2147483647. -/
theorem heaviest_last :
    ¬ ∀ t : Ecma119Image, t.sortFiles = true → WeightsRule t := by
  intro claim
  have hsorted := (claim (twoFiles (-2) 2147483647) rfl).sorted insertionQsort
  revert hsorted
  rw [HighestFirst]
  decide

end FileWeights
