import Libisofs.ZisofsCompress

/-!
# Runs of a zisofs compression filter

A run delivers the file header, the block pointers with which it began, and the compressed
blocks. At its end the list tells where the blocks begin. Each step of a call keeps account of
what is delivered and of what is still to come.
-/

namespace CompressRuns

open ByteBuffers (toLsb length_toLsb ofLsb ofLsb_toLsb_of_lt)
open FileData (Bytes)
open Halting PieceOffsets ZisofsCompress
open ZisofsAccount (BlockSize toOffT toUint64 announcedPointers numBlocks)

section Image

/-- The number of blocks for a number of bytes. -/
def blocksOf (blockSize n : Nat) : Nat := n / blockSize + if n % blockSize = 0 then 0 else 1

theorem lt_blocksOf_iff {blockSize n b : Nat} (hpos : 0 < blockSize) :
    b < blocksOf blockSize n ↔ b * blockSize < n := by
  have hdiv := Nat.div_add_mod' n blockSize
  have hmod := Nat.mod_lt n hpos
  rw [blocksOf]
  constructor
  · intro h
    split at h
    · have := Nat.mul_le_mul_right blockSize (show b + 1 ≤ n / blockSize by omega)
      rw [Nat.succ_mul] at this
      omega
    · have := Nat.mul_le_mul_right blockSize (show b ≤ n / blockSize by omega)
      omega
  · intro h
    by_contra hle
    split at hle
    · have := Nat.mul_le_mul_right blockSize (show n / blockSize ≤ b by omega)
      omega
    · have := Nat.mul_le_mul_right blockSize (show n / blockSize + 1 ≤ b by omega)
      rw [Nat.succ_mul] at this
      omega

variable (σ : Source)

def blockSize : BlockSize := blockSizeFor σ.params σ.origSize

def bytesPerBlock : Nat := (blockSize σ).value

def bufferSize : Nat := σ.zlib.compressBound (bytesPerBlock σ)

def version : Nat := if zisoDecideV2Usage σ.params σ.origSize then 2 else 1

/-- The number of block pointers. -/
def pointerCount : Nat := blocksOf (bytesPerBlock σ) σ.origSize + 1

def inputBlocks : Nat := blocksOf (bytesPerBlock σ) σ.content.length

def inputBlock (b : Nat) : Bytes :=
  (σ.content.drop (b * bytesPerBlock σ)).take (bytesPerBlock σ)

def compressed (b : Nat) : Option Bytes := compressBlock σ.zlib (bufferSize σ) (inputBlock σ b)

def pieces : List Bytes := (List.range (inputBlocks σ)).map fun b => (compressed σ b).getD []

def header : Bytes := fileHeader σ.params σ.origSize

def width : Nat := pointerWidth (version σ)

/-- The begin of a block in the compressed stream. -/
def offset (b : Nat) : Nat := offsetAt (firstBlock (version σ) (pointerCount σ)) (pieces σ) b

def offsets : List Nat := (List.range (pointerCount σ)).map (offset σ)

def encode (pointers : List Nat) : Bytes := pointers.flatMap (toLsb (width σ))

/-- What a run delivers which begins with these block pointers. -/
def runBytes (pointers : List Nat) : Bytes := header σ ++ encode σ pointers ++ (pieces σ).flatten

/-- The compressed stream as it shall be written. -/
def image : Bytes := runBytes σ (offsets σ)

/-- Header and block pointers precede the data and agree with them. -/
structure AgreesWithData (bytes : Bytes) : Prop where
  begins : header σ <+: bytes
  pointer : ∀ b < pointerCount σ,
    ofLsb ((bytes.drop ((header σ).length + width σ * b)).take (width σ)) = offset σ b
  count : pointerCount σ = inputBlocks σ + 1
  data : ∀ b < inputBlocks σ,
    compressed σ b = some ((bytes.drop (offset σ b)).take (offset σ (b + 1) - offset σ b))
  last : offset σ (inputBlocks σ) = bytes.length

/-- Pointers which are not known yet are 0. -/
structure Partial (pointers : List Nat) : Prop where
  length : pointers.length = pointerCount σ
  known : ∀ b < pointerCount σ, pointers.getD b 0 = 0 ∨ pointers.getD b 0 = offset σ b

/-- The pointers up to number `b` are known from the current run, the others from before. -/
def mixed (pointers : List Nat) (b : Nat) : List Nat :=
  (List.range (pointerCount σ)).map fun k => if k ≤ b then offset σ k else pointers.getD k 0

variable {σ}

theorem bytesPerBlock_pos : 0 < bytesPerBlock σ := Nat.two_pow_pos _

theorem length_header : (header σ).length = if version σ = 1 then 16 else 24 := by
  rw [header, fileHeader, version]
  split <;> simp [ZisofsUncompress.zisofsMagic, ZisofsUncompress.zisofs2Magic]

theorem length_encode (pointers : List Nat) :
    (encode σ pointers).length = pointers.length * width σ :=
  length_flatMap_fixed (fun _ => length_toLsb _ _) pointers

/-- Data blocks begin right after the block pointers. -/
theorem firstBlock_eq : firstBlock (version σ) (pointerCount σ) =
    (header σ).length + pointerCount σ * width σ := by
  rw [firstBlock, length_header, width, pointerWidth]
  split <;> rfl

theorem length_pieces : (pieces σ).length = inputBlocks σ := by
  rw [pieces, List.length_map, List.length_range]

theorem getElem?_pieces {b : Nat} (hb : b < inputBlocks σ) :
    (pieces σ)[b]? = some ((compressed σ b).getD []) := by
  simp [pieces, hb]

theorem length_offsets : (offsets σ).length = pointerCount σ := by
  rw [offsets, List.length_map, List.length_range]

theorem getD_offsets {b : Nat} (hb : b < pointerCount σ) : (offsets σ).getD b 0 = offset σ b := by
  simp [offsets, hb]

theorem offset_pos (b : Nat) : 0 < offset σ b := by
  have hbase : firstBlock (version σ) (pointerCount σ) ≤ offset σ b := base_le_offsetAt b
  have hfirst : 0 < firstBlock (version σ) (pointerCount σ) := by
    rw [firstBlock]
    split <;> omega
  exact hfirst.trans_le hbase

theorem length_image : (image σ).length =
    firstBlock (version σ) (pointerCount σ) + (pieces σ).flatten.length := by
  rw [image, runBytes, List.length_append, List.length_append, length_encode, length_offsets,
    firstBlock_eq]

theorem offset_le (b : Nat) : offset σ b ≤ (image σ).length := by
  rw [length_image]
  exact offsetAt_le b

theorem offset_succ {b : Nat} {out : Bytes} (hb : b < inputBlocks σ)
    (hout : compressed σ b = some out) : offset σ (b + 1) = offset σ b + out.length := by
  have hpiece := getElem?_pieces hb
  rw [hout, Option.getD_some] at hpiece
  exact offsetAt_succ hpiece

theorem partial_offsets : Partial σ (offsets σ) :=
  ⟨length_offsets, fun _ hb => Or.inr (getD_offsets hb)⟩

theorem partial_zeros : Partial σ (List.replicate (pointerCount σ) 0) := by
  refine ⟨List.length_replicate, fun b hb => Or.inl ?_⟩
  simp [hb]

/-- A fresh list cannot be confused with one that is complete. -/
theorem zeros_ne_offsets : List.replicate (pointerCount σ) 0 ≠ offsets σ := by
  intro h
  have hpos := offset_pos (σ := σ) 0
  have hzero : 0 < pointerCount σ := Nat.succ_pos _
  rw [← getD_offsets hzero, ← h] at hpos
  simp [hzero] at hpos

theorem getElem?_mixed (pointers : List Nat) (b k : Nat) :
    (mixed σ pointers b)[k]? =
      if k < pointerCount σ then some (if k ≤ b then offset σ k else pointers.getD k 0)
      else none := by
  rw [mixed, List.getElem?_map]
  split
  · rename_i hk
    rw [List.getElem?_range hk, Option.map_some]
  · rename_i hk
    rw [List.getElem?_eq_none (by simpa using hk), Option.map_none]

theorem mixed_begin {pointers : List Nat} (hlen : pointers.length = pointerCount σ) :
    pointers.set 0 (firstBlock (version σ) (pointerCount σ)) = mixed σ pointers 0 := by
  have hfirst : offset σ 0 = firstBlock (version σ) (pointerCount σ) := offsetAt_zero
  have hpos : 0 < pointerCount σ := Nat.succ_pos _
  apply List.ext_getElem?
  intro k
  rw [getElem?_mixed, List.getElem?_set, hlen]
  cases k with
  | zero => rw [if_pos rfl, if_pos hpos, if_pos hpos, if_pos (Nat.le_refl 0), hfirst]
  | succ k =>
    rw [if_neg (Nat.succ_ne_zero k).symm, if_neg (Nat.not_succ_le_zero k)]
    split
    · simp [List.getElem?_eq_getElem (show k + 1 < pointers.length by omega)]
    · exact List.getElem?_eq_none (by omega)

theorem getD_mixed {pointers : List Nat} {b k : Nat} (hk : k < pointerCount σ) :
    (mixed σ pointers b).getD k 0 = if k ≤ b then offset σ k else pointers.getD k 0 := by
  rw [List.getD_eq_getElem?_getD, getElem?_mixed, if_pos hk, Option.getD_some]

theorem mixed_next (pointers : List Nat) {b : Nat} (hb : b + 1 < pointerCount σ) :
    (mixed σ pointers b).set (b + 1) (offset σ (b + 1)) = mixed σ pointers (b + 1) := by
  have hlen : (mixed σ pointers b).length = pointerCount σ := by simp [mixed]
  apply List.ext_getElem?
  intro k
  rw [getElem?_mixed, List.getElem?_set, getElem?_mixed, hlen]
  rcases Nat.lt_trichotomy k (b + 1) with h | rfl | h
  · rw [if_neg (by omega), if_pos (show k ≤ b by omega), if_pos (Nat.le_of_lt h)]
  · rw [if_pos rfl, if_pos hb, if_pos hb, if_pos (Nat.le_refl _)]
  · rw [if_neg (Nat.ne_of_lt h), if_neg (show ¬ k ≤ b by omega),
      if_neg (show ¬ k ≤ b + 1 by omega)]

/-- A pointer which is already known stays as it is. -/
theorem mixed_same {pointers : List Nat} {b : Nat}
    (h : pointers.getD (b + 1) 0 = offset σ (b + 1)) :
    mixed σ pointers b = mixed σ pointers (b + 1) := by
  rw [mixed, mixed]
  apply List.map_congr_left
  intro k _
  rcases Nat.lt_trichotomy k (b + 1) with hk | rfl | hk
  · rw [if_pos (Nat.le_of_lt_succ hk), if_pos (Nat.le_of_lt hk)]
  · rw [if_neg (by omega), if_pos (Nat.le_refl _), h]
  · rw [if_neg (by omega), if_neg (by omega)]

theorem mixed_last (pointers : List Nat) {b : Nat} (h : pointerCount σ ≤ b + 1) :
    mixed σ pointers b = offsets σ := by
  rw [mixed, offsets]
  apply List.map_congr_left
  intro k hk
  rw [if_pos]
  have := List.mem_range.mp hk
  omega

end Image

section Invariant

variable {σ : Source} {around : Surroundings} {pointers : List Nat}
variable {delivered : Bytes} {desired : Nat} {c : Call} {data : ZisofsComprStreamData}
variable {rng : ZisofsFilterRuntime}

/-- The checks of the file header. -/
def HeadOk (σ : Source) : Prop :=
  pointerCount σ ≤ σ.params.zisoMaxFileBlocks ∧
    (zisoDecideV2Usage σ.params σ.origSize = true ∨ σ.origSize < 2 ^ 32)

/-- The size of the list of block pointers can be told in an int. -/
def Small (σ : Source) : Prop := pointerCount σ * width σ < 2 ^ 31

/-- The list of block pointers, or none which means that all of them are 0. -/
def ListIs (pointers : List Nat) (σ : Source) (data : ZisofsComprStreamData) : Prop :=
  data.blockPointers = some pointers ∨
    data.blockPointers = none ∧ pointers = List.replicate (pointerCount σ) 0

def HeadDone (σ : Source) (rng : ZisofsFilterRuntime) : Prop :=
  rng.zisofsVersion = version σ ∧ HeadOk σ

/-- A run has gone through the whole content. -/
structure Complete (σ : Source) : Prop where
  head : HeadOk σ
  small : Small σ
  length : σ.content.length = σ.origSize
  compressed : ∀ b < inputBlocks σ, (compressed σ b).isSome

/-- Where a run is which began with the given block pointers. -/
def Track (σ : Source) (pointers : List Nat) (data : ZisofsComprStreamData)
    (rng : ZisofsFilterRuntime) : Prop :=
  match rng.state with
  | .header =>
    rng.blockPointerFill = 0 ∧ rng.blockPointerRpos = 0 ∧ rng.inCounter = 0 ∧
      data.orig = σ.content ∧ ListIs pointers σ data ∧ (rng.blockBuffer ≠ [] → HeadDone σ rng)
  | .blockPointers =>
    HeadDone σ rng ∧ rng.inCounter = 0 ∧ data.orig = σ.content ∧
      (rng.blockPointerFill = 0 ∧ rng.blockPointerRpos = 0 ∧ ListIs pointers σ data ∨
        rng.blockPointerFill = pointerCount σ ∧ rng.blockPointerRpos ≤ pointerCount σ ∧
          data.blockPointers = some pointers ∧ (rng.blockPointerRpos = 0 ∨ Small σ))
  | .dataBlocks =>
    HeadOk σ ∧ Small σ ∧ rng.blockCounter ≤ inputBlocks σ ∧
      rng.blockCounter < pointerCount σ ∧
      data.blockPointers = some (mixed σ pointers rng.blockCounter) ∧
      data.orig = σ.content.drop (rng.blockCounter * bytesPerBlock σ) ∧
      rng.inCounter = min (rng.blockCounter * bytesPerBlock σ) σ.content.length ∧
      ∀ b < rng.blockCounter, (compressed σ b).isSome
  | .ended => Complete σ ∧ data.blockPointers = some (offsets σ) ∧ rng.pending = []

/-- What the run is still to deliver. -/
def rest (σ : Source) (pointers : List Nat) (rng : ZisofsFilterRuntime) : Bytes :=
  match rng.state with
  | .header =>
    (if rng.blockBuffer = [] then header σ else rng.pending) ++ encode σ pointers ++
      (pieces σ).flatten
  | .blockPointers =>
    rng.pending ++ encode σ (pointers.drop rng.blockPointerRpos) ++ (pieces σ).flatten
  | .dataBlocks => rng.pending ++ ((pieces σ).drop rng.blockCounter).flatten
  | .ended => rng.pending

/-- What holds in the course of a run. -/
structure Running (σ : Source) (pointers : List Nat) (delivered : Bytes)
    (data : ZisofsComprStreamData) (rng : ZisofsFilterRuntime) : Prop where
  blockSize : rng.blockSize = blockSize σ
  bufferSize : rng.bufferSize = bufferSize σ
  sound : ¬ rng.errorRet < 0
  sized : data.size < 0 ∨ data.size = (image σ).length
  track : Track σ pointers data rng
  account : delivered ++ rest σ pointers rng = runBytes σ pointers

/-- Nothing hampers the call. -/
structure Untroubled (σ : Source) (around : Surroundings) : Prop where
  fits : around.fits (pointerCount σ) 0 = true
  size : around.sizeNow = σ.origSize
  reads : ∀ b, around.readFails b = none

/-- A run of a source for which a run has already been completed, with the resulting list. -/
def Repeated (σ : Source) (pointers : List Nat) : Prop := Complete σ ∧ pointers = offsets σ

/-- What holds at each point of a call, `delivered` being the bytes from earlier calls. -/
def Within (σ : Source) (around : Surroundings) (pointers : List Nat) (delivered : Bytes)
    (desired : Nat) (c : Call) : Prop :=
  match c.control with
  | .header =>
    Running σ pointers (delivered ++ c.buf) c.data c.rng ∧ c.buf.length < desired ∧
      (c.rng.state = .ended → c.buf = [])
  | .blockPointers =>
    Running σ pointers (delivered ++ c.buf) c.data c.rng ∧ c.buf.length < desired ∧
      (c.rng.state = .ended → c.buf = []) ∧ (c.rng.state = .header → c.rng.pending ≠ [])
  | .dataBlocks =>
    Running σ pointers (delivered ++ c.buf) c.data c.rng ∧ c.buf.length < desired ∧
      (c.rng.state = .ended → c.buf = []) ∧
      (c.rng.state = .header ∨ c.rng.state = .blockPointers → c.rng.pending ≠ [])
  | .transfer =>
    Running σ pointers (delivered ++ c.buf) c.data c.rng ∧ c.buf.length < desired ∧
      c.rng.pending ≠ []
  | .done ret =>
    ret < 0 ∧ c.rng.errorRet < 0 ∧ (Repeated σ pointers → ¬ Untroubled σ around) ∧
        (pointers = offsets σ → c.data.blockPointers = some (offsets σ)) ∨
      ret = c.buf.length ∧ Running σ pointers (delivered ++ c.buf) c.data c.rng ∧
        c.buf.length ≤ desired ∧ (c.buf.length < desired → c.rng.state = .ended)
  | .overflow => ¬ Small σ

theorem Call.fail_within {code : Int} (hcode : code < 0)
    (hlist : pointers = offsets σ → c.data.blockPointers = some (offsets σ))
    (hblame : Repeated σ pointers → ¬ Untroubled σ around) :
    Within σ around pointers delivered desired (c.fail code) :=
  Or.inl ⟨hcode, hcode, hblame, hlist⟩

/-- A list which is complete from the begin stays so. -/
theorem Running.list (running : Running σ pointers delivered data rng)
    (hoffsets : pointers = offsets σ) : data.blockPointers = some (offsets σ) := by
  subst hoffsets
  have htrack := running.track
  have hlisted : ListIs (offsets σ) σ data → data.blockPointers = some (offsets σ) := by
    rintro (hsome | ⟨-, hzeros⟩)
    · exact hsome
    · exact absurd hzeros.symm zeros_ne_offsets
  rw [Track] at htrack
  split at htrack
  · exact hlisted htrack.2.2.2.2.1
  · rcases htrack.2.2.2 with ⟨-, -, hlist⟩ | ⟨-, -, hsome, -⟩
    · exact hlisted hlist
    · exact hsome
  · rw [htrack.2.2.2.2.1]
    congr 1
    rw [mixed, offsets]
    apply List.map_congr_left
    intro k hk
    split
    · rfl
    · exact getD_offsets (List.mem_range.mp hk)
  · exact htrack.2.1

theorem pending_ne_nil : rng.pending ≠ [] ↔ ¬ rng.blockBuffer.length ≤ rng.bufferRpos := by
  rw [ZisofsFilterRuntime.pending, ne_eq, List.drop_eq_nil_iff]

theorem fileHeader_ne_nil : header σ ≠ [] := by
  intro h
  have hlen := length_header (σ := σ)
  rw [h] at hlen
  split at hlen <;> exact absurd hlen (by decide)

theorem blockBuffer_ne_nil (h : rng.pending ≠ []) : rng.blockBuffer ≠ [] := by
  intro hnil
  rw [ZisofsFilterRuntime.pending, hnil, List.drop_nil] at h
  exact h rfl

theorem pointerCount_lt : pointerCount σ < 2 ^ 63 := by
  have hvalue : 2 ^ 15 ≤ bytesPerBlock σ := Nat.pow_le_pow_right (by decide) (blockSize σ).log2_ge
  have hdiv : σ.origSize / bytesPerBlock σ ≤ σ.origSize / 2 ^ 15 :=
    Nat.div_le_div_left hvalue (Nat.two_pow_pos 15)
  have hlt := σ.origSize_lt
  rw [pointerCount, blocksOf]
  generalize σ.origSize / bytesPerBlock σ = quotient at hdiv ⊢
  split <;> omega

theorem numBlocks_eq : numBlocks σ.origSize (blockSize σ) = pointerCount σ := by
  have hlt := pointerCount_lt (σ := σ)
  have hsum : σ.origSize / bytesPerBlock σ + 1 +
      (if σ.origSize % bytesPerBlock σ = 0 then 0 else 1) = pointerCount σ := by
    rw [pointerCount, blocksOf]
    omega
  rw [numBlocks, ← bytesPerBlock, hsum]
  exact Nat.mod_eq_of_lt (by omega)

/-- The header computes the same number of block pointers, if the size is still the same. -/
theorem announcedPointers_eq :
    toUint64 (announcedPointers (σ.origSize : Int) (blockSize σ)) = pointerCount σ := by
  have hsum : announcedPointers (σ.origSize : Int) (blockSize σ) = (pointerCount σ : Int) := by
    have hmod : ((σ.origSize : Int).tmod (bytesPerBlock σ : Int) = 0) ↔
        σ.origSize % bytesPerBlock σ = 0 := by
      rw [Int.tmod_eq_emod_of_nonneg (Int.natCast_nonneg _)]
      omega
    rw [announcedPointers, ← bytesPerBlock, pointerCount, blocksOf,
      Int.tdiv_eq_ediv_of_nonneg (Int.natCast_nonneg _)]
    by_cases hzero : σ.origSize % bytesPerBlock σ = 0
    · rw [if_pos (hmod.mpr hzero), if_pos hzero]
      push_cast
      omega
    · rw [if_neg (fun h => hzero (hmod.mp h)), if_neg hzero]
      push_cast
      omega
  rw [hsum]
  exact ZisofsAccount.toUint64_of_lt pointerCount_lt

theorem toOffT_origSize : toOffT σ.origSize = σ.origSize :=
  ZisofsAccount.toOffT_of_lt σ.origSize_lt

theorem makeHeader_within (hstate : c.rng.state = .header) (hempty : c.rng.blockBuffer = [])
    (running : Running σ pointers (delivered ++ c.buf) c.data c.rng)
    (hroom : c.buf.length < desired) :
    Within σ around pointers delivered desired (makeHeader σ around c) := by
  have hkept := running.list
  obtain ⟨hblock, hbuffer, hsound, hsized, htrack, haccount⟩ := running
  rw [Track, hstate] at htrack
  rw [makeHeader, hblock]
  have hcount : around.sizeNow = σ.origSize →
      toUint64 (announcedPointers around.sizeNow (blockSize σ)) = pointerCount σ := by
    intro hsize
    rw [hsize]
    exact announcedPointers_eq
  dsimp only
  split
  · rename_i hmany
    refine Call.fail_within (by decide) hkept fun repeated untroubled => ?_
    rw [hcount untroubled.size] at hmany
    exact Nat.not_lt.mpr repeated.1.head.1 hmany
  · rename_i hfew
    split
    · rename_i hunfit
      refine Call.fail_within (by decide) hkept fun _ untroubled => ?_
      rw [hcount untroubled.size, untroubled.fits] at hunfit
      exact Bool.noConfusion hunfit
    · split
      · rename_i hother
        refine Call.fail_within ZisofsUncompress.isoFilterWrongInput.property hkept
          fun _ untroubled => hother ?_
        rw [untroubled.size, toOffT_origSize]
      · rename_i hsame
        have hsize : around.sizeNow = σ.origSize := by
          rw [← toOffT_origSize]
          exact not_not.mp hsame
        rw [hcount hsize] at hfew
        split
        · rename_i hlarge
          simp only [Bool.and_eq_true, Bool.not_eq_true', decide_eq_true_eq] at hlarge
          refine Call.fail_within (by decide) hkept fun repeated _ => ?_
          rcases repeated.1.head.2 with hv2 | hless
          · exact Bool.noConfusion (hlarge.1.symm.trans hv2)
          · exact Nat.not_lt.mpr hlarge.2 hless
        · rename_i hfits
          have hhead : HeadOk σ := by
            refine ⟨Nat.not_lt.mp hfew, ?_⟩
            by_cases hv2 : zisoDecideV2Usage σ.params σ.origSize = true
            · exact Or.inl hv2
            · refine Or.inr (Nat.not_le.mp fun hle => hfits ?_)
              rw [Bool.eq_false_iff.mpr hv2]
              simpa using hle
          have hfill : fileHeader σ.params σ.origSize ≠ [] := fileHeader_ne_nil
          refine ⟨⟨hblock, hbuffer, hsound, hsized, ?_, ?_⟩, hroom,
            fun h => State.noConfusion (hstate.symm.trans h), fun _ => ?_⟩
          · rw [Track]
            dsimp only
            rw [hstate]
            exact ⟨htrack.1, htrack.2.1, htrack.2.2.1, htrack.2.2.2.1, htrack.2.2.2.2.1,
              fun _ => ⟨rfl, hhead⟩⟩
          · rw [rest, hstate] at haccount
            rw [rest]
            dsimp only at haccount ⊢
            rw [hstate]
            dsimp only
            rw [if_neg hfill, ← haccount, if_pos hempty]
            rfl
          · exact hfill

theorem stepHeader_within (hcontrol : c.control = .header)
    (within : Within σ around pointers delivered desired c) :
    Within σ around pointers delivered desired (stepHeader σ around c) := by
  rw [Within, hcontrol] at within
  obtain ⟨running, hroom, hend⟩ := within
  rw [stepHeader]
  split
  · rename_i hstate
    split
    · rename_i hempty
      exact makeHeader_within hstate hempty running hroom
    · rename_i hfull
      obtain ⟨hblock, hbuffer, hsound, hsized, htrack, haccount⟩ := running
      have hdone := htrack
      rw [Track, hstate] at hdone
      obtain ⟨hfill, hrpos, hin, horig, hlist, hhead⟩ := hdone
      split
      · rename_i hconsumed
        refine ⟨⟨hblock, hbuffer, hsound, hsized, ?_, ?_⟩, hroom,
          fun h => State.noConfusion h, fun h => State.noConfusion h⟩
        · exact ⟨hhead hfull, hin, horig, Or.inl ⟨hfill, hrpos, hlist⟩⟩
        · have hnone : c.rng.pending = [] := List.drop_eq_nil_of_le hconsumed
          rw [rest, hstate] at haccount
          dsimp only at haccount
          rw [if_neg hfull, hnone, List.nil_append] at haccount
          simpa [rest, ZisofsFilterRuntime.pending, hrpos] using haccount
      · rename_i hwaiting
        exact ⟨⟨hblock, hbuffer, hsound, hsized, htrack, haccount⟩, hroom, hend,
          fun _ => pending_ne_nil.mpr hwaiting⟩
  · rename_i hstate
    obtain ⟨hblock, hbuffer, hsound, hsized, htrack, haccount⟩ := running
    exact ⟨⟨hblock, hbuffer, hsound, hsized, htrack, haccount⟩, hroom, hend,
      fun h => absurd h hstate⟩

/-- The list exists and the run is in the midst of its delivery. -/
structure Listed (σ : Source) (pointers : List Nat) (c : Call) : Prop where
  state : c.rng.state = .blockPointers
  blockPointerFill : c.rng.blockPointerFill = pointerCount σ
  blockPointers : c.data.blockPointers = some pointers

theorem pointerCount_pos : 0 < pointerCount σ := Nat.succ_pos _

/-- Writing of block pointers gets a list, or the call fails. -/
theorem initBlockPointers_within (around : Surroundings) (desired : Nat)
    (hcontrol : c.control = .blockPointers)
    (hstate : c.rng.state = .blockPointers)
    (running : Running σ pointers (delivered ++ c.buf) c.data c.rng) :
    (∃ ret, (initBlockPointers σ around c).control = .done ret) ∧
        Within σ around pointers delivered desired (initBlockPointers σ around c) ∨
      (initBlockPointers σ around c).control = .blockPointers ∧
        (initBlockPointers σ around c).buf = c.buf ∧
        Listed σ pointers (initBlockPointers σ around c) ∧
        Running σ pointers (delivered ++ c.buf) (initBlockPointers σ around c).data
          (initBlockPointers σ around c).rng := by
  have hkeep := running
  have hkept := running.list
  obtain ⟨hblock, hbuffer, hsound, hsized, htrack, haccount⟩ := running
  rw [Track, hstate] at htrack
  obtain ⟨hhead, hin, horig, hlist⟩ := htrack
  have hpos := pointerCount_pos (σ := σ)
  rw [initBlockPointers, hblock, numBlocks_eq]
  rcases hlist with ⟨hfill, hrpos, hlist⟩ | ⟨hfill, hrpos, hsome, hsmall⟩
  · rw [if_neg (fun h => h.1 hfill)]
    dsimp only
    rw [if_neg (fun h => absurd hfill (Nat.ne_of_gt h.1))]
    rw [rest, hstate] at haccount
    dsimp only at haccount
    rw [hrpos] at haccount
    rcases hlist with hsome | ⟨hnone, hzeros⟩
    · right
      rw [if_pos (by rw [hsome]; rfl)]
      refine ⟨hcontrol, rfl, ⟨hstate, rfl, hsome⟩, ⟨hblock, hbuffer, hsound, hsized, ?_, ?_⟩⟩
      · rw [Track]
        dsimp only
        rw [hstate]
        exact ⟨hhead, hin, horig, Or.inr ⟨rfl, Nat.zero_le _, hsome, Or.inl rfl⟩⟩
      · rw [rest]
        dsimp only
        rw [hstate]
        exact haccount
    · have hblame : ¬ Repeated σ pointers := by
        rintro ⟨-, hoffsets⟩
        exact zeros_ne_offsets (hzeros.symm.trans hoffsets)
      rw [if_neg (by rw [hnone]; exact Bool.false_ne_true)]
      split
      · exact Or.inl ⟨⟨_, rfl⟩, Call.fail_within (by decide) hkept fun h => absurd h hblame⟩
      · split
        · exact Or.inl ⟨⟨_, rfl⟩, Call.fail_within (by decide) hkept fun h => absurd h hblame⟩
        · right
          have hcreated : some (List.replicate (pointerCount σ) 0) = some pointers := by
            rw [hzeros]
          refine ⟨hcontrol, rfl, ⟨hstate, rfl, hcreated⟩, ⟨hblock, hbuffer, hsound, hsized, ?_, ?_⟩⟩
          · rw [Track]
            dsimp only
            rw [hstate]
            exact ⟨hhead, hin, horig, Or.inr ⟨rfl, Nat.zero_le _, hcreated, Or.inl rfl⟩⟩
          · rw [rest]
            dsimp only
            rw [hstate]
            exact haccount
  · right
    rw [if_pos ⟨by omega, by rw [hsome]; rfl⟩]
    exact ⟨hcontrol, rfl, ⟨hstate, hfill, hsome⟩, hkeep⟩

theorem width_pos : 0 < width σ := by
  rw [width, pointerWidth]
  split <;> decide

theorem width_le : width σ ≤ 8 := by
  rw [width, pointerWidth]
  split <;> decide

/-- A block buffer can take at least one block pointer. -/
theorem width_le_bufferSize : width σ ≤ bufferSize σ := by
  have hvalue : 2 ^ 15 ≤ bytesPerBlock σ := Nat.pow_le_pow_right (by decide) (blockSize σ).log2_ge
  have hbound : bytesPerBlock σ ≤ bufferSize σ := σ.zlib.bound_ge _
  have hwidth := width_le (σ := σ)
  omega

theorem fillPointers_within (listed : Listed σ pointers c) (hlen : pointers.length = pointerCount σ)
    (hconsumed : c.rng.pending = []) (hmore : c.rng.blockPointerRpos < pointerCount σ)
    (running : Running σ pointers (delivered ++ c.buf) c.data c.rng)
    (hroom : c.buf.length < desired) :
    Within σ around pointers delivered desired (fillPointers pointers c) := by
  obtain ⟨hblock, hbuffer, hsound, hsized, htrack, haccount⟩ := running
  obtain ⟨hstate, hfill, hsome⟩ := listed
  rw [Track, hstate] at htrack
  obtain ⟨⟨hversion, hhead⟩, hin, horig, hlist⟩ := htrack
  rw [rest, hstate] at haccount
  dsimp only at haccount
  rw [hconsumed, List.nil_append] at haccount
  have hwidth : pointerWidth c.rng.zisofsVersion = width σ := by rw [hversion]; rfl
  rw [fillPointers, hwidth, hfill, hbuffer]
  dsimp only
  split
  · rename_i hlarge
    rw [Within]
    intro hsmall
    have hless : (pointerCount σ - c.rng.blockPointerRpos) * width σ ≤
        pointerCount σ * width σ := Nat.mul_le_mul_right _ (Nat.sub_le _ _)
    rw [Small] at hsmall
    omega
  · rename_i hint
    have hsmall : c.rng.blockPointerRpos = 0 ∨ Small σ := by
      rcases hlist with ⟨-, hzero, -⟩ | ⟨-, -, -, h⟩
      · exact Or.inl hzero
      · exact h
    have hsmall' : Small σ := by
      rcases hsmall with hzero | h
      · rw [hzero, Nat.sub_zero] at hint
        exact Nat.not_le.mp hint
      · exact h
    generalize htodo : (if (pointerCount σ - c.rng.blockPointerRpos) * width σ > bufferSize σ then
      bufferSize σ / width σ else pointerCount σ - c.rng.blockPointerRpos) = todo
    have hle : todo ≤ pointerCount σ - c.rng.blockPointerRpos := by
      split at htodo
      · rename_i hmany
        rw [← htodo]
        exact Nat.div_le_of_le_mul (by rw [Nat.mul_comm]; exact Nat.le_of_lt hmany)
      · omega
    have hpos : 0 < todo := by
      split at htodo
      · rw [← htodo]
        exact Nat.div_pos width_le_bufferSize width_pos
      · omega
    refine ⟨⟨hblock, hbuffer, hsound, hsized, ?_, ?_⟩, hroom,
      fun h => State.noConfusion (hstate.symm.trans h), fun _ => ?_⟩
    · rw [Track]
      dsimp only
      rw [hstate]
      refine ⟨⟨hversion, hhead⟩, hin, horig, Or.inr ⟨hfill, ?_, hsome, Or.inr hsmall'⟩⟩
      omega
    · rw [rest]
      dsimp only
      rw [hstate]
      have hsplit : encode σ (pointers.drop c.rng.blockPointerRpos) =
          ((pointers.drop c.rng.blockPointerRpos).take todo).flatMap (toLsb (width σ)) ++
            encode σ (pointers.drop (c.rng.blockPointerRpos + todo)) := by
        rw [encode, encode, ← List.flatMap_append, ← List.drop_drop, List.take_append_drop]
      rw [hsplit] at haccount
      exact haccount
    · intro hnil
      have hbytes : (((pointers.drop c.rng.blockPointerRpos).take todo).flatMap
          (toLsb (width σ))).length = todo * width σ := by
        rw [length_flatMap_fixed (fun _ => length_toLsb _ _), List.length_take, List.length_drop,
          Nat.min_eq_left (by omega)]
      have hzero := congrArg List.length hnil
      rw [ZisofsFilterRuntime.pending, List.drop_zero, hbytes, List.length_nil] at hzero
      have := Nat.mul_pos hpos (width_pos (σ := σ))
      omega

theorem deliverBlockPointers_within (known : Partial σ pointers) (listed : Listed σ pointers c)
    (running : Running σ pointers (delivered ++ c.buf) c.data c.rng)
    (hroom : c.buf.length < desired) :
    Within σ around pointers delivered desired (deliverBlockPointers c) := by
  rw [deliverBlockPointers]
  split
  · rename_i hconsumed
    have hnone : c.rng.pending = [] := List.drop_eq_nil_of_le hconsumed
    have hkeep := running
    obtain ⟨hblock, hbuffer, hsound, hsized, htrack, haccount⟩ := running
    have hlisted := listed
    obtain ⟨hstate, hfill, hsome⟩ := listed
    rw [Track, hstate] at htrack
    obtain ⟨⟨hversion, hhead⟩, hin, horig, hlist⟩ := htrack
    dsimp only
    rw [hsome, Option.getD_some]
    split
    · rename_i hall
      have hpos := pointerCount_pos (σ := σ)
      have hdone : c.rng.blockPointerRpos = pointerCount σ ∧ Small σ := by
        rcases hlist with ⟨-, hzero, -⟩ | ⟨-, hle, -, hsmall⟩
        · omega
        · refine ⟨by omega, hsmall.resolve_left (by omega)⟩
      rw [hversion, hfill, mixed_begin known.length]
      refine ⟨⟨hblock, hbuffer, hsound, hsized, ?_, ?_⟩, hroom,
        fun h => State.noConfusion h, ?_⟩
      · rw [Track]
        refine ⟨hhead, hdone.2, Nat.zero_le _, hpos, rfl, ?_, ?_, ?_⟩
        · simpa using horig
        · simpa using hin
        · exact fun b hb => absurd hb (Nat.not_lt_zero b)
      · rw [rest, hstate] at haccount
        dsimp only at haccount
        rw [hnone, hdone.1, ← known.length, List.drop_length, List.nil_append] at haccount
        simpa [rest, ZisofsFilterRuntime.pending, encode] using haccount
      · rintro (h | h) <;> exact State.noConfusion h
    · rename_i hmore
      exact fillPointers_within hlisted known.length hnone (by omega) hkeep hroom
  · rename_i hwaiting
    obtain ⟨hblock, hbuffer, hsound, hsized, htrack, haccount⟩ := running
    exact ⟨⟨hblock, hbuffer, hsound, hsized, htrack, haccount⟩, hroom,
      fun h => State.noConfusion (listed.state.symm.trans h),
      fun _ => pending_ne_nil.mpr hwaiting⟩

theorem stepBlockPointers_within (hcontrol : c.control = .blockPointers)
    (known : Partial σ pointers) (within : Within σ around pointers delivered desired c) :
    Within σ around pointers delivered desired (stepBlockPointers σ around c) := by
  rw [Within, hcontrol] at within
  obtain ⟨running, hroom, hend, hwaiting⟩ := within
  rw [stepBlockPointers]
  split
  · rename_i hstate
    dsimp only
    rcases initBlockPointers_within around desired hcontrol hstate running with
      ⟨⟨ret, hdone⟩, hwithin⟩ | ⟨hgoes, hbuf, listed, running'⟩
    · rw [if_neg (by rw [hdone]; exact Control.noConfusion)]
      exact hwithin
    · rw [if_pos hgoes]
      exact deliverBlockPointers_within known listed (hbuf ▸ running') (hbuf ▸ hroom)
  · rename_i hstate
    obtain ⟨hblock, hbuffer, hsound, hsized, htrack, haccount⟩ := running
    exact ⟨⟨hblock, hbuffer, hsound, hsized, htrack, haccount⟩, hroom, hend,
      fun h => hwaiting (h.resolve_right hstate)⟩

theorem toTransfer_within (running : Running σ pointers (delivered ++ c.buf) c.data c.rng)
    (hroom : c.buf.length < desired) (hwaiting : c.rng.pending ≠ []) :
    Within σ around pointers delivered desired (toTransfer c) := by
  obtain ⟨hblock, hbuffer, hsound, hsized, htrack, haccount⟩ := running
  rw [toTransfer, if_neg (fun h => pending_ne_nil.mp hwaiting h.2)]
  exact ⟨⟨hblock, hbuffer, hsound, hsized, htrack, haccount⟩, hroom, hwaiting⟩

/-- The block pointer behind a block agrees with the list, or gets recorded. -/
theorem checkPointer_within {out : Bytes} (known : Partial σ pointers)
    (hstate : c.rng.state = .dataBlocks) (hblock : c.rng.blockSize = blockSize σ)
    (hbuffer : c.rng.bufferSize = bufferSize σ) (hsound : ¬ c.rng.errorRet < 0)
    (hsized : c.data.size < 0 ∨ c.data.size = (image σ).length) (hhead : HeadOk σ)
    (hsmall : Small σ) (hb : c.rng.blockCounter < inputBlocks σ)
    (hnext : c.rng.blockCounter + 1 < pointerCount σ)
    (hlist : c.data.blockPointers = some (mixed σ pointers c.rng.blockCounter))
    (horig : c.data.orig = σ.content.drop ((c.rng.blockCounter + 1) * bytesPerBlock σ))
    (hin : c.rng.inCounter = min ((c.rng.blockCounter + 1) * bytesPerBlock σ) σ.content.length)
    (hdone : ∀ b < c.rng.blockCounter, (compressed σ b).isSome)
    (hout : compressed σ c.rng.blockCounter = some out)
    (haccount : delivered ++ c.buf ++ ((pieces σ).drop c.rng.blockCounter).flatten =
      runBytes σ pointers) (hroom : c.buf.length < desired) :
    Within σ around pointers delivered desired (checkPointer out c) := by
  have hself : (mixed σ pointers c.rng.blockCounter).getD c.rng.blockCounter 0 =
      offset σ c.rng.blockCounter := by
    rw [getD_mixed (by omega), if_pos (Nat.le_refl _)]
  have hlater : (mixed σ pointers c.rng.blockCounter).getD (c.rng.blockCounter + 1) 0 =
      pointers.getD (c.rng.blockCounter + 1) 0 := by
    rw [getD_mixed hnext, if_neg (by omega)]
  have hpoint := offset_succ hb hout
  have hinside := offset_le (σ := σ) (c.rng.blockCounter + 1)
  have hpos := offset_pos (σ := σ) (c.rng.blockCounter + 1)
  have hpiece := getElem?_pieces hb
  rw [hout, Option.getD_some] at hpiece
  obtain ⟨hlt, hget⟩ := List.getElem?_eq_some_iff.mp hpiece
  rw [List.drop_eq_getElem_cons hlt, hget, List.flatten_cons] at haccount
  have hdone' : ∀ b < c.rng.blockCounter + 1, (compressed σ b).isSome := by
    intro b hlt
    rcases Nat.lt_succ_iff_lt_or_eq.mp hlt with h | rfl
    · exact hdone b h
    · rw [hout]
      rfl
  rw [checkPointer, hlist]
  simp only [Option.getD_some, hself, hlater, ← hpoint]
  rw [if_neg (by omega)]
  have hmatch : ¬ (0 < pointers.getD (c.rng.blockCounter + 1) 0 ∧
      offset σ (c.rng.blockCounter + 1) ≠ pointers.getD (c.rng.blockCounter + 1) 0) := by
    rintro ⟨hset, hother⟩
    rcases known.known _ hnext with h | h
    · omega
    · exact hother h.symm
  rw [if_neg hmatch]
  -- recorded now or before, the list becomes known up to the next block
  generalize hc : (if 0 < pointers.getD (c.rng.blockCounter + 1) 0 then _ else _ : Call) = c'
  have hlist' : c'.data.blockPointers = some (mixed σ pointers (c.rng.blockCounter + 1)) := by
    rw [← hc]
    split
    · rename_i hset
      have hsame := (known.known _ hnext).resolve_left (Nat.ne_of_gt hset)
      rw [← mixed_same hsame]
      exact hlist
    · rw [← mixed_next pointers hnext]
  have hdata : c'.data.orig = c.data.orig ∧ c'.data.size = c.data.size ∧ c'.buf = c.buf ∧
      c'.rng = { c.rng with
        blockBuffer := out
        bufferRpos := 0
        blockCounter := c.rng.blockCounter + 1 } := by
    rw [← hc]
    split <;> exact ⟨rfl, rfl, rfl, rfl⟩
  obtain ⟨horig', hsize', hbuf', hrng'⟩ := hdata
  have running : Running σ pointers (delivered ++ c'.buf) c'.data c'.rng := by
    rw [hrng', hbuf']
    refine ⟨hblock, hbuffer, hsound, hsize' ▸ hsized, ?_, ?_⟩
    · rw [Track]
      dsimp only
      rw [hstate]
      exact ⟨hhead, hsmall, hb, hnext, hlist', horig'.trans horig, hin, hdone'⟩
    · rw [rest]
      dsimp only
      rw [hstate]
      simpa [ZisofsFilterRuntime.pending] using haccount
  split
  · obtain ⟨h₁, h₂, h₃, h₄, h₅, h₆⟩ := running
    refine ⟨⟨h₁, h₂, h₃, h₄, h₅, h₆⟩, hbuf' ▸ hroom, fun h => ?_⟩
    dsimp only at h
    rw [hrng', hstate] at h
    exact State.noConfusion h
  · rename_i hsome
    refine toTransfer_within running (hbuf' ▸ hroom) ?_
    rw [hrng']
    exact hsome

theorem length_inputBlock (b : Nat) : (inputBlock σ b).length =
    min (bytesPerBlock σ) (σ.content.length - b * bytesPerBlock σ) := by
  rw [inputBlock, List.length_take, List.length_drop]

theorem nextBlock_within (known : Partial σ pointers) (hstate : c.rng.state = .dataBlocks)
    (hconsumed : c.rng.pending = [])
    (running : Running σ pointers (delivered ++ c.buf) c.data c.rng)
    (hroom : c.buf.length < desired) :
    Within σ around pointers delivered desired (nextBlock σ around c) := by
  have hkept := running.list
  obtain ⟨hblock, hbuffer, hsound, hsized, htrack, haccount⟩ := running
  rw [Track, hstate] at htrack
  obtain ⟨hhead, hsmall, hle, hcount, hlist, horig, hin, hdone⟩ := htrack
  rw [rest, hstate] at haccount
  dsimp only at haccount
  rw [hconsumed, List.nil_append] at haccount
  have hlen := length_inputBlock (σ := σ) c.rng.blockCounter
  have hpos := bytesPerBlock_pos (σ := σ)
  have hread : c.data.orig.take c.rng.blockSize.value = inputBlock σ c.rng.blockCounter := by
    rw [horig, hblock]
    rfl
  rw [nextBlock]
  split
  · rename_i code hfails
    refine Call.fail_within code.property hkept fun _ untroubled => ?_
    rw [untroubled.reads] at hfails
    exact Option.some_ne_none code hfails.symm
  · rw [hread]
    dsimp only
    split
    · rename_i hend
      have hall : σ.content.length ≤ c.rng.blockCounter * bytesPerBlock σ := by
        rw [hend, List.length_nil] at hlen
        omega
      split
      · rename_i hshrunk
        refine Call.fail_within ZisofsUncompress.isoFilterWrongInput.property hkept
          fun repeated _ => hshrunk ?_
        have := repeated.1.length
        omega
      · rename_i hsame
        have hblocks : inputBlocks σ ≤ c.rng.blockCounter := by
          by_contra hmore
          have := (lt_blocksOf_iff hpos).mp (Nat.not_le.mp hmore)
          omega
        have hpointers : pointerCount σ ≤ c.rng.blockCounter + 1 := by
          by_contra hmore
          have hmore' : c.rng.blockCounter < blocksOf (bytesPerBlock σ) σ.origSize := by
            rw [pointerCount] at hmore
            omega
          have := (lt_blocksOf_iff hpos).mp hmore'
          omega
        have hnone : (pieces σ).drop c.rng.blockCounter = [] :=
          List.drop_eq_nil_of_le (by rw [length_pieces]; exact hblocks)
        refine Or.inr ⟨rfl, ⟨hblock, hbuffer, hsound, hsized, ?_, ?_⟩, Nat.le_of_lt hroom,
          fun _ => rfl⟩
        · refine ⟨⟨hhead, hsmall, by omega, fun b hb => hdone b (by omega)⟩, ?_, hconsumed⟩
          rw [← mixed_last pointers hpointers]
          exact hlist
        · rw [hnone, List.flatten_nil] at haccount
          rw [rest, ← haccount]
          congr 1
    · rename_i hsome
      have hmore : c.rng.blockCounter * bytesPerBlock σ < σ.content.length := by
        have := List.length_pos_iff.mpr hsome
        omega
      have hin' : c.rng.inCounter + (inputBlock σ c.rng.blockCounter).length =
          min ((c.rng.blockCounter + 1) * bytesPerBlock σ) σ.content.length := by
        rw [Nat.succ_mul]
        omega
      split
      · rename_i hlarger
        refine Call.fail_within ZisofsUncompress.isoFilterWrongInput.property hkept
          fun repeated _ => ?_
        have := repeated.1.length
        omega
      · rename_i hfits
        have hb : c.rng.blockCounter < inputBlocks σ := (lt_blocksOf_iff hpos).mpr hmore
        have hnext : c.rng.blockCounter + 1 < pointerCount σ := by
          have hless : c.rng.blockCounter < blocksOf (bytesPerBlock σ) σ.origSize := by
            rw [lt_blocksOf_iff hpos]
            omega
          rw [pointerCount]
          omega
        split
        · rename_i hfail
          refine Call.fail_within GzipConvert.isoZlibComprErr_neg hkept fun repeated _ => ?_
          have := repeated.1.compressed _ hb
          rw [compressed, ← hbuffer, hfail] at this
          exact Bool.noConfusion this
        · rename_i out hout
          refine checkPointer_within known hstate hblock hbuffer hsound hsized hhead hsmall hb
            hnext hlist ?_ hin' hdone ?_ haccount hroom
          · rw [horig, hblock, List.drop_drop, Nat.succ_mul]
            rfl
          · rw [compressed, ← hbuffer]
            exact hout

theorem stepDataBlocks_within (hcontrol : c.control = .dataBlocks) (known : Partial σ pointers)
    (within : Within σ around pointers delivered desired c) :
    Within σ around pointers delivered desired (stepDataBlocks σ around c) := by
  rw [Within, hcontrol] at within
  obtain ⟨running, hroom, hend, hwaiting⟩ := within
  rw [stepDataBlocks]
  split
  · rename_i hnext
    exact nextBlock_within known hnext.1 (List.drop_eq_nil_of_le hnext.2) running hroom
  · rename_i hno
    by_cases hended : c.rng.state = .ended
    · have hnone : c.rng.pending = [] := by
        have htrack := running.track
        rw [Track, hended] at htrack
        exact htrack.2.2
      have hconsumed : c.rng.blockBuffer.length ≤ c.rng.bufferRpos := List.drop_eq_nil_iff.mp hnone
      have hbuf := hend hended
      obtain ⟨hblock, hbuffer, hsound, hsized, htrack, haccount⟩ := running
      rw [toTransfer, if_pos ⟨hended, hconsumed⟩]
      refine Or.inr ⟨?_, ⟨hblock, hbuffer, hsound, hsized, htrack, haccount⟩, Nat.le_of_lt hroom,
        fun _ => hended⟩
      dsimp only
      rw [hbuf]
      rfl
    · refine toTransfer_within running hroom ?_
      cases hstate : c.rng.state with
      | header => exact hwaiting (Or.inl hstate)
      | blockPointers => exact hwaiting (Or.inr hstate)
      | dataBlocks => exact pending_ne_nil.mpr fun h => hno ⟨hstate, h⟩
      | ended => exact absurd hstate hended

/-- What follows behind the waiting bytes does not depend on how many of them are delivered. -/
theorem rest_of_waiting (hwaiting : rng.pending ≠ []) (pointers : List Nat) (n out : Nat) :
    ∃ tail, rest σ pointers rng = rng.pending ++ tail ∧
      rest σ pointers { rng with bufferRpos := rng.bufferRpos + n, outCounter := out } =
        rng.pending.drop n ++ tail := by
  have hfull := blockBuffer_ne_nil hwaiting
  have hdrop : rng.blockBuffer.drop (rng.bufferRpos + n) = rng.pending.drop n := by
    rw [ZisofsFilterRuntime.pending, List.drop_drop]
  cases hstate : rng.state with
  | header =>
    refine ⟨encode σ pointers ++ (pieces σ).flatten, ?_, ?_⟩
    · simp only [rest, hstate, if_neg hfull, List.append_assoc]
    · simp only [rest, if_neg hfull, ZisofsFilterRuntime.pending, hdrop, List.append_assoc]
  | blockPointers =>
    refine ⟨encode σ (pointers.drop rng.blockPointerRpos) ++ (pieces σ).flatten, ?_, ?_⟩
    · simp only [rest, hstate, List.append_assoc]
    · simp only [rest, ZisofsFilterRuntime.pending, hdrop, List.append_assoc]
  | dataBlocks =>
    refine ⟨((pieces σ).drop rng.blockCounter).flatten, ?_, ?_⟩
    · simp only [rest, hstate]
    · simp only [rest, ZisofsFilterRuntime.pending, hdrop]
  | ended =>
    refine ⟨[], ?_, ?_⟩
    · simp only [rest, hstate, List.append_nil]
    · simp only [rest, ZisofsFilterRuntime.pending, hdrop, List.append_nil]

theorem Running.not_ended (running : Running σ pointers delivered data rng)
    (hwaiting : rng.pending ≠ []) : rng.state ≠ .ended := by
  intro hended
  have htrack := running.track
  rw [Track, hended] at htrack
  exact hwaiting htrack.2.2

theorem length_transferred (hwaiting : c.rng.pending ≠ []) (hroom : c.buf.length < desired) :
    (c.rng.pending.take (min (desired - c.buf.length)
      (c.rng.blockBuffer.length - c.rng.bufferRpos))).length =
        min (desired - c.buf.length) (c.rng.blockBuffer.length - c.rng.bufferRpos) ∧
      0 < min (desired - c.buf.length) (c.rng.blockBuffer.length - c.rng.bufferRpos) := by
  have hsome := pending_ne_nil.mp hwaiting
  rw [List.length_take, ZisofsFilterRuntime.pending, List.length_drop]
  omega

theorem stepTransfer_within (hcontrol : c.control = .transfer)
    (within : Within σ around pointers delivered desired c) :
    Within σ around pointers delivered desired (stepTransfer desired c) := by
  rw [Within, hcontrol] at within
  obtain ⟨running, hroom, hwaiting⟩ := within
  have hended := running.not_ended hwaiting
  obtain ⟨hlen, -⟩ := length_transferred hwaiting hroom
  have hle := Nat.min_le_left (desired - c.buf.length)
    (c.rng.blockBuffer.length - c.rng.bufferRpos)
  rw [stepTransfer]
  generalize min (desired - c.buf.length) (c.rng.blockBuffer.length - c.rng.bufferRpos) = n
    at hlen hle
  obtain ⟨hblock, hbuffer, hsound, hsized, htrack, haccount⟩ := running
  obtain ⟨tail, hrest, hrest'⟩ := rest_of_waiting hwaiting pointers n (c.rng.outCounter + n)
  rw [hrest] at haccount
  have running' : Running σ pointers (delivered ++ (c.buf ++ c.rng.pending.take n)) c.data
      { c.rng with
        bufferRpos := c.rng.bufferRpos + n
        outCounter := c.rng.outCounter + n } := by
    refine ⟨hblock, hbuffer, hsound, hsized, ?_, ?_⟩
    · rw [Track] at htrack ⊢
      dsimp only
      cases hstate : c.rng.state with
      | header => rwa [hstate] at htrack
      | blockPointers => rwa [hstate] at htrack
      | dataBlocks => rwa [hstate] at htrack
      | ended => exact absurd hstate hended
    · rw [hrest', ← haccount]
      simp only [List.append_assoc]
      rw [← List.append_assoc (c.rng.pending.take n), List.take_append_drop]
  dsimp only
  split
  · rename_i hfull
    obtain ⟨h₁, h₂, h₃, h₄, h₅, h₆⟩ := running'
    refine Or.inr ⟨rfl, ⟨h₁, h₂, h₃, h₄, h₅, h₆⟩, ?_, fun h => absurd hfull (Nat.not_le.mpr h)⟩
    rw [Call.stop, List.length_append, hlen]
    omega
  · rename_i hmore
    obtain ⟨h₁, h₂, h₃, h₄, h₅, h₆⟩ := running'
    exact ⟨⟨h₁, h₂, h₃, h₄, h₅, h₆⟩, Nat.not_le.mp hmore, fun h => absurd h hended⟩

theorem step_within (known : Partial σ pointers)
    (within : Within σ around pointers delivered desired c) :
    Within σ around pointers delivered desired (step σ around desired c) := by
  rw [step]
  cases hcontrol : c.control with
  | header => exact stepHeader_within hcontrol within
  | blockPointers => exact stepBlockPointers_within hcontrol known within
  | dataBlocks => exact stepDataBlocks_within hcontrol known within
  | transfer => exact stepTransfer_within hcontrol within
  | done ret => exact within
  | overflow => exact within

end Invariant

section Progress

variable {σ : Source} {around : Surroundings} {pointers : List Nat}
variable {delivered : Bytes} {desired : Nat} {c : Call}

/-- The number of blocks which are still to be read. -/
def blocksLeft (σ : Source) (rng : ZisofsFilterRuntime) : Nat :=
  match rng.state with
  | .header | .blockPointers => inputBlocks σ
  | .dataBlocks => inputBlocks σ - rng.blockCounter
  | .ended => 0

/-- How far it is to the next transfer. -/
def rank (c : Call) : Nat :=
  match c.control with
  | .header => 3
  | .blockPointers => 2
  | .dataBlocks => 1
  | .transfer | .done _ | .overflow => 0

/-- Bytes left and blocks left, and how far it is to the next transfer. -/
def variant (σ : Source) (total : Nat) (c : Call) : Nat :=
  4 * (total - c.buf.length + blocksLeft σ c.rng) + rank c

/-- A step which neither takes a block nor stores bytes. -/
structure Onward (σ : Source) (c c' : Call) : Prop where
  buf : c'.buf = c.buf
  left : blocksLeft σ c'.rng = blocksLeft σ c.rng
  rank : rank c' < rank c

theorem Call.fail_final (c : Call) (code : Int) : (c.fail code).Final := Or.inl ⟨code, rfl⟩

theorem stepHeader_onward (hcontrol : c.control = .header) :
    (stepHeader σ around c).Final ∨ Onward σ c (stepHeader σ around c) := by
  have hrank : rank c = 3 := by rw [rank, hcontrol]
  rw [stepHeader]
  split
  · rename_i hstate
    split
    · rw [makeHeader]
      dsimp only
      split
      · exact Or.inl (Call.fail_final _ _)
      · split
        · exact Or.inl (Call.fail_final _ _)
        · split
          · exact Or.inl (Call.fail_final _ _)
          · split
            · exact Or.inl (Call.fail_final _ _)
            · exact Or.inr ⟨rfl, rfl, hrank ▸ Nat.lt_succ_self 2⟩
    · split
      · refine Or.inr ⟨rfl, ?_, hrank ▸ Nat.lt_succ_self 2⟩
        simp only [blocksLeft, hstate]
      · exact Or.inr ⟨rfl, rfl, hrank ▸ Nat.lt_succ_self 2⟩
  · exact Or.inr ⟨rfl, rfl, hrank ▸ Nat.lt_succ_self 2⟩

theorem deliverBlockPointers_onward (hcontrol : c.control = .blockPointers)
    (hstate : c.rng.state = .blockPointers) :
    (deliverBlockPointers c).Final ∨ Onward σ c (deliverBlockPointers c) := by
  have hrank : rank c = 2 := by rw [rank, hcontrol]
  rw [deliverBlockPointers]
  split
  · dsimp only
    split
    · refine Or.inr ⟨rfl, ?_, hrank ▸ Nat.lt_succ_self 1⟩
      simp only [blocksLeft, hstate, Nat.sub_zero]
    · rw [fillPointers]
      dsimp only
      split
      · exact Or.inl (Or.inr rfl)
      · exact Or.inr ⟨rfl, rfl, hrank ▸ Nat.lt_succ_self 1⟩
  · exact Or.inr ⟨rfl, rfl, hrank ▸ Nat.lt_succ_self 1⟩

theorem stepBlockPointers_onward (hcontrol : c.control = .blockPointers)
    (within : Within σ around pointers delivered desired c) :
    (stepBlockPointers σ around c).Final ∨ Onward σ c (stepBlockPointers σ around c) := by
  rw [Within, hcontrol] at within
  have hrank : rank c = 2 := by rw [rank, hcontrol]
  rw [stepBlockPointers]
  split
  · rename_i hstate
    dsimp only
    rcases initBlockPointers_within around desired hcontrol hstate within.1 with
      ⟨⟨ret, hdone⟩, -⟩ | ⟨hgoes, hbuf, listed, -⟩
    · rw [if_neg (by rw [hdone]; exact Control.noConfusion)]
      exact Or.inl (Or.inl ⟨ret, hdone⟩)
    · rw [if_pos hgoes]
      have hleft : blocksLeft σ (initBlockPointers σ around c).rng = blocksLeft σ c.rng := by
        simp only [blocksLeft, listed.state, hstate]
      have hrank' : rank (initBlockPointers σ around c) = rank c := by
        rw [rank, rank, hgoes, hcontrol]
      refine (deliverBlockPointers_onward (σ := σ) hgoes listed.state).imp id ?_
      rintro ⟨hbuf', hleft', hless⟩
      exact ⟨hbuf'.trans hbuf, hleft'.trans hleft, hrank' ▸ hless⟩
  · exact Or.inr ⟨rfl, rfl, hrank ▸ Nat.lt_succ_self 1⟩

/-- A block is taken. -/
structure Taken (c c' : Call) : Prop where
  buf : c'.buf = c.buf
  state : c'.rng.state = c.rng.state
  blockCounter : c'.rng.blockCounter = c.rng.blockCounter + 1

theorem toTransfer_onward (hcontrol : c.control = .dataBlocks) :
    (toTransfer c).Final ∨ Onward σ c (toTransfer c) := by
  have hrank : rank c = 1 := by rw [rank, hcontrol]
  rw [toTransfer]
  split
  · exact Or.inl (Or.inl ⟨0, rfl⟩)
  · exact Or.inr ⟨rfl, rfl, hrank ▸ Nat.lt_succ_self 0⟩

theorem checkPointer_taken (out : Bytes) (c : Call) :
    (checkPointer out c).Final ∨ Taken c (checkPointer out c) := by
  rw [checkPointer]
  dsimp only
  split
  · exact Or.inl (Call.fail_final _ _)
  · split
    · exact Or.inl (Call.fail_final _ _)
    · generalize hc : (if 0 < (c.data.blockPointers.getD []).getD (c.rng.blockCounter + 1) 0
        then _ else _ : Call) = c'
      have hframe : c'.buf = c.buf ∧ c'.rng.state = c.rng.state ∧
          c'.rng.blockCounter = c.rng.blockCounter + 1 := by
        rw [← hc]
        split <;> exact ⟨rfl, rfl, rfl⟩
      split
      · exact Or.inr ⟨hframe.1, hframe.2.1, hframe.2.2⟩
      · rw [toTransfer]
        split
        · exact Or.inl (Or.inl ⟨0, rfl⟩)
        · exact Or.inr ⟨hframe.1, hframe.2.1, hframe.2.2⟩

theorem nextBlock_taken (c : Call) :
    (nextBlock σ around c).Final ∨
      c.data.orig.take c.rng.blockSize.value ≠ [] ∧ Taken c (nextBlock σ around c) := by
  rw [nextBlock]
  split
  · exact Or.inl (Call.fail_final _ _)
  · dsimp only
    split
    · split
      · exact Or.inl (Call.fail_final _ _)
      · exact Or.inl (Or.inl ⟨_, rfl⟩)
    · rename_i hsome
      split
      · exact Or.inl (Call.fail_final _ _)
      · split
        · exact Or.inl (Call.fail_final _ _)
        · refine (checkPointer_taken _ _).imp id ?_
          rintro ⟨hbuf, hstate, hcounter⟩
          exact ⟨hsome, hbuf, hstate, hcounter⟩

theorem rank_le (c : Call) : rank c ≤ 3 := by
  rw [rank]
  split <;> decide

theorem step_decreases (within : Within σ around pointers delivered desired c)
    (running : ¬ c.Final) :
    (step σ around desired c).Final ∨
      variant σ (runBytes σ pointers).length (step σ around desired c) <
        variant σ (runBytes σ pointers).length c := by
  have honward : ∀ c', Onward σ c c' → variant σ (runBytes σ pointers).length c' <
      variant σ (runBytes σ pointers).length c := by
    rintro c' ⟨hbuf, hleft, hless⟩
    rw [variant, variant, hbuf, hleft]
    omega
  rw [step]
  cases hcontrol : c.control with
  | header => exact (stepHeader_onward hcontrol).imp id (honward _)
  | blockPointers => exact (stepBlockPointers_onward hcontrol within).imp id (honward _)
  | dataBlocks =>
    dsimp only
    rw [stepDataBlocks]
    split
    · rename_i hnext
      refine (nextBlock_taken c).imp id ?_
      rintro ⟨hsome, hbuf, hstate, hcounter⟩
      rw [Within, hcontrol] at within
      have htrack := within.1.track
      rw [Track, hnext.1] at htrack
      have hmore : c.rng.blockCounter < inputBlocks σ := by
        rw [inputBlocks, lt_blocksOf_iff bytesPerBlock_pos]
        have hlen := List.length_pos_iff.mpr hsome
        rw [List.length_take, htrack.2.2.2.2.2.1, List.length_drop] at hlen
        omega
      have hrank := rank_le (nextBlock σ around c)
      simp only [variant, hbuf, blocksLeft, hstate, hnext.1, hcounter]
      omega
    · exact (toTransfer_onward hcontrol).imp id (honward _)
  | transfer =>
    rw [Within, hcontrol] at within
    obtain ⟨running', hroom, hwaiting⟩ := within
    obtain ⟨hlen, hpos⟩ := length_transferred hwaiting hroom
    have haccount := congrArg List.length running'.account
    obtain ⟨tail, hrest, -⟩ := rest_of_waiting (σ := σ) hwaiting pointers 0 0
    rw [hrest] at haccount
    simp only [List.length_append] at haccount
    have hpending : c.rng.pending.length = c.rng.blockBuffer.length - c.rng.bufferRpos :=
      List.length_drop
    dsimp only
    rw [stepTransfer]
    dsimp only
    split
    · exact Or.inl (Or.inl ⟨_, rfl⟩)
    · right
      rw [variant, variant, List.length_append, hlen]
      simp only [rank, hcontrol]
      have hleft : ∀ n out, blocksLeft σ { c.rng with bufferRpos := n, outCounter := out } =
          blocksLeft σ c.rng := fun _ _ => rfl
      rw [hleft]
      omega
  | done ret => exact absurd (Or.inl ⟨ret, hcontrol⟩) running
  | overflow => exact absurd (Or.inr hcontrol) running

end Progress

section Calls

variable {σ : Source} {around : Surroundings} {pointers : List Nat}
variable {delivered buf : Bytes} {desired : Nat} {c : Call}
variable {data data' : ZisofsComprStreamData} {rng : ZisofsFilterRuntime} {ret : Int}

/-- What no step changes. -/
structure Frame (c c' : Call) : Prop where
  size : c'.data.size = c.data.size
  dropped : c'.data.blockPointersDropped = c.data.blockPointersDropped
  nextObject : c'.data.nextObject = c.data.nextObject
  object : c'.rng.object = c.rng.object

theorem Frame.trans {c₁ c₂ c₃ : Call} (first : Frame c₁ c₂) (second : Frame c₂ c₃) :
    Frame c₁ c₃ :=
  ⟨second.size.trans first.size, second.dropped.trans first.dropped,
    second.nextObject.trans first.nextObject, second.object.trans first.object⟩

theorem frame_stepHeader (c : Call) : Frame c (stepHeader σ around c) := by
  rw [stepHeader]
  split
  · split
    · rw [makeHeader]
      dsimp only
      split_ifs <;> exact ⟨rfl, rfl, rfl, rfl⟩
    · split <;> exact ⟨rfl, rfl, rfl, rfl⟩
  · exact ⟨rfl, rfl, rfl, rfl⟩

theorem frame_initBlockPointers (c : Call) : Frame c (initBlockPointers σ around c) := by
  rw [initBlockPointers]
  dsimp only
  split_ifs <;> exact ⟨rfl, rfl, rfl, rfl⟩

theorem frame_deliverBlockPointers (c : Call) : Frame c (deliverBlockPointers c) := by
  rw [deliverBlockPointers]
  split
  · dsimp only
    split
    · exact ⟨rfl, rfl, rfl, rfl⟩
    · rw [fillPointers]
      dsimp only
      split <;> exact ⟨rfl, rfl, rfl, rfl⟩
  · exact ⟨rfl, rfl, rfl, rfl⟩

theorem frame_stepBlockPointers (c : Call) : Frame c (stepBlockPointers σ around c) := by
  rw [stepBlockPointers]
  split
  · dsimp only
    split
    · exact (frame_initBlockPointers c).trans (frame_deliverBlockPointers _)
    · exact frame_initBlockPointers c
  · exact ⟨rfl, rfl, rfl, rfl⟩

theorem frame_toTransfer (c : Call) : Frame c (toTransfer c) := by
  rw [toTransfer]
  split <;> exact ⟨rfl, rfl, rfl, rfl⟩

theorem frame_checkPointer (out : Bytes) (c : Call) : Frame c (checkPointer out c) := by
  rw [checkPointer]
  dsimp only
  split
  · exact ⟨rfl, rfl, rfl, rfl⟩
  · split
    · exact ⟨rfl, rfl, rfl, rfl⟩
    · generalize hc : (if 0 < (c.data.blockPointers.getD []).getD (c.rng.blockCounter + 1) 0
        then _ else _ : Call) = c'
      have frame : Frame c c' := by
        rw [← hc]
        split <;> exact ⟨rfl, rfl, rfl, rfl⟩
      split
      · exact ⟨frame.size, frame.dropped, frame.nextObject, frame.object⟩
      · exact frame.trans (frame_toTransfer c')

theorem frame_nextBlock (c : Call) : Frame c (nextBlock σ around c) := by
  rw [nextBlock]
  split
  · exact ⟨rfl, rfl, rfl, rfl⟩
  · dsimp only
    split
    · split <;> exact ⟨rfl, rfl, rfl, rfl⟩
    · split
      · exact ⟨rfl, rfl, rfl, rfl⟩
      · split
        · exact ⟨rfl, rfl, rfl, rfl⟩
        · obtain ⟨hsize, hdropped, hnext, hobject⟩ := frame_checkPointer _ _
          exact ⟨hsize, hdropped, hnext, hobject⟩

theorem frame_stepTransfer (c : Call) : Frame c (stepTransfer desired c) := by
  rw [stepTransfer]
  dsimp only
  split <;> exact ⟨rfl, rfl, rfl, rfl⟩

theorem frame_step (c : Call) : Frame c (step σ around desired c) := by
  rw [step]
  split
  · exact frame_stepHeader c
  · exact frame_stepBlockPointers c
  · rw [stepDataBlocks]
    split
    · exact frame_nextBlock c
    · exact frame_toTransfer c
  · exact frame_stepTransfer c
  · exact ⟨rfl, rfl, rfl, rfl⟩
  · exact ⟨rfl, rfl, rfl, rfl⟩

theorem frame_run (σ : Source) (around : Surroundings) (desired n : Nat) (c : Call) :
    Frame c ((step σ around desired)^[n] c) := by
  induction n generalizing c with
  | zero => exact ⟨rfl, rfl, rfl, rfl⟩
  | succ n ih => exact (frame_step c).trans (ih _)

theorem run_within (known : Partial σ pointers)
    (within : Within σ around pointers delivered desired c) (n : Nat) :
    Within σ around pointers delivered desired ((step σ around desired)^[n] c) := by
  induction n generalizing c with
  | zero => exact within
  | succ n ih => exact ih (step_within known within)

theorem startCall_within (around : Surroundings)
    (running : Running σ pointers delivered data rng) (hpos : 0 < desired) :
    Within σ around pointers delivered desired (startCall data rng) := by
  have hempty : delivered ++ [] = delivered := List.append_nil delivered
  rw [startCall, if_neg running.sound]
  exact ⟨hempty.symm ▸ running, hpos, fun _ => rfl⟩

/-- If the list of block pointers is small enough, then a call ends. -/
theorem call_returns (known : Partial σ pointers) (hsmall : Small σ)
    (hrunning : data.running = some rng) (running : Running σ pointers delivered data rng)
    (around : Surroundings) (hpos : 0 < desired) :
    ∃ ret buf data', CallReturns σ around desired data ret buf data' := by
  have keep : ∀ c, Within σ around pointers delivered desired c → ¬ c.Final →
      Within σ around pointers delivered desired (step σ around desired c) :=
    fun c within _ => step_within known within
  have decrease : ∀ c, Within σ around pointers delivered desired c → ¬ c.Final →
      (step σ around desired c).Final ∨
        variant σ (runBytes σ pointers).length (step σ around desired c) <
          variant σ (runBytes σ pointers).length c :=
    fun c within hrun => step_decreases within hrun
  have first : Within σ around pointers delivered desired (startCall data rng) :=
    startCall_within around running hpos
  obtain ⟨n, ⟨ret, hdone⟩ | hover, within⟩ := exists_final keep decrease first
  · exact ⟨ret, _, _, rng, n, _, hrunning, rfl, hdone, rfl, rfl⟩
  · rw [Within, hover] at within
    exact absurd hsmall within

/-- A call which returns has failed, or it went on with the run. -/
structure Continued (σ : Source) (pointers : List Nat) (delivered buf : Bytes) (desired : Nat)
    (ret : Int) (data : ZisofsComprStreamData) (rng : ZisofsFilterRuntime) : Prop where
  ret : ret = buf.length
  running : Running σ pointers (delivered ++ buf) data rng
  room : buf.length ≤ desired
  last : buf.length < desired → rng.state = .ended

theorem returned_cases (known : Partial σ pointers) (hrunning : data.running = some rng)
    (running : Running σ pointers delivered data rng) (hpos : 0 < desired)
    (returns : CallReturns σ around desired data ret buf data') :
    ∃ rng', data'.running = some rng' ∧ data'.size = data.size ∧
      data'.blockPointersDropped = data.blockPointersDropped ∧
      data'.nextObject = data.nextObject ∧ rng'.object = rng.object ∧
      (ret < 0 ∧ rng'.errorRet < 0 ∧ (Repeated σ pointers → ¬ Untroubled σ around) ∧
          (pointers = offsets σ → data'.blockPointers = some (offsets σ)) ∨
        Continued σ pointers delivered buf desired ret data' rng') := by
  obtain ⟨rng₀, n, c, hrng, hrun, hdone, hbuf, hdata⟩ := returns
  obtain rfl : rng = rng₀ := Option.some.inj (hrunning.symm.trans hrng)
  have hstart : startCall data rng = ⟨data, rng, [], .header⟩ := by
    rw [startCall, if_neg running.sound]
  have frame := frame_run σ around desired n (startCall data rng)
  have within := run_within known (startCall_within around running hpos) n
  rw [hrun, Within, hdone] at within
  rw [hrun, hstart] at frame
  subst hbuf hdata
  refine ⟨c.rng, rfl, frame.size, frame.dropped, frame.nextObject, frame.object, ?_⟩
  rcases within with ⟨hneg, herror, hblame, hlist⟩ | ⟨hret, hcontinues, hroom, hlast⟩
  · exact Or.inl ⟨hneg, herror, hblame, hlist⟩
  · obtain ⟨h₁, h₂, h₃, h₄, h₅, h₆⟩ := hcontinues
    exact Or.inr ⟨hret, ⟨h₁, h₂, h₃, h₄, h₅, h₆⟩, hroom, hlast⟩

/-- A runtime object which has got an error returns it again. -/
theorem failed_again (hrunning : data.running = some rng) (herror : rng.errorRet < 0)
    (returns : CallReturns σ around desired data ret buf data') : ret < 0 ∧ data' = data := by
  obtain ⟨rng₀, n, c, hrng, hrun, hdone, hbuf, hdata⟩ := returns
  obtain rfl : rng = rng₀ := Option.some.inj (hrunning.symm.trans hrng)
  rw [startCall, if_pos herror] at hrun
  have hfixed : step σ around desired ⟨data, rng, [], .done rng.errorRet⟩ =
      ⟨data, rng, [], .done rng.errorRet⟩ := rfl
  rw [Function.iterate_fixed hfixed n] at hrun
  subst hrun
  obtain rfl : rng.errorRet = ret := Control.done.inj hdone
  refine ⟨herror, ?_⟩
  rw [← hdata, Call.finished]
  simp only
  rw [← hrunning]

end Calls

end CompressRuns
