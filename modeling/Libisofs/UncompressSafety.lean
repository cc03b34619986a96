import Libisofs.ZisofsUncompress
import Mathlib.Data.Set.Defs

/-!
# Safety of reading from a zisofs uncompression filter

A call of ziso_stream_uncompress() has an invariant about its buffers, the array of block
pointers and the announced size. It is kept by all steps but a few, which are told by a condition
on the state before the step. After such a step the call never returns a result.
-/

namespace UncompressSafety

open FileData (Bytes)
open GuardedReads Halting ZisofsUncompress
open ZisofsAccount (BlockSize toOffT toUint64 announcedPointers)

variable {ρ : Type}

section Invariant

variable {around : Surroundings} {input : InputStream ρ} {uncompress : Uncompress}
variable {desired delivered : Nat} {c : Call ρ}

/-- No header has been read successfully yet. -/
def Fresh (rng : ZisofsFilterRuntime) : Prop := rng.state = .header ∧ rng.outCounter = 0

/-- The buffers and the array of pointers have the sizes which the header demands. -/
structure Framed (data : ZisofsUncomprStreamData) (rng : ZisofsFilterRuntime) : Prop where
  blockSize : ∃ b : BlockSize, rng.blockSize = b.value ∧
    rng.blockPointerFill = announcedPointers data.size b
  pointers : (rng.blockPointers.length : Int) = rng.blockPointerFill
  readBuffer : ∀ {i p q : Nat}, rng.blockPointers[i]? = some p →
    rng.blockPointers[i + 1]? = some q → pointerDifference p q ≤ rng.readBuffer
  blockBuffer : rng.blockBuffer.length = rng.blockSize

/-- What is delivered and what waits for delivery do not exceed the announced size. -/
structure Loaded (data : ZisofsUncomprStreamData) (rng : ZisofsFilterRuntime) : Prop where
  framed : Framed data rng
  state : rng.state ≠ .header
  waiting : 0 ≤ rng.waiting
  filled : rng.bufferFill ≤ rng.blockSize
  announced : rng.outCounter + rng.waiting ≤ data.size ∨ rng.outCounter = 0 ∧ rng.waiting = 0
  ended : rng.state = .ended → rng.waiting = 0

/-- Earlier calls and this one have stored what the counter tells, and not too much. -/
structure Accounted (desired delivered : Nat) (c : Call ρ) : Prop where
  counted : c.rng.outCounter = delivered + c.buf.length
  announced : c.rng.outCounter = 0 ∨ (c.rng.outCounter : Int) ≤ c.data.size
  size_lt : c.data.size < 2 ^ 63
  room : c.buf.length ≤ desired

/-- What holds at each point of a call, `delivered` being the number of bytes from earlier
calls. -/
def Within (desired delivered : Nat) (c : Call ρ) : Prop :=
  Accounted desired delivered c ∧
  match c.control with
  | .readHeader => Fresh c.rng ∨ Loaded c.data c.rng
  | .deliverBlock | .transfer => Loaded c.data c.rng
  | .done ret =>
    ret ≤ c.buf.length ∧ (c.rng.errorRet < 0 ∨ Fresh c.rng ∨ Loaded c.data c.rng)
  | .overrun => False

theorem Call.fail_within {code : Int} (accounted : Accounted desired delivered c)
    (hcode : code < 0) : Within desired delivered (c.fail code) := by
  refine ⟨⟨accounted.counted, accounted.announced, accounted.size_lt, accounted.room⟩, ?_, ?_⟩
  · dsimp only [Call.fail]
    omega
  · exact Or.inl hcode

theorem Call.stop_within (accounted : Accounted desired delivered c)
    (loaded : Loaded c.data c.rng) : Within desired delivered c.stop :=
  ⟨⟨accounted.counted, accounted.announced, accounted.size_lt, accounted.room⟩,
    toInt_le c.buf.length, Or.inr (Or.inr loaded)⟩

theorem toTransfer_within (accounted : Accounted desired delivered c)
    (loaded : Loaded c.data c.rng) : Within desired delivered (toTransfer c) := by
  obtain ⟨hcounted, hannounced, hsize, hroom⟩ := accounted
  rw [toTransfer]
  split
  · exact ⟨⟨hcounted, hannounced, hsize, hroom⟩, Int.natCast_nonneg _, Or.inr (Or.inr loaded)⟩
  · exact ⟨⟨hcounted, hannounced, hsize, hroom⟩, loaded⟩

theorem createBuffers_within {pointers : List Nat} {blockSize : BlockSize}
    (accounted : Accounted desired delivered c) (fresh : Fresh c.rng)
    (hblock : c.rng.blockSize = blockSize.value)
    (hfill : c.rng.blockPointerFill = announcedPointers c.data.size blockSize)
    (hpointers : (pointers.length : Int) = c.rng.blockPointerFill) :
    Within desired delivered (createBuffers around pointers c) := by
  obtain ⟨hcounted, hannounced, hsize, hroom⟩ := accounted
  rw [createBuffers]
  split
  · exact Call.fail_within ⟨hcounted, hannounced, hsize, hroom⟩ (by decide)
  · refine ⟨⟨hcounted, hannounced, hsize, hroom⟩, ⟨⟨blockSize, hblock, hfill⟩, hpointers, ?_, ?_⟩,
      ?_, ?_, ?_, ?_, ?_⟩
    · intro i p q hp hq
      exact (pointerDifference_le_blockMax 1 hp hq).trans (Int.self_le_toNat _)
    · exact List.length_replicate
    · exact State.noConfusion
    · exact Int.le_refl 0
    · exact Int.natCast_nonneg _
    · exact Or.inr ⟨fresh.2, rfl⟩
    · exact State.noConfusion

theorem readPointers_within {algoNum : Nat} {blockSize : BlockSize}
    (accounted : Accounted desired delivered c) (fresh : Fresh c.rng)
    (hblock : c.rng.blockSize = blockSize.value)
    (hfill : c.rng.blockPointerFill = announcedPointers c.data.size blockSize)
    (hnonneg : 0 ≤ c.rng.blockPointerFill)
    (hfirst : algoNum = 0 → 0 < c.rng.blockPointerFill) :
    Within desired delivered
      (readPointers around input algoNum c.rng.blockPointerFill.toNat c) := by
  obtain ⟨hcounted, hannounced, hsize, hroom⟩ := accounted
  generalize hn : c.rng.blockPointerFill.toNat = fill
  have hbytes : fill * (if algoNum = 0 then 4 else 8) ≤ fill * 8 :=
    Nat.mul_le_mul_left fill (by split <;> decide)
  have hread := safe_readInto input hbytes c.orig
  rw [readPointers]
  generalize readInto input (fill * 8) (fill * if algoNum = 0 then 4 else 8) c.orig = got
    at hread
  obtain ⟨stop | bytes, orig⟩ := got
  · cases stop with
    | overrun => exact hread.elim
    | failed code =>
      exact Call.fail_within ⟨hcounted, hannounced, hsize, hroom⟩ code.property
  · have hlen : bytes.length ≤ fill * 8 := hread.trans hbytes
    have hmem : (bytes ++ zeros (fill * 8 - bytes.length)).length = fill * 8 := by
      rw [List.length_append, zeros, List.length_replicate]
      omega
    have hspread : ∃ mem, (if algoNum = 0 then
        spread (fill - 1) (bytes ++ zeros (fill * 8 - bytes.length))
        else some (bytes ++ zeros (fill * 8 - bytes.length))) = some mem := by
      split
      · have hpos := hfirst ‹_›
        obtain ⟨mem, hmem, -⟩ := spread_of_le (fill - 1)
          (bytes ++ zeros (fill * 8 - bytes.length)) (by omega)
        exact ⟨mem, hmem⟩
      · exact ⟨_, rfl⟩
    obtain ⟨mem, hmem⟩ := hspread
    dsimp only
    rw [hmem]
    dsimp only
    generalize fill * (if algoNum = 0 then 4 else 8) = wanted
    split
    · exact Call.fail_within ⟨hcounted, hannounced, hsize, hroom⟩ isoZisofsWrongInput.property
    · refine createBuffers_within (c := { c with orig := orig })
        ⟨hcounted, hannounced, hsize, hroom⟩ fresh hblock hfill ?_
      rw [length_pointersOf]
      dsimp only
      omega

theorem createPointers_within {algoNum : Nat} {blockSize : BlockSize}
    (accounted : Accounted desired delivered c) (fresh : Fresh c.rng)
    (hblock : c.rng.blockSize = blockSize.value) (halgo : algoNum = 0 → 0 ≤ c.data.size) :
    Within desired delivered (createPointers around input algoNum blockSize c) := by
  obtain ⟨hcounted, hannounced, hsize, hroom⟩ := accounted
  rw [createPointers]
  dsimp only
  split
  · exact Call.fail_within ⟨hcounted, hannounced, hsize, hroom⟩ (by decide)
  · split
    · exact ⟨⟨hcounted, hannounced, hsize, hroom⟩,
        Int.le_trans (by decide) (Int.natCast_nonneg _), Or.inr (Or.inl fresh)⟩
    · split
      · exact Call.fail_within ⟨hcounted, hannounced, hsize, hroom⟩ (by decide)
      · rename_i hno
        simp only [Bool.or_eq_true, decide_eq_true_eq, not_or, Int.not_lt] at hno
        exact readPointers_within ⟨hcounted, hannounced, hsize, hroom⟩ fresh hblock rfl hno.1
          fun h => announcedPointers_pos _ (halgo h)

theorem stepReadHeader_within (hcontrol : c.control = .readHeader)
    (within : Within desired delivered c) :
    Within desired delivered (stepReadHeader around input desired c) := by
  obtain ⟨⟨hcounted, hannounced, hsize, hroom⟩, hpoint⟩ := within
  rw [hcontrol] at hpoint
  rw [stepReadHeader]
  split
  · rename_i hstate
    rcases hpoint with fresh | loaded
    · exact absurd fresh.1 hstate
    · exact ⟨⟨hcounted, hannounced, hsize, hroom⟩, loaded⟩
  · rename_i hstate
    have fresh : Fresh c.rng := by
      rcases hpoint with fresh | loaded
      · exact fresh
      · exact absurd loaded.state hstate
    have hhead := safe_zisoParseZisofsHead input around.zisoV2Enabled false c.orig
    generalize zisoParseZisofsHead input around.zisoV2Enabled false true c.orig = got at hhead
    obtain ⟨stop | head, orig⟩ := got
    · cases stop with
      | overrun => exact hhead.elim
      | failed code =>
        exact Call.fail_within ⟨hcounted, hannounced, hsize, hroom⟩ code.property
    · have hsize' := (ZisofsAccount.toOffT_bounds head.uncompressedSize).2
      have hfirst : head.zisoAlgoNum = 0 → 0 ≤ toOffT head.uncompressedSize := by
        intro hzero
        have hless : head.uncompressedSize < 2 ^ 32 := hhead hzero
        rw [ZisofsAccount.toOffT_of_lt (by omega)]
        exact Int.natCast_nonneg _
      dsimp only
      generalize toOffT head.uncompressedSize = size at hsize' hfirst ⊢
      split
      · exact ⟨⟨hcounted, Or.inl fresh.2, hsize', hroom⟩, Int.natCast_nonneg _,
          Or.inr (Or.inl fresh)⟩
      · exact createPointers_within ⟨hcounted, Or.inl fresh.2, hsize', hroom⟩ fresh rfl hfirst

/-- The check of the announced size, after the block buffer has been filled. -/
theorem checkAnnounced_within (accounted : Accounted desired delivered c)
    (framed : Framed c.data c.rng) (hstate : c.rng.state = .blocks)
    (hnonneg : 0 ≤ c.rng.bufferFill) (hfilled : c.rng.bufferFill ≤ c.rng.blockSize) :
    Within desired delivered (checkAnnounced c) := by
  obtain ⟨hcounted, hannounced, hsize, hroom⟩ := accounted
  rw [checkAnnounced]
  dsimp only
  split
  · exact Call.fail_within ⟨hcounted, hannounced, hsize, hroom⟩ isoFilterWrongInput.property
  · rename_i hfits
    obtain ⟨hblock, hpointers, hread, hbuffer⟩ := framed
    refine toTransfer_within (c := { c with rng := { c.rng with bufferRpos := 0 } })
      ⟨hcounted, hannounced, hsize, hroom⟩
      ⟨⟨hblock, hpointers, hread, hbuffer⟩, ?_, ?_, hfilled, Or.inl ?_, ?_⟩
    · rw [hstate]
      exact State.noConfusion
    · simpa [ZisofsFilterRuntime.waiting] using hnonneg
    · simpa [ZisofsFilterRuntime.waiting] using hfits
    · intro hended
      rw [hstate] at hended
      exact State.noConfusion hended

theorem zeroBlock_within {i : Nat} (accounted : Accounted desired delivered c)
    (framed : Framed c.data c.rng) (hstate : c.rng.state = .blocks) (hsize : 0 ≤ c.data.size) :
    Within desired delivered (zeroBlock i c) := by
  obtain ⟨hcounted, hannounced, hless, hroom⟩ := accounted
  obtain ⟨⟨blockSize, hblock, hfill⟩, hpointers, hread, hbuffer⟩ := framed
  have hsmall := BlockSize.value_lt blockSize
  have hzeros : (zeros c.rng.blockSize).length = c.rng.blockSize := List.length_replicate
  obtain ⟨buffer, hwrite, hlen⟩ := overwrite_of_le c.rng.blockBuffer 0
    (zeros c.rng.blockSize) (by omega)
  rw [zeroBlock, hwrite]
  dsimp only
  have hrest : (c.rng.outCounter + c.rng.blockSize : Nat) > c.data.size →
      toInt (c.data.size - c.rng.outCounter) = c.data.size - c.rng.outCounter := by
    intro hmore
    apply toInt_eq <;> omega
  refine checkAnnounced_within ⟨hcounted, hannounced, hless, hroom⟩
    ⟨⟨blockSize, hblock, hfill⟩, hpointers, hread, hlen.trans hbuffer⟩ hstate ?_ ?_
  · dsimp only
    split
    · rename_i hlast
      rw [hrest hlast.1]
      omega
    · exact Int.natCast_nonneg _
  · dsimp only
    split
    · rename_i hlast
      rw [hrest hlast.1]
      omega
    · exact Int.le_refl _

theorem readBlock_within {todo : Int} {i : Nat} (accounted : Accounted desired delivered c)
    (loaded : Loaded c.data c.rng) (hstate : c.rng.state = .blocks)
    (hconsumed : c.rng.waiting = 0) (hdry : ¬ Floods input c todo) :
    Within desired delivered (readBlock input uncompress todo i c) := by
  obtain ⟨hcounted, hannounced, hsize, hroom⟩ := accounted
  obtain ⟨⟨hblock, hpointers, hread, hbuffer⟩, -, hwaiting, hfilled, -, -⟩ := loaded
  have hgot := readInto_overrun_iff input c.rng.readBuffer (toUint64 todo) c.orig
  rw [readBlock]
  generalize readInto input c.rng.readBuffer (toUint64 todo) c.orig = got at hgot
  obtain ⟨stop | bytes, orig⟩ := got
  · cases stop with
    | overrun => exact absurd (hgot.mp rfl) hdry
    | failed code =>
      exact Call.fail_within ⟨hcounted, hannounced, hsize, hroom⟩ code.property
  · cases bytes with
    | nil =>
      dsimp only
      split
      · exact Call.fail_within ⟨hcounted, hannounced, hsize, hroom⟩ isoFilterWrongInput.property
      · rename_i hall
        refine Call.stop_within ⟨hcounted, hannounced, hsize, hroom⟩
          ⟨⟨hblock, hpointers, hread, hbuffer⟩, State.noConfusion, hwaiting, hfilled,
            Or.inl ?_, fun _ => hconsumed⟩
        rw [ZisofsFilterRuntime.waiting] at hconsumed ⊢
        dsimp only at hall ⊢
        omega
    | cons first bytes =>
      dsimp only
      split
      · exact Call.fail_within ⟨hcounted, hannounced, hsize, hroom⟩
          GzipConvert.isoZlibComprErr_neg
      · rename_i out _
        have hout : out.val.length ≤ c.rng.blockSize := out.property
        obtain ⟨buffer, hwrite, hlen⟩ := overwrite_of_le c.rng.blockBuffer 0 out.val
          (by omega)
        rw [hwrite]
        dsimp only
        split
        · exact Call.fail_within ⟨hcounted, hannounced, hsize, hroom⟩
            isoZisofsWrongInput.property
        · refine checkAnnounced_within ⟨hcounted, hannounced, hsize, hroom⟩
            ⟨hblock, hpointers, hread, hlen.trans hbuffer⟩ hstate (Int.natCast_nonneg _) ?_
          dsimp only
          omega

theorem nextBlock_within (hcontrol : c.control = .deliverBlock)
    (accounted : Accounted desired delivered c) (loaded : Loaded c.data c.rng)
    (hstate : c.rng.state = .blocks) (hconsumed : c.rng.bufferFill ≤ c.rng.bufferRpos)
    (harmless : HarmlessBlock input c) :
    Within desired delivered (nextBlock input uncompress c) := by
  obtain ⟨hcounted, hannounced, hsize, hroom⟩ := accounted
  obtain ⟨⟨hblock, hpointers, hread, hbuffer⟩, hheader, hwaiting, hfilled, hrest, hended⟩ := loaded
  have hzero : c.rng.waiting = 0 := by
    rw [ZisofsFilterRuntime.waiting] at hwaiting ⊢
    omega
  rw [nextBlock]
  dsimp only
  split
  · split
    · rename_i hall
      refine Call.stop_within ⟨hcounted, hannounced, hsize, hroom⟩
        ⟨⟨hblock, hpointers, hread, hbuffer⟩, State.noConfusion, hwaiting, hfilled, hrest,
          fun _ => hzero⟩
    · exact Call.fail_within ⟨hcounted, hannounced, hsize, hroom⟩ isoFilterWrongInput.property
  · rename_i hmore
    have hi : c.rng.blockPointerRpos + 1 < c.rng.blockPointers.length := by omega
    have hp : c.rng.blockPointers[c.rng.blockPointerRpos]? =
        some (c.rng.blockPointers[c.rng.blockPointerRpos]) := List.getElem?_eq_getElem _
    have hq : c.rng.blockPointers[c.rng.blockPointerRpos + 1]? =
        some (c.rng.blockPointers[c.rng.blockPointerRpos + 1]) := List.getElem?_eq_getElem _
    generalize c.rng.blockPointers[c.rng.blockPointerRpos] = p at hp
    generalize c.rng.blockPointers[c.rng.blockPointerRpos + 1] = q at hq
    obtain ⟨hdry, hpositive⟩ := harmless p q
      ⟨hcontrol, hstate, hconsumed, Int.not_le.mp hmore, hp, hq⟩
    rw [Nat.add_sub_cancel, hp, hq]
    dsimp only
    split
    · rename_i hsame
      exact zeroBlock_within ⟨hcounted, hannounced, hsize, hroom⟩
        ⟨hblock, hpointers, hread, hbuffer⟩ hstate (hpositive hsame)
    · refine readBlock_within ⟨hcounted, hannounced, hsize, hroom⟩
        ⟨⟨hblock, hpointers, hread, hbuffer⟩, hheader, hwaiting, hfilled, hrest, hended⟩ hstate
        hzero ?_
      rintro ⟨bytes, hbytes, hflood⟩
      by_cases hneg : pointerDifference p q < 0
      · exact hdry hneg ⟨bytes, hbytes, hflood⟩
      · -- a demand which is not negative was provided for
        have hprovided := hread hp hq
        have hle := input.read_le _ _ _ hbytes
        have hcast := toUint64_toInt (Int.not_lt.mp hneg)
        rw [← pointerDifference] at hcast
        generalize toUint64 (pointerDifference p q) = count at hle hcast
        generalize pointerDifference p q = difference at hprovided hcast
        dsimp only at hflood
        omega

theorem stepDeliverBlock_within (hcontrol : c.control = .deliverBlock)
    (within : Within desired delivered c) (harmless : HarmlessBlock input c) :
    Within desired delivered (stepDeliverBlock input uncompress c) := by
  obtain ⟨accounted, hpoint⟩ := within
  rw [hcontrol] at hpoint
  rw [stepDeliverBlock]
  split
  · rename_i hnext
    exact nextBlock_within hcontrol accounted hpoint hnext.1 hnext.2 harmless
  · exact toTransfer_within accounted hpoint

/-- What is copied. -/
theorem todo_eq_min (desired : Nat) (c : Call ρ) :
    todo desired c = min (toInt (desired - c.buf.length : Nat)) c.rng.waiting := by
  rw [todo, ZisofsFilterRuntime.waiting]
  split <;> omega

theorem stepTransfer_within (hcontrol : c.control = .transfer)
    (within : Within desired delivered c) (harmless : HarmlessTransfer desired c) :
    Within desired delivered (stepTransfer desired c) := by
  obtain ⟨⟨hcounted, hannounced, hsize, hroom⟩, hpoint⟩ := within
  rw [hcontrol] at hpoint
  obtain ⟨⟨hblock, hpointers, hread, hbuffer⟩, hheader, hwaiting, hfilled, hrest, hended⟩ := hpoint
  have hwanted := (harmless hcontrol).1
  have hle := toInt_le (desired - c.buf.length)
  have htodo := todo_eq_min desired c
  rw [stepTransfer]
  generalize todo desired c = n at htodo
  generalize toInt (desired - c.buf.length : Nat) = wanted at htodo hwanted hle
  have hwait : c.rng.waiting = c.rng.bufferFill - c.rng.bufferRpos := rfl
  dsimp only
  rw [if_neg (by omega)]
  have hcopied : ((c.rng.blockBuffer.drop c.rng.bufferRpos).take n.toNat).length = n.toNat := by
    rw [List.length_take, List.length_drop]
    omega
  have accounted' : Accounted desired delivered
      { c with
        buf := c.buf ++ (c.rng.blockBuffer.drop c.rng.bufferRpos).take n.toNat
        rng := { c.rng with
          bufferRpos := c.rng.bufferRpos + n.toNat
          outCounter := c.rng.outCounter + n.toNat } } := by
    refine ⟨?_, ?_, hsize, ?_⟩
    all_goals
      simp only [List.length_append, hcopied]
      omega
  have loaded' : Loaded c.data { c.rng with
      bufferRpos := c.rng.bufferRpos + n.toNat
      outCounter := c.rng.outCounter + n.toNat } := by
    refine ⟨⟨hblock, hpointers, hread, hbuffer⟩, hheader, ?_, hfilled, ?_, fun hend => ?_⟩
    · simp only [ZisofsFilterRuntime.waiting]
      omega
    · simp only [ZisofsFilterRuntime.waiting]
      omega
    · have := hended hend
      simp only [ZisofsFilterRuntime.waiting]
      omega
  split
  · exact Call.stop_within accounted' loaded'
  · obtain ⟨h₁, h₂, h₃, h₄⟩ := accounted'
    exact ⟨⟨h₁, h₂, h₃, h₄⟩, Or.inr loaded'⟩

theorem step_within (within : Within desired delivered c) (harmless : Harmless input desired c) :
    Within desired delivered (step around input uncompress desired c) := by
  rw [step]
  cases hcontrol : c.control with
  | readHeader => exact stepReadHeader_within hcontrol within
  | deliverBlock => exact stepDeliverBlock_within hcontrol within harmless.1
  | transfer => exact stepTransfer_within hcontrol within harmless.2
  | done ret => exact within
  | overrun => exact within

end Invariant

section Progress

variable {around : Surroundings} {input : InputStream ρ} {uncompress : Uncompress}
variable {desired delivered : Nat} {c : Call ρ}

/-- The call is about to copy bytes and has not changed its position in the pointer array. -/
structure Onward (c c' : Call ρ) : Prop where
  control : c'.control = .transfer
  state : c'.rng.state = c.rng.state
  blockPointerFill : c'.rng.blockPointerFill = c.rng.blockPointerFill
  blockPointerRpos : c'.rng.blockPointerRpos = c.rng.blockPointerRpos
  buf : c'.buf = c.buf

theorem Call.fail_final (c : Call ρ) (code : Int) : (c.fail code).Final := Or.inl ⟨code, rfl⟩

theorem toTransfer_onward (c : Call ρ) :
    (toTransfer c).Final ∨ Onward c (toTransfer c) ∧ (toTransfer c).rng = c.rng := by
  rw [toTransfer]
  split
  · exact Or.inl (Or.inl ⟨0, rfl⟩)
  · exact Or.inr ⟨⟨rfl, rfl, rfl, rfl, rfl⟩, rfl⟩

theorem checkAnnounced_onward (c : Call ρ) :
    (checkAnnounced c).Final ∨ Onward c (checkAnnounced c) := by
  rw [checkAnnounced]
  dsimp only
  split
  · exact Or.inl (Call.fail_final _ _)
  · rcases toTransfer_onward { c with rng := { c.rng with bufferRpos := 0 } } with h | ⟨h, -⟩
    · exact Or.inl h
    · exact Or.inr ⟨h.control, h.state, h.blockPointerFill, h.blockPointerRpos, h.buf⟩

theorem zeroBlock_onward (i : Nat) (c : Call ρ) :
    (zeroBlock i c).Final ∨ Onward c (zeroBlock i c) := by
  rw [zeroBlock]
  split
  · exact Or.inl (Or.inr rfl)
  · refine (checkAnnounced_onward _).imp id ?_
    rintro ⟨h₁, h₂, h₃, h₄, h₅⟩
    exact ⟨h₁, h₂, h₃, h₄, h₅⟩

theorem readBlock_onward (todo : Int) (i : Nat) (c : Call ρ) :
    (readBlock input uncompress todo i c).Final ∨
      Onward c (readBlock input uncompress todo i c) := by
  rw [readBlock]
  split
  · exact Or.inl (Or.inr rfl)
  · exact Or.inl (Call.fail_final _ _)
  · dsimp only
    split
    · exact Or.inl (Call.fail_final _ _)
    · exact Or.inl (Or.inl ⟨_, rfl⟩)
  · dsimp only
    split
    · exact Or.inl (Call.fail_final _ _)
    · split
      · exact Or.inl (Or.inr rfl)
      · split
        · exact Or.inl (Call.fail_final _ _)
        · refine (checkAnnounced_onward _).imp id ?_
          rintro ⟨h₁, h₂, h₃, h₄, h₅⟩
          exact ⟨h₁, h₂, h₃, h₄, h₅⟩

/-- The next block is the one behind the next pointer. -/
theorem nextBlock_onward (c : Call ρ) :
    (nextBlock input uncompress c).Final ∨
      ((c.rng.blockPointerRpos + 1 : Nat) : Int) < c.rng.blockPointerFill ∧
        Onward { c with
          rng := { c.rng with blockPointerRpos := c.rng.blockPointerRpos + 1 } }
          (nextBlock input uncompress c) := by
  rw [nextBlock]
  dsimp only
  split
  · split
    · exact Or.inl (Or.inl ⟨_, rfl⟩)
    · exact Or.inl (Call.fail_final _ _)
  · rename_i hmore
    split
    · split
      · exact (zeroBlock_onward _ _).imp id fun h => ⟨Int.not_le.mp hmore, h⟩
      · exact (readBlock_onward _ _ _).imp id fun h => ⟨Int.not_le.mp hmore, h⟩
    · exact Or.inl (Or.inr rfl)

/-- The number of blocks which can still follow. -/
def blocksLeft (around : Surroundings) (rng : ZisofsFilterRuntime) : Nat :=
  if rng.state = .header then around.zisoMaxFileBlocks + 1
  else (rng.blockPointerFill - rng.blockPointerRpos).toNat

/-- How far it is to the next block. -/
def rank (c : Call ρ) : Nat :=
  match c.control with
  | .readHeader => if c.rng.waiting = 0 then 2 else 6
  | .deliverBlock => if c.rng.waiting = 0 then 1 else 5
  | .transfer => if c.rng.waiting = 0 then 3 else 4
  | .done _ | .overrun => 0

/-- Blocks left and room left, and how far it is to the next block. -/
def variant (around : Surroundings) (desired : Nat) (c : Call ρ) : Nat :=
  6 * (blocksLeft around c.rng + (desired - c.buf.length)) + rank c

/-- The file header and the block pointers are read. -/
structure Opened (around : Surroundings) (c c' : Call ρ) : Prop where
  control : c'.control = .deliverBlock
  left : blocksLeft around c'.rng ≤ around.zisoMaxFileBlocks
  waiting : c'.rng.waiting = 0
  buf : c'.buf = c.buf

theorem createBuffers_opened {pointers : List Nat}
    (hleft : (c.rng.blockPointerFill - c.rng.blockPointerRpos).toNat ≤ around.zisoMaxFileBlocks) :
    (createBuffers around pointers c).Final ∨
      Opened around c (createBuffers around pointers c) := by
  rw [createBuffers]
  split
  · exact Or.inl (Call.fail_final _ _)
  · refine Or.inr ⟨rfl, ?_, rfl, rfl⟩
    rw [blocksLeft, if_neg State.noConfusion]
    exact hleft

theorem readPointers_opened {algoNum fill : Nat}
    (hleft : (c.rng.blockPointerFill - c.rng.blockPointerRpos).toNat ≤ around.zisoMaxFileBlocks) :
    (readPointers around input algoNum fill c).Final ∨
      Opened around c (readPointers around input algoNum fill c) := by
  rw [readPointers]
  generalize fill * (if algoNum = 0 then 4 else 8) = wanted
  dsimp only
  split
  · exact Or.inl (Or.inr rfl)
  · exact Or.inl (Call.fail_final _ _)
  · split
    · exact Or.inl (Or.inr rfl)
    · split
      · exact Or.inl (Call.fail_final _ _)
      · rename_i orig _ _ mem _ _
        refine (createBuffers_opened (c := { c with orig := orig }) hleft).imp id ?_
        rintro ⟨h₁, h₂, h₃, h₄⟩
        exact ⟨h₁, h₂, h₃, h₄⟩

theorem createPointers_opened {algoNum : Nat} {blockSize : BlockSize} :
    (createPointers around input algoNum blockSize c).Final ∨
      Opened around c (createPointers around input algoNum blockSize c) := by
  rw [createPointers]
  dsimp only
  split
  · exact Or.inl (Call.fail_final _ _)
  · rename_i hlimit
    split
    · exact Or.inl (Or.inl ⟨_, rfl⟩)
    · split
      · exact Or.inl (Call.fail_final _ _)
      · refine (readPointers_opened (c := { c with
          rng := { c.rng with
            blockPointerRpos := 0
            blockPointerFill := announcedPointers c.data.size blockSize } }) ?_).imp id ?_
        · dsimp only
          omega
        · rintro ⟨h₁, h₂, h₃, h₄⟩
          exact ⟨h₁, h₂, h₃, h₄⟩

theorem stepReadHeader_opened (hstate : c.rng.state = .header) :
    (stepReadHeader around input desired c).Final ∨
      Opened around c (stepReadHeader around input desired c) := by
  rw [stepReadHeader, if_neg (not_not_intro hstate)]
  split
  · exact Or.inl (Or.inr rfl)
  · exact Or.inl (Call.fail_final _ _)
  · dsimp only
    split
    · exact Or.inl (Or.inl ⟨_, rfl⟩)
    · refine createPointers_opened.imp id ?_
      rintro ⟨h₁, h₂, h₃, h₄⟩
      exact ⟨h₁, h₂, h₃, h₄⟩

theorem stepReadHeader_decreases (hcontrol : c.control = .readHeader) :
    (stepReadHeader around input desired c).Final ∨
      variant around desired (stepReadHeader around input desired c) <
        variant around desired c := by
  by_cases hstate : c.rng.state = .header
  · refine (stepReadHeader_opened hstate).imp id fun opened => ?_
    obtain ⟨hnext, hleft, hwaiting, hbuf⟩ := opened
    have hfull : blocksLeft around c.rng = around.zisoMaxFileBlocks + 1 := if_pos hstate
    simp only [variant, rank, hnext, hwaiting, hbuf, hfull, hcontrol, if_true]
    omega
  · right
    rw [stepReadHeader, if_pos hstate]
    simp only [variant, rank, hcontrol]
    split <;> omega

theorem stepDeliverBlock_decreases (hcontrol : c.control = .deliverBlock)
    (loaded : Loaded c.data c.rng) :
    (stepDeliverBlock input uncompress c).Final ∨
      variant around desired (stepDeliverBlock input uncompress c) <
        variant around desired c := by
  have hwaiting := loaded.waiting
  rw [stepDeliverBlock]
  split
  · rename_i hnext
    refine nextBlock_onward c |>.imp id ?_
    rintro ⟨hmore, honward⟩
    have hblocks : c.rng.state = .blocks := hnext.1
    have hleft : blocksLeft around (nextBlock input uncompress c).rng + 1 =
        blocksLeft around c.rng := by
      rw [blocksLeft, blocksLeft, honward.state, honward.blockPointerFill,
        honward.blockPointerRpos, if_neg (by rw [hblocks]; exact State.noConfusion),
        if_neg (by rw [hblocks]; exact State.noConfusion)]
      dsimp only
      omega
    have hrank : rank (nextBlock input uncompress c) ≤ 4 := by
      rw [rank, honward.control]
      dsimp only
      split <;> decide
    have hbuf : (nextBlock input uncompress c).buf = c.buf := honward.buf
    simp only [variant, hbuf]
    omega
  · rename_i hno
    by_cases hzero : c.rng.waiting = 0
    · -- nothing waits and no block follows, so this is the end
      have hconsumed : c.rng.bufferFill ≤ c.rng.bufferRpos := by
        rw [ZisofsFilterRuntime.waiting] at hzero
        omega
      have hended : c.rng.state = .ended := by
        cases hstate : c.rng.state with
        | header => exact absurd hstate loaded.state
        | blocks => exact absurd ⟨hstate, hconsumed⟩ hno
        | ended => rfl
      rw [toTransfer, if_pos ⟨hended, hconsumed⟩]
      exact Or.inl (Or.inl ⟨0, rfl⟩)
    · refine (toTransfer_onward c).imp id ?_
      rintro ⟨honward, hrng⟩
      simp only [variant, hrng, honward.buf, rank, honward.control, hcontrol, if_neg hzero]
      omega

theorem stepTransfer_decreases (hcontrol : c.control = .transfer)
    (within : Within desired delivered c) (harmless : HarmlessTransfer desired c) :
    (stepTransfer desired c).Final ∨
      variant around desired (stepTransfer desired c) < variant around desired c := by
  obtain ⟨⟨-, -, -, hroom⟩, hpoint⟩ := within
  rw [hcontrol] at hpoint
  have hwaiting := hpoint.waiting
  have hfilled := hpoint.filled
  have hbuffer := hpoint.framed.blockBuffer
  obtain ⟨hwanted, hzero⟩ := harmless hcontrol
  have hle := toInt_le (desired - c.buf.length)
  have htodo := todo_eq_min desired c
  have hwait : c.rng.waiting = c.rng.bufferFill - c.rng.bufferRpos := rfl
  rw [stepTransfer]
  generalize todo desired c = n at htodo
  generalize toInt (desired - c.buf.length : Nat) = wanted at htodo hwanted hle hzero
  dsimp only
  rw [if_neg (by omega)]
  have hcopied : ((c.rng.blockBuffer.drop c.rng.bufferRpos).take n.toNat).length = n.toNat := by
    rw [List.length_take, List.length_drop]
    omega
  split
  · exact Or.inl (Or.inl ⟨_, rfl⟩)
  · rename_i hmore
    right
    have hleft : blocksLeft around { c.rng with
        bufferRpos := c.rng.bufferRpos + n.toNat
        outCounter := c.rng.outCounter + n.toNat } = blocksLeft around c.rng := by
      simp only [blocksLeft]
    have hwait' : ({ c.rng with
        bufferRpos := c.rng.bufferRpos + n.toNat
        outCounter := c.rng.outCounter + n.toNat } : ZisofsFilterRuntime).waiting =
          c.rng.waiting - n.toNat := by
      simp only [ZisofsFilterRuntime.waiting]
      omega
    rw [List.length_append, hcopied] at hmore
    simp only [variant, rank, hcontrol, hleft, hwait', List.length_append, hcopied]
    generalize blocksLeft around c.rng = left
    generalize c.rng.waiting = waiting at *
    split <;> split <;> omega

theorem step_decreases (within : Within desired delivered c)
    (harmless : Harmless input desired c) (running : ¬ c.Final) :
    (step around input uncompress desired c).Final ∨
      variant around desired (step around input uncompress desired c) <
        variant around desired c := by
  rw [step]
  cases hcontrol : c.control with
  | readHeader => exact stepReadHeader_decreases hcontrol
  | deliverBlock =>
    have hpoint := within.2
    rw [hcontrol] at hpoint
    exact stepDeliverBlock_decreases hcontrol hpoint
  | transfer => exact stepTransfer_decreases hcontrol within harmless.2
  | done ret => exact absurd (Or.inl ⟨ret, hcontrol⟩) running
  | overrun => exact absurd (Or.inr hcontrol) running

end Progress

section Harm

variable {around : Surroundings} {input : InputStream ρ} {uncompress : Uncompress}
variable {desired delivered : Nat} {c : Call ρ}

/-- No result is ever returned. -/
def NeverDone (around : Surroundings) (input : InputStream ρ) (uncompress : Uncompress)
    (desired : Nat) (c : Call ρ) : Prop :=
  Always (step around input uncompress desired) (fun c => ∀ ret, c.control ≠ .done ret) c

theorem step_done (ret : Int) (h : c.control = .done ret) :
    step around input uncompress desired c = c := by
  rw [step, h]

theorem neverDone_of_overrun (h : c.control = .overrun) :
    NeverDone around input uncompress desired c := by
  apply Always.of_fixed
  · rw [step, h]
  · intro ret
    rw [h]
    exact Control.noConfusion

/-- A negative number of bytes to copy is beyond all limits. -/
theorem stepTransfer_overrun (h : todo desired c < 0) :
    (stepTransfer desired c).control = .overrun := by
  rw [stepTransfer]
  dsimp only
  rw [if_pos (Or.inl h)]

theorem nextBlock_eq {p q : Nat} (takes : TakesBlock c p q) :
    step around input uncompress desired c =
      if pointerDifference p q = 0 then
        zeroBlock (c.rng.blockPointerRpos + 1) { c with
          rng := { c.rng with blockPointerRpos := c.rng.blockPointerRpos + 1 } }
      else
        readBlock input uncompress (pointerDifference p q) (c.rng.blockPointerRpos + 1) { c with
          rng := { c.rng with blockPointerRpos := c.rng.blockPointerRpos + 1 } } := by
  obtain ⟨hcontrol, hstate, hconsumed, hmore, hp, hq⟩ := takes
  simp only [step, hcontrol, stepDeliverBlock, if_pos (And.intro hstate hconsumed), nextBlock,
    if_neg (Int.not_le.mpr hmore), Nat.add_sub_cancel, hp, hq]

/-- Decreasing pointers with enough input behind them. -/
theorem flood_overruns {p q : Nat} (takes : TakesBlock c p q) (hneg : pointerDifference p q < 0)
    (floods : Floods input c (pointerDifference p q)) :
    (step around input uncompress desired c).control = .overrun := by
  rw [nextBlock_eq takes, if_neg (Int.ne_of_lt hneg), readBlock]
  have hover := (readInto_overrun_iff input c.rng.readBuffer
    (toUint64 (pointerDifference p q)) c.orig).mpr floods
  generalize toUint64 (pointerDifference p q) = count at hover
  dsimp only
  generalize readInto input c.rng.readBuffer count c.orig = got at hover
  obtain ⟨result, orig⟩ := got
  obtain rfl : result = .error .overrun := hover
  rfl

/-- A block of zeros gets a negative size if the announced size is negative. -/
theorem negative_overruns (around : Surroundings) (input : InputStream ρ)
    (uncompress : Uncompress) {p q : Nat} (takes : TakesBlock c p q)
    (within : Within desired delivered c) (hsame : pointerDifference p q = 0)
    (hneg : c.data.size < 0) :
    (step around input uncompress desired c).control = .transfer ∧
      (step around input uncompress desired c).rng.waiting < 0 := by
  obtain ⟨⟨-, hannounced, -, -⟩, hpoint⟩ := within
  rw [takes.1] at hpoint
  obtain ⟨⟨blockSize, hblock, hfill⟩, -, -, hbuffer⟩ := hpoint.framed
  obtain ⟨htwo, hlow⟩ := announcedPointers_neg blockSize hneg
  have hmore := takes.2.2.2.1
  have hsmall := BlockSize.value_lt blockSize
  have hout : c.rng.outCounter = 0 := by omega
  obtain ⟨buffer, hwrite, -⟩ := overwrite_of_le c.rng.blockBuffer 0
    (zeros c.rng.blockSize) (by rw [zeros, List.length_replicate]; omega)
  have hint : toInt (c.data.size - (0 : Nat)) = c.data.size := by
    rw [toInt_eq] <;> omega
  rw [nextBlock_eq takes, if_pos hsame, zeroBlock]
  dsimp only
  rw [hwrite]
  dsimp only
  rw [hout, hint, if_pos (by omega), checkAnnounced]
  dsimp only
  rw [if_neg (by omega), toTransfer, if_neg (fun h => ?_)]
  · refine ⟨rfl, ?_⟩
    simp only [ZisofsFilterRuntime.waiting]
    omega
  · have hstate := takes.2.1
    rw [h.1] at hstate
    exact State.noConfusion hstate

/-- No progress is made with the bytes which wait. -/
structure Stuck (desired : Nat) (c : Call ρ) : Prop where
  control : c.control = .readHeader ∨ c.control = .deliverBlock ∨ c.control = .transfer
  state : c.rng.state = .blocks
  waiting : 0 < c.rng.waiting
  inside : c.rng.bufferRpos ≤ c.rng.blockBuffer.length
  wanted : toInt (desired - c.buf.length : Nat) = 0
  more : c.buf.length < desired

theorem step_stuck (stuck : Stuck desired c) :
    Stuck desired (step around input uncompress desired c) := by
  obtain ⟨hcontrol, hstate, hwaiting, hinside, hwanted, hmore⟩ := stuck
  rw [step]
  rcases hcontrol with h | h | h
  · rw [h]
    dsimp only
    rw [stepReadHeader, if_pos (by rw [hstate]; exact State.noConfusion)]
    exact ⟨Or.inr (Or.inl rfl), hstate, hwaiting, hinside, hwanted, hmore⟩
  · rw [h]
    dsimp only
    rw [stepDeliverBlock, if_neg (fun h => ?_), toTransfer, if_neg (fun h => ?_)]
    · exact ⟨Or.inr (Or.inr rfl), hstate, hwaiting, hinside, hwanted, hmore⟩
    · rw [hstate] at h
      exact State.noConfusion h.1
    · have := h.2
      rw [ZisofsFilterRuntime.waiting] at hwaiting
      omega
  · rw [h]
    dsimp only
    have htodo : todo desired c = 0 := by
      rw [todo_eq_min, hwanted]
      omega
    rw [stepTransfer]
    dsimp only
    rw [htodo, Int.toNat_zero, if_neg (by omega), List.take_zero, List.append_nil,
      if_neg (by omega)]
    exact ⟨Or.inl rfl, hstate, hwaiting, hinside, hwanted, hmore⟩

theorem Stuck.neverDone (stuck : Stuck desired c) :
    NeverDone around input uncompress desired c := by
  intro n ret
  have running : ∀ c : Call ρ, Stuck desired c → ¬ c.control = .done ret := by
    rintro c ⟨hcontrol, -⟩ h
    rw [h] at hcontrol
    rcases hcontrol with h | h | h <;> exact Control.noConfusion h
  have keep : ∀ c : Call ρ, Stuck desired c →
      Stuck desired (step around input uncompress desired c) := fun _ => step_stuck
  exact never_final keep running stuck n

theorem harm_neverDone (within : Within desired delivered c)
    (harm : ¬ Harmless input desired c) : NeverDone around input uncompress desired c := by
  rw [Harmless, not_and_or] at harm
  rcases harm with harm | harm
  · simp only [HarmlessBlock, not_forall, not_and_or, not_not] at harm
    obtain ⟨p, q, takes, ⟨hneg, floods⟩ | ⟨hsame, hsize⟩⟩ := harm
    · apply Always.cons
      · intro ret
        rw [takes.1]
        exact Control.noConfusion
      · exact neverDone_of_overrun (flood_overruns takes hneg floods)
    · obtain ⟨htransfer, hwaiting⟩ := negative_overruns around input uncompress takes
        within hsame (Int.not_le.mp hsize)
      apply Always.cons
      · intro ret
        rw [takes.1]
        exact Control.noConfusion
      · generalize step around input uncompress desired c = c' at htransfer hwaiting
        apply Always.cons
        · intro ret
          rw [htransfer]
          exact Control.noConfusion
        · apply neverDone_of_overrun
          rw [step, htransfer]
          apply stepTransfer_overrun
          rw [todo_eq_min]
          omega
  · simp only [HarmlessTransfer, not_forall] at harm
    obtain ⟨hcontrol, harm⟩ := harm
    by_cases hwanted : toInt (desired - c.buf.length : Nat) < 0
    · apply Always.cons
      · intro ret
        rw [hcontrol]
        exact Control.noConfusion
      · apply neverDone_of_overrun
        rw [step, hcontrol]
        apply stepTransfer_overrun
        rw [todo_eq_min]
        omega
    · obtain ⟨-, hpoint⟩ := within
      rw [hcontrol] at hpoint
      have hfilled := hpoint.filled
      have hbuffer := hpoint.framed.blockBuffer
      simp only [not_and, not_forall, not_or, Nat.not_le, Int.not_le] at harm
      obtain ⟨hzero, hmore, hwaiting⟩ := harm (Int.not_lt.mp hwanted)
      apply Stuck.neverDone
      refine ⟨Or.inr (Or.inr hcontrol), ?_, hwaiting, ?_, hzero, hmore⟩
      · cases hstate : c.rng.state with
        | header => exact absurd hstate hpoint.state
        | blocks => rfl
        | ended =>
          have := hpoint.ended hstate
          omega
      · rw [ZisofsFilterRuntime.waiting] at hwaiting
        omega

end Harm

section Sessions

variable {around : Surroundings} {input : InputStream ρ} {uncompress : Uncompress}
variable {data : ZisofsUncomprStreamData} {rng : ZisofsFilterRuntime} {orig : ρ}
variable {sizes : Set Nat} {start : ρ} {desired delivered : Nat} {c : Call ρ}

/-- Calls which have returned a result, with read sizes out of a set and with arbitrary
surroundings, from a state of the input stream on. The first index tells how many bytes they have
stored. -/
inductive Session (input : InputStream ρ) (uncompress : Uncompress) (sizes : Set Nat) (start : ρ) :
    Nat → ZisofsUncomprStreamData → ZisofsFilterRuntime → ρ → Prop where
  | opened {data : ZisofsUncomprStreamData} : data.size < 2 ^ 63 →
      Session input uncompress sizes start 0 data zisoRunningNew start
  | call {delivered desired n : Nat} {data : ZisofsUncomprStreamData}
      {rng : ZisofsFilterRuntime} {orig : ρ} {around : Surroundings} {c : Call ρ} {ret : Int} :
      Session input uncompress sizes start delivered data rng orig → desired ∈ sizes →
      (step around input uncompress desired)^[n] (startCall data rng orig) = c →
      c.control = .done ret →
      Session input uncompress sizes start (delivered + c.buf.length) c.data c.rng c.orig

/-- A call returns a result, has not stored more bytes than wanted, and all calls together not
more than the header announces. So no step has gone beyond the limits of a buffer or of the array
of block pointers. -/
def CallSafe (around : Surroundings) (input : InputStream ρ) (uncompress : Uncompress)
    (delivered : Nat) (data : ZisofsUncomprStreamData) (rng : ZisofsFilterRuntime) (orig : ρ)
    (desired : Nat) : Prop :=
  ∃ n ret, ∃ c, (step around input uncompress desired)^[n] (startCall data rng orig) = c ∧
    c.control = .done ret ∧ ret ≤ c.buf.length ∧ c.buf.length ≤ desired ∧
    delivered + c.buf.length ≤ toUint64 c.data.size

/-- What holds between calls. -/
structure Between (delivered : Nat) (data : ZisofsUncomprStreamData) (rng : ZisofsFilterRuntime) :
    Prop where
  counted : rng.outCounter = delivered
  announced : rng.outCounter = 0 ∨ (rng.outCounter : Int) ≤ data.size
  size_lt : data.size < 2 ^ 63
  rest : rng.errorRet < 0 ∨ Fresh rng ∨ Loaded data rng

theorem between_opened (hsize : data.size < 2 ^ 63) : Between 0 data zisoRunningNew :=
  ⟨rfl, Or.inl rfl, hsize, Or.inr (Or.inl ⟨rfl, rfl⟩)⟩

theorem startCall_within (between : Between delivered data rng) :
    Within desired delivered (startCall data rng orig) := by
  obtain ⟨hcounted, hannounced, hsize, hrest⟩ := between
  rw [startCall]
  split
  · rename_i herror
    exact ⟨⟨hcounted, hannounced, hsize, Nat.zero_le _⟩, Int.le_of_lt herror, Or.inl herror⟩
  · rename_i herror
    exact ⟨⟨hcounted, hannounced, hsize, Nat.zero_le _⟩, hrest.resolve_left herror⟩

theorem Within.finished {ret : Int} (within : Within desired delivered c)
    (hdone : c.control = .done ret) : Between (delivered + c.buf.length) c.data c.rng := by
  obtain ⟨⟨hcounted, hannounced, hsize, -⟩, hpoint⟩ := within
  rw [hdone] at hpoint
  exact ⟨hcounted, hannounced, hsize, hpoint.2⟩

theorem harmless_of_done (ret : Int) (hdone : c.control = .done ret) :
    Harmless input desired c := by
  constructor
  · intro p q takes
    rw [takes.1] at hdone
    exact Control.noConfusion hdone
  · intro htransfer
    rw [htransfer] at hdone
    exact Control.noConfusion hdone

/-- All steps of a call which returns were harmless. -/
theorem harmless_of_returns {n : Nat} {ret : Int} (within : Within desired delivered c)
    (hdone : ((step around input uncompress desired)^[n] c).control = .done ret) :
    Always (step around input uncompress desired) (Harmless input desired) c ∧
      Within desired delivered ((step around input uncompress desired)^[n] c) := by
  induction n generalizing c with
  | zero => exact ⟨.of_fixed (step_done ret hdone) (harmless_of_done ret hdone), within⟩
  | succ n ih =>
    have harmless : Harmless input desired c := by
      by_contra harm
      exact harm_neverDone within harm (n + 1) ret hdone
    obtain ⟨hrest, hwithin⟩ := ih (step_within within harmless) hdone
    exact ⟨.cons harmless hrest, hwithin⟩

theorem Session.between
    (session : Session input uncompress sizes start delivered data rng orig) :
    Between delivered data rng := by
  induction session with
  | opened hsize => exact between_opened hsize
  | call _ _ hrun hdone ih =>
    subst hrun
    exact (harmless_of_returns (startCall_within ih) hdone).2.finished hdone

/-- A whole call is a run with an invariant and a variant. -/
theorem call_ends (within : Within desired delivered c)
    (harmless : Always (step around input uncompress desired) (Harmless input desired) c) :
    ∃ n ret, ((step around input uncompress desired)^[n] c).control = .done ret := by
  let Inv (c : Call ρ) : Prop :=
    Within desired delivered c ∧
      Always (step around input uncompress desired) (Harmless input desired) c
  have keep : ∀ c, Inv c → ¬ c.Final → Inv (step around input uncompress desired c) :=
    fun c inv _ => ⟨step_within inv.1 inv.2.head, inv.2.tail⟩
  have decrease : ∀ c, Inv c → ¬ c.Final → (step around input uncompress desired c).Final ∨
      variant around desired (step around input uncompress desired c) <
        variant around desired c :=
    fun c inv running => step_decreases inv.1 inv.2.head running
  have first : Inv c := ⟨within, harmless⟩
  obtain ⟨n, ⟨ret, hdone⟩ | hover, hwithin, -⟩ := exists_final keep decrease first
  · exact ⟨n, ret, hdone⟩
  · have hpoint := hwithin.2
    rw [hover] at hpoint
    exact hpoint.elim

/-- The announced size, as the number which the header tells. -/
theorem Between.le_announced (between : Between delivered data rng) :
    delivered ≤ toUint64 data.size := by
  obtain ⟨hcounted, hannounced, hsize, -⟩ := between
  rcases hannounced with hzero | hle
  · omega
  · have hcast := toUint64_of_nonneg (Int.le_trans (Int.natCast_nonneg _) hle) hsize
    omega

/-- After any number of calls which have returned, a call is safe if and only if all of its steps
are harmless. -/
theorem call_safe_iff
    (session : Session input uncompress sizes start delivered data rng orig)
    (around : Surroundings) (desired : Nat) :
    CallSafe around input uncompress delivered data rng orig desired ↔
      Always (step around input uncompress desired) (Harmless input desired)
        (startCall data rng orig) := by
  have within := @startCall_within ρ data rng orig desired delivered session.between
  constructor
  · rintro ⟨n, ret, c, rfl, hdone, -⟩
    exact (harmless_of_returns within hdone).1
  · intro harmless
    obtain ⟨n, ret, hdone⟩ := call_ends within harmless
    have hend := (harmless_of_returns within hdone).2
    have hpoint := hend.2
    rw [hdone] at hpoint
    exact ⟨n, ret, _, rfl, hdone, hpoint.1, hend.1.room, (hend.finished hdone).le_announced⟩

end Sessions

end UncompressSafety
