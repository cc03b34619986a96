import Libisofs.CompressRuns

/-!
# Discarding of block pointers

Whether a zisofs compression filter keeps its block pointers after the size determination run,
or discards them, shall make no difference for the bytes which it delivers. With kept pointers
each read delivers the next bytes of the image of the stream. With discarded pointers the next
read regains them, but then goes on with a runtime object which has been freed.
-/

namespace DiscardedPointers

open ByteBuffers (toLsb length_toLsb ofLsb ofLsb_toLsb_of_lt)
open FileData (Bytes)
open Halting PieceOffsets ZisofsCompress CompressRuns

variable {σ : Source} {around : Surroundings} {pointers : List Nat} {delivered buf : Bytes}
variable {data data' : ZisofsComprStreamData} {rng : ZisofsFilterRuntime} {ret : Int}

theorem length_runBytes (known : Partial σ pointers) :
    (runBytes σ pointers).length = (image σ).length := by
  rw [image, runBytes, runBytes, List.length_append, List.length_append, List.length_append,
    List.length_append, length_encode, length_encode, known.length, length_offsets]

/-- A freshly opened stream is at the begin of a run. -/
theorem opened_running (data : ZisofsComprStreamData)
    (hsized : data.size < 0 ∨ data.size = (image σ).length)
    (hlist : ListIs pointers σ data) :
    Running σ pointers [] (zisoStreamOpenFlag σ data) (zisoRunningNew σ data.nextObject) := by
  refine ⟨rfl, rfl, Int.lt_irrefl 0, hsized, ?_, ?_⟩
  · exact ⟨rfl, rfl, rfl, rfl, hlist, fun h => absurd rfl h⟩
  · rfl

/-- What a read loop reaches which ends without error. -/
structure Measured (σ : Source) (pointers : List Nat) (delivered : Bytes) (count : Nat)
    (data data' : ZisofsComprStreamData) : Prop where
  complete : Complete σ
  list : data'.blockPointers = some (offsets σ)
  count : delivered.length + count = (runBytes σ pointers).length
  dropped : data'.blockPointersDropped = data.blockPointersDropped
  nextObject : data'.nextObject = data.nextObject

theorem MeasureLoop.measured {count : Nat} {last : Int} (known : Partial σ pointers)
    (measure : MeasureLoop σ data count last data') (hlast : last = 0)
    (hrunning : data.running = some rng) (running : Running σ pointers delivered data rng) :
    Measured σ pointers delivered count data data' := by
  induction measure generalizing rng delivered with
  | @last data data' around ret buf returns hle =>
    subst hlast
    obtain ⟨rng', -, -, hdropped, hnext, -, ⟨hneg, -⟩ | continued⟩ :=
      returned_cases known hrunning running (by decide) returns
    · exact absurd hneg (Int.lt_irrefl 0)
    · obtain ⟨hret, running', -, hlast⟩ := continued
      have hbuf : buf = [] := List.eq_nil_of_length_eq_zero (by omega)
      subst hbuf
      have hended := hlast (by decide)
      have htrack := running'.track
      have haccount := running'.account
      rw [Track, hended] at htrack
      rw [rest, hended] at haccount
      obtain ⟨hcomplete, hlist, hnone⟩ := htrack
      dsimp only at haccount
      rw [hnone, List.append_nil, List.append_nil] at haccount
      refine ⟨hcomplete, hlist, ?_, hdropped, hnext⟩
      rw [haccount]
      rfl
  | @more data data₁ data' around ret last buf count returns hpos _ ih =>
    obtain ⟨rng', hrunning', -, hdropped, hnext, -, ⟨hneg, -⟩ | continued⟩ :=
      returned_cases known hrunning running (by decide) returns
    · omega
    · obtain ⟨hcomplete, hlist, hcount, hdropped', hnext'⟩ :=
        ih hlast hrunning' continued.running
      refine ⟨hcomplete, hlist, ?_, hdropped'.trans hdropped, hnext'.trans hnext⟩
      have hret := continued.ret
      rw [List.length_append] at hcount
      omega

theorem nextObject_of_returns {desired : Nat}
    (returns : CallReturns σ around desired data ret buf data') :
    data'.nextObject = data.nextObject := by
  obtain ⟨rng, n, c, -, hrun, -, -, hdata⟩ := returns
  have frame := frame_run σ around desired n (startCall data rng)
  rw [hrun] at frame
  rw [← hdata]
  refine frame.nextObject.trans ?_
  rw [startCall]
  split <;> rfl

/-- A read loop does not create runtime objects. -/
theorem MeasureLoop.nextObject {count : Nat} {last : Int}
    (measure : MeasureLoop σ data count last data') : data'.nextObject = data.nextObject := by
  induction measure with
  | last returns _ => exact nextObject_of_returns returns
  | more returns _ _ ih => exact ih.trans (nextObject_of_returns returns)

/-- The block pointers with which a run begins. -/
def startPointers (σ : Source) (data : ZisofsComprStreamData) : List Nat :=
  if data.blockPointersDropped then List.replicate (pointerCount σ) 0 else offsets σ

theorem partial_startPointers (data : ZisofsComprStreamData) :
    Partial σ (startPointers σ data) := by
  rw [startPointers]
  split
  · exact partial_zeros
  · exact partial_offsets

/-- The state of a runtime object between calls. -/
def Resting (σ : Source) (data : ZisofsComprStreamData) (delivered : Option Bytes)
    (rng : ZisofsFilterRuntime) : Prop :=
  rng.object < data.nextObject ∧
    (delivered = none ∧ rng.errorRet < 0 ∨
      ∃ d, delivered = some d ∧ Running σ (startPointers σ data) d data rng)

/-- What holds of a stream in its whole life. -/
structure Sound (σ : Source) (data : ZisofsComprStreamData) (delivered : Option Bytes) : Prop where
  complete : Complete σ
  size : data.size = (image σ).length
  smaller : (image σ).length < σ.origSize
  list : data.blockPointers = some (offsets σ) ∧ data.blockPointersDropped = false ∨
    data.blockPointers = none ∧ data.blockPointersDropped = true
  running : ∀ rng, data.running = some rng → Resting σ data delivered rng
  opened : ∀ d, delivered = some d → data.running.isSome

theorem Sound.listIs {delivered : Option Bytes} (sound : Sound σ data delivered) :
    ListIs (startPointers σ data) σ data := by
  rw [startPointers]
  rcases sound.list with ⟨hsome, hkept⟩ | ⟨hnone, hdropped⟩
  · rw [hkept]
    exact Or.inl hsome
  · rw [hdropped]
    exact Or.inr ⟨hnone, rfl⟩

theorem Sound.repeated {delivered : Option Bytes} (sound : Sound σ data delivered)
    (hkept : data.blockPointersDropped = false) : Repeated σ (startPointers σ data) := by
  refine ⟨sound.complete, ?_⟩
  rw [startPointers, hkept]
  rfl

theorem sound_installed {count : Nat} (discard : Bool)
    (measure : MeasureLoop σ (zisoStreamOpenFlag σ zisoFilterGetFilter) count 0 data)
    (hless : count < σ.origSize) :
    Sound σ { zisoStreamCloseFlag discard data with size := count } none := by
  have hlist : ListIs (List.replicate (pointerCount σ) 0) σ zisoFilterGetFilter :=
    Or.inr ⟨rfl, rfl⟩
  have running := opened_running zisoFilterGetFilter (Or.inl (by decide)) hlist
  obtain ⟨hcomplete, hsome, hcount, hdropped, -⟩ :=
    MeasureLoop.measured partial_zeros measure rfl rfl running
  rw [List.length_nil, Nat.zero_add, length_runBytes partial_zeros] at hcount
  refine ⟨hcomplete, congrArg _ hcount, hcount ▸ hless, ?_, ?_, ?_⟩
  · cases discard with
    | true =>
      right
      rw [zisoStreamCloseFlag, if_pos rfl, zisoDiscardBpt,
        if_neg (by rw [hsome]; exact Bool.false_ne_true)]
      exact ⟨rfl, rfl⟩
    | false => exact Or.inl ⟨hsome, hdropped⟩
  · intro rng hrunning
    exact absurd (show none = some rng from hrunning) (Option.some_ne_none rng).symm
  · intro d hd
    exact absurd hd.symm (Option.some_ne_none d)

/-- Discarding keeps the rules, as long as the stream is not open. -/
theorem Sound.discarded {delivered : Option Bytes} (sound : Sound σ data delivered)
    (hclosed : data.running = none) : Sound σ (zisoDiscardBpt data) none := by
  obtain ⟨hcomplete, hsize, hsmaller, hlist, -, -⟩ := sound
  rw [zisoDiscardBpt]
  rcases hlist with ⟨hsome, hkept⟩ | ⟨hnone, hdropped⟩
  · rw [if_neg (by rw [hsome]; exact Bool.false_ne_true)]
    refine ⟨hcomplete, hsize, hsmaller, Or.inr ⟨rfl, rfl⟩, ?_, fun _ h => absurd h (by simp)⟩
    intro rng hrunning
    exact absurd (hclosed.symm.trans hrunning) (Option.some_ne_none rng).symm
  · rw [if_pos (by rw [hnone]; rfl)]
    refine ⟨hcomplete, hsize, hsmaller, Or.inr ⟨hnone, hdropped⟩, ?_,
      fun _ h => absurd h (by simp)⟩
    intro rng hrunning
    exact absurd (hclosed.symm.trans hrunning) (Option.some_ne_none rng).symm

theorem Sound.closed {delivered : Option Bytes} (sound : Sound σ data delivered)
    (discard : Bool) : Sound σ (zisoStreamCloseFlag discard data) none := by
  obtain ⟨hcomplete, hsize, hsmaller, hlist, -, -⟩ := sound
  have closed : Sound σ { data with running := none } none :=
    ⟨hcomplete, hsize, hsmaller, hlist, fun _ h => absurd h (by simp),
      fun _ h => absurd h (by simp)⟩
  cases discard with
  | true =>
    have hsame : zisoStreamCloseFlag true data = zisoDiscardBpt { data with running := none } := by
      rw [zisoStreamCloseFlag, if_pos rfl, zisoDiscardBpt, zisoDiscardBpt]
      split <;> rfl
    rw [hsame]
    exact closed.discarded rfl
  | false => exact closed

theorem Sound.cloned {delivered : Option Bytes} (sound : Sound σ data delivered) :
    Sound σ (zisoCloneStream data) none := by
  obtain ⟨hcomplete, hsize, hsmaller, hlist, -, -⟩ := sound
  refine ⟨hcomplete, hsize, hsmaller, Or.inr ⟨rfl, ?_⟩, ?_, fun _ h => absurd h (by simp)⟩
  rotate_left
  · intro rng hrunning
    exact absurd (show none = some rng from hrunning) (Option.some_ne_none rng).symm
  rw [zisoCloneStream]
  rcases hlist with ⟨hsome, -⟩ | ⟨-, hdropped⟩
  · rw [hsome]
    rfl
  · rw [hdropped]
    exact Bool.or_true _

theorem Sound.open {delivered : Option Bytes} (sound : Sound σ data delivered) :
    Sound σ (zisoStreamOpenFlag σ data) (some []) := by
  have running := opened_running data (Or.inr sound.size) sound.listIs
  refine ⟨sound.complete, sound.size, sound.smaller, sound.list, ?_, fun _ _ => rfl⟩
  intro rng hrunning
  obtain rfl := Option.some.inj hrunning
  exact ⟨Nat.lt_succ_self _, Or.inr ⟨[], rfl, running⟩⟩

/-- A regained list does not bring back the freed runtime object. -/
theorem Sound.other_object {delivered : Option Bytes} {data₁ : ZisofsComprStreamData}
    {count : Nat} {rng₂ : ZisofsFilterRuntime} (sound : Sound σ data delivered)
    (hrunning : data.running = some rng)
    (measure : MeasureLoop σ { data with blockPointersDropped := false } count 0 data₁)
    (hopened : (zisoStreamOpenFlag σ { zisoStreamCloseFlag false data₁ with
      size := count }).running = some rng₂) : rng.object ≠ rng₂.object := by
  have hless := (sound.running rng hrunning).1
  have hsame : data₁.nextObject =
      ({ data with blockPointersDropped := false } : ZisofsComprStreamData).nextObject :=
    MeasureLoop.nextObject measure
  obtain rfl := Option.some.inj hopened
  have hobject : (zisoRunningNew σ data₁.nextObject).object = data.nextObject := hsame
  intro heq
  have hsame' : rng.object = (zisoRunningNew σ data₁.nextObject).object := heq
  omega

/-- Results are returned only by direct calls. -/
theorem Sound.direct {delivered : Option Bytes} {desired : Nat} (sound : Sound σ data delivered)
    (hrunning : data.running = some rng)
    (reads : ZisoStreamCompress σ around data desired (.returned ret buf) data') :
    (rng.errorRet < 0 ∨ data.blockPointersDropped = false) ∧
      CallReturns σ around desired data ret buf data' := by
  cases reads with
  | notOpened hnone => exact absurd (hnone.symm.trans hrunning) (Option.some_ne_none rng).symm
  | direct hrunning' hkept returns =>
    obtain rfl := Option.some.inj (hrunning.symm.trans hrunning')
    exact ⟨hkept, returns⟩
  | regainedInPlace hrunning' _ _ measure hopened hrng₂ hobject _ =>
    obtain rfl := Option.some.inj (hrunning.symm.trans hrunning')
    subst hopened
    exact absurd hobject (sound.other_object hrunning measure hrng₂)

theorem Sound.read {delivered : Option Bytes} {desired : ReadSize}
    (sound : Sound σ data delivered)
    (reads : ZisoStreamCompress σ around data desired (.returned ret buf) data') :
    Sound σ data' (if ret < 0 then none else delivered.map (· ++ buf)) := by
  cases hrunning : data.running with
  | none =>
    cases reads with
    | notOpened _ =>
      have hneg : isoFileNotOpened < 0 := by decide
      obtain ⟨hcomplete, hsize, hsmaller, hlist, hrng, -⟩ := sound
      rw [if_pos hneg]
      refine ⟨hcomplete, hsize, hsmaller, hlist, ?_, fun _ h => absurd h (by simp)⟩
      intro rng h
      exact absurd (hrunning.symm.trans h) (Option.some_ne_none rng).symm
    | direct h _ _ => exact absurd (hrunning.symm.trans h) (Option.some_ne_none _).symm
    | regainedInPlace h _ _ _ _ _ _ _ =>
      exact absurd (hrunning.symm.trans h) (Option.some_ne_none _).symm
  | some rng =>
    obtain ⟨hkept, returns⟩ := sound.direct hrunning reads
    obtain ⟨hless, ⟨hfailed, herror⟩ | ⟨d, hd, running⟩⟩ := sound.running rng hrunning
    · obtain ⟨hneg, hsame⟩ := failed_again hrunning herror returns
      rw [if_pos hneg, hsame, ← hfailed]
      exact sound
    · have hkept' := hkept.resolve_left running.sound
      have hrepeated := sound.repeated hkept'
      obtain ⟨rng', hrunning', hsize, hdropped, hnext, hobject, hcase⟩ :=
        returned_cases (partial_startPointers data) hrunning running desired.property.1 returns
      have hstart : startPointers σ data' = startPointers σ data := by
        rw [startPointers, startPointers, hdropped]
      have hresting : rng'.object < data'.nextObject := by omega
      rcases hcase with ⟨hneg, herror, -, hlist⟩ | continued
      · rw [if_pos hneg]
        refine ⟨sound.complete, hsize.trans sound.size, sound.smaller,
          Or.inl ⟨hlist hrepeated.2, hdropped.trans hkept'⟩, ?_, fun _ h => absurd h (by simp)⟩
        intro rng₂ hrng₂
        obtain rfl := Option.some.inj (hrunning'.symm.trans hrng₂)
        exact ⟨hresting, Or.inl ⟨rfl, herror⟩⟩
      · have hret := continued.ret
        rw [if_neg (by omega), hd]
        refine ⟨sound.complete, hsize.trans sound.size, sound.smaller,
          Or.inl ⟨continued.running.list hrepeated.2, hdropped.trans hkept'⟩, ?_, ?_⟩
        · intro rng₂ hrng₂
          obtain rfl := Option.some.inj (hrunning'.symm.trans hrng₂)
          exact ⟨hresting, Or.inr ⟨d ++ buf, rfl, hstart ▸ continued.running⟩⟩
        · intro _ _
          rw [hrunning']
          rfl

theorem Life.sound {delivered : Option Bytes} (life : Life σ data delivered) :
    Sound σ data delivered := by
  induction life with
  | installed discard measure hless => exact sound_installed discard measure hless
  | opened _ _ ih => exact ih.open
  | read _ reads ih => exact ih.read reads
  | closed discard _ ih => exact ih.closed discard
  | discarded _ hclosed ih => exact ih.discarded hclosed
  | cloned _ ih => exact ih.cloned

/-- A read returns the next bytes of the image, and less than wanted only at its end. It does not
fail if nothing hampers it. -/
def ReadRight (σ : Source) (around : Surroundings) (data : ZisofsComprStreamData)
    (delivered : Bytes) (desired : ReadSize) : Prop :=
  ∃ ret buf data', ZisoStreamCompress σ around data desired (.returned ret buf) data' ∧
    (Untroubled σ around → 0 ≤ ret) ∧
    (0 ≤ ret → ret = buf.length ∧ buf.length ≤ desired ∧ ∃ rest,
      delivered ++ buf ++ rest = image σ ∧ (buf.length < desired → rest = []))

theorem header_prefix_image : header σ <+: image σ :=
  ⟨encode σ (offsets σ) ++ (pieces σ).flatten, by rw [image, runBytes, List.append_assoc]⟩

/-- A block pointer as it is read back from the image. -/
theorem pointer_of_image (hsize : (image σ).length < 256 ^ width σ) {b : Nat}
    (hb : b < pointerCount σ) :
    ofLsb (((image σ).drop ((header σ).length + width σ * b)).take (width σ)) = offset σ b := by
  have hdrop : (image σ).drop ((header σ).length + width σ * b) =
      encode σ ((offsets σ).drop b) ++ (pieces σ).flatten := by
    have hle : width σ * b ≤ (encode σ (offsets σ)).length := by
      rw [length_encode, length_offsets, Nat.mul_comm]
      exact Nat.mul_le_mul_right _ (Nat.le_of_lt hb)
    rw [image, runBytes, List.append_assoc, ← List.drop_drop, List.drop_left,
      List.drop_append_of_le_length hle, encode,
      drop_flatMap_fixed (fun _ => length_toLsb _ _)]
    rfl
  have hlt : b < (offsets σ).length := by rw [length_offsets]; exact hb
  have hget : (offsets σ)[b] = offset σ b := by
    simp [offsets]
  rw [hdrop, List.drop_eq_getElem_cons hlt, hget, encode, List.flatMap_cons, List.append_assoc,
    List.take_left' (length_toLsb _ _)]
  exact ofLsb_toLsb_of_lt ((offset_le b).trans_lt hsize)

/-- The number of input blocks is the number of pointers but one. -/
theorem pointerCount_eq (hcomplete : Complete σ) : pointerCount σ = inputBlocks σ + 1 := by
  rw [pointerCount, inputBlocks, hcomplete.length]

theorem image_agrees (hcomplete : Complete σ) (hsmaller : (image σ).length < σ.origSize) :
    AgreesWithData σ (image σ) := by
  have hsize : (image σ).length < 256 ^ width σ := by
    have horig := σ.origSize_lt
    rw [width, pointerWidth, version]
    rcases hcomplete.head.2 with hv2 | hless
    · rw [hv2]
      have : (256 : Nat) ^ 8 = 2 ^ 64 := by norm_num
      simp only [if_true, OfNat.ofNat_ne_one, if_false, this]
      omega
    · have h4 : (256 : Nat) ^ 4 = 2 ^ 32 := by norm_num
      have h8 : (256 : Nat) ^ 8 = 2 ^ 64 := by norm_num
      split
      · rw [if_neg (by decide), h8]
        omega
      · rw [if_pos rfl, h4]
        omega
  have hfront : (header σ ++ encode σ (offsets σ)).length =
      firstBlock (version σ) (pointerCount σ) := by
    rw [List.length_append, length_encode, length_offsets, firstBlock_eq]
  refine ⟨header_prefix_image, fun b hb => pointer_of_image hsize hb, pointerCount_eq hcomplete,
    ?_, ?_⟩
  · intro b hb
    obtain ⟨out, hout⟩ := Option.isSome_iff_exists.mp (hcomplete.compressed b hb)
    have hpiece := getElem?_pieces hb
    rw [hout, Option.getD_some] at hpiece
    rw [hout]
    exact congrArg some (piece_at hfront hpiece).symm
  · rw [length_image, offset, ← length_pieces, offsetAt_length]

/-- For an open stream, in the whole life of which anything may have happened: reading goes on with
the image of the stream if and only if its block pointers were not discarded. -/
theorem read_right_iff_kept (life : Life σ data (some delivered)) (around : Surroundings)
    (desired : ReadSize) :
    ReadRight σ around data delivered desired ∧ AgreesWithData σ (image σ) ↔
      data.blockPointersDropped = false := by
  have sound := Life.sound life
  obtain ⟨rng, hrunning⟩ := Option.isSome_iff_exists.mp (sound.opened delivered rfl)
  obtain ⟨-, ⟨hnone, -⟩ | ⟨d, hd, running⟩⟩ := sound.running rng hrunning
  · exact absurd hnone (Option.some_ne_none _)
  · obtain rfl := Option.some.inj hd
    constructor
    · rintro ⟨⟨ret, buf, data', reads, -⟩, -⟩
      exact (sound.direct hrunning reads).1.resolve_left running.sound
    · intro hkept
      have hrepeated := sound.repeated hkept
      obtain ⟨ret, buf, data', returns⟩ := call_returns (partial_startPointers data)
        sound.complete.small hrunning running around desired.property.1
      obtain ⟨rng', -, -, -, -, -, hcase⟩ :=
        returned_cases (partial_startPointers data) hrunning running desired.property.1 returns
      refine ⟨⟨ret, buf, data', .direct hrunning (Or.inr hkept) returns, ?_, ?_⟩,
        image_agrees sound.complete sound.smaller⟩
      · intro untroubled
        rcases hcase with ⟨-, -, hblame, -⟩ | continued
        · exact absurd untroubled (hblame hrepeated)
        · have := continued.ret
          omega
      · intro hnonneg
        rcases hcase with ⟨hneg, -⟩ | ⟨hret, running', hroom, hlast⟩
        · omega
        · refine ⟨hret, hroom, rest σ (startPointers σ data) rng', ?_, ?_⟩
          · rw [running'.account, hrepeated.2]
            rfl
          · intro hshort
            have hended := hlast hshort
            have htrack := running'.track
            rw [Track, hended] at htrack
            rw [rest, hended]
            exact htrack.2.2

/-- Forty zeros. No block of them needs bytes in the compressed stream. -/
def fortyZeros : Source where
  params :=
    ⟨0, 15, 17, -1, 1000000, ⟨Nat.le_refl 15, by decide⟩, ⟨by decide, by decide⟩⟩
  zlib := ⟨fun _ _ => none, id, fun n => Nat.le_refl n⟩
  content := List.replicate 40 0
  origSize := 40
  origSize_lt := by decide

def idle : Surroundings := ⟨fun _ _ => true, fun _ => true, 40, fun _ => none⟩

/-- The stream after the given number of steps of a call. -/
def after (n : Nat) (data : ZisofsComprStreamData) : ZisofsComprStreamData :=
  match data.running with
  | none => data
  | some rng => ((step fortyZeros idle (64 * 1024))^[n] (startCall data rng)).finished

def measuring : ZisofsComprStreamData := zisoStreamOpenFlag fortyZeros zisoFilterGetFilter

def measured : ZisofsComprStreamData := after 4 (after 20 measuring)

theorem fortyZeros_measured : MeasureLoop fortyZeros measuring 24 0 measured := by
  have first : CallReturns fortyZeros idle (64 * 1024) measuring 24
      ((step fortyZeros idle (64 * 1024))^[20]
        (startCall measuring (zisoRunningNew fortyZeros 0))).buf (after 20 measuring) :=
    ⟨zisoRunningNew fortyZeros 0, 20, _, rfl, rfl, by decide +kernel, rfl, rfl⟩
  have second : CallReturns fortyZeros idle (64 * 1024) (after 20 measuring) 0 _ measured :=
    ⟨_, 4, _, rfl, rfl, by decide +kernel, rfl, rfl⟩
  exact MeasureLoop.more first (by decide) (MeasureLoop.last second (Int.le_refl 0))

/-- The stream of forty zeros, opened after its block pointers were kept or discarded. -/
def fortyZerosStream (discard : Bool) : ZisofsComprStreamData :=
  zisoStreamOpenFlag fortyZeros
    { zisoStreamCloseFlag discard measured with size := ((24 : Nat) : Int) }

theorem life_fortyZeros (discard : Bool) :
    Life fortyZeros (fortyZerosStream discard) (some []) := by
  have installed := Life.installed discard fortyZeros_measured (by decide)
  refine Life.opened installed ?_
  cases discard <;> rfl

/-- With discarded block pointers no read yields the begin of the image. -/
theorem discarded_pointers_go_wrong : ¬ ∀ (σ : Source) (data : ZisofsComprStreamData)
    (delivered : Bytes) (around : Surroundings) (desired : ReadSize),
    Life σ data (some delivered) → ReadRight σ around data delivered desired := by
  intro claim
  have life := life_fortyZeros true
  obtain ⟨ret, buf, data', reads, -⟩ :=
    claim fortyZeros (fortyZerosStream true) [] idle ⟨2048, by decide⟩ life
  rcases ((Life.sound life).direct rfl reads).1 with herror | hkept
  · exact absurd herror (Int.lt_irrefl 0)
  · exact absurd hkept (by decide +kernel)

theorem kept_pointers_read_right :
    ReadRight fortyZeros idle (fortyZerosStream false) [] ⟨2048, by decide⟩ ∧
        AgreesWithData fortyZeros (image fortyZeros) ↔
      (fortyZerosStream false).blockPointersDropped = false :=
  read_right_iff_kept (life_fortyZeros false) idle ⟨2048, by decide⟩

end DiscardedPointers
