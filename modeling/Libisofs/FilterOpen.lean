import Mathlib.Algebra.Order.Ring.Int

/-!
# Opening of filter streams

gzip_stream_open_flag() and gzip_stream_close_flag() of filters/gzip.c, and
ziso_stream_open_flag() and ziso_stream_close_flag() of filters/zisofs.c, each with the
determination of the stream size by which an opening may begin. What can go wrong outside of
these functions is told by a record of answers for each opening.
-/

namespace FilterOpen

/-- The methods of the input stream of a filter on its state. An end of reading closes it. -/
structure Input (ι : Type) where
  openStream : ι → Int × ι
  close : ι → Int × ι
  readRun : ι → ι
  isOpen : ι → Bool
  close_closed : ∀ i, isOpen (close i).2 = false

variable {ι : Type} (I : Input ι)

def isoFileAlreadyOpened : Int := 0xE830FF7F - 2 ^ 32
def isoOutOfMem : Int := 0xF030FFFA - 2 ^ 32
def isoZlibComprErr : Int := 0xE830FEA4 - 2 ^ 32
def isoZisofsUnknownSize : Int := 0xE830FE57 - 2 ^ 32

/-- What a filter stream knows besides its conversion parameters: its size unless it is
negative, and whether there is a runtime object. -/
structure GzipFilterStream (ι : Type) where
  size : Int
  running : Bool
  orig : ι

/-- Whether memory and zlib are available for a runtime object. -/
structure Startup where
  memory : Bool
  zlibInit : Bool

/-- What happens in the course of an opening: `sizing` and `sizeRead` belong to the size
determination, `final` to the opening proper. -/
structure GzipAnswers where
  sizing : Startup
  sizeRead : Int
  final : Startup

section Gzip

def gzipStreamCloseFlag (origNotOpen : Bool) (s : GzipFilterStream ι) :
    Int × GzipFilterStream ι :=
  if !s.running then (1, s)
  else if origNotOpen then (1, { s with running := false })
  else
    let closed := I.close s.orig
    (closed.1, { s with running := false, orig := closed.2 })

/-- gzip_stream_open_flag() after the size determination. -/
def gzipStart (answers : Startup) (s : GzipFilterStream ι) : Int × GzipFilterStream ι :=
  if !answers.memory then (isoOutOfMem, s)
  else
    let s := { s with running := true }
    if !answers.zlibInit then (isoZlibComprErr, s)
    else
      let opened := I.openStream s.orig
      let s := { s with orig := opened.2 }
      if opened.1 < 0 then (opened.1, s) else (1, s)

/-- gzip_stream_open_flag() with flag bit0. -/
def gzipOpenUnsized (answers : Startup) (s : GzipFilterStream ι) : Int × GzipFilterStream ι :=
  if s.running then (isoFileAlreadyOpened, s) else gzipStart I answers s

def gzipStreamGetSize (answers : GzipAnswers) (s : GzipFilterStream ι) :
    Int × GzipFilterStream ι :=
  if 0 ≤ s.size then (s.size, s)
  else
    let (ret, s) := gzipOpenUnsized I answers.sizing s
    if ret < 0 then (ret, s)
    else
      let s := { s with orig := I.readRun s.orig }
      let (retClose, s) := gzipStreamCloseFlag I false s
      if answers.sizeRead < 0 then (answers.sizeRead, s)
      else if retClose < 0 then (retClose, s)
      else (answers.sizeRead, { s with size := answers.sizeRead })

def gzipStreamOpen (answers : GzipAnswers) (s : GzipFilterStream ι) :
    Int × GzipFilterStream ι :=
  if s.running then (isoFileAlreadyOpened, s)
  else
    let s := if s.size < 0 then (gzipStreamGetSize I answers s).2 else s
    gzipStart I answers.final s

end Gzip

/-- The data of a compressor, of which an uncompressor uses the first four. `pointers` tells
whether there is a list of block pointers. -/
structure ZisofsStream (ι : Type) where
  compress : Bool
  size : Int
  running : Bool
  orig : ι
  origSize : Int
  openCounter : Nat
  pointers : Bool
  pointersDropped : Bool

/-- Whether memory is available for a runtime object and for its two buffers. -/
inductive RuntimeMemory where
  | enough
  | noObject
  | noBuffers
  deriving DecidableEq

/-- `regainRead` and `reopenMemory` matter if the block pointers have to be regained by an extra
run before reading, `reached` tells whether the first run comes to the block pointers, and
`discard` whether their list is large enough to be discarded. -/
structure ZisofsAnswers where
  sizingMemory : RuntimeMemory
  regainRead : Int
  reopenMemory : RuntimeMemory
  sizeRead : Int
  reached : Bool
  discard : Bool
  finalMemory : RuntimeMemory

section Zisofs

/-- An uncompressor gets its buffers later. -/
def zisoRunningNew (compress : Bool) : RuntimeMemory → Int
  | .enough => 1
  | .noObject => isoOutOfMem
  | .noBuffers => if compress then -1 else 1

def zisoDiscardBpt (discard : Bool) (s : ZisofsStream ι) : ZisofsStream ι :=
  if s.compress && s.pointers && s.openCounter == 1 && discard then
    { s with pointers := false, pointersDropped := true }
  else s

def zisoStreamCloseFlag (origNotOpen keepPointers discard : Bool) (s : ZisofsStream ι) :
    Int × ZisofsStream ι :=
  let s := if keepPointers then s else zisoDiscardBpt discard s
  if !s.running then (1, s)
  else if origNotOpen then (1, { s with running := false })
  else
    let closed := I.close s.orig
    (closed.1,
      { s with
        running := false
        openCounter := if s.compress then s.openCounter - 1 else s.openCounter
        orig := closed.2 })

/-- ziso_stream_open_flag() after the size determination. -/
def zisoStart (memory : RuntimeMemory) (s : ZisofsStream ι) : Int × ZisofsStream ι :=
  let s := if s.compress then { s with openCounter := s.openCounter + 1 } else s
  let origSize := if s.compress then s.origSize else s.size
  if origSize < 0 then (isoZisofsUnknownSize, s)
  else if zisoRunningNew s.compress memory < 0 then (zisoRunningNew s.compress memory, s)
  else
    let opened := I.openStream s.orig
    let s := { s with running := true, orig := opened.2 }
    if opened.1 < 0 then (opened.1, s) else (1, s)

/-- ziso_stream_open_flag() with flag bit0. -/
def zisoOpenUnsized (memory : RuntimeMemory) (s : ZisofsStream ι) :
    Int × ZisofsStream ι :=
  if s.running then (isoFileAlreadyOpened, s) else zisoStart I memory s

/-- Reading until the end without regaining of block pointers. -/
def zisoPayload (reached : Bool) (result : Int) (s : ZisofsStream ι) : Int × ZisofsStream ι :=
  (result,
    { s with
      orig := I.readRun s.orig
      pointers := s.pointers || (s.compress && reached) })

/-- ziso_stream_measure_size() with flag bit0 and bit1: the stream gets closed, but keeps its
block pointers. -/
def zisoRegain (reached : Bool) (result : Int) (s : ZisofsStream ι) : Int × ZisofsStream ι :=
  let (ret, s) := zisoPayload I reached result s
  let (retClose, s) := zisoStreamCloseFlag I false true false s
  if ret < 0 then (ret, s)
  else if retClose < 0 then (retClose, s)
  else (ret, { s with size := ret })

/-- Reading until the end. A dropped list of block pointers gets regained first. -/
def zisoReadRun (answers : ZisofsAnswers) (s : ZisofsStream ι) : Int × ZisofsStream ι :=
  if s.compress && s.pointersDropped then
    let (ret, s) :=
      zisoRegain I answers.reached answers.regainRead { s with pointersDropped := false }
    if ret < 0 then (ret, s)
    else
      let (ret, s) := zisoOpenUnsized I answers.reopenMemory s
      if ret < 0 then (ret, s) else zisoPayload I answers.reached answers.sizeRead s
  else zisoPayload I answers.reached answers.sizeRead s

/-- ziso_stream_measure_size() of a stream which is not open. -/
def zisoStreamMeasureSize (answers : ZisofsAnswers) (s : ZisofsStream ι) :
    Int × ZisofsStream ι :=
  let (ret, s) := zisoOpenUnsized I answers.sizingMemory s
  if ret < 0 then (ret, s)
  else
    let (ret, s) := zisoReadRun I answers s
    let (retClose, s) := zisoStreamCloseFlag I false false answers.discard s
    if ret < 0 then (ret, s)
    else if retClose < 0 then (retClose, s)
    else (ret, { s with size := ret })

def zisoStreamOpen (answers : ZisofsAnswers) (s : ZisofsStream ι) : Int × ZisofsStream ι :=
  if s.running then (isoFileAlreadyOpened, s)
  else
    let s := if s.size < 0 then (zisoStreamMeasureSize I answers s).2 else s
    zisoStart I answers.finalMemory s

end Zisofs

section Streams

inductive FilterStream (ι : Type) where
  | gzip (s : GzipFilterStream ι)
  | zisofs (s : ZisofsStream ι)

structure Answers where
  gzip : GzipAnswers
  zisofs : ZisofsAnswers

namespace FilterStream

def size : FilterStream ι → Int
  | .gzip s => s.size
  | .zisofs s => s.size

/-- The stream counts as open. -/
def running : FilterStream ι → Bool
  | .gzip s => s.running
  | .zisofs s => s.running

def orig : FilterStream ι → ι
  | .gzip s => s.orig
  | .zisofs s => s.orig

def openCounter : FilterStream ι → Nat
  | .gzip _ => 0
  | .zisofs s => s.openCounter

end FilterStream

def streamOpen (answers : Answers) : FilterStream ι → Int × FilterStream ι
  | .gzip s => Prod.map id .gzip (gzipStreamOpen I answers.gzip s)
  | .zisofs s => Prod.map id .zisofs (zisoStreamOpen I answers.zisofs s)

def streamClose (discard : Bool) : FilterStream ι → Int × FilterStream ι
  | .gzip s => Prod.map id .gzip (gzipStreamCloseFlag I false s)
  | .zisofs s => Prod.map id .zisofs (zisoStreamCloseFlag I false false discard s)

def streamReadRun (answers : Answers) : FilterStream ι → FilterStream ι
  | .gzip s => .gzip { s with orig := I.readRun s.orig }
  | .zisofs s => .zisofs (zisoReadRun I answers.zisofs s).2

theorem streamClose_closed (discard : Bool) (f : FilterStream ι) :
    (streamClose I discard f).2.running = false := by
  cases f with
  | gzip s =>
    change (gzipStreamCloseFlag I false s).2.running = false
    rw [gzipStreamCloseFlag]
    cases h : s.running with
    | false => exact h
    | true => rfl
  | zisofs s =>
    change (zisoStreamCloseFlag I false false discard s).2.running = false
    simp only [zisoStreamCloseFlag, Bool.false_eq_true, if_false]
    cases h : (zisoDiscardBpt discard s).running with
    | false => exact h
    | true => rfl

/-- Filter streams can be stacked. The answers for the lower one are its own. -/
def stacked : Input (FilterStream ι × List Answers × Answers) where
  openStream x :=
    let opened := streamOpen I (x.2.1.headD x.2.2) x.1
    (opened.1, opened.2, x.2.1.tail, x.2.2)
  close x :=
    let closed := streamClose I x.2.2.zisofs.discard x.1
    (closed.1, closed.2, x.2)
  readRun x := (streamReadRun I x.2.2 x.1, x.2)
  isOpen x := x.1.running
  close_closed x := streamClose_closed I x.2.2.zisofs.discard x.1

end Streams

section Restoring

/-- Neither the stream nor its input is open. -/
structure Closed (f : FilterStream ι) : Prop where
  notRunning : f.running = false
  input : I.isOpen f.orig = false

/-- Nothing but the size and what its determination needs may differ from before. -/
structure Restored (f f' : FilterStream ι) : Prop where
  closed : Closed I f'
  openCounter : f'.openCounter = f.openCounter
  same : 0 ≤ f.size → f' = f

/-- The runtime object cannot be created, after a size determination which was not stopped by
zlib or by the input stream. -/
def GzipHarmless (answers : GzipAnswers) (s : GzipFilterStream ι) : Prop :=
  answers.final.memory = false ∧
    (0 ≤ s.size ∨ answers.sizing.memory = false ∨
      (answers.sizing.zlibInit = true ∧ 0 ≤ (I.openStream s.orig).1))

/-- An uncompressor has no size, or its runtime object cannot be created. -/
def ZisofsHarmless (answers : ZisofsAnswers) (s : ZisofsStream ι) : Prop :=
  s.compress = false ∧ (s.size < 0 ∨ answers.finalMemory = .noObject)

def Harmless (answers : Answers) : FilterStream ι → Prop
  | .gzip s => GzipHarmless I answers.gzip s
  | .zisofs s => ZisofsHarmless answers.zisofs s

variable {I}

/-- Once the runtime object exists, a failure leaves it behind. -/
theorem gzipStart_running {answers : Startup} {s : GzipFilterStream ι}
    (hmemory : answers.memory = true) : (gzipStart I answers s).2.running = true := by
  simp only [gzipStart, hmemory, Bool.not_true, Bool.false_eq_true, if_false]
  split
  · rfl
  · split <;> rfl

theorem gzipStart_noMemory {answers : Startup} {s : GzipFilterStream ι}
    (hmemory : answers.memory = false) : gzipStart I answers s = (isoOutOfMem, s) := by
  rw [gzipStart, hmemory]
  rfl

theorem gzipStart_failed {answers : Startup} {s : GzipFilterStream ι}
    (hmemory : answers.memory = true)
    (hstop : ¬(answers.zlibInit = true ∧ 0 ≤ (I.openStream s.orig).1)) :
    (gzipStart I answers s).1 < 0 := by
  simp only [gzipStart, hmemory, Bool.not_true, Bool.false_eq_true, if_false]
  cases hinit : answers.zlibInit with
  | false => simp only [Bool.not_false, if_true]; decide
  | true =>
    have hopen : (I.openStream s.orig).1 < 0 := by
      by_contra hpos
      exact hstop ⟨hinit, by omega⟩
    simp only [Bool.not_true, Bool.false_eq_true, if_false, hopen, if_true]

theorem gzipStart_succeeded {answers : Startup} {s : GzipFilterStream ι}
    (hmemory : answers.memory = true) (hinit : answers.zlibInit = true)
    (hopen : 0 ≤ (I.openStream s.orig).1) : ¬(gzipStart I answers s).1 < 0 := by
  have hopen' : ¬(I.openStream s.orig).1 < 0 := by omega
  simp only [gzipStart, hmemory, hinit, Bool.not_true, Bool.false_eq_true, if_false, hopen']
  decide

theorem gzipStreamCloseFlag_closed {s : GzipFilterStream ι} (hrunning : s.running = true) :
    Closed I (.gzip (gzipStreamCloseFlag I false s).2) := by
  simp only [gzipStreamCloseFlag, hrunning, Bool.not_true, Bool.false_eq_true, if_false]
  exact ⟨rfl, I.close_closed s.orig⟩

/-- The size determination leaves the stream closed, unless its own opening gets stuck after the
creation of the runtime object. -/
theorem gzipStreamGetSize_closed_iff {answers : GzipAnswers} {s : GzipFilterStream ι}
    (hclosed : Closed I (.gzip s)) (hsize : s.size < 0) :
    Closed I (.gzip (gzipStreamGetSize I answers s).2) ↔
      answers.sizing.memory = false ∨
        (answers.sizing.zlibInit = true ∧ 0 ≤ (I.openStream s.orig).1) := by
  have hnotRunning : s.running = false := hclosed.notRunning
  have hsize' : ¬0 ≤ s.size := by omega
  simp only [gzipStreamGetSize, hsize', if_false, gzipOpenUnsized, hnotRunning,
    Bool.false_eq_true]
  cases hmemory : answers.sizing.memory with
  | false =>
    have hneg : (isoOutOfMem, s).1 < 0 := show isoOutOfMem < 0 by decide
    rw [gzipStart_noMemory hmemory, if_pos hneg]
    exact ⟨fun _ => Or.inl rfl, fun _ => hclosed⟩
  | true =>
    by_cases hgo : answers.sizing.zlibInit = true ∧ 0 ≤ (I.openStream s.orig).1
    · rw [if_neg (gzipStart_succeeded hmemory hgo.1 hgo.2)]
      -- the run has ended and the closing call comes before each of the exits
      refine ⟨fun _ => Or.inr hgo, fun _ => ?_⟩
      have hend := gzipStreamCloseFlag_closed (I := I)
        (s := { (gzipStart I answers.sizing s).2 with
          orig := I.readRun (gzipStart I answers.sizing s).2.orig })
        (gzipStart_running hmemory)
      split
      · exact hend
      · split
        · exact hend
        · exact ⟨hend.notRunning, hend.input⟩
    · rw [if_pos (gzipStart_failed hmemory hgo)]
      refine ⟨fun h => ?_, fun h => ?_⟩
      · have hstuck := gzipStart_running (I := I) (s := s) hmemory
        exact absurd (h.notRunning.symm.trans hstuck) Bool.false_ne_true
      · exact absurd (h.resolve_left Bool.noConfusion) hgo

/-- Opening of a gzip filter stream. -/
theorem gzip_restored_iff {answers : GzipAnswers} {s : GzipFilterStream ι}
    (hclosed : Closed I (.gzip s)) :
    Restored I (.gzip s) (.gzip (gzipStreamOpen I answers s).2) ↔ GzipHarmless I answers s := by
  have hnotRunning : s.running = false := hclosed.notRunning
  simp only [gzipStreamOpen, hnotRunning, Bool.false_eq_true, if_false]
  cases hmemory : answers.final.memory with
  | true =>
    refine ⟨fun h => ?_, fun h => ?_⟩
    · have hstuck := gzipStart_running (I := I)
        (s := if s.size < 0 then (gzipStreamGetSize I answers s).2 else s) hmemory
      exact absurd (h.closed.notRunning.symm.trans hstuck) Bool.false_ne_true
    · exact absurd (hmemory.symm.trans h.1) (Bool.noConfusion)
  | false =>
    rw [gzipStart_noMemory hmemory]
    by_cases hsize : s.size < 0
    · have hunknown : ¬0 ≤ s.size := by omega
      rw [if_pos hsize, GzipHarmless]
      refine ⟨fun h => ⟨hmemory, Or.inr ?_⟩, fun h => ⟨?_, rfl, fun hknown => ?_⟩⟩
      · exact (gzipStreamGetSize_closed_iff hclosed hsize).mp h.closed
      · exact (gzipStreamGetSize_closed_iff hclosed hsize).mpr (h.2.resolve_left hunknown)
      · exact absurd hknown hunknown
    · rw [if_neg hsize]
      refine ⟨fun _ => ⟨hmemory, Or.inl (by omega)⟩, fun _ => ⟨hclosed, rfl, fun _ => rfl⟩⟩

/-- `n` openings of the compressor are counted besides the one of which there is a runtime
object. -/
def Counted (n : Nat) (s : ZisofsStream ι) : Prop :=
  s.compress = true ∧ n + s.running.toNat ≤ s.openCounter

theorem zisoStart_counts (memory : RuntimeMemory) {s : ZisofsStream ι}
    (hcompress : s.compress = true) :
    (zisoStart I memory s).2.compress = true ∧
      (zisoStart I memory s).2.openCounter = s.openCounter + 1 := by
  simp only [zisoStart, hcompress, if_true]
  split
  · exact ⟨rfl, rfl⟩
  · split
    · exact ⟨rfl, rfl⟩
    · split <;> exact ⟨rfl, rfl⟩

theorem counted_zisoOpenUnsized {n : Nat} (memory : RuntimeMemory) {s : ZisofsStream ι}
    (hs : Counted n s) : Counted n (zisoOpenUnsized I memory s).2 := by
  rw [zisoOpenUnsized]
  cases hrunning : s.running with
  | true => exact hs
  | false =>
    obtain ⟨hcompress, hcounter⟩ := zisoStart_counts (I := I) memory hs.1
    have hn := hs.2
    have hbit := Bool.toNat_le (zisoStart I memory s).2.running
    refine ⟨hcompress, ?_⟩
    simp only [Bool.false_eq_true, if_false]
    omega

theorem counted_zisoDiscardBpt {n : Nat} {discard : Bool} {s : ZisofsStream ι}
    (hs : Counted n s) : Counted n (zisoDiscardBpt discard s) := by
  rw [zisoDiscardBpt]
  split
  · exact hs
  · exact hs

theorem counted_zisoStreamCloseFlag {n : Nat} (keepPointers discard : Bool)
    {s : ZisofsStream ι} (hs : Counted n s) :
    Counted n (zisoStreamCloseFlag I false keepPointers discard s).2 := by
  have hs' : Counted n (if keepPointers then s else zisoDiscardBpt discard s) := by
    split
    · exact hs
    · exact counted_zisoDiscardBpt hs
  rw [zisoStreamCloseFlag]
  generalize (if keepPointers then s else zisoDiscardBpt discard s) = t at hs' ⊢
  cases hrunning : t.running with
  | false => exact hs'
  | true =>
    obtain ⟨hcompress, hn⟩ := hs'
    rw [hrunning] at hn
    refine ⟨hcompress, ?_⟩
    simp only [hcompress, Bool.not_true, Bool.false_eq_true, if_false, if_true,
      Bool.toNat_false, Bool.toNat_true] at hn ⊢
    omega

theorem counted_zisoPayload {n : Nat} (reached : Bool) (result : Int) {s : ZisofsStream ι}
    (hs : Counted n s) : Counted n (zisoPayload I reached result s).2 :=
  hs

theorem counted_zisoRegain {n : Nat} (reached : Bool) (result : Int) {s : ZisofsStream ι}
    (hs : Counted n s) : Counted n (zisoRegain I reached result s).2 := by
  have hclose := counted_zisoStreamCloseFlag (I := I) true false
    (counted_zisoPayload (I := I) reached result hs)
  rw [zisoRegain]
  simp only
  split
  · exact hclose
  · split
    · exact hclose
    · exact hclose

theorem counted_zisoReadRun {n : Nat} (answers : ZisofsAnswers) {s : ZisofsStream ι}
    (hs : Counted n s) : Counted n (zisoReadRun I answers s).2 := by
  rw [zisoReadRun]
  split
  · have hregain := counted_zisoRegain (I := I) answers.reached answers.regainRead
      (s := { s with pointersDropped := false }) hs
    have hreopen := counted_zisoOpenUnsized (I := I) answers.reopenMemory hregain
    simp only
    split
    · exact hregain
    · split
      · exact hreopen
      · exact counted_zisoPayload _ _ hreopen
  · exact counted_zisoPayload _ _ hs

/-- The size determination takes back no counted opening but its own. -/
theorem counted_zisoStreamMeasureSize {n : Nat} (answers : ZisofsAnswers) {s : ZisofsStream ι}
    (hs : Counted n s) : Counted n (zisoStreamMeasureSize I answers s).2 := by
  have hopen := counted_zisoOpenUnsized (I := I) answers.sizingMemory hs
  have hend := counted_zisoStreamCloseFlag (I := I) false answers.discard
    (counted_zisoReadRun (I := I) answers hopen)
  rw [zisoStreamMeasureSize]
  simp only
  split
  · exact hopen
  · split
    · exact hend
    · split
      · exact hend
      · exact hend

/-- Each opening of a compressor gets counted before it can fail. -/
theorem compressor_counts (answers : ZisofsAnswers) {s : ZisofsStream ι}
    (hcompress : s.compress = true) (hrunning : s.running = false) :
    s.openCounter < (zisoStreamOpen I answers s).2.openCounter := by
  have hbefore : Counted s.openCounter s := ⟨hcompress, by rw [hrunning]; exact Nat.le_refl _⟩
  have hsized : Counted s.openCounter
      (if s.size < 0 then (zisoStreamMeasureSize I answers s).2 else s) := by
    split
    · exact counted_zisoStreamMeasureSize answers hbefore
    · exact hbefore
  rw [zisoStreamOpen, hrunning]
  simp only [Bool.false_eq_true, if_false]
  generalize (if s.size < 0 then (zisoStreamMeasureSize I answers s).2 else s) = t at hsized ⊢
  have hcounter := (zisoStart_counts (I := I) answers.finalMemory hsized.1).2
  have hn := hsized.2
  omega

theorem uncompressor_unsized {memory : RuntimeMemory} {s : ZisofsStream ι}
    (hcompress : s.compress = false) (hsize : s.size < 0) :
    zisoStart I memory s = (isoZisofsUnknownSize, s) := by
  simp only [zisoStart, hcompress, Bool.false_eq_true, if_false, hsize, if_true]

theorem uncompressor_noObject {s : ZisofsStream ι} (hcompress : s.compress = false)
    (hsize : 0 ≤ s.size) : zisoStart I .noObject s = (isoOutOfMem, s) := by
  have hsize' : ¬s.size < 0 := by omega
  simp only [zisoStart, hcompress, Bool.false_eq_true, if_false, hsize', zisoRunningNew]
  rfl

theorem uncompressor_running {memory : RuntimeMemory} {s : ZisofsStream ι}
    (hcompress : s.compress = false) (hsize : 0 ≤ s.size) (hmemory : memory ≠ .noObject) :
    (zisoStart I memory s).2.running = true := by
  have hsize' : ¬s.size < 0 := by omega
  have hnew : ¬zisoRunningNew false memory < 0 := by
    cases memory with
    | enough => decide
    | noObject => exact absurd rfl hmemory
    | noBuffers => decide
  simp only [zisoStart, hcompress, Bool.false_eq_true, if_false, hsize', hnew]
  split <;> rfl

/-- Opening of a zisofs filter stream. -/
theorem zisofs_restored_iff {answers : ZisofsAnswers} {s : ZisofsStream ι}
    (hclosed : Closed I (.zisofs s)) :
    Restored I (.zisofs s) (.zisofs (zisoStreamOpen I answers s).2) ↔
      ZisofsHarmless answers s := by
  have hnotRunning : s.running = false := hclosed.notRunning
  cases hcompress : s.compress with
  | true =>
    refine ⟨fun h => ?_, fun h => ?_⟩
    · have hcounts := compressor_counts (I := I) answers hcompress hnotRunning
      have hsame : (zisoStreamOpen I answers s).2.openCounter = s.openCounter := h.openCounter
      omega
    · exact absurd (hcompress.symm.trans h.1) Bool.noConfusion
  | false =>
    simp only [zisoStreamOpen, hnotRunning, Bool.false_eq_true, if_false]
    by_cases hsize : s.size < 0
    · have hsized : (zisoStreamMeasureSize I answers s).2 = s := by
        rw [zisoStreamMeasureSize, zisoOpenUnsized, hnotRunning]
        simp only [Bool.false_eq_true, if_false, uncompressor_unsized hcompress hsize]
        rfl
      rw [if_pos hsize, hsized, uncompressor_unsized hcompress hsize]
      exact ⟨fun _ => ⟨hcompress, Or.inl hsize⟩, fun _ => ⟨hclosed, rfl, fun _ => rfl⟩⟩
    · rw [if_neg hsize]
      by_cases hmemory : answers.finalMemory = .noObject
      · rw [hmemory, uncompressor_noObject hcompress (by omega)]
        exact ⟨fun _ => ⟨hcompress, Or.inr hmemory⟩, fun _ => ⟨hclosed, rfl, fun _ => rfl⟩⟩
      · refine ⟨fun h => ?_, fun h => ?_⟩
        · have hstuck := uncompressor_running (I := I) hcompress (by omega) hmemory
          exact absurd (h.closed.notRunning.symm.trans hstuck) Bool.false_ne_true
        · exact absurd h.2 (not_or_intro hsize hmemory)

/-- A failed opening leaves a closed filter stream as it was exactly if it ends by lack of memory
for the runtime object of a gzip filter or a zisofs uncompressor, or because of the unknown size of
an uncompressor. Whatever else goes wrong leaves a runtime object or a counted opening. -/
theorem open_restores_iff (answers : Answers) (f : FilterStream ι) :
    Closed I f → (streamOpen I answers f).1 < 0 →
      (Restored I f (streamOpen I answers f).2 ↔ Harmless I answers f) := by
  rintro hclosed -
  cases f with
  | gzip s => exact gzip_restored_iff hclosed
  | zisofs s => exact zisofs_restored_iff hclosed

end Restoring

section Examples

/-- A file which can be opened if `readable`. The state tells whether it is open. -/
def fileInput (readable : Bool) : Input Bool where
  openStream _ := if readable then (1, true) else (-1, false)
  close _ := (1, false)
  readRun _ := true
  isOpen isOpened := isOpened
  close_closed _ := rfl

def allWell : Answers where
  gzip := ⟨⟨true, true⟩, 100, ⟨true, true⟩⟩
  zisofs := ⟨.enough, 100, .enough, 100, true, false, .enough⟩

def outOfMemory : Answers where
  gzip := ⟨⟨true, true⟩, 100, ⟨false, true⟩⟩
  zisofs := ⟨.enough, 100, .enough, 100, true, false, .noObject⟩

/-- A gzip filter stacked on a zisofs compressor, none of them open. -/
def gzipOfZisofs : FilterStream (FilterStream Bool × List Answers × Answers) :=
  .gzip ⟨-1, false, .zisofs ⟨true, 100, false, false, 200, 0, false, false⟩, [], allWell⟩

theorem stacked_outOfMemory_restores :
    Restored (stacked (fileInput true)) gzipOfZisofs
      (streamOpen (stacked (fileInput true)) outOfMemory gzipOfZisofs).2 :=
  (open_restores_iff outOfMemory gzipOfZisofs ⟨rfl, rfl⟩ (by decide)).mpr
    ⟨rfl, Or.inr (Or.inr ⟨rfl, by decide⟩)⟩

/-- After a failed opening of its input a compressor counts as open. -/
theorem unreadable_input_leaves_open :
    ¬∀ (readable : Bool) (answers : Answers) (f : FilterStream Bool),
      Closed (fileInput readable) f → (streamOpen (fileInput readable) answers f).1 < 0 →
        Restored (fileInput readable) f (streamOpen (fileInput readable) answers f).2 := by
  intro hrestored
  have hopen := (hrestored false allWell (.gzip ⟨100, false, false⟩) ⟨rfl, rfl⟩
    (by decide)).closed.notRunning
  exact absurd hopen (by decide)

end Examples

end FilterOpen
