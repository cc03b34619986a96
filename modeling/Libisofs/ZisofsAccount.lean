import Libisofs.Lib.Ledger

/-!
# Accounting of zisofs block pointers

ziso_block_pointer_mgt() of filters/zisofs.c counts the block pointers of all zisofs streams.
Modelled are the pieces of code which allocate, pass on or free them. Reads, size determination
and stacked filters go through these pieces in many orders, so a run may do them in any order.
-/

namespace ZisofsAccount

open Ledger

/-- The part of ZisofsFilterRuntime which matters here: the size of the allocated array and what
`block_pointer_fill` tells about it. -/
structure Runtime where
  state : Nat
  blockPointers : Option Nat
  blockPointerFill : Int
  errorRet : Int

structure ZisofsFilterStreamData where
  size : Int
  running : Option Runtime

/-- `blockPointers` is the size of the allocated array. -/
structure ZisofsComprStreamData where
  std : ZisofsFilterStreamData
  origSize : Nat
  blockPointers : Option Nat
  blockPointerCounter : Nat
  openCounter : Nat
  blockPointersDropped : Bool

inductive IsoStream where
  | ziso (data : ZisofsComprStreamData)
  | osiz (data : ZisofsFilterStreamData)

/-- iso_zisofs_set_params() accepts positive numbers of type int64_t. -/
structure Limits where
  maxTotalBlocks : Nat
  maxFileBlocks : Nat
  total_lt : maxTotalBlocks < 2 ^ 63
  file_lt : maxFileBlocks < 2 ^ 63

/-- ziso_parse_zisofs_head() and iso_zisofs_set_params() accept only these block sizes. -/
structure BlockSize where
  log2 : Nat
  log2_ge : 15 ≤ log2
  log2_le : log2 ≤ 20

def BlockSize.value (b : BlockSize) : Nat := 2 ^ b.log2

/-- The static variables of ziso_block_pointer_mgt(). -/
structure Mgt where
  globalCount : Nat
  underrun : Nat

def isoZisofsTooLarge : Int := 0xE830FEA6 - 2 ^ 32
def isoOutOfMem : Int := 0xF030FFFA - 2 ^ 32

section Code

variable (limits : Limits)

/-- The cast to uint64_t. -/
def toUint64 (n : Int) : Nat := (n % 2 ^ 64).toNat

/-- The cast of an uint64_t to off_t. -/
def toOffT (n : Nat) : Int := (n : Int).bmod (2 ^ 64)

def zisoBlockPointerMgt (num mode : Nat) (m : Mgt) : Nat × Mgt :=
  if mode = 2 then
    if m.globalCount < num then (1, ⟨0, m.underrun + 1⟩)
    else (1, { m with globalCount := m.globalCount - num })
  else if mode = 3 then (m.globalCount, m)
  else if (m.globalCount + num) % 2 ^ 64 > limits.maxTotalBlocks then (0, m)
  else if mode = 1 then (1, { m with globalCount := (m.globalCount + num) % 2 ^ 64 })
  else (1, m)

def zisoRunningDestroy (running : Option Runtime) (m : Mgt) : Mgt :=
  match running with
  | none => m
  | some o =>
    if o.blockPointers.isSome then
      (zisoBlockPointerMgt limits (toUint64 o.blockPointerFill) 2 m).2
    else m

/-- ziso_discard_bpt() of a compressor. `wanted` stands for the conditions about sizes and
ratios, `bit1` is of `flag`. -/
def zisoDiscardBpt (wanted bit1 : Bool) (cstd : ZisofsComprStreamData) (m : Mgt) :
    Mgt × ZisofsComprStreamData :=
  if cstd.blockPointers.isNone then (m, cstd)
  else if cstd.openCounter ≠ bit1.toNat then (m, cstd)
  else if !wanted then (m, cstd)
  else
    ((zisoBlockPointerMgt limits cstd.blockPointerCounter 2 m).2,
      { cstd with
        blockPointers := none
        blockPointerCounter := 0
        blockPointersDropped := true })

/-- ziso_stream_close_flag(), without the closing of the input stream. -/
def zisoStreamCloseFlag (origNotOpen keep wanted : Bool) (stream : IsoStream) (m : Mgt) :
    Mgt × IsoStream :=
  match stream with
  | .osiz data => (zisoRunningDestroy limits data.running m, .osiz { data with running := none })
  | .ziso cstd =>
    let (m, cstd) := if keep then (m, cstd) else zisoDiscardBpt limits wanted true cstd m
    if cstd.std.running.isNone then (m, .ziso cstd)
    else
      let m := zisoRunningDestroy limits cstd.std.running m
      let cstd := { cstd with std := { cstd.std with running := none } }
      if origNotOpen then (m, .ziso cstd)
      else (m, .ziso { cstd with openCounter := cstd.openCounter - 1 })

/-- ziso_stream_open_flag(), without size determination and opening of the input stream. -/
def zisoStreamOpenFlag (memory : Bool) (stream : IsoStream) : IsoStream :=
  let running : Runtime := ⟨0, none, 0, 0⟩
  match stream with
  | .osiz data =>
    if data.running.isSome || data.size < 0 || !memory then .osiz data
    else .osiz { data with running := some running }
  | .ziso cstd =>
    if cstd.std.running.isSome then .ziso cstd
    else
      let cstd := { cstd with openCounter := cstd.openCounter + 1 }
      if toOffT cstd.origSize < 0 || !memory then .ziso cstd
      else .ziso { cstd with std := { cstd.std with running := some running } }

def numBlocks (origSize : Nat) (blockSize : BlockSize) : Nat :=
  (origSize / blockSize.value + 1 + if origSize % blockSize.value = 0 then 0 else 1) % 2 ^ 64

/-- The begin of block pointer writing in ziso_stream_compress(). -/
def initializeBlockPointers (memory : Bool) (blockSize : BlockSize)
    (data : ZisofsComprStreamData) (m : Mgt) : Mgt × ZisofsComprStreamData :=
  match data.std.running with
  | none => (m, data)
  | some rng =>
    let fill (n : Int) : ZisofsFilterStreamData :=
      { data.std with running := some { rng with blockPointerFill := n } }
    if rng.blockPointerFill ≠ 0 && data.blockPointers.isSome then (m, data)
    else
      let numBlocks := numBlocks data.origSize blockSize
      if rng.blockPointerFill > 0 && toOffT numBlocks ≠ rng.blockPointerFill then (m, data)
      else if data.blockPointers.isSome then (m, { data with std := fill (toOffT numBlocks) })
      else
        let (fits, m) := zisoBlockPointerMgt limits numBlocks 1 m
        if fits = 0 then (m, { data with std := fill 0 })
        else if !memory then
          ((zisoBlockPointerMgt limits numBlocks 2 m).2, { data with std := fill 0 })
        else
          (m,
            { data with
              std := fill (toOffT numBlocks)
              blockPointers := some (toUint64 (toOffT numBlocks))
              blockPointerCounter := toUint64 (toOffT numBlocks) })

/-- The number of block pointers as ziso_stream_uncompress() computes it. -/
def announcedPointers (size : Int) (blockSize : BlockSize) : Int :=
  size.tdiv blockSize.value + 1 + if size.tmod blockSize.value = 0 then 0 else 1

/-- ziso_stream_uncompress() is going to read the header. -/
def atHead (data : ZisofsFilterStreamData) : Bool :=
  match data.running with
  | none => false
  | some rng => !decide (rng.errorRet < 0) && rng.state == 0

/-- The creation of the pointer array in ziso_stream_uncompress(), after a header has told `size`.
`outcome` tells how the call goes on, if the array can be created: a negative number is an error,
else the array gets filled. A negative array size is more than calloc() can provide. -/
def createFor (memory : Bool) (size blockPointerFill : Int) (outcome : Int) (rng : Runtime)
    (m : Mgt) : Mgt × ZisofsFilterStreamData :=
  if blockPointerFill > limits.maxFileBlocks then
    (m, ⟨size, some { rng with blockPointerFill := 0, errorRet := isoZisofsTooLarge }⟩)
  else
    let (fits, m) := zisoBlockPointerMgt limits (toUint64 blockPointerFill) 1 m
    if fits = 0 then (m, ⟨size, some { rng with blockPointerFill := blockPointerFill }⟩)
    else if !memory || blockPointerFill < 0 then
      ((zisoBlockPointerMgt limits (toUint64 blockPointerFill) 2 m).2,
        ⟨size, some { rng with blockPointerFill := 0, errorRet := isoOutOfMem }⟩)
    else
      (m,
        ⟨size, some
          { state := if outcome < 0 then 0 else 2
            blockPointers := some (toUint64 blockPointerFill)
            blockPointerFill := blockPointerFill
            errorRet := if outcome < 0 then outcome else 0 }⟩)

def createPointerArray (memory : Bool) (uncompressedSize : Nat) (blockSize : BlockSize)
    (outcome : Int) (data : ZisofsFilterStreamData) (m : Mgt) : Mgt × ZisofsFilterStreamData :=
  match data.running with
  | none => (m, data)
  | some rng =>
    if !atHead data then (m, data)
    else
      let size := toOffT uncompressedSize
      createFor limits memory size (announcedPointers size blockSize) outcome rng m

/-- ziso_stream_free(). -/
def zisoStreamFree (wanted : Bool) (stream : IsoStream) (m : Mgt) : Mgt :=
  let isRunning := match stream with
    | .ziso cstd => cstd.std.running.isSome
    | .osiz data => data.running.isSome
  let (m, stream) :=
    if isRunning then zisoStreamCloseFlag limits false false wanted stream m else (m, stream)
  match stream with
  | .osiz _ => m
  | .ziso nstd =>
    if nstd.blockPointers.isSome then
      (zisoBlockPointerMgt limits nstd.blockPointerCounter 2 m).2
    else m

def zisoCloneStream : IsoStream → IsoStream
  | .osiz old => .osiz { old with running := none }
  | .ziso old =>
    .ziso
      { old with
        std := { old.std with running := none }
        blockPointers := none
        blockPointerCounter := 0
        openCounter := 0
        blockPointersDropped := old.blockPointers.isSome || old.blockPointersDropped }

end Code

section Runs

/-- Streams keep their places when others are freed. -/
structure World where
  limits : Limits
  mgt : Mgt
  streams : List (Option IsoStream)

inductive Event where
  | setParams (limits : Limits)
  | getCompressor (origSize : Int)
  | getUncompressor (size : Int)
  | clone (k : Nat)
  | openFlag (k : Nat) (memory : Bool)
  | closeFlag (k : Nat) (origNotOpen keep wanted : Bool)
  | discardBpt (k : Nat)
  | forgetDropped (k : Nat)
  | startPointers (k : Nat) (memory : Bool) (blockSize : BlockSize)
  | createArray (k : Nat) (memory : Bool) (uncompressedSize : Nat) (blockSize : BlockSize)
      (outcome : Int)
  | sized (k : Nat) (size : Int)
  | free (k : Nat) (wanted : Bool)

/-- A change of the stream at place `k`, if there is one. -/
def World.change (w : World) (k : Nat) (f : IsoStream → Mgt → Mgt × Option IsoStream) : World :=
  match w.streams[k]? with
  | some (some s) =>
    { w with mgt := (f s w.mgt).1, streams := w.streams.set k (f s w.mgt).2 }
  | _ => w

def World.add (w : World) (s : IsoStream) : World := { w with streams := w.streams ++ [some s] }

def withSize (size : Int) : IsoStream → IsoStream
  | .ziso cstd => .ziso { cstd with std := { cstd.std with size := size } }
  | .osiz data => .osiz { data with size := size }

/-- The effect of an event on the stream at its place. -/
def Event.effect (limits : Limits) : Event → IsoStream → Mgt → Mgt × Option IsoStream
  | .openFlag _ memory, s, m => (m, some (zisoStreamOpenFlag memory s))
  | .closeFlag _ origNotOpen keep wanted, s, m =>
    let closed := zisoStreamCloseFlag limits origNotOpen keep wanted s m
    (closed.1, some closed.2)
  | .discardBpt _, .ziso cstd, m =>
    let discarded := zisoDiscardBpt limits true false cstd m
    (discarded.1, some (.ziso discarded.2))
  | .forgetDropped _, .ziso cstd, m =>
    (m, some (.ziso { cstd with blockPointersDropped := false }))
  | .startPointers _ memory blockSize, .ziso cstd, m =>
    let initialized := initializeBlockPointers limits memory blockSize cstd m
    (initialized.1, some (.ziso initialized.2))
  | .createArray _ memory uncompressedSize blockSize outcome, .osiz data, m =>
    let created := createPointerArray limits memory uncompressedSize blockSize outcome data m
    (created.1, some (.osiz created.2))
  | .sized _ size, s, m => (m, some (withSize size s))
  | .free _ wanted, s, m => (zisoStreamFree limits wanted s m, none)
  | _, s, m => (m, some s)

def World.step (w : World) (e : Event) : World :=
  match e with
  | .setParams limits => { w with limits := limits }
  | .getCompressor origSize =>
    w.add (.ziso ⟨⟨-1, none⟩, toUint64 origSize, none, 0, 0, false⟩)
  | .getUncompressor size => w.add (.osiz ⟨size, none⟩)
  | .clone k =>
    match w.streams[k]? with
    | some (some s) => w.add (zisoCloneStream s)
    | _ => w
  | .openFlag k _ | .closeFlag k _ _ _ | .discardBpt k | .forgetDropped k | .startPointers k _ _
  | .createArray k _ _ _ _ | .sized k _ | .free k _ => w.change k (e.effect w.limits)

/-- No stream exists and nothing is counted. -/
def World.initial (limits : Limits) : World := ⟨limits, ⟨0, 0⟩, []⟩

end Runs

section Holding

def Runtime.held (rng : Runtime) : Nat := rng.blockPointers.getD 0

def heldRunning : Option Runtime → Nat
  | none => 0
  | some rng => rng.held

/-- The number of block pointers in the memory of the stream. -/
def IsoStream.held : IsoStream → Nat
  | .ziso cstd => cstd.blockPointers.getD 0 + heldRunning cstd.std.running
  | .osiz data => heldRunning data.running

/-- The runtime of an uncompressor knows the size of its array, which it gets after the header. -/
structure RuntimeOk (rng : Runtime) : Prop where
  fill : ∀ n, rng.blockPointers = some n → rng.blockPointerFill = n ∧ n < 2 ^ 63
  head : rng.errorRet < 0 ∨ rng.state ≠ 0 ∨ rng.blockPointers = none

def IsoStream.Ok : IsoStream → Prop
  | .ziso cstd =>
    (∀ n, cstd.blockPointers = some n → cstd.blockPointerCounter = n) ∧
      (∀ rng, cstd.std.running = some rng → rng.blockPointers = none) ∧
      cstd.origSize < 2 ^ 64
  | .osiz data => ∀ rng, data.running = some rng → RuntimeOk rng

/-- The counter tells what all streams hold, and was never about to become negative. -/
structure Balanced (w : World) : Prop where
  count : w.mgt.globalCount = total IsoStream.held w.streams
  underrun : w.mgt.underrun = 0
  streams : ∀ s, some s ∈ w.streams → s.Ok
  small : w.mgt.globalCount < 2 ^ 63

/-- The header does not lead to a negative number of pointers which would get registered. -/
def Countable (limits : Limits) (m : Mgt) (uncompressedSize : Nat) (blockSize : BlockSize) :
    Prop :=
  let n := announcedPointers (toOffT uncompressedSize) blockSize
  0 ≤ n ∨ (m.globalCount : Int) < -n ∨ (limits.maxTotalBlocks : Int) < m.globalCount + n

def Event.Harmless (w : World) : Event → Prop
  | .createArray k _ uncompressedSize blockSize _ =>
    ∀ data, w.streams[k]? = some (some (.osiz data)) → atHead data = true →
      Countable w.limits w.mgt uncompressedSize blockSize
  | _ => True

end Holding

section Steps

variable {limits : Limits} {m : Mgt} {s : IsoStream}

theorem mgt_one (num : Nat) :
    zisoBlockPointerMgt limits num 1 m =
      if (m.globalCount + num) % 2 ^ 64 > limits.maxTotalBlocks then (0, m)
      else (1, { m with globalCount := (m.globalCount + num) % 2 ^ 64 }) := by
  rw [zisoBlockPointerMgt, if_neg (by decide), if_neg (by decide), if_pos rfl]

theorem mgt_two (num : Nat) :
    zisoBlockPointerMgt limits num 2 m =
      if m.globalCount < num then (1, ⟨0, m.underrun + 1⟩)
      else (1, { m with globalCount := m.globalCount - num }) := by
  rw [zisoBlockPointerMgt, if_pos rfl]

theorem release {num : Nat} (h : num ≤ m.globalCount) :
    (zisoBlockPointerMgt limits num 2 m).2 = { m with globalCount := m.globalCount - num } := by
  rw [mgt_two, if_neg (Nat.not_lt.mpr h)]

theorem register {num : Nat} (h : m.globalCount + num < 2 ^ 64) :
    zisoBlockPointerMgt limits num 1 m =
      if m.globalCount + num > limits.maxTotalBlocks then (0, m)
      else (1, { m with globalCount := m.globalCount + num }) := by
  rw [mgt_one, Nat.mod_eq_of_lt h]

/-- The counter moves with the stream. -/
structure Moves (s : IsoStream) (m m' : Mgt) (s' : Option IsoStream) : Prop where
  move : m'.globalCount + s.held = m.globalCount + heldAt IsoStream.held s'
  underrun : m'.underrun = m.underrun
  ok : ∀ t, s' = some t → t.Ok
  small : m'.globalCount < 2 ^ 63

/-- What is known of a stream before an event. -/
structure Before (s : IsoStream) (m : Mgt) : Prop where
  ok : s.Ok
  held : s.held ≤ m.globalCount
  small : m.globalCount < 2 ^ 63

theorem moves_same (before : Before s m) {t : IsoStream} (same : t.held = s.held)
    (ok : t.Ok) : Moves s m m (some t) where
  move := by rw [heldAt, same]
  underrun := rfl
  ok u hu := Option.some.inj hu ▸ ok
  small := before.small

theorem toUint64_of_lt {n : Nat} (h : n < 2 ^ 63) : toUint64 n = n := by
  have hmod : ((n : Int) % 2 ^ 64) = n := Int.emod_eq_of_lt (by omega) (by omega)
  rw [toUint64, hmod, Int.toNat_natCast]

/-- Destruction of a runtime releases its pointers. -/
theorem destroy_running {running : Option Runtime} (ok : ∀ rng, running = some rng → RuntimeOk rng)
    (h : heldRunning running ≤ m.globalCount) :
    zisoRunningDestroy limits running m =
      { m with globalCount := m.globalCount - heldRunning running } := by
  cases running with
  | none => rfl
  | some rng =>
    have hfill := (ok rng rfl).fill
    cases hpointers : rng.blockPointers with
    | none =>
      simp only [zisoRunningDestroy, hpointers, heldRunning, Runtime.held]
      rfl
    | some n =>
      obtain ⟨hn, hsmall⟩ := hfill n hpointers
      have hheld : heldRunning (some rng) = n := by
        rw [heldRunning, Runtime.held, hpointers]
        rfl
      rw [hheld] at h ⊢
      simp only [zisoRunningDestroy, hpointers, Option.isSome_some, if_true, hn,
        toUint64_of_lt hsmall]
      exact release h

theorem discard_moves {wanted bit1 : Bool} {cstd : ZisofsComprStreamData}
    (before : Before (.ziso cstd) m) :
    Moves (.ziso cstd) m (zisoDiscardBpt limits wanted bit1 cstd m).1
      (some (.ziso (zisoDiscardBpt limits wanted bit1 cstd m).2)) ∧
    (zisoDiscardBpt limits wanted bit1 cstd m).2.std = cstd.std := by
  rw [zisoDiscardBpt]
  split
  · exact ⟨moves_same before rfl before.ok, rfl⟩
  split
  · exact ⟨moves_same before rfl before.ok, rfl⟩
  split
  · exact ⟨moves_same before rfl before.ok, rfl⟩
  rename_i hpointers _ _
  obtain ⟨n, hn⟩ : ∃ n, cstd.blockPointers = some n := by
    cases h : cstd.blockPointers with
    | none => exact absurd (by rw [h]; rfl) hpointers
    | some n => exact ⟨n, rfl⟩
  have hcounter := before.ok.1 n hn
  have hheld : (IsoStream.ziso cstd).held = n + heldRunning cstd.std.running := by
    rw [IsoStream.held, hn]
    rfl
  have hle := before.held
  have hsmall := before.small
  refine ⟨⟨?_, ?_, ?_, ?_⟩, rfl⟩
  · rw [hcounter, release (by omega), hheld]
    simp only [heldAt, IsoStream.held, Option.getD_none]
    omega
  · rw [hcounter, release (by omega)]
  · intro t ht
    rw [← Option.some.inj ht]
    exact ⟨(fun _ h => by cases h), before.ok.2⟩
  · rw [hcounter, release (by omega)]
    exact Nat.lt_of_le_of_lt (Nat.sub_le _ _) hsmall

theorem Moves.trans {s t : IsoStream} {m m' m'' : Mgt} {u : Option IsoStream}
    (h : Moves s m m' (some t)) (h' : Moves t m' m'' u) : Moves s m m'' u where
  move := by
    have hfirst := h.move
    have hsecond := h'.move
    rw [heldAt] at hfirst
    omega
  underrun := h'.underrun.trans h.underrun
  ok := h'.ok
  small := h'.small

theorem Moves.before {s t : IsoStream} {m m' : Mgt} (h : Moves s m m' (some t))
    (before : Before s m) : Before t m' where
  ok := h.ok t rfl
  held := by
    have hmove := h.move
    have hheld := before.held
    rw [heldAt] at hmove
    omega
  small := h.small

theorem close_moves (limits : Limits) (origNotOpen keep wanted : Bool) (before : Before s m) :
    Moves s m (zisoStreamCloseFlag limits origNotOpen keep wanted s m).1
      (some (zisoStreamCloseFlag limits origNotOpen keep wanted s m).2) := by
  cases s with
  | osiz data =>
    have hle : heldRunning data.running ≤ m.globalCount := before.held
    have hsmall := before.small
    simp only [zisoStreamCloseFlag, destroy_running before.ok hle]
    refine ⟨?_, rfl, ?_, ?_⟩
    · show m.globalCount - heldRunning data.running + heldRunning data.running =
        m.globalCount + 0
      omega
    · intro t ht
      rw [← Option.some.inj ht]
      exact fun _ h => by cases h
    · exact Nat.lt_of_le_of_lt (Nat.sub_le _ _) hsmall
  | ziso cstd =>
    have hmoves : Moves (.ziso cstd) m
        (if keep then (m, cstd) else zisoDiscardBpt limits wanted true cstd m).1
        (some (.ziso
          (if keep then (m, cstd) else zisoDiscardBpt limits wanted true cstd m).2)) := by
      split
      · exact moves_same before rfl before.ok
      · exact (discard_moves before).1
    have hbefore := hmoves.before before
    rw [zisoStreamCloseFlag]
    generalize (if keep then (m, cstd) else zisoDiscardBpt limits wanted true cstd m) = d
      at hmoves hbefore
    obtain ⟨m', cstd'⟩ := d
    have hok : ∀ rng, cstd'.std.running = some rng → rng.blockPointers = none := hbefore.ok.2.1
    have hnothing : heldRunning cstd'.std.running = 0 := by
      cases h : cstd'.std.running with
      | none => rfl
      | some rng =>
        rw [heldRunning, Runtime.held, hok rng h]
        rfl
    have hdestroy : zisoRunningDestroy limits cstd'.std.running m' = m' := by
      cases h : cstd'.std.running with
      | none => rfl
      | some rng =>
        simp only [zisoRunningDestroy, hok rng h]
        rfl
    have hclosed : ∀ n, Moves (.ziso cstd') m' m'
        (some (.ziso
          { cstd' with std := { cstd'.std with running := none }, openCounter := n })) := by
      intro n
      refine moves_same hbefore ?_ ⟨hbefore.ok.1, (fun _ h => by cases h), hbefore.ok.2.2⟩
      rw [IsoStream.held, IsoStream.held, hnothing]
      rfl
    simp only [hdestroy]
    split
    · exact hmoves
    · split
      · exact hmoves.trans (hclosed cstd'.openCounter)
      · exact hmoves.trans (hclosed (cstd'.openCounter - 1))

theorem open_moves {memory : Bool} (before : Before s m) :
    Moves s m m (some (zisoStreamOpenFlag memory s)) := by
  cases s with
  | osiz data =>
    rw [zisoStreamOpenFlag]
    split
    · exact moves_same before rfl before.ok
    · rename_i hfree
      have hnone : data.running = none := by
        cases h : data.running with
        | none => rfl
        | some rng => simp [h] at hfree
      refine moves_same before ?_ fun rng h => ?_
      · rw [IsoStream.held, IsoStream.held, hnone]
        rfl
      · rw [← Option.some.inj h]
        exact ⟨(fun _ h => by cases h), Or.inr (Or.inr rfl)⟩
  | ziso cstd =>
    rw [zisoStreamOpenFlag]
    split
    · exact moves_same before rfl before.ok
    · rename_i hfree
      have hnone : cstd.std.running = none := by
        cases h : cstd.std.running with
        | none => rfl
        | some rng => simp [h] at hfree
      simp only
      split
      · exact moves_same before rfl before.ok
      · refine moves_same before ?_ ⟨before.ok.1, fun rng h => ?_, before.ok.2.2⟩
        · rw [IsoStream.held, IsoStream.held, hnone]
          rfl
        · rw [← Option.some.inj h]

theorem numBlocks_lt {origSize : Nat} (blockSize : BlockSize) (h : origSize < 2 ^ 64) :
    numBlocks origSize blockSize < 2 ^ 63 := by
  have hvalue : 2 ^ 15 ≤ blockSize.value := Nat.pow_le_pow_right (by decide) blockSize.log2_ge
  have hdiv : origSize / blockSize.value ≤ 2 ^ 49 := by
    calc origSize / blockSize.value ≤ origSize / 2 ^ 15 :=
          Nat.div_le_div_left hvalue (Nat.two_pow_pos 15)
      _ ≤ 2 ^ 49 := by omega
  rw [numBlocks]
  generalize origSize / blockSize.value = quotient at hdiv ⊢
  split <;> omega

theorem toOffT_of_lt {n : Nat} (h : n < 2 ^ 63) : toOffT n = n := by
  have hmod : (n : Int).bmod (2 ^ 64) = n := by
    rw [Int.bmod_def]
    omega
  exact hmod

theorem initialize_moves {memory : Bool} {blockSize : BlockSize} {cstd : ZisofsComprStreamData}
    (before : Before (.ziso cstd) m) :
    Moves (.ziso cstd) m (initializeBlockPointers limits memory blockSize cstd m).1
      (some (.ziso (initializeBlockPointers limits memory blockSize cstd m).2)) := by
  rw [initializeBlockPointers]
  split
  · exact moves_same before rfl before.ok
  rename_i rng hrng
  have hnone := before.ok.2.1 rng hrng
  -- whatever becomes of the fill, there is no array in the runtime of a compressor
  have hfill : ∀ n, Moves (.ziso cstd) m m (some (.ziso { cstd with std :=
      { cstd.std with running := some { rng with blockPointerFill := n } } })) := by
    intro n
    refine moves_same before ?_ ⟨before.ok.1, fun r h => ?_, before.ok.2.2⟩
    · rw [IsoStream.held, IsoStream.held, hrng]
      rfl
    · rw [← Option.some.inj h]
      exact hnone
  simp only
  split
  · exact moves_same before rfl before.ok
  split
  · exact moves_same before rfl before.ok
  split
  · exact hfill _
  rename_i hno
  have hempty : cstd.blockPointers = none := by
    cases h : cstd.blockPointers with
    | none => rfl
    | some n => exact absurd (by rw [h]; rfl) hno
  have hnum := numBlocks_lt blockSize before.ok.2.2
  have hcast := toOffT_of_lt hnum
  have hsmall := before.small
  have htotal := limits.total_lt
  have hheld : (IsoStream.ziso cstd).held = 0 := by
    rw [IsoStream.held, hempty, hrng, heldRunning, Runtime.held, hnone]
    rfl
  generalize numBlocks cstd.origSize blockSize = num at hnum hcast ⊢
  rw [register (by omega), hcast, toUint64_of_lt hnum]
  by_cases hfull : m.globalCount + num > limits.maxTotalBlocks
  · rw [if_pos hfull]
    exact hfill 0
  rw [if_neg hfull]
  cases memory with
  | false =>
    have hrelease : (zisoBlockPointerMgt limits num 2
        { m with globalCount := m.globalCount + num }).2 = m := by
      rw [release (Nat.le_add_left _ _), Nat.add_sub_cancel]
    show Moves (.ziso cstd) m (zisoBlockPointerMgt limits num 2
      { m with globalCount := m.globalCount + num }).2 _
    rw [hrelease]
    exact hfill 0
  | true =>
    refine ⟨?_, rfl, ?_, ?_⟩
    · rw [hheld]
      show m.globalCount + num + 0 = m.globalCount + (num + heldRunning (some _))
      rw [heldRunning, Runtime.held, hnone]
      rfl
    · intro t ht
      rw [← Option.some.inj ht]
      refine ⟨fun n hn => Option.some.inj hn, fun r h => ?_, before.ok.2.2⟩
      rw [← Option.some.inj h]
      exact hnone
    · show m.globalCount + num < 2 ^ 63
      omega

theorem toOffT_bounds (n : Nat) : -2 ^ 63 ≤ toOffT n ∧ toOffT n < 2 ^ 63 := by
  have hmod : -2 ^ 63 ≤ (n : Int).bmod (2 ^ 64) ∧ (n : Int).bmod (2 ^ 64) < 2 ^ 63 := by
    rw [Int.bmod_def]
    omega
  exact hmod

theorem announcedPointers_gt (n : Nat) (blockSize : BlockSize) :
    -2 ^ 63 ≤ announcedPointers (toOffT n) blockSize := by
  obtain ⟨hlow, hhigh⟩ := toOffT_bounds n
  have hquotient := Int.natAbs_tdiv_le_natAbs (toOffT n) blockSize.value
  rw [announcedPointers]
  generalize toOffT n = size at hlow hhigh hquotient ⊢
  split <;> omega

theorem atHead_running {data : ZisofsFilterStreamData} (h : atHead data = true)
    (ok : (IsoStream.osiz data).Ok) :
    ∃ rng, data.running = some rng ∧ rng.blockPointers = none := by
  cases hrunning : data.running with
  | none =>
    rw [atHead, hrunning] at h
    exact absurd h Bool.false_ne_true
  | some rng =>
    rw [atHead, hrunning] at h
    simp only [Bool.and_eq_true, Bool.not_eq_true', decide_eq_false_iff_not, beq_iff_eq] at h
    rcases (ok rng hrunning).head with herror | hstate | hnone
    · exact absurd herror h.1
    · exact absurd h.2 hstate
    · exact ⟨rng, rfl, hnone⟩

/-- What registration of a negative number of pointers leads to. -/
theorem register_negative {n : Int} (hlow : -2 ^ 63 ≤ n) (hneg : n < 0)
    (small : m.globalCount < 2 ^ 63) :
    zisoBlockPointerMgt limits (toUint64 n) 1 m =
      if (m.globalCount : Int) < -n ∨ (limits.maxTotalBlocks : Int) < m.globalCount + n then (0, m)
      else (1, { m with globalCount := ((m.globalCount : Int) + n).toNat }) := by
  have hcast : (toUint64 n : Int) = 2 ^ 64 + n := by
    rw [toUint64]
    omega
  have htotal := limits.total_lt
  by_cases hborrow : (m.globalCount : Int) < -n
  · rw [if_pos (Or.inl hborrow)]
    have hmod : (m.globalCount + toUint64 n) % 2 ^ 64 = m.globalCount + toUint64 n :=
      Nat.mod_eq_of_lt (by omega)
    rw [mgt_one, hmod]
    exact if_pos (by omega)
  · have hmod : (m.globalCount + toUint64 n) % 2 ^ 64 = ((m.globalCount : Int) + n).toNat := by
      omega
    rw [mgt_one, hmod]
    by_cases hfull : (limits.maxTotalBlocks : Int) < m.globalCount + n
    · rw [if_pos (Or.inr hfull)]
      exact if_pos (by omega)
    · rw [if_neg (not_or_intro hborrow hfull)]
      exact if_neg (by omega)

theorem createPointerArray_atHead {memory : Bool} {uncompressedSize : Nat}
    {blockSize : BlockSize} {outcome : Int} {data : ZisofsFilterStreamData} {rng : Runtime}
    (h : atHead data = true) (hrunning : data.running = some rng) :
    createPointerArray limits memory uncompressedSize blockSize outcome data m =
      createFor limits memory (toOffT uncompressedSize)
        (announcedPointers (toOffT uncompressedSize) blockSize) outcome rng m := by
  rw [createPointerArray, hrunning]
  exact if_neg (by rw [h]; decide)

theorem createPointerArray_later {memory : Bool} {uncompressedSize : Nat}
    {blockSize : BlockSize} {outcome : Int} {data : ZisofsFilterStreamData}
    (h : atHead data = false) :
    createPointerArray limits memory uncompressedSize blockSize outcome data m = (m, data) := by
  rw [createPointerArray]
  cases data.running with
  | none => rfl
  | some rng => exact if_pos (by rw [h]; decide)

theorem createFor_moves {memory : Bool} {n outcome size : Int} {rng : Runtime}
    {data : ZisofsFilterStreamData} (before : Before (.osiz data) m)
    (hrunning : data.running = some rng) (hnone : rng.blockPointers = none) (hlow : -2 ^ 63 ≤ n)
    (countable : 0 ≤ n ∨ (m.globalCount : Int) < -n ∨
      (limits.maxTotalBlocks : Int) < m.globalCount + n) :
    Moves (.osiz data) m (createFor limits memory size n outcome rng m).1
      (some (.osiz (createFor limits memory size n outcome rng m).2)) := by
  have hheld : (IsoStream.osiz data).held = 0 := by
    rw [IsoStream.held, hrunning, heldRunning, Runtime.held, hnone]
    rfl
  have hempty : ∀ (size : Int) (r : Runtime), r.blockPointers = none →
      Moves (.osiz data) m m (some (.osiz ⟨size, some r⟩)) := by
    intro size r hr
    refine moves_same before ?_ fun r' h => ?_
    · rw [hheld, IsoStream.held, heldRunning, Runtime.held, hr]
      rfl
    · rw [← Option.some.inj h]
      exact ⟨fun n hn => absurd (hr.symm.trans hn) (Option.some_ne_none n).symm,
        Or.inr (Or.inr hr)⟩
  have hsmall := before.small
  have htotal := limits.total_lt
  have hfile := limits.file_lt
  rw [createFor]
  by_cases hlarge : n > limits.maxFileBlocks
  · rw [if_pos hlarge]
    exact hempty _ _ hnone
  rw [if_neg hlarge]
  by_cases hneg : n < 0
  · rw [register_negative hlow hneg hsmall, if_pos (countable.resolve_left (by omega))]
    exact hempty _ _ hnone
  · obtain ⟨k, rfl⟩ := Int.eq_ofNat_of_zero_le (Int.not_lt.mp hneg)
    rw [toUint64_of_lt (by omega), register (by omega)]
    by_cases hfull : m.globalCount + k > limits.maxTotalBlocks
    · rw [if_pos hfull]
      exact hempty _ _ hnone
    rw [if_neg hfull]
    simp only [hneg, decide_false, Bool.or_false]
    cases memory with
    | false =>
      have hrelease : (zisoBlockPointerMgt limits k 2
          { m with globalCount := m.globalCount + k }).2 = m := by
        rw [release (Nat.le_add_left _ _), Nat.add_sub_cancel]
      show Moves _ m (zisoBlockPointerMgt limits k 2
        { m with globalCount := m.globalCount + k }).2 _
      rw [hrelease]
      exact hempty _ _ hnone
    | true =>
      refine ⟨?_, rfl, ?_, ?_⟩
      · rw [hheld]
        rfl
      · intro t ht
        rw [← Option.some.inj ht]
        intro r hr
        rw [← Option.some.inj hr]
        refine ⟨fun j hj => ?_, ?_⟩
        · rw [← Option.some.inj hj]
          exact ⟨rfl, by omega⟩
        · by_cases herror : outcome < 0
          · exact Or.inl (by simpa only [if_pos herror] using herror)
          · exact Or.inr (Or.inl (by simp only [if_neg herror]; decide))
      · show m.globalCount + k < 2 ^ 63
        omega

/-- How the creation of the array of an uncompressor ends. -/
theorem create_moves {memory : Bool} {uncompressedSize : Nat} {blockSize : BlockSize}
    {outcome : Int} {data : ZisofsFilterStreamData} (before : Before (.osiz data) m)
    (countable : atHead data = true → Countable limits m uncompressedSize blockSize) :
    Moves (.osiz data) m
      (createPointerArray limits memory uncompressedSize blockSize outcome data m).1
      (some (.osiz
        (createPointerArray limits memory uncompressedSize blockSize outcome data m).2)) := by
  cases hhead : atHead data with
  | false =>
    rw [createPointerArray_later hhead]
    exact moves_same before rfl before.ok
  | true =>
    obtain ⟨rng, hrunning, hnone⟩ := atHead_running hhead before.ok
    rw [createPointerArray_atHead hhead hrunning]
    exact createFor_moves before hrunning hnone (announcedPointers_gt _ _) (countable hhead)

/-- A header which is not countable makes the counter run under. -/
theorem createFor_underrun {memory : Bool} {n outcome size : Int} {rng : Runtime}
    (small : m.globalCount < 2 ^ 63) (hlow : -2 ^ 63 ≤ n)
    (uncountable : ¬(0 ≤ n ∨ (m.globalCount : Int) < -n ∨
      (limits.maxTotalBlocks : Int) < m.globalCount + n)) :
    (createFor limits memory size n outcome rng m).1.underrun = m.underrun + 1 := by
  rw [not_or] at uncountable
  obtain ⟨hneg, hharm⟩ := uncountable
  have hneg' : n < 0 := Int.not_le.mp hneg
  have hfile : ¬n > limits.maxFileBlocks := by omega
  have hless : ((m.globalCount : Int) + n).toNat < toUint64 n := by
    rw [toUint64]
    omega
  rw [createFor, if_neg hfile, register_negative hlow hneg' small, if_neg hharm]
  simp only [hneg', decide_true, Bool.or_true, if_true, mgt_two, if_pos hless]
  rfl

/-- What is left to a stream which is not running gets released. -/
theorem Moves.gone {s : IsoStream} {m m' m'' : Mgt} {t : IsoStream} (h : Moves s m m' (some t))
    (rest : m''.globalCount + t.held = m'.globalCount) (underrun : m''.underrun = m'.underrun) :
    Moves s m m'' none where
  move := by
    have hmove := h.move
    simp only [heldAt] at hmove ⊢
    omega
  underrun := underrun.trans h.underrun
  ok _ ht := by cases ht
  small := by
    have hsmall := h.small
    omega

theorem release_rest (limits : Limits) {cstd : ZisofsComprStreamData}
    (before : Before (.ziso cstd) m) :
    let m' := if cstd.blockPointers.isSome then
      (zisoBlockPointerMgt limits cstd.blockPointerCounter 2 m).2 else m
    m'.globalCount + (IsoStream.ziso cstd).held = m.globalCount ∧ m'.underrun = m.underrun := by
  have hle := before.held
  have hrunning : heldRunning cstd.std.running = 0 := by
    cases h : cstd.std.running with
    | none => rfl
    | some rng =>
      rw [heldRunning, Runtime.held, before.ok.2.1 rng h]
      rfl
  cases hpointers : cstd.blockPointers with
  | none =>
    have hheld : (IsoStream.ziso cstd).held = 0 := by
      rw [IsoStream.held, hpointers, hrunning]
      rfl
    rw [hheld]
    exact ⟨rfl, rfl⟩
  | some n =>
    have hheld : (IsoStream.ziso cstd).held = n := by
      rw [IsoStream.held, hpointers, hrunning]
      rfl
    rw [hheld] at hle ⊢
    simp only [Option.isSome_some, if_true, before.ok.1 n hpointers, release hle]
    exact ⟨Nat.sub_add_cancel hle, trivial⟩

theorem closed_ziso (limits : Limits) (origNotOpen keep wanted : Bool)
    (cstd : ZisofsComprStreamData) (m : Mgt) :
    ∃ cstd', (zisoStreamCloseFlag limits origNotOpen keep wanted (.ziso cstd) m).2 =
      .ziso cstd' := by
  rw [zisoStreamCloseFlag]
  generalize (if keep then (m, cstd) else zisoDiscardBpt limits wanted true cstd m) = d
  simp only
  split
  · exact ⟨_, rfl⟩
  · split
    · exact ⟨_, rfl⟩
    · exact ⟨_, rfl⟩

theorem free_moves {wanted : Bool} (before : Before s m) :
    Moves s m (zisoStreamFree limits wanted s m) none := by
  cases s with
  | osiz data =>
    have hclose := close_moves limits false false wanted before
    cases hrunning : data.running with
    | none =>
      have hheld : (IsoStream.osiz data).held = 0 := by
        rw [IsoStream.held, hrunning]
        rfl
      have hfree : zisoStreamFree limits wanted (.osiz data) m = m := by
        simp only [zisoStreamFree, hrunning]
        rfl
      rw [hfree]
      refine (moves_same before rfl before.ok).gone ?_ rfl
      rw [hheld]
      rfl
    | some rng =>
      have hfree : zisoStreamFree limits wanted (.osiz data) m =
          (zisoStreamCloseFlag limits false false wanted (.osiz data) m).1 := by
        simp only [zisoStreamFree, hrunning]
        rfl
      rw [hfree]
      exact hclose.gone rfl rfl
  | ziso cstd =>
    obtain ⟨m', cstd', hclosed, hfree⟩ : ∃ m' cstd', Moves (.ziso cstd) m m' (some (.ziso cstd')) ∧
        zisoStreamFree limits wanted (.ziso cstd) m =
          if cstd'.blockPointers.isSome then
            (zisoBlockPointerMgt limits cstd'.blockPointerCounter 2 m').2 else m' := by
      cases hrunning : cstd.std.running with
      | none =>
        refine ⟨m, cstd, moves_same before rfl before.ok, ?_⟩
        simp only [zisoStreamFree, hrunning]
        rfl
      | some rng =>
        have hclose := close_moves limits false false wanted before
        obtain ⟨cstd', hcstd⟩ := closed_ziso limits false false wanted cstd m
        rw [hcstd] at hclose
        refine ⟨_, cstd', hclose, ?_⟩
        simp only [zisoStreamFree, hrunning, Option.isSome_some, if_true, hcstd]
    rw [hfree]
    obtain ⟨hrest, hunderrun⟩ := release_rest limits (hclosed.before before)
    exact hclosed.gone hrest hunderrun

end Steps

section Balance

variable {w : World}

theorem Balanced.before (balanced : Balanced w) {k : Nat} {s : IsoStream}
    (hk : w.streams[k]? = some (some s)) : Before s w.mgt where
  ok := balanced.streams s (List.mem_of_getElem? hk)
  held := by
    rw [balanced.count]
    exact heldAt_le_total IsoStream.held hk
  small := balanced.small

theorem Balanced.change (balanced : Balanced w) {k : Nat}
    {f : IsoStream → Mgt → Mgt × Option IsoStream}
    (moves : ∀ s, w.streams[k]? = some (some s) → Moves s w.mgt (f s w.mgt).1 (f s w.mgt).2) :
    Balanced (w.change k f) := by
  rw [World.change]
  split
  · rename_i s hk
    have hmoves := moves s hk
    refine ⟨balance_set balanced.count hk hmoves.move, hmoves.underrun.trans balanced.underrun,
      fun t ht => ?_, hmoves.small⟩
    rcases List.mem_or_eq_of_mem_set ht with hold | hnew
    · exact balanced.streams t hold
    · exact hmoves.ok t hnew.symm
  · exact balanced

theorem change_mgt {k : Nat} {s : IsoStream} {f : IsoStream → Mgt → Mgt × Option IsoStream}
    (hk : w.streams[k]? = some (some s)) : (w.change k f).mgt = (f s w.mgt).1 := by
  rw [World.change, hk]

theorem Balanced.add (balanced : Balanced w) {s : IsoStream} (ok : s.Ok) (empty : s.held = 0) :
    Balanced (w.add s) where
  count := by
    show w.mgt.globalCount = total IsoStream.held (w.streams ++ [some s])
    rw [total_append, heldAt, empty]
    exact balanced.count
  underrun := balanced.underrun
  streams t ht := by
    rcases List.mem_append.mp ht with hold | hnew
    · exact balanced.streams t hold
    · rw [Option.some.inj (List.mem_singleton.mp hnew)]
      exact ok
  small := balanced.small

theorem clone_ok {s : IsoStream} (ok : s.Ok) :
    (zisoCloneStream s).Ok ∧ (zisoCloneStream s).held = 0 := by
  cases s with
  | osiz data => exact ⟨(fun _ h => by cases h), rfl⟩
  | ziso cstd => exact ⟨⟨(fun _ h => by cases h), (fun _ h => by cases h), ok.2.2⟩, rfl⟩

theorem withSize_moves {s : IsoStream} {m : Mgt} (before : Before s m) (size : Int) :
    Moves s m m (some (withSize size s)) := by
  cases s with
  | osiz data => exact moves_same before rfl before.ok
  | ziso cstd => exact moves_same before rfl before.ok

/-- Each event without a fatal header keeps the balance. -/
theorem Balanced.step (balanced : Balanced w) {e : Event} (harmless : e.Harmless w) :
    Balanced (w.step e) := by
  cases e with
  | setParams limits =>
    exact ⟨balanced.count, balanced.underrun, balanced.streams, balanced.small⟩
  | getCompressor origSize =>
    refine balanced.add ⟨(fun _ h => by cases h), (fun _ h => by cases h), ?_⟩ rfl
    show toUint64 origSize < 2 ^ 64
    rw [toUint64]
    omega
  | getUncompressor size => exact balanced.add (fun _ h => by cases h) rfl
  | clone k =>
    rw [World.step]
    split
    · rename_i s hk
      obtain ⟨hok, hempty⟩ := clone_ok (balanced.before hk).ok
      exact balanced.add hok hempty
    · exact balanced
  | openFlag k memory =>
    exact balanced.change fun s hk => open_moves (balanced.before hk)
  | closeFlag k origNotOpen keep wanted =>
    exact balanced.change fun s hk => close_moves _ _ _ _ (balanced.before hk)
  | discardBpt k =>
    refine balanced.change fun s hk => ?_
    cases s with
    | osiz data => exact moves_same (balanced.before hk) rfl (balanced.before hk).ok
    | ziso cstd => exact (discard_moves (balanced.before hk)).1
  | forgetDropped k =>
    refine balanced.change fun s hk => ?_
    cases s with
    | osiz data => exact moves_same (balanced.before hk) rfl (balanced.before hk).ok
    | ziso cstd => exact moves_same (balanced.before hk) rfl (balanced.before hk).ok
  | startPointers k memory blockSize =>
    refine balanced.change fun s hk => ?_
    cases s with
    | osiz data => exact moves_same (balanced.before hk) rfl (balanced.before hk).ok
    | ziso cstd => exact initialize_moves (balanced.before hk)
  | createArray k memory uncompressedSize blockSize outcome =>
    refine balanced.change fun s hk => ?_
    cases s with
    | osiz data => exact create_moves (balanced.before hk) (harmless data hk)
    | ziso cstd => exact moves_same (balanced.before hk) rfl (balanced.before hk).ok
  | sized k size => exact balanced.change fun s hk => withSize_moves (balanced.before hk) size
  | free k wanted => exact balanced.change fun s hk => free_moves (balanced.before hk)

/-- A fatal header lets the counter run under. -/
theorem Balanced.underrun_of_harm (balanced : Balanced w) {e : Event} (harm : ¬e.Harmless w) :
    (w.step e).mgt.underrun ≠ 0 := by
  cases e with
  | createArray k memory uncompressedSize blockSize outcome =>
    simp only [Event.Harmless, not_forall] at harm
    obtain ⟨data, hk, hhead, huncountable⟩ := harm
    obtain ⟨rng, hrunning, -⟩ := atHead_running hhead (balanced.before hk).ok
    rw [World.step, change_mgt hk, Event.effect]
    have hunderrun : (createPointerArray w.limits memory uncompressedSize blockSize outcome data
        w.mgt).1.underrun = w.mgt.underrun + 1 := by
      rw [createPointerArray_atHead hhead hrunning]
      exact createFor_underrun balanced.small (announcedPointers_gt _ _) huncountable
    exact hunderrun.trans_ne (Nat.succ_ne_zero _)
  | _ => exact absurd trivial harm

end Balance

section Claims

/-- The counter equals what all streams hold, it never had to be prevented from running below
zero, and it is zero when all streams are freed. -/
structure Accounted (w : World) : Prop where
  count : w.mgt.globalCount = total IsoStream.held w.streams
  underrun : w.mgt.underrun = 0
  gone : (∀ s ∈ w.streams, s = none) → w.mgt.globalCount = 0

theorem Balanced.accounted {w : World} (balanced : Balanced w) : Accounted w :=
  ⟨balanced.count, balanced.underrun, fun gone => balanced.count.trans (total_gone _ gone)⟩

def AlwaysAccounted (w : World) : List Event → Prop
  | [] => Accounted w
  | e :: events => Accounted w ∧ AlwaysAccounted (w.step e) events

def HarmlessRun (w : World) : List Event → Prop
  | [] => True
  | e :: events => e.Harmless w ∧ HarmlessRun (w.step e) events

theorem AlwaysAccounted.head {w : World} {events : List Event}
    (always : AlwaysAccounted w events) : Accounted w := by
  cases events with
  | nil => exact always
  | cons e events => exact always.1

theorem AlwaysAccounted.last {w : World} {events : List Event}
    (always : AlwaysAccounted w events) : Accounted (events.foldl World.step w) := by
  induction events generalizing w with
  | nil => exact always
  | cons e events ih => exact ih always.2

theorem Balanced.always_iff {w : World} (balanced : Balanced w) (events : List Event) :
    AlwaysAccounted w events ↔ HarmlessRun w events := by
  induction events generalizing w with
  | nil => exact ⟨fun _ => trivial, fun _ => balanced.accounted⟩
  | cons e events ih =>
    refine ⟨fun always => ?_, fun harmless => ?_⟩
    · have hharmless : e.Harmless w := by
        by_contra harm
        exact balanced.underrun_of_harm harm always.2.head.underrun
      exact ⟨hharmless, (ih (balanced.step hharmless)).mp always.2⟩
    · exact ⟨balanced.accounted, (ih (balanced.step harmless.1)).mpr harmless.2⟩

theorem balanced_initial (limits : Limits) : Balanced (World.initial limits) where
  count := rfl
  underrun := rfl
  streams _ h := by cases h
  small := Nat.two_pow_pos 63

/-- In a run the accounting is right at every moment exactly if no uncompressor registers a
negative number of block pointers. -/
theorem accounted_iff_harmless (limits : Limits) (events : List Event) :
    AlwaysAccounted (World.initial limits) events ↔
      HarmlessRun (World.initial limits) events :=
  (balanced_initial limits).always_iff events

def defaultLimits : Limits := ⟨0x2000000, 0x2000000, by decide, by decide⟩

def smallBlocks : BlockSize := ⟨15, by decide, by decide⟩

/-- One uncompressor reads a sound header, the other one a header with a size of -65536. -/
def negativeHeader : List Event :=
  [.getUncompressor 100, .getUncompressor 100, .openFlag 0 true, .openFlag 1 true,
    .createArray 0 true 100 smallBlocks 0, .createArray 1 true (2 ^ 64 - 65536) smallBlocks 0]

theorem negative_header_unaccounted :
    ¬∀ (limits : Limits) (events : List Event),
      AlwaysAccounted (World.initial limits) events := by
  intro always
  have hcount := (always defaultLimits negativeHeader).last.count
  exact absurd hcount (by decide +kernel)

end Claims

end ZisofsAccount
