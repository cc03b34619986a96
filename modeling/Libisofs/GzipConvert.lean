import Libisofs.Lib.Halting
import Libisofs.FileData

/-!
# Reading from a gzip filter

gzip_stream_convert() of filters/gzip.c as a program which runs step by step, because its
two nested loops have no counters. zlib is a parameter.
-/

namespace GzipConvert

open Halting
open FileData (Bytes)

inductive ZCode where
  | ok
  | streamEnd
  | needDict
  | errno
  | streamError
  | dataError
  | memError
  | bufError
  | versionError
  deriving DecidableEq

/-- The answer to a call of inflate() or deflate(). -/
structure ZAnswer (ζ : Type) where
  code : ZCode
  consumed : Nat
  output : Bytes
  state : ζ

def ZAnswer.NoProgress {ζ : Type} (answer : ZAnswer ζ) : Prop :=
  answer.consumed = 0 ∧ answer.output = []

/-- zlib processes pending input, given the space in the output buffer and whether this is the
end of input. -/
structure Zlib (ζ : Type) where
  convert : ζ → Bytes → Nat → Bool → ZAnswer ζ
  consumed_le : ∀ z input availOut finish, (convert z input availOut finish).consumed ≤ input.length
  output_le : ∀ z input availOut finish,
    (convert z input availOut finish).output.length ≤ availOut

variable {ζ : Type}

/-- What a failing iso_stream_read() returns. -/
abbrev ErrorCode := { code : Int // code < 0 }

def isoZlibComprErr : Int := 0xE830FEA4 - 2 ^ 32
def isoZlibEarlyEof : Int := 0xE830FEA1 - 2 ^ 32

theorem isoZlibComprErr_neg : isoZlibComprErr < 0 := by decide

theorem isoZlibEarlyEof_neg : isoZlibEarlyEof < 0 := by decide

/-- The buffers of a filter between calls. `inBuffer` is what zlib has not consumed yet,
`outBuffer` is what it has put out, `rpt` is how much of that has been delivered. `reads` are
the next answers of iso_stream_read() for the input stream, with end of file behind them.
`putOut` is all output of zlib so far, and `ended` tells whether it has answered
Z_STREAM_END. -/
structure GzipFilterRuntime (ζ : Type) where
  strm : ζ
  inBuffer : Bytes
  outBuffer : Bytes
  rpt : Nat
  doFlush : Bool
  errorRet : Int
  reads : List (Except ErrorCode Bytes)
  putOut : Bytes
  ended : Bool

/-- What zlib has put out but the filter has not delivered. -/
def GzipFilterRuntime.pending (rng : GzipFilterRuntime ζ) : Bytes := rng.outBuffer.drop rng.rpt

def gzipRunningNew (strm : ζ) (reads : List (Except ErrorCode Bytes)) : GzipFilterRuntime ζ :=
  ⟨strm, [], [], 0, false, 1, reads, [], false⟩

/-- Where a call of gzip_stream_convert() is: at the begin of the outer loop, where new input
is fetched, and at the begin of the inner loop. -/
inductive Control where
  | transfer
  | fetch
  | submit
  | done (ret : Int)
  | memoryFault
  deriving DecidableEq

/-- `buf` is what has been stored by this call so far. -/
structure Call (ζ : Type) where
  rng : GzipFilterRuntime ζ
  buf : Bytes
  control : Control

def Call.Final (c : Call ζ) : Prop := (∃ ret, c.control = .done ret) ∨ c.control = .memoryFault

def startCall (rng : GzipFilterRuntime ζ) : Call ζ :=
  if rng.errorRet < 0 then ⟨rng, [], .done rng.errorRet⟩
  else if rng.errorRet = 0 ∧ rng.outBuffer.length - rng.rpt = 0 then ⟨rng, [], .done 0⟩
  else ⟨rng, [], .transfer⟩

/-- The number of bytes to copy, a value of type int. -/
def todo (desired fill cBytes : Nat) : Int :=
  let room := (Int32.ofNat (desired - fill)).toInt
  if room > cBytes then cBytes else room

/-- Transfer eventual converted bytes from strm to buf -/
def transferBytes (desired : Nat) (c : Call ζ) : Call ζ :=
  let cBytes := c.rng.outBuffer.length - c.rng.rpt
  let n := todo desired c.buf.length cBytes
  if 0 < cBytes then
    if n < 0 then { c with control := .memoryFault }
    else
      { c with
        rng := { c.rng with rpt := c.rng.rpt + n.toNat }
        buf := c.buf ++ (c.rng.outBuffer.drop c.rng.rpt).take n.toNat }
  else c

def stepTransfer (desired : Nat) (c : Call ζ) : Call ζ :=
  let c := transferBytes desired c
  if c.control = .memoryFault then c
  else if desired ≤ c.buf.length ∨ c.rng.errorRet = 0 then
    { c with control := .done c.buf.length }
  else
    -- all buffered out data are consumed now
    { c with
      rng := { c.rng with rpt := 0, outBuffer := [] }
      control := .fetch }

/-- The input stream is at its end. -/
def endOfInput (uncompress : Bool) (c : Call ζ) : Call ζ :=
  if uncompress then
    { c with
      rng := { c.rng with errorRet := isoZlibEarlyEof }
      control := .done isoZlibEarlyEof }
  else
    { c with
      rng := { c.rng with doFlush := true }
      control := .submit }

/-- All pending input is consumed. Get new input. -/
def stepFetch (uncompress : Bool) (c : Call ζ) : Call ζ :=
  if c.rng.inBuffer ≠ [] then { c with control := .submit }
  else
    match c.rng.reads with
    | .error code :: rest =>
      { c with
        rng := { c.rng with errorRet := code.val, reads := rest }
        control := .done code.val }
    | .ok (a :: bytes) :: rest =>
      { c with
        rng := { c.rng with inBuffer := a :: bytes, reads := rest }
        control := .submit }
    | .ok [] :: rest => endOfInput uncompress { c with rng := { c.rng with reads := rest } }
    | [] => endOfInput uncompress c

/-- The next answer of zlib. -/
def answer (zlib : Zlib ζ) (rng : GzipFilterRuntime ζ) : ZAnswer ζ :=
  zlib.convert rng.strm rng.inBuffer (2048 - rng.outBuffer.length) rng.doFlush

/-- zlib has been called. -/
def GzipFilterRuntime.submitted (rng : GzipFilterRuntime ζ) (a : ZAnswer ζ) :
    GzipFilterRuntime ζ :=
  { rng with
    strm := a.state
    inBuffer := rng.inBuffer.drop a.consumed
    outBuffer := rng.outBuffer ++ a.output
    putOut := rng.putOut ++ a.output
    ended := rng.ended || a.code == .streamEnd }

def stepSubmit (zlib : Zlib ζ) (c : Call ζ) : Call ζ :=
  let a := answer zlib c.rng
  let rng := c.rng.submitted a
  if a.code = .streamError ∨ a.code = .bufError then
    { c with
      rng := { rng with errorRet := isoZlibComprErr }
      control := .done isoZlibComprErr }
  else if rng.outBuffer ≠ [] ∨ rng.inBuffer = [] then
    -- output is available, or all pending input is consumed
    { c with
      rng := if a.code = .streamEnd then { rng with errorRet := 0 } else rng
      control := .transfer }
  else { c with rng := rng }

def step (zlib : Zlib ζ) (uncompress : Bool) (desired : Nat) (c : Call ζ) : Call ζ :=
  match c.control with
  | .transfer => stepTransfer desired c
  | .fetch => stepFetch uncompress c
  | .submit => stepSubmit zlib c
  | .done _ => c
  | .memoryFault => c

/-- A read size which can be told in an int. -/
def Moderate (desired : Nat) : Prop := 0 < desired ∧ desired < 2 ^ 31

instance (desired : Nat) : Decidable (Moderate desired) := inferInstanceAs (Decidable (_ ∧ _))

/-- The codes which gzip_stream_convert() takes for an error. -/
def ZAnswer.Refused (a : ZAnswer ζ) : Prop := a.code = .streamError ∨ a.code = .bufError

/-- A call of zlib changes nothing, but its code does not tell so. After Z_STREAM_END this is no
problem if there is no input left. -/
def Stalls (zlib : Zlib ζ) (rng : GzipFilterRuntime ζ) : Prop :=
  (answer zlib rng).NoProgress ∧ ¬ (answer zlib rng).Refused ∧
    ¬ ((answer zlib rng).code = .streamEnd ∧ rng.inBuffer = [])

section Invariant

variable {zlib : Zlib ζ} {uncompress : Bool} {desired : Nat} {delivered : Bytes}

/-- All output of zlib is either delivered or pending. -/
structure Between (delivered : Bytes) (rng : GzipFilterRuntime ζ) : Prop where
  rpt_le : rng.rpt ≤ rng.outBuffer.length
  account : delivered ++ rng.pending = rng.putOut
  ended : rng.errorRet = 0 → rng.ended = true

/-- What holds at each point of a call, `delivered` being the bytes from earlier calls. -/
def Within (desired : Nat) (delivered : Bytes) (c : Call ζ) : Prop :=
  Between (delivered ++ c.buf) c.rng ∧
  match c.control with
  | .transfer => c.buf.length < desired ∧ 0 ≤ c.rng.errorRet
  | .fetch | .submit =>
    c.buf.length < desired ∧ 0 < c.rng.errorRet ∧ c.rng.outBuffer = [] ∧ c.rng.rpt = 0
  | .done ret =>
    c.buf.length ≤ desired ∧
      ((ret = c.buf.length ∧ (c.buf = [] → c.rng.errorRet = 0 ∧ c.rng.pending = [])) ∨
        (ret < 0 ∧ c.rng.errorRet < 0))
  | .memoryFault => False

theorem todo_eq (hdesired : desired < 2 ^ 31) (fill cBytes : Nat) :
    todo desired fill cBytes = (min (desired - fill) cBytes : Nat) := by
  have hroom : (Int32.ofNat (desired - fill)).toInt = (desired - fill : Nat) :=
    Int32.toInt_ofNat_of_lt (by omega)
  simp only [todo, hroom]
  split <;> omega

/-- Copying takes as much as there is and as there is room for. -/
theorem transferBytes_eq (hdesired : desired < 2 ^ 31) (c : Call ζ) :
    transferBytes desired c =
      { c with
        rng := { c.rng with
          rpt := c.rng.rpt + min (desired - c.buf.length) c.rng.pending.length }
        buf := c.buf ++ c.rng.pending.take (desired - c.buf.length) } := by
  have hlen : c.rng.pending.length = c.rng.outBuffer.length - c.rng.rpt := List.length_drop
  rw [transferBytes, todo_eq hdesired, hlen]
  by_cases hpos : 0 < c.rng.outBuffer.length - c.rng.rpt
  · have htake : (c.rng.outBuffer.drop c.rng.rpt).take
        (min (desired - c.buf.length) (c.rng.outBuffer.length - c.rng.rpt)) =
          c.rng.pending.take (desired - c.buf.length) := by
      rw [← GzipFilterRuntime.pending, ← hlen, List.take_eq_take_iff]
      omega
    rw [if_pos hpos, if_neg (by omega), Int.toNat_natCast, htake]
  · have hnone : c.rng.pending = [] := List.eq_nil_of_length_eq_zero (by omega)
    have hzero : c.rng.outBuffer.length - c.rng.rpt = 0 := by omega
    rw [if_neg hpos, hnone, hzero, List.take_nil, List.append_nil, Nat.min_zero, Nat.add_zero]

/-- The copied bytes change from pending to delivered. -/
theorem Between.transfer (hdesired : desired < 2 ^ 31) {c : Call ζ}
    (between : Between (delivered ++ c.buf) c.rng) :
    Between (delivered ++ (transferBytes desired c).buf) (transferBytes desired c).rng ∧
      (transferBytes desired c).rng.pending = c.rng.pending.drop (desired - c.buf.length) := by
  have hlen : c.rng.pending.length = c.rng.outBuffer.length - c.rng.rpt := List.length_drop
  have hle := between.rpt_le
  have hdrop : (transferBytes desired c).rng.pending =
      c.rng.pending.drop (desired - c.buf.length) := by
    rw [transferBytes_eq hdesired, GzipFilterRuntime.pending, GzipFilterRuntime.pending,
      ← List.drop_drop]
    rw [← GzipFilterRuntime.pending]
    rcases Nat.le_total (desired - c.buf.length) c.rng.pending.length with h | h
    · rw [Nat.min_eq_left h]
    · rw [Nat.min_eq_right h, List.drop_length, List.drop_eq_nil_of_le h]
  refine ⟨⟨?_, ?_, ?_⟩, hdrop⟩
  · rw [transferBytes_eq hdesired]
    dsimp only
    omega
  · rw [hdrop, transferBytes_eq hdesired]
    dsimp only
    rw [List.append_assoc, List.append_assoc, List.take_append_drop, ← List.append_assoc]
    exact between.account
  · rw [transferBytes_eq hdesired]
    exact between.ended

theorem transferBytes_control (hdesired : desired < 2 ^ 31) (c : Call ζ) :
    (transferBytes desired c).control = c.control ∧
      (transferBytes desired c).rng.errorRet = c.rng.errorRet ∧
      (transferBytes desired c).rng.ended = c.rng.ended := by
  rw [transferBytes_eq hdesired]
  exact ⟨rfl, rfl, rfl⟩

theorem transferBytes_noFault (hdesired : desired < 2 ^ 31) {c : Call ζ}
    (hcontrol : c.control = .transfer) : (transferBytes desired c).control ≠ .memoryFault := by
  rw [(transferBytes_control hdesired c).1, hcontrol]
  decide

/-- Either the read request is fulfilled or all pending bytes are delivered. -/
theorem length_transferBytes (hdesired : desired < 2 ^ 31) {c : Call ζ}
    (hless : c.buf.length < desired) :
    (transferBytes desired c).buf.length =
      min desired (c.buf.length + c.rng.pending.length) := by
  rw [transferBytes_eq hdesired, List.length_append, List.length_take]
  omega

theorem stepTransfer_within (hdesired : desired < 2 ^ 31) {c : Call ζ}
    (hcontrol : c.control = .transfer) (within : Within desired delivered c) :
    Within desired delivered (stepTransfer desired c) := by
  obtain ⟨between, hpoint⟩ := within
  rw [hcontrol] at hpoint
  obtain ⟨hless, hret⟩ := hpoint
  obtain ⟨between', hpending⟩ := between.transfer hdesired
  have herrorRet := (transferBytes_control hdesired c).2.1
  have hlen := length_transferBytes hdesired hless
  simp only [stepTransfer, if_neg (transferBytes_noFault hdesired hcontrol)]
  by_cases hend : desired ≤ (transferBytes desired c).buf.length ∨
      (transferBytes desired c).rng.errorRet = 0
  · rw [if_pos hend]
    refine ⟨between', ?_, Or.inl ⟨rfl, fun hnone => ?_⟩⟩
    · dsimp only
      omega
    · -- nothing delivered, so there was nothing pending and zlib has ended
      dsimp only at hnone ⊢
      rw [hnone, List.length_nil] at hlen hend
      refine ⟨by omega, ?_⟩
      rw [hpending]
      apply List.drop_eq_nil_of_le
      omega
  · rw [if_neg hend]
    have hnone : (transferBytes desired c).rng.pending = [] := by
      rw [hpending]
      apply List.drop_eq_nil_of_le
      omega
    have haccount := between'.account
    rw [hnone, List.append_nil] at haccount
    refine ⟨⟨Nat.le_refl 0, ?_, between'.ended⟩, ?_, ?_, rfl, rfl⟩
    · simpa [GzipFilterRuntime.pending] using haccount
    · dsimp only
      omega
    · dsimp only
      omega

theorem endOfInput_within {c : Call ζ} (hcontrol : c.control = .fetch)
    (within : Within desired delivered c) :
    Within desired delivered (endOfInput uncompress c) := by
  obtain ⟨⟨hle, haccount, hended⟩, hpoint⟩ := within
  rw [hcontrol] at hpoint
  cases uncompress with
  | true =>
    refine ⟨⟨hle, haccount, fun hzero => ?_⟩, Nat.le_of_lt hpoint.1,
      Or.inr ⟨isoZlibEarlyEof_neg, isoZlibEarlyEof_neg⟩⟩
    exact absurd hzero (Int.ne_of_lt isoZlibEarlyEof_neg)
  | false => exact ⟨⟨hle, haccount, hended⟩, hpoint⟩

theorem stepFetch_within {c : Call ζ} (hcontrol : c.control = .fetch)
    (within : Within desired delivered c) :
    Within desired delivered (stepFetch uncompress c) := by
  have hkeep := within
  obtain ⟨⟨hle, haccount, hended⟩, hpoint⟩ := within
  rw [hcontrol] at hpoint
  rw [stepFetch]
  by_cases hin : c.rng.inBuffer = []
  · rw [if_neg (not_not_intro hin)]
    split
    · rename_i code rest hreads
      refine ⟨⟨hle, haccount, fun hzero => ?_⟩, Nat.le_of_lt hpoint.1,
        Or.inr ⟨code.property, code.property⟩⟩
      exact absurd hzero (Int.ne_of_lt code.property)
    · exact ⟨⟨hle, haccount, hended⟩, hpoint⟩
    · rename_i rest hreads
      refine endOfInput_within hcontrol ⟨⟨hle, haccount, hended⟩, ?_⟩
      dsimp only
      rw [hcontrol]
      exact hpoint
    · exact endOfInput_within hcontrol hkeep
  · rw [if_pos hin]
    exact ⟨⟨hle, haccount, hended⟩, hpoint⟩

/-- The output of zlib becomes pending. -/
theorem Between.submitted {rng : GzipFilterRuntime ζ} (between : Between delivered rng)
    (a : ZAnswer ζ) : Between delivered (rng.submitted a) := by
  obtain ⟨hle, haccount, hended⟩ := between
  refine ⟨?_, ?_, ?_⟩
  · simp only [GzipFilterRuntime.submitted, List.length_append]
    omega
  · simp only [GzipFilterRuntime.submitted, GzipFilterRuntime.pending,
      List.drop_append_of_le_length hle, ← List.append_assoc]
    rw [← GzipFilterRuntime.pending, haccount]
  · intro hzero
    simp only [GzipFilterRuntime.submitted, hended hzero, Bool.true_or]

theorem stepSubmit_within {c : Call ζ} (hcontrol : c.control = .submit)
    (within : Within desired delivered c) :
    Within desired delivered (stepSubmit zlib c) := by
  obtain ⟨between, hpoint⟩ := within
  rw [hcontrol] at hpoint
  obtain ⟨hless, hret, hout, hrpt⟩ := hpoint
  obtain ⟨hle, haccount, hended⟩ := between.submitted (answer zlib c.rng)
  simp only [stepSubmit]
  by_cases hfail : (answer zlib c.rng).code = .streamError ∨ (answer zlib c.rng).code = .bufError
  · rw [if_pos hfail]
    refine ⟨⟨hle, haccount, fun hzero => ?_⟩, Nat.le_of_lt hless,
      Or.inr ⟨isoZlibComprErr_neg, isoZlibComprErr_neg⟩⟩
    exact absurd hzero (Int.ne_of_lt isoZlibComprErr_neg)
  · rw [if_neg hfail]
    by_cases hbreak : (c.rng.submitted (answer zlib c.rng)).outBuffer ≠ [] ∨
        (c.rng.submitted (answer zlib c.rng)).inBuffer = []
    · rw [if_pos hbreak]
      by_cases hcode : (answer zlib c.rng).code = .streamEnd
      · rw [if_pos hcode]
        refine ⟨⟨hle, haccount, fun _ => ?_⟩, hless, Int.le_refl 0⟩
        simp [GzipFilterRuntime.submitted, hcode]
      · rw [if_neg hcode]
        exact ⟨⟨hle, haccount, hended⟩, hless, Int.le_of_lt hret⟩
    · rw [if_neg hbreak]
      refine ⟨⟨hle, haccount, hended⟩, ?_⟩
      dsimp only
      rw [hcontrol]
      refine ⟨hless, hret, ?_, hrpt⟩
      by_contra hne
      exact hbreak (Or.inl hne)

theorem step_within (hdesired : desired < 2 ^ 31) {c : Call ζ}
    (within : Within desired delivered c) :
    Within desired delivered (step zlib uncompress desired c) := by
  rw [step]
  cases hcontrol : c.control with
  | transfer => exact stepTransfer_within hdesired hcontrol within
  | fetch => exact stepFetch_within hcontrol within
  | submit => exact stepSubmit_within hcontrol within
  | done ret => exact within
  | memoryFault => exact within

/-- The bytes which zlib can still get, and the number of read attempts before the end. -/
def inputLeft (rng : GzipFilterRuntime ζ) : Nat :=
  rng.inBuffer.length + (rng.reads.map fun r => (r.toOption.getD []).length).sum +
    rng.reads.length

/-- Input left and room left, and how far it is to the next transfer of bytes. -/
def variant (desired : Nat) (c : Call ζ) : Nat :=
  4 * inputLeft c.rng + 4 * (desired - c.buf.length) +
    match c.control with
    | .transfer => if c.rng.errorRet ≠ 0 ∧ c.rng.pending = [] then 4 else 0
    | .fetch => 3
    | .submit => 2
    | .done _ | .memoryFault => 0

theorem stepTransfer_decreases (hdesired : desired < 2 ^ 31) {c : Call ζ}
    (hcontrol : c.control = .transfer) (within : Within desired delivered c) :
    (stepTransfer desired c).Final ∨
      variant desired (stepTransfer desired c) < variant desired c := by
  obtain ⟨between, hpoint⟩ := within
  rw [hcontrol] at hpoint
  obtain ⟨hless, hret⟩ := hpoint
  have herrorRet := (transferBytes_control hdesired c).2.1
  have hlen := length_transferBytes hdesired hless
  have hleft : inputLeft (transferBytes desired c).rng = inputLeft c.rng := by
    rw [transferBytes_eq hdesired]
    rfl
  simp only [stepTransfer, if_neg (transferBytes_noFault hdesired hcontrol)]
  by_cases hend : desired ≤ (transferBytes desired c).buf.length ∨
      (transferBytes desired c).rng.errorRet = 0
  · rw [if_pos hend]
    exact Or.inl (Or.inl ⟨_, rfl⟩)
  · rw [if_neg hend]
    right
    have hsame' : inputLeft { (transferBytes desired c).rng with rpt := 0, outBuffer := [] } =
        inputLeft c.rng := hleft
    simp only [variant, hcontrol, hsame']
    by_cases hpending : c.rng.pending = []
    · have hnonzero : c.rng.errorRet ≠ 0 := by omega
      rw [if_pos ⟨hnonzero, hpending⟩]
      rw [hpending, List.length_nil] at hlen
      omega
    · have hpos := List.length_pos_iff.mpr hpending
      rw [if_neg fun h => hpending h.2]
      omega

theorem endOfInput_decreases {c : Call ζ} {left room : Nat} (hleft : inputLeft c.rng ≤ left)
    (hroom : desired - c.buf.length = room) :
    (endOfInput uncompress c).Final ∨
      variant desired (endOfInput uncompress c) < 4 * left + 4 * room + 3 := by
  cases uncompress with
  | true => exact Or.inl (Or.inl ⟨_, rfl⟩)
  | false =>
    right
    have hsame : inputLeft { c.rng with doFlush := true } = inputLeft c.rng := rfl
    simp only [endOfInput, variant, Bool.false_eq_true, if_false, hsame]
    omega

theorem stepFetch_decreases {c : Call ζ} (hcontrol : c.control = .fetch) :
    (stepFetch uncompress c).Final ∨
      variant desired (stepFetch uncompress c) < variant desired c := by
  have hvariant : variant desired c = 4 * inputLeft c.rng + 4 * (desired - c.buf.length) + 3 := by
    simp only [variant, hcontrol]
  rw [stepFetch, hvariant]
  by_cases hin : c.rng.inBuffer = []
  · rw [if_neg (not_not_intro hin)]
    split
    · exact Or.inl (Or.inl ⟨_, rfl⟩)
    · rename_i a bytes rest hreads
      right
      simp only [variant, inputLeft, hreads, hin, List.map_cons, List.sum_cons, List.length_cons,
        List.length_nil, Except.toOption, Option.getD_some]
      omega
    · rename_i rest hreads
      refine endOfInput_decreases ?_ rfl
      simp only [inputLeft, hreads, List.map_cons, List.sum_cons, List.length_cons]
      omega
    · exact endOfInput_decreases (Nat.le_refl _) rfl
  · rw [if_pos hin]
    right
    simp only [variant]
    omega

theorem stepSubmit_decreases {c : Call ζ} (hcontrol : c.control = .submit)
    (within : Within desired delivered c) (moves : ¬ Stalls zlib c.rng) :
    (stepSubmit zlib c).Final ∨ variant desired (stepSubmit zlib c) < variant desired c := by
  obtain ⟨between, hpoint⟩ := within
  rw [hcontrol] at hpoint
  obtain ⟨hless, hret, hout, hrpt⟩ := hpoint
  have hconsumed : (answer zlib c.rng).consumed ≤ c.rng.inBuffer.length :=
    zlib.consumed_le _ _ _ _
  have hdrop : (c.rng.submitted (answer zlib c.rng)).inBuffer.length =
      c.rng.inBuffer.length - (answer zlib c.rng).consumed := List.length_drop
  have hpending : (c.rng.submitted (answer zlib c.rng)).pending = (answer zlib c.rng).output := by
    simp [GzipFilterRuntime.submitted, GzipFilterRuntime.pending, hout, hrpt]
  have hleft : inputLeft (c.rng.submitted (answer zlib c.rng)) =
      inputLeft c.rng - (answer zlib c.rng).consumed := by
    simp only [inputLeft, hdrop]
    simp only [GzipFilterRuntime.submitted]
    omega
  have hpaid : (answer zlib c.rng).consumed ≤ inputLeft c.rng := by
    simp only [inputLeft]
    omega
  simp only [stepSubmit]
  by_cases hfail : (answer zlib c.rng).code = .streamError ∨ (answer zlib c.rng).code = .bufError
  · rw [if_pos hfail]
    exact Or.inl (Or.inl ⟨_, rfl⟩)
  · rw [if_neg hfail]
    right
    have hstall : (answer zlib c.rng).NoProgress →
        (answer zlib c.rng).code = .streamEnd ∧ c.rng.inBuffer = [] := by
      intro hnone
      by_contra hother
      exact moves ⟨hnone, hfail, hother⟩
    by_cases hbreak : (c.rng.submitted (answer zlib c.rng)).outBuffer ≠ [] ∨
        (c.rng.submitted (answer zlib c.rng)).inBuffer = []
    · rw [if_pos hbreak]
      by_cases hcode : (answer zlib c.rng).code = .streamEnd
      · rw [if_pos hcode]
        have hsame : inputLeft { c.rng.submitted (answer zlib c.rng) with errorRet := 0 } =
            inputLeft (c.rng.submitted (answer zlib c.rng)) := rfl
        simp only [variant, hcontrol, hsame, ne_eq, not_true_eq_false, false_and, if_false]
        omega
      · rw [if_neg hcode]
        simp only [variant, hcontrol, hpending]
        split
        · have hpos : (answer zlib c.rng).consumed ≠ 0 := by
            intro hzero
            exact hcode (hstall ⟨hzero, by simp_all⟩).1
          omega
        · omega
    · rw [if_neg hbreak]
      obtain ⟨hnoOutput, hmore⟩ := not_or.mp hbreak
      have houtput : (answer zlib c.rng).output = [] := by
        have := not_not.mp hnoOutput
        simpa [GzipFilterRuntime.submitted, hout] using this
      have hpos : (answer zlib c.rng).consumed ≠ 0 := by
        intro hzero
        refine hmore ?_
        simp only [GzipFilterRuntime.submitted, (hstall ⟨hzero, houtput⟩).2, List.drop_nil]
      simp only [variant, hcontrol]
      omega

/-- The bytes which the caller may regard as read. -/
def returned (ret : Int) (buf : Bytes) : Bytes := if ret < 0 then [] else buf

/-- A call ends with at most the desired number of bytes. So far, the caller got exactly what
zlib has put out, except what is pending, and after an error nothing is pending. 0 is returned only
after Z_STREAM_END. -/
def CallRight (zlib : Zlib ζ) (uncompress : Bool) (delivered : Bytes)
    (rng : GzipFilterRuntime ζ) (desired : Nat) : Prop :=
  ∃ n ret, ∃ c, (step zlib uncompress desired)^[n] (startCall rng) = c ∧
    c.control = .done ret ∧ ret ≤ desired ∧ (0 ≤ ret → ret = c.buf.length) ∧
    delivered ++ returned ret c.buf ++ c.rng.pending = c.rng.putOut ∧
    (ret < 0 → c.rng.pending = []) ∧ (ret = 0 → c.rng.ended = true ∧ c.rng.pending = [])

/-- Calls with moderate read sizes which have returned. The first index is what they have
delivered. -/
inductive Session (zlib : Zlib ζ) (uncompress : Bool) (start : GzipFilterRuntime ζ) :
    Bytes → GzipFilterRuntime ζ → Prop where
  | opened : Session zlib uncompress start [] start
  | call {delivered : Bytes} {rng : GzipFilterRuntime ζ} {desired n : Nat} {c : Call ζ}
      {ret : Int} :
      Session zlib uncompress start delivered rng → Moderate desired →
      (step zlib uncompress desired)^[n] (startCall rng) = c → c.control = .done ret →
      Session zlib uncompress start (delivered ++ returned ret c.buf) c.rng

theorem between_opened (strm : ζ) (reads : List (Except ErrorCode Bytes)) :
    Between [] (gzipRunningNew strm reads) :=
  ⟨Nat.le_refl 0, rfl, fun h => absurd (show (1 : Int) = 0 from h) (by decide)⟩

theorem startCall_within (moderate : Moderate desired) {rng : GzipFilterRuntime ζ}
    (between : Between delivered rng) : Within desired delivered (startCall rng) := by
  have hempty : Between (delivered ++ []) rng := (List.append_nil delivered).symm ▸ between
  rw [startCall]
  by_cases herror : rng.errorRet < 0
  · rw [if_pos herror]
    exact ⟨hempty, Nat.zero_le _, Or.inr ⟨herror, herror⟩⟩
  · rw [if_neg herror]
    by_cases hend : rng.errorRet = 0 ∧ rng.outBuffer.length - rng.rpt = 0
    · rw [if_pos hend]
      refine ⟨hempty, Nat.zero_le _, Or.inl ⟨rfl, fun _ => ⟨hend.1, ?_⟩⟩⟩
      exact List.drop_eq_nil_of_le (Nat.le_of_sub_eq_zero hend.2)
    · rw [if_neg hend]
      exact ⟨hempty, moderate.1, Int.not_lt.mp herror⟩

theorem iterate_within (moderate : Moderate desired) {c : Call ζ}
    (within : Within desired delivered c) (n : Nat) :
    Within desired delivered ((step zlib uncompress desired)^[n] c) := by
  induction n generalizing c with
  | zero => exact within
  | succ n ih => exact ih (step_within moderate.2 within)

end Invariant

end GzipConvert
