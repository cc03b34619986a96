import Libisofs.GzipConvert

/-!
# What zlib gets from a gzip filter

The pieces of input which zlib gets from gzip_stream_convert(), and so its answers, do not depend
on the read sizes. They decide whether all calls do what they shall do.
-/

namespace GzipFeeding

open FileData (Bytes)
open GzipConvert Halting

variable {ζ : Type}

section Feeding

/-- What zlib is about to get, and what the input stream has still to offer. -/
structure Feed (ζ : Type) where
  strm : ζ
  input : Bytes
  finish : Bool
  reads : List (Except ErrorCode Bytes)

/-- If all input is consumed, then there must be more of it or an end which may be told to
zlib. -/
def Feed.refill (uncompress : Bool) (g : Feed ζ) : Option (Feed ζ) :=
  if g.input ≠ [] then some g
  else
    match g.reads with
    | .error _ :: _ => none
    | .ok (a :: bytes) :: rest => some { g with input := a :: bytes, reads := rest }
    | .ok [] :: rest => if uncompress then none else some { g with finish := true, reads := rest }
    | [] => if uncompress then none else some { g with finish := true }

/-- zlib always gets room for 2048 bytes of output. -/
def Feed.answer (zlib : Zlib ζ) (f : Feed ζ) : ZAnswer ζ := zlib.convert f.strm f.input 2048 f.finish

def Feed.after (zlib : Zlib ζ) (f : Feed ζ) : Feed ζ :=
  { f with strm := (f.answer zlib).state, input := f.input.drop (f.answer zlib).consumed }

/-- Z_STREAM_END gets noticed when output is available or all pending input is consumed. -/
def Feed.Ended (zlib : Zlib ζ) (f : Feed ζ) : Prop :=
  (f.answer zlib).code = .streamEnd ∧ ((f.answer zlib).output ≠ [] ∨ (f.after zlib).input = [])

/-- zlib will be called again, as far as there is input. -/
def Feed.GoesOn (zlib : Zlib ζ) (f : Feed ζ) : Prop :=
  ¬ (f.answer zlib).Refused ∧ ¬ f.Ended zlib

/-- What comes to be while zlib gets fed with the input, and what it has put out by then. -/
inductive Fed (zlib : Zlib ζ) (uncompress : Bool) (start : Feed ζ) : Feed ζ → Bytes → Prop where
  | start : Fed zlib uncompress start start []
  | next {g f : Feed ζ} {out : Bytes} : Fed zlib uncompress start g out →
      g.refill uncompress = some f → f.GoesOn zlib →
      Fed zlib uncompress start (f.after zlib) (out ++ (f.answer zlib).output)

/-- Nothing changes, and zlib will be called again. -/
def Feed.Stalled (zlib : Zlib ζ) (uncompress : Bool) (f : Feed ζ) : Prop :=
  (f.answer zlib).NoProgress ∧ f.GoesOn zlib ∧ (f.after zlib).refill uncompress ≠ none

def Feed.next (zlib : Zlib ζ) (uncompress : Bool) (f : Feed ζ) : Feed ζ :=
  ((f.after zlib).refill uncompress).getD f

/-- zlib does not answer without any progress for ever. If it refuses the input or if there is no
more input, then it has not put out anything. -/
structure Sound (zlib : Zlib ζ) (uncompress : Bool) (start : Feed ζ) : Prop where
  moves : ∀ g out f, Fed zlib uncompress start g out → g.refill uncompress = some f →
    ∃ n, ¬ ((Feed.next zlib uncompress)^[n] f).Stalled zlib uncompress
  starved : ∀ g out, Fed zlib uncompress start g out → g.refill uncompress = none → out = []
  refused : ∀ g out f, Fed zlib uncompress start g out → g.refill uncompress = some f →
    (f.answer zlib).Refused → out = [] ∧ (f.answer zlib).output = []

/-- After any number of calls with moderate read sizes, each such call does what it shall do. -/
def ReadsRight (zlib : Zlib ζ) (uncompress : Bool) (strm : ζ)
    (reads : List (Except ErrorCode Bytes)) : Prop :=
  ∀ delivered rng desired, Session zlib uncompress (gzipRunningNew strm reads) delivered rng →
    Moderate desired → CallRight zlib uncompress delivered rng desired

/-- What the buffers of the filter hold for zlib. -/
def feedOf (rng : GzipFilterRuntime ζ) : Feed ζ := ⟨rng.strm, rng.inBuffer, rng.doFlush, rng.reads⟩

end Feeding

section Steps

variable {zlib : Zlib ζ} {uncompress : Bool} {desired : Nat} {delivered : Bytes} {c : Call ζ}

theorem step_transfer (hcontrol : c.control = .transfer) :
    step zlib uncompress desired c = stepTransfer desired c := by
  rw [step, hcontrol]

theorem step_fetch (hcontrol : c.control = .fetch) :
    step zlib uncompress desired c = stepFetch uncompress c := by
  rw [step, hcontrol]

theorem step_submit (hcontrol : c.control = .submit) :
    step zlib uncompress desired c = stepSubmit zlib c := by
  rw [step, hcontrol]

theorem step_done {ret : Int} (hcontrol : c.control = .done ret) :
    step zlib uncompress desired c = c := by
  rw [step, hcontrol]

theorem refill_of_input {g : Feed ζ} (h : g.input ≠ []) : g.refill uncompress = some g :=
  if_pos h

theorem input_of_refill_none {g : Feed ζ} (h : g.refill uncompress = none) : g.input = [] := by
  by_contra hne
  rw [refill_of_input hne] at h
  cases h

/-- There is no more input. -/
theorem stepFetch_none (h : (feedOf c.rng).refill uncompress = none) :
    ∃ code rest, code < 0 ∧ stepFetch uncompress c =
      { c with rng := { c.rng with errorRet := code, reads := rest }, control := .done code } := by
  have hin : c.rng.inBuffer = [] := input_of_refill_none h
  obtain ⟨⟨strm, inBuffer, outBuffer, rpt, doFlush, errorRet, reads, putOut, ended⟩, buf,
    control⟩ := c
  obtain rfl : inBuffer = [] := hin
  rcases reads with _ | ⟨code | _ | ⟨a, bytes⟩, rest⟩
  · cases uncompress with
    | true => exact ⟨_, [], isoZlibEarlyEof_neg, rfl⟩
    | false => cases h
  · exact ⟨_, _, code.property, rfl⟩
  · cases uncompress with
    | true => exact ⟨_, rest, isoZlibEarlyEof_neg, rfl⟩
    | false => cases h
  · cases h

/-- There is input for zlib. -/
theorem stepFetch_some {f : Feed ζ} (h : (feedOf c.rng).refill uncompress = some f) :
    stepFetch uncompress c =
      { c with
        rng := { c.rng with
          strm := f.strm, inBuffer := f.input, doFlush := f.finish, reads := f.reads }
        control := .submit } := by
  by_cases hin : c.rng.inBuffer = []
  · obtain ⟨⟨strm, inBuffer, outBuffer, rpt, doFlush, errorRet, reads, putOut, ended⟩, buf,
      control⟩ := c
    obtain rfl : inBuffer = [] := hin
    rcases reads with _ | ⟨code | _ | ⟨a, bytes⟩, rest⟩
    · cases uncompress with
      | true => cases h
      | false =>
        cases h
        rfl
    · cases h
    · cases uncompress with
      | true => cases h
      | false =>
        cases h
        rfl
    · cases h
      rfl
  · rw [refill_of_input hin] at h
    cases h
    rw [stepFetch, if_pos hin]
    rfl

/-- There is room for all pending bytes. -/
theorem stepTransfer_all (hdesired : desired < 2 ^ 31)
    (hroom : c.buf.length + c.rng.pending.length < desired) (herror : c.rng.errorRet ≠ 0)
    (hcontrol : c.control = .transfer) :
    stepTransfer desired c =
      { c with
        rng := { c.rng with rpt := 0, outBuffer := [] }
        buf := c.buf ++ c.rng.pending
        control := .fetch } := by
  have htake : c.rng.pending.take (desired - c.buf.length) = c.rng.pending :=
    List.take_of_length_le (by omega)
  rw [stepTransfer]
  dsimp only
  rw [if_neg (transferBytes_noFault hdesired hcontrol), transferBytes_eq hdesired, htake]
  dsimp only
  rw [if_neg]
  rw [List.length_append]
  omega

/-- The pending bytes are just as many as there is room for. -/
theorem stepTransfer_full (hdesired : desired < 2 ^ 31)
    (hroom : c.buf.length + c.rng.pending.length = desired) (hcontrol : c.control = .transfer) :
    stepTransfer desired c =
      { c with
        rng := { c.rng with rpt := c.rng.rpt + c.rng.pending.length }
        buf := c.buf ++ c.rng.pending
        control := .done desired } := by
  have htake : c.rng.pending.take (desired - c.buf.length) = c.rng.pending :=
    List.take_of_length_le (by omega)
  have hmin : min (desired - c.buf.length) c.rng.pending.length = c.rng.pending.length := by omega
  rw [stepTransfer]
  dsimp only
  rw [if_neg (transferBytes_noFault hdesired hcontrol), transferBytes_eq hdesired, htake, hmin]
  dsimp only
  rw [List.length_append, hroom, if_pos (Or.inl (Nat.le_refl _))]

/-- In the inner loop the output buffer is empty. -/
theorem answer_eq {rng : GzipFilterRuntime ζ} (hout : rng.outBuffer = []) :
    answer zlib rng = (feedOf rng).answer zlib := by
  rw [answer, hout]
  rfl

theorem stepSubmit_refused (hout : c.rng.outBuffer = [])
    (hrefused : ((feedOf c.rng).answer zlib).Refused) :
    stepSubmit zlib c =
      { c with
        rng := { c.rng.submitted ((feedOf c.rng).answer zlib) with errorRet := isoZlibComprErr }
        control := .done isoZlibComprErr } := by
  rw [stepSubmit, answer_eq hout]
  exact if_pos hrefused

/-- Output is available, or all pending input is consumed. -/
theorem stepSubmit_break (hout : c.rng.outBuffer = [])
    (hgoes : (feedOf c.rng).GoesOn zlib)
    (hbreak : ((feedOf c.rng).answer zlib).output ≠ [] ∨ ((feedOf c.rng).after zlib).input = []) :
    stepSubmit zlib c =
      { c with rng := c.rng.submitted ((feedOf c.rng).answer zlib), control := .transfer } := by
  have hcode : ((feedOf c.rng).answer zlib).code ≠ .streamEnd := fun h => hgoes.2 ⟨h, hbreak⟩
  have hbreak' : (c.rng.submitted ((feedOf c.rng).answer zlib)).outBuffer ≠ [] ∨
      (c.rng.submitted ((feedOf c.rng).answer zlib)).inBuffer = [] := by
    rw [GzipFilterRuntime.submitted, hout, List.nil_append]
    exact hbreak
  have hrefused : ¬ (_ ∨ _) := hgoes.1
  rw [stepSubmit, answer_eq hout, if_neg hrefused, if_pos hbreak', if_neg hcode]

/-- The inner loop goes on. -/
theorem stepSubmit_again (hout : c.rng.outBuffer = [])
    (hgoes : (feedOf c.rng).GoesOn zlib) (hnone : ((feedOf c.rng).answer zlib).output = [])
    (hmore : ((feedOf c.rng).after zlib).input ≠ []) :
    stepSubmit zlib c = { c with rng := c.rng.submitted ((feedOf c.rng).answer zlib) } := by
  have hbreak : ¬ ((c.rng.submitted ((feedOf c.rng).answer zlib)).outBuffer ≠ [] ∨
      (c.rng.submitted ((feedOf c.rng).answer zlib)).inBuffer = []) := by
    rw [GzipFilterRuntime.submitted, hout, hnone, List.nil_append]
    rintro (h | h)
    · exact h rfl
    · exact hmore h
  have hrefused : ¬ (_ ∨ _) := hgoes.1
  rw [stepSubmit, answer_eq hout, if_neg hrefused, if_neg hbreak]

theorem feedOf_submitted (rng : GzipFilterRuntime ζ) :
    feedOf (rng.submitted ((feedOf rng).answer zlib)) = (feedOf rng).after zlib := rfl

end Steps

section Sufficient

variable {zlib : Zlib ζ} {uncompress : Bool} {desired : Nat} {delivered : Bytes} {c : Call ζ}
variable {start : Feed ζ}

/-- What the filter holds has come to be by feeding zlib. After an error zlib has put out
nothing. -/
structure Linked (zlib : Zlib ζ) (uncompress : Bool) (start : Feed ζ) (c : Call ζ) : Prop where
  failed : c.rng.errorRet < 0 → c.rng.putOut = []
  fed : 0 < c.rng.errorRet → c.control ≠ .submit →
    Fed zlib uncompress start (feedOf c.rng) c.rng.putOut
  submitting : 0 < c.rng.errorRet → c.control = .submit →
    ∃ g, Fed zlib uncompress start g c.rng.putOut ∧ g.refill uncompress = some (feedOf c.rng)

theorem stepTransfer_linked (hdesired : desired < 2 ^ 31) (hcontrol : c.control = .transfer)
    (linked : Linked zlib uncompress start c) :
    Linked zlib uncompress start (stepTransfer desired c) := by
  obtain ⟨failed, fed, -⟩ := linked
  have hfed : 0 < c.rng.errorRet → Fed zlib uncompress start (feedOf c.rng) c.rng.putOut :=
    fun h => fed h (by rw [hcontrol]; decide)
  rw [stepTransfer]
  dsimp only
  rw [if_neg (transferBytes_noFault hdesired hcontrol), transferBytes_eq hdesired]
  split
  · exact ⟨failed, fun h _ => hfed h, fun _ h => Control.noConfusion h⟩
  · exact ⟨failed, fun h _ => hfed h, fun _ h => Control.noConfusion h⟩

theorem stepFetch_linked (sound : Sound zlib uncompress start) (hcontrol : c.control = .fetch)
    (herror : 0 < c.rng.errorRet) (linked : Linked zlib uncompress start c) :
    Linked zlib uncompress start (stepFetch uncompress c) := by
  have fed := linked.fed herror (by rw [hcontrol]; decide)
  cases hrefill : (feedOf c.rng).refill uncompress with
  | none =>
    obtain ⟨code, rest, hneg, hstep⟩ := stepFetch_none hrefill
    rw [hstep]
    refine ⟨fun _ => sound.starved _ _ fed hrefill, fun h => ?_, fun h => ?_⟩
    · exact absurd hneg (Int.not_lt.mpr (Int.le_of_lt h))
    · exact absurd hneg (Int.not_lt.mpr (Int.le_of_lt h))
  | some f =>
    rw [stepFetch_some hrefill]
    exact ⟨linked.failed, fun _ h => absurd rfl h, fun _ _ => ⟨_, fed, hrefill⟩⟩

theorem stepSubmit_linked (sound : Sound zlib uncompress start) (hcontrol : c.control = .submit)
    (herror : 0 < c.rng.errorRet) (hout : c.rng.outBuffer = [])
    (linked : Linked zlib uncompress start c) :
    Linked zlib uncompress start (stepSubmit zlib c) := by
  obtain ⟨g, fed, hrefill⟩ := linked.submitting herror hcontrol
  by_cases hrefused : ((feedOf c.rng).answer zlib).Refused
  · obtain ⟨hnone, houtput⟩ := sound.refused _ _ _ fed hrefill hrefused
    rw [stepSubmit_refused hout hrefused]
    have hneg : ¬ 0 < isoZlibComprErr := by decide
    refine ⟨fun _ => ?_, fun h => absurd h hneg, fun h => absurd h hneg⟩
    simp only [GzipFilterRuntime.submitted, hnone, houtput, List.append_nil]
  · by_cases hended : (feedOf c.rng).Ended zlib
    · have hbreak : (c.rng.submitted ((feedOf c.rng).answer zlib)).outBuffer ≠ [] ∨
          (c.rng.submitted ((feedOf c.rng).answer zlib)).inBuffer = [] := by
        rw [GzipFilterRuntime.submitted, hout, List.nil_append]
        exact hended.2
      have hcodes : ¬ (_ ∨ _) := hrefused
      rw [stepSubmit, answer_eq hout, if_neg hcodes, if_pos hbreak, if_pos hended.1]
      exact ⟨fun h => absurd h (Int.lt_irrefl 0), fun h => absurd h (Int.lt_irrefl 0),
        fun h => absurd h (Int.lt_irrefl 0)⟩
    · have hgoes : (feedOf c.rng).GoesOn zlib := ⟨hrefused, hended⟩
      have fed' := fed.next hrefill hgoes
      have hpos : ¬ c.rng.errorRet < 0 := Int.not_lt.mpr (Int.le_of_lt herror)
      by_cases hbreak : ((feedOf c.rng).answer zlib).output ≠ [] ∨
          ((feedOf c.rng).after zlib).input = []
      · rw [stepSubmit_break hout hgoes hbreak]
        exact ⟨fun h => absurd h hpos, fun _ _ => fed', fun _ h => Control.noConfusion h⟩
      · obtain ⟨hnone, hmore⟩ := not_or.mp hbreak
        rw [stepSubmit_again hout hgoes (not_not.mp hnone) hmore]
        refine ⟨fun h => absurd h hpos, fun _ h => absurd hcontrol h, fun _ _ => ?_⟩
        exact ⟨_, fed', refill_of_input hmore⟩

theorem step_linked (sound : Sound zlib uncompress start) (hdesired : desired < 2 ^ 31)
    (within : Within desired delivered c) (linked : Linked zlib uncompress start c) :
    Linked zlib uncompress start (step zlib uncompress desired c) := by
  obtain ⟨-, hpoint⟩ := within
  rw [step]
  cases hcontrol : c.control with
  | transfer => exact stepTransfer_linked hdesired hcontrol linked
  | fetch =>
    rw [hcontrol] at hpoint
    exact stepFetch_linked sound hcontrol hpoint.2.1 linked
  | submit =>
    rw [hcontrol] at hpoint
    exact stepSubmit_linked sound hcontrol hpoint.2.1 hpoint.2.2.1 linked
  | done ret => exact linked
  | memoryFault => exact linked

theorem startCall_linked {rng : GzipFilterRuntime ζ}
    (failed : rng.errorRet < 0 → rng.putOut = [])
    (fed : 0 < rng.errorRet → Fed zlib uncompress start (feedOf rng) rng.putOut) :
    Linked zlib uncompress start (startCall rng) := by
  rw [startCall]
  split
  · exact ⟨failed, fun h _ => fed h, fun _ h => Control.noConfusion h⟩
  · split
    · exact ⟨failed, fun h _ => fed h, fun _ h => Control.noConfusion h⟩
    · exact ⟨failed, fun h _ => fed h, fun _ h => Control.noConfusion h⟩

theorem iterate_linked (sound : Sound zlib uncompress start) (moderate : Moderate desired)
    (within : Within desired delivered c) (linked : Linked zlib uncompress start c) (n : Nat) :
    Linked zlib uncompress start ((step zlib uncompress desired)^[n] c) := by
  induction n generalizing c with
  | zero => exact linked
  | succ n ih =>
    exact ih (step_within moderate.2 within) (step_linked sound moderate.2 within linked)

/-- What a finished call leaves behind. An error drops what the call has stored, but there is
nothing then. -/
theorem finished_between {ret : Int} (within : Within desired delivered c)
    (linked : Linked zlib uncompress start c) (hdone : c.control = .done ret) :
    Between (delivered ++ returned ret c.buf) c.rng ∧ (ret < 0 → c.rng.pending = []) := by
  obtain ⟨between, hpoint⟩ := within
  rw [hdone] at hpoint
  rcases hpoint.2 with ⟨hret, -⟩ | ⟨hneg, herror⟩
  · have hpos : ¬ ret < 0 := by omega
    rw [returned, if_neg hpos]
    exact ⟨between, fun h => absurd h hpos⟩
  · have haccount := between.account
    rw [linked.failed herror, List.append_eq_nil_iff, List.append_eq_nil_iff] at haccount
    rw [haccount.1.2] at between
    rw [returned, if_pos hneg]
    exact ⟨between, fun _ => haccount.2⟩

theorem session_between {strm : ζ} {reads : List (Except ErrorCode Bytes)}
    {rng : GzipFilterRuntime ζ} (sound : Sound zlib uncompress ⟨strm, [], false, reads⟩)
    (session : Session zlib uncompress (gzipRunningNew strm reads) delivered rng) :
    Between delivered rng ∧ (rng.errorRet < 0 → rng.putOut = []) ∧
      (0 < rng.errorRet →
        Fed zlib uncompress ⟨strm, [], false, reads⟩ (feedOf rng) rng.putOut) := by
  induction session with
  | opened =>
    refine ⟨between_opened strm reads, fun h => ?_, fun _ => .start⟩
    exact absurd (show (1 : Int) < 0 from h) (by decide)
  | @call _ _ _ n _ _ _ moderate hrun hdone ih =>
    subst hrun
    obtain ⟨between, failed, fed⟩ := ih
    have within := startCall_within moderate between
    have linked := iterate_linked sound moderate within (startCall_linked failed fed) n
    refine ⟨(finished_between (iterate_within moderate within n) linked hdone).1, linked.failed,
      fun h => linked.fed h ?_⟩
    rw [hdone]
    exact Control.noConfusion

theorem stalls_iff {rng : GzipFilterRuntime ζ} (hout : rng.outBuffer = []) :
    Stalls zlib rng ↔ ((feedOf rng).answer zlib).NoProgress ∧ (feedOf rng).GoesOn zlib := by
  rw [Stalls, answer_eq hout]
  refine and_congr_right fun hnone => and_congr_right fun _ => not_congr ?_
  rw [Feed.Ended, Feed.after, hnone.1, hnone.2]
  simp [feedOf]

theorem inputLeft_refill {g f : Feed ζ} (h : g.refill uncompress = some f) :
    f.input.length + (f.reads.map fun r => (r.toOption.getD []).length).sum + f.reads.length ≤
      g.input.length + (g.reads.map fun r => (r.toOption.getD []).length).sum + g.reads.length := by
  rw [Feed.refill] at h
  split at h
  · cases h
    exact Nat.le_refl _
  · split at h
    · cases h
    · rename_i a bytes rest hreads
      cases h
      simp only [hreads, List.map_cons, List.sum_cons, Except.toOption, Option.getD_some,
        List.length_cons]
      omega
    · rename_i rest hreads
      split at h
      · cases h
      · cases h
        simp only [hreads, List.map_cons, List.sum_cons, List.length_cons]
        omega
    · split at h
      · cases h
      · cases h
        exact Nat.le_refl _

variable (uncompress) in
/-- A call of zlib without progress leads to the next one, if the input stream does not fail. -/
theorem stall_phase (hdesired : desired < 2 ^ 31) (hcontrol : c.control = .submit)
    (within : Within desired delivered c) (stalls : Stalls zlib c.rng) :
    ∃ n, ((step zlib uncompress desired)^[n] c).Final ∨
      ((step zlib uncompress desired)^[n] c).control = .submit ∧
        ((feedOf c.rng).after zlib).refill uncompress =
          some (feedOf ((step zlib uncompress desired)^[n] c).rng) ∧
        variant desired ((step zlib uncompress desired)^[n] c) ≤ variant desired c := by
  have hpoint := within.2
  rw [hcontrol] at hpoint
  obtain ⟨hless, herror, hout, hrpt⟩ := hpoint
  obtain ⟨hnone, hgoes⟩ := (stalls_iff hout).mp stalls
  have hsame : ((feedOf c.rng).after zlib).input = c.rng.inBuffer := by
    rw [Feed.after, hnone.1]
    rfl
  by_cases hin : c.rng.inBuffer = []
  · -- the outer loop tries to get new input
    have hbreak := stepSubmit_break hout hgoes (Or.inr (hsame.trans hin))
    generalize hsubmitted : c.rng.submitted ((feedOf c.rng).answer zlib) = rng at hbreak
    have hfeed : feedOf rng = (feedOf c.rng).after zlib := by
      rw [← hsubmitted, feedOf_submitted]
    have hrng : rng.errorRet = c.rng.errorRet ∧ rng.pending = [] ∧
        inputLeft rng = inputLeft c.rng := by
      rw [← hsubmitted, GzipFilterRuntime.submitted, GzipFilterRuntime.pending, hnone.1, hnone.2,
        hout, hrpt]
      exact ⟨rfl, rfl, rfl⟩
    have htransfer := @stepTransfer_all _ desired ⟨rng, c.buf, .transfer⟩ hdesired
      (by dsimp only; rw [hrng.2.1, List.length_nil]; omega) (by dsimp only; omega) rfl
    dsimp only at htransfer
    rw [hrng.2.1, List.append_nil] at htransfer
    have htwo : (step zlib uncompress desired)^[2] c =
        ⟨{ rng with rpt := 0, outBuffer := [] }, c.buf, .fetch⟩ := by
      rw [Function.iterate_succ_apply, Function.iterate_one]
      rw [step_submit hcontrol, hbreak, step_transfer rfl]
      exact htransfer
    cases hrefill : (feedOf rng).refill uncompress with
    | none =>
      obtain ⟨code, rest, -, hfetch⟩ := @stepFetch_none _ uncompress
        ⟨{ rng with rpt := 0, outBuffer := [] }, c.buf, .fetch⟩ hrefill
      refine ⟨3, Or.inl (Or.inl ⟨code, ?_⟩)⟩
      rw [Function.iterate_succ_apply', htwo]
      exact congrArg Call.control hfetch
    | some f =>
      have hfetch := @stepFetch_some _ uncompress
        ⟨{ rng with rpt := 0, outBuffer := [] }, c.buf, .fetch⟩ f hrefill
      have hthree := (Function.iterate_succ_apply' (step zlib uncompress desired) 2 c).trans
        ((congrArg (step zlib uncompress desired) htwo).trans hfetch)
      refine ⟨3, Or.inr ?_⟩
      rw [hthree]
      refine ⟨rfl, hfeed ▸ hrefill, ?_⟩
      have hleft := inputLeft_refill hrefill
      have hkept := hrng.2.2
      simp only [inputLeft, feedOf] at hleft hkept
      simp only [variant, hcontrol, inputLeft]
      omega
  · have hmore : ((feedOf c.rng).after zlib).input ≠ [] := by rwa [hsame]
    refine ⟨1, Or.inr ?_⟩
    rw [Function.iterate_one, step_submit hcontrol, stepSubmit_again hout hgoes hnone.2 hmore]
    refine ⟨hcontrol, refill_of_input hmore, Nat.le_of_eq ?_⟩
    simp only [variant, hcontrol, inputLeft, GzipFilterRuntime.submitted, hnone.1, List.drop_zero]

/-- A call of zlib which makes progress is reached, or the end of the call of the filter. -/
theorem stalls_end (moderate : Moderate desired) (n : Nat) {c : Call ζ}
    (hcontrol : c.control = .submit) (within : Within desired delivered c)
    (moves : ¬ ((Feed.next zlib uncompress)^[n] (feedOf c.rng)).Stalled zlib uncompress) :
    ∃ k, ((step zlib uncompress desired)^[k] c).Final ∨
      variant desired ((step zlib uncompress desired)^[k] c) < variant desired c := by
  have hpoint := within.2
  rw [hcontrol] at hpoint
  obtain ⟨-, -, hout, -⟩ := hpoint
  by_cases stalls : Stalls zlib c.rng
  · obtain ⟨m, hfinal | ⟨hcontrol', hrefill, hle⟩⟩ :=
      stall_phase uncompress moderate.2 hcontrol within stalls
    · exact ⟨m, Or.inl hfinal⟩
    · obtain ⟨hnone, hgoes⟩ := (stalls_iff hout).mp stalls
      cases n with
      | zero =>
        have hmore : ((feedOf c.rng).after zlib).refill uncompress ≠ none := by
          rw [hrefill]
          exact Option.some_ne_none _
        exact absurd ⟨hnone, hgoes, hmore⟩ moves
      | succ n =>
        have hnext : (feedOf c.rng).next zlib uncompress =
            feedOf ((step zlib uncompress desired)^[m] c).rng := by
          rw [Feed.next, hrefill, Option.getD_some]
        rw [Function.iterate_succ_apply, hnext] at moves
        obtain ⟨k, hk⟩ := stalls_end moderate n hcontrol' (iterate_within moderate within m) moves
        rw [← Function.iterate_add_apply] at hk
        exact ⟨k + m, hk.imp id fun hless => Nat.lt_of_lt_of_le hless hle⟩
  · refine ⟨1, ?_⟩
    rw [Function.iterate_one, step_submit hcontrol]
    exact stepSubmit_decreases hcontrol within stalls

/-- A whole call is a run with an invariant and a variant. -/
theorem call_ends (sound : Sound zlib uncompress start) (moderate : Moderate desired)
    (within : Within desired delivered c) (linked : Linked zlib uncompress start c) :
    ∃ n, ((step zlib uncompress desired)^[n] c).Final := by
  let Inv (c : Call ζ) : Prop := Within desired delivered c ∧ Linked zlib uncompress start c
  have keep : ∀ c, Inv c → ∀ n, Inv ((step zlib uncompress desired)^[n] c) := fun c inv n =>
    ⟨iterate_within moderate inv.1 n, iterate_linked sound moderate inv.1 inv.2 n⟩
  have phase : ∀ c, Inv c → ¬ c.Final → ∃ n, Inv ((step zlib uncompress desired)^[n] c) ∧
      (((step zlib uncompress desired)^[n] c).Final ∨
        variant desired ((step zlib uncompress desired)^[n] c) < variant desired c) := by
    intro c inv running
    have ends : ∃ n, ((step zlib uncompress desired)^[n] c).Final ∨
        variant desired ((step zlib uncompress desired)^[n] c) < variant desired c := by
      cases hcontrol : c.control with
      | transfer =>
        refine ⟨1, ?_⟩
        rw [Function.iterate_one, step_transfer hcontrol]
        exact stepTransfer_decreases moderate.2 hcontrol inv.1
      | fetch =>
        refine ⟨1, ?_⟩
        rw [Function.iterate_one, step_fetch hcontrol]
        exact stepFetch_decreases hcontrol
      | submit =>
        have hpoint := inv.1.2
        rw [hcontrol] at hpoint
        obtain ⟨g, fed, hrefill⟩ := inv.2.submitting hpoint.2.1 hcontrol
        obtain ⟨n, moves⟩ := sound.moves _ _ _ fed hrefill
        exact stalls_end moderate n hcontrol inv.1 moves
      | done ret => exact absurd (Or.inl ⟨ret, hcontrol⟩) running
      | memoryFault => exact absurd (Or.inr hcontrol) running
    obtain ⟨n, hn⟩ := ends
    exact ⟨n, keep c inv n, hn⟩
  have first : Inv c := ⟨within, linked⟩
  obtain ⟨n, hfinal, -⟩ := exists_final_of_phases phase first
  exact ⟨n, hfinal⟩

theorem Sound.readsRight {strm : ζ} {reads : List (Except ErrorCode Bytes)}
    (sound : Sound zlib uncompress ⟨strm, [], false, reads⟩) :
    ReadsRight zlib uncompress strm reads := by
  intro delivered rng desired session moderate
  obtain ⟨between, failed, fed⟩ := session_between sound session
  have within := startCall_within moderate between
  have linked := startCall_linked failed fed
  obtain ⟨n, hfinal⟩ := call_ends sound moderate within linked
  have hwithin := @iterate_within _ zlib uncompress _ _ moderate _ within n
  have hlinked := iterate_linked sound moderate within linked n
  generalize hc : (step zlib uncompress desired)^[n] (startCall rng) = c at *
  rcases hfinal with ⟨ret, hdone⟩ | hfault
  · obtain ⟨hfinished, hnone⟩ := finished_between hwithin hlinked hdone
    refine ⟨n, ret, c, hc, hdone, ?_⟩
    obtain ⟨-, hpoint⟩ := hwithin
    rw [hdone] at hpoint
    obtain ⟨hle, ⟨hret, hend⟩ | ⟨hneg, -⟩⟩ := hpoint
    · refine ⟨by omega, fun _ => hret, hfinished.account, hnone, fun hzero => ?_⟩
      have hbuf : c.buf = [] := List.eq_nil_of_length_eq_zero (by omega)
      obtain ⟨herrorRet, hpending⟩ := hend hbuf
      exact ⟨hfinished.ended herrorRet, hpending⟩
    · exact ⟨by omega, fun h => absurd hneg (Int.not_lt.mpr h), hfinished.account, hnone,
        fun h => absurd hneg (by omega)⟩
  · obtain ⟨-, hpoint⟩ := hwithin
    rw [hfault] at hpoint
    exact hpoint.elim

end Sufficient

section Necessary

variable {zlib : Zlib ζ} {uncompress : Bool} {desired : Nat} {delivered : Bytes} {c : Call ζ}
variable {strm : ζ} {reads : List (Except ErrorCode Bytes)} {g f : Feed ζ} {out : Bytes}

/-- A point in a call, after calls which have delivered bytes. -/
structure Reached (zlib : Zlib ζ) (uncompress : Bool) (strm : ζ)
    (reads : List (Except ErrorCode Bytes)) (delivered : Bytes) (desired : Nat) (c : Call ζ) :
    Prop where
  moderate : Moderate desired
  within : Within desired delivered c
  run : ∃ rng n, Session zlib uncompress (gzipRunningNew strm reads) delivered rng ∧
    (step zlib uncompress desired)^[n] (startCall rng) = c

theorem Reached.step (reached : Reached zlib uncompress strm reads delivered desired c) :
    Reached zlib uncompress strm reads delivered desired (step zlib uncompress desired c) := by
  obtain ⟨moderate, within, rng, n, session, hrun⟩ := reached
  refine ⟨moderate, step_within moderate.2 within, rng, n + 1, session, ?_⟩
  rw [Function.iterate_succ_apply', hrun]

/-- The call is going to get input for zlib, or it is going to submit what is left of it. -/
structure Ready (g : Feed ζ) (out : Bytes) (c : Call ζ) : Prop where
  control : c.control = .fetch ∨ c.control = .submit ∧ g.input ≠ []
  feed : feedOf c.rng = g
  putOut : c.rng.putOut = out

/-- zlib is going to be called. -/
structure Submits (f : Feed ζ) (out buf : Bytes) (c : Call ζ) : Prop where
  control : c.control = .submit
  feed : feedOf c.rng = f
  putOut : c.rng.putOut = out
  buf : c.buf = buf

theorem Ready.submits (reached : Reached zlib uncompress strm reads delivered desired c)
    (ready : Ready g out c) (hrefill : g.refill uncompress = some f) :
    ∃ c', Reached zlib uncompress strm reads delivered desired c' ∧ Submits f out c.buf c' := by
  obtain ⟨hcontrol, hfeed, hput⟩ := ready
  rw [← hfeed] at hrefill
  rcases hcontrol with hfetch | ⟨hsubmit, hinput⟩
  · refine ⟨_, reached.step, ?_⟩
    rw [step_fetch hfetch, stepFetch_some hrefill]
    exact ⟨rfl, rfl, hput, rfl⟩
  · rw [← hfeed] at hinput
    rw [refill_of_input hinput] at hrefill
    exact ⟨c, reached, hsubmit, Option.some.inj hrefill, hput, rfl⟩

theorem Reached.at_submit (reached : Reached zlib uncompress strm reads delivered desired c)
    (hcontrol : c.control = .submit) :
    c.buf.length < desired ∧ 0 < c.rng.errorRet ∧ c.rng.outBuffer = [] ∧ c.rng.rpt = 0 := by
  have hpoint := reached.within.2
  rw [hcontrol] at hpoint
  exact hpoint

theorem pending_submitted {rng : GzipFilterRuntime ζ} (a : ZAnswer ζ) (hout : rng.outBuffer = [])
    (hrpt : rng.rpt = 0) : (rng.submitted a).pending = a.output := by
  rw [GzipFilterRuntime.submitted, GzipFilterRuntime.pending, hout, hrpt]
  rfl

/-- There is room for what zlib puts out, so that the call goes on. -/
theorem Submits.goes_on {buf : Bytes}
    (reached : Reached zlib uncompress strm reads delivered desired c)
    (submits : Submits f out buf c) (hgoes : f.GoesOn zlib)
    (hroom : buf.length + (f.answer zlib).output.length < desired) :
    ∃ c', Reached zlib uncompress strm reads delivered desired c' ∧
      Ready (f.after zlib) (out ++ (f.answer zlib).output) c' ∧
      c'.buf = buf ++ (f.answer zlib).output := by
  obtain ⟨hcontrol, rfl, rfl, rfl⟩ := submits
  obtain ⟨hless, herror, hout, hrpt⟩ := reached.at_submit hcontrol
  have hnext := reached.step
  rw [step_submit hcontrol] at hnext
  by_cases hbreak : ((feedOf c.rng).answer zlib).output ≠ [] ∨
      ((feedOf c.rng).after zlib).input = []
  · rw [stepSubmit_break hout hgoes hbreak] at hnext
    have hpending := pending_submitted ((feedOf c.rng).answer zlib) hout hrpt
    have hfetch := hnext.step
    rw [step_transfer rfl, stepTransfer_all reached.moderate.2 _ _ rfl] at hfetch
    · refine ⟨_, hfetch, ⟨Or.inl rfl, rfl, rfl⟩, ?_⟩
      dsimp only
      rw [hpending]
    · dsimp only
      rw [hpending]
      exact hroom
    · exact Int.ne_of_gt herror
  · obtain ⟨hnone, hmore⟩ := not_or.mp hbreak
    rw [stepSubmit_again hout hgoes (not_not.mp hnone) hmore] at hnext
    refine ⟨_, hnext, ⟨Or.inr ⟨hcontrol, hmore⟩, rfl, rfl⟩, ?_⟩
    rw [not_not.mp hnone, List.append_nil]

/-- There is just as much room as zlib puts out, so that the call ends. -/
theorem Submits.fills {buf : Bytes}
    (reached : Reached zlib uncompress strm reads delivered desired c)
    (submits : Submits f out buf c) (hgoes : f.GoesOn zlib) (hsome : (f.answer zlib).output ≠ [])
    (hroom : buf.length + (f.answer zlib).output.length = desired) :
    ∃ delivered' rng, Session zlib uncompress (gzipRunningNew strm reads) delivered' rng ∧
      Between delivered' rng ∧ feedOf rng = f.after zlib ∧
      rng.putOut = out ++ (f.answer zlib).output ∧ 0 < rng.errorRet ∧ rng.pending = [] := by
  obtain ⟨hcontrol, rfl, rfl, rfl⟩ := submits
  obtain ⟨hless, herror, hout, hrpt⟩ := reached.at_submit hcontrol
  have hnext := reached.step
  rw [step_submit hcontrol, stepSubmit_break hout hgoes (Or.inl hsome)] at hnext
  have hpending := pending_submitted ((feedOf c.rng).answer zlib) hout hrpt
  have hfull := hnext.step
  rw [step_transfer rfl, stepTransfer_full reached.moderate.2 _ rfl] at hfull
  · obtain ⟨moderate, within, rng, n, session, hrun⟩ := hfull
    have hnonneg : ¬ (desired : Int) < 0 := Int.not_lt.mpr (Int.natCast_nonneg _)
    refine ⟨_, _, session.call moderate hrun rfl, ?_, rfl, rfl, herror, ?_⟩
    · rw [returned, if_neg hnonneg]
      exact within.1
    · apply List.drop_eq_nil_of_le
      dsimp only
      rw [GzipFilterRuntime.pending, List.length_drop]
      omega
  · dsimp only
    rw [hpending]
    exact hroom

/-- All bytes are delivered, so that the next call wants more of them. -/
theorem ready_of_session {rng : GzipFilterRuntime ζ}
    (session : Session zlib uncompress (gzipRunningNew strm reads) delivered rng)
    (between : Between delivered rng) (herror : 0 < rng.errorRet) (hnone : rng.pending = [])
    (moderate : Moderate desired) :
    ∃ c, Reached zlib uncompress strm reads delivered desired c ∧
      Ready (feedOf rng) rng.putOut c ∧ c.buf = [] := by
  have hstart : startCall rng = ⟨rng, [], .transfer⟩ := by
    rw [startCall, if_neg (by omega), if_neg (by omega)]
  have reached : Reached zlib uncompress strm reads delivered desired (startCall rng) :=
    ⟨moderate, startCall_within moderate between, rng, 0, session, rfl⟩
  rw [hstart] at reached
  have hfetch := reached.step
  rw [step_transfer rfl, stepTransfer_all moderate.2 _ (Int.ne_of_gt herror) rfl] at hfetch
  · refine ⟨_, hfetch, ⟨Or.inl rfl, rfl, rfl⟩, ?_⟩
    dsimp only
    rw [hnone]
    rfl
  · dsimp only
    rw [hnone]
    exact moderate.1

theorem moderate_of_le {room : Nat} (hpos : 0 < room) (hle : room ≤ 4096) : Moderate room :=
  ⟨hpos, by omega⟩

/-- Each point of the feeding is reached by calls each of which wants what zlib puts out next. -/
theorem Fed.ready (fed : Fed zlib uncompress ⟨strm, [], false, reads⟩ g out) {room : Nat}
    (hpos : 0 < room) (hle : room ≤ 4096) :
    ∃ delivered desired c, Reached zlib uncompress strm reads delivered desired c ∧
      Ready g out c ∧ c.buf.length + room = desired := by
  induction fed generalizing room with
  | start =>
    obtain ⟨c, reached, ready, hbuf⟩ := ready_of_session
      (.opened : Session zlib uncompress _ _ _) (between_opened strm reads) Int.one_pos rfl
      (moderate_of_le hpos hle)
    exact ⟨_, room, c, reached, ready, by rw [hbuf, List.length_nil, Nat.zero_add]⟩
  | @next g f out fed hrefill hgoes ih =>
    by_cases hnone : (f.answer zlib).output = []
    · obtain ⟨delivered, desired, c, reached, ready, hroom⟩ := ih hpos hle
      obtain ⟨c', reached', submits⟩ := ready.submits reached hrefill
      obtain ⟨c'', reached'', ready'', hbuf⟩ := submits.goes_on reached' hgoes
        (by rw [hnone, List.length_nil]; omega)
      refine ⟨delivered, desired, c'', reached'', ready'', ?_⟩
      rw [hbuf, hnone, List.append_nil]
      exact hroom
    · have hsome := List.length_pos_iff.mpr hnone
      have houtput : (f.answer zlib).output.length ≤ 2048 := zlib.output_le _ _ _ _
      obtain ⟨delivered, desired, c, reached, ready, hroom⟩ := ih hsome (by omega)
      obtain ⟨c', reached', submits⟩ := ready.submits reached hrefill
      obtain ⟨delivered', rng, session, between, hfeed, hput, herror, hpending⟩ :=
        submits.fills reached' hgoes hnone hroom
      obtain ⟨c'', reached'', ready'', hbuf⟩ :=
        ready_of_session session between herror hpending (moderate_of_le hpos hle)
      rw [hfeed, hput] at ready''
      exact ⟨delivered', room, c'', reached'', ready'', by rw [hbuf, List.length_nil, Nat.zero_add]⟩

/-- If zlib has put out something, then a call gets there which has already stored bytes. -/
theorem Fed.ready_with_bytes (fed : Fed zlib uncompress ⟨strm, [], false, reads⟩ g out)
    (hsome : out ≠ []) :
    ∃ delivered desired c, Reached zlib uncompress strm reads delivered desired c ∧
      Ready g out c ∧ c.buf ≠ [] ∧ c.buf.length < desired := by
  induction fed with
  | start => exact absurd rfl hsome
  | @next g f out fed hrefill hgoes ih =>
    by_cases hnone : (f.answer zlib).output = []
    · rw [hnone, List.append_nil] at hsome
      obtain ⟨delivered, desired, c, reached, ready, hbuf, hless⟩ := ih hsome
      obtain ⟨c', reached', submits⟩ := ready.submits reached hrefill
      obtain ⟨c'', reached'', ready'', hbuf''⟩ := submits.goes_on reached' hgoes
        (by rw [hnone, List.length_nil]; omega)
      refine ⟨delivered, desired, c'', reached'', ready'', ?_⟩
      rw [hbuf'', hnone, List.append_nil]
      exact ⟨hbuf, hless⟩
    · have houtput : (f.answer zlib).output.length ≤ 2048 := zlib.output_le _ _ _ _
      obtain ⟨delivered, desired, c, reached, ready, hroom⟩ :=
        fed.ready (Nat.succ_pos (f.answer zlib).output.length) (by omega)
      obtain ⟨c', reached', submits⟩ := ready.submits reached hrefill
      obtain ⟨c'', reached'', ready'', hbuf⟩ := submits.goes_on reached' hgoes (by omega)
      refine ⟨delivered, desired, c'', reached'', ready'', ?_⟩
      rw [hbuf, List.length_append]
      exact ⟨fun h => hnone (List.append_eq_nil_iff.mp h).2, by omega⟩

/-- A call which fails has not stored anything, and nothing is pending. -/
theorem ReadsRight.failed (right : ReadsRight zlib uncompress strm reads)
    (reached : Reached zlib uncompress strm reads delivered desired c) {ret : Int}
    (hdone : c.control = .done ret) (hneg : ret < 0) : c.buf = [] ∧ c.rng.pending = [] := by
  obtain ⟨moderate, within, rng, n, session, hrun⟩ := reached
  obtain ⟨m, ret', c', hrun', hdone', -, -, haccount, hnone, -⟩ :=
    right delivered rng desired session moderate
  have hsame : c = c' := by
    rw [← hrun, ← hrun']
    apply iterate_eq_of_fixed
    · rw [hrun, step_done hdone]
    · rw [hrun', step_done hdone']
  subst hsame
  obtain rfl : ret = ret' := Control.done.inj (hdone.symm.trans hdone')
  have hwithin := within.1.account
  rw [hnone hneg, returned, if_pos hneg, ← hwithin, hnone hneg] at haccount
  simp only [List.append_nil] at haccount
  exact ⟨List.self_eq_append_right.mp haccount, hnone hneg⟩

theorem ReadsRight.starved (right : ReadsRight zlib uncompress strm reads)
    (fed : Fed zlib uncompress ⟨strm, [], false, reads⟩ g out)
    (hrefill : g.refill uncompress = none) : out = [] := by
  by_contra hsome
  obtain ⟨delivered, desired, c, reached, ready, hbuf, -⟩ := fed.ready_with_bytes hsome
  have hfetch : c.control = .fetch :=
    ready.control.resolve_right fun h => h.2 (input_of_refill_none hrefill)
  rw [← ready.feed] at hrefill
  obtain ⟨code, rest, hneg, hstep⟩ := stepFetch_none hrefill
  have hnext := reached.step
  rw [step_fetch hfetch, hstep] at hnext
  exact hbuf (right.failed hnext rfl hneg).1

theorem ReadsRight.refused (right : ReadsRight zlib uncompress strm reads)
    (fed : Fed zlib uncompress ⟨strm, [], false, reads⟩ g out)
    (hrefill : g.refill uncompress = some f) (hrefused : (f.answer zlib).Refused) :
    out = [] ∧ (f.answer zlib).output = [] := by
  have hfails : ∀ {delivered desired c}, Reached zlib uncompress strm reads delivered desired c →
      Ready g out c → c.buf = [] ∧ (f.answer zlib).output = [] := by
    intro delivered desired c reached ready
    obtain ⟨c', reached', hcontrol, hfeed, -, hbuf⟩ := ready.submits reached hrefill
    obtain ⟨-, -, hout, hrpt⟩ := reached'.at_submit hcontrol
    have hnext := reached'.step
    rw [← hfeed] at hrefused
    rw [step_submit hcontrol, stepSubmit_refused hout hrefused] at hnext
    obtain ⟨hbuf', hpending⟩ := right.failed hnext rfl isoZlibComprErr_neg
    rw [← hbuf, ← hfeed]
    exact ⟨hbuf', (pending_submitted _ hout hrpt).symm.trans hpending⟩
  constructor
  · by_contra hsome
    obtain ⟨delivered, desired, c, reached, ready, hbuf, -⟩ := fed.ready_with_bytes hsome
    exact hbuf (hfails reached ready).1
  · obtain ⟨delivered, desired, c, reached, ready, -⟩ := fed.ready Nat.one_pos (by decide)
    exact (hfails reached ready).2

/-- A point of a call from which zlib stays without progress for ever. -/
def Hangs (zlib : Zlib ζ) (uncompress : Bool) (c : Call ζ) : Prop :=
  (c.control = .submit ∧
    Always (Feed.next zlib uncompress) (Feed.Stalled zlib uncompress) (feedOf c.rng)) ∨
  ((c.control = .transfer ∧ c.rng.pending = [] ∧ 0 < c.rng.errorRet ∨ c.control = .fetch) ∧
    ∃ f, (feedOf c.rng).refill uncompress = some f ∧
      Always (Feed.next zlib uncompress) (Feed.Stalled zlib uncompress) f)

theorem Hangs.step (reached : Reached zlib uncompress strm reads delivered desired c)
    (hangs : Hangs zlib uncompress c) :
    Hangs zlib uncompress (GzipConvert.step zlib uncompress desired c) := by
  rcases hangs with ⟨hcontrol, stalled⟩ | ⟨⟨hcontrol, hnone, herror⟩ | hcontrol, f, hrefill, stalled⟩
  · obtain ⟨hless, herror, hout, hrpt⟩ := reached.at_submit hcontrol
    obtain ⟨hnone, hgoes, hmore⟩ := stalled.head
    obtain ⟨f, hf⟩ := Option.ne_none_iff_exists'.mp hmore
    have htail := stalled.tail
    rw [Feed.next, hf, Option.getD_some] at htail
    rw [step_submit hcontrol]
    by_cases hbreak : ((feedOf c.rng).answer zlib).output ≠ [] ∨
        ((feedOf c.rng).after zlib).input = []
    · rw [stepSubmit_break hout hgoes hbreak]
      refine Or.inr ⟨Or.inl ⟨rfl, ?_, herror⟩, f, hf, htail⟩
      dsimp only
      rw [pending_submitted _ hout hrpt]
      exact hnone.2
    · obtain ⟨hempty, hinput⟩ := not_or.mp hbreak
      rw [stepSubmit_again hout hgoes (not_not.mp hempty) hinput]
      rw [refill_of_input hinput] at hf
      rw [← Option.some.inj hf] at htail
      exact Or.inl ⟨hcontrol, htail⟩
  · have hpoint := reached.within.2
    rw [hcontrol] at hpoint
    rw [step_transfer hcontrol, stepTransfer_all reached.moderate.2
      (by rw [hnone]; exact hpoint.1) (Int.ne_of_gt herror) hcontrol]
    exact Or.inr ⟨Or.inr rfl, f, hrefill, stalled⟩
  · rw [step_fetch hcontrol, stepFetch_some hrefill]
    exact Or.inl ⟨rfl, stalled⟩

theorem Hangs.running (hangs : Hangs zlib uncompress c) : ¬ c.Final := by
  have hcontrol : c.control = .submit ∨ c.control = .transfer ∨ c.control = .fetch := by
    rcases hangs with ⟨h, -⟩ | ⟨⟨h, -⟩ | h, -⟩
    · exact Or.inl h
    · exact Or.inr (Or.inl h)
    · exact Or.inr (Or.inr h)
  rintro (⟨ret, h⟩ | h)
  all_goals
    rw [h] at hcontrol
    rcases hcontrol with h | h | h <;> exact Control.noConfusion h

theorem ReadsRight.moves (right : ReadsRight zlib uncompress strm reads)
    (fed : Fed zlib uncompress ⟨strm, [], false, reads⟩ g out)
    (hrefill : g.refill uncompress = some f) :
    ∃ n, ¬ ((Feed.next zlib uncompress)^[n] f).Stalled zlib uncompress := by
  by_contra hstalled
  simp only [not_exists, not_not] at hstalled
  obtain ⟨delivered, desired, c, reached, ready, -⟩ := fed.ready Nat.one_pos (by decide)
  obtain ⟨c', reached', hcontrol, hfeed, -, -⟩ := ready.submits reached hrefill
  have hangs : Hangs zlib uncompress c' := by
    refine Or.inl ⟨hcontrol, ?_⟩
    rw [hfeed]
    exact hstalled
  let Inv (c : Call ζ) : Prop :=
    Reached zlib uncompress strm reads delivered desired c ∧ Hangs zlib uncompress c
  have keep : ∀ c, Inv c → Inv (step zlib uncompress desired c) :=
    fun c inv => ⟨inv.1.step, inv.2.step inv.1⟩
  have running : ∀ c, Inv c → ¬ c.Final := fun c inv => inv.2.running
  have never := never_final keep running ⟨reached', hangs⟩
  obtain ⟨moderate, -, rng, m, session, hrun⟩ := reached'
  obtain ⟨n, ret, c'', hrun', hdone, -⟩ := right delivered rng desired session moderate
  have hend : (step zlib uncompress desired)^[n] c' = c'' := by
    rw [← hrun, ← Function.iterate_add_apply, Nat.add_comm, Function.iterate_add_apply, hrun',
      Function.iterate_fixed (step_done hdone)]
  exact never n (Or.inl ⟨ret, by rw [hend, hdone]⟩)

/-- Calls of gzip_stream_convert() do what they shall do, whatever the read sizes are, if and only
if zlib moves on and does not fail after it has put out something. -/
theorem gzip_right_iff (zlib : Zlib ζ) (uncompress : Bool) (strm : ζ)
    (reads : List (Except ErrorCode Bytes)) :
    ReadsRight zlib uncompress strm reads ↔ Sound zlib uncompress ⟨strm, [], false, reads⟩ :=
  ⟨fun right => ⟨fun _ _ _ => right.moves, fun _ _ => right.starved, fun _ _ _ => right.refused⟩,
    Sound.readsRight⟩

end Necessary

section Cases

def gzipHeader : Bytes := [0x1f, 0x8b, 8, 0, 0, 0, 0, 0, 0, 3]

/-- A compressed block with the letter a, its CRC and its length. -/
def gzipRest : Bytes := [0x4b, 4, 0, 0x43, 0xbe, 0xb7, 0xe8, 1, 0, 0, 0]

/-- deflate() with the letter a as input: the header is put out when the letter is consumed, all
the rest when the end of input is told. -/
def letterDeflate : Zlib Nat where
  convert z input availOut finish :=
    if z = 0 ∧ input = [0x61] ∧ finish = false ∧ 10 ≤ availOut then ⟨.ok, 1, gzipHeader, 1⟩
    else if z = 1 ∧ input = [] ∧ finish = true ∧ 11 ≤ availOut then ⟨.streamEnd, 0, gzipRest, 2⟩
    else ⟨.streamError, 0, [], z⟩
  consumed_le z input availOut finish := by
    split
    · rename_i h
      rw [h.2.1]
      exact Nat.le_refl 1
    · split <;> exact Nat.zero_le _
  output_le z input availOut finish := by
    split
    · rename_i h
      exact h.2.2.2
    · split
      · rename_i h
        exact h.2.2.2
      · exact Nat.zero_le _

/-- Two calls of deflate() are enough. -/
theorem letter_fed {g : Feed Nat} {out : Bytes}
    (fed : Fed letterDeflate false ⟨0, [], false, [.ok [0x61]]⟩ g out) :
    g = ⟨0, [], false, [.ok [0x61]]⟩ ∧ out = [] ∨ g = ⟨1, [], false, []⟩ ∧ out = gzipHeader := by
  induction fed with
  | start => exact Or.inl ⟨rfl, rfl⟩
  | next _ hrefill hgoes ih =>
    rcases ih with ⟨rfl, rfl⟩ | ⟨rfl, rfl⟩
    · obtain rfl := Option.some.inj hrefill
      exact Or.inr ⟨rfl, rfl⟩
    · obtain rfl := Option.some.inj hrefill
      exact absurd ⟨rfl, Or.inr rfl⟩ hgoes.2

theorem letter_sound : Sound letterDeflate false ⟨0, [], false, [.ok [0x61]]⟩ := by
  refine ⟨fun g out f fed hrefill => ⟨0, ?_⟩, fun g out fed hrefill => ?_,
    fun g out f fed hrefill hrefused => ?_⟩
  · rintro ⟨⟨-, hnone⟩, -⟩
    rcases letter_fed fed with ⟨rfl, -⟩ | ⟨rfl, -⟩
    · obtain rfl := Option.some.inj hrefill
      exact absurd hnone (by decide)
    · obtain rfl := Option.some.inj hrefill
      exact absurd hnone (by decide)
  · rcases letter_fed fed with ⟨rfl, -⟩ | ⟨rfl, -⟩
    · exact absurd hrefill (Option.some_ne_none _)
    · exact absurd hrefill (Option.some_ne_none _)
  · rcases letter_fed fed with ⟨rfl, -⟩ | ⟨rfl, -⟩
    · obtain rfl := Option.some.inj hrefill
      rcases hrefused with h | h <;> exact absurd h (by decide)
    · obtain rfl := Option.some.inj hrefill
      rcases hrefused with h | h <;> exact absurd h (by decide)

theorem letter_compressed : ReadsRight letterDeflate false 0 [.ok [0x61]] :=
  (gzip_right_iff letterDeflate false 0 [.ok [0x61]]).mpr letter_sound

/-- inflate() with input which does not begin by the two bytes of the gzip header: they are
consumed before they are found to be wrong. -/
def headerCheck : Zlib Bool where
  convert
    | true, _, _, _ => ⟨.dataError, 0, [], true⟩
    | false, _ :: _ :: _, _, _ => ⟨.dataError, 2, [], true⟩
    | false, _, _, _ => ⟨.bufError, 0, [], false⟩
  consumed_le z input _ _ := by
    split
    · exact Nat.zero_le _
    · exact Nat.le_add_left 2 _
    · exact Nat.zero_le _
  output_le z input _ _ := by split <;> exact Nat.zero_le _

theorem not_final_of_control {c : Call ζ}
    (hc : c.control = .transfer ∨ c.control = .fetch ∨ c.control = .submit) : ¬ c.Final := by
  rintro (⟨ret, h⟩ | h)
  all_goals
    rw [h] at hc
    simp at hc

/-- The third byte of a file of zeros keeps the inner loop running. -/
theorem inflate_zeros_never_ends :
    ¬ ∀ (zlib : Zlib Bool) (uncompress strm : Bool) (reads : List (Except ErrorCode Bytes)),
      ReadsRight zlib uncompress strm reads := by
  intro claim
  obtain ⟨n, ret, c, hrun, hdone, -⟩ :=
    claim headerCheck true false [.ok [0, 0, 0]] [] _ 2048 .opened (by decide)
  have running : Always (step headerCheck true 2048) (fun c => ¬ c.Final)
      (startCall (gzipRunningNew false [.ok [0, 0, 0]])) := by
    refine .cons (not_final_of_control (by decide)) ?_
    refine .cons (not_final_of_control (by decide)) ?_
    refine .cons (not_final_of_control (by decide)) ?_
    exact .of_fixed rfl (not_final_of_control (by decide))
  exact running n (hrun ▸ Or.inl ⟨ret, hdone⟩)

end Cases

end GzipFeeding
