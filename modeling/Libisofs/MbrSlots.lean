import Libisofs.Lib.Bytes
import Libisofs.Lib.Slots
import Libisofs.RewriteMaps

/-!
# Partitions in the Master Boot Record

Requests get registered by iso_quick_mbr_entry(). When iso_write_mbr() has given sizes to
those which have none, it distributes them to the four slots of the partition table: first
the ones which desire a particular slot, and then the others.
-/

namespace MbrSlots

open ByteBuffers PartitionRequests ApmMbr RewriteMaps Slots

def isoMbrEntrySlotIsFree (reqArray : List MbrPartitionRequest) (slot : Int) : Int :=
  if slot < 0 ∨ slot > isoMbrEntriesMax then -1
  else if slot = 0 then 1
  else if reqArray.any fun r => r.desiredSlot = slot then 0
  else 1

def isoRegisterMbrEntry (reqArray : List MbrPartitionRequest) (req : MbrPartitionRequest) :
    Except BootError (List MbrPartitionRequest) :=
  if isoMbrEntriesMax ≤ reqArray.length then .error .tooManyMbr else .ok (reqArray ++ [req])

/-- A desired slot which does not exist gets ignored. -/
def isoQuickMbrEntry (reqArray : List MbrPartitionRequest) (req : MbrPartitionRequest) :
    Except BootError (List MbrPartitionRequest) :=
  let ret := isoMbrEntrySlotIsFree reqArray req.desiredSlot
  if ret < 0 then isoRegisterMbrEntry reqArray { req with desiredSlot := 0 }
  else if ret = 0 then .error .mbrCollision
  else isoRegisterMbrEntry reqArray req

/-- The lists of requests which can come into being. -/
inductive Registered : List MbrPartitionRequest → Prop where
  | none : Registered []
  | entry {reqArray reqArray' : List MbrPartitionRequest} {req : MbrPartitionRequest} :
    Registered reqArray → isoQuickMbrEntry reqArray req = .ok reqArray' → Registered reqArray'

/-- Head, sector with the high bits of the cylinder, and cylinder. -/
def chsBytes (chs : Chs) : List UInt8 :=
  [UInt8.ofNat chs.head, UInt8.ofNat (chs.sec ||| (chs.cyl &&& 0x300) >>> 2),
    UInt8.ofNat (chs.cyl &&& 0xff)]

def entryBytes (e : MbrEntry) : List UInt8 :=
  e.statusByte :: chsBytes e.startChs ++ e.typeByte :: chsBytes e.endChs ++
    toLsb 4 e.startLba ++ toLsb 4 e.sectors

def slotBytes : Option MbrEntry → List UInt8
  | none => List.replicate 16 0
  | some e => entryBytes e

/-- The buffer of the System Area after the partition table was written to it. Each entry
brings the signature with it. -/
def writeSlots (slots : List (Option MbrEntry)) (buf : Buffer) : Buffer := fun i =>
  if 446 ≤ i ∧ i < 510 then
    (slotBytes (slots.getD ((i - 446) / 16) none)).getD ((i - 446) % 16) 0
  else if i = 510 ∧ slots.any Option.isSome then 0x55
  else if i = 511 ∧ slots.any Option.isSome then 0xaa
  else buf i

/-- What iso_write_mbr() does to the buffer. -/
def mbrBuffer (t : Ecma119Image) (imgBlocks : UInt32) (buf : Buffer) : Buffer :=
  match isoWriteMbr t imgBlocks with
  | .error _ => buf
  | .ok out => if t.mbrReq = [] then buf else writeSlots out.slots buf

section Registering

variable {reqArray reqArray' : List MbrPartitionRequest} {req : MbrPartitionRequest}

/-- What is known about registered requests. -/
structure Admitted (reqs : List MbrPartitionRequest) : Prop where
  few : reqs.length ≤ 4
  slots : ∀ r ∈ reqs, 0 ≤ r.desiredSlot ∧ r.desiredSlot ≤ 4
  distinct : reqs.Pairwise fun p r => p.desiredSlot = r.desiredSlot → p.desiredSlot = 0

theorem isoRegisterMbrEntry_ok (h : isoRegisterMbrEntry reqArray req = .ok reqArray') :
    reqArray.length < 4 ∧ reqArray' = reqArray ++ [req] := by
  rw [isoRegisterMbrEntry] at h
  split at h
  next => cases h
  next hfew =>
    rw [isoMbrEntriesMax] at hfew
    exact ⟨by omega, (Except.ok.inj h).symm⟩

theorem Admitted.concat (h : Admitted reqArray) (hfew : reqArray.length < 4)
    (hslot : 0 ≤ req.desiredSlot ∧ req.desiredSlot ≤ 4)
    (hother : ∀ r ∈ reqArray, r.desiredSlot = req.desiredSlot → r.desiredSlot = 0) :
    Admitted (reqArray ++ [req]) := by
  constructor
  case few =>
    rw [List.length_append, List.length_singleton]
    omega
  case slots =>
    intro r hr
    rcases List.mem_append.mp hr with hold | hnew
    · exact h.slots r hold
    · exact List.mem_singleton.mp hnew ▸ hslot
  case distinct =>
    rw [List.pairwise_append]
    refine ⟨h.distinct, List.pairwise_singleton _ _, fun r hr r' hr' => ?_⟩
    rw [List.mem_singleton.mp hr']
    exact hother r hr

theorem Admitted.quick (h : Admitted reqArray)
    (hquick : isoQuickMbrEntry reqArray req = .ok reqArray') : Admitted reqArray' := by
  simp only [isoQuickMbrEntry] at hquick
  split at hquick
  next =>
    obtain ⟨hfew, rfl⟩ := isoRegisterMbrEntry_ok hquick
    refine h.concat hfew ⟨?_, ?_⟩ fun r _ hsame => hsame
    · exact Int.le_refl 0
    · exact Int.zero_le_ofNat 4
  next hneg =>
    split at hquick
    next => cases hquick
    next hzero =>
      obtain ⟨hfew, rfl⟩ := isoRegisterMbrEntry_ok hquick
      rw [isoMbrEntrySlotIsFree, isoMbrEntriesMax] at hneg hzero
      split at hneg
      next => omega
      next hrange =>
        rw [if_neg hrange] at hzero
        refine h.concat hfew (by omega) fun r hr hsame => ?_
        by_contra hne
        rw [if_neg (hsame ▸ hne)] at hzero
        refine hzero (if_pos ?_)
        exact List.any_eq_true.mpr ⟨r, hr, decide_eq_true hsame⟩

theorem Registered.admitted (h : Registered reqArray) : Admitted reqArray := by
  induction h with
  | none => exact ⟨by decide, by simp, List.Pairwise.nil⟩
  | entry _ hquick ih => exact ih.quick hquick

end Registering

section Adjusting

variable {imgBlocks : UInt32} {prev : Option MbrPartitionRequest} {p r : MbrPartitionRequest}
  {rest reqs adjusted : List MbrPartitionRequest}

/-- The requests with their final sizes. -/
def filled (imgBlocks : UInt32) : List MbrPartitionRequest → List MbrPartitionRequest
  | [] => []
  | r :: rest => fillMbr imgBlocks r rest :: filled imgBlocks rest

/-- The overlap test is passed by all neighbors. -/
def Tolerated (reqs : List MbrPartitionRequest) : Prop :=
  reqs.IsChain fun p r => mbrOverlaps p r = false

/-- The size which a request gets from its successor does not matter for the test. -/
theorem mbrOverlaps_filled_iff :
    mbrOverlaps (fillMbr imgBlocks p (r :: rest)) r = false ↔ mbrOverlaps p r = false := by
  rw [mbrOverlaps_false_iff, mbrOverlaps_false_iff, fillMbr_startBlock]
  refine and_congr_right fun horder => ?_
  rw [fillMbr]
  split
  next => rfl
  next hauto =>
    rw [ne_eq, not_not] at hauto
    have hle : p.startBlock ≤ r.startBlock := by
      rcases horder with hlt | ⟨-, hsame⟩
      · exact UInt64.le_of_lt hlt
      · exact hsame ▸ UInt64.le_refl _
    simp only [nextStart, hauto, UInt64.add_zero, hle, iff_true]
    rw [UInt64.add_comm, UInt64.sub_add_cancel]
    exact UInt64.le_refl _

theorem adjustMbr_eq_filled (hfirst : ∀ p, prev = some p → ∀ r ∈ reqs.head?,
    mbrOverlaps p r = false) (h : Tolerated reqs) :
    adjustMbr imgBlocks prev reqs = .ok (filled imgBlocks reqs) := by
  induction reqs generalizing prev with
  | nil => rfl
  | cons r rest ih =>
    have hnot : ¬ (prev.any fun p => mbrOverlaps p r) = true := by
      cases prev with
      | none => simp
      | some p => simp [hfirst p rfl r rfl]
    have htail : adjustMbr imgBlocks (some (fillMbr imgBlocks r rest)) rest =
        .ok (filled imgBlocks rest) := by
      refine ih ?_ (List.IsChain.of_cons h)
      rintro p hp next hnext
      obtain rfl := Option.some.inj hp
      cases rest with
      | nil => cases hnext
      | cons s rest =>
        obtain rfl := Option.some.inj hnext
        exact mbrOverlaps_filled_iff.mpr (List.isChain_cons_cons.mp h).1
    rw [adjustMbr, if_neg hnot, htail]
    rfl

theorem tolerated_of_adjustMbr (h : adjustMbr imgBlocks prev reqs = .ok adjusted) :
    Tolerated reqs ∧ adjusted = filled imgBlocks reqs := by
  induction reqs generalizing prev adjusted with
  | nil =>
    obtain rfl := Except.ok.inj h
    exact ⟨List.IsChain.nil, rfl⟩
  | cons r rest ih =>
    obtain ⟨-, tail, htail, rfl⟩ := adjustMbr_cons h
    obtain ⟨hrest, rfl⟩ := ih htail
    refine ⟨?_, rfl⟩
    cases rest with
    | nil => exact List.IsChain.singleton r
    | cons s rest =>
      obtain ⟨hnext, -⟩ := adjustMbr_cons htail
      exact List.isChain_cons_cons.mpr ⟨mbrOverlaps_filled_iff.mp (hnext _ rfl), hrest⟩

theorem fillMbr_desiredSlot : (fillMbr imgBlocks r rest).desiredSlot = r.desiredSlot := by
  rw [fillMbr]
  split
  · rfl
  · rfl

theorem filled_map {β : Type} {f : MbrPartitionRequest → β}
    (hf : ∀ r rest, f (fillMbr imgBlocks r rest) = f r) :
    (filled imgBlocks reqs).map f = reqs.map f := by
  induction reqs with
  | nil => rfl
  | cons r rest ih => rw [filled, List.map_cons, List.map_cons, hf, ih]

theorem Admitted.filled (h : Admitted reqs) : Admitted (filled imgBlocks reqs) := by
  have hslots : (MbrSlots.filled imgBlocks reqs).map (·.desiredSlot) =
      reqs.map (·.desiredSlot) := filled_map fun _ _ => fillMbr_desiredSlot
  constructor
  case few =>
    have hlength := congrArg List.length hslots
    rw [List.length_map, List.length_map] at hlength
    exact hlength ▸ h.few
  case slots =>
    intro r hr
    have hmem := List.mem_map_of_mem (f := (·.desiredSlot)) hr
    rw [hslots] at hmem
    obtain ⟨r', hr', heq⟩ := List.mem_map.mp hmem
    exact heq ▸ h.slots r' hr'
  case distinct =>
    have hdistinct : (reqs.map (·.desiredSlot)).Pairwise fun a b => a = b → a = 0 :=
      List.pairwise_map.mpr h.distinct
    rw [← hslots] at hdistinct
    exact List.pairwise_map.mp hdistinct

end Adjusting

end MbrSlots
