import Libisofs.UncompressSafety
import Libisofs.ZisofsContent
import Mathlib.Logic.Relation

/-!
# Which contents can be uncompressed safely

The header of a zisofs file and its block pointers decide whether reading from the uncompression
filter stays within all limits, whatever the blocks contain.
-/

namespace UncompressContent

open FileData (Bytes)
open GuardedReads Halting UncompressSafety ZisofsContent ZisofsUncompress
open ZisofsAccount (BlockSize toOffT toUint64 announcedPointers isoOutOfMem)

section Conditions

/-- How many bytes the blocks demand, as int. -/
def differences : List Nat → List Int
  | p :: q :: pointers => pointerDifference p q :: differences (q :: pointers)
  | _ => []

/-- The largest demand, at least 1. -/
def room (demands : List Int) : Nat := (demands.foldl max 1).toNat

/-- With a negative demand all what is left of the content gets read. -/
def Contained (room : Nat) : List Int → Nat → Prop
  | [], _ => True
  | demand :: demands, left =>
    if demand < 0 then left ≤ room else Contained room demands (left - demand.toNat)

def pointerWidth (head : ZisofsHead) : Nat := if head.zisoAlgoNum = 0 then 4 else 8

/-- The content begins by a file header and `fill` block pointers. -/
structure Opens (content : Bytes) (head : ZisofsHead) (fill : Nat) : Prop where
  header : Head content head
  announced : announcedPointers (toOffT head.uncompressedSize) head.blockSize = fill
  pointers : fill * pointerWidth head ≤ (content.drop (headLength head)).length

/-- What is demanded by the block pointers behind a file header. -/
def demandsOf (content : Bytes) (head : ZisofsHead) (fill : Nat) : List Int :=
  differences (pointersAt (pointerWidth head) fill (content.drop (headLength head)))

/-- The read buffer can take what gets read for the blocks. A block of zeros can be put out only
if the announced size is not negative as off_t. -/
structure SoundBlocks (content : Bytes) (head : ZisofsHead) (fill : Nat) : Prop where
  contained : Contained (room (demandsOf content head fill)) (demandsOf content head fill)
    ((content.drop (headLength head)).length - fill * pointerWidth head)
  zeros : toOffT head.uncompressedSize < 0 → 0 ∉ demandsOf content head fill

/-- A file header has been read, and nothing else. So happens if no bytes are wanted. The next
call expects another header then. -/
def HeadSkipped (content content' : Bytes) : Prop :=
  ∃ head, Head content head ∧ content' = content.drop (headLength head)

/-- Wherever a header gets read, its blocks are sound. -/
def Sound (content : Bytes) : Prop :=
  ∀ content', Relation.ReflTransGen HeadSkipped content content' →
    ∀ head fill, Opens content' head fill → SoundBlocks content' head fill

/-- All calls are safe, if each wants less than 2^31 bytes. -/
def ReadsSafe (content : Bytes) : Prop :=
  ∀ input uncompress around delivered data rng orig desired, Delivers input →
    Session input uncompress {n | n < 2 ^ 31} content delivered data rng orig →
    desired < 2 ^ 31 → CallSafe around input uncompress delivered data rng orig desired

theorem Sound.skip {content content' : Bytes} (sound : Sound content)
    (skipped : HeadSkipped content content') : Sound content' :=
  fun _ reached => sound _ (reached.head skipped)

theorem Sound.blocks {content : Bytes} {head : ZisofsHead} {fill : Nat} (sound : Sound content)
    (opens : Opens content head fill) : SoundBlocks content head fill :=
  sound content .refl head fill opens

theorem contained_of_le {room left : Nat} (h : left ≤ room) (demands : List Int) :
    Contained room demands left := by
  induction demands generalizing left with
  | nil => exact trivial
  | cons demand demands ih =>
    rw [Contained]
    split
    · exact h
    · exact ih (by omega)

theorem blockMax_eq (m : Int) (pointers : List Nat) :
    blockMax m pointers = (differences pointers).foldl max m := by
  fun_induction blockMax m pointers with
  | case1 m p q rest ih =>
    have hmax : (if pointerDifference p q > m then pointerDifference p q else m) =
        max m (pointerDifference p q) := by
      generalize pointerDifference p q = difference
      split <;> omega
    rw [ih, hmax, differences, List.foldl_cons]
  | case2 pointers m hshort =>
    rcases pointers with _ | ⟨p, _ | ⟨q, rest⟩⟩
    · rfl
    · rfl
    · exact (hshort p q rest rfl).elim

theorem differences_getElem? {pointers : List Nat} {i p q : Nat} (hp : pointers[i]? = some p)
    (hq : pointers[i + 1]? = some q) :
    (differences pointers)[i]? = some (pointerDifference p q) := by
  fun_induction differences pointers generalizing i with
  | case1 p₀ q₀ rest ih =>
    cases i with
    | zero =>
      obtain rfl : p₀ = p := by simpa using hp
      obtain rfl : q₀ = q := by simpa using hq
      rfl
    | succ i => exact ih (by simpa using hp) (by simpa using hq)
  | case2 pointers hshort =>
    match pointers, hshort with
    | [], _ => simp at hp
    | [_], _ => simp at hq
    | p₀ :: q₀ :: rest, hshort => exact (hshort p₀ q₀ rest rfl).elim

/-- As size_t, a demand which is not negative stays as it is. -/
theorem toUint64_demand (p q : Nat) (hnonneg : 0 ≤ pointerDifference p q) :
    toUint64 (pointerDifference p q) = (pointerDifference p q).toNat := by
  have hcast : (toUint64 (pointerDifference p q) : Int) = pointerDifference p q :=
    toUint64_toInt hnonneg
  generalize pointerDifference p q = demand at *
  omega

theorem length_differences (pointers : List Nat) :
    (differences pointers).length = pointers.length - 1 := by
  fun_induction differences pointers with
  | case1 p q rest ih => simpa using ih
  | case2 pointers hshort =>
    rcases pointers with _ | ⟨p, _ | ⟨q, rest⟩⟩
    · rfl
    · rfl
    · exact (hshort p q rest rfl).elim

end Conditions

section Sufficient

variable {around : Surroundings} {input : InputStream Bytes} {uncompress : Uncompress}
variable {data : ZisofsUncomprStreamData} {rng : ZisofsFilterRuntime} {orig : Bytes}
variable {desired : Nat} {c : Call Bytes}

/-- What is still to be read is sound. -/
structure Tame (data : ZisofsUncomprStreamData) (rng : ZisofsFilterRuntime) (orig : Bytes) :
    Prop where
  header : rng.state = .header → Sound orig
  contained : rng.state ≠ .header → Contained rng.readBuffer
    ((differences rng.blockPointers).drop rng.blockPointerRpos) orig.length
  zeros : rng.state ≠ .header → data.size < 0 → 0 ∉ differences rng.blockPointers

/-- What holds at each point of a call. -/
def TameCall (c : Call Bytes) : Prop :=
  c.control = .overrun ∨ (∃ ret, c.control = .done ret) ∧ c.rng.errorRet < 0 ∨
    Tame c.data c.rng c.orig

theorem TameCall.tame (tame : TameCall c) (running : ¬ c.Final) : Tame c.data c.rng c.orig := by
  rcases tame with h | ⟨h, -⟩ | tame
  · exact absurd (Or.inr h) running
  · exact absurd (Or.inl h) running
  · exact tame

theorem fail_tame {code : Int} (hcode : code < 0) : TameCall (c.fail code) :=
  Or.inr (Or.inl ⟨⟨code, rfl⟩, hcode⟩)

theorem toTransfer_tame (tame : Tame c.data c.rng c.orig) : TameCall (toTransfer c) := by
  rw [toTransfer]
  split
  · exact Or.inr (Or.inr tame)
  · exact Or.inr (Or.inr tame)

theorem checkAnnounced_tame (tame : Tame c.data c.rng c.orig) : TameCall (checkAnnounced c) := by
  obtain ⟨header, contained, zeros⟩ := tame
  rw [checkAnnounced]
  dsimp only
  split
  · exact fail_tame isoFilterWrongInput.property
  · exact toTransfer_tame ⟨header, contained, zeros⟩

theorem zeroBlock_tame (i : Nat) (tame : Tame c.data c.rng c.orig) : TameCall (zeroBlock i c) := by
  obtain ⟨header, contained, zeros⟩ := tame
  rw [zeroBlock]
  split
  · exact Or.inl rfl
  · exact checkAnnounced_tame ⟨header, contained, zeros⟩

theorem readBlock_tame (delivers : Delivers input) {todo : Int} (i : Nat)
    (hstate : c.rng.state = .blocks)
    (tame : Tame c.data c.rng (c.orig.drop (toUint64 todo))) :
    TameCall (readBlock input uncompress todo i c) := by
  obtain ⟨header, contained, zeros⟩ := tame
  have hblocks : c.rng.state ≠ .header := by
    rw [hstate]
    exact State.noConfusion
  rw [readBlock]
  split
  · exact Or.inl rfl
  · rename_i code _ _
    exact fail_tame code.property
  · rename_i rest hgot
    obtain ⟨-, rfl, -⟩ := delivers.readInto_ok hgot
    dsimp only
    split
    · exact fail_tame isoFilterWrongInput.property
    · exact Or.inr (Or.inr ⟨State.noConfusion, fun _ => contained hblocks,
        fun _ => zeros hblocks⟩)
  · rename_i bytes rest _ hgot
    obtain ⟨-, rfl, -⟩ := delivers.readInto_ok hgot
    dsimp only
    split
    · exact fail_tame GzipConvert.isoZlibComprErr_neg
    · split
      · exact Or.inl rfl
      · split
        · exact fail_tame isoZisofsWrongInput.property
        · exact checkAnnounced_tame ⟨header, contained, zeros⟩

theorem nextBlock_tame (delivers : Delivers input) (hstate : c.rng.state = .blocks)
    (tame : Tame c.data c.rng c.orig) : TameCall (nextBlock input uncompress c) := by
  obtain ⟨header, contained, zeros⟩ := tame
  have hblocks : c.rng.state ≠ .header := by
    rw [hstate]
    exact State.noConfusion
  rw [nextBlock]
  dsimp only
  split
  · split
    · exact Or.inr (Or.inr ⟨State.noConfusion, fun _ => contained hblocks,
        fun _ => zeros hblocks⟩)
    · exact fail_tame isoFilterWrongInput.property
  · rw [Nat.add_sub_cancel]
    split
    · rename_i p q hp hq
      have hdemands : (differences c.rng.blockPointers).drop c.rng.blockPointerRpos =
          pointerDifference p q ::
            (differences c.rng.blockPointers).drop (c.rng.blockPointerRpos + 1) := by
        have hget := differences_getElem? hp hq
        obtain ⟨hlt, hget⟩ := List.getElem?_eq_some_iff.mp hget
        rw [List.drop_eq_getElem_cons hlt, hget]
      have hcontained := contained hblocks
      have hcount := toUint64_demand p q
      rw [hdemands, Contained] at hcontained
      generalize pointerDifference p q = demand at hcontained hcount
      split
      · rename_i hzero
        rw [hzero, if_neg (by decide), Int.toNat_zero, Nat.sub_zero] at hcontained
        exact zeroBlock_tame _ ⟨fun h => absurd h hblocks, fun _ => hcontained,
          fun _ => zeros hblocks⟩
      · refine readBlock_tame delivers _ hstate ⟨fun h => absurd h hblocks, fun _ => ?_,
          fun _ => zeros hblocks⟩
        rw [List.length_drop]
        by_cases hneg : demand < 0
        · rw [if_pos hneg] at hcontained
          exact contained_of_le ((Nat.sub_le _ _).trans hcontained) _
        · rw [if_neg hneg] at hcontained
          rwa [hcount (Int.not_lt.mp hneg)]
    · exact Or.inl rfl

theorem createBuffers_tame {pointers : List Nat} (hrpos : c.rng.blockPointerRpos = 0)
    (contained : Contained (room (differences pointers)) (differences pointers) c.orig.length)
    (zeros : c.data.size < 0 → 0 ∉ differences pointers) :
    TameCall (createBuffers around pointers c) := by
  rw [createBuffers]
  dsimp only
  split
  · exact fail_tame (by decide)
  · refine Or.inr (Or.inr ⟨State.noConfusion, fun _ => ?_, fun _ => zeros⟩)
    dsimp only
    rwa [hrpos, List.drop_zero, blockMax_eq]

/-- The pointers which are read are those of the content. -/
theorem pointersOf_read {head : ZisofsHead} {fill : Nat} {content mem : Bytes}
    (henough : fill * pointerWidth head ≤ content.length)
    (hmem : (if head.zisoAlgoNum = 0 then
        spread (fill - 1) (content.take (fill * pointerWidth head) ++
          zeros (fill * 8 - (content.take (fill * pointerWidth head)).length))
        else some (content.take (fill * pointerWidth head) ++
          zeros (fill * 8 - (content.take (fill * pointerWidth head)).length))) = some mem) :
    pointersOf fill mem = pointersAt (pointerWidth head) fill content := by
  rw [List.length_take_of_le henough] at hmem
  split at hmem
  · rename_i hzero
    have hwidth : pointerWidth head = 4 := if_pos hzero
    rw [hwidth] at hmem henough ⊢
    exact pointersOf_spread henough hmem
  · rename_i hzero
    have hwidth : pointerWidth head = 8 := if_neg hzero
    rw [hwidth] at hmem ⊢
    rw [Nat.sub_self, zeros, List.replicate_zero, List.append_nil] at hmem
    rw [← Option.some.inj hmem]
    exact pointersOf_take fill content

theorem readPointers_tame (delivers : Delivers input) {head : ZisofsHead} {fill : Nat}
    (hrpos : c.rng.blockPointerRpos = 0) (hsize : c.data.size = toOffT head.uncompressedSize)
    (content : Bytes) (horig : c.orig = content.drop (headLength head))
    (blocks : fill * pointerWidth head ≤ c.orig.length → SoundBlocks content head fill) :
    TameCall (readPointers around input head.zisoAlgoNum fill c) := by
  rw [readPointers]
  rw [← pointerWidth]
  dsimp only
  split
  · exact Or.inl rfl
  · rename_i code _ _
    exact fail_tame code.property
  · rename_i bytes rest hgot
    obtain ⟨rfl, rfl, -⟩ := delivers.readInto_ok hgot
    split
    · exact Or.inl rfl
    · rename_i mem hmem
      split
      · exact fail_tame isoZisofsWrongInput.property
      · rename_i hall
        have henough : fill * pointerWidth head ≤ c.orig.length := by
          rw [List.length_take] at hall
          omega
        obtain ⟨contained, zeros⟩ := blocks henough
        have hpointers : pointersOf fill mem =
            pointersAt (pointerWidth head) fill (content.drop (headLength head)) := by
          rw [← horig]
          exact pointersOf_read henough hmem
        rw [demandsOf, ← hpointers] at contained zeros
        refine createBuffers_tame hrpos ?_ ?_
        · rw [List.length_drop, horig]
          exact contained
        · rw [← hsize] at zeros
          exact zeros

theorem createPointers_tame (delivers : Delivers input) {head : ZisofsHead} {content : Bytes}
    (hhead : Head content head) (sound : Sound content)
    (hstate : c.rng.state = .header) (hsize : c.data.size = toOffT head.uncompressedSize)
    (horig : c.orig = content.drop (headLength head)) :
    TameCall (createPointers around input head.zisoAlgoNum head.blockSize c) := by
  have hskipped : HeadSkipped content c.orig := ⟨head, hhead, horig⟩
  rw [createPointers]
  dsimp only
  split
  · exact fail_tame (by decide)
  · split
    · exact Or.inr (Or.inr ⟨fun _ => sound.skip hskipped, fun h => absurd hstate h,
        fun h => absurd hstate h⟩)
    · split
      · exact fail_tame (by decide)
      · rename_i hno
        simp only [Bool.or_eq_true, decide_eq_true_eq, not_or, Int.not_lt] at hno
        refine readPointers_tame delivers rfl hsize content horig fun henough => ?_
        refine sound.blocks ⟨hhead, ?_, ?_⟩
        · rw [← hsize, Int.toNat_of_nonneg hno.1]
        · rwa [← horig]

theorem stepReadHeader_tame (delivers : Delivers input) (tame : Tame c.data c.rng c.orig) :
    TameCall (stepReadHeader around input desired c) := by
  rw [stepReadHeader]
  split
  · exact Or.inr (Or.inr tame)
  · rename_i hstate
    have hheader : c.rng.state = .header := not_not.mp hstate
    have sound := tame.header hheader
    split
    · exact Or.inl rfl
    · rename_i code _ _
      exact fail_tame code.property
    · rename_i head rest hparsed
      obtain ⟨hhead, rfl⟩ :=
        head_of_parsed (zisoParseZisofsHead_follows delivers _ _ _ _ hparsed)
      have hskipped : HeadSkipped c.orig (c.orig.drop (headLength head)) := ⟨head, hhead, rfl⟩
      dsimp only
      generalize hsize : toOffT head.uncompressedSize = size
      split
      · exact Or.inr (Or.inr ⟨fun _ => sound.skip hskipped, fun h => absurd hheader h,
          fun h => absurd hheader h⟩)
      · exact createPointers_tame delivers hhead sound hheader hsize.symm rfl

theorem Tame.transferred (tame : Tame data rng orig) (n : Nat) :
    Tame data { rng with
      bufferRpos := rng.bufferRpos + n
      outCounter := rng.outCounter + n } orig :=
  ⟨tame.header, tame.contained, tame.zeros⟩

theorem stepTransfer_tame (tame : Tame c.data c.rng c.orig) :
    TameCall (stepTransfer desired c) := by
  obtain ⟨data, rng, orig, buf, control⟩ := c
  have after := tame.transferred
  rw [stepTransfer]
  generalize todo desired _ = n
  dsimp only at after ⊢
  split
  · exact Or.inl rfl
  · split
    · exact Or.inr (Or.inr (after n.toNat))
    · exact Or.inr (Or.inr (after n.toNat))

theorem Call.running_of_control (h : c.control = .readHeader ∨ c.control = .deliverBlock ∨
    c.control = .transfer) : ¬ c.Final := by
  rintro (⟨ret, hdone⟩ | hover)
  · rw [hdone] at h
    rcases h with h | h | h <;> exact Control.noConfusion h
  · rw [hover] at h
    rcases h with h | h | h <;> exact Control.noConfusion h

theorem step_tame (delivers : Delivers input) (tame : TameCall c) :
    TameCall (step around input uncompress desired c) := by
  rw [step]
  cases hcontrol : c.control with
  | readHeader =>
    exact stepReadHeader_tame delivers (tame.tame (Call.running_of_control (Or.inl hcontrol)))
  | deliverBlock =>
    have running := tame.tame (Call.running_of_control (Or.inr (Or.inl hcontrol)))
    dsimp only
    rw [stepDeliverBlock]
    split
    · rename_i hnext
      exact nextBlock_tame delivers hnext.1 running
    · exact toTransfer_tame running
  | transfer =>
    exact stepTransfer_tame (tame.tame (Call.running_of_control (Or.inr (Or.inr hcontrol))))
  | done ret => exact tame
  | overrun => exact tame

theorem harmless_of_tame (delivers : Delivers input) (tame : TameCall c)
    (hdesired : desired < 2 ^ 31) : Harmless input desired c := by
  constructor
  · rintro p q ⟨hcontrol, hstate, -, -, hp, hq⟩
    have tame := tame.tame (Call.running_of_control (Or.inr (Or.inl hcontrol)))
    have hblocks : c.rng.state ≠ .header := by
      rw [hstate]
      exact State.noConfusion
    have hget := differences_getElem? hp hq
    have hcontained := tame.contained hblocks
    obtain ⟨hlt, hdemand⟩ := List.getElem?_eq_some_iff.mp hget
    rw [List.drop_eq_getElem_cons hlt, hdemand, Contained] at hcontained
    constructor
    · rintro hneg ⟨bytes, hread, hflood⟩
      rw [if_pos hneg] at hcontained
      obtain ⟨hbytes, -⟩ := delivers.read_ok _ _ bytes _ (Prod.ext hread rfl)
      have hle : bytes.length ≤ c.orig.length := by
        rw [hbytes, List.length_take]
        exact Nat.min_le_right _ _
      omega
    · intro hzero
      by_contra hsize
      rw [hzero] at hget
      exact tame.zeros hblocks (Int.not_le.mp hsize) (List.mem_of_getElem? hget)
  · intro _
    have hint : toInt (desired - c.buf.length : Nat) = (desired - c.buf.length : Nat) := by
      apply toInt_eq <;> omega
    rw [hint]
    refine ⟨Int.natCast_nonneg _, fun hzero => Or.inl ?_⟩
    omega

theorem startCall_tame (tame : rng.errorRet < 0 ∨ Tame data rng orig) :
    TameCall (startCall data rng orig) := by
  rw [startCall]
  split
  · rename_i herror
    exact Or.inr (Or.inl ⟨⟨_, rfl⟩, herror⟩)
  · rename_i herror
    exact Or.inr (Or.inr (tame.resolve_left herror))

theorem run_tame (delivers : Delivers input) (tame : TameCall c) (n : Nat) :
    TameCall ((step around input uncompress desired)^[n] c) := by
  induction n generalizing c with
  | zero => exact tame
  | succ n ih => exact ih (step_tame delivers tame)

/-- Between the calls of a session what is still to be read is sound. -/
theorem session_tame {sizes : Set Nat} {content : Bytes} {delivered : Nat}
    (delivers : Delivers input) (sound : Sound content)
    (session : Session input uncompress sizes content delivered data rng orig) :
    rng.errorRet < 0 ∨ Tame data rng orig := by
  induction session with
  | opened _ =>
    exact Or.inr ⟨fun _ => sound, fun h => absurd rfl h, fun h => absurd rfl h⟩
  | call _ _ hrun hdone ih =>
    subst hrun
    rcases run_tame delivers (startCall_tame ih) _ with h | ⟨-, herror⟩ | tame
    · rw [hdone] at h
      exact Control.noConfusion h
    · exact Or.inl herror
    · exact Or.inr tame

theorem Sound.readsSafe {content : Bytes} (sound : Sound content) : ReadsSafe content := by
  intro input uncompress around delivered data rng orig desired delivers session hdesired
  have tame := startCall_tame (session_tame delivers sound session)
  exact (call_safe_iff session around desired).mpr
    fun n => harmless_of_tame delivers (run_tame delivers tame n) hdesired

end Sufficient

section Necessary

variable {content : Bytes} {head : ZisofsHead} {fill : Nat}

/-- Each block yields as many bytes as the block buffer can take. -/
def fullBlocks : Uncompress := fun _ room => some ⟨ZisofsUncompress.zeros room,
  Nat.le_of_eq List.length_replicate⟩

/-- There is memory, and there is room for this number of block pointers. -/
def ample (fill : Nat) : Surroundings := ⟨fun _ => true, fun _ => true, fill, 0⟩

/-- A point in a call of a session which reads the content. -/
def Reached (content : Bytes) (desired : Nat) (c : Call Bytes) : Prop :=
  ∃ delivered data rng orig around n,
    Session contentStream fullBlocks {n | n < 2 ^ 31} content delivered data rng orig ∧
      (step around contentStream fullBlocks desired)^[n] (startCall data rng orig) = c

theorem ReadsSafe.harmless {desired : Nat} {c : Call Bytes} (safe : ReadsSafe content)
    (hdesired : desired < 2 ^ 31) (reached : Reached content desired c) :
    Harmless contentStream desired c := by
  obtain ⟨delivered, data, rng, orig, around, n, session, rfl⟩ := reached
  exact (call_safe_iff session around desired).mp
    (safe _ _ around _ _ _ _ desired contentStream_delivers session hdesired) n

theorem startCall_eq {data : ZisofsUncomprStreamData} {rng : ZisofsFilterRuntime}
    (herror : rng.errorRet = 0) (orig : Bytes) :
    startCall data rng orig = ⟨data, rng, orig, [], .readHeader⟩ := by
  rw [startCall, if_neg (by omega)]

/-- The first step of a call behind the header. -/
theorem startCall_blocks {around : Surroundings} {desired : Nat} {data : ZisofsUncomprStreamData}
    {rng : ZisofsFilterRuntime} {orig : Bytes} (herror : rng.errorRet = 0)
    (hblocks : rng.state ≠ .header) :
    step around contentStream fullBlocks desired (startCall data rng orig) =
      ⟨data, rng, orig, [], .deliverBlock⟩ := by
  rw [startCall_eq herror, step]
  dsimp only
  rw [stepReadHeader, if_pos hblocks]

/-- The first step of a call which finds a file header. -/
theorem parse_step {around : Surroundings} {desired : Nat} {data : ZisofsUncomprStreamData}
    {rng : ZisofsFilterRuntime} {orig : Bytes} (hhead : Head orig head)
    (hstate : rng.state = .header) (herror : rng.errorRet = 0) {size : Int}
    (hsize : toOffT head.uncompressedSize = size) :
    step around contentStream fullBlocks desired (startCall data rng orig) =
      if desired = 0 then
        ⟨⟨size, head.headerSizeDiv4, head.blockSize.log2⟩,
          { rng with blockSize := head.blockSize.value }, orig.drop (headLength head), [], .done 0⟩
      else createPointers around contentStream head.zisoAlgoNum head.blockSize
        ⟨⟨size, head.headerSizeDiv4, head.blockSize.log2⟩,
          { rng with blockSize := head.blockSize.value }, orig.drop (headLength head), [],
          .readHeader⟩ := by
  rw [startCall_eq herror, step]
  dsimp only
  rw [stepReadHeader, if_neg (not_not_intro hstate), hhead.parsed]
  dsimp only
  rw [hsize]

/-- Calls which want no bytes read file headers. -/
theorem session_skips {content' : Bytes}
    (skipped : Relation.ReflTransGen HeadSkipped content content') :
    ∃ data rng, Session contentStream fullBlocks {n | n < 2 ^ 31} content 0 data rng content' ∧
      rng.state = .header ∧ rng.errorRet = 0 ∧ rng.outCounter = 0 := by
  induction skipped with
  | refl => exact ⟨⟨0, 0, 0⟩, zisoRunningNew, .opened (by decide), rfl, rfl, rfl⟩
  | tail _ hskip ih =>
    obtain ⟨data, rng, session, hstate, herror, hout⟩ := ih
    obtain ⟨head, hhead, rfl⟩ := hskip
    have hstep := @parse_step _ (ample 0) 0 data _ _ hhead hstate herror _ rfl
    rw [if_pos rfl] at hstep
    have hcall := session.call (n := 1) (show 0 < 2 ^ 31 by decide) hstep rfl
    exact ⟨_, _, hcall, hstate, herror, hout⟩

theorem spread_announced (opens : Opens content head fill) (mem : Bytes)
    (hmem : mem.length = fill * 8) :
    ∃ mem', (if head.zisoAlgoNum = 0 then spread (fill - 1) mem else some mem) = some mem' := by
  split
  · rename_i hzero
    have hpos : 0 < fill := by
      have hnonneg : 0 ≤ toOffT head.uncompressedSize := by
        cases opens.header with
        | version1 _ _ hsize =>
          have hlt : number content 8 4 < 256 ^ 4 := ofLsb_take_lt _ 4
          rw [ZisofsAccount.toOffT_of_lt (by omega)]
          exact Int.natCast_nonneg _
        | version2 _ hone => omega
      have hannounced := announcedPointers_pos head.blockSize hnonneg
      rw [opens.announced] at hannounced
      exact_mod_cast hannounced
    obtain ⟨mem', hspread, -⟩ := spread_of_le (fill - 1) mem (by omega)
    exact ⟨mem', hspread⟩
  · exact ⟨mem, rfl⟩

theorem pointerWidth_le (head : ZisofsHead) : pointerWidth head ≤ 8 := by
  rw [pointerWidth]
  split <;> decide

/-- All announced block pointers are read. -/
theorem readPointers_opens (opens : Opens content head fill) {around : Surroundings}
    {c : Call Bytes} (horig : c.orig = content.drop (headLength head)) :
    readPointers around contentStream head.zisoAlgoNum fill c =
      createBuffers around (pointersAt (pointerWidth head) fill c.orig)
        { c with orig := c.orig.drop (fill * pointerWidth head) } := by
  have henough := opens.pointers
  rw [← horig] at henough
  have hlen := List.length_take_of_le henough
  have hle : fill * pointerWidth head ≤ fill * 8 :=
    Nat.mul_le_mul_left fill (pointerWidth_le head)
  have hread : readInto contentStream (fill * 8) (fill * pointerWidth head) c.orig =
      (.ok (c.orig.take (fill * pointerWidth head)), c.orig.drop (fill * pointerWidth head)) :=
    readInto_eq_ok_iff.mpr ⟨rfl, hlen.trans_le hle⟩
  obtain ⟨mem, hmem⟩ := spread_announced opens (c.orig.take (fill * pointerWidth head) ++
    zeros (fill * 8 - (c.orig.take (fill * pointerWidth head)).length)) (by
      rw [List.length_append, zeros, List.length_replicate, hlen]
      omega)
  rw [readPointers, ← pointerWidth, hread]
  dsimp only
  rw [hmem]
  dsimp only
  rw [if_neg (not_not_intro hlen), pointersOf_read henough hmem]

/-- The next step takes the block with number `j`. -/
structure AtBlock (content : Bytes) (head : ZisofsHead) (fill j left : Nat) (c : Call Bytes) :
    Prop where
  control : c.control = .deliverBlock
  state : c.rng.state = .blocks
  consumed : c.rng.bufferFill = c.rng.bufferRpos
  blockPointerRpos : c.rng.blockPointerRpos = j
  blockPointers : c.rng.blockPointers =
    pointersAt (pointerWidth head) fill (content.drop (headLength head))
  blockPointerFill : c.rng.blockPointerFill = fill
  readBuffer : c.rng.readBuffer = room (demandsOf content head fill)
  blockSize : c.rng.blockSize = head.blockSize.value
  blockBuffer : c.rng.blockBuffer.length = head.blockSize.value
  size : c.data.size = toOffT head.uncompressedSize
  outCounter : c.rng.outCounter = j * head.blockSize.value
  left : c.orig.length = left
  buf : c.buf = []
  errorRet : c.rng.errorRet = 0

theorem atBlock_of_opens {content' : Bytes}
    (skipped : Relation.ReflTransGen HeadSkipped content content')
    (opens : Opens content' head fill) :
    ∃ c, Reached content head.blockSize.value c ∧ AtBlock content' head fill 0
      ((content'.drop (headLength head)).length - fill * pointerWidth head) c := by
  obtain ⟨data, rng, session, hstate, herror, hout⟩ := session_skips skipped
  have hannounced := opens.announced
  generalize hsize : toOffT head.uncompressedSize = size at hannounced
  have hstep := @parse_step _ (ample fill) head.blockSize.value data _ _ opens.header hstate
    herror _ hsize
  have hpos := BlockSize.value_pos head.blockSize
  rw [if_neg (by omega), createPointers] at hstep
  dsimp only at hstep
  rw [hannounced, if_neg (by simp [ample]), if_neg (by simp [ample]),
    if_neg (by simp [ample]), Int.toNat_natCast, readPointers_opens opens rfl, createBuffers,
    if_neg (by simp [ample])] at hstep
  refine ⟨_, ⟨0, data, rng, content', ample fill, 1, session, hstep⟩, ?_⟩
  refine ⟨rfl, rfl, rfl, rfl, rfl, rfl, ?_, rfl, List.length_replicate, hsize.symm, ?_, ?_, rfl,
    herror⟩
  · dsimp only
    rw [blockMax_eq]
    rfl
  · dsimp only
    omega
  · exact List.length_drop

theorem checkAnnounced_fits {c : Call Bytes} (hstate : c.rng.state = .blocks)
    (hfits : (c.rng.outCounter : Int) + c.rng.bufferFill ≤ c.data.size) :
    checkAnnounced c =
      { c with rng := { c.rng with bufferRpos := 0 }, control := .transfer } := by
  rw [checkAnnounced]
  dsimp only
  rw [if_neg (Int.not_lt.mpr hfits), toTransfer, if_neg]
  rintro ⟨h, -⟩
  rw [hstate] at h
  exact State.noConfusion h

/-- A block which is not the last one fits into the announced size. -/
theorem full_fits (opens : Opens content head fill) {j : Nat} (hmore : j + 2 < fill) :
    ((j * head.blockSize.value : Nat) : Int) + head.blockSize.value ≤
      toOffT head.uncompressedSize := by
  have hannounced := opens.announced
  have hneg := @announcedPointers_neg (toOffT head.uncompressedSize) head.blockSize
  generalize toOffT head.uncompressedSize = size at hannounced hneg ⊢
  have hsize : 0 ≤ size := by
    by_contra h
    have := (hneg (Int.not_le.mp h)).1
    omega
  rw [announcedPointers] at hannounced
  generalize head.blockSize.value = value at hannounced ⊢
  have hquotient : ((j + 1 : Nat) : Int) ≤ size.tdiv value := by
    split at hannounced <;> omega
  have hrest : 0 ≤ size.tmod value := Int.tmod_nonneg _ hsize
  have hsplit := Int.mul_tdiv_add_tmod size value
  calc ((j * value : Nat) : Int) + value
      = (value : Int) * ((j + 1 : Nat) : Int) := by push_cast; ring
    _ ≤ value * size.tdiv value := Int.mul_le_mul_of_nonneg_left hquotient (Int.natCast_nonneg _)
    _ ≤ size := by omega

/-- What becomes of a call when a block which is not the last one has been put into the block
buffer. -/
def fillBuffer (c : Call Bytes) (demand : Int) (inCounter : Nat) (buffer : Bytes) : Call Bytes :=
  { c with
    rng := { c.rng with
      blockPointerRpos := c.rng.blockPointerRpos + 1
      blockBuffer := buffer
      bufferFill := c.rng.blockSize
      bufferRpos := 0
      inCounter := inCounter }
    orig := c.orig.drop demand.toNat
    control := .transfer }

variable {j left : Nat} {c : Call Bytes}

theorem AtBlock.takes (atBlock : AtBlock content head fill j left c) (hmore : j + 1 < fill) :
    ∃ p q, TakesBlock c p q ∧
      (demandsOf content head fill)[j]? = some (pointerDifference p q) := by
  have hlen : c.rng.blockPointers.length = fill := by
    rw [atBlock.blockPointers, pointersAt, List.length_map, List.length_range]
  have hsome : ∀ i, i < fill → ∃ p, c.rng.blockPointers[i]? = some p := by
    intro i hi
    exact ⟨_, List.getElem?_eq_getElem (hlen.symm ▸ hi)⟩
  obtain ⟨p, hp⟩ := hsome j (by omega)
  obtain ⟨q, hq⟩ := hsome (j + 1) hmore
  have hget := differences_getElem? hp hq
  rw [atBlock.blockPointers] at hget
  refine ⟨p, q, ⟨atBlock.control, atBlock.state, Int.le_of_eq atBlock.consumed, ?_, ?_, ?_⟩, hget⟩
  · rw [atBlock.blockPointerRpos, atBlock.blockPointerFill]
    exact_mod_cast hmore
  · rw [atBlock.blockPointerRpos]
    exact hp
  · rw [atBlock.blockPointerRpos]
    exact hq

theorem le_room {demands : List Int} {demand : Int} (hmem : demand ∈ demands) :
    demand.toNat ≤ room demands := by
  have hle : ∀ (demands : List Int) (m : Int), m ≤ demands.foldl max m ∧
      ∀ demand ∈ demands, demand ≤ demands.foldl max m := by
    intro demands
    induction demands with
    | nil => exact fun m => ⟨Int.le_refl _, by simp⟩
    | cons first demands ih =>
      intro m
      obtain ⟨hmax, hrest⟩ := ih (max m first)
      refine ⟨(Int.le_max_left m first).trans hmax, ?_⟩
      intro demand hdemand
      rcases List.mem_cons.mp hdemand with rfl | h
      · exact (Int.le_max_right m _).trans hmax
      · exact hrest demand h
  exact Int.toNat_le_toNat ((hle demands 1).2 demand hmem)

/-- The block behind the pointer is not the last one. -/
theorem AtBlock.not_last (atBlock : AtBlock content head fill j left c) (hmore : j + 2 < fill) :
    ¬ ((c.rng.blockPointerRpos + 1 : Nat) : Int) = c.rng.blockPointerFill - 1 := by
  rw [atBlock.blockPointerRpos, atBlock.blockPointerFill]
  omega

theorem AtBlock.fits (opens : Opens content head fill)
    (atBlock : AtBlock content head fill j left c) (hmore : j + 2 < fill) :
    (c.rng.outCounter : Int) + c.rng.blockSize ≤ c.data.size := by
  rw [atBlock.outCounter, atBlock.blockSize, atBlock.size]
  exact full_fits opens hmore

theorem AtBlock.stored (atBlock : AtBlock content head fill j left c) :
    ∃ buffer, overwrite c.rng.blockBuffer 0 (zeros c.rng.blockSize) = some buffer ∧
      buffer.length = head.blockSize.value := by
  obtain ⟨buffer, hwrite, hbuffer⟩ := overwrite_of_le c.rng.blockBuffer 0 (zeros c.rng.blockSize)
    (by rw [zeros, List.length_replicate, atBlock.blockBuffer, atBlock.blockSize]; omega)
  exact ⟨buffer, hwrite, hbuffer.trans atBlock.blockBuffer⟩

theorem AtBlock.zeroBlock_filled (opens : Opens content head fill)
    (atBlock : AtBlock content head fill j left c) (hmore : j + 2 < fill) :
    ∃ inCounter buffer, buffer.length = head.blockSize.value ∧
      zeroBlock (c.rng.blockPointerRpos + 1) { c with
        rng := { c.rng with blockPointerRpos := c.rng.blockPointerRpos + 1 } } =
        fillBuffer c 0 inCounter buffer := by
  obtain ⟨buffer, hwrite, hbuffer⟩ := atBlock.stored
  have hfits := atBlock.fits opens hmore
  refine ⟨c.rng.inCounter, buffer, hbuffer, ?_⟩
  rw [zeroBlock]
  dsimp only
  rw [hwrite]
  dsimp only
  rw [if_neg (fun h => atBlock.not_last hmore h.2), checkAnnounced_fits]
  · rfl
  · exact atBlock.state
  · exact hfits

theorem AtBlock.readBlock_filled (opens : Opens content head fill)
    (atBlock : AtBlock content head fill j left c) (hmore : j + 2 < fill) {demand : Int}
    (hpos : 0 < demand) (hcount : toUint64 demand = demand.toNat)
    (hroom : demand.toNat ≤ c.rng.readBuffer) (hleft : demand.toNat ≤ left) :
    ∃ inCounter buffer, buffer.length = head.blockSize.value ∧
      readBlock contentStream fullBlocks demand (c.rng.blockPointerRpos + 1) { c with
        rng := { c.rng with blockPointerRpos := c.rng.blockPointerRpos + 1 } } =
        fillBuffer c demand inCounter buffer := by
  obtain ⟨buffer, hwrite, hbuffer⟩ := atBlock.stored
  have hfits := atBlock.fits opens hmore
  have hzeros : (zeros c.rng.blockSize).length = c.rng.blockSize := List.length_replicate
  have hread : readInto contentStream c.rng.readBuffer (toUint64 demand) c.orig =
      (.ok (c.orig.take demand.toNat), c.orig.drop demand.toNat) := by
    rw [hcount]
    exact readInto_eq_ok_iff.mpr ⟨rfl, (List.length_take_le _ _).trans hroom⟩
  have hlen : (c.orig.take demand.toNat).length = demand.toNat :=
    List.length_take_of_le (by rw [atBlock.left]; exact hleft)
  rw [readBlock]
  dsimp only
  rw [hread]
  cases hbytes : c.orig.take demand.toNat with
  | nil =>
    rw [hbytes, List.length_nil] at hlen
    omega
  | cons first bytes =>
    refine ⟨c.rng.inCounter + (first :: bytes).length, buffer, hbuffer, ?_⟩
    dsimp only [fullBlocks]
    rw [hwrite]
    dsimp only
    rw [if_neg (fun h => absurd h.1 (by omega)), hzeros, checkAnnounced_fits]
    · rfl
    · exact atBlock.state
    · exact hfits

/-- A block which is not the last one gets put into the block buffer. -/
theorem AtBlock.filled (opens : Opens content head fill) (around : Surroundings) (desired : Nat)
    (atBlock : AtBlock content head fill j left c)
    (hmore : j + 2 < fill) {demand : Int}
    (hdemand : (demandsOf content head fill)[j]? = some demand) (hnonneg : 0 ≤ demand)
    (hleft : demand.toNat ≤ left) :
    ∃ inCounter buffer, buffer.length = head.blockSize.value ∧
      step around contentStream fullBlocks desired c =
        fillBuffer c demand inCounter buffer := by
  obtain ⟨p, q, takes, hget⟩ := atBlock.takes (by omega)
  have hroom := le_room (List.mem_of_getElem? hdemand)
  rw [← atBlock.readBuffer] at hroom
  have hcount := toUint64_demand p q
  rw [nextBlock_eq takes]
  have hsame : pointerDifference p q = demand := Option.some.inj (hget.symm.trans hdemand)
  rw [hsame] at hcount ⊢
  split
  · rename_i hzero
    rw [hzero]
    exact atBlock.zeroBlock_filled opens hmore
  · exact atBlock.readBlock_filled opens hmore (by omega) (hcount hnonneg) hroom hleft

/-- A call which wants as many bytes as a block has ends when it has got them. -/
theorem AtBlock.transferred
    (atBlock : AtBlock content head fill j left c) (demand : Int) (inCounter : Nat)
    {buffer : Bytes} (hbuffer : buffer.length = head.blockSize.value) (around : Surroundings) :
    ∃ taken ret, step around contentStream fullBlocks head.blockSize.value
        (fillBuffer c demand inCounter buffer) =
      ⟨c.data,
        { (fillBuffer c demand inCounter buffer).rng with
          bufferRpos := head.blockSize.value
          outCounter := c.rng.outCounter + head.blockSize.value },
        c.orig.drop demand.toNat, taken, .done ret⟩ := by
  have hsmall := BlockSize.value_lt head.blockSize
  have htodo : todo head.blockSize.value (fillBuffer c demand inCounter buffer) =
      head.blockSize.value := by
    have hint : toInt ((head.blockSize.value - 0 : Nat) : Int) = head.blockSize.value := by
      rw [Nat.sub_zero]
      apply toInt_eq <;> omega
    rw [todo_eq_min, fillBuffer, atBlock.buf, List.length_nil, hint,
      ZisofsFilterRuntime.waiting, atBlock.blockSize]
    dsimp only
    omega
  have htaken : (buffer.take head.blockSize.value).length = head.blockSize.value :=
    List.length_take_of_le hbuffer.ge
  rw [step, fillBuffer] at *
  dsimp only at *
  rw [stepTransfer, htodo, Int.toNat_natCast]
  dsimp only
  rw [atBlock.buf, hbuffer, Nat.zero_add, List.length_nil, Nat.zero_add, List.nil_append,
    List.drop_zero, htaken, if_neg (by omega), if_pos (Nat.le_refl _)]
  exact ⟨_, _, rfl⟩

theorem AtBlock.next {content₀ : Bytes} (opens : Opens content head fill)
    (reached : Reached content₀ head.blockSize.value c)
    (atBlock : AtBlock content head fill j left c) (hmore : j + 2 < fill) {demand : Int}
    (hdemand : (demandsOf content head fill)[j]? = some demand) (hnonneg : 0 ≤ demand)
    (hleft : demand.toNat ≤ left) :
    ∃ c', Reached content₀ head.blockSize.value c' ∧
      AtBlock content head fill (j + 1) (left - demand.toNat) c' := by
  obtain ⟨delivered, data, rng, orig, around, n, session, hrun⟩ := reached
  obtain ⟨inCounter, buffer, hbuffer, hfilled⟩ :=
    atBlock.filled opens around head.blockSize.value hmore hdemand hnonneg hleft
  obtain ⟨taken, ret, htransferred⟩ := atBlock.transferred demand inCounter hbuffer around
  have hend : (step around contentStream fullBlocks head.blockSize.value)^[n + 1 + 1]
      (startCall data rng orig) = step around contentStream fullBlocks head.blockSize.value
        (step around contentStream fullBlocks head.blockSize.value c) := by
    rw [Function.iterate_succ_apply', Function.iterate_succ_apply', hrun]
  rw [hfilled, htransferred] at hend
  have hsmall := BlockSize.value_lt head.blockSize
  have hdesired : head.blockSize.value < 2 ^ 31 := by omega
  have session' := session.call hdesired hend rfl
  have hblocks : c.rng.state ≠ .header := by
    rw [atBlock.state]
    exact State.noConfusion
  refine ⟨_, ⟨_, _, _, _, around, 1, session', startCall_blocks atBlock.errorRet hblocks⟩, ?_⟩
  refine ⟨rfl, atBlock.state, congrArg Nat.cast atBlock.blockSize,
    congrArg (· + 1) atBlock.blockPointerRpos, atBlock.blockPointers, atBlock.blockPointerFill,
    atBlock.readBuffer, atBlock.blockSize, hbuffer, atBlock.size, ?_, ?_, rfl, atBlock.errorRet⟩
  · dsimp only
    rw [atBlock.outCounter, Nat.succ_mul]
  · dsimp only
    rw [List.length_drop, atBlock.left]

theorem toInt_bounds (n : Int) : -2 ^ 31 ≤ toInt n ∧ toInt n < 2 ^ 31 := by
  rw [toInt, Int.bmod_def]
  omega

theorem pointerDifference_bounds (p q : Nat) :
    -2 ^ 31 ≤ pointerDifference p q ∧ pointerDifference p q < 2 ^ 31 :=
  toInt_bounds _

theorem differences_lt {pointers : List Nat} {demand : Int}
    (hmem : demand ∈ differences pointers) : demand < 2 ^ 31 := by
  fun_induction differences pointers with
  | case1 p q rest ih =>
    have hfirst := (pointerDifference_bounds p q).2
    rcases List.mem_cons.mp hmem with h | h
    · rwa [h]
    · exact ih h
  | case2 => exact absurd hmem List.not_mem_nil

theorem room_lt (pointers : List Nat) : room (differences pointers) < 2 ^ 31 := by
  have hlt : ∀ (demands : List Int) (m : Int), m < 2 ^ 31 → (∀ d ∈ demands, d < 2 ^ 31) →
      demands.foldl max m < 2 ^ 31 := by
    intro demands
    induction demands with
    | nil => exact fun m hm _ => hm
    | cons first demands ih =>
      intro m hm hall
      have hfirst := hall first List.mem_cons_self
      exact ih _ (by omega) fun d hd => hall d (List.mem_cons_of_mem _ hd)
  have := hlt (differences pointers) 1 (by decide) fun d => differences_lt
  rw [room]
  omega

/-- A negative demand is more than the read buffer can take. -/
theorem AtBlock.dry {desired : Nat}
    (atBlock : AtBlock content head fill j left c) (hmore : j + 1 < fill) {demand : Int}
    (hdemand : (demandsOf content head fill)[j]? = some demand) (hneg : demand < 0)
    (harmless : Harmless contentStream desired c) :
    left ≤ room (demandsOf content head fill) := by
  obtain ⟨p, q, takes, hget⟩ := atBlock.takes hmore
  have hdry := (harmless.1 p q takes).1
  have hbounds := pointerDifference_bounds p q
  have hroom : room (demandsOf content head fill) < 2 ^ 31 := room_lt _
  rw [Option.some.inj (hget.symm.trans hdemand)] at hdry hbounds
  by_contra hflood
  refine hdry hneg ⟨c.orig.take (toUint64 demand), rfl, ?_⟩
  have hcount : toUint64 demand = 2 ^ 64 + demand := by
    rw [toUint64]
    omega
  rw [List.length_take, atBlock.readBuffer, atBlock.left]
  omega

/-- What is left of the content after the blocks before number `j` meets the demands from there
on. -/
theorem contained_of_reached {content₀ : Bytes} (safe : ReadsSafe content₀)
    (opens : Opens content head fill) (demands : List Int)
    (hrest : (demandsOf content head fill).drop j = demands)
    (reached : Reached content₀ head.blockSize.value c)
    (atBlock : AtBlock content head fill j left c) :
    Contained (room (demandsOf content head fill)) demands left := by
  have hsmall := BlockSize.value_lt head.blockSize
  have hdesired : head.blockSize.value < 2 ^ 31 := by omega
  induction demands generalizing j left c with
  | nil => exact trivial
  | cons demand demands ih =>
    have hdemand : (demandsOf content head fill)[j]? = some demand := by
      rw [← List.head?_drop, hrest, List.head?_cons]
    have hcount : (demandsOf content head fill).length - j = demands.length + 1 := by
      rw [← List.length_drop, hrest, List.length_cons]
    have hlen : (demandsOf content head fill).length = fill - 1 := by
      rw [demandsOf, length_differences, pointersAt, List.length_map, List.length_range]
    rw [Contained]
    split
    · rename_i hneg
      exact atBlock.dry (by omega) hdemand hneg (safe.harmless hdesired reached)
    · rename_i hnonneg
      cases demands with
      | nil => exact trivial
      | cons next demands =>
        by_cases hleft : demand.toNat ≤ left
        · rw [List.length_cons] at hcount
          obtain ⟨c', reached', atBlock'⟩ := atBlock.next opens reached (by omega) hdemand
            (Int.not_lt.mp hnonneg) hleft
          have hnext : (demandsOf content head fill).drop (j + 1) = next :: demands := by
            rw [← List.tail_drop, hrest, List.tail_cons]
          exact ih hnext reached' atBlock'
        · exact contained_of_le (by omega) _

/-- A block of zeros cannot be put out if the announced size is negative. -/
theorem zeros_of_reached {content₀ : Bytes} (safe : ReadsSafe content₀)
    (opens : Opens content head fill)
    (reached : Reached content₀ head.blockSize.value c)
    (atBlock : AtBlock content head fill 0 left c) (hneg : toOffT head.uncompressedSize < 0) :
    0 ∉ demandsOf content head fill := by
  intro hzero
  have hannounced := (announcedPointers_neg head.blockSize hneg).1
  rw [opens.announced] at hannounced
  have hlen : (demandsOf content head fill).length = fill - 1 := by
    rw [demandsOf, length_differences, pointersAt, List.length_map, List.length_range]
  obtain ⟨j, hj⟩ := List.mem_iff_getElem?.mp hzero
  obtain ⟨hlt, -⟩ := List.getElem?_eq_some_iff.mp hj
  obtain rfl : j = 0 := by omega
  obtain ⟨p, q, takes, hget⟩ := atBlock.takes (by omega)
  have hsmall := BlockSize.value_lt head.blockSize
  have hsize := ((safe.harmless (by omega) reached).1 p q takes).2
    (Option.some.inj (hget.symm.trans hj))
  rw [atBlock.size] at hsize
  omega

theorem ReadsSafe.sound (safe : ReadsSafe content) : Sound content := by
  intro content' skipped head fill opens
  obtain ⟨c, reached, atBlock⟩ := atBlock_of_opens skipped opens
  constructor
  · exact contained_of_reached safe opens _ List.drop_zero reached atBlock
  · exact zeros_of_reached safe opens reached atBlock

/-- All calls are safe if and only if the file header and the block pointers are sound. -/
theorem reads_safe_iff (content : Bytes) : ReadsSafe content ↔ Sound content :=
  ⟨ReadsSafe.sound, Sound.readsSafe⟩

/-- The header of a file of less than 256 bytes. -/
def smallHead (size : UInt8) : Bytes := zisofsMagic ++ [size, 0, 0, 0, 4, 15, 0, 0]

/-- One block with one byte of input for one byte of output. -/
def increasingFile : Bytes := smallHead 1 ++ [24, 0, 0, 0, 25, 0, 0, 0] ++ [1]

theorem increasingFile_head (hhead : Head increasingFile head) :
    head.zisoAlgoNum = 0 ∧ head.headerSizeDiv4 = 4 ∧ head.blockSize.log2 = 15 ∧
      head.uncompressedSize = 1 := by
  cases hhead with
  | version1 _ hnum hun hsize hlog _ _ _ =>
    exact ⟨hnum, hsize.trans (by decide), hlog.trans (by decide), hun.trans (by decide)⟩
  | version2 hmagic => exact absurd hmagic (by decide)

theorem increasingFile_skipped {content' : Bytes}
    (skipped : Relation.ReflTransGen HeadSkipped increasingFile content') :
    content' = increasingFile ∨ content' = increasingFile.drop 16 := by
  induction skipped with
  | refl => exact Or.inl rfl
  | tail _ hskip ih =>
    obtain ⟨head, hhead, rfl⟩ := hskip
    rcases ih with rfl | rfl
    · obtain ⟨hnum, hsize, -, -⟩ := increasingFile_head hhead
      rw [headLength, if_pos hnum, hsize]
      exact Or.inr rfl
    · cases hhead with
      | version1 hmagic => exact absurd hmagic (by decide)
      | version2 hmagic => exact absurd hmagic (by decide)

theorem increasingFile_sound : Sound increasingFile := by
  intro content' skipped head fill opens
  rcases increasingFile_skipped skipped with rfl | rfl
  · obtain ⟨hnum, hsize, hlog, hun⟩ := increasingFile_head opens.header
    have hfill := opens.announced
    have hvalue : head.blockSize.value = 2 ^ 15 := congrArg (2 ^ ·) hlog
    rw [hun, announcedPointers, hvalue] at hfill
    obtain rfl : fill = 2 := by
      have htwo : (2 : Int) = fill := hfill
      omega
    have hdemands : demandsOf increasingFile head 2 = [1] := by
      rw [demandsOf, headLength, pointerWidth, if_pos hnum, if_pos hnum, hsize]
      decide
    constructor
    · rw [hdemands]
      exact trivial
    · rw [hun]
      exact fun h => absurd h (by decide)
  · cases opens.header with
    | version1 hmagic => exact absurd hmagic (by decide)
    | version2 hmagic => exact absurd hmagic (by decide)

theorem increasing_pointers_safe : ReadsSafe increasingFile :=
  (reads_safe_iff increasingFile).mpr increasingFile_sound

/-- The second block pointer is by 1 less than the first one, and two bytes follow. -/
def decreasingFile : Bytes := smallHead 1 ++ [24, 0, 0, 0, 23, 0, 0, 0] ++ [1, 2]

/-- The read buffer for one byte gets two bytes. -/
theorem decreasing_pointers_overrun : ¬ ∀ content, ReadsSafe content := by
  intro claim
  let noBlocks : Uncompress := fun _ _ => none
  let data : ZisofsUncomprStreamData := ⟨1, 4, 15⟩
  let around : Surroundings := ⟨fun _ => true, fun _ => true, 0x2000000, 0⟩
  obtain ⟨n, ret, c, rfl, hdone, -⟩ := claim decreasingFile contentStream noBlocks around 0 data
    zisoRunningNew decreasingFile 2048 contentStream_delivers (.opened (by decide)) (by decide)
  have never : NeverDone around contentStream noBlocks 2048
      (startCall data zisoRunningNew decreasingFile) := by
    refine .cons ?_ (.cons ?_ (neverDone_of_overrun (by decide +kernel)))
    · exact fun _ => Control.noConfusion
    · intro ret h
      have hcontrol : (step around contentStream noBlocks 2048
          (startCall data zisoRunningNew decreasingFile)).control = .deliverBlock := by
        decide +kernel
      rw [hcontrol] at h
      exact Control.noConfusion h
  exact never n ret hdone

end Necessary

end UncompressContent
