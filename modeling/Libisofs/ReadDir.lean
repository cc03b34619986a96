import Libisofs.Lib.Bytes
import Libisofs.Lib.Tiling
import Mathlib.Data.Nat.Find

/-!
# Parsing of directories

read_dir() of fs_image.c walks over the records of a directory extent, and hands each of
them to iso_file_source_new_ifs(). Neither of both checks whether a record ends inside
the block in which it begins. Of iso_file_source_new_ifs() only the return value matters
here, which may depend on anything: it is given by the place of the record. All bytes of the data
source are untrusted.
-/

namespace ReadDir

open ByteBuffers Tilings

def blockSize : Nat := 2048

def isoSuccess : Int := 1

/-- The data source. The bytes of a buffer from 2048 on are those which happen to be in
memory behind it. -/
structure IsoDataSource where
  readBlock : UInt32 → Except Int Buffer
  error_neg : ∀ {block code}, readBlock block = .error code → code < 0

/-- Record members by their offsets in struct ecma119_dir_record. -/
def lenDr (buffer : Buffer) (pos : Nat) : Nat := (buffer pos).toNat
def recordLength (buffer : Buffer) (pos : Nat) : Nat := ofLsb (slice buffer (pos + 10) 4)
def lenFi (buffer : Buffer) (pos : Nat) : Nat := (buffer (pos + 32)).toNat

/-- What is passed: a record, or the bytes from some position to the end of the block.
`index` counts the blocks of the directory. -/
inductive Event where
  | record (index pos lenDr lenFi : Nat)
  | padding (index pos : Nat)

structure State where
  advanced : Nat
  buffer : Buffer
  pos : Nat
  tlen : Nat
  handed : Nat
  content : List (Nat × Nat)

/-- `trace` tells what has been passed. `content` are the places of the records which
became file sources, the last one first. -/
structure Outcome where
  trace : List Event
  ret : Int
  content : List (Nat × Nat)

/-- The variable `block` after it has been incremented `advanced` times. -/
def blockNumber (block : UInt32) (advanced : Nat) : UInt32 := block + UInt32.ofNat advanced

def recordEvent (s : State) : Event :=
  .record s.advanced s.pos (lenDr s.buffer s.pos) (lenFi s.buffer s.pos)

/-- After the next block has been loaded to the buffer. -/
def nextBlock (s : State) (buffer : Buffer) : State :=
  { s with
    advanced := s.advanced + 1
    buffer := buffer
    pos := 0
    tlen := (s.tlen + (blockSize + 2 ^ 32 - s.pos)) % 2 ^ 32 }

/-- After a record for which iso_file_source_new_ifs() has returned `ret`. -/
def nextRecord (s : State) (ret : Int) : State :=
  { s with
    pos := (s.pos + lenDr s.buffer s.pos) % 2 ^ 32
    tlen := (s.tlen + lenDr s.buffer s.pos) % 2 ^ 32
    handed := s.handed + 1
    content := if ret = 1 then (s.advanced, s.pos) :: s.content else s.content }

/-- `newIfs` tells what iso_file_source_new_ifs() returns for the record at a place. -/
def turn (src : IsoDataSource) (newIfs : Nat → Nat → Int) (block : UInt32) (size : Nat) (s : State) :
    List Event × Except Int State :=
  if s.tlen < size then
    if s.pos = blockSize ∨ s.buffer s.pos = 0 then
      match src.readBlock (blockNumber block (s.advanced + 1)) with
      | .error ret => ([], .error ret)
      | .ok buffer => ([.padding s.advanced s.pos], .ok (nextBlock s buffer))
    else
      let ret := newIfs s.advanced s.pos
      if ret < 0 then ([recordEvent s], .error ret)
      else ([recordEvent s], .ok (nextRecord s ret))
  else ([], .error isoSuccess)

/-- The loop of read_dir(). The result is `none` if it has not ended after `turns` turns. -/
def loop (src : IsoDataSource) (newIfs : Nat → Nat → Int) (block : UInt32) (size : Nat) :
    (turns : Nat) → State → Option Outcome
  | 0, _ => none
  | turns + 1, s =>
    match turn src newIfs block size s with
    | (passed, .error ret) => some ⟨passed, ret, s.content⟩
    | (passed, .ok s') =>
      (loop src newIfs block size turns s').map fun o => { o with trace := passed ++ o.trace }

/-- The record "." tells the size of the directory. -/
def dirSize (buffer : Buffer) : Nat := recordLength buffer 0

/-- Where the first record after "." and ".." begins. -/
def firstPos (buffer : Buffer) : Nat := lenDr buffer 0 + lenDr buffer (lenDr buffer 0)

def dots (buffer : Buffer) : List Event :=
  [.record 0 0 (lenDr buffer 0) (lenFi buffer 0),
    .record 0 (lenDr buffer 0) (lenDr buffer (lenDr buffer 0)) (lenFi buffer (lenDr buffer 0))]

def readDir (src : IsoDataSource) (newIfs : Nat → Nat → Int) (block : UInt32) (turns : Nat) :
    Option Outcome :=
  match src.readBlock block with
  | .error ret => some ⟨[], ret, []⟩
  | .ok buffer =>
    (loop src newIfs block (dirSize buffer) turns
      ⟨0, buffer, firstPos buffer, firstPos buffer, 0, []⟩).map
      fun o => { o with trace := dots buffer ++ o.trace }

/-- The System Use field as of susp_iter_new(). -/
def suBase (pos lenFi : Nat) : Nat := pos + 33 + lenFi + (lenFi + 1) % 2
def suSize (lenDr lenFi : Nat) : Int := (lenDr : Int) - lenFi - 33 - ((lenFi + 1) % 2 : Nat)

namespace Event

def index : Event → Nat
  | record index _ _ _ => index
  | padding index _ => index

def first : Event → Nat
  | record _ pos _ _ => pos
  | padding _ pos => pos

/-- The position after the last byte. -/
def next : Event → Nat
  | record _ pos lenDr _ => pos + lenDr
  | padding _ _ => blockSize

/-- A record with its file identifier and its System Use field lies inside the buffer. -/
def Inside : Event → Prop
  | record _ pos lenDr lenFi =>
    pos + lenDr ≤ blockSize ∧ pos + 33 + lenFi ≤ blockSize ∧
      (0 < suSize lenDr lenFi → suBase pos lenFi + suSize lenDr lenFi ≤ blockSize)
  | padding _ pos => pos ≤ blockSize

/-- Whether byte `o` of the directory extent is passed. -/
def passes (block : UInt32) (o : Nat) (e : Event) : Bool :=
  blockNumber block e.index = blockNumber block (o / blockSize) ∧
    e.first ≤ o % blockSize ∧ o % blockSize < e.next

end Event

/-- read_dir() ends. All records are inside the buffer. If the directory gets read to its end, then
each byte is passed exactly once. -/
def ReadsRight (src : IsoDataSource) (newIfs : Nat → Nat → Int) (block : UInt32) : Prop :=
  ∃ turns outcome, readDir src newIfs block turns = some outcome ∧
    (∀ e ∈ outcome.trace, e.Inside) ∧
    (0 ≤ outcome.ret → ∀ buffer, src.readBlock block = .ok buffer →
      ∀ o < dirSize buffer, outcome.trace.countP (Event.passes block o) = 1)

section Content

variable (src : IsoDataSource) (newIfs : Nat → Nat → Int) (block : UInt32) (first : Buffer)

/-- The blocks of the directory. -/
def blockAt (k : Nat) : Except Int Buffer := src.readBlock (blockNumber block k)

/-- Where the first record of a block begins. -/
def startOf (k : Nat) : Nat := if k = 0 then firstPos first else 0

/-- The positions in block `k` which are reached from the first one by the lengths of records which
are not refused. -/
inductive RecordStart (buffer : Buffer) (k start : Nat) : Nat → Prop
  | first : RecordStart buffer k start start
  | next {pos : Nat} : RecordStart buffer k start pos → pos < blockSize → buffer pos ≠ 0 →
      0 ≤ newIfs k pos → RecordStart buffer k start (pos + lenDr buffer pos)

/-- The offset in the directory, as counted by 32 bits. -/
def offsetAt (k pos : Nat) : Nat := (blockSize * k + pos) % 2 ^ 32

/-- A record in block `k` begins where the directory has its end. -/
def Ends (k : Nat) : Prop :=
  ∃ buffer pos, blockAt src block k = .ok buffer ∧
    RecordStart newIfs buffer k (startOf first k) pos ∧ pos ≤ blockSize ∧
      dirSize first ≤ offsetAt k pos

/-- A record in block `k` is refused. -/
def Refused (k : Nat) : Prop :=
  ∃ buffer pos, blockAt src block k = .ok buffer ∧
    RecordStart newIfs buffer k (startOf first k) pos ∧ pos < blockSize ∧
      offsetAt k pos < dirSize first ∧ buffer pos ≠ 0 ∧ newIfs k pos < 0

def Unreadable (k : Nat) : Prop := ∃ code, blockAt src block k = .error code

/-- No block behind this one gets read. -/
def Stops (k : Nat) : Prop :=
  Unreadable src block k ∨ Refused src newIfs block first k ∨ Ends src newIfs block first k

/-- Block `k` belongs to the directory and can be reached. -/
def Belongs (k : Nat) : Prop :=
  ¬ Unreadable src block k ∧ ∀ j < k, ¬ Stops src newIfs block first j

/-- Each record of a block ends inside it, and so does its file identifier. -/
def RecordsFit (k : Nat) : Prop :=
  ∀ buffer pos, blockAt src block k = .ok buffer →
    RecordStart newIfs buffer k (startOf first k) pos → pos < blockSize →
    offsetAt k pos < dirSize first → buffer pos ≠ 0 →
    pos + lenDr buffer pos ≤ blockSize ∧ pos + 33 + lenFi buffer pos ≤ blockSize

/-- The records of the directory fit into their blocks, and there is a block where parsing
stops. -/
def WellFormed : Prop :=
  ∀ first, src.readBlock block = .ok first →
    (∀ k, Belongs src newIfs block first k → RecordsFit src newIfs block first k) ∧
    ∃ k, Stops src newIfs block first k

end Content

section Turns

variable {src : IsoDataSource} {block : UInt32} {first : Buffer}

/-- The state of the loop at a position of the directory. -/
structure At (src : IsoDataSource) (block : UInt32) (s : State) (k pos : Nat) : Prop where
  advanced_eq : s.advanced = k
  read : blockAt src block k = .ok s.buffer
  pos_eq : s.pos = pos
  tlen_eq : s.tlen = offsetAt k pos

variable {newIfs : Nat → Nat → Int} {size : Nat} {s : State} {k pos : Nat}

theorem turn_end (h : At src block s k pos) (hend : size ≤ offsetAt k pos) :
    turn src newIfs block size s = ([], .error isoSuccess) := by
  have hnot : ¬ s.tlen < size := by
    rw [h.tlen_eq]
    omega
  simp only [turn, hnot, if_false]

/-- The state after the next block has been loaded. -/
theorem At.inNextBlock (h : At src block s k pos) (hpos : pos ≤ blockSize) {buffer : Buffer}
    (hread : blockAt src block (k + 1) = .ok buffer) :
    At src block (nextBlock s buffer) (k + 1) 0 := by
  constructor
  case advanced_eq => exact congrArg (· + 1) h.advanced_eq
  case read => exact hread
  case pos_eq => rfl
  case tlen_eq =>
    simp only [nextBlock, h.tlen_eq, h.pos_eq, offsetAt, blockSize] at hpos ⊢
    omega

theorem lenDr_lt (buffer : Buffer) (pos : Nat) : lenDr buffer pos < 256 := (buffer pos).toNat_lt

/-- The state after a record of which iso_file_source_new_ifs() has returned `ret`. -/
theorem At.behindRecord (h : At src block s k pos) (hpos : pos < blockSize) (ret : Int) :
    At src block (nextRecord s ret) k (pos + lenDr s.buffer pos) := by
  have hlen := lenDr_lt s.buffer pos
  constructor
  case advanced_eq => exact h.advanced_eq
  case read => exact h.read
  case pos_eq =>
    simp only [nextRecord, h.pos_eq, blockSize] at hpos ⊢
    omega
  case tlen_eq =>
    simp only [nextRecord, h.tlen_eq, h.pos_eq, offsetAt]
    omega

variable (newIfs) in
/-- At the end of a block the next block gets read. -/
theorem turn_padding (h : At src block s k pos) (hin : offsetAt k pos < size)
    (hpos : pos ≤ blockSize) (hpad : pos = blockSize ∨ s.buffer pos = 0) :
    (∃ code, blockAt src block (k + 1) = .error code ∧
        turn src newIfs block size s = ([], .error code)) ∨
      ∃ s', turn src newIfs block size s = ([.padding k pos], .ok s') ∧
        At src block s' (k + 1) 0 := by
  have hin' : s.tlen < size := h.tlen_eq ▸ hin
  cases hread : blockAt src block (k + 1) with
  | error code =>
    have hread' : src.readBlock (blockNumber block (k + 1)) = .error code := hread
    refine Or.inl ⟨code, rfl, ?_⟩
    simp only [turn, hin', if_true, h.pos_eq, hpad, h.advanced_eq, hread']
  | ok buffer =>
    have hread' : src.readBlock (blockNumber block (k + 1)) = .ok buffer := hread
    refine Or.inr ⟨nextBlock s buffer, ?_, ?_⟩
    · simp only [turn, hin', if_true, h.pos_eq, hpad, h.advanced_eq, hread']
    · exact h.inNextBlock hpos hread

theorem lenDr_pos {buffer : Buffer} (h : buffer pos ≠ 0) : 0 < lenDr buffer pos := by
  rw [lenDr, Nat.pos_iff_ne_zero]
  exact fun hzero => h (UInt8.toNat_inj.mp hzero)

variable (newIfs) in
/-- Elsewhere a record is handed over. -/
theorem turn_record (h : At src block s k pos) (hin : offsetAt k pos < size)
    (hpos : pos < blockSize) (hrec : s.buffer pos ≠ 0) :
    (newIfs k pos < 0 ∧ turn src newIfs block size s =
        ([.record k pos (lenDr s.buffer pos) (lenFi s.buffer pos)], .error (newIfs k pos))) ∨
      0 ≤ newIfs k pos ∧ ∃ s', turn src newIfs block size s =
          ([.record k pos (lenDr s.buffer pos) (lenFi s.buffer pos)], .ok s') ∧
        s'.buffer = s.buffer ∧ At src block s' k (pos + lenDr s.buffer pos) := by
  have hin' : s.tlen < size := h.tlen_eq ▸ hin
  have hmid : ¬ (pos = blockSize ∨ s.buffer pos = 0) := by
    rintro (hfull | hzero)
    · omega
    · exact hrec hzero
  rcases Int.lt_or_le (newIfs k pos) 0 with hret | hret
  · refine Or.inl ⟨hret, ?_⟩
    simp only [turn, hin', if_true, h.pos_eq, hmid, if_false, h.advanced_eq, hret, recordEvent]
  · have hret' : ¬ newIfs k pos < 0 := Int.not_lt.mpr hret
    refine Or.inr ⟨hret, nextRecord s (newIfs k pos), ?_, rfl, ?_⟩
    · simp only [turn, hin', if_true, h.pos_eq, hmid, if_false, h.advanced_eq, hret', recordEvent]
    · exact h.behindRecord hpos _

end Turns

section Sufficient

variable {src : IsoDataSource} {block : UInt32} {first : Buffer} {newIfs : Nat → Nat → Int}
variable {size : Nat} {s s' : State} {k pos : Nat}

/-- The range of an event in the whole directory. -/
def lo (e : Event) : Nat := blockSize * e.index + e.first
def hi (e : Event) : Nat := blockSize * e.index + e.next

variable {last : Nat}

end Sufficient

section Addresses

variable {src : IsoDataSource} {newIfs : Nat → Nat → Int} {block : UInt32} {first : Buffer}

/-- The first block where parsing stops. -/
theorem exists_last (h : ∃ k, Stops src newIfs block first k) :
    ∃ last, Stops src newIfs block first last ∧ ∀ j < last, ¬ Stops src newIfs block first j := by
  classical
  exact ⟨Nat.find h, Nat.find_spec h, fun j hj => Nat.find_min h hj⟩

end Addresses

section Characterisation

variable {src : IsoDataSource} {newIfs : Nat → Nat → Int} {block : UInt32} {first : Buffer}

end Characterisation

section Necessary

variable {src : IsoDataSource} {newIfs : Nat → Nat → Int} {block : UInt32} {first : Buffer}
variable {size : Nat} {s : State} {k pos : Nat}

/-- A run in which all is inside. -/
def RunsInside (src : IsoDataSource) (newIfs : Nat → Nat → Int) (block : UInt32) (size turns : Nat)
    (s : State) : Prop :=
  ∃ o, loop src newIfs block size turns s = some o ∧ ∀ e ∈ o.trace, e.Inside

theorem RunsInside.next {turns : Nat} {e : Event} {s' : State}
    (h : RunsInside src newIfs block size (turns + 1) s)
    (hturn : turn src newIfs block size s = ([e], .ok s')) :
    e.Inside ∧ RunsInside src newIfs block size turns s' := by
  obtain ⟨o, hloop, hall⟩ := h
  simp only [loop, hturn, Option.map_eq_some_iff] at hloop
  obtain ⟨o', hloop', rfl⟩ := hloop
  exact ⟨hall e List.mem_cons_self, o', hloop', fun x hx => hall x (List.mem_cons_of_mem _ hx)⟩

theorem RunsInside.turns_pos {turns : Nat} (h : RunsInside src newIfs block size turns s) :
    ∃ n, turns = n + 1 := by
  cases turns with
  | zero =>
    obtain ⟨o, hloop, -⟩ := h
    cases hloop
  | succ n => exact ⟨n, rfl⟩

/-- `pos` in block `k` is reached by a run which is inside. -/
def Reached (src : IsoDataSource) (newIfs : Nat → Nat → Int) (block : UInt32) (size k pos : Nat) :
    Prop :=
  ∃ turns s, At src block s k pos ∧ RunsInside src newIfs block size turns s

/-- A record which is reached fits, and if it is not refused, then what follows it is reached. -/
theorem Reached.record {buffer : Buffer} (h : Reached src newIfs block size k pos)
    (hblock : blockAt src block k = .ok buffer) (hin : offsetAt k pos < size)
    (hpos : pos < blockSize) (hrec : buffer pos ≠ 0) :
    (pos + lenDr buffer pos ≤ blockSize ∧ pos + 33 + lenFi buffer pos ≤ blockSize) ∧
      (0 ≤ newIfs k pos → Reached src newIfs block size k (pos + lenDr buffer pos)) := by
  obtain ⟨turns, s, hs, hrun⟩ := h
  obtain rfl : s.buffer = buffer := Except.ok.inj (hs.read.symm.trans hblock)
  obtain ⟨n, rfl⟩ := hrun.turns_pos
  rcases turn_record newIfs hs hin hpos hrec with
    ⟨hret, hturn⟩ | ⟨hret, s', hturn, -, hs'⟩
  · obtain ⟨o, hloop, hall⟩ := hrun
    simp only [loop, hturn] at hloop
    cases hloop
    have hinside := hall _ (List.mem_singleton_self _)
    exact ⟨⟨hinside.1, hinside.2.1⟩, fun hnot => absurd hret (Int.not_lt.mpr hnot)⟩
  · obtain ⟨hinside, hrest⟩ := hrun.next hturn
    exact ⟨⟨hinside.1, hinside.2.1⟩, fun _ => ⟨n, s', hs', hrest⟩⟩

theorem Reached.padding {buffer : Buffer} (h : Reached src newIfs block size k pos)
    (hblock : blockAt src block k = .ok buffer) (hin : offsetAt k pos < size)
    (hpos : pos ≤ blockSize) (hpad : pos = blockSize ∨ buffer pos = 0)
    (hnext : ¬ Unreadable src block (k + 1)) : Reached src newIfs block size (k + 1) 0 := by
  obtain ⟨turns, s, hs, hrun⟩ := h
  obtain rfl : s.buffer = buffer := Except.ok.inj (hs.read.symm.trans hblock)
  obtain ⟨n, rfl⟩ := hrun.turns_pos
  rcases turn_padding newIfs hs hin hpos hpad with
    ⟨code, hread, -⟩ | ⟨s', hturn, hs'⟩
  · exact absurd ⟨code, hread⟩ hnext
  · exact ⟨n, s', hs', (hrun.next hturn).2⟩

/-- Before the end of the directory, all record starts of a block are reached. -/
theorem Reached.start {buffer : Buffer} {start : Nat} (h : Reached src newIfs block size k start)
    (hblock : blockAt src block k = .ok buffer) (hstart : RecordStart newIfs buffer k start pos)
    (hpos : pos < blockSize) (hin : offsetAt k pos < size) :
    Reached src newIfs block size k pos := by
  induction hstart with
  | first => exact h
  | @next p hprev hp hrec hret ih =>
    -- the offset does not wrap around inside a block
    have hbefore : offsetAt k p < size := by
      simp only [offsetAt, blockSize] at hin hp hpos ⊢
      omega
    exact ((ih hp hbefore).record hblock hbefore hp hrec).2 hret

/-- A block in which parsing does not stop leads to the next one. -/
theorem Reached.leave {buffer : Buffer} (hblock : blockAt src block k = .ok buffer)
    (hopen : ¬ Stops src newIfs block first k) (hnext : ¬ Unreadable src block (k + 1))
    (left pos : Nat) (hleft : blockSize - pos ≤ left)
    (hstart : RecordStart newIfs buffer k (startOf first k) pos) (hpos : pos ≤ blockSize)
    (h : Reached src newIfs block (dirSize first) k pos) :
    Reached src newIfs block (dirSize first) (k + 1) 0 := by
  have hmore : ∀ p, RecordStart newIfs buffer k (startOf first k) p → p ≤ blockSize →
      offsetAt k p < dirSize first := by
    intro p hp hle
    by_contra hend
    exact hopen (Or.inr (Or.inr ⟨buffer, p, hblock, hp, hle, by omega⟩))
  induction left generalizing pos with
  | zero => exact h.padding hblock (hmore pos hstart hpos) hpos (Or.inl (by omega)) hnext
  | succ left ih =>
    by_cases hpad : pos = blockSize ∨ buffer pos = 0
    · exact h.padding hblock (hmore pos hstart hpos) hpos hpad hnext
    · obtain ⟨hfull, hrec⟩ := not_or.mp hpad
      have hlt : pos < blockSize := by omega
      have hlen := lenDr_pos hrec
      have hin := hmore pos hstart hpos
      have hret : 0 ≤ newIfs k pos := Int.not_lt.mp fun hret =>
        hopen (Or.inr (Or.inl ⟨buffer, pos, hblock, hstart, hlt, hin, hrec, hret⟩))
      obtain ⟨hfits, hreached⟩ := h.record hblock hin hlt hrec
      exact ih _ (by omega) (hstart.next hlt hrec hret) hfits.1 (hreached hret)

end Necessary

end ReadDir
