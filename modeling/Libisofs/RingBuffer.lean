import Libisofs.Lib.Runs
import Libisofs.Lib.Ring
import Mathlib.Algebra.Ring.Nat

/-!
# The ring buffer between image writer and image reader

The functions of buffer.c at the granularity of their mutex sections: one turn of
a party runs from pthread_mutex_lock(), or from waking up in pthread_cond_wait(),
to the next unlock or wait. A turn of a waiting party is always possible because
POSIX allows wake-ups without a signal. Allocation of the buffer succeeds, so that it
has less than 2^63 bytes and sums of two positions do not wrap around.
-/

namespace RingBuffer

open LabelledRuns RingStore

/-- The two-bit flags rend and wend: 0 not finished, 1 finished ok, 2 with error. -/
inductive EndState where
  | notFinished
  | finishedOk
  | finishedWithError
  deriving DecidableEq

def endState (error : Bool) : EndState :=
  if error then .finishedWithError else .finishedOk

structure IsoRingBuffer where
  buf : Nat → UInt8
  cap : Nat
  size : Nat
  rpos : Nat
  wpos : Nat
  rend : EndState
  wend : EndState
  timesFull : Nat
  timesEmpty : Nat

/-- `cap` in the arithmetic of size_t. BLOCK_SIZE is 2048. -/
def capOf (size : UInt64) : UInt64 := (if size > 32 then size else 32) * 2048

/-- The malloc() memory of the buffer holds arbitrary bytes. -/
def isoRingBufferNew (size : UInt64) (memory : Nat → UInt8) : IsoRingBuffer where
  buf := memory
  cap := (capOf size).toNat
  size := 0
  rpos := 0
  wpos := 0
  rend := .notFinished
  wend := .notFinished
  timesFull := 0
  timesEmpty := 0

/-- How far the writer thread is: between calls, before the test of the outer loop
of iso_ring_buffer_write(), in pthread_cond_wait() on `full`, or after its close. -/
inductive WriterPc where
  | idle
  | looping (data : List UInt8) (bytesWrite : Nat)
  | waiting (data : List UInt8) (bytesWrite : Nat) (signalled : Bool)
  | closed

/-- The same for iso_ring_buffer_read(); `dest` holds the bytes copied so far. -/
inductive ReaderPc where
  | idle
  | looping (count : Nat) (dest : List UInt8)
  | waiting (count : Nat) (dest : List UInt8) (signalled : Bool)
  | closed

/-- pthread_cond_signal() reaches a party only while it waits. -/
def WriterPc.signal : WriterPc → WriterPc
  | .waiting data n _ => .waiting data n true
  | pc => pc

def ReaderPc.signal : ReaderPc → ReaderPc
  | .waiting count dest _ => .waiting count dest true
  | pc => pc

structure State where
  rbuf : IsoRingBuffer
  writer : WriterPc
  reader : ReaderPc

inductive Action where
  | write (data : List UInt8)
  | writerTurn
  | writerClose (error : Bool)
  | read (count : Nat)
  | readerTurn
  | readerClose (error : Bool)

/-- What the callers see: their calls, and what these return. -/
inductive Event where
  | internal
  | writeCall (data : List UInt8)
  | writeReturn (ret : Int)
  | writerClosed
  | readCall (count : Nat)
  | readReturn (dest : List UInt8) (ret : Int)
  | readerClosed

/-- The chunk length of one mutex section of the writer. -/
def writeLen (b : IsoRingBuffer) (todo : Nat) : Nat :=
  let len := min todo (b.cap - b.size)
  if b.wpos + len > b.cap then b.cap - b.wpos else len

/-- The chunk length of one mutex section of the reader. -/
def readLen (b : IsoRingBuffer) (todo : Nat) : Nat :=
  let len := min todo b.size
  if b.rpos + len > b.cap then b.cap - b.rpos else len

def putChunk (b : IsoRingBuffer) (chunk : List UInt8) (len : Nat) : IsoRingBuffer :=
  { b with
    buf := store b.buf b.wpos chunk
    wpos := (b.wpos + len) % b.cap
    size := b.size + len }

def dropChunk (b : IsoRingBuffer) (len : Nat) : IsoRingBuffer :=
  { b with rpos := (b.rpos + len) % b.cap, size := b.size - len }

/-- One mutex section of iso_ring_buffer_write(). -/
def writerSection (s : State) (data : List UInt8) (bytesWrite : Nat) : State × Event :=
  if s.rbuf.size = s.rbuf.cap then
    if s.rbuf.rend ≠ .notFinished then
      ({ s with writer := .idle }, .writeReturn 0)
    else
      ({ s with
          rbuf := { s.rbuf with timesFull := s.rbuf.timesFull + 1 }
          writer := .waiting data bytesWrite false }, .internal)
  else
    let len := writeLen s.rbuf (data.length - bytesWrite)
    ({ rbuf := putChunk s.rbuf ((data.drop bytesWrite).take len) len
       writer := .looping data (bytesWrite + len)
       reader := s.reader.signal }, .internal)

/-- One mutex section of iso_ring_buffer_read(). -/
def readerSection (s : State) (count : Nat) (dest : List UInt8) : State × Event :=
  if s.rbuf.size = 0 then
    if s.rbuf.wend ≠ .notFinished then
      ({ s with reader := .idle }, .readReturn dest 0)
    else
      ({ s with
          rbuf := { s.rbuf with timesEmpty := s.rbuf.timesEmpty + 1 }
          reader := .waiting count dest false }, .internal)
  else
    let len := readLen s.rbuf (count - dest.length)
    ({ rbuf := dropChunk s.rbuf len
       writer := s.writer.signal
       reader := .looping count (dest ++ load s.rbuf.buf s.rbuf.rpos len) }, .internal)

def isoRingBufferWriterClose (s : State) (error : Bool) : State :=
  { rbuf := { s.rbuf with wend := endState error }
    writer := .closed
    reader := s.reader.signal }

def isoRingBufferReaderClose (s : State) (error : Bool) : State :=
  if s.rbuf.rend ≠ .notFinished then s
  else
    { rbuf := { s.rbuf with rend := endState error }
      writer := s.writer.signal
      reader := .closed }

/-- After its close, a party makes no more calls, except that the reader may close again. -/
def step (s : State) : Action → Option (State × Event)
  | .write data =>
    match s.writer with
    | .idle => some ({ s with writer := .looping data 0 }, .writeCall data)
    | _ => none
  | .writerTurn =>
    match s.writer with
    | .looping data n =>
      if n < data.length then some (writerSection s data n)
      else some ({ s with writer := .idle }, .writeReturn 1)
    | .waiting data n _ => some (writerSection s data n)
    | _ => none
  | .writerClose error =>
    match s.writer with
    | .idle => some (isoRingBufferWriterClose s error, .writerClosed)
    | _ => none
  | .read count =>
    match s.reader with
    | .idle => some ({ s with reader := .looping count [] }, .readCall count)
    | _ => none
  | .readerTurn =>
    match s.reader with
    | .looping count dest =>
      if dest.length < count then some (readerSection s count dest)
      else some ({ s with reader := .idle }, .readReturn dest 1)
    | .waiting count dest _ => some (readerSection s count dest)
    | _ => none
  | .readerClose error =>
    match s.reader with
    | .idle | .closed => some (isoRingBufferReaderClose s error, .readerClosed)
    | _ => none

/-- One writer and one reader on a fresh buffer of `size` blocks. -/
def initial (size : UInt64) (memory : Nat → UInt8) : State where
  rbuf := isoRingBufferNew size memory
  writer := .idle
  reader := .idle

def ring : System State Action Event := ⟨step⟩

def Event.given : Event → List UInt8
  | .writeCall data => data
  | _ => []

def Event.received : Event → List UInt8
  | .readReturn dest _ => dest
  | _ => []

def Event.asked : Event → Option Nat
  | .readCall count => some count
  | _ => none

/-- The bytes handed over to iso_ring_buffer_write(), call by call. -/
def given (trace : List Event) : List UInt8 := trace.flatMap Event.given

/-- The bytes in the destinations of iso_ring_buffer_read() when it returned. -/
def received (trace : List Event) : List UInt8 := trace.flatMap Event.received

/-- How many bytes the last call of iso_ring_buffer_read() wants. -/
def asked (trace : List Event) : Option Nat := (trace.filterMap Event.asked).getLast?

/-- What the call of the writer has still to store. -/
def WriterPc.rest : WriterPc → List UInt8
  | .looping data n | .waiting data n _ => data.drop n
  | _ => []

/-- What the call of the reader has got already. -/
def ReaderPc.dest : ReaderPc → List UInt8
  | .looping _ dest | .waiting _ dest _ => dest
  | _ => []

/-- The condition under which the writer has to stay in pthread_cond_wait(). -/
def WriterMustWait (b : IsoRingBuffer) : Prop := b.size = b.cap ∧ b.rend = .notFinished

def ReaderMustWait (b : IsoRingBuffer) : Prop := b.size = 0 ∧ b.wend = .notFinished

/-- A party waits although it could go on, and no signal will wake it up. -/
def LostWakeup (s : State) : Prop :=
  (∃ data n, s.writer = .waiting data n false ∧ ¬ WriterMustWait s.rbuf) ∨
  (∃ count dest, s.reader = .waiting count dest false ∧ ¬ ReaderMustWait s.rbuf)

theorem writeLen_le_todo (b : IsoRingBuffer) (todo : Nat) : writeLen b todo ≤ todo := by
  simp only [writeLen]
  split <;> omega

theorem writeLen_le_room (b : IsoRingBuffer) (todo : Nat) :
    writeLen b todo ≤ b.cap - b.size := by
  simp only [writeLen]
  split <;> omega

/-- memcpy() stays inside of the buffer. -/
theorem writeLen_fits (b : IsoRingBuffer) (todo : Nat) (h : b.wpos ≤ b.cap) :
    b.wpos + writeLen b todo ≤ b.cap := by
  simp only [writeLen]
  split <;> omega

theorem readLen_le_todo (b : IsoRingBuffer) (todo : Nat) : readLen b todo ≤ todo := by
  simp only [readLen]
  split <;> omega

theorem readLen_le_size (b : IsoRingBuffer) (todo : Nat) : readLen b todo ≤ b.size := by
  simp only [readLen]
  split <;> omega

theorem readLen_fits (b : IsoRingBuffer) (todo : Nat) (h : b.rpos ≤ b.cap) :
    b.rpos + readLen b todo ≤ b.cap := by
  simp only [readLen]
  split <;> omega

@[simp] theorem given_snoc (trace : List Event) (e : Event) :
    given (trace ++ [e]) = given trace ++ e.given := by
  simp [given]

@[simp] theorem received_snoc (trace : List Event) (e : Event) :
    received (trace ++ [e]) = received trace ++ e.received := by
  simp [received]

/-- A call to read overrides what was asked for before. -/
theorem asked_snoc (trace : List Event) (e : Event) :
    asked (trace ++ [e]) = e.asked.or (asked trace) := by
  cases he : e.asked <;> simp [asked, he]

@[simp] theorem dest_looping (count : Nat) (dest : List UInt8) :
    (ReaderPc.looping count dest).dest = dest := rfl

@[simp] theorem writer_signal_rest (pc : WriterPc) : pc.signal.rest = pc.rest := by
  cases pc <;> rfl

@[simp] theorem reader_signal_dest (pc : ReaderPc) : pc.signal.dest = pc.dest := by
  cases pc <;> rfl

theorem writer_signal_eq_waiting {pc : WriterPc} {data : List UInt8} {n : Nat} :
    pc.signal ≠ .waiting data n false := by
  cases pc <;> simp [WriterPc.signal]

theorem reader_signal_eq_waiting {pc : ReaderPc} {count : Nat} {dest : List UInt8} :
    pc.signal ≠ .waiting count dest false := by
  cases pc <;> simp [ReaderPc.signal]

theorem writer_signal_closed {pc : WriterPc} : pc.signal = .closed ↔ pc = .closed := by
  cases pc <;> simp [WriterPc.signal]

theorem reader_signal_closed {pc : ReaderPc} : pc.signal = .closed ↔ pc = .closed := by
  cases pc <;> simp [ReaderPc.signal]

theorem reader_signal_looping {pc : ReaderPc} {count : Nat} {dest : List UInt8} :
    pc.signal = .looping count dest ↔ pc = .looping count dest := by
  cases pc <;> simp [ReaderPc.signal]

theorem reader_signal_waiting {pc : ReaderPc} {count : Nat} {dest : List UInt8} {b : Bool}
    (h : pc.signal = .waiting count dest b) : ∃ b', pc = .waiting count dest b' := by
  cases pc <;> simp_all [ReaderPc.signal]

/-- The writer finds no more room, and nobody will make some. -/
def GivenUp (s : State) : Prop :=
  s.rbuf.rend ≠ .notFinished ∧ s.rbuf.size = s.rbuf.cap ∧ s.reader = .closed

/-- The buffer holds what was given and not yet got, up to what is still to be stored. -/
structure Content (trace : List Event) (s : State) : Prop where
  size_le : s.rbuf.size ≤ s.rbuf.cap
  rpos_lt : 0 < s.rbuf.cap → s.rbuf.rpos < s.rbuf.cap
  wpos_eq : s.rbuf.wpos = (s.rbuf.rpos + s.rbuf.size) % s.rbuf.cap
  fifo : ∃ rest, given trace = received trace ++ s.reader.dest ++
      contents s.rbuf.buf s.rbuf.cap s.rbuf.rpos s.rbuf.size ++ rest ∧
    (rest = s.writer.rest ∨ GivenUp s)

/-- How the flags, the waiting parties and the closed ones belong together. -/
structure Sync (trace : List Event) (s : State) : Prop where
  wend_closed : s.rbuf.wend ≠ .notFinished → s.writer = .closed ∧ .writerClosed ∈ trace
  rend_closed : s.rbuf.rend ≠ .notFinished → s.reader = .closed ∧ .readerClosed ∈ trace
  looping : ∀ count dest, s.reader = .looping count dest →
    asked trace = some count ∧ dest.length ≤ count
  waiting : ∀ count dest b, s.reader = .waiting count dest b →
    asked trace = some count ∧ dest.length < count
  writer_waits : ∀ data n, s.writer = .waiting data n false → WriterMustWait s.rbuf
  reader_waits : ∀ count dest, s.reader = .waiting count dest false → ReaderMustWait s.rbuf

/-- A step which moves no bytes between the buffer and the calls. -/
theorem Content.move {trace : List Event} {s s' : State} {e : Event} (h : Content trace s)
    (hbuf : s'.rbuf.buf = s.rbuf.buf ∧ s'.rbuf.cap = s.rbuf.cap ∧ s'.rbuf.size = s.rbuf.size ∧
      s'.rbuf.rpos = s.rbuf.rpos ∧ s'.rbuf.wpos = s.rbuf.wpos)
    (hdest : e.received ++ s'.reader.dest = s.reader.dest)
    (hrest : s'.writer.rest = s.writer.rest ++ e.given ∨ GivenUp s')
    (hup : GivenUp s → GivenUp s') : Content (trace ++ [e]) s' := by
  obtain ⟨hcells, hcap, hsize, hrpos, hwpos⟩ := hbuf
  obtain ⟨rest, hfifo, hcase⟩ := h.fifo
  refine ⟨by rw [hsize, hcap]; exact h.size_le, by rw [hcap, hrpos]; exact h.rpos_lt,
    by rw [hwpos, hrpos, hsize, hcap]; exact h.wpos_eq, rest ++ e.given, ?_, ?_⟩
  · rw [given_snoc, received_snoc, hfifo, hcells, hcap, hrpos, hsize, ← hdest]
    simp only [List.append_assoc]
  · rcases hcase with rfl | hgiven
    · exact hrest.imp Eq.symm id
    · exact Or.inr (hup hgiven)

theorem GivenUp.mono {s s' : State} (h : GivenUp s) (hrend : s'.rbuf.rend = s.rbuf.rend)
    (hsize : s'.rbuf.size = s.rbuf.size) (hcap : s'.rbuf.cap = s.rbuf.cap)
    (hreader : s'.reader = .closed) : GivenUp s' := by
  rw [GivenUp, hrend, hsize, hcap]
  exact ⟨h.1, h.2.1, hreader⟩

theorem Content.put {trace : List Event} {s : State} (h : Content trace s)
    (data : List UInt8) (n : Nat) (hrest : s.writer.rest = data.drop n)
    (hfull : s.rbuf.size ≠ s.rbuf.cap) :
    Content (trace ++ [.internal]) (writerSection s data n).1 := by
  have hle := h.size_le
  have hwpos : s.rbuf.wpos ≤ s.rbuf.cap := by
    rw [h.wpos_eq]
    exact Nat.le_of_lt (Nat.mod_lt _ (by omega))
  have hroom := writeLen_le_room s.rbuf (data.length - n)
  have hfit := writeLen_fits s.rbuf (data.length - n) hwpos
  have hlen : ((data.drop n).take (writeLen s.rbuf (data.length - n))).length =
      writeLen s.rbuf (data.length - n) := by
    have := writeLen_le_todo s.rbuf (data.length - n)
    simp only [List.length_take, List.length_drop]
    omega
  obtain ⟨rest, hfifo, hcase⟩ := h.fifo
  obtain rfl : rest = data.drop n := (hcase.resolve_right fun hup => hfull hup.2.1).trans hrest
  rw [writerSection, if_neg hfull]
  refine ⟨?_, h.rpos_lt, ?_, data.drop (n + writeLen s.rbuf (data.length - n)), ?_, Or.inl rfl⟩
  · simp only [putChunk]
    omega
  · simp only [putChunk, h.wpos_eq, Nat.mod_add_mod, Nat.add_assoc]
  · have hstore := contents_store s.rbuf.buf s.rbuf.cap s.rbuf.rpos s.rbuf.size
      ((data.drop n).take (writeLen s.rbuf (data.length - n))) (by omega)
      (by rw [← h.wpos_eq]; omega)
    rw [← h.wpos_eq, hlen] at hstore
    have hsplit := List.take_append_drop (writeLen s.rbuf (data.length - n)) (data.drop n)
    rw [List.drop_drop] at hsplit
    simp only [given_snoc, received_snoc, Event.given, Event.received, List.append_nil,
      reader_signal_dest, putChunk, hstore, hfifo, List.append_assoc, hsplit]

theorem Content.fetch {trace : List Event} {s : State} (count : Nat) {dest : List UInt8}
    (h : Content trace s) (hreader : s.reader ≠ .closed) (hdest : s.reader.dest = dest)
    (hempty : s.rbuf.size ≠ 0) : Content (trace ++ [.internal]) (readerSection s count dest).1 := by
  have hle := h.size_le
  have hpos : 0 < s.rbuf.cap := by omega
  have hlt := h.rpos_lt hpos
  have hmod : s.rbuf.rpos % s.rbuf.cap = s.rbuf.rpos := Nat.mod_eq_of_lt hlt
  have hsize := readLen_le_size s.rbuf (count - dest.length)
  have hfit := readLen_fits s.rbuf (count - dest.length) (Nat.le_of_lt hlt)
  obtain ⟨rest, hfifo, hcase⟩ := h.fifo
  rw [hdest] at hfifo
  rw [readerSection, if_neg hempty]
  refine ⟨?_, fun _ => Nat.mod_lt _ hpos, ?_, rest, ?_, ?_⟩
  · simp only [dropChunk]
    omega
  · simp only [dropChunk, Nat.mod_add_mod, h.wpos_eq]
    congr 1
    omega
  · have hload := contents_load s.rbuf.buf s.rbuf.cap s.rbuf.rpos s.rbuf.size
      (readLen s.rbuf (count - dest.length)) hsize (by omega)
    rw [hmod] at hload
    simp only [given_snoc, received_snoc, Event.given, Event.received, List.append_nil,
      dest_looping, dropChunk, hfifo, hload, List.append_assoc]
  · rw [writer_signal_rest]
    exact Or.inl (hcase.resolve_right fun hup => hreader hup.2.2)

theorem initial_content (size : UInt64) (memory : Nat → UInt8) :
    Content [] (initial size memory) := by
  refine ⟨Nat.zero_le _, id, (Nat.zero_mod _).symm, [], ?_, Or.inl rfl⟩
  simp [initial, isoRingBufferNew, given, received, ReaderPc.dest, contents]

theorem initial_sync (size : UInt64) (memory : Nat → UInt8) : Sync [] (initial size memory) := by
  constructor <;> simp [initial, isoRingBufferNew]

theorem Sync.open_wend {trace : List Event} {s : State} (h : Sync trace s)
    (hopen : s.writer ≠ .closed) : s.rbuf.wend = .notFinished := by
  by_contra hend
  exact hopen (h.wend_closed hend).1

theorem Sync.open_rend {trace : List Event} {s : State} (h : Sync trace s)
    (hopen : s.reader ≠ .closed) : s.rbuf.rend = .notFinished := by
  by_contra hend
  exact hopen (h.rend_closed hend).1

/-- The writer signals the reader. -/
theorem Sync.signalReader {trace : List Event} {s : State} (sync : Sync trace s) {e : Event}
    (hasked : e.asked = none) {rbuf : IsoRingBuffer} {pc : WriterPc}
    (hrend : rbuf.rend = s.rbuf.rend)
    (hwend : rbuf.wend ≠ .notFinished → pc = .closed ∧ .writerClosed ∈ trace ++ [e])
    (hpc : ∀ data n, pc ≠ .waiting data n false) :
    Sync (trace ++ [e]) ⟨rbuf, pc, s.reader.signal⟩ := by
  refine ⟨hwend, ?_, ?_, ?_, fun data n h => absurd h (hpc data n), ?_⟩
  · intro hend
    obtain ⟨hclosed, hmem⟩ := sync.rend_closed (hrend ▸ hend)
    exact ⟨reader_signal_closed.mpr hclosed, List.mem_append_left _ hmem⟩
  · intro count dest h
    simpa [asked_snoc, hasked] using sync.looping _ _ (reader_signal_looping.mp h)
  · intro count dest b h
    obtain ⟨b', h'⟩ := reader_signal_waiting h
    simpa [asked_snoc, hasked] using sync.waiting _ _ b' h'
  · intro count dest h
    exact absurd h reader_signal_eq_waiting

/-- A turn of the writer keeps both invariants; it signals the reader after each
chunk, and waits only in a state where it has to. -/
theorem writerSection_keeps {trace : List Event} {s : State} (data : List UInt8) (n : Nat)
    (content : Content trace s) (sync : Sync trace s) (hopen : s.writer ≠ .closed)
    (hrest : s.writer.rest = data.drop n) :
    Content (trace ++ [(writerSection s data n).2]) (writerSection s data n).1 ∧
    Sync (trace ++ [(writerSection s data n).2]) (writerSection s data n).1 := by
  have hwend := sync.open_wend hopen
  by_cases hfull : s.rbuf.size = s.rbuf.cap
  · by_cases hrend : s.rbuf.rend = .notFinished
    · rw [writerSection, if_pos hfull, if_neg (not_not.mpr hrend)]
      refine ⟨content.move ⟨rfl, rfl, rfl, rfl, rfl⟩ rfl
        (Or.inl ((List.append_nil _).trans hrest).symm) id, ?_⟩
      refine ⟨by simp [hwend], by simp [hrend], ?_, ?_, ?_, sync.reader_waits⟩
      · simpa [asked_snoc, Event.asked] using sync.looping
      · simpa [asked_snoc, Event.asked] using sync.waiting
      · intro data' n' _
        exact ⟨hfull, hrend⟩
    · rw [writerSection, if_pos hfull, if_pos hrend]
      obtain ⟨hclosed, hmem⟩ := sync.rend_closed hrend
      refine ⟨content.move ⟨rfl, rfl, rfl, rfl, rfl⟩ rfl (Or.inr ⟨hrend, hfull, hclosed⟩) id, ?_⟩
      exact ⟨by simp [hwend], fun _ => ⟨hclosed, List.mem_append_left _ hmem⟩, by simp [hclosed],
        by simp [hclosed], by simp, sync.reader_waits⟩
  · refine ⟨?_, ?_⟩
    · have put := content.put data n hrest hfull
      rw [writerSection, if_neg hfull] at put ⊢
      exact put
    · rw [writerSection, if_neg hfull]
      exact sync.signalReader rfl rfl (by simp [putChunk, hwend]) nofun

theorem readerSection_keeps {trace : List Event} {s : State} {count : Nat}
    {dest : List UInt8} (content : Content trace s) (sync : Sync trace s)
    (hopen : s.reader ≠ .closed) (hdest : s.reader.dest = dest)
    (hasked : asked trace = some count) (htodo : dest.length < count) :
    Content (trace ++ [(readerSection s count dest).2]) (readerSection s count dest).1 ∧
    Sync (trace ++ [(readerSection s count dest).2]) (readerSection s count dest).1 := by
  have hrend := sync.open_rend hopen
  by_cases hempty : s.rbuf.size = 0
  · by_cases hwend : s.rbuf.wend = .notFinished
    · rw [readerSection, if_pos hempty, if_neg (not_not.mpr hwend)]
      refine ⟨content.move ⟨rfl, rfl, rfl, rfl, rfl⟩ hdest.symm
        (Or.inl (List.append_nil _).symm) fun hup => absurd hup.2.2 hopen, ?_⟩
      refine ⟨by simp [hwend], by simp [hrend], by simp, ?_, sync.writer_waits, ?_⟩
      · intro count' dest' b h
        simp only [ReaderPc.waiting.injEq] at h
        obtain ⟨rfl, rfl, -⟩ := h
        exact ⟨by simpa [asked_snoc, Event.asked] using hasked, htodo⟩
      · intro count' dest' _
        exact ⟨hempty, hwend⟩
    · rw [readerSection, if_pos hempty, if_pos hwend]
      obtain ⟨hclosed, hmem⟩ := sync.wend_closed hwend
      refine ⟨content.move ⟨rfl, rfl, rfl, rfl, rfl⟩ ((List.append_nil _).trans hdest.symm)
        (Or.inl (List.append_nil _).symm) fun hup => absurd hup.2.2 hopen, ?_⟩
      exact ⟨fun _ => ⟨hclosed, List.mem_append_left _ hmem⟩, by simp [hrend], by simp, by simp,
        sync.writer_waits, by simp⟩
  · refine ⟨?_, ?_⟩
    · have fetch := content.fetch count hopen hdest hempty
      rw [readerSection, if_neg hempty] at fetch ⊢
      exact fetch
    · rw [readerSection, if_neg hempty]
      refine ⟨?_, by simp [dropChunk, hrend], ?_, by simp, ?_, by simp⟩
      · intro hend
        obtain ⟨hclosed, hmem⟩ := sync.wend_closed hend
        exact ⟨writer_signal_closed.mpr hclosed, List.mem_append_left _ hmem⟩
      · intro count' dest' h
        simp only [ReaderPc.looping.injEq] at h
        obtain ⟨rfl, rfl⟩ := h
        have := readLen_le_todo s.rbuf (count - dest.length)
        refine ⟨by simpa [asked_snoc, Event.asked] using hasked, ?_⟩
        simp only [List.length_append, load_length]
        omega
      · intro data n h
        exact False.elim (writer_signal_eq_waiting h)

theorem writerClose_keeps {trace : List Event} {s : State} (error : Bool)
    (hidle : s.writer = .idle) (content : Content trace s) (sync : Sync trace s) :
    Content (trace ++ [.writerClosed]) (isoRingBufferWriterClose s error) ∧
    Sync (trace ++ [.writerClosed]) (isoRingBufferWriterClose s error) := by
  refine ⟨content.move ⟨rfl, rfl, rfl, rfl, rfl⟩ (reader_signal_dest _) (Or.inl ?_)
    fun hup => hup.mono rfl rfl rfl (reader_signal_closed.mpr hup.2.2), ?_⟩
  · rw [hidle]
    rfl
  exact sync.signalReader rfl rfl (by simp) nofun

theorem readerClose_keeps {trace : List Event} {s : State} (error : Bool)
    (hdone : s.reader = .idle ∨ s.reader = .closed) (content : Content trace s)
    (sync : Sync trace s) :
    Content (trace ++ [.readerClosed]) (isoRingBufferReaderClose s error) ∧
    Sync (trace ++ [.readerClosed]) (isoRingBufferReaderClose s error) := by
  have hdest : s.reader.dest = [] := by
    rcases hdone with h | h <;> rw [h] <;> rfl
  have hwend : s.rbuf.wend ≠ .notFinished →
      s.writer = .closed ∧ Event.writerClosed ∈ trace ++ [.readerClosed] :=
    fun h => ⟨(sync.wend_closed h).1, List.mem_append_left _ (sync.wend_closed h).2⟩
  by_cases hrend : s.rbuf.rend = .notFinished
  · rw [isoRingBufferReaderClose, if_neg (not_not.mpr hrend)]
    refine ⟨content.move ⟨rfl, rfl, rfl, rfl, rfl⟩ hdest.symm (Or.inl ?_)
      fun hup => absurd hrend hup.1, ?_⟩
    · exact (writer_signal_rest _).trans (List.append_nil _).symm
    refine ⟨?_, by simp, by simp, by simp, ?_, by simp⟩
    · intro h
      exact ⟨writer_signal_closed.mpr (hwend h).1, (hwend h).2⟩
    · intro data n h
      exact False.elim (writer_signal_eq_waiting h)
  · rw [isoRingBufferReaderClose, if_pos hrend]
    have hclosed := (sync.rend_closed hrend).1
    refine ⟨content.move ⟨rfl, rfl, rfl, rfl, rfl⟩ rfl (Or.inl (List.append_nil _).symm) id, ?_⟩
    exact ⟨hwend, by simp [hclosed], by simp [hclosed], by simp [hclosed], sync.writer_waits,
      by simp [hclosed]⟩

/-- A call begins or returns outside of the mutex: only the writer's place changes. -/
theorem writerMove_keeps {trace : List Event} {s : State} {e : Event} {pc : WriterPc}
    (content : Content trace s) (sync : Sync trace s) (hopen : s.writer ≠ .closed)
    (hpc : ∀ data n, pc ≠ .waiting data n false) (hrest : pc.rest = s.writer.rest ++ e.given)
    (hreceived : e.received = []) (hasked : e.asked = none) :
    Content (trace ++ [e]) { s with writer := pc } ∧ Sync (trace ++ [e]) { s with writer := pc } := by
  refine ⟨content.move ⟨rfl, rfl, rfl, rfl, rfl⟩ (by rw [hreceived]; rfl) (Or.inl hrest) id, ?_⟩
  refine ⟨?_, ?_, ?_, ?_, ?_, sync.reader_waits⟩
  · intro hend
    exact absurd (sync.open_wend hopen) hend
  · intro hend
    exact ⟨(sync.rend_closed hend).1, List.mem_append_left _ (sync.rend_closed hend).2⟩
  · simpa [asked_snoc, hasked] using sync.looping
  · simpa [asked_snoc, hasked] using sync.waiting
  · intro data n h
    exact absurd h (hpc data n)

theorem readerMove_keeps {trace : List Event} {s : State} {e : Event} {pc : ReaderPc}
    (content : Content trace s) (sync : Sync trace s) (hopen : s.reader ≠ .closed)
    (hpc : pc = .idle ∨ ∃ count, pc = .looping count [] ∧ e.asked = some count)
    (hdest : e.received ++ pc.dest = s.reader.dest) (hgiven : e.given = []) :
    Content (trace ++ [e]) { s with reader := pc } ∧ Sync (trace ++ [e]) { s with reader := pc } := by
  refine ⟨content.move ⟨rfl, rfl, rfl, rfl, rfl⟩ hdest
    (Or.inl (by rw [hgiven]; exact (List.append_nil _).symm)) fun hup => absurd hup.2.2 hopen, ?_⟩
  refine ⟨?_, ?_, ?_, ?_, sync.writer_waits, ?_⟩
  · intro hend
    exact ⟨(sync.wend_closed hend).1, List.mem_append_left _ (sync.wend_closed hend).2⟩
  · intro hend
    exact absurd (sync.open_rend hopen) hend
  · rintro count dest rfl
    rcases hpc with h | ⟨count', h, hasked⟩
    · cases h
    · cases h
      exact ⟨by rw [asked_snoc, hasked]; rfl, Nat.zero_le _⟩
  · rintro count dest b rfl
    rcases hpc with h | ⟨_, h, _⟩ <;> cases h
  · rintro count dest rfl
    rcases hpc with h | ⟨_, h, _⟩ <;> cases h

/-- The step lemma: every action of either party keeps both invariants. -/
theorem step_keeps {trace : List Event} {s s' : State} {a : Action} {e : Event}
    (inv : Content trace s ∧ Sync trace s) (h : step s a = some (s', e)) :
    Content (trace ++ [e]) s' ∧ Sync (trace ++ [e]) s' := by
  obtain ⟨content, sync⟩ := inv
  cases a with
  | write data =>
    simp only [step] at h
    split at h <;> cases h
    next hpc =>
      exact writerMove_keeps content sync (by simp [hpc]) (by simp) (by rw [hpc]; rfl) rfl rfl
  | writerTurn =>
    simp only [step] at h
    split at h
    next data n hpc =>
      have hopen : s.writer ≠ .closed := by simp [hpc]
      split at h
      · have keeps := writerSection_keeps data n content sync hopen
          (by rw [hpc]; rfl)
        rwa [Option.some.inj h] at keeps
      next hdone =>
        cases h
        have hrest : s.writer.rest = [] := by
          rw [hpc]
          exact List.drop_eq_nil_of_le (by omega)
        exact writerMove_keeps content sync hopen (by simp) (by rw [hrest]; rfl) rfl rfl
    next data n b hpc =>
      have keeps := writerSection_keeps data n content sync (by simp [hpc])
        (by rw [hpc]; rfl)
      rwa [Option.some.inj h] at keeps
    next => cases h
  | writerClose error =>
    simp only [step] at h
    split at h <;> cases h
    next hpc => exact writerClose_keeps error hpc content sync
  | read count =>
    simp only [step] at h
    split at h <;> cases h
    next hpc =>
      exact readerMove_keeps content sync (by simp [hpc]) (Or.inr ⟨count, rfl, rfl⟩)
        (by rw [hpc]; rfl) rfl
  | readerTurn =>
    simp only [step] at h
    split at h
    next count dest hpc =>
      have hopen : s.reader ≠ .closed := by simp [hpc]
      have hdest : s.reader.dest = dest := by rw [hpc]; rfl
      split at h
      next htodo =>
        have keeps := readerSection_keeps content sync hopen hdest
          (sync.looping count dest hpc).1 htodo
        rwa [Option.some.inj h] at keeps
      next =>
        cases h
        exact readerMove_keeps content sync hopen (Or.inl rfl)
          ((List.append_nil _).trans hdest.symm) rfl
    next count dest b hpc =>
      obtain ⟨hasked, htodo⟩ := sync.waiting count dest b hpc
      have keeps := readerSection_keeps content sync (by simp [hpc]) (by rw [hpc]; rfl) hasked htodo
      rwa [Option.some.inj h] at keeps
    next => cases h
  | readerClose error =>
    simp only [step] at h
    split at h <;> cases h
    next hpc => exact readerClose_keeps error (Or.inl hpc) content sync
    next hpc => exact readerClose_keeps error (Or.inr hpc) content sync

theorem run_keeps {size : UInt64} {memory : Nat → UInt8} {trace : List Event} {s : State}
    (run : Run ring (initial size memory) trace s) : Content trace s ∧ Sync trace s :=
  run.invariant (I := fun trace s => Content trace s ∧ Sync trace s)
    ⟨initial_content size memory, initial_sync size memory⟩ step_keeps

theorem no_lost_wakeup {trace : List Event} {s : State} (sync : Sync trace s) :
    ¬ LostWakeup s := by
  rintro (⟨data, n, hpc, hgo⟩ | ⟨count, dest, hpc, hgo⟩)
  · exact hgo (sync.writer_waits data n hpc)
  · exact hgo (sync.reader_waits count dest hpc)

theorem writerSection_not_return {s s' : State} {data : List UInt8} {n : Nat}
    {dest : List UInt8} {ret : Int} : writerSection s data n ≠ (s', .readReturn dest ret) := by
  intro h
  simp only [writerSection] at h
  split at h
  · split at h <;> simp at h
  · simp at h

/-- The only return from inside a section of the reader is the one on end of file. -/
theorem readerSection_return {s s' : State} {count : Nat} {dest dest' : List UInt8}
    {ret : Int} (h : readerSection s count dest = (s', .readReturn dest' ret)) :
    ret = 0 ∧ dest = dest' ∧ s.rbuf.size = 0 ∧ s.rbuf.wend ≠ .notFinished := by
  simp only [readerSection] at h
  split at h
  next hempty =>
    split at h
    next hend =>
      simp only [Prod.mk.injEq, Event.readReturn.injEq] at h
      exact ⟨h.2.2.symm, h.2.1, hempty, hend⟩
    next => simp at h
  next => simp at h

/-- The read function returns 0 only from a section which found the buffer empty and
the writer closed; else it returns 1 with all the bytes that were asked for. -/
theorem readReturn_cases {trace : List Event} {s s' : State} {a : Action}
    {dest : List UInt8} {ret : Int} (sync : Sync trace s)
    (h : step s a = some (s', .readReturn dest ret)) :
    (ret = 0 ∧ s.reader ≠ .closed ∧ s.reader.dest = dest ∧ s.rbuf.size = 0 ∧
      s.rbuf.wend ≠ .notFinished) ∨ (ret = 1 ∧ asked trace = some dest.length) := by
  cases a with
  | readerTurn =>
    simp only [step] at h
    split at h
    next count dest' hpc =>
      split at h
      · obtain ⟨hret, rfl, hend⟩ := readerSection_return (Option.some.inj h)
        exact Or.inl ⟨hret, by simp [hpc], by rw [hpc]; rfl, hend⟩
      next hdone =>
        obtain ⟨hasked, hle⟩ := sync.looping count dest' hpc
        simp only [Option.some.injEq, Prod.mk.injEq, Event.readReturn.injEq] at h
        obtain ⟨-, rfl, rfl⟩ := h
        exact Or.inr ⟨rfl, by rw [hasked, Nat.le_antisymm hle (Nat.le_of_not_lt hdone)]⟩
    next hpc =>
      obtain ⟨hret, rfl, hend⟩ := readerSection_return (Option.some.inj h)
      exact Or.inl ⟨hret, by simp [hpc], by rw [hpc]; rfl, hend⟩
    · cases h
  | writerTurn =>
    simp only [step] at h
    split at h
    · split at h
      · exact absurd (Option.some.inj h) writerSection_not_return
      · cases h
    · exact absurd (Option.some.inj h) writerSection_not_return
    · cases h
  | write | writerClose | read | readerClose =>
    simp only [step] at h
    split at h <;> cases h

theorem readerSection_gives_nothing (s : State) (count : Nat) (dest : List UInt8) :
    (readerSection s count dest).2.given = [] ∧
    ((readerSection s count dest).1.writer = .closed ↔ s.writer = .closed) := by
  simp only [readerSection]
  split
  · split <;> simp [Event.given]
  · simp [Event.given, writer_signal_closed]

/-- After its close the writer never gives anything again. -/
theorem closed_step {s s' : State} {a : Action} {e : Event} (hclosed : s.writer = .closed)
    (h : step s a = some (s', e)) : s'.writer = .closed ∧ e.given = [] := by
  have section_closed : ∀ count dest,
      (readerSection s count dest).1.writer = .closed ∧
      (readerSection s count dest).2.given = [] := fun count dest =>
    ⟨(readerSection_gives_nothing s count dest).2.mpr hclosed,
      (readerSection_gives_nothing s count dest).1⟩
  cases a with
  | write | writerTurn | writerClose => simp [step, hclosed] at h
  | read count =>
    simp only [step] at h
    split at h <;> cases h
    exact ⟨hclosed, rfl⟩
  | readerTurn =>
    simp only [step] at h
    split at h
    next count dest _ =>
      split at h
      · have := section_closed count dest
        rwa [Option.some.inj h] at this
      · cases h
        exact ⟨hclosed, rfl⟩
    next count dest _ _ =>
      have := section_closed count dest
      rwa [Option.some.inj h] at this
    next => cases h
  | readerClose error =>
    have hclose : (isoRingBufferReaderClose s error).writer = .closed := by
      rw [isoRingBufferReaderClose]
      split
      · exact hclosed
      · exact writer_signal_closed.mpr hclosed
    simp only [step] at h
    split at h <;> cases h <;> exact ⟨hclose, rfl⟩

theorem closed_gives_nothing {s₁ s₂ : State} {post : List Event}
    (run : Run ring s₁ post s₂) (hclosed : s₁.writer = .closed) : given post = [] := by
  have key : s₂.writer = .closed ∧ given post = [] := by
    refine run.invariant (I := fun tr s => s.writer = .closed ∧ given tr = [])
      ⟨hclosed, rfl⟩ ?_
    rintro trace s a s' e ⟨hpc, hnone⟩ h
    obtain ⟨hpc', he⟩ := closed_step hpc h
    exact ⟨hpc', by simp [hnone, he]⟩
  exact key.2

/-- What a return value of the read function tells about the run before and after it. -/
def ReturnHonest (trace : List Event) : Prop :=
  ∀ pre post dest ret, trace = pre ++ .readReturn dest ret :: post →
    (ret = 1 ∧ asked pre = some dest.length) ∨
    (ret = 0 ∧ .writerClosed ∈ pre ∧ received pre ++ dest = given trace)

theorem run_returnHonest {size : UInt64} {memory : Nat → UInt8} {trace : List Event} {s : State}
    (run : Run ring (initial size memory) trace s) : ReturnHonest trace := by
  rintro pre post dest ret rfl
  obtain ⟨s₁, s₂, a, hpre, hstep, hpost⟩ := run.cut
  obtain ⟨content, sync⟩ := run_keeps hpre
  rcases readReturn_cases sync hstep with ⟨hret, hopen, hdest, hempty, hend⟩ | hfull
  · obtain ⟨hclosed, hmem⟩ := sync.wend_closed hend
    have hnone := closed_gives_nothing hpost (closed_step hclosed hstep).1
    obtain ⟨rest, hfifo, hcase⟩ := content.fifo
    obtain rfl : rest = [] := by
      rw [hcase.resolve_right fun hup => hopen hup.2.2, hclosed]
      rfl
    rw [hempty, hdest] at hfifo
    simp only [contents, List.ofFn_zero, List.append_nil] at hfifo
    refine Or.inr ⟨hret, hmem, ?_⟩
    rw [List.append_cons, given, List.flatMap_append, ← given, ← given, hnone, given_snoc, hfifo]
    simp only [Event.given, List.append_nil]
  · exact Or.inl hfull

/-- Every interleaving of one writer and one reader, over any buffer size: the fill
level and the positions agree, the reader gets a prefix of what the writer gives, as long
as the reader does not close nothing of it is lost, end of file means closed and consumed,
and nobody sleeps who could go on. -/
theorem interleavings_safe {size : UInt64} {memory : Nat → UInt8} {trace : List Event}
    {s : State} (run : Run ring (initial size memory) trace s) :
    s.rbuf.size ≤ s.rbuf.cap ∧
    s.rbuf.wpos = (s.rbuf.rpos + s.rbuf.size) % s.rbuf.cap ∧
    received trace ++ s.reader.dest <+: given trace ∧
    (.readerClosed ∉ trace → given trace = received trace ++ s.reader.dest ++
      contents s.rbuf.buf s.rbuf.cap s.rbuf.rpos s.rbuf.size ++ s.writer.rest) ∧
    ReturnHonest trace ∧
    ¬ LostWakeup s := by
  obtain ⟨content, sync⟩ := run_keeps run
  obtain ⟨rest, hfifo, hcase⟩ := content.fifo
  refine ⟨content.size_le, content.wpos_eq, ?_, fun hopen => ?_, run_returnHonest run,
    no_lost_wakeup sync⟩
  · rw [hfifo, List.append_assoc _ _ rest]
    exact List.prefix_append _ _
  · rwa [hcase.resolve_right fun hup => hopen (sync.rend_closed hup.1).2] at hfifo

/-- The reader asks for two bytes, gets the single one which was written, waits, is
woken up by the close of the writer, and reports end of file. -/
theorem interleavings_safe_short_read :
    ∃ s, Run ring (initial 32 fun _ => 0)
        [.readCall 2, .internal, .writeCall [7], .internal, .writeReturn 1, .internal, .internal,
          .writerClosed, .readReturn [7] 0] s ∧
      ReturnHonest [.readCall 2, .internal, .writeCall [7], .internal, .writeReturn 1, .internal,
          .internal, .writerClosed, .readReturn [7] 0] ∧
      ¬ LostWakeup s := by
  have run : Run ring (initial 32 fun _ => 0)
      [.readCall 2, .internal, .writeCall [7], .internal, .writeReturn 1, .internal, .internal,
        .writerClosed, .readReturn [7] 0] _ :=
    .snoc (a := .readerTurn) (.snoc (a := .writerClose false) (.snoc (a := .readerTurn)
      (.snoc (a := .readerTurn) (.snoc (a := .writerTurn) (.snoc (a := .writerTurn)
        (.snoc (a := .write [7]) (.snoc (a := .readerTurn) (.snoc (a := .read 2) .refl rfl) rfl)
          rfl) rfl) rfl) rfl) rfl) rfl) rfl
  have safe := interleavings_safe run
  exact ⟨_, run, safe.2.2.2.2.1, safe.2.2.2.2.2⟩

/-- Both parties wait, and no signal is on its way to one of them. -/
def Deadlock (s : State) : Prop :=
  ∃ data n count dest, s.writer = .waiting data n false ∧ s.reader = .waiting count dest false

theorem capOf_eq_zero_iff (size : UInt64) : capOf size = 0 ↔ size ≠ 0 ∧ size.toNat % 2 ^ 53 = 0 := by
  rw [capOf, ← UInt64.toNat_inj, UInt64.toNat_mul, ← UInt64.toNat_inj.ne]
  have := size.toNat_lt
  split
  next h =>
    rw [gt_iff_lt, UInt64.lt_iff_toNat_lt] at h
    simp at h ⊢
    omega
  next h =>
    rw [gt_iff_lt, UInt64.lt_iff_toNat_lt] at h
    simp at h ⊢
    omega

theorem step_cap {s s' : State} {a : Action} {e : Event} (h : step s a = some (s', e)) :
    s'.rbuf.cap = s.rbuf.cap := by
  cases a <;> grind [step, writerSection, readerSection, putChunk, dropChunk,
    isoRingBufferWriterClose, isoRingBufferReaderClose]

/-- A run into a deadlock is possible only over a buffer of which the size in bytes wraps
around to 0. There the first byte of a writer finds no room and the reader finds nothing. -/
theorem no_deadlock_iff (size : UInt64) (memory : Nat → UInt8) :
    (∀ trace s, Run ring (initial size memory) trace s → ¬ Deadlock s) ↔
      ¬ (size ≠ 0 ∧ size.toNat % 2 ^ 53 = 0) := by
  rw [← capOf_eq_zero_iff]
  constructor
  · intro safe hzero
    have hcap : 0 = (initial size memory).rbuf.cap := (congrArg UInt64.toNat hzero).symm
    let waits : State :=
      { rbuf := { (initial size memory).rbuf with timesFull := 1 }
        writer := .waiting [0] 0 false
        reader := .idle }
    have hwrite : ring.step { initial size memory with writer := .looping [0] 0 } .writerTurn =
        some (waits, .internal) := congrArg some (if_pos hcap)
    have call : Run ring (initial size memory) _
        { initial size memory with writer := .looping [0] 0 } := .snoc (a := .write [0]) .refl rfl
    have run : Run ring (initial size memory) _ waits := .snoc (a := .writerTurn) call hwrite
    exact safe _ _ (.snoc (a := .readerTurn) (.snoc (a := .read 1) run rfl) rfl)
      ⟨_, _, _, _, rfl, rfl⟩
  · rintro hpos trace s run ⟨data, n, count, dest, hwriter, hreader⟩
    have hcap : s.rbuf.cap = (capOf size).toNat :=
      run.invariant (I := fun _ s => s.rbuf.cap = (capOf size).toNat) rfl
        fun h hstep => (step_cap hstep).trans h
    obtain ⟨_, sync⟩ := run_keeps run
    have hfull := (sync.writer_waits data n hwriter).1
    have hempty := (sync.reader_waits count dest hreader).1
    exact hpos (UInt64.toNat_inj.mp (hcap.symm.trans (hfull.symm.trans hempty)))

end RingBuffer
