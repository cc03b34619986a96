import Libisofs.FileSrc
import Libisofs.Md5Digest

/-!
# Writing of file content

iso_filesrc_write_data() of filesrc.c with iso_stream_read_buffer() and
iso_stream_make_md5() of stream.c. A stream may deliver less than what is requested from
it, and it may fail at any time. The checksum contexts never lack memory.
-/

namespace FileData

open FileSrc Md5

abbrev Bytes := List UInt8

def zeros (n : Nat) : Bytes := List.replicate n 0

/-- The methods of a stream on its state. iso_stream_open() answers 2 or 3 if the size of
the file has changed. -/
structure IsoStream (σ : Type) where
  size : Nat
  repeatable : Bool
  openStream : σ → Int × σ
  read : σ → Nat → Except Int Bytes × σ
  close : σ → σ
  read_le : ∀ s count bytes, (read s count).1 = .ok bytes → bytes.length ≤ count
  error_neg : ∀ s count code, (read s count).1 = .error code → code < 0

variable {σ : Type}

/-- ok is 1, EOF is 0, an error is negative. -/
structure BufferRead (σ : Type) where
  ret : Int
  buf : Bytes
  got : Nat
  state : σ

/-- `count` is what is missing in the buffer. -/
def isoStreamReadBuffer (stream : IsoStream σ) (s : σ) (count : Nat) : BufferRead σ :=
  match stream.read s count with
  | (.error code, s) => ⟨code, zeros count, 0, s⟩
  | (.ok [], s) => ⟨0, zeros count, 0, s⟩
  | (.ok (a :: rest), s) =>
    if rest.length + 1 < count then
      let more := isoStreamReadBuffer stream s (count - (rest.length + 1))
      { more with
        buf := a :: rest ++ more.buf
        got := rest.length + 1 + more.got }
    else ⟨1, a :: rest, rest.length + 1, s⟩
termination_by count

def filesrcRead (stream : IsoStream σ) (s : σ) : BufferRead σ :=
  isoStreamReadBuffer stream s 2048

/-- How many blocks are told in an uint32_t. -/
def nblocks (fileSize : Nat) : Nat := word (divUp fileSize 2048)

/-- iso_md5_start(), iso_md5_compute() for each chunk, iso_md5_end(). -/
def digest (mem : Memory) (chunks : List Bytes) : Option Bytes :=
  (checksum mem (chunks.map .compute)).map (·.1)

section PrePass

/-- How much of block `b` is handed over to iso_md5_compute(). The product is one of type
uint32_t. -/
def makeMd5Bytes (fileSize b : Nat) : Nat :=
  if fileSize - word (b * 2048) > 2048 then 2048 else fileSize - word (b * 2048)

/-- The loop from block `b` on with the number of blocks to do. A read error ends it. -/
def makeMd5Loop (stream : IsoStream σ) (b : Nat) : Nat → σ → Option (List Bytes) × σ
  | 0, s => (some [], s)
  | n + 1, s =>
    let r := isoStreamReadBuffer stream s 2048
    if r.ret < 0 then (none, r.state)
    else
      let tail := makeMd5Loop stream (b + 1) n r.state
      (tail.1.map (r.buf.take (makeMd5Bytes stream.size b) :: ·), tail.2)

/-- `summed` are the bytes which went into `md5`. -/
structure MakeMd5 (σ : Type) where
  ret : Int
  summed : Bytes
  md5 : Option Bytes
  state : σ

/-- 1 means that the checksum is valid. -/
def isoStreamMakeMd5 (mem : Memory) (stream : IsoStream σ) (s : σ) : MakeMd5 σ :=
  if !stream.repeatable then ⟨0, [], none, s⟩
  else
    let opened := stream.openStream s
    if opened.1 < 0 then ⟨opened.1, [], none, opened.2⟩
    else
      match makeMd5Loop stream 0 (nblocks stream.size) opened.2 with
      | (none, s) => ⟨0, [], none, stream.close s⟩
      | (some chunks, s) => ⟨1, chunks.flatten, digest mem chunks, stream.close s⟩

end PrePass

section Writing

/-- The message submissions with a result which counts. -/
inductive Message where
  | cannotOpen
  | sizeChanged
  | readError
  | streamChange

/-- The write options, the number of checksums which the image provides room for, and the
answers of iso_msg_submit() and of each iso_write(). -/
structure Target where
  makesPreMd5 : Bool
  checksumIdxCounter : Nat
  submit : Message → Int
  isoWrite : Nat → Int

/-- How much of a block is handed over to iso_md5_compute() if its number is `b`. All
numbers are of type size_t. -/
def computedBytes (fileSize b : Nat) : Nat :=
  let rest := (fileSize + 2 ^ 64 - b * 2048 % 2 ^ 64) % 2 ^ 64
  if rest > 2048 then 2048 else rest

/-- Add to file checksum -/
def addToChecksum (checksumIndex fileSize b : Nat) (buffer : Bytes) : List Bytes :=
  if 0 < checksumIndex then [buffer.take (computedBytes fileSize b)] else []

/-- How a loop over blocks ends. -/
inductive LoopEnd where
  | complete
  | readError (code : Int)
  | writeError (code : Int)

/-- Buffers for iso_write(), and chunks for iso_md5_compute(). -/
structure LoopResult (σ : Type) where
  ending : LoopEnd
  written : List Bytes
  chunks : List Bytes
  state : σ

/-- The loop which writes file contents to the image. -/
def contentLoop (t : Target) (stream : IsoStream σ) (checksumIndex b : Nat) :
    Nat → σ → LoopResult σ
  | 0, s => ⟨.complete, [], [], s⟩
  | n + 1, s =>
    let r := filesrcRead stream s
    if r.ret < 0 then ⟨.readError r.ret, [], [], r.state⟩
    else if t.isoWrite b < 0 then ⟨.writeError (t.isoWrite b), [], [], r.state⟩
    else
      let tail := contentLoop t stream checksumIndex (b + 1) n r.state
      { tail with
        written := r.buf :: tail.written
        chunks := addToChecksum checksumIndex stream.size b r.buf ++ tail.chunks }

/-- `while (b++ < nblocks)`: the number of the block is already the next one when the
checksum is computed. -/
def fillLoop (t : Target) (checksumIndex fileSize b : Nat) : Nat → LoopResult Unit
  | 0 => ⟨.complete, [], [], ()⟩
  | n + 1 =>
    if t.isoWrite b < 0 then ⟨.writeError (t.isoWrite b), [], [], ()⟩
    else
      let tail := fillLoop t checksumIndex fileSize (b + 1) n
      { tail with
        written := zeros 2048 :: tail.written
        chunks := addToChecksum checksumIndex fileSize (b + 1) (zeros 2048) ++ tail.chunks }

/-- `stored` is what gets into the checksum buffer at the index of the file, `summed` are the
bytes which went into it. -/
structure WriteOutcome where
  ret : Int
  written : List Bytes
  summed : Bytes
  stored : Option Bytes

/-- What is left to do after all blocks are written. -/
def storeChecksum (t : Target) (mem : Memory) (checksumIndex : Nat) (preMd5 : Option Bytes)
    (wasError : Bool) (written chunks : List Bytes) : WriteOutcome :=
  if 0 < checksumIndex ∧ checksumIndex ≤ t.checksumIdxCounter then
    let md5 := digest mem chunks
    if t.makesPreMd5 ∧ preMd5.isSome ∧ !wasError ∧ md5 ≠ preMd5 ∧
        t.submit .streamChange < 0 then
      ⟨t.submit .streamChange, written, chunks.flatten, none⟩
    else ⟨1, written, chunks.flatten, md5⟩
  else ⟨1, written, chunks.flatten, none⟩

/-- Reading, and zeros behind a read error. -/
def writeContent (t : Target) (mem : Memory) (stream : IsoStream σ) (checksumIndex : Nat)
    (preMd5 : Option Bytes) (wasError : Bool) (s : σ) : WriteOutcome :=
  let content := contentLoop t stream checksumIndex 0 (nblocks stream.size) s
  match content.ending with
  | .complete =>
    storeChecksum t mem checksumIndex preMd5 wasError content.written content.chunks
  | .writeError code => ⟨code, content.written, [], none⟩
  | .readError _ =>
    if t.submit .readError < 0 then ⟨t.submit .readError, content.written, [], none⟩
    else
      let b := content.written.length
      let fill := fillLoop t checksumIndex stream.size b (nblocks stream.size - b)
      match fill.ending with
      | .complete =>
        storeChecksum t mem checksumIndex preMd5 true (content.written ++ fill.written)
          (content.chunks ++ fill.chunks)
      | .readError code | .writeError code =>
        ⟨code, content.written ++ fill.written, [], none⟩

/-- The first read pass, and the state in which it leaves the stream. -/
def filesrcMakeMd5 (t : Target) (mem : Memory) (stream : IsoStream σ) (checksumIndex : Nat)
    (s : σ) : Option Bytes × σ :=
  if 0 < checksumIndex ∧ t.makesPreMd5 then
    let pass := isoStreamMakeMd5 mem stream s
    (if 0 < pass.ret then pass.md5 else none, pass.state)
  else (none, s)

def isoFilesrcWriteData (t : Target) (mem : Memory) (stream : IsoStream σ)
    (checksumIndex : Nat) (s : σ) : WriteOutcome :=
  let pre := filesrcMakeMd5 t mem stream checksumIndex s
  let opened := stream.openStream pre.2
  if opened.1 < 0 then
    if t.submit .cannotOpen < 0 then ⟨t.submit .cannotOpen, [], [], none⟩
    else
      -- the same as filling, but no checksum gets stored
      let fill := fillLoop t 0 stream.size 0 (nblocks stream.size)
      match fill.ending with
      | .complete => ⟨1, fill.written, [], none⟩
      | .readError code | .writeError code => ⟨code, fill.written, [], none⟩
  else if 1 < opened.1 ∧ t.submit .sizeChanged < 0 then
    ⟨t.submit .sizeChanged, [], [], none⟩
  else writeContent t mem stream checksumIndex pre.1 (1 < opened.1) opened.2

end Writing

section Reading

/-- The blocks which can be read before the first read error. -/
def readable (stream : IsoStream σ) : Nat → σ → List (BufferRead σ)
  | 0, _ => []
  | n + 1, s =>
    let r := filesrcRead stream s
    if r.ret < 0 then [] else r :: readable stream n r.state

def buffers (reads : List (BufferRead σ)) : List Bytes := reads.map (·.buf)

/-- The content up to the end of file. -/
def content : List (BufferRead σ) → Bytes
  | [] => []
  | r :: rest => if r.ret = 0 then r.buf.take r.got else r.buf ++ content rest

theorem length_buf (stream : IsoStream σ) (s : σ) (count : Nat) :
    (isoStreamReadBuffer stream s count).buf.length = count := by
  fun_induction isoStreamReadBuffer stream s count with
  | case1 | case2 => exact List.length_replicate
  | case3 s count a rest s' hread hmore more ih =>
    have hlen : more.buf.length = count - (rest.length + 1) := ih
    simp only [List.cons_append, List.length_cons, List.length_append, hlen]
    omega
  | case4 s count a rest s' hread hfull =>
    have hle := stream.read_le s count (a :: rest) (by rw [hread])
    simp only [List.length_cons] at hle ⊢
    omega

theorem length_readable_le (stream : IsoStream σ) (n : Nat) (s : σ) :
    (readable stream n s).length ≤ n := by
  induction n generalizing s with
  | zero => exact Nat.le_refl 0
  | succ n ih =>
    simp only [readable]
    split
    · exact Nat.zero_le _
    · exact Nat.succ_le_succ (ih _)

theorem length_of_mem_buffers {stream : IsoStream σ} {n : Nat} {s : σ} :
    ∀ buf ∈ buffers (readable stream n s), buf.length = 2048 := by
  induction n generalizing s with
  | zero => simp [readable, buffers]
  | succ n ih =>
    simp only [readable]
    split
    · simp [buffers]
    · rintro buf hbuf
      rcases List.mem_cons.mp hbuf with rfl | hrest
      · exact length_buf stream s 2048
      · exact ih buf hrest

theorem content_prefix (reads : List (BufferRead σ)) :
    content reads <+: (buffers reads).flatten := by
  induction reads with
  | nil => exact List.prefix_rfl
  | cons r rest ih =>
    simp only [content, buffers, List.map_cons, List.flatten_cons]
    split
    · exact (List.take_prefix r.got r.buf).trans (List.prefix_append ..)
    · exact (List.prefix_append_right_inj r.buf).mpr ih

end Reading

section Loops

variable {t : Target}

/-- iso_msg_submit() never demands to abort, iso_write() never fails. -/
structure Quiet (t : Target) : Prop where
  submit : ∀ message, 0 ≤ t.submit message
  isoWrite : ∀ b, 0 ≤ t.isoWrite b

/-- The chunks of consecutive blocks from number `b` on. -/
def chunksFrom (checksumIndex fileSize : Nat) : Nat → List Bytes → List Bytes
  | _, [] => []
  | b, buffer :: rest =>
    addToChecksum checksumIndex fileSize b buffer ++
      chunksFrom checksumIndex fileSize (b + 1) rest

theorem contentLoop_quiet (quiet : Quiet t) (stream : IsoStream σ) (checksumIndex b n : Nat)
    (s : σ) :
    let loop := contentLoop t stream checksumIndex b n s
    let reads := readable stream n s
    loop.written = buffers reads ∧
      loop.chunks = chunksFrom checksumIndex stream.size b (buffers reads) ∧
      (reads.length = n → loop.ending = .complete) ∧
      (reads.length < n → ∃ code, loop.ending = .readError code) := by
  induction n generalizing b s with
  | zero => exact ⟨rfl, rfl, fun _ => rfl, fun h => absurd h (Nat.lt_irrefl 0)⟩
  | succ n ih =>
    by_cases herror : (filesrcRead stream s).ret < 0
    · simp only [contentLoop, readable, if_pos herror]
      exact ⟨rfl, rfl, fun h => absurd h (Nat.zero_ne_add_one n), fun _ => ⟨_, rfl⟩⟩
    · obtain ⟨hwritten, hchunks, hcomplete, hfailed⟩ := ih (b + 1) (filesrcRead stream s).state
      simp only [contentLoop, readable, if_neg herror, if_neg (Int.not_lt.mpr (quiet.isoWrite b)),
        List.length_cons]
      refine ⟨?_, ?_, fun h => hcomplete (by omega), fun h => hfailed (by omega)⟩
      · rw [hwritten]
        rfl
      · rw [hchunks]
        rfl

theorem fillLoop_quiet (quiet : Quiet t) (checksumIndex fileSize b n : Nat) :
    fillLoop t checksumIndex fileSize b n =
      ⟨.complete, List.replicate n (zeros 2048),
        chunksFrom checksumIndex fileSize (b + 1) (List.replicate n (zeros 2048)), ()⟩ := by
  induction n generalizing b with
  | zero => rfl
  | succ n ih =>
    rw [fillLoop, if_neg (Int.not_lt.mpr (quiet.isoWrite b)), ih]
    rfl

end Loops

section Chunks

variable {checksumIndex fileSize : Nat}

theorem computedBytes_inside {b : Nat} (hsize : fileSize < 2 ^ 64) (hb : b * 2048 ≤ fileSize) :
    computedBytes fileSize b = min (fileSize - b * 2048) 2048 := by
  have hproduct : b * 2048 % 2 ^ 64 = b * 2048 := Nat.mod_eq_of_lt (by omega)
  have hrest : (fileSize + 2 ^ 64 - b * 2048) % 2 ^ 64 = fileSize - b * 2048 := by omega
  simp only [computedBytes, hproduct, hrest]
  split <;> omega

/-- Behind the end of the file, the difference wraps around to a large number. -/
theorem computedBytes_behind {b : Nat} (hsize : fileSize < 2 ^ 44) (hb : fileSize < b * 2048)
    (hnear : b * 2048 < fileSize + 2048) : computedBytes fileSize b = 2048 := by
  have hproduct : b * 2048 % 2 ^ 64 = b * 2048 := Nat.mod_eq_of_lt (by omega)
  simp only [computedBytes, hproduct]
  rw [if_pos]
  omega

theorem chunksFrom_append (b : Nat) (first rest : List Bytes) :
    chunksFrom checksumIndex fileSize b (first ++ rest) =
      chunksFrom checksumIndex fileSize b first ++
        chunksFrom checksumIndex fileSize (b + first.length) rest := by
  induction first generalizing b with
  | nil => rfl
  | cons buffer first ih =>
    rw [List.cons_append, chunksFrom, chunksFrom, ih, List.append_assoc, List.length_cons]
    congr 3
    omega

/-- As long as the blocks belong to the file, exactly its bytes go into the checksum. -/
theorem flatten_chunksFrom (hindex : 0 < checksumIndex) (hsize : fileSize < 2 ^ 64)
    {b : Nat} {bufs : List Bytes} (hbufs : ∀ buf ∈ bufs, buf.length = 2048)
    (hinside : ∀ i < bufs.length, (b + i) * 2048 ≤ fileSize) :
    (chunksFrom checksumIndex fileSize b bufs).flatten =
      bufs.flatten.take (fileSize - b * 2048) := by
  induction bufs generalizing b with
  | nil => simp [chunksFrom]
  | cons buf rest ih =>
    have hbuf := hbufs buf (List.mem_cons_self ..)
    have hb : b * 2048 ≤ fileSize := hinside 0 (Nat.zero_lt_succ _)
    have hrest : (chunksFrom checksumIndex fileSize (b + 1) rest).flatten =
        rest.flatten.take (fileSize - (b + 1) * 2048) := by
      apply ih (fun buf hmem => hbufs buf (List.mem_cons_of_mem _ hmem))
      intro i hi
      have hnext := hinside (i + 1) (Nat.succ_lt_succ hi)
      rwa [← Nat.add_assoc, Nat.add_right_comm] at hnext
    have htake : buf.take (min (fileSize - b * 2048) 2048) = buf.take (fileSize - b * 2048) := by
      rw [List.take_eq_take_iff]
      omega
    have hleft : fileSize - b * 2048 - buf.length = fileSize - (b + 1) * 2048 := by omega
    rw [chunksFrom, addToChecksum, if_pos hindex, List.flatten_append, List.flatten_singleton,
      hrest, computedBytes_inside hsize hb, htake, List.flatten_cons, List.take_append, hleft]

theorem divUp_bounds (size : Nat) :
    size ≤ divUp size 2048 * 2048 ∧ divUp size 2048 * 2048 < size + 2048 := by
  rw [divUp]
  omega

theorem flatten_zeros (n : Nat) : (List.replicate n (zeros 2048)).flatten = zeros (n * 2048) :=
  List.flatten_replicate_replicate

/-- The block after the last one contributes a whole block, unless the file ends at a block
border. -/
theorem flatten_fillChunks (hindex : 0 < checksumIndex) {e : Nat}
    (hsmall : divUp fileSize 2048 < 2 ^ 32) (he : e < divUp fileSize 2048) :
    (chunksFrom checksumIndex fileSize (e + 1)
      (List.replicate (divUp fileSize 2048 - e) (zeros 2048))).flatten =
        zeros (fileSize - (e + 1) * 2048 + if fileSize % 2048 = 0 then 0 else 2048) := by
  obtain ⟨hlow, hhigh⟩ := divUp_bounds fileSize
  generalize hn : divUp fileSize 2048 = n at *
  obtain ⟨k, hk⟩ : ∃ k, n - e = k + 1 := ⟨n - e - 1, by omega⟩
  have hfirst : (chunksFrom checksumIndex fileSize (e + 1)
      (List.replicate k (zeros 2048))).flatten = zeros (fileSize - (e + 1) * 2048) := by
    rw [flatten_chunksFrom hindex (by omega), flatten_zeros, zeros, List.take_replicate, zeros]
    · congr 1
      omega
    · intro buf hbuf
      rw [List.eq_of_mem_replicate hbuf, zeros, List.length_replicate]
    · intro i hi
      rw [List.length_replicate] at hi
      omega
  have hlast : computedBytes fileSize n = if fileSize % 2048 = 0 then 0 else 2048 := by
    split
    · rw [computedBytes_inside (by omega)] <;> omega
    · rw [computedBytes_behind] <;> omega
  have hnumber : e + 1 + k = n := by omega
  have hle : (if fileSize % 2048 = 0 then 0 else 2048) ≤ 2048 := by
    split <;> omega
  rw [hk, List.replicate_succ', chunksFrom_append, List.flatten_append, hfirst,
    List.length_replicate, hnumber, chunksFrom, addToChecksum, if_pos hindex, hlast, chunksFrom,
    List.append_nil, List.flatten_singleton, zeros, zeros, List.take_replicate,
    Nat.min_eq_left hle, List.replicate_append_replicate]
  rfl

/-- Short chunks do not make iso_md5_compute() fail. -/
theorem digest_eq (mem : Memory) {chunks : List Bytes}
    (hshort : ∀ chunk ∈ chunks, chunk.length ≤ 2048) (hlen : chunks.flatten.length < 2 ^ 61) :
    digest mem chunks = some (Rfc1321.md5 chunks.flatten) := by
  have hsubmitted : Md5Digest.submitted (chunks.map .compute) = chunks.flatten := by
    clear hshort hlen
    induction chunks with
    | nil => rfl
    | cons chunk rest ih => rw [List.map_cons, Md5Digest.submitted, ih, List.flatten_cons]
  have hfits : ∀ pos, Md5Digest.Fits pos (chunks.map .compute) := by
    clear hsubmitted hlen
    induction chunks with
    | nil => exact fun _ => trivial
    | cons chunk rest ih =>
      intro pos
      have hchunk := hshort chunk (List.mem_cons_self ..)
      refine ⟨?_, ih (fun chunk hmem => hshort chunk (List.mem_cons_of_mem _ hmem)) _⟩
      rw [Md5Digest.FitsInt]
      omega
  have hcalls : Md5Digest.Short (chunks.map .compute) := by
    intro data hmem
    obtain ⟨chunk, hchunk, heq⟩ := List.mem_map.mp hmem
    obtain rfl : chunk = data := by simpa using heq
    have := hshort chunk hchunk
    omega
  have hmatch : Md5Digest.DigestsMatch mem (chunks.map .compute) :=
    Md5Digest.digestsMatch_of_fits hcalls (by rwa [hsubmitted]) (hfits 0)
  obtain ⟨session, hchecksum, -⟩ := hmatch.1
  rw [digest, hchecksum, hsubmitted]
  rfl

theorem addToChecksum_short (fileSize b : Nat) {buf : Bytes} (hbuf : buf.length = 2048) :
    (∀ chunk ∈ addToChecksum checksumIndex fileSize b buf, chunk.length ≤ 2048) ∧
      (addToChecksum checksumIndex fileSize b buf).flatten.length ≤ 2048 := by
  have htake : (buf.take (computedBytes fileSize b)).length ≤ 2048 := by
    rw [List.length_take]
    omega
  rw [addToChecksum]
  by_cases hindex : 0 < checksumIndex
  · rw [if_pos hindex, List.flatten_singleton, List.forall_mem_singleton]
    exact ⟨htake, htake⟩
  · rw [if_neg hindex]
    exact ⟨List.forall_mem_nil _, Nat.zero_le _⟩

theorem chunksFrom_short {b : Nat} {bufs : List Bytes} (hbufs : ∀ buf ∈ bufs, buf.length = 2048) :
    (∀ chunk ∈ chunksFrom checksumIndex fileSize b bufs, chunk.length ≤ 2048) ∧
      (chunksFrom checksumIndex fileSize b bufs).flatten.length ≤ bufs.length * 2048 := by
  induction bufs generalizing b with
  | nil => simp [chunksFrom]
  | cons buf rest ih =>
    obtain ⟨hchunks, hlen⟩ := @ih (b + 1) fun buf hmem => hbufs buf (List.mem_cons_of_mem _ hmem)
    have hbuf := hbufs buf (List.mem_cons_self ..)
    obtain ⟨hfirst, hfirstLen⟩ := @addToChecksum_short checksumIndex fileSize b buf hbuf
    rw [chunksFrom, List.flatten_append, List.length_append, List.length_cons]
    refine ⟨fun chunk hmem => ?_, by omega⟩
    rcases List.mem_append.mp hmem with h | h
    · exact hfirst chunk h
    · exact hchunks chunk h

end Chunks

section Written

/-- All chunks if `reads` are the blocks before the first read error of `n` blocks. -/
def allChunks (checksumIndex fileSize n : Nat) (reads : List (BufferRead σ)) : List Bytes :=
  chunksFrom checksumIndex fileSize 0 (buffers reads) ++
    chunksFrom checksumIndex fileSize (reads.length + 1)
      (List.replicate (n - reads.length) (zeros 2048))

/-- The checksum buffer has room for the checksum of the file. -/
abbrev HasIndex (t : Target) (checksumIndex : Nat) : Prop :=
  0 < checksumIndex ∧ checksumIndex ≤ t.checksumIdxCounter

variable {t : Target} {mem : Memory} {stream : IsoStream σ} {checksumIndex : Nat} {s : σ}

theorem storeChecksum_quiet (quiet : Quiet t) (preMd5 : Option Bytes) (wasError : Bool)
    (written chunks : List Bytes) :
    storeChecksum t mem checksumIndex preMd5 wasError written chunks =
      ⟨1, written, chunks.flatten,
        if HasIndex t checksumIndex then digest mem chunks else none⟩ := by
  have hsubmit := Int.not_lt.mpr (quiet.submit .streamChange)
  by_cases hindex : HasIndex t checksumIndex
  · rw [storeChecksum, if_pos hindex, if_neg fun h => hsubmit h.2.2.2.2, if_pos hindex]
  · rw [storeChecksum, if_neg hindex, if_neg hindex]

/-- What an undisturbed run does after the stream is open. -/
theorem writeContent_quiet (quiet : Quiet t) (preMd5 : Option Bytes) (wasError : Bool) (s : σ) :
    let n := nblocks stream.size
    let reads := readable stream n s
    writeContent t mem stream checksumIndex preMd5 wasError s =
      ⟨1, buffers reads ++ List.replicate (n - reads.length) (zeros 2048),
        (allChunks checksumIndex stream.size n reads).flatten,
        if HasIndex t checksumIndex then
          digest mem (allChunks checksumIndex stream.size n reads) else none⟩ := by
  obtain ⟨hwritten, hchunks, hcomplete, hfailed⟩ :=
    contentLoop_quiet quiet stream checksumIndex 0 (nblocks stream.size) s
  rcases Nat.eq_or_lt_of_le (length_readable_le stream (nblocks stream.size) s) with hall | hless
  · simp only [writeContent, hcomplete hall, storeChecksum_quiet quiet, hwritten, hchunks,
      allChunks, hall, Nat.sub_self, List.replicate_zero, chunksFrom, List.append_nil]
  · obtain ⟨code, hending⟩ := hfailed hless
    have hlen : (buffers (readable stream (nblocks stream.size) s)).length =
        (readable stream (nblocks stream.size) s).length := List.length_map _
    simp only [writeContent, hending, if_neg (Int.not_lt.mpr (quiet.submit .readError)),
      fillLoop_quiet quiet, storeChecksum_quiet quiet, hwritten, hchunks, allChunks, hlen]

/-- The state of the stream when iso_filesrc_write_data() begins to read from it, and the
answer of iso_stream_open(). -/
def writingPass (t : Target) (mem : Memory) (stream : IsoStream σ) (checksumIndex : Nat)
    (s : σ) : Int × σ :=
  stream.openStream (filesrcMakeMd5 t mem stream checksumIndex s).2

theorem write_unopened (quiet : Quiet t)
    (hopen : (writingPass t mem stream checksumIndex s).1 < 0) :
    isoFilesrcWriteData t mem stream checksumIndex s =
      ⟨1, List.replicate (nblocks stream.size) (zeros 2048), [], none⟩ := by
  rw [writingPass] at hopen
  simp only [isoFilesrcWriteData, if_pos hopen,
    if_neg (Int.not_lt.mpr (quiet.submit .cannotOpen)), fillLoop_quiet quiet]

theorem write_opened (quiet : Quiet t)
    (hopen : 0 ≤ (writingPass t mem stream checksumIndex s).1) :
    let n := nblocks stream.size
    let reads := readable stream n (writingPass t mem stream checksumIndex s).2
    isoFilesrcWriteData t mem stream checksumIndex s =
      ⟨1, buffers reads ++ List.replicate (n - reads.length) (zeros 2048),
        (allChunks checksumIndex stream.size n reads).flatten,
        if HasIndex t checksumIndex then
          digest mem (allChunks checksumIndex stream.size n reads) else none⟩ := by
  rw [writingPass] at hopen
  simp only [isoFilesrcWriteData, if_neg (Int.not_lt.mpr hopen),
    if_neg fun h : _ ∧ _ => Int.not_lt.mpr (quiet.submit .sizeChanged) h.2,
    writeContent_quiet quiet, writingPass]

/-- The content up to the first failure, cut to the size of the file and filled up with zeros
to full blocks. -/
def expectedData (stream : IsoStream σ) (opened : Int × σ) : Bytes :=
  let n := divUp stream.size 2048
  if opened.1 < 0 then zeros (n * 2048)
  else ((content (readable stream n opened.2)).take stream.size).rightpad (n * 2048) 0

/-- The reserved blocks get filled as they should, and a stored checksum is the one of the
first bytes of them, as many as the file has. -/
structure WritesRight (t : Target) (mem : Memory) (stream : IsoStream σ) (checksumIndex : Nat)
    (s : σ) : Prop where
  count : (isoFilesrcWriteData t mem stream checksumIndex s).written.length =
    divUp stream.size 2048
  blocks : ∀ buf ∈ (isoFilesrcWriteData t mem stream checksumIndex s).written, buf.length = 2048
  data : (isoFilesrcWriteData t mem stream checksumIndex s).written.flatten =
    expectedData stream (writingPass t mem stream checksumIndex s)
  checksum : ∀ md5, (isoFilesrcWriteData t mem stream checksumIndex s).stored = some md5 →
    let emitted := (isoFilesrcWriteData t mem stream checksumIndex s).written.flatten
    (isoFilesrcWriteData t mem stream checksumIndex s).summed = emitted.take stream.size ∧
      md5 = Rfc1321.md5 (emitted.take stream.size)

/-- The number of blocks fits into 32 bits. If the stream could be opened, then it delivers
nothing but zeros behind the file size and behind an end of file, and if there shall be a
checksum, then the file does not end at a block border and its last block is not the first one
which cannot be read. -/
structure Harmless (t : Target) (stream : IsoStream σ) (checksumIndex : Nat)
    (opened : Int × σ) : Prop where
  small : divUp stream.size 2048 < 2 ^ 32
  noStray : 0 ≤ opened.1 →
    let reads := readable stream (divUp stream.size 2048) opened.2
    ∀ byte ∈ (buffers reads).flatten.drop (min stream.size (content reads).length), byte = 0
  inside : 0 ≤ opened.1 → HasIndex t checksumIndex →
    let reads := readable stream (divUp stream.size 2048) opened.2
    reads.length < divUp stream.size 2048 →
      stream.size % 2048 ≠ 0 ∧ reads.length + 1 < divUp stream.size 2048

theorem nblocks_eq_iff (size : Nat) :
    nblocks size = divUp size 2048 ↔ divUp size 2048 < 2 ^ 32 := by
  rw [nblocks, word]
  omega

theorem length_flatten_blocks {bufs : List Bytes} (hbufs : ∀ buf ∈ bufs, buf.length = 2048) :
    bufs.flatten.length = bufs.length * 2048 := by
  induction bufs with
  | nil => rfl
  | cons buf rest ih =>
    rw [List.flatten_cons, List.length_append, hbufs buf (List.mem_cons_self ..),
      ih fun buf hmem => hbufs buf (List.mem_cons_of_mem _ hmem), List.length_cons,
      Nat.succ_mul, Nat.add_comm]

theorem length_flatten_buffers (stream : IsoStream σ) (n : Nat) (s : σ) :
    (buffers (readable stream n s)).flatten.length = (readable stream n s).length * 2048 := by
  rw [length_flatten_blocks length_of_mem_buffers, buffers, List.length_map]

/-- Zeros behind the readable blocks complete the expected data if and only if these blocks
have nothing but zeros behind the content. -/
theorem data_iff (n : Nat) (stream : IsoStream σ) (s : σ) :
    let reads := readable stream n s
    (buffers reads).flatten ++ zeros ((n - reads.length) * 2048) =
        ((content reads).take stream.size).rightpad (n * 2048) 0 ↔
      ∀ byte ∈ (buffers reads).flatten.drop (min stream.size (content reads).length),
        byte = 0 := by
  intro reads
  have hle := length_readable_le stream n s
  have hlen := length_flatten_buffers stream n s
  have hprefix := content_prefix reads
  have hcut : (content reads).take stream.size =
      (buffers reads).flatten.take (min stream.size (content reads).length) := by
    rw [← List.take_take, ← List.prefix_iff_eq_take.mp hprefix]
  have hshort := hprefix.length_le
  rw [List.rightpad, hcut, List.length_take]
  generalize hk : min stream.size (content reads).length = k at *
  have hkle : k ≤ (buffers reads).flatten.length := by omega
  rw [Nat.min_eq_left hkle]
  have hsplit : (buffers reads).flatten ++ zeros ((n - reads.length) * 2048) =
      (buffers reads).flatten.take k ++
        ((buffers reads).flatten.drop k ++ zeros ((n - reads.length) * 2048)) := by
    rw [← List.append_assoc, List.take_append_drop]
  rw [hsplit, List.append_cancel_left_eq, List.eq_replicate_iff]
  constructor
  · rintro ⟨-, hzero⟩ byte hbyte
    exact hzero byte (List.mem_append_left _ hbyte)
  · intro hzero
    refine ⟨?_, ?_⟩
    · have hblocks : reads.length * 2048 + (n - reads.length) * 2048 = n * 2048 := by
        rw [← Nat.add_mul, Nat.add_sub_cancel' hle]
      rw [hlen] at hkle
      rw [List.length_append, List.length_drop, zeros, List.length_replicate, hlen, ← hblocks,
        Nat.sub_add_comm hkle]
    · intro byte hbyte
      rcases List.mem_append.mp hbyte with h | h
      · exact hzero byte h
      · exact List.eq_of_mem_replicate h

/-- The bytes which go into the checksum, and those which should. -/
theorem summed_iff (hindex : 0 < checksumIndex) (hsmall : divUp stream.size 2048 < 2 ^ 32)
    (s : σ) :
    let n := divUp stream.size 2048
    let reads := readable stream n s
    (allChunks checksumIndex stream.size n reads).flatten =
        ((buffers reads).flatten ++ zeros ((n - reads.length) * 2048)).take stream.size ↔
      (reads.length < n → stream.size % 2048 ≠ 0 ∧ reads.length + 1 < n) := by
  intro n reads
  have hle : reads.length ≤ n := length_readable_le stream n s
  have hlen : (buffers reads).flatten.length = reads.length * 2048 :=
    length_flatten_buffers stream n s
  obtain ⟨hlow, hhigh⟩ := divUp_bounds stream.size
  have hcontent : (chunksFrom checksumIndex stream.size 0 (buffers reads)).flatten =
      (buffers reads).flatten.take stream.size := by
    apply flatten_chunksFrom hindex (by omega) length_of_mem_buffers
    intro i hi
    have hin : i < reads.length := by rwa [buffers, List.length_map] at hi
    change n * 2048 < stream.size + 2048 at hhigh
    omega
  rw [allChunks, List.flatten_append, hcontent, List.take_append]
  rcases Nat.eq_or_lt_of_le hle with hall | hless
  · simp [hall, chunksFrom, zeros]
  · have hfill := flatten_fillChunks hindex hsmall hless
    have hwhole : stream.size - (buffers reads).flatten.length ≤ (n - reads.length) * 2048 := by
      rw [hlen]
      omega
    rw [hfill, List.append_cancel_left_eq, zeros, zeros, List.take_replicate,
      Nat.min_eq_left hwhole, hlen, List.replicate_inj, and_iff_left (Or.inr rfl)]
    change n * 2048 < stream.size + 2048 at hhigh
    change stream.size ≤ n * 2048 at hlow
    refine ⟨fun h _ => ?_, fun h => ?_⟩
    · split at h <;> omega
    · obtain ⟨hborder, hnext⟩ := h hless
      rw [if_neg hborder]
      omega

theorem digest_allChunks (mem : Memory) (checksumIndex fileSize : Nat) (stream : IsoStream σ)
    {n : Nat} (hn : n < 2 ^ 32) (s : σ) :
    digest mem (allChunks checksumIndex fileSize n (readable stream n s)) =
      some (Rfc1321.md5 (allChunks checksumIndex fileSize n (readable stream n s)).flatten) := by
  have hle := length_readable_le stream n s
  obtain ⟨hread, hreadLen⟩ := @chunksFrom_short checksumIndex fileSize 0
    (buffers (readable stream n s)) length_of_mem_buffers
  obtain ⟨hfill, hfillLen⟩ := @chunksFrom_short checksumIndex fileSize
    ((readable stream n s).length + 1)
    (List.replicate (n - (readable stream n s).length) (zeros 2048)) (by
      intro buf hbuf
      rw [List.eq_of_mem_replicate hbuf, zeros, List.length_replicate])
  rw [List.length_replicate] at hfillLen
  rw [buffers, List.length_map] at hreadLen
  apply digest_eq
  · intro chunk hmem
    rcases List.mem_append.mp hmem with h | h
    · exact hread chunk h
    · exact hfill chunk h
  · rw [allChunks, List.flatten_append, List.length_append, buffers]
    omega

/-- The blocks which an undisturbed run writes, all of them full. -/
theorem written_blocks (quiet : Quiet t) :
    (isoFilesrcWriteData t mem stream checksumIndex s).written.length = nblocks stream.size ∧
      ∀ buf ∈ (isoFilesrcWriteData t mem stream checksumIndex s).written, buf.length = 2048 := by
  have hzeros : ∀ n, ∀ buf ∈ List.replicate n (zeros 2048), buf.length = 2048 := by
    intro n buf hbuf
    rw [List.eq_of_mem_replicate hbuf, zeros, List.length_replicate]
  by_cases hopen : (writingPass t mem stream checksumIndex s).1 < 0
  · rw [write_unopened quiet hopen]
    exact ⟨List.length_replicate, hzeros _⟩
  · rw [write_opened quiet (Int.not_lt.mp hopen)]
    have hle := length_readable_le stream (nblocks stream.size)
      (writingPass t mem stream checksumIndex s).2
    constructor
    · simp only [List.length_append, buffers, List.length_map, List.length_replicate]
      omega
    · intro buf hbuf
      rcases List.mem_append.mp hbuf with h | h
      · exact length_of_mem_buffers buf h
      · exact hzeros _ buf h

/-- After a successful iso_stream_open(), the run is right if and only if both of the data and
of the checksum come out right. -/
theorem opened_iff (quiet : Quiet t) (hsmall : divUp stream.size 2048 < 2 ^ 32)
    (hopen : 0 ≤ (writingPass t mem stream checksumIndex s).1) :
    WritesRight t mem stream checksumIndex s ↔
      Harmless t stream checksumIndex (writingPass t mem stream checksumIndex s) := by
  have hn := (nblocks_eq_iff stream.size).mpr hsmall
  have hrun := @write_opened σ t mem stream checksumIndex s quiet hopen
  simp only [hn] at hrun
  have hblocks := @written_blocks σ t mem stream checksumIndex s quiet
  generalize hpass : writingPass t mem stream checksumIndex s = opened at *
  have hdata := data_iff (divUp stream.size 2048) stream opened.2
  have hdigest := digest_allChunks mem checksumIndex stream.size stream hsmall opened.2
  have hexpected : expectedData stream opened =
      ((content (readable stream (divUp stream.size 2048) opened.2)).take stream.size).rightpad
        (divUp stream.size 2048 * 2048) 0 := if_neg (Int.not_lt.mpr hopen)
  constructor
  · rintro ⟨-, -, data, checksum⟩
    rw [hpass, hrun, hexpected, List.flatten_append, flatten_zeros] at data
    refine ⟨hsmall, fun _ => hdata.mp data, fun _ hindex => ?_⟩
    have hstored := checksum _ (by rw [hrun, if_pos hindex, hdigest])
    rw [hrun, List.flatten_append, flatten_zeros] at hstored
    exact (summed_iff hindex.1 hsmall opened.2).mp hstored.1
  · rintro ⟨-, noStray, inside⟩
    refine ⟨hblocks.1.trans hn, hblocks.2, ?_, ?_⟩
    · rw [hpass, hrun, hexpected, List.flatten_append, flatten_zeros]
      exact hdata.mpr (noStray hopen)
    · intro md5 hstored
      rw [hrun] at hstored ⊢
      by_cases hindex : HasIndex t checksumIndex
      · have hsummed := (summed_iff hindex.1 hsmall opened.2).mpr (inside hopen hindex)
        rw [if_pos hindex, hdigest, Option.some_inj] at hstored
        rw [List.flatten_append, flatten_zeros]
        exact ⟨hsummed, hsummed ▸ hstored.symm⟩
      · rw [if_neg hindex] at hstored
        cases hstored

/-- In an undisturbed run, data and checksum come out right exactly if the stream and the file
size are harmless. -/
theorem writesRight_iff_harmless (quiet : Quiet t) :
    WritesRight t mem stream checksumIndex s ↔
      Harmless t stream checksumIndex (writingPass t mem stream checksumIndex s) := by
  have hblocks := @written_blocks σ t mem stream checksumIndex s quiet
  by_cases hsmall : divUp stream.size 2048 < 2 ^ 32
  · by_cases hopen : (writingPass t mem stream checksumIndex s).1 < 0
    · have hn := (nblocks_eq_iff stream.size).mpr hsmall
      have hrun := @write_unopened σ t mem stream checksumIndex s quiet hopen
      refine ⟨fun _ => ⟨hsmall, fun h => absurd hopen (Int.not_lt.mpr h),
        fun h => absurd hopen (Int.not_lt.mpr h)⟩, fun _ => ⟨hblocks.1.trans hn, hblocks.2, ?_, ?_⟩⟩
      · rw [hrun, flatten_zeros, expectedData, if_pos hopen, hn]
      · rw [hrun]
        exact fun _ h => nomatch h
    · exact opened_iff quiet hsmall (Int.not_lt.mp hopen)
  · refine ⟨fun right => absurd ?_ hsmall, fun harmless => absurd harmless.small hsmall⟩
    rw [← nblocks_eq_iff, ← hblocks.1, right.count]

end Written

/-- Each read attempt fails. -/
def brokenStream (size : Nat) : IsoStream Unit where
  size := size
  repeatable := true
  openStream _ := (1, ())
  read _ _ := (.error (-1), ())
  close := id
  read_le _ _ _ h := nomatch h
  error_neg _ _ code h := by
    obtain rfl : -1 = code := by simpa using h
    decide

/-- One checksum, and nothing disturbs. -/
def calmTarget : Target := ⟨false, 1, fun _ => 1, fun _ => 1⟩

theorem calmTarget_quiet : Quiet calmTarget := ⟨fun _ => Int.one_nonneg, fun _ => Int.one_nonneg⟩

theorem readable_brokenStream (size n : Nat) : readable (brokenStream size) n () = [] := by
  cases n with
  | zero => rfl
  | succ n =>
    have hread : filesrcRead (brokenStream size) () = ⟨-1, zeros 2048, 0, ()⟩ := by
      rw [filesrcRead, isoStreamReadBuffer]
      rfl
    simp only [readable, hread]
    exact if_pos (by decide)

theorem three_lost_blocks :
    Quiet calmTarget ∧ WritesRight calmTarget Md5Digest.emptyMemory (brokenStream 5000) 1 () := by
  refine ⟨calmTarget_quiet, (writesRight_iff_harmless calmTarget_quiet).mpr ⟨by decide, ?_, ?_⟩⟩
  · intro _
    rw [readable_brokenStream]
    exact List.forall_mem_nil _
  · intro _ _
    rw [readable_brokenStream]
    decide

/-- The five bytes of the file become zeros, but the checksum is the one of 2048 zeros. -/
theorem lost_block_wrong_checksum :
    ¬ ∀ (t : Target) (mem : Memory) (stream : IsoStream Unit) (checksumIndex : Nat) (s : Unit),
      Quiet t →
      let run := isoFilesrcWriteData t mem stream checksumIndex s
      run.written.flatten =
          expectedData stream (writingPass t mem stream checksumIndex s) ∧
        ∀ md5, run.stored = some md5 →
          md5 = Rfc1321.md5 (run.written.flatten.take stream.size) := by
  intro claim
  obtain ⟨-, hmd5⟩ :=
    claim calmTarget Md5Digest.emptyMemory (brokenStream 5) 1 () calmTarget_quiet
  have hrun := @write_opened Unit calmTarget Md5Digest.emptyMemory (brokenStream 5) 1 ()
    calmTarget_quiet (by decide)
  have hdigest := @digest_allChunks Unit Md5Digest.emptyMemory 1 5 (brokenStream 5) 1 (by decide) ()
  have hsummed : (allChunks 1 5 1 (readable (brokenStream 5) 1 ())).flatten = zeros 2048 := by
    rw [readable_brokenStream]
    exact @flatten_fillChunks 1 5 (by decide) 0 (by decide) (by decide)
  rw [hsummed] at hdigest
  have hwrong := hmd5 (Rfc1321.md5 (zeros 2048)) (by rw [hrun]; exact hdigest)
  have hwritten : (isoFilesrcWriteData calmTarget Md5Digest.emptyMemory (brokenStream 5) 1
      ()).written.flatten.take 5 = zeros 5 := by
    rw [hrun]
    change (buffers (readable (brokenStream 5) 1 ()) ++ List.replicate (1 -
      (readable (brokenStream 5) 1 ()).length) (zeros 2048)).flatten.take 5 = zeros 5
    rw [readable_brokenStream]
    rfl
  rw [show (brokenStream 5).size = 5 from rfl, hwritten] at hwrong
  exact absurd hwrong (by decide +kernel)

end FileData
