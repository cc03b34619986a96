import Libisofs.FileData

/-!
# The checksum of a first read pass

iso_stream_make_md5() reads a stream in advance, so that a change of its content can be
detected when iso_filesrc_write_data() reads it again. Both tell from the number of a block
how many of its bytes belong to the file, but not with the same type of integer.
-/

namespace PrePassMd5

open Md5 FileData
open FileSrc (divUp word)

variable {σ : Type}

/-- Opening the stream again restores the state of the first reading. -/
def Unchanging (stream : IsoStream σ) : Prop :=
  ∀ s s', stream.openStream s = stream.openStream s'

section Chunks

/-- The chunks of consecutive blocks in the first read pass. -/
def preChunks (fileSize : Nat) : Nat → List Bytes → List Bytes
  | _, [] => []
  | b, buffer :: rest =>
    buffer.take (makeMd5Bytes fileSize b) :: preChunks fileSize (b + 1) rest

theorem makeMd5Loop_eq (stream : IsoStream σ) (b n : Nat) (s : σ) :
    (makeMd5Loop stream b n s).1 =
      if (readable stream n s).length = n then
        some (preChunks stream.size b (buffers (readable stream n s)))
      else none := by
  induction n generalizing b s with
  | zero => rfl
  | succ n ih =>
    by_cases herror : (filesrcRead stream s).ret < 0
    · have hpre : (isoStreamReadBuffer stream s 2048).ret < 0 := herror
      simp only [makeMd5Loop, readable, if_pos hpre, if_pos herror, List.length_nil]
      rfl
    · have hpre : ¬ (isoStreamReadBuffer stream s 2048).ret < 0 := herror
      simp only [makeMd5Loop, readable, if_neg hpre, if_neg herror, List.length_cons,
        Nat.add_right_cancel_iff, ih]
      by_cases hall : (readable stream n (filesrcRead stream s).state).length = n
      · have hall' : (readable stream n (isoStreamReadBuffer stream s 2048).state).length = n :=
          hall
        rw [if_pos hall, if_pos hall']
        rfl
      · have hall' : (readable stream n (isoStreamReadBuffer stream s 2048).state).length ≠ n :=
          hall
        rw [if_neg hall, if_neg hall']
        rfl

/-- Below 4 GiB the product is exact. -/
theorem makeMd5Bytes_low {fileSize b : Nat} (hb : b * 2048 < 2 ^ 32) :
    makeMd5Bytes fileSize b = min (fileSize - b * 2048) 2048 := by
  have hword : word (b * 2048) = b * 2048 := Nat.mod_eq_of_lt hb
  rw [makeMd5Bytes, hword]
  split <;> omega

/-- From there on, it has lost at least 4 GiB. -/
theorem makeMd5Bytes_high {fileSize b : Nat} (hb : 2 ^ 32 ≤ b * 2048) (hin : b * 2048 ≤ fileSize) :
    makeMd5Bytes fileSize b = 2048 := by
  have hword : word (b * 2048) + 2 ^ 32 ≤ b * 2048 := by
    rw [word]
    omega
  rw [makeMd5Bytes, if_pos]
  omega

/-- The number of blocks fits into 32 bits, and so do the byte numbers of the last block if it
is not a full one. -/
def Countable (size : Nat) : Prop :=
  divUp size 2048 < 2 ^ 32 ∧ (size ≤ 2 ^ 32 ∨ size % 2048 = 0)

instance (size : Nat) : Decidable (Countable size) :=
  inferInstanceAs (Decidable (_ ∧ _))

theorem makeMd5Bytes_eq {size b : Nat} (countable : Countable size) (hb : b < divUp size 2048) :
    makeMd5Bytes size b = computedBytes size b := by
  obtain ⟨hlow, hhigh⟩ := divUp_bounds size
  have hsmall := countable.1
  rw [computedBytes_inside (by omega) (by omega)]
  by_cases hproduct : b * 2048 < 2 ^ 32
  · exact makeMd5Bytes_low hproduct
  · have hborder : size % 2048 = 0 := countable.2.resolve_left (by omega)
    rw [makeMd5Bytes_high (by omega) (by omega)]
    omega

/-- The sum of a countable file is the one which gets recorded while writing. -/
theorem preChunks_eq {size b : Nat} (countable : Countable size) {bufs : List Bytes}
    (hbufs : ∀ i < bufs.length, b + i < divUp size 2048) :
    preChunks size b bufs = chunksFrom 1 size b bufs := by
  induction bufs generalizing b with
  | nil => rfl
  | cons buf rest ih =>
    have hb : b < divUp size 2048 := hbufs 0 (Nat.zero_lt_succ _)
    have hrest : preChunks size (b + 1) rest = chunksFrom 1 size (b + 1) rest := by
      apply ih
      intro i hi
      have hnext := hbufs (i + 1) (Nat.succ_lt_succ hi)
      omega
    rw [preChunks, chunksFrom, hrest, makeMd5Bytes_eq countable hb]
    rfl

/-- No block of an uncountable file is taken for a partial one. -/
theorem makeMd5Bytes_full {size b : Nat} (huncountable : ¬ Countable size)
    (hb : b < nblocks size) : makeMd5Bytes size b = 2048 := by
  obtain ⟨hlow, hhigh⟩ := divUp_bounds size
  rw [nblocks, word] at hb
  rw [Countable] at huncountable
  by_cases hproduct : b * 2048 < 2 ^ 32
  · rw [makeMd5Bytes_low hproduct]
    omega
  · exact makeMd5Bytes_high (by omega) (by omega)

theorem flatten_preChunks_full {size b : Nat} (huncountable : ¬ Countable size)
    {bufs : List Bytes} (hlen : ∀ buf ∈ bufs, buf.length = 2048)
    (hbufs : ∀ i < bufs.length, b + i < nblocks size) :
    (preChunks size b bufs).flatten.length = bufs.length * 2048 := by
  induction bufs generalizing b with
  | nil => rfl
  | cons buf rest ih =>
    have hrest : (preChunks size (b + 1) rest).flatten.length = rest.length * 2048 := by
      apply ih fun buf hmem => hlen buf (List.mem_cons_of_mem _ hmem)
      intro i hi
      have hnext := hbufs (i + 1) (Nat.succ_lt_succ hi)
      omega
    have hb : b < nblocks size := hbufs 0 (Nat.zero_lt_succ _)
    rw [preChunks, makeMd5Bytes_full huncountable hb, List.flatten_cons, List.length_append,
      hrest, List.length_take,
      hlen buf (List.mem_cons_self ..), List.length_cons]
    omega

/-- The sum of all bytes of all blocks is not the size of an uncountable file. -/
theorem nblocks_ne {size : Nat} (huncountable : ¬ Countable size) :
    nblocks size * 2048 ≠ size := by
  obtain ⟨hlow, hhigh⟩ := divUp_bounds size
  rw [Countable] at huncountable
  rw [nblocks, word]
  omega

end Chunks

section Undisturbed

variable {t : Target} {mem : Memory} {stream : IsoStream σ} {checksumIndex : Nat}

/-- The same write options, but nothing ever goes wrong. -/
def calm (t : Target) : Target := { t with submit := fun _ => 1, isoWrite := fun _ => 1 }

theorem calm_quiet (t : Target) : Quiet (calm t) :=
  ⟨fun _ => Int.one_nonneg, fun _ => Int.one_nonneg⟩

theorem contentLoop_calm (t : Target) (stream : IsoStream σ) (checksumIndex b n : Nat) (s : σ) :
    (∃ code, (contentLoop t stream checksumIndex b n s).ending = .writeError code) ∨
      contentLoop t stream checksumIndex b n s =
        contentLoop (calm t) stream checksumIndex b n s := by
  induction n generalizing b s with
  | zero => exact Or.inr rfl
  | succ n ih =>
    rw [contentLoop, contentLoop]
    by_cases herror : (filesrcRead stream s).ret < 0
    · simp only [if_pos herror]
      exact Or.inr trivial
    · have hcalm : ¬ (calm t).isoWrite b < 0 := Int.not_lt.mpr ((calm_quiet t).isoWrite b)
      simp only [if_neg herror, if_neg hcalm]
      by_cases hwrite : t.isoWrite b < 0
      · rw [if_pos hwrite]
        exact Or.inl ⟨_, rfl⟩
      · rw [if_neg hwrite]
        rcases ih (b + 1) (filesrcRead stream s).state with ⟨code, hcode⟩ | heq
        · exact Or.inl ⟨code, hcode⟩
        · exact Or.inr (by rw [heq])

theorem fillLoop_calm (t : Target) (checksumIndex fileSize b n : Nat) :
    (∃ code, (fillLoop t checksumIndex fileSize b n).ending = .writeError code) ∨
      fillLoop t checksumIndex fileSize b n = fillLoop (calm t) checksumIndex fileSize b n := by
  induction n generalizing b with
  | zero => exact Or.inr rfl
  | succ n ih =>
    have hcalm : ¬ (calm t).isoWrite b < 0 := Int.not_lt.mpr ((calm_quiet t).isoWrite b)
    rw [fillLoop, fillLoop, if_neg hcalm]
    by_cases hwrite : t.isoWrite b < 0
    · rw [if_pos hwrite]
      exact Or.inl ⟨_, rfl⟩
    · rw [if_neg hwrite]
      rcases ih (b + 1) with ⟨code, hcode⟩ | heq
      · exact Or.inl ⟨code, hcode⟩
      · exact Or.inr (by rw [heq])

/-- A checksum is stored only if nothing went wrong. -/
theorem storeChecksum_calm {preMd5 : Option Bytes} {wasError : Bool}
    {written chunks : List Bytes} {md5 : Bytes}
    (hstored : (storeChecksum t mem checksumIndex preMd5 wasError written chunks).stored =
      some md5) :
    storeChecksum t mem checksumIndex preMd5 wasError written chunks =
      storeChecksum (calm t) mem checksumIndex preMd5 wasError written chunks := by
  rw [storeChecksum_quiet (calm_quiet t)]
  rw [storeChecksum] at hstored ⊢
  by_cases hindex : HasIndex t checksumIndex
  · have hcalm : HasIndex (calm t) checksumIndex := hindex
    rw [if_pos hindex] at hstored ⊢
    rw [if_pos hcalm]
    dsimp only at hstored ⊢
    split at hstored
    · cases hstored
    · rename_i hmatch
      rw [if_neg hmatch]
  · rw [if_neg hindex] at hstored
    cases hstored

theorem writeContent_calm {preMd5 : Option Bytes} {wasError : Bool} {s : σ} {md5 : Bytes}
    (hstored : (writeContent t mem stream checksumIndex preMd5 wasError s).stored = some md5) :
    writeContent t mem stream checksumIndex preMd5 wasError s =
      writeContent (calm t) mem stream checksumIndex preMd5 wasError s := by
  rcases contentLoop_calm t stream checksumIndex 0 (nblocks stream.size) s with
    ⟨code, hcode⟩ | hcontent
  · simp only [writeContent, hcode] at hstored
    cases hstored
  · simp only [writeContent, ← hcontent] at hstored ⊢
    cases hending : (contentLoop t stream checksumIndex 0 (nblocks stream.size) s).ending with
    | complete =>
      simp only [hending] at hstored ⊢
      exact storeChecksum_calm hstored
    | writeError code =>
      simp only [hending] at hstored
      cases hstored
    | readError code =>
      have hcalm : ¬ (calm t).submit .readError < 0 :=
        Int.not_lt.mpr ((calm_quiet t).submit .readError)
      simp only [hending, if_neg hcalm] at hstored ⊢
      by_cases habort : t.submit .readError < 0
      · rw [if_pos habort] at hstored
        cases hstored
      · rw [if_neg habort] at hstored ⊢
        let b := (contentLoop t stream checksumIndex 0 (nblocks stream.size) s).written.length
        rcases fillLoop_calm t checksumIndex stream.size b (nblocks stream.size - b) with
          ⟨code, hcode⟩ | hfill
        · simp only [b, hcode] at hstored
          cases hstored
        · simp only [b] at hfill
          rw [← hfill]
          cases hend :
            (fillLoop t checksumIndex stream.size b (nblocks stream.size - b)).ending with
          | complete =>
            simp only [b] at hend
            simp only [hend] at hstored ⊢
            exact storeChecksum_calm hstored
          | readError code | writeError code =>
            simp only [b] at hend
            simp only [hend] at hstored
            cases hstored

theorem write_calm {s : σ} {md5 : Bytes}
    (hstored : (isoFilesrcWriteData t mem stream checksumIndex s).stored = some md5) :
    isoFilesrcWriteData t mem stream checksumIndex s =
        isoFilesrcWriteData (calm t) mem stream checksumIndex s ∧
      0 ≤ (writingPass t mem stream checksumIndex s).1 := by
  have hpre : filesrcMakeMd5 (calm t) mem stream checksumIndex s =
    filesrcMakeMd5 t mem stream checksumIndex s := rfl
  by_cases hopen : (writingPass t mem stream checksumIndex s).1 < 0
  · rw [writingPass] at hopen
    simp only [isoFilesrcWriteData, if_pos hopen] at hstored
    split at hstored
    · cases hstored
    · split at hstored <;> cases hstored
  · refine ⟨?_, Int.not_lt.mp hopen⟩
    rw [writingPass] at hopen
    have hcalm : ¬ (calm t).submit .sizeChanged < 0 :=
      Int.not_lt.mpr ((calm_quiet t).submit .sizeChanged)
    simp only [isoFilesrcWriteData, hpre, if_neg hopen, hcalm, and_false, if_false] at hstored ⊢
    by_cases habort : 1 < (stream.openStream
        (filesrcMakeMd5 t mem stream checksumIndex s).2).1 ∧ t.submit .sizeChanged < 0
    · rw [if_pos habort] at hstored
      cases hstored
    · rw [if_neg habort] at hstored ⊢
      exact writeContent_calm hstored

end Undisturbed

section Agreement

variable {mem : Memory} {stream : IsoStream σ} {s : σ}

/-- The blocks which the first read pass gets from the stream. -/
def passBlocks (stream : IsoStream σ) (s : σ) : List (BufferRead σ) :=
  readable stream (nblocks stream.size) (stream.openStream s).2

theorem length_of_mem_passBlocks :
    ∀ buf ∈ buffers (passBlocks stream s), buf.length = 2048 := length_of_mem_buffers

/-- What a successful first read pass has done. -/
theorem makeMd5_valid (hret : (isoStreamMakeMd5 mem stream s).ret = 1) :
    0 ≤ (stream.openStream s).1 ∧ (passBlocks stream s).length = nblocks stream.size ∧
      (isoStreamMakeMd5 mem stream s).summed =
        (preChunks stream.size 0 (buffers (passBlocks stream s))).flatten ∧
      (isoStreamMakeMd5 mem stream s).md5 =
        digest mem (preChunks stream.size 0 (buffers (passBlocks stream s))) := by
  have hloop := makeMd5Loop_eq stream 0 (nblocks stream.size) (stream.openStream s).2
  rw [isoStreamMakeMd5] at hret ⊢
  by_cases hrepeat : (!stream.repeatable) = true
  · rw [if_pos hrepeat] at hret
    cases hret
  · rw [if_neg hrepeat] at hret ⊢
    by_cases hopen : (stream.openStream s).1 < 0
    · simp only [if_pos hopen] at hret
      omega
    · simp only [if_neg hopen] at hret ⊢
      by_cases hall : (passBlocks stream s).length = nblocks stream.size
      · rw [passBlocks] at hall
        rw [if_pos hall] at hloop
        generalize makeMd5Loop stream 0 (nblocks stream.size) (stream.openStream s).2 = out at *
        obtain ⟨chunks, last⟩ := out
        obtain rfl : chunks = _ := hloop
        exact ⟨Int.not_lt.mp hopen, hall, rfl, rfl⟩
      · rw [passBlocks] at hall
        rw [if_neg hall] at hloop
        generalize makeMd5Loop stream 0 (nblocks stream.size) (stream.openStream s).2 = out at *
        obtain ⟨chunks, last⟩ := out
        obtain rfl : chunks = none := hloop
        cases hret

/-- The first bytes of the stream, as many as the file has. An early end of file is made up
for by zeros. -/
def firstBytes (stream : IsoStream σ) (s : σ) : Bytes :=
  (buffers (passBlocks stream s)).flatten.take stream.size

/-- The first read pass has summed up the first bytes of the stream, and whenever
iso_filesrc_write_data() records a checksum, it is the same one. -/
structure PrePassRight (mem : Memory) (stream : IsoStream σ) (s : σ) : Prop where
  size : (isoStreamMakeMd5 mem stream s).summed.length = stream.size
  first : (isoStreamMakeMd5 mem stream s).summed = firstBytes stream s
  md5 : (isoStreamMakeMd5 mem stream s).md5 = some (Rfc1321.md5 (firstBytes stream s))
  recorded : ∀ (t : Target) (mem' : Memory) (checksumIndex : Nat) (s' : σ) (md5 : Bytes),
    (isoFilesrcWriteData t mem' stream checksumIndex s').stored = some md5 →
    (isoFilesrcWriteData t mem' stream checksumIndex s').summed =
        (isoStreamMakeMd5 mem stream s).summed ∧
      (isoStreamMakeMd5 mem stream s).md5 = some md5

theorem countable_of_size (hret : (isoStreamMakeMd5 mem stream s).ret = 1)
    (hsize : (isoStreamMakeMd5 mem stream s).summed.length = stream.size) :
    Countable stream.size := by
  obtain ⟨-, hall, hsummed, -⟩ := makeMd5_valid hret
  by_contra huncountable
  have hbuffers : (buffers (passBlocks stream s)).length = nblocks stream.size := by
    rw [buffers, List.length_map, hall]
  have hlen : (preChunks stream.size 0 (buffers (passBlocks stream s))).flatten.length =
      (buffers (passBlocks stream s)).length * 2048 := by
    apply flatten_preChunks_full huncountable length_of_mem_passBlocks
    intro i hi
    omega
  rw [← hsummed, hsize, hbuffers] at hlen
  exact nblocks_ne huncountable hlen.symm

/-- What gets recorded while the same blocks are written. -/
theorem recorded_eq (unchanging : Unchanging stream) (countable : Countable stream.size)
    (hall : (passBlocks stream s).length = nblocks stream.size) {t : Target} {mem' : Memory}
    {checksumIndex : Nat} {s' : σ} {md5 : Bytes}
    (hstored : (isoFilesrcWriteData t mem' stream checksumIndex s').stored = some md5) :
    (isoFilesrcWriteData t mem' stream checksumIndex s').summed = firstBytes stream s ∧
      md5 = Rfc1321.md5 (firstBytes stream s) := by
  obtain ⟨hcalm, hopen⟩ := write_calm hstored
  have hn := (nblocks_eq_iff stream.size).mpr countable.1
  have hrun := @write_opened σ (calm t) mem' stream checksumIndex s' (calm_quiet t) hopen
  have hpass : (writingPass (calm t) mem' stream checksumIndex s').2 =
      (stream.openStream s).2 := by
    rw [writingPass, unchanging _ s]
  have hdigest := digest_allChunks mem' checksumIndex stream.size stream countable.1
    (stream.openStream s).2
  rw [hcalm] at hstored ⊢
  rw [hrun, hpass, hn] at hstored ⊢
  by_cases hindex : HasIndex (calm t) checksumIndex
  · have hsummed := (summed_iff hindex.1 countable.1 (stream.openStream s).2).mpr (by
      intro hless
      rw [passBlocks, hn] at hall
      omega)
    have hfirst : (allChunks checksumIndex stream.size (divUp stream.size 2048)
        (readable stream (divUp stream.size 2048) (stream.openStream s).2)).flatten =
          firstBytes stream s := by
      rw [hsummed, firstBytes, passBlocks]
      rw [passBlocks, hn] at hall
      rw [hn, hall, Nat.sub_self, Nat.zero_mul, zeros, List.replicate_zero, List.append_nil]
    rw [if_pos hindex, hdigest, Option.some_inj] at hstored
    exact ⟨hfirst, hfirst ▸ hstored.symm⟩
  · rw [if_neg hindex] at hstored
    cases hstored

/-- The checksum of a first read pass is right exactly if the file is countable. -/
theorem prePassRight_iff_countable (unchanging : Unchanging stream)
    (hret : (isoStreamMakeMd5 mem stream s).ret = 1) :
    PrePassRight mem stream s ↔ Countable stream.size := by
  refine ⟨fun right => countable_of_size hret right.size, fun countable => ?_⟩
  obtain ⟨-, hall, hsummed, hmd5⟩ := makeMd5_valid hret
  have hn := (nblocks_eq_iff stream.size).mpr countable.1
  obtain ⟨hlow, hhigh⟩ := divUp_bounds stream.size
  have hsmall := countable.1
  have hbuffers : (buffers (passBlocks stream s)).length = divUp stream.size 2048 := by
    rw [buffers, List.length_map, hall, hn]
  have hchunks : preChunks stream.size 0 (buffers (passBlocks stream s)) =
      chunksFrom 1 stream.size 0 (buffers (passBlocks stream s)) := by
    apply preChunks_eq countable
    intro i hi
    omega
  have hfirst : (chunksFrom 1 stream.size 0 (buffers (passBlocks stream s))).flatten =
      firstBytes stream s := by
    apply flatten_chunksFrom Nat.one_pos (by omega) length_of_mem_passBlocks
    intro i hi
    omega
  have hlength : (firstBytes stream s).length = stream.size := by
    rw [firstBytes, List.length_take, length_flatten_blocks length_of_mem_passBlocks]
    omega
  obtain ⟨hshort, -⟩ := @chunksFrom_short 1 stream.size 0 (buffers (passBlocks stream s))
    length_of_mem_passBlocks
  have hdigest : (isoStreamMakeMd5 mem stream s).md5 =
      some (Rfc1321.md5 (firstBytes stream s)) := by
    rw [hmd5, hchunks, digest_eq mem hshort (by rw [hfirst]; omega), hfirst]
  rw [hchunks, hfirst] at hsummed
  refine ⟨hsummed ▸ hlength, hsummed, hdigest, ?_⟩
  rintro t mem' checksumIndex s' md5 hstored
  obtain ⟨hsum, rfl⟩ := recorded_eq unchanging countable hall hstored
  exact ⟨hsum.trans hsummed.symm, hdigest⟩

end Agreement

/-- A file of zeros. -/
def zeroStream (size : Nat) : IsoStream Unit where
  size := size
  repeatable := true
  openStream _ := (1, ())
  read _ count := (.ok (zeros count), ())
  close := id
  read_le _ count bytes h := by
    obtain rfl : zeros count = bytes := by simpa using h
    exact Nat.le_of_eq List.length_replicate
  error_neg _ _ _ h := nomatch h

theorem zeroStream_unchanging (size : Nat) : Unchanging (zeroStream size) := fun _ _ => rfl

theorem filesrcRead_zeroStream (size : Nat) :
    filesrcRead (zeroStream size) () = ⟨1, zeros 2048, 2048, ()⟩ := by
  have hread : (zeroStream size).read () 2048 = (.ok (0 :: zeros 2047), ()) := rfl
  have hlen : (zeros 2047).length = 2047 := List.length_replicate
  rw [filesrcRead, isoStreamReadBuffer, hread]
  simp only [hlen]
  rfl

theorem length_readable_zeroStream (size n : Nat) :
    (readable (zeroStream size) n ()).length = n := by
  induction n with
  | zero => rfl
  | succ n ih =>
    simp only [readable, filesrcRead_zeroStream]
    rw [if_neg (by decide), List.length_cons, ih]

theorem makeMd5_zeroStream (mem : Memory) (size : Nat) :
    (isoStreamMakeMd5 mem (zeroStream size) ()).ret = 1 := by
  have hloop := makeMd5Loop_eq (zeroStream size) 0 (nblocks size) ()
  rw [length_readable_zeroStream, if_pos rfl] at hloop
  have hopen : ¬ ((zeroStream size).openStream ()).1 < 0 := by
    change ¬ (1 : Int) < 0
    decide
  rw [isoStreamMakeMd5, if_neg (by simp [zeroStream])]
  simp only [if_neg hopen]
  generalize hout : makeMd5Loop (zeroStream size) 0 (nblocks (zeroStream size).size)
    ((zeroStream size).openStream ()).2 = out
  have hfirst : out.1 = _ := hout ▸ hloop
  obtain ⟨chunks, last⟩ := out
  obtain rfl : chunks = _ := hfirst
  rfl

theorem three_blocks_agree :
    Unchanging (zeroStream 5000) ∧
      (isoStreamMakeMd5 Md5Digest.emptyMemory (zeroStream 5000) ()).ret = 1 ∧
      PrePassRight Md5Digest.emptyMemory (zeroStream 5000) () :=
  ⟨zeroStream_unchanging 5000, makeMd5_zeroStream _ 5000,
    (prePassRight_iff_countable (zeroStream_unchanging 5000) (makeMd5_zeroStream _ 5000)).mpr
      (by decide)⟩

/-- Of the block which contains the byte after 4 GiB, all bytes get summed up. -/
theorem byte_after_4GiB_wrong :
    ¬ ∀ (mem : Memory) (stream : IsoStream Unit) (s : Unit),
      Unchanging stream → (isoStreamMakeMd5 mem stream s).ret = 1 →
      PrePassRight mem stream s := by
  intro claim
  have right := claim Md5Digest.emptyMemory (zeroStream (2 ^ 32 + 1)) ()
    (zeroStream_unchanging _) (makeMd5_zeroStream _ _)
  have hcountable := countable_of_size (makeMd5_zeroStream _ _) right.size
  exact absurd hcountable (by decide)

end PrePassMd5
