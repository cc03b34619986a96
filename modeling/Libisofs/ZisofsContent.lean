import Libisofs.ZisofsUncompress

/-!
# What the content of a zisofs file announces

The file header and the block pointers as the bytes of the content tell them. From each stream
which delivers the content, ziso_stream_uncompress() reads just these.
-/

namespace ZisofsContent

open ByteBuffers (ofLsb)
open FileData (Bytes)
open GuardedReads ZisofsUncompress
open ZisofsAccount (BlockSize)

section Description

/-- The state of the stream is what remains of the content. Each read fails or delivers the next
bytes. -/
structure Delivers (input : InputStream Bytes) : Prop where
  read_ok : ∀ content count bytes rest, input.read content count = (.ok bytes, rest) →
    bytes = content.take count ∧ rest = content.drop count

/-- An input stream which always delivers. -/
def contentStream : InputStream Bytes where
  read content count := (.ok (content.take count), content.drop count)
  read_le content count items h := by
    obtain rfl := Except.ok.inj h
    exact List.length_take_le count content

theorem contentStream_delivers : Delivers contentStream := by
  refine ⟨fun content count bytes rest h => ?_⟩
  cases h
  exact ⟨rfl, rfl⟩

def byte (content : Bytes) (pos : Nat) : Nat := (content.getD pos 0).toNat

/-- A little-endian number. -/
def number (content : Bytes) (pos size : Nat) : Nat := ofLsb ((content.drop pos).take size)

/-- A header of version 1 has 16 bytes and 32 bit pointers, one of version 2 has 24 bytes and
64 bit pointers. Words are skipped only if the size field exceeds these numbers. -/
def headLength (head : ZisofsHead) : Nat :=
  if head.zisoAlgoNum = 0 then 16 + 4 * (head.headerSizeDiv4 - 16)
  else 24 + 4 * (head.headerSizeDiv4 - 24)

/-- The content begins by this file header. -/
inductive Head (content : Bytes) : ZisofsHead → Prop where
  | version1 {head : ZisofsHead} : content.take 8 = zisofsMagic → head.zisoAlgoNum = 0 →
      head.uncompressedSize = number content 8 4 → head.headerSizeDiv4 = byte content 12 →
      head.blockSize.log2 = byte content 13 → 4 ≤ head.headerSizeDiv4 →
      head.blockSize.log2 ≤ 17 → headLength head ≤ content.length → Head content head
  | version2 {head : ZisofsHead} : content.take 8 = zisofs2Magic → head.zisoAlgoNum = 1 →
      head.headerSizeDiv4 = byte content 9 → byte content 10 = 1 →
      head.blockSize.log2 = byte content 11 → head.uncompressedSize = number content 12 8 →
      4 ≤ head.headerSizeDiv4 → headLength head ≤ content.length → Head content head

end Description

section Parsing

variable {content rest : Bytes} {capacity count : Nat}

theorem readFully_iff (enough : count ≤ capacity) {bytes : Bytes} :
    readFully contentStream capacity count content = (.ok bytes, rest) ↔
      count ≤ content.length ∧ bytes = content.take count ∧ rest = content.drop count := by
  rw [readFully, bind_eq_ok_iff]
  constructor
  · rintro ⟨got, s, hread, h⟩
    obtain ⟨hgot, -⟩ := readInto_eq_ok_iff.mp hread
    cases hgot
    rcases ite_eq_ok_iff.mp h with ⟨hlen, h⟩ | ⟨-, h⟩
    · obtain ⟨rfl, rfl⟩ := pure_eq_ok_iff.mp h
      rw [List.length_take] at hlen
      exact ⟨by omega, rfl, rfl⟩
    · exact (throw_ne_ok h).elim
  · rintro ⟨hlen, rfl, rfl⟩
    have htake : (content.take count).length = count := List.length_take_of_le hlen
    refine ⟨_, _, readInto_eq_ok_iff.mpr ⟨rfl, htake.trans_le enough⟩, ?_⟩
    exact ite_eq_ok_iff.mpr (Or.inl ⟨htake, pure_eq_ok_iff.mpr ⟨rfl, rfl⟩⟩)

theorem skipWords_iff (n : Nat) :
    skipWords contentStream n content = (.ok (), rest) ↔
      4 * n ≤ content.length ∧ rest = content.drop (4 * n) := by
  induction n generalizing content with
  | zero =>
    rw [skipWords, pure_eq_ok_iff]
    simp [eq_comm]
  | succ n ih =>
    rw [skipWords, bind_eq_ok_iff]
    constructor
    · rintro ⟨bytes, s, hread, h⟩
      obtain ⟨hlen, rfl, rfl⟩ := (readFully_iff (Nat.le_refl 4)).mp hread
      obtain ⟨hmore, rfl⟩ := ih.mp h
      rw [List.length_drop] at hmore
      refine ⟨by omega, ?_⟩
      rw [List.drop_drop, Nat.mul_succ, Nat.add_comm]
    · rintro ⟨hlen, rfl⟩
      refine ⟨_, _, (readFully_iff (Nat.le_refl 4)).mpr ⟨by omega, rfl, rfl⟩, ?_⟩
      refine ih.mpr ⟨?_, ?_⟩
      · rw [List.length_drop]
        omega
      · rw [List.drop_drop, Nat.mul_succ, Nat.add_comm]

theorem checkedHead_iff {algoNum headerSize log2 maxLog2 size : Nat} (hmax : maxLog2 ≤ 20)
    {head : ZisofsHead} :
    (checkedHead algoNum headerSize log2 maxLog2 size : HeadReading Bytes ZisofsHead) content =
        (.ok head, rest) ↔
      (head.zisoAlgoNum = algoNum ∧ head.headerSizeDiv4 = headerSize ∧
        head.blockSize.log2 = log2 ∧ head.uncompressedSize = size) ∧
      4 ≤ head.headerSizeDiv4 ∧ head.blockSize.log2 ≤ maxLog2 ∧ rest = content := by
  rw [checkedHead]
  split
  · rename_i h
    rw [pure_eq_ok_iff]
    constructor
    · rintro ⟨rfl, rfl⟩
      exact ⟨⟨rfl, rfl, rfl, rfl⟩, h.1, h.2.2.1, rfl⟩
    · rintro ⟨⟨hnum, hsize, hlog, hun⟩, -, -, rfl⟩
      obtain ⟨a, b, ⟨c, _, _⟩, d⟩ := head
      dsimp only at hnum hsize hlog hun
      subst hnum hsize hlog hun
      exact ⟨rfl, rfl⟩
  · rename_i h
    refine ⟨fun h => (throw_ne_ok h).elim, ?_⟩
    rintro ⟨⟨-, hsize, hlog, -⟩, hfour, hle, -⟩
    have := head.blockSize.log2_ge
    omega

theorem take_eight_append (content : Bytes) (n : Nat) :
    content.take 8 ++ (content.drop 8).take n = content.take (8 + n) := List.take_add.symm

theorem getD_take {n pos : Nat} (hpos : pos < n) (content : Bytes) :
    ((content.take n).getD pos 0).toNat = byte content pos := by
  rw [byte, List.getD_eq_getElem?_getD, List.getElem?_take_of_lt hpos,
    ← List.getD_eq_getElem?_getD]

theorem ofLsb_drop_take {n pos size : Nat} (h : pos + size ≤ n) (content : Bytes) :
    ofLsb (((content.take n).drop pos).take size) = number content pos size := by
  rw [number, List.drop_take, List.take_take, Nat.min_eq_left (by omega)]

/-- What is read as a file header is what the content begins by. -/
theorem head_of_parsed {v2Enabled : Nat} {head : ZisofsHead}
    (hparsed : zisoParseZisofsHead contentStream v2Enabled false true content =
      (.ok head, rest)) :
    Head content head ∧ rest = content.drop (headLength head) := by
  rw [zisoParseZisofsHead, bind_eq_ok_iff] at hparsed
  obtain ⟨magic, s, hmagic, h⟩ := hparsed
  obtain ⟨height, rfl, rfl⟩ := (readFully_iff (by decide)).mp hmagic
  rcases ite_eq_ok_iff.mp h with ⟨hfirst, h⟩ | ⟨-, h⟩
  · obtain ⟨bytes, s, hread, h⟩ := bind_eq_ok_iff.mp h
    obtain ⟨hsixteen, rfl, rfl⟩ := (readFully_iff (by decide)).mp hread
    obtain ⟨head', s, hchecked, h⟩ := bind_eq_ok_iff.mp h
    rw [take_eight_append, getD_take (by decide), getD_take (by decide),
      ofLsb_drop_take (by decide), checkedHead_iff (by decide)] at hchecked
    obtain ⟨⟨hnum, hsize, hlog, hun⟩, hfour, hle, rfl⟩ := hchecked
    obtain ⟨⟨⟩, s, hskip, h⟩ := bind_eq_ok_iff.mp h
    obtain ⟨hwords, rfl⟩ := (skipWords_iff _).mp hskip
    obtain ⟨rfl, rfl⟩ := pure_eq_ok_iff.mp h
    have hlength : headLength head' = 8 + 8 + 4 * (head'.headerSizeDiv4 - 16) := if_pos hnum
    simp only [List.length_drop] at hsixteen hwords
    refine ⟨.version1 hfirst hnum hun hsize hlog hfour hle (by omega), ?_⟩
    rw [List.drop_drop, List.drop_drop, hlength, Nat.add_assoc]
  · rcases ite_eq_ok_iff.mp h with ⟨⟨hsecond, -⟩, h⟩ | ⟨-, h⟩
    · obtain ⟨bytes, s, hread, h⟩ := bind_eq_ok_iff.mp h
      obtain ⟨hmore, rfl, rfl⟩ := (readFully_iff (by decide)).mp hread
      obtain ⟨head', s, hchecked, h⟩ := bind_eq_ok_iff.mp h
      rw [take_eight_append, getD_take (by decide), getD_take (by decide),
        getD_take (by decide), ofLsb_drop_take (by decide),
        checkedHead_iff (by decide)] at hchecked
      obtain ⟨⟨hnum, hsize, hlog, hun⟩, hfour, hle, rfl⟩ := hchecked
      rcases ite_eq_ok_iff.mp h with ⟨-, h⟩ | ⟨hone, h⟩
      · exact (throw_ne_ok h).elim
      · obtain ⟨⟨⟩, s, hskip, h⟩ := bind_eq_ok_iff.mp h
        obtain ⟨hwords, rfl⟩ := (skipWords_iff _).mp hskip
        obtain ⟨rfl, rfl⟩ := pure_eq_ok_iff.mp h
        have halgo : head'.zisoAlgoNum = 1 := by simpa using hone
        have hlength : headLength head' = 8 + 16 + 4 * (head'.headerSizeDiv4 - 24) :=
          if_neg (by omega)
        simp only [List.length_drop] at hmore hwords
        refine ⟨.version2 hsecond halgo hsize (hnum.symm.trans halgo) hlog hun hfour
          (by omega), ?_⟩
        rw [List.drop_drop, List.drop_drop, hlength, Nat.add_assoc]
    · exact (throw_ne_ok h).elim

/-- A file header at the begin of the content is read. -/
theorem Head.parsed {head : ZisofsHead} (hhead : Head content head) (v2Enabled : Nat) :
    zisoParseZisofsHead contentStream v2Enabled false true content =
      (.ok head, content.drop (headLength head)) := by
  rw [zisoParseZisofsHead, bind_eq_ok_iff]
  cases hhead with
  | version1 hfirst hnum hun hsize hlog hfour hle hlen =>
    have hlength : headLength head = 16 + 4 * (head.headerSizeDiv4 - 16) := if_pos hnum
    have hmagic : readFully contentStream 24 8 content =
        (.ok (content.take 8), content.drop 8) :=
      (readFully_iff (by decide)).mpr ⟨by omega, rfl, rfl⟩
    have hread : readFully contentStream (24 - 8) 8 (content.drop 8) =
        (.ok ((content.drop 8).take 8), (content.drop 8).drop 8) :=
      (readFully_iff (by decide)).mpr ⟨by rw [List.length_drop]; omega, rfl, rfl⟩
    have hskip : skipWords contentStream (head.headerSizeDiv4 - 16) ((content.drop 8).drop 8) =
        (.ok (), content.drop (headLength head)) := by
      rw [List.drop_drop, skipWords_iff, List.length_drop, List.drop_drop, hlength]
      exact ⟨by omega, rfl⟩
    refine ⟨_, _, hmagic, ite_eq_ok_iff.mpr (Or.inl ⟨hfirst, ?_⟩)⟩
    refine bind_eq_ok_iff.mpr ⟨_, _, hread, ?_⟩
    refine bind_eq_ok_iff.mpr ⟨head, (content.drop 8).drop 8, ?_, ?_⟩
    · rw [take_eight_append, getD_take (by decide), getD_take (by decide),
        ofLsb_drop_take (by decide), checkedHead_iff (by decide)]
      exact ⟨⟨hnum, hsize, hlog, hun⟩, hfour, hle, rfl⟩
    · exact bind_eq_ok_iff.mpr ⟨(), _, hskip, pure_eq_ok_iff.mpr ⟨rfl, rfl⟩⟩
  | version2 hsecond halgo hsize hnum hlog hun hfour hlen =>
    have hlength : headLength head = 24 + 4 * (head.headerSizeDiv4 - 24) := if_neg (by omega)
    have hmagic : readFully contentStream 24 8 content =
        (.ok (content.take 8), content.drop 8) :=
      (readFully_iff (by decide)).mpr ⟨by omega, rfl, rfl⟩
    have hother : content.take 8 ≠ zisofsMagic := by
      rw [hsecond]
      decide
    have hread : readFully contentStream (24 - 8) 16 (content.drop 8) =
        (.ok ((content.drop 8).take 16), (content.drop 8).drop 16) :=
      (readFully_iff (by decide)).mpr ⟨by rw [List.length_drop]; omega, rfl, rfl⟩
    have hskip : skipWords contentStream (head.headerSizeDiv4 - 24) ((content.drop 8).drop 16) =
        (.ok (), content.drop (headLength head)) := by
      rw [List.drop_drop, skipWords_iff, List.length_drop, List.drop_drop, hlength]
      exact ⟨by omega, rfl⟩
    refine ⟨_, _, hmagic, ite_eq_ok_iff.mpr (Or.inr ⟨hother, ?_⟩)⟩
    refine ite_eq_ok_iff.mpr (Or.inl ⟨⟨hsecond, fun h => Bool.noConfusion h.2⟩, ?_⟩)
    refine bind_eq_ok_iff.mpr ⟨_, _, hread, ?_⟩
    refine bind_eq_ok_iff.mpr ⟨head, (content.drop 8).drop 16, ?_, ?_⟩
    · rw [take_eight_append, getD_take (by decide), getD_take (by decide),
        getD_take (by decide), ofLsb_drop_take (by decide), checkedHead_iff (by decide)]
      exact ⟨⟨halgo.trans hnum.symm, hsize, hlog, hun⟩, hfour, head.blockSize.log2_le, rfl⟩
    · refine ite_eq_ok_iff.mpr (Or.inr ⟨fun h => h.1 halgo, ?_⟩)
      exact bind_eq_ok_iff.mpr ⟨(), _, hskip, pure_eq_ok_iff.mpr ⟨rfl, rfl⟩⟩

/-- Each read of such a stream is a read of the content. -/
theorem Delivers.follows {input : InputStream Bytes} (delivers : Delivers input)
    (capacity count : Nat) :
    Follows (readInto input capacity count) (readInto contentStream capacity count) := by
  apply Follows.readInto
  intro content count bytes rest h
  obtain ⟨rfl, rfl⟩ := delivers.read_ok content count bytes rest h
  rfl

theorem Delivers.readInto_ok {input : InputStream Bytes} (delivers : Delivers input)
    {bytes : Bytes} (h : readInto input capacity count content = (.ok bytes, rest)) :
    bytes = content.take count ∧ rest = content.drop count ∧ bytes.length ≤ capacity := by
  obtain ⟨hread, hle⟩ := readInto_eq_ok_iff.mp h
  obtain ⟨hbytes, hrest⟩ := delivers.read_ok content count bytes rest hread
  exact ⟨hbytes, hrest, hle⟩

theorem readFully_follows {input : InputStream Bytes} (delivers : Delivers input)
    (capacity count : Nat) :
    Follows (readFully input capacity count) (readFully contentStream capacity count) :=
  (delivers.follows capacity count).bind fun _ => Follows.refl _

theorem skipWords_follows {input : InputStream Bytes} (delivers : Delivers input) (n : Nat) :
    Follows (skipWords input n) (skipWords contentStream n) := by
  induction n with
  | zero => exact Follows.refl _
  | succ n ih => exact (readFully_follows delivers 4 4).bind fun _ => ih

theorem zisoParseZisofsHead_follows {input : InputStream Bytes} (delivers : Delivers input)
    (v2Enabled : Nat) :
    Follows (zisoParseZisofsHead input v2Enabled false true)
      (zisoParseZisofsHead contentStream v2Enabled false true) := by
  refine (readFully_follows delivers 24 8).bind fun magic => Follows.ite ?_ (Follows.ite ?_ ?_)
  · refine (readFully_follows delivers (24 - 8) 8).bind fun rest => ?_
    refine (Follows.refl _).bind fun head => ?_
    exact (skipWords_follows delivers _).bind fun _ => Follows.refl _
  · refine (readFully_follows delivers (24 - 8) 16).bind fun rest => ?_
    refine (Follows.refl _).bind fun head => Follows.ite (Follows.refl _) ?_
    exact (skipWords_follows delivers _).bind fun _ => Follows.refl _
  · exact Follows.refl _

end Parsing

section Pointers

/-- The array of block pointers, each of `width` bytes. -/
def pointersAt (width fill : Nat) (content : Bytes) : List Nat :=
  (List.range fill).map fun i => number content (width * i) width

theorem pointersOf_eq {fill : Nat} {mem content : Bytes} {width : Nat}
    (same : ∀ i, i < fill → ofLsb ((mem.drop (8 * i)).take 8) = number content (width * i) width) :
    pointersOf fill mem = pointersAt width fill content := by
  rw [pointersOf, pointersAt, List.map_inj_left]
  exact fun i hi => same i (List.mem_range.mp hi)

/-- What an array holds after some of its bytes have been overwritten. -/
theorem getElem?_overwrite {buffer buffer' items : Bytes} {pos : Nat}
    (h : overwrite buffer pos items = some buffer') (i : Nat) :
    buffer'[i]? = if pos ≤ i ∧ i < pos + items.length then items[i - pos]? else buffer[i]? := by
  rw [overwrite] at h
  split at h
  · cases h
  · rename_i hfits
    obtain rfl := Option.some.inj h
    have htake : (buffer.take pos).length = pos := List.length_take_of_le (by omega)
    rw [List.append_assoc]
    by_cases hlow : i < pos
    · rw [List.getElem?_append_left (by omega), List.getElem?_take_of_lt hlow, if_neg (by omega)]
    · rw [List.getElem?_append_right (by omega), htake]
      by_cases hin : i < pos + items.length
      · rw [List.getElem?_append_left (by omega), if_pos ⟨by omega, hin⟩]
      · rw [List.getElem?_append_right (by omega), List.getElem?_drop, if_neg (by omega)]
        congr 1
        omega

/-- After spreading, each word stands at the begin of 8 bytes, with zeros behind it. What lies
behind the words which get spread stays as it is. -/
theorem getElem?_spread {k : Nat} {mem mem' : Bytes} (enough : 8 * (k + 1) ≤ mem.length)
    (h : spread k mem = some mem') :
    (∀ i j, i ≤ k → j < 8 → mem'[8 * i + j]? = if j < 4 then mem[4 * i + j]? else some 0) ∧
      ∀ x, 8 * (k + 1) ≤ x → mem'[x]? = mem[x]? := by
  have hzeros : (zeros 4).length = 4 := rfl
  have hzero : ∀ {j}, j < 4 → (zeros 4)[j]? = some 0 := fun hj =>
    List.getElem?_replicate_of_lt hj
  induction k generalizing mem with
  | zero =>
    have hget := getElem?_overwrite h
    rw [hzeros] at hget
    refine ⟨fun i j hi hj => ?_, fun x hx => ?_⟩
    · obtain rfl : i = 0 := by omega
      simp only [Nat.mul_zero, Nat.zero_add]
      rw [hget]
      split
      · rw [if_neg (by omega), hzero (by omega)]
      · rw [if_pos (by omega)]
    · rw [hget, if_neg (by omega)]
  | succ k ih =>
    have hword : ((mem.drop (4 * (k + 1))).take 4).length = 4 := by
      rw [List.length_take, List.length_drop]
      omega
    obtain ⟨mem₁, hfirst, hlen₁⟩ := overwrite_of_le mem (8 * (k + 1))
      ((mem.drop (4 * (k + 1))).take 4) (by omega)
    obtain ⟨mem₂, hsecond, hlen₂⟩ := overwrite_of_le mem₁ (8 * (k + 1) + 4) (zeros 4) (by omega)
    simp only [spread, hfirst, hsecond, Option.bind_eq_bind, Option.bind_some] at h
    obtain ⟨hwords, hrest⟩ := ih (by omega) h
    have hget₁ := getElem?_overwrite hfirst
    have hget₂ := getElem?_overwrite hsecond
    rw [hword] at hget₁
    rw [hzeros] at hget₂
    refine ⟨fun i j hi hj => ?_, fun x hx => ?_⟩
    · by_cases hlast : i = k + 1
      · rw [hrest _ (by omega), hget₂, hlast]
        split
        · rw [if_neg (by omega), hzero (by omega)]
        · rw [if_pos (by omega), hget₁, if_pos (by omega), List.getElem?_take_of_lt (by omega),
            List.getElem?_drop, Nat.add_sub_cancel_left]
      · rw [hwords i j (by omega) hj, hget₂, hget₁]
        split
        · rw [if_neg (by omega), if_neg (by omega)]
        · rfl
    · rw [hrest x (by omega), hget₂, if_neg (by omega), hget₁, if_neg (by omega)]

theorem ofLsb_append_zeros (bytes : Bytes) (n : Nat) : ofLsb (bytes ++ zeros n) = ofLsb bytes := by
  induction bytes with
  | nil =>
    induction n with
    | zero => rfl
    | succ n ih => simpa [zeros, List.replicate_succ, ofLsb] using ih
  | cons first bytes ih => rw [List.cons_append, ofLsb, ofLsb, ih]

/-- The spread words are the pointers of version 1. -/
theorem pointersOf_spread {fill : Nat} {content mem' : Bytes}
    (henough : fill * 4 ≤ content.length)
    (h : spread (fill - 1) (content.take (fill * 4) ++ zeros (fill * 8 - fill * 4)) = some mem') :
    pointersOf fill mem' = pointersAt 4 fill content := by
  apply pointersOf_eq
  intro i hi
  have htake : (content.take (fill * 4)).length = fill * 4 := List.length_take_of_le henough
  have hmem : (content.take (fill * 4) ++ zeros (fill * 8 - fill * 4)).length = fill * 8 := by
    rw [List.length_append, htake, zeros, List.length_replicate]
    omega
  obtain ⟨hwords, -⟩ := getElem?_spread (by omega) h
  have hbytes : (mem'.drop (8 * i)).take 8 = (content.drop (4 * i)).take 4 ++ zeros 4 := by
    have hword : ((content.drop (4 * i)).take 4).length = 4 := by
      rw [List.length_take, List.length_drop]
      omega
    apply List.ext_getElem?
    intro j
    by_cases hj : j < 8
    · rw [List.getElem?_take_of_lt hj, List.getElem?_drop, hwords i j (by omega) hj]
      split
      · rw [List.getElem?_append_left (by omega), List.getElem?_append_left (by omega),
          List.getElem?_take_of_lt (by omega), List.getElem?_take_of_lt (by omega),
          List.getElem?_drop]
      · rw [List.getElem?_append_right (by omega), hword, zeros,
          List.getElem?_replicate_of_lt (by omega)]
    · rw [List.getElem?_eq_none (by rw [List.length_take]; omega), List.getElem?_eq_none]
      rw [List.length_append, hword, zeros, List.length_replicate]
      omega
  rw [hbytes, ofLsb_append_zeros, number]

/-- The pointers of version 2 are in the array as they are read. -/
theorem pointersOf_take (fill : Nat) (content : Bytes) :
    pointersOf fill (content.take (fill * 8)) = pointersAt 8 fill content := by
  apply pointersOf_eq
  intro i hi
  exact ofLsb_drop_take (by omega) content

end Pointers

end ZisofsContent
