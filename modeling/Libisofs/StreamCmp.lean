import Libisofs.Lib.ThreeWay
import Mathlib.Data.List.Infix

/-!
# Comparison of streams

iso_stream_cmp_ino() of stream.c with iso_ifs_sections_cmp() of fs_image.c and the
.cmp_ino() functions of the filters. The objects do not change while they get
compared. What changes is the list of compare functions, which
iso_get_streamcmprank() builds on the fly; allocation of its items succeeds.
-/

namespace StreamCmp

open ThreeWay

/-- The class objects of the streams in this library. -/
inductive IsoStreamIface where
  | fsrcStreamClass
  | cutOutStreamClass
  | memStreamClass
  | catalogStreamClass
  | extfStreamClass
  | gzipStreamCompressClass
  | gzipStreamUncompressClass
  | zisoStreamCompressClass
  | zisoStreamUncompressClass
  deriving DecidableEq

/-- The functions which occur as .cmp_ino(). -/
inductive CmpIno where
  | extfCmpIno
  | gzipCmpIno
  | gzipUncompressCmpIno
  | zisoCmpIno
  | zisoUncompressCmpIno
  deriving DecidableEq

def IsoStreamIface.version : IsoStreamIface → Nat
  | .catalogStreamClass => 0
  | _ => 4

def IsoStreamIface.cmpIno : IsoStreamIface → Option CmpIno
  | .fsrcStreamClass | .cutOutStreamClass | .memStreamClass | .catalogStreamClass => none
  | .extfStreamClass => some .extfCmpIno
  | .gzipStreamCompressClass => some .gzipCmpIno
  | .gzipStreamUncompressClass => some .gzipUncompressCmpIno
  | .zisoStreamCompressClass => some .zisoCmpIno
  | .zisoStreamUncompressClass => some .zisoUncompressCmpIno

/-- `struct iso_file_section`: 32 bit block address and byte count. -/
structure IsoFileSection where
  block : Nat
  size : Nat

/-- `sections` is present if the class of the source is ifs_class; `fsGetId` is the
answer of get_id() of its filesystem. -/
structure IsoFileSource where
  fsGetId : Nat
  sections : Option (List IsoFileSection)

/-- Of argv, argc elements are looked at; the array holds argc + 1. -/
structure IsoExternalFilterCommand where
  addr : Nat
  name : List UInt8
  path : List UInt8
  argc : Nat
  argv : List (List UInt8)
  argc_le : argc ≤ argv.length
  behavior : Int
  suffix : List UInt8

/-- The data of the classes without input stream. -/
inductive PlainData where
  | fsrc (src : IsoFileSource) (devId inoId : Nat)
  | cutOut (src : IsoFileSource) (devId inoId : Nat)
  | mem (inoId : Nat)
  | catalog

/-- The kinds of filter streams. -/
inductive FilterData where
  | extf (cmd : IsoExternalFilterCommand)
  | gzipCompress
  | gzipUncompress
  | zisoCompress
  | zisoUncompress

/-- A stream object at its address. `size` is what get_size() of its class answers,
`id` the serial number of a filter stream. -/
inductive IsoStream where
  | plain (addr : Nat) (size : Int) (data : PlainData)
  | filter (addr : Nat) (size : Int) (data : FilterData) (id : Nat) (orig : IsoStream)

def PlainData.iface : PlainData → IsoStreamIface
  | .fsrc .. => .fsrcStreamClass
  | .cutOut .. => .cutOutStreamClass
  | .mem _ => .memStreamClass
  | .catalog => .catalogStreamClass

def FilterData.iface : FilterData → IsoStreamIface
  | .extf _ => .extfStreamClass
  | .gzipCompress => .gzipStreamCompressClass
  | .gzipUncompress => .gzipStreamUncompressClass
  | .zisoCompress => .zisoStreamCompressClass
  | .zisoUncompress => .zisoStreamUncompressClass

namespace IsoStream

def addr : IsoStream → Nat
  | .plain a .. => a
  | .filter a .. => a

def getSize : IsoStream → Int
  | .plain _ n _ => n
  | .filter _ n .. => n

def iface : IsoStream → IsoStreamIface
  | .plain _ _ d => d.iface
  | .filter _ _ d .. => d.iface

end IsoStream

/-- ISO_ELTORITO_FS_ID, ISO_MEM_FS_ID and ISO_FILTER_FS_ID of fsource.h. -/
def isoEltoritoFsId : Nat := 3
def isoMemFsId : Nat := 4
def isoFilterFsId : Nat := 5

/-- The ISO_FILTER_..._DEV_ID of filter.h. -/
def FilterData.devId : FilterData → Nat
  | .extf _ => 2
  | .zisoCompress | .zisoUncompress => 3
  | .gzipCompress | .gzipUncompress => 4

structure IdTriple where
  fsId : Nat
  devId : Nat
  inoId : Nat

def isoStreamGetId : IsoStream → IdTriple
  | .plain _ _ (.fsrc src dev ino) => ⟨src.fsGetId, dev, ino⟩
  | .plain _ _ (.cutOut src dev ino) => ⟨src.fsGetId, dev, ino⟩
  | .plain _ _ (.mem ino) => ⟨isoMemFsId, 0, ino⟩
  | .plain _ _ .catalog => ⟨isoEltoritoFsId, 0, 0⟩
  | .filter _ _ d id _ => ⟨isoFilterFsId, d.devId, id⟩

/-- The source of an applicable operand of iso_ifs_sections_cmp(): of ifs_class, and
its first section not at block 0. -/
def applicable : Option IsoFileSource → Option (List IsoFileSection)
  | some ⟨_, some sections⟩ =>
    match sections with
    | [] => some []
    | s :: _ => if s.block = 0 then none else some sections
  | _ => none

def cmpSection (s1 s2 : IsoFileSection) : Int :=
  byValue s1.block s2.block (byValue s1.size s2.size 0)

/-- iso_ifs_sections_cmp() with flag bit0; `none` is its return value 0. -/
def isoIfsSectionsCmp (src1 src2 : Option IsoFileSource) : Option Int :=
  match applicable src1, applicable src2 with
  | none, none => none
  | some _, none => some (-1)
  | none, some _ => some 1
  | some d1, some d2 =>
    if d1.length ≠ d2.length then some (if d1.length < d2.length then -1 else 1)
    else
      match d1, d2 with
      | f1 :: _, f2 :: _ =>
        if f1.size < 1 ∨ f2.size < 1 then
          some (if f1.size > f2.size then 1 else if f1.size < f2.size then -1 else 0)
        else some (firstDifference cmpSection d1 d2)
      | _, _ => some 0

def IsoStream.fsrcSource : IsoStream → Option IsoFileSource
  | .plain _ _ (.fsrc src _ _) => some src
  | _ => none

def isoStreamCmpIfsSections (s1 s2 : IsoStream) : Option Int :=
  if s1.iface ≠ .fsrcStreamClass ∧ s2.iface ≠ .fsrcStreamClass then none
  else isoIfsSectionsCmp s1.fsrcSource s2.fsrcSource

/-- The list streamcmpranks. NULL is among the functions which get ranked. -/
abbrev Ranks := List (Option CmpIno)

def isoGetStreamcmprank (f : Option CmpIno) (ranks : Ranks) : Nat × Ranks :=
  if f ∈ ranks then (ranks.idxOf f, ranks) else (ranks.length, ranks ++ [f])

def isoCmpStreamcmpranks (f1 f2 : Option CmpIno) (ranks : Ranks) : Int × Ranks :=
  let first := isoGetStreamcmprank f1 ranks
  let second := isoGetStreamcmprank f2 first.2
  (if first.1 < second.1 then -1 else 1, second.2)

section Compare

-- the addresses of the class objects
variable (classAddr : IsoStreamIface → Nat)

/-- The part of iso_stream_cmp_ino() behind the class functions. -/
def cmpById (s1 s2 : IsoStream) : Int :=
  let id1 := isoStreamGetId s1
  let id2 := isoStreamGetId s2
  byValue id1.fsId id2.fsId <|
  -- larger device numbers come first
  byValue id2.devId id1.devId <|
  byValue id1.inoId id2.inoId <|
  byValue s1.getSize s2.getSize <|
  if s1.iface ≠ s2.iface then (if classAddr s1.iface < classAddr s2.iface then -1 else 1)
  else if id1.fsId = 0 ∧ id1.devId = 0 ∧ id1.inoId = 0 then
    (if s1.addr < s2.addr then -1 else 1)
  else 0

/-- iso_stream_cmp_ino() with flag bit0: no class function gets asked. -/
def cmpUnfiltered (s1 s2 : IsoStream) : Int :=
  if s1.addr = s2.addr then 0
  else
    match isoStreamCmpIfsSections s1 s2 with
    | some ret => ret
    | none => cmpById classAddr s1 s2

/-- The part of extf_cmp_ino() which compares the commands. -/
def cmpCommand (cmd1 cmd2 : IsoExternalFilterCommand) : Int :=
  if cmd1.addr = cmd2.addr then 0
  else
    unlessZero (strcmp cmd1.name cmd2.name) <|
    unlessZero (strcmp cmd1.path cmd2.path) <|
    byValue cmd1.argc cmd2.argc <|
    unlessZero (firstDifference strcmp (cmd1.argv.take cmd1.argc) (cmd2.argv.take cmd2.argc)) <|
    byValue cmd1.behavior cmd2.behavior <|
    strcmp cmd1.suffix cmd2.suffix

def IsoStream.command : IsoStream → Option IsoExternalFilterCommand
  | .filter _ _ (.extf cmd) _ _ => some cmd
  | _ => none

/-- What iso_stream_cmp_ino() answers for the input streams of two filters. -/
abbrev InputAnswer := Ranks → Int × Ranks

def extfCmpIno (s1 s2 : IsoStream) (inputs : InputAnswer) (ranks : Ranks) : Int × Ranks :=
  match s1.command, s2.command with
  | some cmd1, some cmd2 =>
    if cmpCommand cmd1 cmd2 ≠ 0 then (cmpCommand cmd1 cmd2, ranks) else inputs ranks
  | _, _ => (cmpUnfiltered classAddr s1 s2, ranks)

/-- gzip_cmp_ino() and gzip_uncompress_cmp_ino() for their own class. -/
def sameTreatment (own : IsoStreamIface) (s1 s2 : IsoStream) (inputs : InputAnswer)
    (ranks : Ranks) : Int × Ranks :=
  if s1.iface ≠ s2.iface ∨ (s1.iface ≠ own ∧ s2.iface ≠ own) then
    (cmpUnfiltered classAddr s1 s2, ranks)
  else inputs ranks

def gzipCmpIno := sameTreatment classAddr .gzipStreamCompressClass

def gzipUncompressCmpIno := sameTreatment classAddr .gzipStreamUncompressClass

/-- Both functions of zisofs.c drop the result of their fallback, which leaves the
rank list alone, and go on with the input streams. -/
def zisoCmpIno (inputs : InputAnswer) (ranks : Ranks) : Int × Ranks := inputs ranks

def zisoUncompressCmpIno (inputs : InputAnswer) (ranks : Ranks) : Int × Ranks := inputs ranks

def callCmpIno : CmpIno → IsoStream → IsoStream → InputAnswer → Ranks → Int × Ranks
  | .extfCmpIno, s1, s2 => extfCmpIno classAddr s1 s2
  | .gzipCmpIno, s1, s2 => gzipCmpIno classAddr s1 s2
  | .gzipUncompressCmpIno, s1, s2 => gzipUncompressCmpIno classAddr s1 s2
  | .zisoCmpIno, _, _ => zisoCmpIno
  | .zisoUncompressCmpIno, _, _ => zisoUncompressCmpIno

/-- The body of iso_stream_cmp_ino() with flag 0, given its answer for the inputs. -/
def cmpLevel (s1 s2 : IsoStream) (inputs : InputAnswer) (ranks : Ranks) : Int × Ranks :=
  if s1.addr = s2.addr then (0, ranks)
  else
    match isoStreamCmpIfsSections s1 s2 with
    | some ret => (ret, ranks)
    | none =>
      if ¬ (s1.iface.version ≥ 3 ↔ s2.iface.version ≥ 3) then
        (if s1.iface.version ≥ 3 then -1 else 1, ranks)
      else if s1.iface.version ≥ 3 then
        if s1.iface.cmpIno = s2.iface.cmpIno then
          match s1.iface.cmpIno with
          | none => (cmpById classAddr s1 s2, ranks)
          | some f => callCmpIno classAddr f s1 s2 inputs ranks
        else isoCmpStreamcmpranks s1.iface.cmpIno s2.iface.cmpIno ranks
      else (cmpById classAddr s1 s2, ranks)

/-- The recursion of iso_stream_cmp_ino() through chains of filters. A stream without
input has no class function which would ask for one. -/
def cmpFiltered : IsoStream → IsoStream → Ranks → Int × Ranks
  | .filter a1 n1 d1 id1 orig1, .filter a2 n2 d2 id2 orig2, ranks =>
    cmpLevel classAddr (.filter a1 n1 d1 id1 orig1) (.filter a2 n2 d2 id2 orig2)
      (cmpFiltered orig1 orig2) ranks
  | s1, s2, ranks => cmpLevel classAddr s1 s2 (fun ranks => (0, ranks)) ranks

def isoStreamCmpIno (s1 s2 : Option IsoStream) (flag : Nat) (ranks : Ranks) : Int × Ranks :=
  match s1, s2 with
  | none, none => (0, ranks)
  | none, some _ => (-1, ranks)
  | some _, none => (1, ranks)
  | some s1, some s2 =>
    if flag.testBit 0 then (cmpUnfiltered classAddr s1 s2, ranks)
    else cmpFiltered classAddr s1 s2 ranks

end Compare

theorem IsoStreamIface.ctorIdx_injective : Function.Injective IsoStreamIface.ctorIdx := by
  intro a b
  cases a <;> cases b <;> simp [IsoStreamIface.ctorIdx]

/-- The objects of the process by their addresses, which do not change while streams
get compared. -/
structure Heap where
  classAddr : IsoStreamIface → Nat
  classAddr_injective : Function.Injective classAddr
  stream : Nat → Option IsoStream
  command : Nat → Option IsoExternalFilterCommand

/-- A stream of the heap, with its command and its chain of inputs. -/
def IsoStream.Live (h : Heap) : IsoStream → Prop
  | .plain a n d => h.stream a = some (.plain a n d)
  | .filter a n d id orig =>
    h.stream a = some (.filter a n d id orig) ∧
    (∀ cmd, d = .extf cmd → h.command cmd.addr = some cmd) ∧ orig.Live h

theorem IsoStream.Live.stored {h : Heap} {s : IsoStream} (live : s.Live h) :
    h.stream s.addr = some s := by
  cases s with
  | plain a n d => exact live
  | filter a n d id orig => exact live.1

theorem IsoStream.Live.eq_of_addr {h : Heap} {s t : IsoStream} (hs : s.Live h)
    (ht : t.Live h) (haddr : s.addr = t.addr) : s = t := by
  have := hs.stored
  rw [haddr, ht.stored] at this
  exact (Option.some.inj this).symm

section Keys

variable (h : Heap)

def idWords (s : IsoStream) : Key :=
  let id := isoStreamGetId s
  [[id.fsId, -id.devId, id.inoId, s.getSize, h.classAddr s.iface,
    if id.fsId = 0 ∧ id.devId = 0 ∧ id.inoId = 0 then s.addr else 0]]

def sectionWord (s : IsoFileSection) : List Int := [s.block, s.size]

/-- Applicable streams come first, by the number of their sections; among those of
the same number the ones with an empty first section. -/
def sectionWords : List IsoFileSection → Key
  | [] => [[0, 0]]
  | s :: rest =>
    [0, (rest.length : Int) + 1] ::
      (if s.size = 0 then [[0]] else [1] :: (s :: rest).map sectionWord)

def commandWords (cmd : IsoExternalFilterCommand) : Key :=
  letters cmd.name :: letters cmd.path :: [(cmd.argc : Int)] ::
    ((cmd.argv.take cmd.argc).map letters ++ [[cmd.behavior], letters cmd.suffix])

def FilterData.words : FilterData → Key
  | .extf cmd => commandWords cmd
  | _ => []

/-- The place of a stream in the order which `final` decides, the rank list as it
becomes in the end. -/
def key (final : Ranks) : IsoStream → Key
  | .plain a n d =>
    match applicable (IsoStream.plain a n d).fsrcSource with
    | some sections => sectionWords sections
    | none =>
      if d.iface.version ≥ 3 then
        [1, (final.idxOf d.iface.cmpIno : Int)] :: idWords h (.plain a n d)
      else [2] :: idWords h (.plain a n d)
  | .filter _ _ d _ orig =>
    [1, (final.idxOf d.iface.cmpIno : Int)] :: (d.words ++ key final orig)

/-- The same if the filters are not asked. -/
def unfilteredKey (s : IsoStream) : Key :=
  match applicable s.fsrcSource with
  | some sections => sectionWords sections
  | none => [1] :: idWords h s

end Keys

theorem cmpById_agrees (h : Heap) {s1 s2 : IsoStream} (hne : s1.addr ≠ s2.addr) :
    sign (cmpById h.classAddr s1 s2) = compare (idWords h s1) (idWords h s2) := by
  simp only [cmpById, idWords, sign_byValue, List.compare_cons_cons, compare_neg,
    List.compare_nil_nil, Ordering.then_eq]
  refine then_congr fun hfs => then_congr fun hdev => then_congr fun hino =>
    then_congr fun _ => ?_
  have hfs' : (isoStreamGetId s1).fsId = (isoStreamGetId s2).fsId := by omega
  have hdev' : (isoStreamGetId s1).devId = (isoStreamGetId s2).devId := by omega
  have hino' : (isoStreamGetId s1).inoId = (isoStreamGetId s2).inoId := by omega
  by_cases hclass : s1.iface = s2.iface
  · simp only [hclass, hfs', hdev', hino', ne_eq, not_true_eq_false, if_false,
      Std.compare_self, Ordering.eq_then]
    split
    · exact sign_of_ne hne
    · simp
  · have haddr : h.classAddr s1.iface ≠ h.classAddr s2.iface :=
      fun heq => hclass (h.classAddr_injective heq)
    rw [if_pos hclass, compare_then_of_ne haddr]

theorem sign_cmpSection (s1 s2 : IsoFileSection) :
    sign (cmpSection s1 s2) = compare (sectionWord s1) (sectionWord s2) := by
  simp only [cmpSection, sectionWord, sign_byValue, List.compare_cons_cons,
    List.compare_nil_nil, sign_zero]

theorem sectionWords_head (d : List IsoFileSection) :
    ∃ tail, sectionWords d = [0, (d.length : Int)] :: tail := by
  cases d with
  | nil => exact ⟨[], rfl⟩
  | cons s rest =>
    simp only [sectionWords, List.length_cons, Int.natCast_succ]
    exact ⟨_, rfl⟩

/-- Two applicable sources of as many sections. -/
theorem sign_firstSections {f1 f2 : IsoFileSection} {r1 r2 : List IsoFileSection}
    (hlen : r1.length = r2.length) :
    sign (if f1.size < 1 ∨ f2.size < 1 then
        (if f1.size > f2.size then 1 else if f1.size < f2.size then -1 else 0)
      else firstDifference cmpSection (f1 :: r1) (f2 :: r2)) =
    compare (sectionWords (f1 :: r1)) (sectionWords (f2 :: r2)) := by
  simp only [sectionWords, hlen, List.compare_cons_cons (x := [(0 : Int), _]),
    Std.compare_self, Ordering.eq_then]
  by_cases hz1 : f1.size = 0 <;> by_cases hz2 : f2.size = 0
  · simp [hz1, hz2]
  · rw [if_pos (Or.inl (by omega)), if_neg (by omega), if_pos (by omega), if_pos hz1,
      if_neg hz2]
    rfl
  · rw [if_pos (Or.inr (by omega)), if_pos (by omega), if_neg hz1, if_pos hz2]
    rfl
  · have hsize : ¬ (f1.size < 1 ∨ f2.size < 1) := by omega
    have hlen' : (f1 :: r1).length = (f2 :: r2).length := by simpa using hlen
    have hloop := sign_firstDifference sign_cmpSection hlen' 0 [] [] rfl
    rw [sign_unlessZero, sign_zero, Ordering.then_eq] at hloop
    simpa [hsize, hz1, hz2] using hloop

theorem sections_agree {src1 src2 : Option IsoFileSource} {d1 d2 : List IsoFileSection}
    (h1 : applicable src1 = some d1) (h2 : applicable src2 = some d2) :
    ∃ ret, isoIfsSectionsCmp src1 src2 = some ret ∧
      sign ret = compare (sectionWords d1) (sectionWords d2) := by
  simp only [isoIfsSectionsCmp, h1, h2]
  by_cases hlen : d1.length = d2.length
  · rw [if_neg (not_not.mpr hlen)]
    match d1, d2, hlen with
    | [], [], _ => exact ⟨0, rfl, rfl⟩
    | f1 :: r1, f2 :: r2, hlen =>
      refine ⟨_, (apply_ite some _ _ _).symm, sign_firstSections (by simpa using hlen)⟩
  · rw [if_pos hlen]
    obtain ⟨tail1, hw1⟩ := sectionWords_head d1
    obtain ⟨tail2, hw2⟩ := sectionWords_head d2
    refine ⟨_, rfl, ?_⟩
    simp only [hw1, hw2, List.compare_cons_cons, Std.compare_self, Ordering.eq_then,
      Ordering.then_assoc]
    exact (compare_then_of_ne hlen _).symm

theorem applicable_iface {s : IsoStream} {d : List IsoFileSection}
    (happ : applicable s.fsrcSource = some d) : s.iface = .fsrcStreamClass := by
  match s with
  | .plain _ _ (.fsrc ..) => rfl
  | .plain _ _ (.cutOut ..) | .plain _ _ (.mem _) | .plain _ _ .catalog => cases happ
  | .filter .. => cases happ

/-- The words behind the rank of a stream which is not applicable. -/
def bodyWords (h : Heap) (final : Ranks) : IsoStream → Key
  | .plain a n d => idWords h (.plain a n d)
  | .filter _ _ d _ orig => d.words ++ key h final orig

theorem filter_version (d : FilterData) : d.iface.version ≥ 3 := by
  cases d <;> simp [FilterData.iface, IsoStreamIface.version]

theorem key_applicable {h : Heap} {final : Ranks} {s : IsoStream} {d : List IsoFileSection}
    (happ : applicable s.fsrcSource = some d) : key h final s = sectionWords d := by
  cases s with
  | plain a n data => simp only [key, happ]
  | filter a n data id orig => cases happ

theorem key_not_applicable (h : Heap) {s : IsoStream}
    (happ : applicable s.fsrcSource = none) (final : Ranks) :
    key h final s =
      if s.iface.version ≥ 3 then
        [1, (final.idxOf s.iface.cmpIno : Int)] :: bodyWords h final s
      else [2] :: bodyWords h final s := by
  cases s with
  | plain a n data =>
    simp only [key, happ]
    rfl
  | filter a n data id orig =>
    simp only [key, IsoStream.iface, bodyWords, filter_version data, if_true]

/-- Keys which put the applicable streams in front, by their sections. -/
structure SectionsFirst (k : IsoStream → Key) : Prop where
  words : ∀ s d, applicable s.fsrcSource = some d → k s = sectionWords d
  behind : ∀ t, applicable t.fsrcSource = none →
    ∃ n w tail, 0 < n ∧ k t = (n :: w) :: tail

theorem SectionsFirst.compare_lt {k : IsoStream → Key} (first : SectionsFirst k)
    {s t : IsoStream} {d : List IsoFileSection} (hs : applicable s.fsrcSource = some d)
    (ht : applicable t.fsrcSource = none) : compare (k s) (k t) = .lt := by
  obtain ⟨tail, hw⟩ := sectionWords_head d
  obtain ⟨n, w, tail', hn, hk⟩ := first.behind t ht
  rw [first.words s d hs, hk, hw]
  simp only [List.compare_cons_cons, Int.compare_eq_lt.mpr hn]
  rfl

theorem key_sectionsFirst (h : Heap) (final : Ranks) : SectionsFirst (key h final) where
  words s d happ := key_applicable happ
  behind t happ := by
    rw [key_not_applicable h happ]
    split
    · exact ⟨1, _, _, Int.one_pos, rfl⟩
    · exact ⟨2, _, _, by decide, rfl⟩

theorem unfilteredKey_sectionsFirst (h : Heap) : SectionsFirst (unfilteredKey h) where
  words s d happ := by simp only [unfilteredKey, happ]
  behind t happ := ⟨1, [], idWords h t, Int.one_pos, by simp only [unfilteredKey, happ]⟩

/-- The test of sections decides by the keys, and leaves only pairs undecided of which
none is applicable. -/
theorem isoStreamCmpIfsSections_agrees {k : IsoStream → Key} (first : SectionsFirst k)
    (s1 s2 : IsoStream) :
    match isoStreamCmpIfsSections s1 s2 with
    | some ret => Agrees k s1 s2 ret
    | none => applicable s1.fsrcSource = none ∧ applicable s2.fsrcSource = none := by
  rw [isoStreamCmpIfsSections]
  cases h1 : applicable s1.fsrcSource with
  | none =>
    cases h2 : applicable s2.fsrcSource with
    | none =>
      split_ifs
      · simp
      · simp [isoIfsSectionsCmp, h1, h2]
    | some d2 =>
      rw [if_neg (by simp [applicable_iface h2])]
      simp only [isoIfsSectionsCmp, h1, h2, Agrees, sign_one]
      rw [Std.OrientedCmp.gt_iff_lt.mpr (first.compare_lt h2 h1)]
  | some d1 =>
    rw [if_neg (by simp [applicable_iface h1])]
    cases h2 : applicable s2.fsrcSource with
    | none =>
      simp only [isoIfsSectionsCmp, h1, h2, Agrees, sign_neg_one]
      rw [first.compare_lt h1 h2]
    | some d2 =>
      obtain ⟨ret, hret, hsign⟩ := sections_agree h1 h2
      simp only [hret, Agrees, hsign, first.words _ _ h1, first.words _ _ h2]

/-- An answer together with the rank list afterwards: the list only gets longer, and
every longer list explains the answer. -/
structure Answered (h : Heap) (s1 s2 : IsoStream) (ranks : Ranks) (r : Int × Ranks) : Prop where
  grows : ranks <+: r.2
  agrees : ∀ final, r.2 <+: final → Agrees (key h final) s1 s2 r.1

theorem Answered.same_list {h : Heap} {s1 s2 : IsoStream} {ranks : Ranks} {ret : Int}
    (agrees : ∀ final, Agrees (key h final) s1 s2 ret) :
    Answered h s1 s2 ranks (ret, ranks) :=
  ⟨List.prefix_rfl, fun final _ => agrees final⟩

theorem isoGetStreamcmprank_spec (f : Option CmpIno) (ranks : Ranks) :
    ranks <+: (isoGetStreamcmprank f ranks).2 ∧ f ∈ (isoGetStreamcmprank f ranks).2 ∧
    (isoGetStreamcmprank f ranks).1 = (isoGetStreamcmprank f ranks).2.idxOf f := by
  rw [isoGetStreamcmprank]
  split
  next hmem => exact ⟨List.prefix_rfl, hmem, rfl⟩
  next hmem =>
    refine ⟨List.prefix_append _ _, by simp, ?_⟩
    simp [List.idxOf_append_of_notMem hmem]

theorem idxOf_prefix {f : Option CmpIno} {ranks final : Ranks} (hmem : f ∈ ranks)
    (hpre : ranks <+: final) : final.idxOf f = ranks.idxOf f := by
  obtain ⟨more, rfl⟩ := hpre
  exact List.idxOf_append_of_mem hmem

/-- Two different functions are decided by their ranks. -/
theorem isoCmpStreamcmpranks_spec {f1 f2 : Option CmpIno} (hne : f1 ≠ f2) (ranks : Ranks) :
    ranks <+: (isoCmpStreamcmpranks f1 f2 ranks).2 ∧
    ∀ final, (isoCmpStreamcmpranks f1 f2 ranks).2 <+: final →
      final.idxOf f1 ≠ final.idxOf f2 ∧
      (isoCmpStreamcmpranks f1 f2 ranks).1 =
        if final.idxOf f1 < final.idxOf f2 then -1 else 1 := by
  obtain ⟨hgrow1, hmem1, hidx1⟩ := isoGetStreamcmprank_spec f1 ranks
  obtain ⟨hgrow2, hmem2, hidx2⟩ :=
    isoGetStreamcmprank_spec f2 (isoGetStreamcmprank f1 ranks).2
  refine ⟨hgrow1.trans hgrow2, fun final hfinal => ?_⟩
  have hfinal1 := hgrow2.trans hfinal
  refine ⟨fun heq => hne ?_, ?_⟩
  · exact (List.idxOf_inj (hfinal1.subset hmem1)).mp heq
  · simp only [isoCmpStreamcmpranks, hidx1, hidx2, idxOf_prefix hmem1 hfinal1,
      idxOf_prefix hmem2 hfinal]

theorem sign_cmpCommand {h : Heap} {cmd1 cmd2 : IsoExternalFilterCommand}
    (live1 : h.command cmd1.addr = some cmd1) (live2 : h.command cmd2.addr = some cmd2)
    (rest : Int) (k k' : Key) (hrest : sign rest = compare k k') :
    sign (unlessZero (cmpCommand cmd1 cmd2) rest) =
      compare (commandWords cmd1 ++ k) (commandWords cmd2 ++ k') := by
  rw [cmpCommand]
  split
  next haddr =>
    obtain rfl : cmd1 = cmd2 := by
      rw [haddr, live2] at live1
      exact (Option.some.inj live1).symm
    rw [compare_append_same, ← hrest]
    simp [unlessZero]
  next haddr =>
    have htail : sign (byValue cmd1.behavior cmd2.behavior
        (unlessZero (strcmp cmd1.suffix cmd2.suffix) rest)) =
        compare ([cmd1.behavior] :: letters cmd1.suffix :: k)
          ([cmd2.behavior] :: letters cmd2.suffix :: k') := by
      simp only [sign_byValue, sign_unlessZero, sign_strcmp, hrest, List.compare_cons_cons,
        List.compare_nil_nil, Ordering.then_eq]
    simp only [sign_unlessZero, sign_byValue, sign_strcmp, Ordering.then_assoc, commandWords,
      List.cons_append, List.append_assoc, List.nil_append, List.compare_cons_cons,
      List.compare_nil_nil, Ordering.eq_then]
    congr 2
    refine then_congr fun hargc => ?_
    have hlen : (cmd1.argv.take cmd1.argc).length = (cmd2.argv.take cmd2.argc).length := by
      have := cmd1.argc_le
      have := cmd2.argc_le
      simp only [List.length_take]
      omega
    have hargv := sign_firstDifference sign_strcmp hlen _ _ _ htail
    simpa only [sign_unlessZero, sign_byValue, sign_strcmp] using hargv

theorem extfCmpIno_answered {h : Heap} {a1 a2 id1 id2 : Nat} {n1 n2 : Int}
    {cmd1 cmd2 : IsoExternalFilterCommand} {orig1 orig2 : IsoStream}
    (live1 : h.command cmd1.addr = some cmd1) (live2 : h.command cmd2.addr = some cmd2)
    {inputs : InputAnswer} {ranks : Ranks}
    (hinputs : Answered h orig1 orig2 ranks (inputs ranks)) :
    Answered h (.filter a1 n1 (.extf cmd1) id1 orig1) (.filter a2 n2 (.extf cmd2) id2 orig2)
      ranks (extfCmpIno h.classAddr (.filter a1 n1 (.extf cmd1) id1 orig1)
        (.filter a2 n2 (.extf cmd2) id2 orig2) inputs ranks) := by
  have hkeys : ∀ final rest, Agrees (key h final) orig1 orig2 rest →
      Agrees (key h final) (.filter a1 n1 (.extf cmd1) id1 orig1)
        (.filter a2 n2 (.extf cmd2) id2 orig2) (unlessZero (cmpCommand cmd1 cmd2) rest) := by
    intro final rest hrest
    rw [Agrees, sign_cmpCommand live1 live2 rest _ _ hrest]
    simp only [key, FilterData.words, FilterData.iface, List.compare_cons_cons,
      Std.compare_self, Ordering.eq_then]
  simp only [extfCmpIno, IsoStream.command]
  by_cases hzero : cmpCommand cmd1 cmd2 = 0
  · rw [if_neg (not_not.mpr hzero)]
    refine ⟨hinputs.grows, fun final hfinal => ?_⟩
    have := hkeys final _ (hinputs.agrees final hfinal)
    rwa [unlessZero, if_neg (not_not.mpr hzero)] at this
  · rw [if_pos hzero]
    refine .same_list fun final => ?_
    obtain ⟨rest, hrest⟩ := sign_surjective (compare (key h final orig1) (key h final orig2))
    have := hkeys final rest hrest
    rwa [unlessZero, if_pos hzero] at this

/-- Filters of one class: first the treatment, then the input streams. -/
theorem callCmpIno_answered {h : Heap} {a1 a2 id1 id2 : Nat} {n1 n2 : Int}
    {d1 d2 : FilterData} {orig1 orig2 : IsoStream}
    (live1 : (IsoStream.filter a1 n1 d1 id1 orig1).Live h)
    (live2 : (IsoStream.filter a2 n2 d2 id2 orig2).Live h)
    (hclass : d1.iface.cmpIno = d2.iface.cmpIno) {f : CmpIno} (hf : d1.iface.cmpIno = some f)
    {inputs : InputAnswer} {ranks : Ranks}
    (hinputs : Answered h orig1 orig2 ranks (inputs ranks)) :
    Answered h (.filter a1 n1 d1 id1 orig1) (.filter a2 n2 d2 id2 orig2) ranks
      (callCmpIno h.classAddr f (.filter a1 n1 d1 id1 orig1) (.filter a2 n2 d2 id2 orig2)
        inputs ranks) := by
  have same : d1 = d2 →
      Answered h (.filter a1 n1 d1 id1 orig1) (.filter a2 n2 d2 id2 orig2) ranks
        (inputs ranks) := by
    rintro rfl
    refine ⟨hinputs.grows, fun final hfinal => ?_⟩
    rw [Agrees, hinputs.agrees final hfinal]
    simp only [key, List.compare_cons_cons, Std.compare_self, Ordering.eq_then,
      compare_append_same]
  cases d1 <;> cases d2 <;> cases hf <;> cases hclass
  case extf.extf.refl.refl cmd1 cmd2 =>
    exact extfCmpIno_answered (live1.2.1 _ rfl) (live2.2.1 _ rfl) hinputs
  all_goals
    simpa [callCmpIno, gzipCmpIno, gzipUncompressCmpIno, zisoCmpIno, zisoUncompressCmpIno,
      sameTreatment, IsoStream.iface, FilterData.iface] using same rfl

theorem bodyWords_of_none {h : Heap} {final : Ranks} {s : IsoStream}
    (hcmp : s.iface.cmpIno = none) : bodyWords h final s = idWords h s := by
  cases s with
  | plain a n d => rfl
  | filter a n d id orig => cases d <;> cases hcmp

theorem filter_of_cmpIno {s : IsoStream} {f : CmpIno} (hcmp : s.iface.cmpIno = some f) :
    ∃ a n d id orig, s = .filter a n d id orig := by
  cases s with
  | plain a n d => cases d <;> cases hcmp
  | filter a n d id orig => exact ⟨a, n, d, id, orig, rfl⟩

theorem cmpIno_of_version {c : IsoStreamIface} (hv : ¬ c.version ≥ 3) : c.cmpIno = none := by
  cases c <;> simp_all [IsoStreamIface.version, IsoStreamIface.cmpIno]

/-- One level of the comparison, over what it finds out about the input streams. -/
theorem cmpLevel_answered {h : Heap} {s1 s2 : IsoStream} (live1 : s1.Live h)
    (live2 : s2.Live h) {inputs : InputAnswer} {ranks : Ranks}
    (hinputs : ∀ a1 n1 d1 id1 orig1 a2 n2 d2 id2 orig2,
      s1 = .filter a1 n1 d1 id1 orig1 → s2 = .filter a2 n2 d2 id2 orig2 →
      Answered h orig1 orig2 ranks (inputs ranks)) :
    Answered h s1 s2 ranks (cmpLevel h.classAddr s1 s2 inputs ranks) := by
  rw [cmpLevel]
  split
  next haddr =>
    obtain rfl := live1.eq_of_addr live2 haddr
    exact .same_list fun final => by simp [Agrees]
  next haddr =>
    cases hsec : isoStreamCmpIfsSections s1 s2 with
    | some ret =>
      refine .same_list fun final => ?_
      simpa [hsec] using isoStreamCmpIfsSections_agrees (key_sectionsFirst h final) s1 s2
    | none =>
      have happ : applicable s1.fsrcSource = none ∧ applicable s2.fsrcSource = none := by
        simpa [hsec] using isoStreamCmpIfsSections_agrees (key_sectionsFirst h []) s1 s2
      obtain ⟨happ1, happ2⟩ := happ
      have hkey1 := key_not_applicable h happ1
      have hkey2 := key_not_applicable h happ2
      by_cases hv1 : s1.iface.version ≥ 3 <;> by_cases hv2 : s2.iface.version ≥ 3
      · simp only [hv1, hv2, iff_self, not_true_eq_false, if_false, if_true]
        by_cases hf : s1.iface.cmpIno = s2.iface.cmpIno
        · rw [if_pos hf]
          cases hcmp : s1.iface.cmpIno with
          | none =>
            refine .same_list fun final => ?_
            rw [Agrees, hkey1, hkey2, if_pos hv1, if_pos hv2, bodyWords_of_none hcmp,
              bodyWords_of_none (hf ▸ hcmp), hf, cmpById_agrees h haddr]
            simp [List.compare_cons_cons]
          | some f =>
            obtain ⟨a1, n1, d1, id1, orig1, rfl⟩ := filter_of_cmpIno hcmp
            obtain ⟨a2, n2, d2, id2, orig2, rfl⟩ := filter_of_cmpIno (hf ▸ hcmp)
            exact callCmpIno_answered live1 live2 hf hcmp
              (hinputs _ _ _ _ _ _ _ _ _ _ rfl rfl)
        · rw [if_neg hf]
          obtain ⟨hgrow, hrank⟩ := isoCmpStreamcmpranks_spec hf ranks
          refine ⟨hgrow, fun final hfinal => ?_⟩
          obtain ⟨hne, hret⟩ := hrank final hfinal
          rw [Agrees, hret, hkey1, hkey2, if_pos hv1, if_pos hv2]
          simp only [List.compare_cons_cons, Std.compare_self, Ordering.eq_then,
            Ordering.then_assoc]
          exact (compare_then_of_ne hne _).symm
      · simp only [hv1, hv2, iff_false, not_true_eq_false, not_false_eq_true, if_true]
        refine .same_list fun final => ?_
        rw [Agrees, hkey1, hkey2, if_pos hv1, if_neg hv2]
        rfl
      · simp only [hv1, hv2, iff_true, not_false_eq_true, if_true, if_false]
        refine .same_list fun final => ?_
        rw [Agrees, hkey1, hkey2, if_neg hv1, if_pos hv2]
        rfl
      · simp only [hv1, hv2, iff_self, not_true_eq_false, if_false]
        refine .same_list fun final => ?_
        rw [Agrees, hkey1, hkey2, if_neg hv1, if_neg hv2,
          bodyWords_of_none (cmpIno_of_version hv1), bodyWords_of_none (cmpIno_of_version hv2),
          cmpById_agrees h haddr]
        simp [List.compare_cons_cons]

theorem cmpFiltered_answered {h : Heap} {s1 s2 : IsoStream} (live1 : s1.Live h)
    (live2 : s2.Live h) (ranks : Ranks) :
    Answered h s1 s2 ranks (cmpFiltered h.classAddr s1 s2 ranks) := by
  induction s1 generalizing s2 ranks with
  | plain a1 n1 d1 =>
    exact cmpLevel_answered live1 live2 (by rintro _ _ _ _ _ _ _ _ _ _ ⟨⟩)
  | filter a1 n1 d1 id1 orig1 ih =>
    cases s2 with
    | plain a2 n2 d2 =>
      exact cmpLevel_answered live1 live2 (by rintro _ _ _ _ _ _ _ _ _ _ - ⟨⟩)
    | filter a2 n2 d2 id2 orig2 =>
      refine cmpLevel_answered live1 live2 ?_
      rintro _ _ _ _ _ _ _ _ _ _ ⟨⟩ ⟨⟩
      exact ih live1.2.2 live2.2.2 ranks

theorem cmpUnfiltered_agrees {h : Heap} {s1 s2 : IsoStream} (live1 : s1.Live h)
    (live2 : s2.Live h) : Agrees (unfilteredKey h) s1 s2 (cmpUnfiltered h.classAddr s1 s2) := by
  have hifs := isoStreamCmpIfsSections_agrees (unfilteredKey_sectionsFirst h) s1 s2
  rw [cmpUnfiltered]
  split
  next haddr =>
    obtain rfl := live1.eq_of_addr live2 haddr
    simp [Agrees]
  next haddr =>
    cases hsec : isoStreamCmpIfsSections s1 s2 with
    | some ret => simpa [hsec] using hifs
    | none =>
      obtain ⟨happ1, happ2⟩ : _ ∧ _ := by simpa [hsec] using hifs
      rw [Agrees, cmpById_agrees h haddr]
      simp [unfilteredKey, happ1, happ2, List.compare_cons_cons]

/-- NULL comes before every stream. -/
def streamKey (h : Heap) (flag : Nat) (final : Ranks) : Option IsoStream → Key
  | none => []
  | some s => if flag.testBit 0 then unfilteredKey h s else key h final s

theorem SectionsFirst.ne_nil {k : IsoStream → Key} (first : SectionsFirst k) (s : IsoStream) :
    k s ≠ [] := by
  cases happ : applicable s.fsrcSource with
  | none =>
    obtain ⟨n, w, tail, -, hk⟩ := first.behind s happ
    simp [hk]
  | some d =>
    obtain ⟨tail, hw⟩ := sectionWords_head d
    simp [first.words s d happ, hw]

theorem streamKey_ne_nil (h : Heap) (flag : Nat) (final : Ranks) (s : IsoStream) :
    streamKey h flag final (some s) ≠ [] := by
  rw [streamKey]
  split
  · exact (unfilteredKey_sectionsFirst h).ne_nil s
  · exact (key_sectionsFirst h final).ne_nil s

/-- Every answer of iso_stream_cmp_ino() is explained by one key, which only depends
on what the rank list becomes later. -/
theorem isoStreamCmpIno_answered {h : Heap} {s1 s2 : Option IsoStream}
    (live1 : ∀ s ∈ s1, s.Live h) (live2 : ∀ s ∈ s2, s.Live h) (flag : Nat) (ranks : Ranks) :
    ranks <+: (isoStreamCmpIno h.classAddr s1 s2 flag ranks).2 ∧
    ∀ final, (isoStreamCmpIno h.classAddr s1 s2 flag ranks).2 <+: final →
      Agrees (streamKey h flag final) s1 s2
        (isoStreamCmpIno h.classAddr s1 s2 flag ranks).1 := by
  cases s1 with
  | none =>
    cases s2 with
    | none => exact ⟨List.prefix_rfl, fun final _ => rfl⟩
    | some s2 =>
      refine ⟨List.prefix_rfl, fun final _ => ?_⟩
      obtain ⟨w, tail, hw⟩ := List.exists_cons_of_ne_nil (streamKey_ne_nil h flag final s2)
      rw [Agrees, hw]
      rfl
  | some s1 =>
    cases s2 with
    | none =>
      refine ⟨List.prefix_rfl, fun final _ => ?_⟩
      obtain ⟨w, tail, hw⟩ := List.exists_cons_of_ne_nil (streamKey_ne_nil h flag final s1)
      rw [Agrees, hw]
      rfl
    | some s2 =>
      have live1 := live1 s1 rfl
      have live2 := live2 s2 rfl
      simp only [isoStreamCmpIno]
      by_cases hflag : flag.testBit 0
      · rw [if_pos hflag]
        refine ⟨List.prefix_rfl, fun final _ => ?_⟩
        simpa [Agrees, streamKey, hflag] using cmpUnfiltered_agrees live1 live2
      · rw [if_neg hflag]
        obtain ⟨hgrow, hagree⟩ := cmpFiltered_answered live1 live2 ranks
        refine ⟨hgrow, fun final hfinal => ?_⟩
        simpa [Agrees, streamKey, hflag] using hagree final hfinal

end StreamCmp
