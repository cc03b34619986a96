import Libisofs.Lib.Bytes
import Libisofs.Lib.Texts
import Libisofs.RecordTimes

/-!
# Attributes in Rock Ridge entries

PX, TF and PN entries hold the POSIX attributes of a node. The reader fills a struct stat from
them, and it takes a time of 0 for one which is not recorded.
-/

namespace RockRidgeAttributes

open ByteBuffers Texts RecordTimes

abbrev Entry := List UInt8

def isoWrongArgValue : Int := 0xE830FFF8 - 2 ^ 32
def isoWrongRr : Int := 0xE030FEBF - 2 ^ 32
def isoSuccess : Int := 1

def sIfmt : UInt32 := 0o170000
def sIfdir : UInt32 := 0o040000
def sIfreg : UInt32 := 0o100000
def sIfchr : UInt32 := 0o020000
def sIfblk : UInt32 := 0o060000

/-! ## Writing -/

/-- The file type is always known. -/
structure IsoNode where
  mode : UInt32
  uid : UInt32
  gid : UInt32
  mtime : Int
  atime : Int
  ctime : Int
  typed : mode &&& sIfmt ≠ 0

inductive Ecma119NodeType where
  | file
  | symlink
  | dir
  | special (dev : UInt64)
  | placeholder
  deriving DecidableEq

structure Ecma119Node where
  node : IsoNode
  type : Ecma119NodeType
  nlink : UInt64
  ino : UInt64

/-- Ecma119Image and its options as far as attributes are concerned. -/
structure Ecma119Image where
  rrip110PxIno : Bool
  rripVersion110 : Bool
  alwaysGmt : Bool
  dirRecMtime : Bool
  replaceUid : Option UInt32
  replaceGid : Option UInt32
  replaceDirMode : Option UInt32
  replaceFileMode : Option UInt32
  replaceTimestamps : Option Int
  now : Int

def isoBb (num : UInt32) : List UInt8 := toLsb 4 num.toNat ++ toMsb 4 num.toNat

section Writer

variable (p : Platform) (t : Ecma119Image) (n : Ecma119Node)

def pxGetUid : UInt32 := t.replaceUid.getD n.node.uid

def pxGetGid : UInt32 := t.replaceGid.getD n.node.gid

def pxGetMode : UInt32 :=
  let replace := if n.type = .dir ∨ n.type = .placeholder then t.replaceDirMode
    else t.replaceFileMode
  match replace with
  | some mode => (n.node.mode &&& sIfmt) ||| mode
  | none => n.node.mode

def withIno : Bool := t.rrip110PxIno || !t.rripVersion110

def rripAddPx : Entry :=
  text "PX" ++ ([if withIno t then 44 else 36, 1] : Bytes) ++ isoBb (pxGetMode t n) ++
    isoBb n.nlink.toUInt32 ++ isoBb (pxGetUid t n) ++ isoBb (pxGetGid t n) ++
    if withIno t then isoBb n.ino.toUInt32 else []

/-- The flags announce times of modification, of access and of attribute change. -/
def rripAddTf : Entry :=
  text "TF" ++ ([5 + 3 * 7, 1, 14] : Bytes) ++
    isoDatetime7 p (t.replaceTimestamps.getD n.node.mtime) t.alwaysGmt ++
    isoDatetime7 p (t.replaceTimestamps.getD n.node.atime) t.alwaysGmt ++
    isoDatetime7 p (t.replaceTimestamps.getD n.node.ctime) t.alwaysGmt

def rripAddPn (dev : UInt64) : Entry :=
  text "PN" ++ ([20, 1] : Bytes) ++ isoBb (dev >>> 32).toUInt32 ++ isoBb dev.toUInt32

def isBlkOrChr (mode : UInt32) : Bool := mode &&& sIfmt = sIfblk || mode &&& sIfmt = sIfchr

/-- The entries which describe the node itself. -/
def attributeEntries : List Entry :=
  [rripAddPx t n, rripAddTf p t n] ++
    match n.type with
    | .special dev => if isBlkOrChr n.node.mode then [rripAddPn dev] else []
    | _ => []

/-- The directory record as far as attributes are concerned. -/
structure DirRecord where
  isDir : Bool
  recordingTime : List UInt8

def recordTime : Int := if t.dirRecMtime then t.replaceTimestamps.getD n.node.mtime else t.now

def dirRecord : DirRecord := ⟨n.type = .dir, isoDatetime7 p (recordTime t n) t.alwaysGmt⟩

end Writer

/-! ## Reading -/

/-- `struct stat` -/
structure Stat where
  mode : UInt32 := 0
  nlink : UInt64 := 0
  uid : UInt32 := 0
  gid : UInt32 := 0
  ino : UInt64 := 0
  rdev : UInt64 := 0
  mtime : Int := 0
  atime : Int := 0
  ctime : Int := 0

/-- Only the first half of the bytes gets used. -/
def isoReadBb (buf : List UInt8) : UInt32 := UInt32.ofNat (ofLsb (buf.take 4))

def readRrPx (px : Entry) (st : Stat) : Int × Stat :=
  if px.take 2 ≠ text "PX" then (isoWrongArgValue, st)
  else if px.getD 2 0 ≠ 44 ∧ px.getD 2 0 ≠ 36 then (isoWrongRr, st)
  else
    let st := { st with
      mode := isoReadBb (px.drop 4)
      nlink := (isoReadBb (px.drop 12)).toUInt64
      uid := isoReadBb (px.drop 20)
      gid := isoReadBb (px.drop 28)
      ino := 0 }
    if px.getD 2 0 = 44 then (2, { st with ino := (isoReadBb (px.drop 36)).toUInt64 })
    else (1, st)

section Times

variable (p : Platform) (tf : Entry)

def tfFlags : UInt8 := tf.getD 4 0

def stampSize : Nat := if tfFlags tf &&& 128 ≠ 0 then 17 else 7

def readStamp (nts : Nat) : Int :=
  if stampSize tf = 7 then isoDatetimeRead7 p (tf.drop (5 + nts * 7))
  else isoDatetimeRead17 p (tf.drop (5 + nts * 17))

/-- One of the stamps, if the flags announce it. The entry may be too short. -/
def takeStamp (flag : UInt8) (set : Stat → Int → Stat) (found : Nat × Stat) :
    Except Stat (Nat × Stat) :=
  let (nts, st) := found
  if tfFlags tf &&& flag ≠ 0 then
    if (tf.getD 2 0).toNat < 5 + (nts + 1) * stampSize tf then .error st
    else .ok (nts + 1, set st (readStamp p tf nts))
  else .ok found

/-- The time of creation is used as long as there is no time of attribute change. -/
def readStamps (st : Stat) : Except Stat (Nat × Stat) := do
  let found ← takeStamp p tf 1 (fun st time => { st with ctime := time }) (0, st)
  let found ← takeStamp p tf 2 (fun st time => { st with mtime := time }) found
  let found ← takeStamp p tf 4 (fun st time => { st with atime := time }) found
  takeStamp p tf 8 (fun st time => { st with ctime := time }) found

def readRrTf (st : Stat) : Int × Stat :=
  if tf.take 2 ≠ text "TF" then (isoWrongArgValue, st)
  else
    match readStamps p tf st with
    | .error st => (isoWrongRr, st)
    | .ok (_, st) => (isoSuccess, st)

end Times

def readRrPn (pn : Entry) (st : Stat) : Int × Stat :=
  if pn.take 2 ≠ text "PN" then (isoWrongArgValue, st)
  else if pn.getD 2 0 ≠ 20 then (isoWrongRr, st)
  else
    (isoSuccess, { st with
      rdev := (isoReadBb (pn.drop 12)).toUInt64 ||| ((isoReadBb (pn.drop 4)).toUInt64 <<< 32) })

/-- The effect of an entry on the attributes: go on, leave the loop, or ignore the record. -/
inductive Turn where
  | next (st : Stat) (relocatedDir : UInt32)
  | leave (st : Stat) (relocatedDir : UInt32)
  | ignore

/-- Errors of the readers get reported, but the attributes stay as they are then. -/
def readEntry (p : Platform) (viaCl : Bool) (sue : Entry) (st : Stat) (relocatedDir : UInt32) :
    Turn :=
  let sig := sue.take 2
  if sue.getD 3 0 ≠ 1 ∧ sig ≠ text "ZF" ∧ sig ≠ text "Z2" then .next st relocatedDir
  else if sig = text "PX" then .next (readRrPx sue st).2 relocatedDir
  else if sig = text "TF" then .next (readRrTf p sue st).2 relocatedDir
  else if sig = text "RE" then .ignore
  else if sig = text "CL" then
    if viaCl then .next st relocatedDir
    else
      let childLoc := isoReadBb (sue.drop 4)
      if childLoc = 0 then .leave st childLoc else .next st childLoc
  else if sig = text "PN" then .next (readRrPn sue st).2 relocatedDir
  else if sig = text "SF" then .leave st relocatedDir
  else .next st relocatedDir

def readEntries (p : Platform) (viaCl : Bool) : List Entry → Stat → UInt32 → Option (Stat × UInt32)
  | [], st, relocatedDir => some (st, relocatedDir)
  | sue :: rest, st, relocatedDir =>
    match readEntry p viaCl sue st relocatedDir with
    | .next st relocatedDir => readEntries p viaCl rest st relocatedDir
    | .leave st relocatedDir => some (st, relocatedDir)
    | .ignore => none

/-- _ImageFsData as far as attributes are concerned, and whether an ISO_WRONG_RR message aborts. -/
structure ImageFsData where
  rr : Bool
  uid : UInt32
  gid : UInt32
  fileMode : UInt32
  dirMode : UInt32
  wrongRrAborts : Bool

inductive FileSource where
  | ignored
  | failed
  /-- The attributes are in the first record of the directory at this address. -/
  | relocated (block : UInt32)
  | attributes (atts : Stat)

/-- Times which are not present are replaced by the time of the record. -/
def fillTimes (recorded : Int) (st : Stat) : Stat :=
  { st with
    atime := if st.atime = 0 then recorded else st.atime
    ctime := if st.ctime = 0 then recorded else st.ctime
    mtime := if st.mtime = 0 then recorded else st.mtime }

/-- `iso_file_source_new_ifs()` up to the last change of the attributes. -/
def isoFileSourceNewIfs (p : Platform) (fs : ImageFsData) (viaCl : Bool) (record : DirRecord)
    (entries : List Entry) : FileSource :=
  let recorded := isoDatetimeRead7 p record.recordingTime
  let preset : Stat := { mode := if record.isDir then sIfdir else sIfreg, nlink := 1 }
  if fs.rr then
    match readEntries p viaCl entries preset 0 with
    | none => .ignored
    | some (st, relocatedDir) =>
      if relocatedDir = 0 ∧ st.mode = 0 ∧ fs.wrongRrAborts = true then .failed
      else if relocatedDir ≠ 0 then .relocated relocatedDir
      else .attributes (fillTimes recorded st)
  else
    .attributes (fillTimes recorded { preset with
      gid := fs.gid
      uid := fs.uid
      mode := if record.isDir then sIfdir ||| fs.dirMode else sIfreg ||| fs.fileMode })

section Fields

variable {p : Platform} {t : Ecma119Image} {n : Ecma119Node}

theorem length_isoBb (x : UInt32) : (isoBb x).length = 8 := by
  rw [isoBb, List.length_append, length_toLsb, length_toMsb]

theorem isoReadBb_isoBb (x : UInt32) (rest : List UInt8) : isoReadBb (isoBb x ++ rest) = x := by
  have hlt : x.toNat < 256 ^ 4 := x.toNat_lt
  rw [isoReadBb, isoBb, List.append_assoc, List.take_left' (length_toLsb 4 _),
    ofLsb_toLsb_of_lt hlt, UInt32.ofNat_toNat]

theorem drop_isoBb (x : UInt32) (rest : List UInt8) (k : Nat) :
    (isoBb x ++ rest).drop (k + 8) = rest.drop k := by
  rw [Nat.add_comm, ← List.drop_drop, List.drop_left' (length_isoBb x)]

theorem length_isoDatetime7 (x : Int) (gmt : Bool) : (isoDatetime7 p x gmt).length = 7 := rfl

theorem drop_isoDatetime7 (x : Int) (gmt : Bool) (rest : List UInt8) (k : Nat) :
    (isoDatetime7 p x gmt ++ rest).drop (k + 7) = rest.drop k := by
  rw [Nat.add_comm, ← List.drop_drop, List.drop_left' (length_isoDatetime7 x gmt)]

/-- What is behind the 7 bytes does not matter. -/
theorem isoDatetimeRead7_append (x : Int) (gmt : Bool) (rest : List UInt8) :
    isoDatetimeRead7 p (isoDatetime7 p x gmt ++ rest) = isoDatetimeRead7 p (isoDatetime7 p x gmt) :=
  rfl

/-- An entry with its signature, length, and version. -/
theorem rripAddPx_eq (hino : withIno t = true) : rripAddPx t n =
    80 :: 88 :: 44 :: 1 :: (isoBb (pxGetMode t n) ++ (isoBb n.nlink.toUInt32 ++
      (isoBb (pxGetUid t n) ++ (isoBb (pxGetGid t n) ++ (isoBb n.ino.toUInt32 ++ []))))) := by
  rw [rripAddPx, hino, List.append_nil]
  simp only [if_true, List.append_assoc]
  rfl

theorem readRrPx_written (hino : withIno t = true) (st : Stat) :
    (readRrPx (rripAddPx t n) st).2 = { st with
      mode := pxGetMode t n
      nlink := n.nlink.toUInt32.toUInt64
      uid := pxGetUid t n
      gid := pxGetGid t n
      ino := n.ino.toUInt32.toUInt64 } := by
  have hheader (k : Nat) (rest : List UInt8) :
      (80 :: 88 :: 44 :: 1 :: rest : List UInt8).drop (k + 4) = rest.drop k := rfl
  have hsig (rest : List UInt8) : (80 :: 88 :: 44 :: 1 :: rest).take 2 = text "PX" := rfl
  have hlength (rest : List UInt8) : (80 :: 88 :: 44 :: 1 :: rest : List UInt8).getD 2 0 = 44 := rfl
  rw [rripAddPx_eq hino, readRrPx, hsig, hlength]
  simp only [ne_eq, not_true_eq_false, false_and, if_false, if_true, hheader, drop_isoBb,
    List.drop_zero, isoReadBb_isoBb]

/-- Both halves of a device number. -/
theorem join_halves (dev : UInt64) :
    dev.toUInt32.toUInt64 ||| ((dev >>> 32).toUInt32.toUInt64 <<< 32) = dev := by
  have hlt : dev.toNat < 2 ^ 64 := dev.toNat_lt
  have hshift : (32 : UInt64).toNat % 64 = 32 := rfl
  have hlow : dev.toUInt32.toUInt64.toNat = dev.toNat % 2 ^ 32 := by
    rw [UInt32.toNat_toUInt64, UInt64.toNat_toUInt32]
  have hhigh : ((dev >>> 32).toUInt32.toUInt64 <<< 32).toNat = 2 ^ 32 * (dev.toNat / 2 ^ 32) := by
    rw [UInt64.toNat_shiftLeft, UInt32.toNat_toUInt64, UInt64.toNat_toUInt32,
      UInt64.toNat_shiftRight, hshift, Nat.shiftLeft_eq, Nat.shiftRight_eq_div_pow]
    omega
  apply UInt64.toNat_inj.mp
  rw [UInt64.toNat_or, hlow, hhigh, Nat.or_comm,
    ← Nat.two_pow_add_eq_or_of_lt (Nat.mod_lt _ (by decide))]
  exact Nat.div_add_mod _ _

theorem readRrPn_written (dev : UInt64) (st : Stat) :
    (readRrPn (rripAddPn dev) st).2 = { st with rdev := dev } := by
  have heq : rripAddPn dev = (80 : UInt8) :: 78 :: 20 :: 1 :: (isoBb (dev >>> 32).toUInt32 ++
      (isoBb dev.toUInt32 ++ [])) := by
    rw [rripAddPn, List.append_nil]
    simp only [List.append_assoc]
    rfl
  have hheader (k : Nat) (rest : List UInt8) :
      (80 :: 78 :: 20 :: 1 :: rest : List UInt8).drop (k + 4) = rest.drop k := rfl
  have hsig (rest : List UInt8) : (80 :: 78 :: 20 :: 1 :: rest).take 2 = text "PN" := rfl
  have hlength (rest : List UInt8) : (80 :: 78 :: 20 :: 1 :: rest : List UInt8).getD 2 0 = 20 := rfl
  rw [heq, readRrPn, hsig, hlength]
  simp only [ne_eq, not_true_eq_false, if_false, hheader, drop_isoBb, List.drop_zero,
    isoReadBb_isoBb, join_halves]

theorem readRrTf_written (hgmt : t.alwaysGmt = true) (hstamps : t.replaceTimestamps = none)
    (st : Stat) : (readRrTf p (rripAddTf p t n) st).2 = { st with
      mtime := isoDatetimeRead7 p (isoDatetime7 p n.node.mtime true)
      atime := isoDatetimeRead7 p (isoDatetime7 p n.node.atime true)
      ctime := isoDatetimeRead7 p (isoDatetime7 p n.node.ctime true) } := by
  have heq : rripAddTf p t n = 84 :: 70 :: 26 :: 1 :: 14 ::
      (isoDatetime7 p n.node.mtime true ++ (isoDatetime7 p n.node.atime true ++
        (isoDatetime7 p n.node.ctime true ++ []))) := by
    rw [rripAddTf, hgmt, hstamps, List.append_nil]
    simp only [List.append_assoc]
    rfl
  generalize hrest : isoDatetime7 p n.node.mtime true ++ (isoDatetime7 p n.node.atime true ++
    (isoDatetime7 p n.node.ctime true ++ [])) = rest at heq
  have hflags : tfFlags (84 :: 70 :: 26 :: 1 :: 14 :: rest) = 14 := rfl
  have hlength : ((84 :: 70 :: 26 :: 1 :: 14 :: rest).getD 2 0).toNat = 26 := rfl
  have hsize : stampSize (84 :: 70 :: 26 :: 1 :: 14 :: rest) = 7 := by
    rw [stampSize, hflags]
    decide
  have hstamp (nts : Nat) : readStamp p (84 :: 70 :: 26 :: 1 :: 14 :: rest) nts =
      isoDatetimeRead7 p (rest.drop (nts * 7)) := by
    have hdrop : (84 :: 70 :: 26 :: 1 :: 14 :: rest).drop (5 + nts * 7) = rest.drop (nts * 7) := by
      rw [← List.drop_drop]
      rfl
    rw [readStamp, if_pos hsize, hdrop]
  have hskip {flag : UInt8} (hflag : 14 &&& flag = 0) (set : Stat → Int → Stat)
      (found : Nat × Stat) : takeStamp p (84 :: 70 :: 26 :: 1 :: 14 :: rest) flag set found =
        .ok found := by
    rw [takeStamp, hflags]
    simp only [hflag, ne_eq, not_true_eq_false, if_false]
  have htake {flag : UInt8} (hflag : 14 &&& flag ≠ 0) (set : Stat → Int → Stat) {nts : Nat}
      (st : Stat) (hnts : nts < 3) :
      takeStamp p (84 :: 70 :: 26 :: 1 :: 14 :: rest) flag set (nts, st) =
        .ok (nts + 1, set st (isoDatetimeRead7 p (rest.drop (nts * 7)))) := by
    have hfits : ¬ 26 < 5 + (nts + 1) * 7 := by omega
    rw [takeStamp, hflags, hlength, hsize, hstamp]
    simp only [hflag, hfits, ne_eq, not_false_eq_true, if_true, if_false]
  have hread : readStamps p (84 :: 70 :: 26 :: 1 :: 14 :: rest) st = .ok (3, { st with
      mtime := isoDatetimeRead7 p (rest.drop (0 * 7))
      atime := isoDatetimeRead7 p (rest.drop (1 * 7))
      ctime := isoDatetimeRead7 p (rest.drop (2 * 7)) }) := by
    rw [readStamps, hskip (by decide)]
    simp only [bind, Except.bind]
    rw [htake (by decide) _ _ (by decide)]
    simp only
    rw [htake (by decide) _ _ (by decide)]
    simp only
    rw [htake (by decide) _ _ (by decide)]
  have hsig : (84 :: 70 :: 26 :: 1 :: 14 :: rest).take 2 = text "TF" := rfl
  have hfirst : rest.drop (0 * 7) = rest := List.drop_zero
  have hsecond : rest.drop (1 * 7) = isoDatetime7 p n.node.atime true ++
      (isoDatetime7 p n.node.ctime true ++ []) := by
    rw [← hrest]
    exact drop_isoDatetime7 _ _ _ 0
  have hthird : rest.drop (2 * 7) = isoDatetime7 p n.node.ctime true ++ [] := by
    rw [← hrest]
    exact (drop_isoDatetime7 _ _ _ 7).trans (drop_isoDatetime7 _ _ _ 0)
  rw [heq, readRrTf, hsig, hread, hfirst, hsecond, hthird, ← hrest,
    isoDatetimeRead7_append, isoDatetimeRead7_append, isoDatetimeRead7_append]
  rfl

end Fields

section Records

variable {p : Platform} {t : Ecma119Image} {n : Ecma119Node} {fs : ImageFsData} {viaCl : Bool}

/-- An entry which is about something else: the name, a link target, checksums and so on. -/
structure OtherEntry where
  bytes : Entry
  other : bytes.take 2 ∉ [text "PX", text "TF", text "RE", text "CL", text "PN", text "SF"]

/-- The entries of a record. -/
def writtenEntries (p : Platform) (t : Ecma119Image) (n : Ecma119Node)
    (before after : List OtherEntry) : List Entry :=
  before.map OtherEntry.bytes ++ attributeEntries p t n ++ after.map OtherEntry.bytes

theorem readEntry_other (e : OtherEntry) (st : Stat) (relocatedDir : UInt32) :
    readEntry p viaCl e.bytes st relocatedDir = .next st relocatedDir := by
  have hother := e.other
  simp only [List.mem_cons, List.not_mem_nil, or_false, not_or] at hother
  obtain ⟨hpx, htf, hre, hcl, hpn, hsf⟩ := hother
  simp only [readEntry, hpx, htf, hre, hcl, hpn, hsf, if_false, ite_self]

theorem readEntries_others (others : List OtherEntry) (rest : List Entry) (st : Stat)
    (relocatedDir : UInt32) :
    readEntries p viaCl (others.map OtherEntry.bytes ++ rest) st relocatedDir =
      readEntries p viaCl rest st relocatedDir := by
  induction others with
  | nil => rfl
  | cons e others ih =>
    rw [List.map_cons, List.cons_append, readEntries, readEntry_other]
    exact ih

theorem readEntry_px (hino : withIno t = true) (st : Stat) (relocatedDir : UInt32) :
    readEntry p viaCl (rripAddPx t n) st relocatedDir =
      .next (readRrPx (rripAddPx t n) st).2 relocatedDir := by
  rw [rripAddPx_eq hino]
  rfl

theorem readEntry_tf (st : Stat) (relocatedDir : UInt32) :
    readEntry p viaCl (rripAddTf p t n) st relocatedDir =
      .next (readRrTf p (rripAddTf p t n) st).2 relocatedDir := rfl

theorem readEntry_pn (dev : UInt64) (st : Stat) (relocatedDir : UInt32) :
    readEntry p viaCl (rripAddPn dev) st relocatedDir =
      .next (readRrPn (rripAddPn dev) st).2 relocatedDir := rfl

/-- The device number of a block or character device. -/
def deviceNumber (n : Ecma119Node) : UInt64 :=
  match n.type with
  | .special dev => if isBlkOrChr n.node.mode then dev else 0
  | _ => 0

/-- Inode numbers in PX, times in GMT, and no replacement of attributes. -/
structure Ecma119Image.Plain (t : Ecma119Image) : Prop where
  ino : withIno t = true
  gmt : t.alwaysGmt = true
  uid : t.replaceUid = none
  gid : t.replaceGid = none
  dirMode : t.replaceDirMode = none
  fileMode : t.replaceFileMode = none
  timestamps : t.replaceTimestamps = none

theorem pxGetMode_plain (h : t.Plain) : pxGetMode t n = n.node.mode := by
  rw [pxGetMode, h.dirMode, h.fileMode, ite_self]

/-- The attributes behind the last entry. -/
def readAttributes (p : Platform) (n : Ecma119Node) : Stat where
  mode := n.node.mode
  nlink := n.nlink.toUInt32.toUInt64
  uid := n.node.uid
  gid := n.node.gid
  ino := n.ino.toUInt32.toUInt64
  rdev := deviceNumber n
  mtime := isoDatetimeRead7 p (isoDatetime7 p n.node.mtime true)
  atime := isoDatetimeRead7 p (isoDatetime7 p n.node.atime true)
  ctime := isoDatetimeRead7 p (isoDatetime7 p n.node.ctime true)

theorem readEntries_written (h : t.Plain) (before after : List OtherEntry) (mode : UInt32)
    (nlink : UInt64) : readEntries p viaCl (writtenEntries p t n before after)
      { mode := mode, nlink := nlink } 0 = some (readAttributes p n, 0) := by
  have hafter (st : Stat) : readEntries p viaCl (after.map OtherEntry.bytes) st 0 =
      some (st, 0) := by
    rw [← List.append_nil (after.map OtherEntry.bytes), readEntries_others, readEntries]
  rw [writtenEntries, List.append_assoc, readEntries_others, attributeEntries]
  simp only [List.cons_append, List.nil_append, readEntries, readEntry_px h.ino, readEntry_tf,
    readRrPx_written h.ino, readRrTf_written h.gmt h.timestamps, pxGetMode_plain h, pxGetUid,
    pxGetGid, h.uid, h.gid, Option.getD_none]
  have hdevice : readAttributes p n = { readAttributes p n with rdev := deviceNumber n } := rfl
  rw [hdevice, deviceNumber]
  split
  next dev _ =>
    split
    next =>
      simp only [List.cons_append, List.nil_append, readEntries, readEntry_pn, readRrPn_written,
        hafter]
      rfl
    next =>
      rw [List.nil_append, hafter]
      rfl
  next =>
    rw [List.nil_append, hafter]
    rfl

/-- The attributes of the node are the ones of the struct stat. -/
structure SameAttributes (st : Stat) (n : Ecma119Node) : Prop where
  mode : st.mode = n.node.mode
  nlink : st.nlink = n.nlink
  uid : st.uid = n.node.uid
  gid : st.gid = n.node.gid
  ino : st.ino = n.ino
  rdev : st.rdev = deviceNumber n
  mtime : st.mtime = n.node.mtime
  atime : st.atime = n.node.atime
  ctime : st.ctime = n.node.ctime

theorem source_written (hrr : fs.rr = true) (h : t.Plain) (before after : List OtherEntry) :
    isoFileSourceNewIfs p fs viaCl (dirRecord p t n) (writtenEntries p t n before after) =
      .attributes (fillTimes (isoDatetimeRead7 p (isoDatetime7 p (recordTime t n) true))
        (readAttributes p n)) := by
  have hmode : n.node.mode ≠ 0 := by
    intro hzero
    have htyped := n.node.typed
    rw [hzero] at htyped
    exact htyped (by decide)
  have hnonzero : ¬ (readAttributes p n).mode = 0 := hmode
  simp only [isoFileSourceNewIfs, hrr, if_true, readEntries_written h, hnonzero, false_and,
    and_false, if_false, ne_eq, not_true_eq_false, dirRecord, h.gmt]

/-- Whether a time is read as it was, if the record has another one. -/
def Survives (p : Platform) (recorded x : Int) : Prop :=
  if p.haveTimegm then x = 0 → recorded = 0 else 0 ≤ x ∧ (x = 0 → recorded ≤ 0)

theorem survives_iff {recorded x : Int} (hx : Representable x) :
    (if isoDatetimeRead7 p (isoDatetime7 p x true) = 0 then
      isoDatetimeRead7 p (isoDatetime7 p recorded true)
    else isoDatetimeRead7 p (isoDatetime7 p x true)) = x ↔ Survives p recorded x := by
  have hsign := clampTime_sign recorded
  rw [read7_written, read7_written, clampTime_eq hx, Survives]
  split
  next =>
    split
    next => omega
    next => omega
  next =>
    split
    next => omega
    next => omega

def IsoNode.times (node : IsoNode) : List Int := [node.mtime, node.atime, node.ctime]

theorem toUInt64_toUInt32 {x : UInt64} (h : x.toNat < 2 ^ 32) : x.toUInt32.toUInt64 = x := by
  apply UInt64.toNat_inj.mp
  rw [UInt32.toNat_toUInt64, UInt64.toNat_toUInt32, Nat.mod_eq_of_lt h]

theorem sameAttributes_iff (hnlink : n.nlink.toNat < 2 ^ 32) (hino : n.ino.toNat < 2 ^ 32)
    (htimes : ∀ x ∈ n.node.times, Representable x) (recorded : Int) :
    SameAttributes (fillTimes (isoDatetimeRead7 p (isoDatetime7 p recorded true))
      (readAttributes p n)) n ↔ ∀ x ∈ n.node.times, Survives p recorded x := by
  simp only [IsoNode.times, List.forall_mem_cons, List.not_mem_nil, false_implies, implies_true,
    and_true] at htimes ⊢
  obtain ⟨hmtime, hatime, hctime⟩ := htimes
  rw [← survives_iff hmtime, ← survives_iff hatime, ← survives_iff hctime]
  constructor
  · exact fun h => ⟨h.mtime, h.atime, h.ctime⟩
  · rintro ⟨hm, ha, hc⟩
    exact ⟨rfl, toUInt64_toUInt32 hnlink, rfl, rfl, toUInt64_toUInt32 hino, rfl, hm, ha, hc⟩

/-- The attributes survive if no time is taken for absent, except where the record has the same
time. Without timegm(), no time may be before 1970. -/
theorem attributes_survive_iff (p : Platform) (fs : ImageFsData) (viaCl : Bool)
    (t : Ecma119Image) (n : Ecma119Node) (before after : List OtherEntry) (hrr : fs.rr = true)
    (hplain : t.Plain) (hnlink : n.nlink.toNat < 2 ^ 32) (hino : n.ino.toNat < 2 ^ 32)
    (htimes : ∀ x ∈ n.node.times, Representable x) :
    (∃ st, isoFileSourceNewIfs p fs viaCl (dirRecord p t n) (writtenEntries p t n before after) =
      .attributes st ∧ SameAttributes st n) ↔
        ∀ x ∈ n.node.times, Survives p (recordTime t n) x := by
  rw [source_written hrr hplain, ← sameAttributes_iff hnlink hino htimes]
  constructor
  · rintro ⟨st, heq, hsame⟩
    injection heq with heq
    rwa [heq]
  · exact fun hsame => ⟨_, rfl, hsame⟩

/-! ## A device -/

def plainPlatform : Platform := ⟨true, fun t => (Calendar.gmtime t, 0), 0⟩

def plainImage : Ecma119Image :=
  ⟨true, false, true, false, none, none, none, none, none, 1000000000⟩

def plainFs : ImageFsData := ⟨true, 0, 0, 0o444, 0o555, false⟩

/-- A block device with its time of modification. -/
def device (mtime : Int) : Ecma119Node where
  node := ⟨0o060660, 1000, 100, mtime, -86400, 5869583999, by decide⟩
  type := .special 0x123456789abcdef0
  nlink := 1
  ino := 4294967295

theorem plain_plainImage : plainImage.Plain := ⟨rfl, rfl, rfl, rfl, rfl, rfl, rfl⟩

theorem device_survives : ∃ st, isoFileSourceNewIfs plainPlatform plainFs false
    (dirRecord plainPlatform plainImage (device 1))
    (writtenEntries plainPlatform plainImage (device 1) [] []) = .attributes st ∧
      SameAttributes st (device 1) :=
  (attributes_survive_iff plainPlatform plainFs false plainImage (device 1) [] [] rfl
    plain_plainImage (by decide) (by decide) (by unfold Representable; decide)).mpr
      (by unfold Survives; decide)

/-- The first second of 1970 is replaced by the time of the record. -/
theorem epoch_replaced : ¬ ∃ st, isoFileSourceNewIfs plainPlatform plainFs false
    (dirRecord plainPlatform plainImage (device 0))
    (writtenEntries plainPlatform plainImage (device 0) [] []) = .attributes st ∧
      SameAttributes st (device 0) := by
  rw [source_written rfl plain_plainImage]
  rintro ⟨st, heq, hsame⟩
  injection heq with heq
  have hmtime := hsame.mtime
  rw [← heq] at hmtime
  exact absurd hmtime (by decide)

end Records

end RockRidgeAttributes
