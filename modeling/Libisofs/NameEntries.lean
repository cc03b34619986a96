import Libisofs.SymlinkRecords

/-!
# Rock Ridge names in NM entries

The System Use entries of a node's own directory record by rrip_get_susp_fields() of
rockridge.c, and the reading of the NM entries by read_rr_NM() of rockridge_read.c. Of
the entries other than NM there is the signature and the size. Allocation succeeds. The
name is the text after character set conversion.
-/

namespace NameEntries

open SymlinkTarget (Bytes cString turns compLen Turn slLoop rripSlFields)

structure WriteOpts where
  aaip : Bool
  aaipSusp110 : Bool
  rrip110PxIno : Bool
  rripVersion110 : Bool
  /-- Bit0 of rr_reloc_flags: the relocation directory gets marked by RE. -/
  relocMarked : Bool

/-- The parameters of a ZF entry which decide about its recording. -/
structure ZfInfo where
  version1 : Bool
  uncompressedSize : Nat

inductive NodeType where
  | file (zf : Option ZfInfo)
  | symlink (dest : Bytes)
  | dir (realParent : Bool) (dedicatedReloc : Bool)
  | special (device : Bool)
  | placeholder

/-- A node with the sizes of the fields of its AAIP string, if it has one. -/
structure Node where
  name : Bytes
  type : NodeType
  aapt : List Nat

inductive Sig where
  | es | px | tf | re | pn | cl | ce | sl | zf | al

structure NmEntry where
  lenSue : UInt8
  flags : UInt8
  name : Bytes

/-- An entry; `pad` is the pseudo entry which fills up a block. -/
inductive Field where
  | nm (entry : NmEntry)
  | other (sig : Sig) (lenSue : Nat)
  | pad

def Field.len : Field → Nat
  | nm entry => entry.lenSue.toNat
  | other _ lenSue => lenSue
  | pad => 0

def Field.nm? : Field → Option NmEntry
  | nm entry => some entry
  | _ => none

@[simp] theorem Field.nm?_nm (entry : NmEntry) : (Field.nm entry).nm? = some entry := rfl

@[simp] theorem Field.nm?_other (sig : Sig) (lenSue : Nat) :
    (Field.other sig lenSue).nm? = none := rfl

@[simp] theorem Field.nm?_pad : Field.pad.nm? = none := rfl

/-- The entries of the node in System Use Area and Continuation Area. `ceLen` counts from
the begin of the Continuation Area of the directory. -/
structure SuspInfo where
  suspFields : List Field
  sufLen : Nat
  ceSuspFields : List Field
  ceLen : Nat

inductive Failure where
  | assertFailure
  | memoryFault
  | zisofsTooLarge
  deriving DecidableEq

def blockSize : Nat := 2048

/-- ISO_CE_ENTRY_SIZE and ISO_ROCKRIDGE_IN_DIR_REC. -/
def ceEntrySize : Nat := 28
def rockridgeInDirRec : Nat := 124

def suspAppend (info : SuspInfo) (data : Field) : SuspInfo :=
  { info with suspFields := info.suspFields ++ [data], sufLen := info.sufLen + data.len }

def roundUp (n : Nat) : Nat := (n + blockSize - 1) / blockSize * blockSize

/-- "this Continuation Area needs to end by a CE which points to the start of the next
block" -/
def hopBlock (info : SuspInfo) (data : Field) : SuspInfo :=
  if (info.ceLen + data.len + ceEntrySize - 1) / blockSize ≠ info.ceLen / blockSize then
    { info with
      ceSuspFields := info.ceSuspFields ++ .other .ce ceEntrySize ::
        (if (info.ceLen + ceEntrySize) % blockSize = 0 then [] else [.pad])
      ceLen := roundUp (info.ceLen + ceEntrySize) }
  else info

def suspAppendCe (info : SuspInfo) (data : Field) : SuspInfo :=
  let info := hopBlock info data
  { info with ceSuspFields := info.ceSuspFields ++ [data], ceLen := info.ceLen + data.len }

/-- Append to the Continuation Area or to the System Use Area. -/
def append (toCe : Bool) (info : SuspInfo) (data : Field) : SuspInfo :=
  if toCe then suspAppendCe info data else suspAppend info data

/-- NM[2] for a part of the name. -/
def nmLen (size : Nat) : UInt8 := UInt8.ofNat (size + 5)

/-- A negative size makes memcpy() run wild. -/
def rripAddNm (info : SuspInfo) (name : Bytes) (size : Int) (flags : UInt8) (ce : Bool) :
    Except Failure SuspInfo :=
  if size > 250 then .error .assertFailure
  else if size < 0 then .error .memoryFault
  else
    .ok (append ce info (.nm ⟨nmLen size.toNat, flags, name.take size.toNat⟩))

/-- The entries which depend on the node type. -/
def typeFields (opts : WriteOpts) : NodeType → List Field
  | .dir realParent dedicatedReloc =>
    if realParent || (dedicatedReloc && opts.relocMarked) then [.other .re 4] else []
  | .special device => if device then [.other .pn 20] else []
  | .placeholder => [.other .cl 12]
  | .file _ => []
  | .symlink _ => []

/-- The entries which always go into the System Use Area before the name. -/
def headFields (opts : WriteOpts) (node : Node) : List Field :=
  (if opts.aaip && !opts.aaipSusp110 then [.other .es 5] else []) ++
  [.other .px (if opts.rrip110PxIno || !opts.rripVersion110 then 44 else 36),
    .other .tf 26] ++ typeFields opts node.type

/-- ES which announces AAIP. -/
def esExtra (opts : WriteOpts) : Nat := if opts.aaipSusp110 then 0 else 5

/-- The loop over the link destination in susp_calc_nm_sl_al() while no Continuation Area
is announced. -/
def calcSl (space suSize : Nat) : Nat → List Turn → Option Nat
  | slLen, [] => some (suSize + slLen)
  | slLen, t :: ts =>
    if suSize + slLen + compLen t.comp > space then none
    else calcSl space suSize (slLen + compLen t.comp) ts

/-- One more field for the System Use Area, if it fits. -/
def calcField (space suSize size : Nat) : Option Nat :=
  if space - suSize < size then none else some (suSize + size)

def calcAfterNm (space : Nat) (node : Node) (suSize : Nat) : Option Nat :=
  match node.type with
  | .symlink dest => calcSl space suSize 5 (turns [] dest)
  | .file (some _) => calcField space suSize 16
  | _ => some suSize

def calcAl (opts : WriteOpts) (space : Nat) (node : Node) (suSize : Nat) : Option Nat :=
  if opts.aaip ∧ node.aapt.sum > 0 then calcField space suSize (node.aapt.sum + esExtra opts)
  else some suSize

/-- susp_calc_nm_sl_al() without assuming usage of the Continuation Area; none is its
return value 0. -/
def suspCalcNmSlAl (opts : WriteOpts) (node : Node) (space suSize : Nat) : Option Nat :=
  if suSize + 5 + node.name.length ≤ space then
    (calcAfterNm space node (suSize + 5 + node.name.length)).bind (calcAl opts space node)
  else none

/-- The NM entries and the CE entry. -/
def addNm (space : Nat) (node : Node) (ceIsPredicted : Bool) (info : SuspInfo) :
    SuspInfo × Except Failure Unit :=
  let ceSize := if ceIsPredicted then ceEntrySize else 0
  let addCe (info : SuspInfo) :=
    if ceIsPredicted then suspAppend info (.other .ce ceEntrySize) else info
  if 5 + node.name.length ≤ space - info.sufLen - ceSize then
    match rripAddNm info node.name node.name.length 0 false with
    | .error e => (info, .error e)
    | .ok info => (addCe info, .ok ())
  else
    let namelen : Int := (space : Int) - info.sufLen - ceSize - 5
    match rripAddNm info node.name namelen 1 false with
    | .error e => (info, .error e)
    | .ok info =>
      let info := addCe info
      let rest := node.name.drop namelen.toNat
      match rripAddNm info rest rest.length 0 true with
      | .error e => (info, .error e)
      | .ok info => (info, .ok ())

/-- Accounting of a field for the Continuation Area. -/
def suspCalcAddToCe (ce baseCe add : Nat) : Nat :=
  if (ce + baseCe + add + ceEntrySize - 1) / blockSize ≠ (ce + baseCe) / blockSize then
    roundUp (ce + baseCe + ceEntrySize) - baseCe + add
  else ce + add

/-- sua_free and ce_len. -/
structure Budget where
  suaFree : Nat
  ceLen : Nat

def addSl (node : Node) (nmInCe : Option Nat) (budget : Budget) (info : SuspInfo) :
    Budget × SuspInfo × Except Failure Unit :=
  match node.type with
  | .symlink dest =>
    let ceLen := (slLoop budget.suaFree nmInCe dest).ceLen
    match rripSlFields budget.suaFree nmInCe dest with
    | .error _ => (budget, info, .error .assertFailure)
    | .ok entries =>
      (⟨budget.suaFree, ceLen⟩,
        (entries.map fun entry => Field.other .sl entry.length).foldl (append (ceLen > 0)) info,
        .ok ())
  | _ => (budget, info, .ok ())

def addZfField (node : Node) (ceMem : Nat) (budget : Budget) (info : SuspInfo) :
    Budget × SuspInfo × Except Failure Unit :=
  match node.type with
  | .file (some zf) =>
    let budget :=
      if budget.suaFree < 16 ∨ budget.ceLen > 0 then
        { budget with ceLen := suspCalcAddToCe budget.ceLen ceMem 16 }
      else { budget with suaFree := budget.suaFree - 16 }
    if zf.version1 ∧ zf.uncompressedSize > 0xffffffff then
      (budget, info, .error .zisofsTooLarge)
    else (budget, append (budget.ceLen > 0) info (.other .zf 16), .ok ())
  | _ => (budget, info, .ok ())

/-- The fields of the AAIP string with the ES which announces them. -/
def alFields (opts : WriteOpts) (node : Node) : List Field :=
  (if opts.aaipSusp110 then [] else [.other .es 5]) ++ node.aapt.map (.other .al)

def addAaString (opts : WriteOpts) (node : Node) (ceMem : Nat) (budget : Budget)
    (info : SuspInfo) : SuspInfo :=
  if opts.aaip ∧ node.aapt.sum > 0 then
    let fields := alFields opts node
    let ceLen :=
      if budget.suaFree < node.aapt.sum + esExtra opts ∨ budget.ceLen > 0 then
        fields.foldl (fun ce field => suspCalcAddToCe ce ceMem field.len) budget.ceLen
      else budget.ceLen
    fields.foldl (append (ceLen > 0)) info
  else info

/-- What gets written behind the name. -/
def addTail (opts : WriteOpts) (node : Node) (ceMem : Nat) (nmInCe : Option Nat)
    (budget : Budget) (info : SuspInfo) : SuspInfo × Except Failure Unit :=
  match addSl node nmInCe budget info with
  | (_, info, .error e) => (info, .error e)
  | (budget, info, .ok ()) =>
    match addZfField node ceMem budget info with
    | (_, info, .error e) => (info, .error e)
    | (budget, info, .ok ()) => (addAaString opts node ceMem budget info, .ok ())

/-- "Directory record length must be even (ECMA-119, 9.1.13). Maximum is 254." -/
def suSpace (usedUp : Nat) : Nat := 254 - usedUp - usedUp % 2

/-- rrip_get_susp_fields() for the record of a node in the list of its parent, type 0. -/
def rripGetSuspFields (opts : WriteOpts) (node : Node) (usedUp : Nat) (info : SuspInfo) :
    SuspInfo × Except Failure Unit :=
  let space := suSpace usedUp
  let ceMem := info.ceLen
  if space < rockridgeInDirRec then (info, .error .assertFailure)
  else
    let info := (headFields opts node).foldl suspAppend info
    if info.sufLen + ceEntrySize > space then (info, .error .assertFailure)
    else
      let ceIsPredicted := (suspCalcNmSlAl opts node space info.sufLen).isNone
      let suaFree := space - info.sufLen - if ceIsPredicted then ceEntrySize else 0
      match addNm space node ceIsPredicted info with
      | (info, .error e) => (info, .error e)
      | (info, .ok ()) =>
        if 5 + node.name.length ≤ suaFree then
          addTail opts node ceMem none ⟨suaFree - (5 + node.name.length), 0⟩ info
        else
          let nmInCe := node.name.length + 5 - suaFree
          addTail opts node ceMem (some nmInCe) ⟨0, 5 + nmInCe⟩ info

/-- The variables name and cont of read_rr_NM(). -/
structure ReadState where
  name : Option Bytes
  cont : Bool
  deriving DecidableEq

/-- None is ISO_WRONG_RR. -/
def readRrNm (nm : NmEntry) (st : ReadState) : Option ReadState :=
  if nm.lenSue = 5 ∧ nm.flags &&& 2 ≠ 0 then
    if st.name.isNone then some st else none
  else if nm.lenSue ≤ 5 then none
  else
    let part := cString (nm.name.take (nm.lenSue.toNat - 5))
    some
      { name := some (if st.cont then st.name.getD [] ++ part else part)
        cont := decide (nm.flags &&& 1 ≠ 0) }

/-- Successive calls. -/
def readNames : List NmEntry → ReadState → Option ReadState
  | [], st => some st
  | nm :: rest, st => (readRrNm nm st).bind (readNames rest)

/-- The NM entries of the node as the reader meets them. -/
def SuspInfo.nmEntries (info : SuspInfo) : List NmEntry :=
  (info.suspFields ++ info.ceSuspFields).filterMap Field.nm?

/-- What is known about a node when its entries get collected: other nodes of the same
directory have filled the Continuation Area up to `ceLen`. -/
def SuspInfo.fresh (ceLen : Nat) : SuspInfo := ⟨[], 0, [], ceLen⟩

/-- Entries have the length which they announce, and they tell the name, with no
continuation pending. -/
def Tells (entries : List NmEntry) (name : Bytes) : Prop :=
  (∀ nm ∈ entries, nm.lenSue.toNat = 5 + nm.name.length) ∧
    readNames entries ⟨none, false⟩ = some ⟨some name, false⟩

instance (entries : List NmEntry) (name : Bytes) : Decidable (Tells entries name) :=
  inferInstanceAs (Decidable (_ ∧ _))

/-- The NM entries of the node tell its name. -/
def RoundTrip (opts : WriteOpts) (node : Node) (usedUp ceLen : Nat) : Prop :=
  Tells (rripGetSuspFields opts node usedUp (.fresh ceLen)).1.nmEntries node.name

instance (opts : WriteOpts) (node : Node) (usedUp ceLen : Nat) :
    Decidable (RoundTrip opts node usedUp ceLen) :=
  inferInstanceAs (Decidable (Tells _ _))

end NameEntries
