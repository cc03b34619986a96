import Libisofs.Lib.Unrolling
import Libisofs.ReadDir

/-!
# Opening of files in an image which fails

ifs_open() lists the children of a directory in the member which serves for the content of data
files. If read_dir() fails, then it frees the list but keeps the pointer to it. Of
iso_file_source_new_ifs() only the return value and the fate of an incomplete multi-extent file
matter here. They may depend on anything, and are given by the place of the record.
-/

namespace FailedOpen

open ByteBuffers Unrollings
open ReadDir (State blockSize isoSuccess blockNumber lenDr dirSize firstPos nextBlock nextRecord)

inductive FileKind where
  | directory
  | regular
  | other

/-- A list of children, which may lead to freed memory, or other memory. -/
inductive Content where
  | chain (nodes : List (Nat × Nat)) (dangling : Bool)
  | memory

def Content.null : Content := .chain [] false

/-- The file source, the block of its extent, and the open counter of its filesystem. -/
structure Source where
  kind : FileKind
  opened : Nat
  content : Content
  offset : Int
  block : UInt32
  openCount : Nat

abbrev ErrorCode := { ret : Int // ret < 0 }

/-- What iso_file_source_new_ifs() can do with a record. With `destroyed`, realloc() of the extents
has failed, and memory is freed to which pointers are left in the incomplete file, or in the one
which was about to become complete. -/
inductive Answer where
  | refused (error : ErrorCode)
  | destroyed
  | ignored
  | child
  | incomplete

/-- The data source, the memory, and the records. Blocks of a directory are counted from its
begin, records are given by block and position. -/
structure World where
  openSource : Int
  readBlock : Nat → UInt32 → Except ErrorCode Buffer
  newIfs : Nat → Nat → Answer
  allocBuffer : Bool
  allocNode : Nat → Nat → Bool
  allocContent : Bool

def isoOutOfMem : Int := 0xF030FFFA - 2 ^ 32

def isoFileAlreadyOpened : Int := 0xE830FF7F - 2 ^ 32

def isoFileError : Int := 0xE830FF80 - 2 ^ 32

/-! ## read_dir() -/

/-- `pending` tells whether there is an incomplete multi-extent file. -/
structure Walk where
  state : State
  pending : Bool

inductive DirEnd where
  /-- With `leaked`, an incomplete file has not been freed. -/
  | ended (ret : Int) (nodes : List (Nat × Nat)) (leaked : Bool)
  | doubleFree

/-- One turn of the loop. -/
def dirTurn (w : World) (block : UInt32) (size : Nat) (s : Walk) : Unrolling (Walk ⊕ DirEnd) :=
  fun _ =>
    if s.state.tlen < size then
      if s.state.pos = blockSize ∨ s.state.buffer s.state.pos = 0 then
        match w.readBlock (s.state.advanced + 1) (blockNumber block (s.state.advanced + 1)) with
        | .error error => some (.inr (.ended error.val s.state.content s.pending))
        | .ok buffer => some (.inl { s with state := nextBlock s.state buffer })
      else
        match w.newIfs s.state.advanced s.state.pos with
        | .refused error => some (.inr (.ended error.val s.state.content false))
        | .destroyed => some (.inr .doubleFree)
        | .ignored => some (.inl { s with state := nextRecord s.state 0 })
        | .incomplete => some (.inl ⟨nextRecord s.state 2, true⟩)
        | .child =>
          if w.allocNode s.state.advanced s.state.pos then
            some (.inl ⟨nextRecord s.state 1, false⟩)
          else some (.inr (.ended isoOutOfMem s.state.content false))
    else some (.inr (.ended isoSuccess s.state.content s.pending))

/-- Behind the records "." and "..". -/
def dirStart (buffer : Buffer) : Walk :=
  ⟨⟨0, buffer, firstPos buffer, firstPos buffer, 0, []⟩, false⟩

def readDir (w : World) (block : UInt32) : Unrolling DirEnd := fun n =>
  if w.allocBuffer then
    match w.readBlock 0 block with
    | .error error => some (.ended error.val [] false)
    | .ok buffer => Unrollings.loop (dirTurn w block (dirSize buffer)) n (dirStart buffer)
  else some (.ended isoOutOfMem [] false)

/-! ## ifs_open() -/

/-- The new open counter of the filesystem. -/
def ifsFsOpen (w : World) (openCount : Nat) : Except Int Nat :=
  if openCount = 0 ∧ w.openSource < 0 then .error w.openSource else .ok (openCount + 1)

/-- New children get put in front. -/
def Content.push (nodes : List (Nat × Nat)) : Content → Content
  | chain old dangling => chain (nodes ++ old) dangling
  | memory => chain nodes true

/-- The pointer to the list stays as it is. Freed memory must not be visited. -/
def childListFree : Content → Option Content
  | .chain nodes false => some (if nodes = [] then .null else .chain [] true)
  | .chain _ true => none
  | .memory => none

inductive Opening where
  | returned (ret : Int) (src : Source) (leaked : Bool)
  | doubleFree

/-- The end of ifs_open() for a directory of which the filesystem is open. -/
def afterReadDir (src : Source) : DirEnd → Opening
  | .doubleFree => .doubleFree
  | .ended ret nodes leaked =>
    let content := src.content.push nodes
    if ret < 0 then
      match childListFree content with
      | none => .doubleFree
      | some content => .returned ret { src with content } leaked
    else .returned ret { src with content, opened := 2 } leaked

def ifsOpen (w : World) (src : Source) : Unrolling Opening := fun n =>
  if src.opened ≠ 0 then some (.returned isoFileAlreadyOpened src false)
  else
    match src.kind with
    | .directory =>
      match ifsFsOpen w src.openCount with
      | .error ret => some (.returned ret src false)
      | .ok openCount =>
        (readDir w src.block n).map (afterReadDir { src with openCount := openCount - 1 })
    | .regular =>
      match ifsFsOpen w src.openCount with
      | .error ret => some (.returned ret src false)
      | .ok openCount =>
        if w.allocContent then
          some (.returned isoSuccess
            { src with openCount, content := .memory, offset := 0, opened := 1 } false)
        else some (.returned isoOutOfMem { src with openCount, content := .null } false)
    | .other => some (.returned isoFileError src false)

/-- As a source is which was never opened, or which was closed. -/
structure Unopened (src : Source) : Prop where
  notOpened : src.opened = 0
  noContent : src.kind ≠ .other → src.content = .null

structure AsBefore (src src' : Source) (leaked : Bool) : Prop where
  notOpened : src'.opened = 0
  noChildren : src'.content = src.content
  openCount : src'.openCount = src.openCount
  released : leaked = false
  again : ∀ w n, ifsOpen w src' n = ifsOpen w src n

/-- The opening does not succeed. -/
def Opening.Fails : Opening → Prop
  | .returned ret _ _ => ret < 0
  | .doubleFree => True

def NoTrace (src : Source) : Opening → Prop
  | .returned _ src' leaked => AsBefore src src' leaked
  | .doubleFree => False

/-! ## Conditions on the directory -/

section Places

variable (w : World) (block : UInt32) (size : Nat)

/-- A position in a block of the directory. -/
structure Place where
  index : Nat
  pos : Nat

def blockAt (k : Nat) : Except ErrorCode Buffer := w.readBlock k (blockNumber block k)

/-- The place is in front of the end of the directory, as counted by 32 bits. -/
def Place.Inside (p : Place) : Prop := ReadDir.offsetAt p.index p.pos < size

/-- Behind the last record of a block. -/
def Padding (buffer : Buffer) (pos : Nat) : Prop := pos = blockSize ∨ buffer pos = 0

/-- There is a record of the directory. -/
def AtRecord (p : Place) : Prop :=
  p.Inside size ∧ ∃ buffer, blockAt w block p.index = .ok buffer ∧ ¬ Padding buffer p.pos

/-- The directory goes on in the next block, which is not readable. -/
def AtUnreadable (p : Place) : Prop :=
  p.Inside size ∧ (∃ buffer, blockAt w block p.index = .ok buffer ∧ Padding buffer p.pos) ∧
    ∃ error, blockAt w block (p.index + 1) = .error error

/-- The content of the directory leads from one place behind some records to another one. -/
inductive Leads : Place → List Place → Place → Prop where
  | stay {p : Place} : Leads p [] p
  | record {p q : Place} {passed : List Place} {buffer : Buffer} :
      p.Inside size → blockAt w block p.index = .ok buffer → ¬ Padding buffer p.pos →
      Leads ⟨p.index, (p.pos + lenDr buffer p.pos) % 2 ^ 32⟩ passed q → Leads p (p :: passed) q
  | padding {p q : Place} {passed : List Place} {buffer next : Buffer} :
      p.Inside size → blockAt w block p.index = .ok buffer → Padding buffer p.pos →
      blockAt w block (p.index + 1) = .ok next →
      Leads ⟨p.index + 1, 0⟩ passed q → Leads p passed q

/-- read_dir() fails at the record. -/
def Fails (p : Place) : Prop :=
  match w.newIfs p.index p.pos with
  | .refused _ | .destroyed => True
  | .child => w.allocNode p.index p.pos = false
  | .ignored | .incomplete => False

/-- The record becomes a child in the list. -/
def Listed (p : Place) : Prop :=
  w.newIfs p.index p.pos = .child ∧ w.allocNode p.index p.pos = true

/-- The extents of the record find no memory. -/
def Destroyed (p : Place) : Prop := w.newIfs p.index p.pos = .destroyed

def Incomplete (p : Place) : Prop := w.newIfs p.index p.pos = .incomplete

/-- As long as no record makes read_dir() fail, none gets listed or finds no memory for its
extents. A block which is not readable comes when there is no incomplete file. -/
def CleanFrom (start : Place) (pending : Bool) : Prop :=
  ∀ passed p, Leads w block size start passed p → (∀ q ∈ passed, ¬ Fails w q) →
    (AtRecord w block size p → ¬ Listed w p ∧ ¬ Destroyed w p) ∧
      (AtUnreadable w block size p → pending = false ∧ ∀ q ∈ passed, ¬ Incomplete w q)

end Places

def FsOpens (w : World) (src : Source) : Prop := ¬ (src.openCount = 0 ∧ w.openSource < 0)

/-- The same for the whole directory. -/
def CleanDir (w : World) (block : UInt32) : Prop :=
  w.allocBuffer = true → ∀ buffer, w.readBlock 0 block = .ok buffer →
    CleanFrom w block (dirSize buffer) ⟨0, firstPos buffer⟩ false

/-- What has to hold for an opening which fails. -/
def Clean (w : World) (src : Source) : Prop :=
  match src.kind with
  | .directory => FsOpens w src → CleanDir w src.block
  | .regular => FsOpens w src → w.allocContent = true
  | .other => True

section Steps

variable {w : World} {block : UInt32} {size n : Nat} {s : Walk} {p : Place} {pending : Bool}

theorem cleanFrom_unreadable (hunreadable : AtUnreadable w block size p) :
    CleanFrom w block size p pending ↔ pending = false := by
  obtain ⟨hin, ⟨buffer, hread, hpad⟩, error, herror⟩ := hunreadable
  have hunreadable : AtUnreadable w block size p :=
    ⟨hin, ⟨buffer, hread, hpad⟩, error, herror⟩
  constructor
  · intro hclean
    exact ((hclean [] p .stay (List.forall_mem_nil _)).2 hunreadable).1
  · intro hpending passed q hleads _
    cases hleads with
    | stay =>
      refine ⟨fun hrecord => ?_, fun _ => ⟨hpending, List.forall_mem_nil _⟩⟩
      obtain ⟨-, buffer', hread', hnot⟩ := hrecord
      obtain rfl := Except.ok.inj (hread.symm.trans hread')
      exact absurd hpad hnot
    | record _ hread' hnot _ =>
      obtain rfl := Except.ok.inj (hread.symm.trans hread')
      exact absurd hpad hnot
    | padding _ _ _ hnext _ => exact absurd (herror.symm.trans hnext) (by simp)

theorem cleanFrom_padding {buffer next : Buffer} (hin : p.Inside size)
    (hread : blockAt w block p.index = .ok buffer) (hpad : Padding buffer p.pos)
    (hnext : blockAt w block (p.index + 1) = .ok next) :
    CleanFrom w block size p pending ↔ CleanFrom w block size ⟨p.index + 1, 0⟩ pending := by
  constructor
  · intro hclean passed q hleads hpassed
    exact hclean passed q (.padding hin hread hpad hnext hleads) hpassed
  · intro hclean passed q hleads hpassed
    cases hleads with
    | stay =>
      refine ⟨fun hrecord => ?_, fun hunreadable => ?_⟩
      · obtain ⟨-, buffer', hread', hnot⟩ := hrecord
        obtain rfl := Except.ok.inj (hread.symm.trans hread')
        exact absurd hpad hnot
      · obtain ⟨-, -, error, herror⟩ := hunreadable
        exact absurd (hnext.symm.trans herror) (by simp)
    | record _ hread' hnot _ =>
      obtain rfl := Except.ok.inj (hread.symm.trans hread')
      exact absurd hpad hnot
    | padding _ _ _ _ hmore => exact hclean passed q hmore hpassed

section Record

variable {buffer : Buffer} (hin : p.Inside size) (hread : blockAt w block p.index = .ok buffer)
  (hnot : ¬ Padding buffer p.pos)

include hread hnot

theorem not_atUnreadable : ¬ AtUnreadable w block size p := by
  rintro ⟨-, ⟨buffer', hread', hpad⟩, -⟩
  obtain rfl := Except.ok.inj (hread.symm.trans hread')
  exact hnot hpad

include hin

/-- A record which is listed or finds no memory. -/
theorem not_cleanFrom_record (hbad : Listed w p ∨ Destroyed w p) :
    ¬ CleanFrom w block size p pending := by
  intro hclean
  obtain ⟨hlisted, hdestroyed⟩ :=
    (hclean [] p .stay (List.forall_mem_nil _)).1 ⟨hin, buffer, hread, hnot⟩
  exact hbad.elim hlisted hdestroyed

/-- What follows a record. -/
theorem leads_record_iff {passed : List Place} {q : Place} :
    Leads w block size p passed q ↔ (passed = [] ∧ q = p) ∨
      ∃ more, passed = p :: more ∧
        Leads w block size ⟨p.index, (p.pos + lenDr buffer p.pos) % 2 ^ 32⟩ more q := by
  constructor
  · intro hleads
    cases hleads with
    | stay => exact Or.inl ⟨rfl, rfl⟩
    | record _ hread' _ hmore =>
      obtain rfl := Except.ok.inj (hread.symm.trans hread')
      exact Or.inr ⟨_, rfl, hmore⟩
    | padding _ hread' hpad _ _ =>
      obtain rfl := Except.ok.inj (hread.symm.trans hread')
      exact absurd hpad hnot
  · rintro (⟨rfl, rfl⟩ | ⟨more, rfl, hmore⟩)
    · exact .stay
    · exact .record hin hread hnot hmore

/-- A record which makes read_dir() fail without being listed. -/
theorem cleanFrom_fails (hfails : Fails w p) (hlisted : ¬ Listed w p) (hdestroyed : ¬ Destroyed w p) :
    CleanFrom w block size p pending := by
  intro passed q hleads hpassed
  rcases (leads_record_iff hin hread hnot).mp hleads with ⟨rfl, rfl⟩ | ⟨more, rfl, -⟩
  · exact ⟨fun _ => ⟨hlisted, hdestroyed⟩,
      fun hunreadable => absurd hunreadable (not_atUnreadable hread hnot)⟩
  · exact absurd hfails (hpassed p List.mem_cons_self)

/-- A record which is ignored or makes a file incomplete. -/
theorem cleanFrom_record (hgoes : ¬ Fails w p) (hlisted : ¬ Listed w p) (now : Bool)
    (hnow : now = false ↔ pending = false ∧ ¬ Incomplete w p) :
    CleanFrom w block size p pending ↔
      CleanFrom w block size ⟨p.index, (p.pos + lenDr buffer p.pos) % 2 ^ 32⟩ now := by
  have hdestroyed : ¬ Destroyed w p := by
    intro hdestroyed
    rw [Fails, show w.newIfs p.index p.pos = .destroyed from hdestroyed] at hgoes
    exact hgoes trivial
  constructor
  · intro hclean passed q hleads hpassed
    obtain ⟨hrecord, hunreadable⟩ := hclean (p :: passed) q (.record hin hread hnot hleads)
      (List.forall_mem_cons.mpr ⟨hgoes, hpassed⟩)
    refine ⟨hrecord, fun h => ?_⟩
    obtain ⟨hpending, hall⟩ := hunreadable h
    obtain ⟨hself, hmore⟩ := List.forall_mem_cons.mp hall
    exact ⟨hnow.mpr ⟨hpending, hself⟩, hmore⟩
  · intro hclean passed q hleads hpassed
    rcases (leads_record_iff hin hread hnot).mp hleads with ⟨rfl, rfl⟩ | ⟨more, rfl, hmore⟩
    · exact ⟨fun _ => ⟨hlisted, hdestroyed⟩,
        fun hunreadable => absurd hunreadable (not_atUnreadable hread hnot)⟩
    · obtain ⟨hrecord, hunreadable⟩ := hclean more q hmore (List.forall_mem_cons.mp hpassed).2
      refine ⟨hrecord, fun h => ?_⟩
      obtain ⟨hfalse, hall⟩ := hunreadable h
      obtain ⟨hpending, hself⟩ := hnow.mp hfalse
      exact ⟨hpending, List.forall_mem_cons.mpr ⟨hself, hall⟩⟩

end Record

/-- The state of the loop at a place. -/
structure At (w : World) (block : UInt32) (p : Place) (s : State) : Prop where
  index : s.advanced = p.index
  read : blockAt w block p.index = .ok s.buffer
  pos : s.pos = p.pos
  small : p.pos < 2 ^ 32
  tlen : s.tlen = ReadDir.offsetAt p.index p.pos

theorem At.inNextBlock {s : State} (h : At w block p s) {buffer : Buffer}
    (hread : blockAt w block (p.index + 1) = .ok buffer) :
    At w block ⟨p.index + 1, 0⟩ (nextBlock s buffer) := by
  have hsmall := h.small
  constructor
  case index => exact congrArg (· + 1) h.index
  case read => exact hread
  case pos => rfl
  case small => exact Nat.two_pow_pos 32
  case tlen =>
    simp only [nextBlock, h.tlen, h.pos, ReadDir.offsetAt, blockSize]
    omega

theorem At.behindRecord {s : State} (h : At w block p s) (ret : Int) :
    At w block ⟨p.index, (p.pos + lenDr s.buffer p.pos) % 2 ^ 32⟩ (nextRecord s ret) := by
  constructor
  case index => exact h.index
  case read => exact h.read
  case pos => simp only [nextRecord, h.pos]
  case small => exact Nat.mod_lt _ (Nat.two_pow_pos 32)
  case tlen =>
    simp only [nextRecord, h.tlen, h.pos, ReadDir.offsetAt]
    omega

/-- What a turn of the loop does at a place. -/
inductive Turn (w : World) (block : UInt32) (size : Nat) (s : Walk) (p : Place) :
    Walk ⊕ DirEnd → Prop where
  | done : ¬ p.Inside size → Turn w block size s p (.inr (.ended isoSuccess s.state.content s.pending))
  | unreadable {ret : Int} : AtUnreadable w block size p →
      Turn w block size s p (.inr (.ended ret s.state.content s.pending))
  | padding {buffer next : Buffer} {s' : Walk} :
      p.Inside size → blockAt w block p.index = .ok buffer → Padding buffer p.pos →
      blockAt w block (p.index + 1) = .ok next → At w block ⟨p.index + 1, 0⟩ s'.state →
      s'.state.content = s.state.content → s'.pending = s.pending →
      Turn w block size s p (.inl s')
  | fails {buffer : Buffer} {ret : Int} :
      p.Inside size → blockAt w block p.index = .ok buffer → ¬ Padding buffer p.pos →
      Fails w p → ¬ Listed w p → ¬ Destroyed w p →
      Turn w block size s p (.inr (.ended ret s.state.content false))
  | destroyed {buffer : Buffer} :
      p.Inside size → blockAt w block p.index = .ok buffer → ¬ Padding buffer p.pos →
      Destroyed w p → Turn w block size s p (.inr .doubleFree)
  | listed {buffer : Buffer} {s' : Walk} :
      p.Inside size → blockAt w block p.index = .ok buffer → ¬ Padding buffer p.pos →
      Listed w p → At w block ⟨p.index, (p.pos + lenDr buffer p.pos) % 2 ^ 32⟩ s'.state →
      s'.state.content.length = s.state.content.length + 1 → Turn w block size s p (.inl s')
  | goes {buffer : Buffer} {s' : Walk} :
      p.Inside size → blockAt w block p.index = .ok buffer → ¬ Padding buffer p.pos →
      ¬ Fails w p → ¬ Listed w p →
      At w block ⟨p.index, (p.pos + lenDr buffer p.pos) % 2 ^ 32⟩ s'.state →
      s'.state.content = s.state.content →
      (s'.pending = false ↔ s.pending = false ∧ ¬ Incomplete w p) →
      Turn w block size s p (.inl s')

/-- A turn at a record. -/
theorem dirTurn_record (h : At w block p s.state) (hin : p.Inside size)
    (hnot : ¬ Padding s.state.buffer p.pos) :
    ∃ r, dirTurn w block size s n = some r ∧ Turn w block size s p r := by
  have hlt : s.state.tlen < size := h.tlen ▸ hin
  have hpad : ¬ (p.pos = blockSize ∨ s.state.buffer p.pos = 0) := hnot
  simp only [dirTurn, if_pos hlt, h.index, h.pos, if_neg hpad]
  cases hanswer : w.newIfs p.index p.pos with
  | refused error =>
    refine ⟨_, rfl, .fails hin h.read hnot ?_ ?_ ?_⟩
    · simp only [Fails, hanswer]
    · simp only [Listed, hanswer, reduceCtorEq, false_and, not_false_eq_true]
    · simp only [Destroyed, hanswer, reduceCtorEq, not_false_eq_true]
  | destroyed => exact ⟨_, rfl, .destroyed hin h.read hnot hanswer⟩
  | ignored =>
    refine ⟨_, rfl, .goes hin h.read hnot ?_ ?_ (h.behindRecord 0) rfl ?_⟩
    · simp only [Fails, hanswer, not_false_eq_true]
    · simp only [Listed, hanswer, reduceCtorEq, false_and, not_false_eq_true]
    · simp only [Incomplete, hanswer, reduceCtorEq, not_false_eq_true, and_true]
  | incomplete =>
    refine ⟨_, rfl, .goes hin h.read hnot ?_ ?_ (h.behindRecord 2) rfl ?_⟩
    · simp only [Fails, hanswer, not_false_eq_true]
    · simp only [Listed, hanswer, reduceCtorEq, false_and, not_false_eq_true]
    · simp only [Incomplete, hanswer, reduceCtorEq, not_true_eq_false, and_false]
  | child =>
    cases halloc : w.allocNode p.index p.pos with
    | true => exact ⟨_, rfl, .listed hin h.read hnot ⟨hanswer, halloc⟩ (h.behindRecord 1) rfl⟩
    | false =>
      refine ⟨_, rfl, .fails hin h.read hnot ?_ ?_ ?_⟩
      · simp only [Fails, hanswer, halloc]
      · simp only [Listed, halloc, Bool.false_eq_true, and_false, not_false_eq_true]
      · simp only [Destroyed, hanswer, reduceCtorEq, not_false_eq_true]

variable (size n) in
theorem dirTurn_spec (h : At w block p s.state) :
    ∃ r, dirTurn w block size s n = some r ∧ Turn w block size s p r := by
  by_cases hin : p.Inside size
  · by_cases hpad : Padding s.state.buffer p.pos
    · have hlt : s.state.tlen < size := h.tlen ▸ hin
      have hpad' : p.pos = blockSize ∨ s.state.buffer p.pos = 0 := hpad
      simp only [dirTurn, if_pos hlt, h.index, h.pos, if_pos hpad']
      cases hnext : w.readBlock (p.index + 1) (blockNumber block (p.index + 1)) with
      | error error => exact ⟨_, rfl, .unreadable ⟨hin, ⟨_, h.read, hpad⟩, error, hnext⟩⟩
      | ok buffer =>
        exact ⟨_, rfl, .padding hin h.read hpad hnext (h.inNextBlock hnext) rfl rfl⟩
    · exact dirTurn_record h hin hpad
  · have hnot : ¬ s.state.tlen < size := h.tlen ▸ hin
    simp only [dirTurn, if_neg hnot]
    exact ⟨_, rfl, .done hin⟩

/-- A failed run which neither lists a child nor loses a file. -/
def Tidy (s : Walk) : DirEnd → Prop
  | .ended _ nodes leaked => nodes = s.state.content ∧ leaked = false
  | .doubleFree => False

def DirEnd.Fails : DirEnd → Prop
  | .ended ret _ _ => ret < 0
  | .doubleFree => True

/-- The list of children does not get shorter. -/
def Grows (s : Walk) : DirEnd → Prop
  | .ended _ nodes _ => s.state.content.length ≤ nodes.length
  | .doubleFree => True

theorem grows_same {ret : Int} {leaked : Bool} : Grows s (.ended ret s.state.content leaked) := le_rfl

theorem Grows.trans {s' : Walk} {e : DirEnd} (h : Grows s' e)
    (hle : s.state.content.length ≤ s'.state.content.length) : Grows s e := by
  cases e with
  | ended => exact hle.trans h
  | doubleFree => trivial

theorem not_tidy_of_longer {s' : Walk} {e : DirEnd} (h : Grows s' e)
    (hlonger : s'.state.content.length = s.state.content.length + 1) : ¬ Tidy s e := by
  cases e with
  | ended ret nodes leaked =>
    rintro ⟨rfl, -⟩
    have hle : s'.state.content.length ≤ s.state.content.length := h
    omega
  | doubleFree => exact not_false

theorem tidy_of_content {s' : Walk} {e : DirEnd} (hsame : s'.state.content = s.state.content) :
    Tidy s' e ↔ Tidy s e := by
  cases e with
  | ended => rw [Tidy, Tidy, hsame]
  | doubleFree => exact Iff.rfl

/-- A failed run is tidy if and only if the directory is clean. -/
theorem loop_tidy_iff {e : DirEnd} (hat : At w block p s.state)
    (h : Unrollings.loop (dirTurn w block size) n s = some e) :
    Grows s e ∧ (e.Fails → (Tidy s e ↔ CleanFrom w block size p s.pending)) := by
  induction n generalizing s p with
  | zero => cases h
  | succ n ih =>
    obtain ⟨r, hrun, hturn⟩ := dirTurn_spec size n hat
    rw [Unrollings.loop, hrun] at h
    cases hturn with
    | done =>
      obtain rfl := Option.some.inj h
      exact ⟨grows_same, fun hfails => absurd hfails (show ¬ isoSuccess < 0 by decide)⟩
    | unreadable hunreadable =>
      obtain rfl := Option.some.inj h
      refine ⟨grows_same, fun _ => ?_⟩
      rw [cleanFrom_unreadable hunreadable, Tidy]
      exact and_iff_right rfl
    | padding hin hread hpad hnext hat' hcontent hpending =>
      obtain ⟨hgrows, hiff⟩ := ih hat' h
      refine ⟨hgrows.trans (Nat.le_of_eq (congrArg List.length hcontent.symm)), fun hfails => ?_⟩
      rw [cleanFrom_padding hin hread hpad hnext, ← tidy_of_content hcontent, ← hpending]
      exact hiff hfails
    | fails hin hread hnot hfails hlisted hdestroyed =>
      obtain rfl := Option.some.inj h
      refine ⟨grows_same, fun _ => ?_⟩
      exact iff_of_true ⟨rfl, rfl⟩ (cleanFrom_fails hin hread hnot hfails hlisted hdestroyed)
    | destroyed hin hread hnot hdestroyed =>
      obtain rfl := Option.some.inj h
      refine ⟨trivial, fun _ => ?_⟩
      exact iff_of_false not_false (not_cleanFrom_record hin hread hnot (Or.inr hdestroyed))
    | listed hin hread hnot hlisted hat' hlonger =>
      obtain ⟨hgrows, -⟩ := ih hat' h
      refine ⟨hgrows.trans (hlonger ▸ Nat.le_succ _), fun _ => ?_⟩
      exact iff_of_false (not_tidy_of_longer hgrows hlonger)
        (not_cleanFrom_record hin hread hnot (Or.inl hlisted))
    | goes hin hread hnot hgoes hlisted hat' hcontent hnow =>
      obtain ⟨hgrows, hiff⟩ := ih hat' h
      refine ⟨hgrows.trans (Nat.le_of_eq (congrArg List.length hcontent.symm)), fun hfails => ?_⟩
      rw [cleanFrom_record hin hread hnot hgoes hlisted _ hnow, ← tidy_of_content hcontent]
      exact hiff hfails

end Steps

section Main

variable {w : World} {src : Source} {n : Nat} {o : Opening} {e : DirEnd}

theorem firstPos_lt (buffer : Buffer) : firstPos buffer < 2 ^ 11 := by
  have h0 := ReadDir.lenDr_lt buffer 0
  have h1 := ReadDir.lenDr_lt buffer (lenDr buffer 0)
  rw [firstPos]
  omega

theorem at_dirStart {block : UInt32} {buffer : Buffer} (hread : w.readBlock 0 block = .ok buffer) :
    At w block ⟨0, firstPos buffer⟩ (dirStart buffer).state := by
  have hpos := firstPos_lt buffer
  constructor
  case index => rfl
  case read =>
    show w.readBlock 0 (block + UInt32.ofNat 0) = .ok buffer
    rw [show UInt32.ofNat 0 = 0 from rfl, UInt32.add_zero, hread]
  case pos => rfl
  case small => exact hpos.trans (by decide)
  case tlen =>
    simp only [dirStart, ReadDir.offsetAt]
    omega

/-- No list of children, and no lost file. -/
def NothingLeft : DirEnd → Prop
  | .ended _ nodes leaked => nodes = [] ∧ leaked = false
  | .doubleFree => False

theorem readDir_clean_iff {block : UInt32} (h : readDir w block n = some e) (hfails : e.Fails) :
    NothingLeft e ↔ CleanDir w block := by
  rw [readDir] at h
  split at h
  case isTrue halloc =>
    split at h
    next error hread =>
      obtain rfl := Option.some.inj h
      refine iff_of_true ⟨rfl, rfl⟩ fun _ buffer hbuffer => ?_
      exact absurd (hread.symm.trans hbuffer) (by simp)
    next buffer hread =>
      have htidy := (loop_tidy_iff (at_dirStart hread) h).2 hfails
      have hsame : NothingLeft e ↔ Tidy (dirStart buffer) e := by
        cases e with
        | ended => exact Iff.rfl
        | doubleFree => exact Iff.rfl
      rw [hsame, htidy]
      constructor
      · intro hclean _ buffer' hbuffer
        obtain rfl := Except.ok.inj (hread.symm.trans hbuffer)
        exact hclean
      · exact fun hclean => hclean halloc buffer hread
  case isFalse halloc =>
    obtain rfl := Option.some.inj h
    exact iff_of_true ⟨rfl, rfl⟩ fun hmemory => absurd hmemory halloc

/-- A source which is as before leaves no trace. -/
theorem asBefore_refl (hnew : Unopened src) : AsBefore src src false :=
  ⟨hnew.notOpened, rfl, rfl, rfl, fun _ _ => rfl⟩

theorem ifsFsOpen_opens (h : FsOpens w src) : ifsFsOpen w src.openCount = .ok (src.openCount + 1) :=
  if_neg h

theorem ifsFsOpen_fails (h : ¬ FsOpens w src) : ifsFsOpen w src.openCount = .error w.openSource :=
  if_pos (not_not.mp h)

/-- What is left of a directory source when read_dir() has failed. -/
theorem noTrace_afterReadDir (hnew : Unopened src) (hkind : src.kind = .directory)
    (hfails : (afterReadDir src e).Fails) :
    e.Fails ∧ (NoTrace src (afterReadDir src e) ↔ NothingLeft e) := by
  have hnull := hnew.noContent (by rw [hkind]; simp)
  cases e with
  | doubleFree => exact ⟨trivial, Iff.rfl⟩
  | ended ret nodes leaked =>
    have hpush : src.content.push nodes = .chain nodes false := by
      rw [hnull, Content.null, Content.push, List.append_nil]
    rw [afterReadDir] at hfails ⊢
    split at hfails
    next hret =>
      rw [if_pos hret, hpush, childListFree]
      refine ⟨hret, ?_⟩
      by_cases hnodes : nodes = []
      · have hsrc : { src with content := Content.null } = src := by rw [← hnull]
        rw [if_pos hnodes]
        dsimp only
        rw [hsrc]
        constructor
        · exact fun htrace => ⟨hnodes, htrace.released⟩
        · rintro ⟨-, rfl⟩
          exact asBefore_refl hnew
      · rw [if_neg hnodes]
        refine iff_of_false (fun htrace => ?_) fun hleft => hnodes hleft.1
        have hcontent := htrace.noChildren
        rw [hnull] at hcontent
        simp only [Content.null, Content.chain.injEq, Bool.true_eq_false, and_false] at hcontent
    next hret => exact absurd hfails hret

theorem directory_iff (hnew : Unopened src) (hkind : src.kind = .directory)
    (h : ifsOpen w src n = some o) (hfails : o.Fails) :
    NoTrace src o ↔ (FsOpens w src → CleanDir w src.block) := by
  rw [ifsOpen, if_neg (not_not.mpr hnew.notOpened), hkind] at h
  dsimp only at h
  by_cases hopens : FsOpens w src
  · rw [ifsFsOpen_opens hopens] at h
    obtain ⟨e, hread, rfl⟩ := Option.map_eq_some_iff.mp h
    have hsrc : { src with openCount := src.openCount + 1 - 1 } = src := by
      rw [Nat.add_sub_cancel]
    rw [hkind] at hsrc
    rw [hsrc] at hfails ⊢
    obtain ⟨hdir, htrace⟩ := noTrace_afterReadDir hnew hkind hfails
    rw [htrace, readDir_clean_iff hread hdir]
    exact ⟨fun hclean _ => hclean, fun hclean => hclean hopens⟩
  · rw [ifsFsOpen_fails hopens] at h
    obtain rfl := Option.some.inj h
    exact iff_of_true (asBefore_refl hnew) fun hopens' => absurd hopens' hopens

theorem regular_iff (hnew : Unopened src) (hkind : src.kind = .regular)
    (h : ifsOpen w src n = some o) (hfails : o.Fails) :
    NoTrace src o ↔ (FsOpens w src → w.allocContent = true) := by
  rw [ifsOpen, if_neg (not_not.mpr hnew.notOpened), hkind] at h
  dsimp only at h
  by_cases hopens : FsOpens w src
  · rw [ifsFsOpen_opens hopens] at h
    dsimp only at h
    split at h
    case isTrue =>
      obtain rfl := Option.some.inj h
      exact absurd hfails (show ¬ isoSuccess < 0 by decide)
    case isFalse halloc =>
      obtain rfl := Option.some.inj h
      constructor
      · intro htrace
        exact absurd htrace.openCount (Nat.succ_ne_self _)
      · exact fun hmemory => absurd (hmemory hopens) halloc
  · rw [ifsFsOpen_fails hopens] at h
    obtain rfl := Option.some.inj h
    exact iff_of_true (asBefore_refl hnew) fun hopens' => absurd hopens' hopens

/-- A failed opening leaves no trace if and only if it was clean. -/
theorem noTrace_iff (w : World) (src : Source) (n : Nat) (o : Opening) (hnew : Unopened src)
    (h : ifsOpen w src n = some o) (hfails : o.Fails) : NoTrace src o ↔ Clean w src := by
  rw [Clean]
  cases hkind : src.kind with
  | directory => exact directory_iff hnew hkind h hfails
  | regular => exact regular_iff hnew hkind h hfails
  | other =>
    rw [ifsOpen, if_neg (not_not.mpr hnew.notOpened), hkind] at h
    obtain rfl := Option.some.inj h
    exact iff_of_true (asBefore_refl hnew) trivial

/-- A directory of two blocks with two files in the first one. -/
def twoBlocks : Buffer := fun i =>
  if i = 0 ∨ i = 34 then 34 else if i = 68 ∨ i = 108 then 40 else if i = 11 then 16 else 0

/-- The second block is not readable. -/
def damagedImage (answer : Answer) : World where
  openSource := 1
  readBlock := fun k _ => if k = 0 then .ok twoBlocks else .error ⟨-1, by decide⟩
  newIfs := fun _ pos => if pos = 68 then .ignored else answer
  allocBuffer := true
  allocNode := fun _ _ => true
  allocContent := true

def newDirectory : Source := ⟨.directory, 0, .null, 0, 20, 0⟩

theorem newDirectory_unopened : Unopened newDirectory := ⟨rfl, fun _ => rfl⟩

/-- The second file is refused. -/
theorem refused_iff : NoTrace newDirectory (.returned (-2) newDirectory false) ↔
    Clean (damagedImage (.refused ⟨-2, by decide⟩)) newDirectory :=
  noTrace_iff _ _ 3 _ newDirectory_unopened rfl (show (-2 : Int) < 0 by decide)

/-- The freed list of children stays in the source. -/
theorem damagedImage_leaves_trace : ¬ ∀ w src n o, Unopened src → ifsOpen w src n = some o →
    o.Fails → NoTrace src o := by
  intro h
  have hrun : ifsOpen (damagedImage .child) newDirectory 3 =
      some (.returned (-1) ⟨.directory, 0, .chain [] true, 0, 20, 0⟩ false) := rfl
  have htrace := h _ _ 3 _ newDirectory_unopened hrun (show (-1 : Int) < 0 by decide)
  exact absurd htrace.noChildren (by simp [newDirectory, Content.null])

end Main

end FailedOpen
