import Libisofs.AclComesBack
import Libisofs.Lib.GuardedReads

/-!
# Removal of redundant entries from Access Control Lists

aaip_cleanout_st_mode() and aaip_add_acl_st_mode() of aaip_0_2.c, with each access to the memory
of the text. None is for an access behind the end of this memory.
-/

namespace AclCleanout

open AclText
open Texts (text strstr)
open GuardedReads (overwrite)

/-- The flag bits of aaip_cleanout_st_mode(), from bit0 to bit4. -/
structure CleanFlag where
  keep : Bool := false
  stopEarly : Bool := false
  updateMode : Bool := false
  updateText : Bool := false
  mapGroup : Bool := false

/-- !(flag & 15) -/
def CleanFlag.doCleanout (flag : CleanFlag) : Bool :=
  !(flag.keep || flag.stopEarly || flag.updateMode || flag.updateText)

section Reading

/-- strncmp(rpt, word, strlen(word)) == 0. It stops at the first byte which differs. -/
def startsBy : (word rpt : Bytes) → Option Bool
  | [], _ => some true
  | _ :: _, [] => none
  | w :: word, c :: rest => if c = w then startsBy word rest else some false

/-- The distance of the next newline character or of the end of the text. -/
def lineEnd : (rpt : Bytes) → Option Nat
  | [] => none
  | c :: rest => if c = newline ∨ c = 0 then some 0 else (lineEnd rest).map (· + 1)

def strlen : Bytes → Option Nat
  | [] => none
  | c :: rest => if c = 0 then some 0 else (strlen rest).map (· + 1)

/-- has_mask -/
def hasMask (buf : Bytes) : Option Bool := do
  if ← startsBy (text "mask:") buf then return true
  let _ ← strlen buf
  return (strstr (newline :: text "mask:") buf).isSome

/-- The three letters at cpt. -/
def readPerms (cpt : Bytes) : Option Perms := do
  let r ← cpt[0]?
  let w ← cpt[1]?
  let x ← cpt[2]?
  return ⟨r = 0x72, w = 0x77, x = 0x78⟩

/-- The bits of permissions in st_mode. -/
def permBits (perms : Perms) (shift : Nat) : Nat :=
  (if perms.r then 4 <<< shift else 0) ||| (if perms.w then 2 <<< shift else 0) |||
    (if perms.x then 1 <<< shift else 0)

/-- The three letters for a class of st_mode. -/
def modeText (stMode shift : Nat) : Bytes :=
  [if stMode &&& (4 <<< shift) ≠ 0 then 0x72 else 0x2d,
    if stMode &&& (2 <<< shift) ≠ 0 then 0x77 else 0x2d,
    if stMode &&& (1 <<< shift) ≠ 0 then 0x78 else 0x2d]

end Reading

section Lines

/-- What a line leads to: bits of tag_types, permissions for list_mode with their place there,
whether the line is skipped, and where letters get replaced by those for a class. -/
structure LineResult where
  tag : Nat
  update : Option (Perms × Nat) := none
  skip : Bool := false
  rewrite : Option (Nat × Nat) := none

variable (stMode : Nat) (mask : Bool) (flag : CleanFlag)

/-- A line of the types "user::", "group::" or "other::". -/
def classLine (rpt : Bytes) (offset shift complies deviates : Nat) : Option LineResult := do
  let perms ← readPerms (rpt.drop offset)
  if stMode &&& (7 <<< shift) = permBits perms shift &&& (7 <<< shift) then
    return { tag := complies, update := some (perms, shift), skip := true }
  return { tag := deviates, update := some (perms, shift),
           rewrite := if flag.updateText then some (offset, shift) else none }

/-- A line of type "mask::". -/
def maskLine (rpt : Bytes) (offset : Nat) : Option LineResult := do
  if flag.mapGroup then return { tag := 64 ||| 512 }
  let perms ← readPerms (rpt.drop offset)
  return { tag := 64 ||| 512, update := some (perms, 3),
           rewrite := if flag.updateText then some (offset, 3) else none }

/-- The analysis of the line at rpt. `len` is npt - rpt. The short form of "other::" is read by
the offset of the long form. -/
def lineResult (rpt : Bytes) (len : Nat) : Option LineResult := do
  if ← startsBy (text "user:") rpt then
    let c ← rpt[5]?
    if c = colon ∧ len = 9 then classLine stMode flag rpt 6 6 32 4
    else return { tag := 64 ||| 128 }
  else if ← startsBy (text "group:") rpt then
    let c ← rpt[6]?
    if c = colon ∧ len = 10 ∧ (flag.mapGroup ∨ !mask) then classLine stMode flag rpt 7 3 16 2
    else if c = colon ∧ len = 10 then return { tag := 1024 }
    else return { tag := 64 ||| 256 }
  else if (← startsBy (text "other::") rpt) ∧ len = 10 then classLine stMode flag rpt 7 0 8 1
  else if (← startsBy (text "other:") rpt) ∧ len = 9 then classLine stMode flag rpt 7 0 8 1
  else if (← startsBy (text "mask::") rpt) ∧ len = 9 then maskLine flag rpt 6
  else if (← startsBy (text "mask:") rpt) ∧ len = 8 then maskLine flag rpt 5
  else
    let c : UInt8 ← rpt[0]?
    return { tag := if c ≠ 0 then 64 else 0 }

end Lines

section Cleaning

/-- The variables of the loop. -/
structure Scan where
  buf : Bytes
  rpt : Nat
  wpt : Nat
  npt : Nat
  listMode : Nat
  tags : Nat

/-- list_mode= (list_mode & ~mask) | m -/
def updateMode (listMode : Nat) : Option (Perms × Nat) → Nat
  | none => listMode
  | some (perms, shift) => (listMode - (listMode &&& (7 <<< shift))) ||| permBits perms shift

variable (stMode : Nat) (mask : Bool) (flag : CleanFlag)

/-- The end of a turn of the loop, by which the line gets its place. -/
def placeLine (s : Scan) (start len : Nat) : Option Scan :=
  if s.wpt = start then some { s with wpt := start + len + 1 }
  else if flag.doCleanout then
    (overwrite s.buf s.wpt ((s.buf.drop start).take (len + 1))).map fun buf =>
      { s with buf := buf, wpt := s.wpt + (len + 1) }
  else some { s with wpt := s.wpt + (len + 1) }

/-- A turn of the loop, and whether it ends by goto ex. -/
def cleanTurn (s : Scan) : Option (Scan × Bool) := do
  let len ← lineEnd (s.buf.drop s.rpt)
  let r ← lineResult stMode mask flag (s.buf.drop s.rpt) len
  let s' := { s with rpt := s.rpt + len + 1, npt := s.rpt + len, tags := s.tags ||| r.tag,
                     listMode := updateMode s.listMode r.update }
  if r.skip then return (s', false)
  let buf ← match r.rewrite with
    | none => some s.buf
    | some (offset, shift) => overwrite s.buf (s.rpt + offset) (modeText stMode shift)
  if flag.stopEarly then return ({ s' with buf := buf }, true)
  let s'' ← placeLine flag { s' with buf := buf } s.rpt len
  return (s'', false)

def cleanLoop : (turns : Nat) → Scan → Option Scan
  | 0, _ => none
  | turns + 1, s => do
    let c ← s.buf[s.npt]?
    if c = 0 then return s
    let (s', ends) ← cleanTurn stMode mask flag s
    if ends then return s'
    cleanLoop turns s'

/-- The end mark of a text which got shorter. -/
def endText (s : Scan) : Option Bytes := do
  if !flag.doCleanout then return s.buf
  if s.wpt = 0 then overwrite s.buf 0 [0]
  else
    let c ← s.buf[s.wpt - 1]?
    if c ≠ 0 then overwrite s.buf s.wpt [0] else return s.buf

/-- The text in its memory, *in_st_mode, and the return value. -/
structure Cleanout where
  buf : Bytes
  stMode : Nat
  tagTypes : Nat
  deriving DecidableEq

end Cleaning

def aaipCleanoutStMode (buf : Bytes) (stMode : Nat) (flag : CleanFlag) : Option Cleanout := do
  let mask ← hasMask buf
  if mask && flag.stopEarly then return ⟨buf, stMode, 64 ||| 512⟩
  let s ← cleanLoop stMode mask flag (buf.length + 1) ⟨buf, 0, 0, 0, stMode, 0⟩
  let buf ← endText flag s
  return ⟨buf, if flag.updateMode then s.listMode else stMode, s.tags⟩

/-- sprintf() to the end of the text. -/
def sprintfToEnd (buf line : Bytes) : Option Bytes := do
  let length ← strlen buf
  overwrite buf length (line ++ [0])

/-- A line which gets written if tag_types does not tell of its kind. -/
def addLine (missing : Prop) [Decidable missing] (buf line : Bytes) : Option Bytes :=
  if missing then sprintfToEnd buf (line ++ [newline]) else some buf

def aaipAddAclStMode (buf : Bytes) (stMode : Nat) : Option Bytes := do
  let r ← aaipCleanoutStMode buf stMode { keep := true }
  let tagTypes := r.tagTypes
  let stMode := r.stMode
  let buf ← addLine (tagTypes &&& (4 ||| 32) = 0) r.buf (text "user::" ++ modeText stMode 6)
  let buf ← addLine (tagTypes &&& (2 ||| 16 ||| 1024) = 0) buf
    (text "group::" ++ modeText stMode 3)
  let buf ← addLine (tagTypes &&& (1 ||| 8) = 0) buf (text "other::" ++ modeText stMode 0)
  addLine (tagTypes &&& (128 ||| 256) ≠ 0 ∧ tagTypes &&& 512 = 0) buf
    (text "mask::" ++ modeText stMode 3)

/-- An entry whose line ends where it should. Names are not empty. -/
def LineOk : AclEntry → Prop
  | .user name _ | .group name _ => name ≠ [] ∧ ∀ c ∈ name, c ≠ colon ∧ c ≠ newline ∧ c ≠ 0
  | _ => True

/-- A text in which each entry has its own line. -/
def aclText (entries : List AclEntry) : Bytes := entries.flatMap AclEntry.line

/-- The entry tells nothing but what st_mode tells. -/
def redundant (stMode : Nat) (mask : Bool) : AclEntry → Bool
  | .userObj perms => perms = classPerms stMode 6
  | .groupObj perms => !mask && perms = classPerms stMode 3
  | .other perms => perms = classPerms stMode 0
  | _ => false

/-- The bits of tag_types for an entry. -/
def entryTag (stMode : Nat) (mask : Bool) : AclEntry → Nat
  | .userObj perms => if perms = classPerms stMode 6 then 32 else 4
  | .groupObj perms => if mask then 1024 else if perms = classPerms stMode 3 then 16 else 2
  | .other perms => if perms = classPerms stMode 0 then 8 else 1
  | .mask _ => 64 ||| 512
  | .user _ _ => 64 ||| 128
  | .group _ _ => 64 ||| 256

section Bits

variable {perms : Perms} {stMode shift k : Nat}

theorem testBit_seven : (7 <<< shift).testBit (shift + k) = decide (k < 3) := by
  have hseven : (7 : Nat) = 2 ^ 3 - 1 := rfl
  rw [Nat.testBit_shiftLeft, Nat.add_sub_cancel_left, hseven, Nat.testBit_two_pow_sub_one]
  simp

theorem testBit_permBits : (permBits perms shift).testBit (shift + k)
    = (k = 2 && perms.r || k = 1 && perms.w || k = 0 && perms.x) := by
  have hbit (b : Bool) (i : Nat) :
      (if b then 2 ^ i <<< shift else 0).testBit (shift + k) = (k = i && b) := by
    cases b with
    | false => simp
    | true => simp [Nat.testBit_shiftLeft, Nat.testBit_two_pow, eq_comm]
  rw [permBits, Nat.testBit_or, Nat.testBit_or]
  exact congrArg₂ _ (congrArg₂ _ (hbit perms.r 2) (hbit perms.w 1)) (hbit perms.x 0)

/-- The comparison of a class of st_mode with the permissions of an entry. -/
theorem class_eq_iff : stMode &&& (7 <<< shift) = permBits perms shift &&& (7 <<< shift) ↔
    perms = classPerms stMode shift := by
  have hbits : stMode &&& (7 <<< shift) = permBits perms shift &&& (7 <<< shift) ↔
      ∀ k < 3, stMode.testBit (shift + k) = (permBits perms shift).testBit (shift + k) := by
    constructor
    · intro h k hk
      have htest := congrArg (Nat.testBit · (shift + k)) h
      simp only [Nat.testBit_and, testBit_seven, decide_eq_true hk, Bool.and_true] at htest
      exact htest
    · intro h
      apply Nat.eq_of_testBit_eq
      intro i
      rw [Nat.testBit_and, Nat.testBit_and]
      by_cases hi : shift ≤ i
      · obtain ⟨k, rfl⟩ := Nat.exists_eq_add_of_le hi
        rw [testBit_seven]
        by_cases hk : k < 3
        · rw [h k hk]
        · simp [hk]
      · have hnone : (7 <<< shift).testBit i = false := by
          rw [Nat.testBit_shiftLeft]
          simp [hi]
        rw [hnone, Bool.and_false, Bool.and_false]
  rw [hbits]
  obtain ⟨r, w, x⟩ := perms
  constructor
  · intro h
    have h0 := h 0 (by decide)
    have h1 := h 1 (by decide)
    have h2 := h 2 (by decide)
    rw [testBit_permBits] at h0 h1 h2
    simp at h0 h1 h2
    simp [classPerms, h0, h1, h2]
  · intro h k hk
    obtain ⟨rfl, rfl, rfl⟩ : r = stMode.testBit (shift + 2) ∧ w = stMode.testBit (shift + 1) ∧
        x = stMode.testBit shift := by simpa [classPerms] using h
    rw [testBit_permBits]
    have hcases : k = 0 ∨ k = 1 ∨ k = 2 := by omega
    rcases hcases with rfl | rfl | rfl <;> simp

theorem modeText_eq : modeText stMode shift = (classPerms stMode shift).text := by
  have hbit (i : Nat) (a b : UInt8) : (if stMode &&& (2 ^ i <<< shift) ≠ 0 then a else b)
      = if stMode.testBit (shift + i) then a else b := by
    rw [← and_shiftLeft_ne_zero stMode i shift]
    simp
  rw [modeText, Perms.text, classPerms]
  exact congrArg₂ _ (hbit 2 _ _) (congrArg₂ _ (hbit 1 _ _) (congrArg₂ _ (hbit 0 _ _) rfl))

end Bits

section Entries

variable {entry : AclEntry} {rest : Bytes} {stMode : Nat} {mask : Bool} {flag : CleanFlag}

theorem core_chars (ok : LineOk entry) : ∀ c ∈ entry.core, c ≠ newline ∧ c ≠ 0 := by
  have htag : ∀ c ∈ entry.tag, c ≠ newline ∧ c ≠ 0 := by
    cases entry <;> simp only [AclEntry.tag] <;> decide +kernel
  have hperms : ∀ c ∈ entry.perms.text, c ≠ newline ∧ c ≠ 0 := by
    rw [Perms.text]
    cases entry.perms.r <;> cases entry.perms.w <;> cases entry.perms.x <;> decide +kernel
  have hname : ∀ c ∈ entry.qualifier, c ≠ newline ∧ c ≠ 0 := by
    cases entry with
    | user name perms => exact fun c hc => (ok.2 c hc).2
    | group name perms => exact fun c hc => (ok.2 c hc).2
    | _ => exact fun c hc => absurd hc List.not_mem_nil
  have hcolon : colon ≠ newline ∧ colon ≠ 0 := by decide
  intro c hc
  simp only [AclEntry.core, List.mem_append, List.mem_cons] at hc
  rcases hc with hc | rfl | hc | rfl | hc
  · exact htag c hc
  · exact hcolon
  · exact hname c hc
  · exact hcolon
  · exact hperms c hc

theorem lineEnd_skip {pre : Bytes} (h : ∀ c ∈ pre, c ≠ newline ∧ c ≠ 0) :
    lineEnd (pre ++ newline :: rest) = some pre.length := by
  induction pre with
  | nil => rfl
  | cons c pre ih =>
    have hc := h c List.mem_cons_self
    rw [List.cons_append, lineEnd, if_neg (not_or.mpr hc),
      ih fun d hd => h d (List.mem_cons_of_mem _ hd)]
    rfl

theorem strlen_skip {pre : Bytes} (h : ∀ c ∈ pre, c ≠ 0) :
    strlen (pre ++ 0 :: rest) = some pre.length := by
  induction pre with
  | nil => rfl
  | cons c pre ih =>
    rw [List.cons_append, strlen, if_neg (h c List.mem_cons_self),
      ih fun d hd => h d (List.mem_cons_of_mem _ hd)]
    rfl

theorem lineEnd_line (ok : LineOk entry) :
    lineEnd (entry.line ++ rest) = some entry.core.length := by
  rw [AclEntry.line, List.append_assoc]
  exact lineEnd_skip (core_chars ok)

/-- The analysis of a line, if neither st_mode nor the text shall be changed by it. -/
theorem lineResult_entry (ok : LineOk entry) (htext : flag.updateText = false)
    (hmap : flag.mapGroup = false) :
    ∃ update, lineResult stMode mask flag (entry.line ++ rest) entry.core.length =
      some ⟨entryTag stMode mask entry, update, redundant stMode mask entry, none⟩ := by
  have hclass (rpt : Bytes) (offset shift complies deviates : Nat) (perms : Perms)
      (hread : readPerms (rpt.drop offset) = some perms) :
      classLine stMode flag rpt offset shift complies deviates = some
        ⟨if perms = classPerms stMode shift then complies else deviates, some (perms, shift),
          perms = classPerms stMode shift, none⟩ := by
    rw [classLine, hread]
    by_cases heq : perms = classPerms stMode shift
    · simp [class_eq_iff, heq]
    · simp [class_eq_iff, heq, htext]
  have hperms (perms : Perms) (rest : Bytes) :
      readPerms (perms.text ++ newline :: rest) = some perms := by
    obtain ⟨r, w, x⟩ := perms
    cases r <;> cases w <;> cases x <;> rfl
  obtain ⟨keep, stopEarly, updateMode, updateText, mapGroup⟩ := flag
  obtain rfl : mapGroup = false := hmap
  cases entry with
  | userObj perms =>
    exact ⟨_, hclass ((AclEntry.userObj perms).line ++ rest) 6 6 32 4 perms (hperms perms rest)⟩
  | groupObj perms =>
    cases mask with
    | true => exact ⟨none, rfl⟩
    | false =>
      exact ⟨_, hclass ((AclEntry.groupObj perms).line ++ rest) 7 3 16 2 perms (hperms perms rest)⟩
  | other perms =>
    exact ⟨_, hclass ((AclEntry.other perms).line ++ rest) 7 0 8 1 perms (hperms perms rest)⟩
  | mask perms =>
    have hline : lineResult stMode mask ⟨keep, stopEarly, updateMode, updateText, false⟩
        ((AclEntry.mask perms).line ++ rest) 9
        = maskLine ⟨keep, stopEarly, updateMode, updateText, false⟩
            ((AclEntry.mask perms).line ++ rest) 6 := rfl
    refine ⟨some (perms, 3), hline.trans ?_⟩
    have hread : readPerms (((AclEntry.mask perms).line ++ rest).drop 6) = some perms :=
      hperms perms rest
    rw [maskLine, hread]
    obtain rfl : updateText = false := htext
    rfl
  | user name perms =>
    obtain ⟨hne, hchars⟩ := ok
    obtain ⟨c, name, rfl⟩ := List.exists_cons_of_ne_nil hne
    refine ⟨none, ?_⟩
    exact if_neg fun h => (hchars c List.mem_cons_self).1 h.1
  | group name perms =>
    obtain ⟨hne, hchars⟩ := ok
    obtain ⟨c, name, rfl⟩ := List.exists_cons_of_ne_nil hne
    refine ⟨none, ?_⟩
    have hc : c ≠ colon := (hchars c List.mem_cons_self).1
    exact (if_neg fun h => hc h.1).trans (if_neg fun h => hc h.1)

end Entries

end AclCleanout
