import Libisofs.AclRoundTrip
import Mathlib.Data.List.TakeWhile
import Mathlib.Data.Nat.Bitwise

/-!
# Access Control Lists which come back

The decoder on the records of the encoder. A list comes back with its missing entries if its
names are kept by their qualifier records, and if the multiplication by which the encoder asks
for execute permission gives the bit of st_mode.
-/

namespace AclText

open ByteBuffers (toMsb ofMsb length_toMsb ofMsb_toMsb_of_lt)
open Texts (text)

section Writing

def Writer.append (writer : Writer) (lines : Bytes) : Writer :=
  match writer with
  | .counted size => .counted (size + lines.length)
  | .produced written room => .produced (written ++ lines) (room - lines.length)

/-- There is room for the lines and for a 0 behind them. -/
def Writer.fits (lines : Bytes) : Writer → Prop
  | .counted _ => True
  | .produced _ room => lines.length < room

theorem Writer.append_nil (writer : Writer) : writer.append [] = writer := by
  cases writer <;> simp [Writer.append]

theorem Writer.append_append (writer : Writer) (a b : Bytes) :
    (writer.append a).append b = writer.append (a ++ b) := by
  cases writer with
  | counted size => simp [Writer.append, Nat.add_assoc]
  | produced written room => simp [Writer.append, Nat.sub_sub]

theorem Writer.fits_append {writer : Writer} {a b : Bytes} (h : writer.fits (a ++ b)) :
    writer.fits a ∧ (writer.append a).fits b := by
  cases writer with
  | counted size => exact ⟨trivial, trivial⟩
  | produced written room =>
    rw [Writer.fits, List.length_append] at h
    constructor
    · show a.length < room
      omega
    · show b.length < room - a.length
      omega

theorem aaipWriteAclLine_fits {writer : Writer} {tagType qualifier permissions : Bytes}
    (h : writer.fits (tagType ++ colon :: (qualifier ++ colon :: permissions) ++ [newline])) :
    aaipWriteAclLine writer tagType qualifier permissions =
      some (writer.append
        (tagType ++ colon :: (qualifier ++ colon :: permissions) ++ [newline])) := by
  have hline : tagType ++ colon :: qualifier ++ colon :: permissions ++ [newline] =
      tagType ++ colon :: (qualifier ++ colon :: permissions) ++ [newline] := by
    simp
  unfold aaipWriteAclLine
  simp only [hline]
  generalize tagType ++ colon :: (qualifier ++ colon :: permissions) ++ [newline] = line at h
  cases writer with
  | counted size => rfl
  | produced written room =>
    have hroom : ¬ line.length + 1 > room := Nat.not_lt.mpr h
    simp only [if_neg hroom]
    rfl

end Writing

section Bits

theorem aaipMakeAaipPerms_lt (perms : Perms) : aaipMakeAaipPerms perms < 8 := by
  obtain ⟨r, w, x⟩ := perms
  cases r <;> cases w <;> cases x <;> decide

/-- The tag byte tells type, qualifier bit and permissions. -/
theorem tagByte_tells {record : AclRecord} (perms : Perms)
    (hperms : record.perms = aaipMakeAaipPerms perms) (htype : record.tag.1 < 16) :
    (tagByte record).toNat / 16 = record.tag.1 ∧
      (tagByte record).toNat.testBit 3 = record.tag.2.isSome ∧
      permText (tagByte record).toNat = perms.text := by
  have hlt := aaipMakeAaipPerms_lt perms
  have hnat : (tagByte record).toNat =
      aaipMakeAaipPerms perms + (if record.tag.2.isSome then 8 else 0) + 16 * record.tag.1 := by
    rw [tagByte, hperms, UInt8.toNat_ofNat']
    apply Nat.mod_eq_of_lt
    split <;> omega
  rw [hnat]
  refine ⟨by split <;> omega, ?_, ?_⟩
  · rw [Nat.testBit_eq_decide_div_mod_eq]
    cases record.tag.2.isSome <;> simp <;> omega
  · have hbit (i : Nat) (hi : i < 3) : (aaipMakeAaipPerms perms +
        (if record.tag.2.isSome then 8 else 0) + 16 * record.tag.1).testBit i =
        (aaipMakeAaipPerms perms).testBit i := by
      have hsame : (aaipMakeAaipPerms perms + (if record.tag.2.isSome then 8 else 0) +
          16 * record.tag.1) / 2 ^ i % 2 = aaipMakeAaipPerms perms / 2 ^ i % 2 := by
        obtain rfl | rfl | rfl : i = 0 ∨ i = 1 ∨ i = 2 := by omega
        all_goals
          simp only [Nat.pow_zero, Nat.div_one, Nat.pow_one, show 2 ^ 2 = 4 from rfl]
          split <;> omega
      rw [Nat.testBit_eq_decide_div_mod_eq, Nat.testBit_eq_decide_div_mod_eq, hsame]
    rw [permText, hbit 2 (by decide), hbit 1 (by decide), hbit 0 (by decide)]
    obtain ⟨r, w, x⟩ := perms
    cases r <;> cases w <;> cases x <;> decide

theorem lt_idLength {turns id : Nat} (h : id < 256 ^ turns) :
    id < 256 ^ idLength turns id ∧ idLength turns id ≤ turns := by
  induction turns generalizing id with
  | zero => exact ⟨h, Nat.le_refl _⟩
  | succ turns ih =>
    rw [idLength]
    split
    · next hzero =>
      rw [hzero]
      exact ⟨by decide, Nat.zero_le _⟩
    · obtain ⟨hlt, hle⟩ := ih (show id / 256 < 256 ^ turns by rw [Nat.pow_succ] at h; omega)
      rw [Nat.pow_succ]
      omega

theorem idQualifier_spec {id : Nat} (h : id < 2 ^ 32) :
    ofMsb (idQualifier id) % 2 ^ 32 = id ∧ 0 < (idQualifier id).length ∧
      (idQualifier id).length ≤ 127 := by
  obtain ⟨hlt, hle⟩ := @lt_idLength 4 id h
  have hmax : id < 256 ^ max 1 (idLength 4 id) :=
    lt_of_lt_of_le hlt (Nat.pow_le_pow_right (by decide) (Nat.le_max_right _ _))
  rw [idQualifier, ofMsb_toMsb_of_lt hmax, length_toMsb]
  exact ⟨Nat.mod_eq_of_lt h, by omega, by omega⟩

theorem idOfName_lt {db : Database} {name : Bytes} {id : Nat} (h : idOfName db name = some id) :
    id < 2 ^ 32 := by
  rw [idOfName] at h
  cases hname : db.byName name with
  | some known =>
    simp only [hname, Option.some.injEq] at h
    exact h ▸ db.byName_lt _ _ hname
  | none =>
    simp only [hname] at h
    split at h
    · cases h
    · split at h
      · cases h
      · exact Option.some.inj h ▸ db.convert_lt _

end Bits

section Records

variable (accounts : Accounts) (numeric : Bool)

/-- The decoder gets the name which the encoder has got. Longer qualifier records than one of
127 bytes are not read back properly. -/
def NameKept (db : Database) (name : Bytes) : Prop :=
  if numeric then ∃ id, idOfName db name = some id ∧ nameOfId db id = name
  else name.length ≤ 127

def AclEntry.Kept : AclEntry → Prop
  | user name _ => NameKept numeric accounts.users name
  | group name _ => NameKept numeric accounts.groups name
  | _ => True

/-- A tag type with a line of its own. -/
def LineType (type : Nat) : Prop := type < 15 ∧ type ≠ 0 ∧ type ≠ switchMark

instance (type : Nat) : Decidable (LineType type) := inferInstanceAs (Decidable (_ ∧ _))

/-- A record of which the decoder makes the line of the entry. -/
structure TellsLine (record : AclRecord) (entry : AclEntry) : Prop where
  perms : record.perms = aaipMakeAaipPerms entry.perms
  type : LineType record.tag.1
  line : lineOfType accounts record.tag.1 (record.tag.2.getD []) = some (entry.tag, entry.qualifier)
  length : ∀ qualifier, record.tag.2 = some qualifier →
    0 < qualifier.length ∧ qualifier.length ≤ 127

variable {accounts numeric}

theorem cString_eq {name : Bytes} (h : NameOk name) : cString name = name := by
  rw [cString, List.takeWhile_eq_self_iff]
  intro c hc
  exact decide_eq_true (h.chars c hc).2.2

/-- The qualifier of a kept name, and what the decoder makes of it. -/
theorem exists_qualifier {db : Database} {name : Bytes} (hvalid : NameOk name)
    (hkept : NameKept numeric db name) :
    ∃ q, storedQualifier numeric db name = some q ∧ (0 < q.length ∧ q.length ≤ 127) ∧
      (if numeric then nameOfId db (ofMsb q % 2 ^ 32) else cString q) = name := by
  cases numeric with
  | false =>
    exact ⟨name, rfl, ⟨List.length_pos_iff.mpr hvalid.ne_nil, hkept⟩, cString_eq hvalid⟩
  | true =>
    obtain ⟨id, hid, hname⟩ : ∃ id, idOfName db name = some id ∧ nameOfId db id = name := hkept
    obtain ⟨hof, hlength⟩ := idQualifier_spec (idOfName_lt hid)
    refine ⟨idQualifier id, ?_, hlength, ?_⟩
    · rw [storedQualifier, if_pos rfl, hid]
      rfl
    · rw [if_pos rfl, hof, hname]

theorem exists_record {entry : AclEntry} (hvalid : entry.Valid)
    (hkept : entry.Kept accounts numeric) :
    ∃ record, recordOf accounts numeric entry = some record ∧ TellsLine accounts record entry := by
  have hplain {type : Nat} (htype : LineType type)
      (hline : lineOfType accounts type [] = some (entry.tag, entry.qualifier)) :
      TellsLine accounts ⟨(type, none), aaipMakeAaipPerms entry.perms⟩ entry :=
    ⟨rfl, htype, hline, fun q hq => nomatch hq⟩
  cases entry with
  | userObj perms => exact ⟨_, rfl, hplain (show LineType aclUserObj by decide) rfl⟩
  | groupObj perms => exact ⟨_, rfl, hplain (show LineType aclGroupObj by decide) rfl⟩
  | mask perms => exact ⟨_, rfl, hplain (show LineType aclMask by decide) rfl⟩
  | other perms => exact ⟨_, rfl, hplain (show LineType aclOther by decide) rfl⟩
  | user name perms =>
    obtain ⟨q, hstored, hlength, hname⟩ := exists_qualifier hvalid hkept
    refine ⟨⟨(if numeric then aclUserN else aclUser, some q), aaipMakeAaipPerms perms⟩, ?_, rfl,
      ?_, ?_, fun q' hq' => by cases hq'; exact hlength⟩
    · rw [recordOf, hstored]
      rfl
    · cases numeric
      · exact (show LineType aclUser by decide)
      · exact (show LineType aclUserN by decide)
    · cases numeric
      · exact congrArg (fun shown => some (text "user", shown)) hname
      · exact congrArg (fun shown => some (text "user", shown)) hname
  | group name perms =>
    obtain ⟨q, hstored, hlength, hname⟩ := exists_qualifier hvalid hkept
    refine ⟨⟨(if numeric then aclGroupN else aclGroup, some q), aaipMakeAaipPerms perms⟩, ?_, rfl,
      ?_, ?_, fun q' hq' => by cases hq'; exact hlength⟩
    · rw [recordOf, hstored]
      rfl
    · cases numeric
      · exact (show LineType aclGroup by decide)
      · exact (show LineType aclGroupN by decide)
    · cases numeric
      · exact congrArg (fun shown => some (text "group", shown)) hname
      · exact congrArg (fun shown => some (text "group", shown)) hname

theorem qualifierRecs_single {qualifier : Bytes} (hpos : 0 < qualifier.length)
    (hle : qualifier.length ≤ 127) :
    qualifierRecs qualifier = [UInt8.ofNat qualifier.length :: qualifier] := by
  have hone : numRecs qualifier.length = 1 := by
    rw [numRecs_succ hpos]
    omega
  have hlast : (if qualifier.length % 127 = 0 then 127 else qualifier.length % 127) =
      qualifier.length := by
    split <;> omega
  rw [qualifierRecs, hone]
  simp [hlast]

theorem aaipReadQualifier_single {qualifier : Bytes} (hle : qualifier.length ≤ 127)
    (rest : Bytes) {turns : Nat} (hturns : 0 < turns) :
    aaipReadQualifier (UInt8.ofNat qualifier.length :: qualifier ++ rest) turns 0 [] =
      some qualifier := by
  obtain ⟨turns, rfl⟩ := Nat.exists_eq_succ_of_ne_zero (Nat.pos_iff_ne_zero.mp hturns)
  have hnat : (UInt8.ofNat qualifier.length).toNat = qualifier.length := by
    rw [UInt8.toNat_ofNat']
    omega
  rw [aaipReadQualifier]
  simp only [List.cons_append, List.getElem?_cons_zero, hnat]
  have hmod : qualifier.length % 128 = qualifier.length := Nat.mod_eq_of_lt (by omega)
  rw [hmod, if_neg, if_pos (by omega)]
  · simp
  · simp only [List.length_nil, List.length_cons, List.length_append, nameSize]
    omega

/-- The decoder makes a line of a record. -/
theorem decodeLoop_record {record : AclRecord} {entry : AclEntry}
    (htells : TellsLine accounts record entry) {expectDefault : Bool} {turns : Nat} {rest : Bytes}
    {consumed : Nat} {writer : Writer} (hfits : writer.fits entry.line) :
    decodeLoop accounts expectDefault (turns + 1) (recordBytes record ++ rest) consumed writer =
      decodeLoop accounts expectDefault turns rest (consumed + (recordBytes record).length)
        (writer.append entry.line) := by
  obtain ⟨hperms, ⟨hlt, hnonzero, hswitch⟩, hline, hlength⟩ := htells
  obtain ⟨htype, hbit, htext⟩ := tagByte_tells entry.perms hperms (by omega)
  have hwrite : aaipWriteAclLine writer entry.tag entry.qualifier entry.perms.text =
      some (writer.append entry.line) := aaipWriteAclLine_fits hfits
  have hversion : ¬ record.tag.1 = futureVersion := by
    have : futureVersion = 15 := rfl
    omega
  obtain ⟨⟨type, qualifier⟩, perms⟩ := record
  cases qualifier with
  | none =>
    have hbytes : recordBytes ⟨(type, none), perms⟩ = [tagByte ⟨(type, none), perms⟩] := rfl
    rw [hbytes, List.singleton_append, decodeLoop]
    simp only [htype, hbit, htext, Option.isSome_none, Bool.false_eq_true, if_false,
      if_neg hversion, if_neg hnonzero, if_neg hswitch]
    rw [Option.getD_none] at hline ⊢
    simp only [hline, hwrite, List.drop_zero, Nat.add_zero, List.length_singleton]
  | some qualifier =>
    obtain ⟨hpos, hle⟩ := hlength qualifier rfl
    have hbytes : recordBytes ⟨(type, some qualifier), perms⟩ ++ rest =
        tagByte ⟨(type, some qualifier), perms⟩ ::
          (UInt8.ofNat qualifier.length :: qualifier ++ rest) := by
      rw [recordBytes, Option.elim_some, qualifierRecs_single hpos hle]
      simp
    have hsize : (recordBytes ⟨(type, some qualifier), perms⟩).length =
        1 + (qualifier.length + 1) := by
      rw [recordBytes, Option.elim_some, qualifierRecs_single hpos hle]
      simp
      omega
    have hread := @aaipReadQualifier_single qualifier hle rest
      (UInt8.ofNat qualifier.length :: qualifier ++ rest).length (by simp)
    have hdrop : (UInt8.ofNat qualifier.length :: qualifier ++ rest).drop (qualifier.length + 1) =
        rest := List.drop_left' (by simp)
    rw [hbytes, hsize, decodeLoop]
    simp only [htype, hbit, htext, Option.isSome_some, if_true, hread, Option.map_some,
      if_neg hversion, if_neg hnonzero, if_neg hswitch, Option.getD_some, hdrop] at hline ⊢
    simp only [hline, hwrite, Nat.add_assoc]

/-- The lines of entries with kept names come from their records. -/
theorem decodeLoop_records {entries : List AclEntry} (hvalid : ∀ entry ∈ entries, entry.Valid)
    (hkept : ∀ entry ∈ entries, entry.Kept accounts numeric) (expectDefault : Bool)
    (turns : Nat) (rest : Bytes) (consumed : Nat) {writer : Writer}
    (hfits : writer.fits (entries.flatMap AclEntry.line)) :
    decodeLoop accounts expectDefault (entries.length + turns)
      ((entries.filterMap (recordOf accounts numeric)).flatMap recordBytes ++ rest) consumed
      writer =
      decodeLoop accounts expectDefault turns rest
        (consumed + ((entries.filterMap (recordOf accounts numeric)).flatMap recordBytes).length)
        (writer.append (entries.flatMap AclEntry.line)) := by
  induction entries generalizing consumed writer with
  | nil => simp [Writer.append_nil]
  | cons entry entries ih =>
    obtain ⟨record, hrecord, htells⟩ :=
      exists_record (hvalid entry List.mem_cons_self) (hkept entry List.mem_cons_self)
    rw [List.flatMap_cons] at hfits
    obtain ⟨hline, hlines⟩ := Writer.fits_append hfits
    have hrest := ih (fun e he => hvalid e (List.mem_cons_of_mem _ he))
      (fun e he => hkept e (List.mem_cons_of_mem _ he))
      (consumed + (recordBytes record).length) hlines
    rw [List.filterMap_cons_some hrecord, List.flatMap_cons, List.flatMap_cons, List.append_assoc,
      List.length_cons, Nat.add_right_comm, decodeLoop_record htells hline, hrest,
      Writer.append_append, List.length_append, Nat.add_assoc]

theorem length_le_records {entries : List AclEntry} (hvalid : ∀ entry ∈ entries, entry.Valid)
    (hkept : ∀ entry ∈ entries, entry.Kept accounts numeric) :
    entries.length ≤
      ((entries.filterMap (recordOf accounts numeric)).flatMap recordBytes).length := by
  induction entries with
  | nil => exact Nat.zero_le _
  | cons entry entries ih =>
    obtain ⟨record, hrecord, -⟩ :=
      exists_record (hvalid entry List.mem_cons_self) (hkept entry List.mem_cons_self)
    have hrest := ih (fun e he => hvalid e (List.mem_cons_of_mem _ he))
      (fun e he => hkept e (List.mem_cons_of_mem _ he))
    rw [List.filterMap_cons_some hrecord, List.flatMap_cons, List.length_append, recordBytes,
      List.length_cons, List.length_cons]
    omega

end Records

section Missing

namespace AclEntry

def isUserObj : AclEntry → Bool
  | userObj _ => true
  | _ => false

def isGroupObj : AclEntry → Bool
  | groupObj _ => true
  | _ => false

def isOther : AclEntry → Bool
  | other _ => true
  | _ => false

def isMask : AclEntry → Bool
  | mask _ => true
  | _ => false

def isNamed : AclEntry → Bool
  | user _ _ | group _ _ => true
  | _ => false

end AclEntry

/-- The mandatory entries which are missing, with the permissions of the classes of user, group
and others. A mask is mandatory if there are entries with names. -/
def missingEntries (entries : List AclEntry) (user group other : Perms) : List AclEntry :=
  (if entries.any AclEntry.isUserObj then [] else [.userObj user]) ++
  (if entries.any AclEntry.isGroupObj then [] else [.groupObj group]) ++
  (if entries.any AclEntry.isOther then [] else [.other other]) ++
  (if !entries.any AclEntry.isNamed || entries.any AclEntry.isMask then [] else [.mask group])

/-- The permissions which st_mode has for a class. -/
def classPerms (stMode shift : Nat) : Perms :=
  ⟨stMode.testBit (shift + 2), stMode.testBit (shift + 1), stMode.testBit shift⟩

theorem foldl_see (entries : List AclEntry) (scan : AclScan) :
    entries.foldl AclScan.see scan =
      ⟨scan.hasU || entries.any AclEntry.isUserObj, scan.hasG || entries.any AclEntry.isGroupObj,
        scan.hasO || entries.any AclEntry.isOther, scan.hasM || entries.any AclEntry.isMask,
        scan.isTrivial && !entries.any AclEntry.isNamed⟩ := by
  induction entries generalizing scan with
  | nil => simp
  | cons entry rest ih =>
    rw [List.foldl_cons, ih]
    cases entry <;>
      simp [AclScan.see, AclEntry.isUserObj, AclEntry.isGroupObj, AclEntry.isOther,
        AclEntry.isMask, AclEntry.isNamed]

theorem missingRecords_eq (accounts : Accounts) (numeric : Bool) (entries : List AclEntry)
    (stMode : Nat) :
    (missingRecords stMode (entries.foldl AclScan.see .start)).map tagByte =
      ((missingEntries entries (modePerms stMode 6) (modePerms stMode 3)
        (modePerms stMode 0)).filterMap (recordOf accounts numeric)).flatMap recordBytes := by
  rw [foldl_see, missingRecords, missingEntries]
  simp only [AclScan.start, Bool.false_or, Bool.true_and]
  cases entries.any AclEntry.isUserObj <;> cases entries.any AclEntry.isGroupObj <;>
    cases entries.any AclEntry.isOther <;> cases entries.any AclEntry.isNamed <;>
    cases entries.any AclEntry.isMask <;> rfl

theorem missingEntries_kept {accounts : Accounts} {numeric : Bool} {entries : List AclEntry}
    {user group other : Perms} :
    ∀ entry ∈ missingEntries entries user group other,
      entry.Valid ∧ entry.Kept accounts numeric := by
  intro entry hentry
  simp only [missingEntries, List.mem_append] at hentry
  rcases hentry with ((h | h) | h) | h
  all_goals
    split at h
    · cases h
    · rw [List.mem_singleton.mp h]
      exact ⟨trivial, trivial⟩

/-- The multiplication tells the execute permission. -/
def XRight (stMode shift : Nat) : Prop :=
  stMode * 2 ^ shift % 2 ^ 32 ≠ 0 ↔ stMode.testBit shift = true

/-- The execute permission is right wherever st_mode is asked for it. -/
structure ModeTells (stMode : Nat) (entries : List AclEntry) : Prop where
  user : entries.any AclEntry.isUserObj = false → XRight stMode 6
  group : entries.any AclEntry.isGroupObj = false → XRight stMode 3
  other : entries.any AclEntry.isOther = false → XRight stMode 0
  mask : entries.any AclEntry.isNamed = true → entries.any AclEntry.isMask = false → XRight stMode 3

theorem and_shiftLeft_ne_zero (n i shift : Nat) :
    decide (n &&& (2 ^ i <<< shift) ≠ 0) = n.testBit (shift + i) := by
  rw [Nat.shiftLeft_eq, ← Nat.pow_add, Nat.add_comm i, Nat.and_two_pow]
  cases n.testBit (shift + i) with
  | false => simp
  | true =>
    have hpos : 0 < 2 ^ (shift + i) := Nat.two_pow_pos _
    simp

theorem modePerms_eq_iff {stMode shift : Nat} :
    modePerms stMode shift = classPerms stMode shift ↔ XRight stMode shift := by
  have hr := and_shiftLeft_ne_zero stMode 2 shift
  have hw := and_shiftLeft_ne_zero stMode 1 shift
  have hone : 1 <<< shift = 2 ^ shift := by rw [Nat.shiftLeft_eq, Nat.one_mul]
  rw [modePerms, classPerms, Perms.mk.injEq, XRight, hone]
  constructor
  · rintro ⟨-, -, hx⟩
    rw [← hx]
    simp
  · intro hx
    refine ⟨hr, hw, ?_⟩
    rw [Bool.eq_iff_iff, decide_eq_true_eq]
    exact hx

theorem perms_text_injective {p q : Perms} (h : p.text = q.text) : p = q := by
  obtain ⟨r, w, x⟩ := p
  obtain ⟨r', w', x'⟩ := q
  revert h
  cases r <;> cases w <;> cases x <;> cases r' <;> cases w' <;> cases x' <;> decide

theorem perms_of_line {a b : AclEntry} (htag : a.tag = b.tag) (hq : a.qualifier = b.qualifier)
    (h : a.line = b.line) : a.perms = b.perms := by
  rw [AclEntry.line, AclEntry.line, AclEntry.core, AclEntry.core, htag, hq] at h
  have hcore := List.append_cancel_right h
  have hrest := List.cons.inj (List.append_cancel_left hcore)
  exact perms_text_injective (List.cons.inj (List.append_cancel_left hrest.2)).2

/-- The lines of the missing entries tell the permissions. -/
theorem missing_lines_inj {entries : List AclEntry} {u g o u' g' o' : Perms}
    (h : (missingEntries entries u g o).flatMap AclEntry.line =
      (missingEntries entries u' g' o').flatMap AclEntry.line) :
    (entries.any AclEntry.isUserObj = false → u = u') ∧
    (entries.any AclEntry.isGroupObj = false → g = g') ∧
    (entries.any AclEntry.isOther = false → o = o') ∧
    (entries.any AclEntry.isNamed = true → entries.any AclEntry.isMask = false → g = g') := by
  simp only [missingEntries, List.flatMap_append] at h
  have hlen (b : Bool) (e e' : AclEntry) (htag : e.tag = e'.tag)
      (hq : e.qualifier = e'.qualifier) :
      ((if b then [] else [e]).flatMap AclEntry.line).length =
        ((if b then [] else [e']).flatMap AclEntry.line).length := by
    cases b with
    | true => rfl
    | false => simp [AclEntry.line, length_core, htag, hq]
  have hinj {b : Bool} (e e' : AclEntry) (htag : e.tag = e'.tag)
      (hq : e.qualifier = e'.qualifier) (hb : b = false)
      (hsame : (if b then [] else [e]).flatMap AclEntry.line =
        (if b then [] else [e']).flatMap AclEntry.line) : e.perms = e'.perms := by
    rw [hb] at hsame
    simp only [Bool.false_eq_true, if_false, List.flatMap_singleton] at hsame
    exact perms_of_line htag hq hsame
  obtain ⟨h, hmask⟩ := List.append_inj' h (hlen _ (.mask g) (.mask g') rfl rfl)
  obtain ⟨h, hother⟩ := List.append_inj' h (hlen _ (.other o) (.other o') rfl rfl)
  obtain ⟨huser, hgroup⟩ := List.append_inj' h (hlen _ (.groupObj g) (.groupObj g') rfl rfl)
  refine ⟨fun hb => hinj (.userObj u) (.userObj u') rfl rfl hb huser,
    fun hb => hinj (.groupObj g) (.groupObj g') rfl rfl hb hgroup,
    fun hb => hinj (.other o) (.other o') rfl rfl hb hother,
    fun hnamed hb => hinj (.mask g) (.mask g') rfl rfl ?_ hmask⟩
  rw [hnamed, hb]
  rfl

theorem modeTells_iff {stMode : Nat} {entries : List AclEntry} :
    (missingEntries entries (modePerms stMode 6) (modePerms stMode 3)
      (modePerms stMode 0)).flatMap AclEntry.line =
      (missingEntries entries (classPerms stMode 6) (classPerms stMode 3)
        (classPerms stMode 0)).flatMap AclEntry.line ↔ ModeTells stMode entries := by
  constructor
  · intro h
    obtain ⟨hu, hg, ho, hm⟩ := missing_lines_inj h
    exact ⟨fun hb => modePerms_eq_iff.mp (hu hb), fun hb => modePerms_eq_iff.mp (hg hb),
      fun hb => modePerms_eq_iff.mp (ho hb), fun hn hb => modePerms_eq_iff.mp (hm hn hb)⟩
  · rintro ⟨hu, hg, ho, hm⟩
    have hif {b : Bool} {e e' : AclEntry} (hsame : b = false → e = e') :
        (if b then [] else [e]) = if b then [] else [e'] := by
      cases b with
      | true => rfl
      | false => rw [hsame rfl]
    have hmask : (!entries.any AclEntry.isNamed || entries.any AclEntry.isMask) = false →
        AclEntry.mask (modePerms stMode 3) = .mask (classPerms stMode 3) := by
      intro hb
      simp only [Bool.or_eq_false_iff, Bool.not_eq_false'] at hb
      rw [modePerms_eq_iff.mpr (hm hb.1 hb.2)]
    have huser := hif fun hb => congrArg AclEntry.userObj (modePerms_eq_iff.mpr (hu hb))
    have hgroup := hif fun hb => congrArg AclEntry.groupObj (modePerms_eq_iff.mpr (hg hb))
    have hother := hif fun hb => congrArg AclEntry.other (modePerms_eq_iff.mpr (ho hb))
    rw [missingEntries, missingEntries, huser, hgroup, hother, hif hmask]

end Missing

section RoundTrip

variable (accounts : Accounts) (numeric complete : Bool) (stMode : Nat)

/-- Both passes of the decoder, of which the second one has room for the counted text. -/
def Decodes (data lines : Bytes) (ended : DecodeEnd) (consumed : Nat) : Prop :=
  aaipDecodeAcl accounts data (.counted 0) false = .ok (ended, consumed, .counted lines.length) ∧
  aaipDecodeAcl accounts data (.produced [] (lines.length + 1)) false =
    .ok (ended, consumed, .produced lines 1)

/-- The pass which produces delivers as many bytes as the other pass has counted. -/
def PredictsSize (acl : Bytes) (flag : AclFlag) : Prop :=
  ∃ counted out, aaipEncodeAclText accounts acl stMode none flag = .ok counted ∧
    aaipEncodeAclText accounts acl stMode (some counted.count) flag = .ok out ∧
    out.result.length = counted.count

/-- The entries of the access list, with the missing ones as st_mode tells them. -/
def completed (list : AclList) : List AclEntry :=
  list.entries ++ if complete then missingEntries list.entries (classPerms stMode 6)
    (classPerms stMode 3) (classPerms stMode 0) else []

/-- The lists come back from the value which aaip_encode_both_acl() makes of them. -/
def ComesBack (access default : Option AclList) : Prop :=
  (∀ list, access = some list →
    PredictsSize accounts stMode list.text ⟨numeric, false, complete⟩) ∧
  (∀ list, default = some list → PredictsSize accounts 0 list.text ⟨numeric, true, false⟩) ∧
  ∃ acl consumed, aaipEncodeBothAcl accounts (access.map AclList.text) (default.map AclList.text)
      stMode numeric complete = .ok acl ∧
    Decodes accounts (acl.getD [])
      ((access.elim [] (completed complete stMode)).flatMap AclEntry.line)
      (if default.isSome then .switched else .complete) consumed ∧
    ∀ list, default = some list →
      ∃ n, Decodes accounts ((acl.getD []).drop consumed) (list.entries.flatMap AclEntry.line)
        .complete n

/-- All names are kept by their qualifier records. -/
def NamesKept (list : AclList) : Prop := ∀ entry ∈ list.entries, entry.Kept accounts numeric

variable {accounts numeric complete stMode}

theorem Decodes.unique {data a b : Bytes} {ea eb : DecodeEnd} {na nb : Nat}
    (ha : Decodes accounts data a ea na) (hb : Decodes accounts data b eb nb) : a = b := by
  have hcount := ha.1.symm.trans hb.1
  simp only [Except.ok.injEq, Prod.mk.injEq, Writer.counted.injEq] at hcount
  have hproduce := ha.2
  rw [hcount.2.2, hb.2] at hproduce
  simp only [Except.ok.injEq, Prod.mk.injEq, Writer.produced.injEq] at hproduce
  exact hproduce.2.2.1.symm

/-- The bytes for entries. -/
def bytesOf (accounts : Accounts) (numeric : Bool) (entries : List AclEntry) : Bytes :=
  (entries.filterMap (recordOf accounts numeric)).flatMap recordBytes

def markByte : UInt8 := UInt8.ofNat (16 * switchMark + 1)

theorem decodeLoop_end {expectDefault : Bool} (turns consumed : Nat) (writer : Writer) :
    decodeLoop accounts expectDefault turns [] consumed writer =
      .ok (.complete, consumed, writer) := by
  cases turns <;> rfl

theorem decodeLoop_mark (turns consumed : Nat) (rest : Bytes) (writer : Writer) :
    decodeLoop accounts false (turns + 1) (markByte :: rest) consumed writer =
      .ok (.switched, consumed + 1, writer) := rfl

theorem decodeLoop_entries {entries : List AclEntry} (hvalid : ∀ entry ∈ entries, entry.Valid)
    (hkept : ∀ entry ∈ entries, entry.Kept accounts numeric) (tail : Bytes) (writer : Writer)
    (hfits : writer.fits (entries.flatMap AclEntry.line)) :
    ∃ turns, tail.length ≤ turns ∧
      aaipDecodeAcl accounts (bytesOf accounts numeric entries ++ tail) writer false =
        decodeLoop accounts false turns tail (bytesOf accounts numeric entries).length
          (writer.append (entries.flatMap AclEntry.line)) := by
  have hle : entries.length ≤ (bytesOf accounts numeric entries).length :=
    length_le_records hvalid hkept
  have hlonger : entries.length ≤ (bytesOf accounts numeric entries ++ tail).length := by
    rw [List.length_append]
    omega
  obtain ⟨turns, hturns⟩ := Nat.exists_eq_add_of_le hlonger
  refine ⟨turns, ?_, ?_⟩
  · rw [List.length_append] at hturns
    omega
  · have hdecode := decodeLoop_records hvalid hkept false turns tail 0 hfits
    rw [Nat.zero_add] at hdecode
    rw [aaipDecodeAcl, hturns]
    exact hdecode

/-- What the decoder makes of the bytes for entries, up to their end or to a switch mark. -/
theorem decodes_entries {entries : List AclEntry} (hvalid : ∀ entry ∈ entries, entry.Valid)
    (hkept : ∀ entry ∈ entries, entry.Kept accounts numeric) :
    Decodes accounts (bytesOf accounts numeric entries) (entries.flatMap AclEntry.line) .complete
      (bytesOf accounts numeric entries).length ∧
    ∀ rest, Decodes accounts (bytesOf accounts numeric entries ++ markByte :: rest)
      (entries.flatMap AclEntry.line) .switched
      ((bytesOf accounts numeric entries).length + 1) := by
  have hroom : (Writer.produced [] ((entries.flatMap AclEntry.line).length + 1)).fits
      (entries.flatMap AclEntry.line) := Nat.lt_succ_self _
  have hcounted : (Writer.counted 0).append (entries.flatMap AclEntry.line) =
      .counted (entries.flatMap AclEntry.line).length := by
    rw [Writer.append, Nat.zero_add]
  have hproduced : (Writer.produced [] ((entries.flatMap AclEntry.line).length + 1)).append
      (entries.flatMap AclEntry.line) = .produced (entries.flatMap AclEntry.line) 1 := by
    rw [Writer.append, List.nil_append, Nat.add_sub_cancel_left]
  constructor
  · constructor
    · obtain ⟨turns, -, hdecode⟩ := decodeLoop_entries hvalid hkept [] (.counted 0) trivial
      rw [List.append_nil, decodeLoop_end, hcounted] at hdecode
      exact hdecode
    · obtain ⟨turns, -, hdecode⟩ := decodeLoop_entries hvalid hkept [] _ hroom
      rw [List.append_nil, decodeLoop_end, hproduced] at hdecode
      exact hdecode
  · intro rest
    constructor
    · obtain ⟨turns, hturns, hdecode⟩ :=
        decodeLoop_entries hvalid hkept (markByte :: rest) (.counted 0) trivial
      obtain ⟨turns, rfl⟩ := Nat.exists_eq_add_of_lt (show 0 < turns by
        rw [List.length_cons] at hturns
        omega)
      rw [Nat.zero_add, decodeLoop_mark, hcounted] at hdecode
      exact hdecode
    · obtain ⟨turns, hturns, hdecode⟩ := decodeLoop_entries hvalid hkept (markByte :: rest) _ hroom
      obtain ⟨turns, rfl⟩ := Nat.exists_eq_add_of_lt (show 0 < turns by
        rw [List.length_cons] at hturns
        omega)
      rw [Nat.zero_add, decodeLoop_mark, hproduced] at hdecode
      exact hdecode

/-- What the encoder writes for the list, as entries. -/
def written (complete : Bool) (stMode : Nat) (list : AclList) : List AclEntry :=
  list.entries ++ if complete then missingEntries list.entries (modePerms stMode 6)
    (modePerms stMode 3) (modePerms stMode 0) else []

theorem scan_list {list : AclList} (hkept : NamesKept accounts numeric list) :
    scanRecords accounts numeric list.text.length list.text .start =
      .ok (list.entries.foldl AclScan.see .start,
        list.entries.filterMap (recordOf accounts numeric)) := by
  refine scanRecords_textOf list.valid (fun entry _ => ?_) list.nodup_single
    (fun entry hentry => ?_)
    (Nat.le_refl _)
  · cases entry <;> rfl
  · obtain ⟨record, hrecord, -⟩ := exists_record (list.valid entry hentry) (hkept entry hentry)
    rw [hrecord]
    rfl

theorem encodedBytes_list (list : AclList) (isDefault : Bool) :
    encodedBytes stMode ⟨numeric, isDefault, complete⟩ (list.entries.foldl AclScan.see .start)
      (list.entries.filterMap (recordOf accounts numeric)) =
      (if isDefault then [markByte] else []) ++
        bytesOf accounts numeric (written complete stMode list) := by
  rw [encodedBytes, bytesOf, written, List.filterMap_append, List.flatMap_append, List.append_assoc]
  cases complete with
  | false => rfl
  | true =>
    simp only [if_true]
    rw [missingRecords_eq accounts numeric]
    rfl

theorem encode_list {list : AclList} (hkept : NamesKept accounts numeric list)
    (stMode : Nat) (isDefault complete : Bool) :
    aaipEncodeAcl accounts list.text stMode ⟨numeric, isDefault, complete⟩ =
      .ok ((if isDefault then [markByte] else []) ++
        bytesOf accounts numeric (written complete stMode list)) := by
  rw [← encodedBytes_list, aaipEncodeAcl_eq (scan_list hkept)]

theorem predictsSize_list {list : AclList} (hkept : NamesKept accounts numeric list)
    (isDefault : Bool) :
    PredictsSize accounts stMode list.text ⟨numeric, isDefault, complete⟩ :=
  ⟨_, _, aaipEncodeAclText_count (scan_list hkept), aaipEncodeAclText_produce (scan_list hkept),
    rfl⟩

theorem written_kept {list : AclList} (hkept : NamesKept accounts numeric list) :
    ∀ entry ∈ written complete stMode list, entry.Valid ∧ entry.Kept accounts numeric := by
  intro entry hentry
  rcases List.mem_append.mp hentry with h | h
  · exact ⟨list.valid entry h, hkept entry h⟩
  · cases complete with
    | false => cases h
    | true => exact missingEntries_kept entry h

/-- The value for both lists. -/
theorem encodeBoth_lists (stMode : Nat) (complete : Bool) {access default : Option AclList}
    (haccess : ∀ list, access = some list → NamesKept accounts numeric list)
    (hdefault : ∀ list, default = some list → NamesKept accounts numeric list) :
    ∃ acl, aaipEncodeBothAcl accounts (access.map AclList.text) (default.map AclList.text)
        stMode numeric complete = .ok acl ∧
      acl.getD [] = bytesOf accounts numeric (access.elim [] (written complete stMode)) ++
        default.elim [] fun list => markByte :: bytesOf accounts numeric list.entries := by
  have hplain (list : AclList) : written false 0 list = list.entries := List.append_nil _
  cases access with
  | none =>
    cases default with
    | none => exact ⟨none, rfl, rfl⟩
    | some d =>
      refine ⟨some (markByte :: bytesOf accounts numeric d.entries), ?_, rfl⟩
      simp only [aaipEncodeBothAcl, Option.map_some, Option.map_none, Option.getD_none, if_true,
        encode_list (hdefault d rfl) 0 true false, hplain]
      rfl
  | some a =>
    have ha := encode_list (haccess a rfl) stMode false complete
    simp only [Bool.false_eq_true, if_false, List.nil_append] at ha
    cases default with
    | none =>
      by_cases hnil : bytesOf accounts numeric (written complete stMode a) = []
      · refine ⟨none, ?_, by simp [hnil]⟩
        simp [aaipEncodeBothAcl, ha, hnil, Except.map]
      · refine ⟨some (bytesOf accounts numeric (written complete stMode a)), ?_, by simp⟩
        simp [aaipEncodeBothAcl, ha, hnil, Except.map]
    | some d =>
      have hd := encode_list (hdefault d rfl) 0 true false
      simp only [if_true, hplain, List.singleton_append] at hd
      by_cases hnil : bytesOf accounts numeric (written complete stMode a) = []
      · refine ⟨some (markByte :: bytesOf accounts numeric d.entries), ?_, by simp [hnil]⟩
        simp [aaipEncodeBothAcl, ha, hd, hnil, Except.map]
      · refine ⟨some (bytesOf accounts numeric (written complete stMode a) ++
          markByte :: bytesOf accounts numeric d.entries), ?_, by simp⟩
        simp [aaipEncodeBothAcl, ha, hd, hnil, Except.map]

/-- Lists with kept names come back if and only if st_mode tells the execute permissions of
the missing entries in the way in which the encoder asks for them. -/
theorem comes_back_iff {access default : Option AclList}
    (haccess : ∀ list, access = some list → NamesKept accounts numeric list)
    (hdefault : ∀ list, default = some list → NamesKept accounts numeric list) :
    ComesBack accounts numeric complete stMode access default ↔
      (complete = true → ∀ list, access = some list → ModeTells stMode list.entries) := by
  obtain ⟨acl, hacl, hbytes⟩ := encodeBoth_lists stMode complete haccess hdefault
  have hall : ∀ entry ∈ access.elim [] (written complete stMode),
      entry.Valid ∧ entry.Kept accounts numeric := by
    cases access with
    | none => exact fun entry h => nomatch h
    | some list => exact written_kept (haccess list rfl)
  obtain ⟨hend, hswitch⟩ := decodes_entries (fun e he => (hall e he).1) (fun e he => (hall e he).2)
  have hdecodes : ∃ consumed, Decodes accounts (acl.getD [])
      ((access.elim [] (written complete stMode)).flatMap AclEntry.line)
      (if default.isSome then .switched else .complete) consumed ∧
      ∀ list, default = some list → ∃ n, Decodes accounts ((acl.getD []).drop consumed)
        (list.entries.flatMap AclEntry.line) .complete n := by
    rw [hbytes]
    cases default with
    | none =>
      refine ⟨(bytesOf accounts numeric (access.elim [] (written complete stMode))).length, ?_,
        fun list hlist => nomatch hlist⟩
      rw [Option.elim_none, List.append_nil]
      exact hend
    | some d =>
      refine ⟨_, hswitch (bytesOf accounts numeric d.entries), fun list hlist => ?_⟩
      cases hlist
      have hdrop : (bytesOf accounts numeric (access.elim [] (written complete stMode)) ++
          markByte :: bytesOf accounts numeric d.entries).drop
          ((bytesOf accounts numeric (access.elim [] (written complete stMode))).length + 1) =
          bytesOf accounts numeric d.entries := by
        rw [← List.drop_drop, List.drop_left]
        rfl
      refine ⟨(bytesOf accounts numeric d.entries).length, ?_⟩
      rw [Option.elim_some, hdrop]
      exact (decodes_entries d.valid (hdefault d rfl)).1
  obtain ⟨consumed, hread, hreadDefault⟩ := hdecodes
  have hlines : (access.elim [] (written complete stMode)).flatMap AclEntry.line =
      (access.elim [] (completed complete stMode)).flatMap AclEntry.line ↔
      (complete = true → ∀ list, access = some list → ModeTells stMode list.entries) := by
    cases access with
    | none => exact iff_of_true rfl fun _ list hlist => nomatch hlist
    | some a =>
      cases complete with
      | false => exact iff_of_true rfl fun h => nomatch h
      | true =>
        rw [Option.elim_some, Option.elim_some, written, completed, List.flatMap_append,
          List.flatMap_append, List.append_cancel_left_eq]
        simp only [if_true]
        rw [modeTells_iff]
        constructor
        · rintro h - list hlist
          cases hlist
          exact h
        · exact fun h => h trivial a rfl
  rw [← hlines]
  constructor
  · rintro ⟨-, -, acl', consumed', hacl', hread', -⟩
    rw [hacl] at hacl'
    cases hacl'
    exact hread.unique hread'
  · intro hsame
    refine ⟨fun list hlist => predictsSize_list (haccess list hlist) false,
      fun list hlist => predictsSize_list (hdefault list hlist) true, acl, consumed, hacl, ?_,
      hreadDefault⟩
    rw [← hsame]
    exact hread

end RoundTrip

section Examples

def noDatabase : Database where
  byName := fun _ => none
  byId := fun _ => none
  convert := fun num => num % 2 ^ 32
  byName_lt := fun _ _ h => nomatch h
  convert_lt := fun num => Nat.mod_lt num (by decide)
  convert_of_lt := fun _ h => Nat.mod_eq_of_lt h

def noAccounts : Accounts := ⟨noDatabase, noDatabase⟩

/-- The list "user:lisa:r--". -/
def lisaOnly : AclList where
  entries := [.user [0x6c, 0x69, 0x73, 0x61] ⟨true, false, false⟩]
  valid := by
    intro entry hentry
    rw [List.mem_singleton.mp hentry]
    exact ⟨by decide, by simp [colon, newline], by decide⟩
  nodup_single := List.nodup_nil
  lastLineEnds := true

theorem lisa_kept : NamesKept noAccounts false lisaOnly := by
  intro entry hentry
  rw [List.mem_singleton.mp hentry]
  show 4 ≤ 127
  decide

theorem lisa_comes_back :
    ComesBack noAccounts false true 0o755 (some lisaOnly) (some lisaOnly) := by
  refine (comes_back_iff (fun list hlist => ?_) fun list hlist => ?_).mpr fun _ list hlist => ?_
  · cases hlist
    exact lisa_kept
  · cases hlist
    exact lisa_kept
  · cases hlist
    constructor <;> intros <;> unfold XRight <;> decide

/-- With mode 0644 all missing entries get execute permission. -/
theorem lisa_may_execute :
    ¬ ComesBack noAccounts false true 0o644 (some lisaOnly) none := by
  rintro ⟨-, -, acl, consumed, hacl, ⟨-, hproduced⟩, -⟩
  have hencoded : aaipEncodeBothAcl noAccounts (some lisaOnly.text) none 0o644 false true =
      .ok (some [0x2c, 4, 0x6c, 0x69, 0x73, 0x61, 0x17, 0x35, 0x65, 0x55]) := by rfl
  have hsame : acl = some [0x2c, 4, 0x6c, 0x69, 0x73, 0x61, 0x17, 0x35, 0x65, 0x55] :=
    Except.ok.inj (hacl.symm.trans hencoded)
  rw [hsame] at hproduced
  have hwanted : ((some lisaOnly).elim [] (completed true 0o644)).flatMap AclEntry.line =
      text "user:lisa:r--\n" ++ text "user::rw-\ngroup::r--\nother::r--\nmask::r--\n" := by
    decide
  have hdecoded : aaipDecodeAcl noAccounts
      [0x2c, 4, 0x6c, 0x69, 0x73, 0x61, 0x17, 0x35, 0x65, 0x55] (.produced [] 57) false =
      .ok (.complete, 10, .produced (text "user:lisa:r--\n" ++
        text "user::rwx\ngroup::r-x\nother::r-x\nmask::r-x\n") 1) := by
    rfl
  rw [hwanted] at hproduced
  have hboth := hproduced.symm.trans hdecoded
  injection hboth with hpair
  injection hpair with _ hrest
  injection hrest with _ hout
  injection hout with hlines _
  exact absurd hlines (by decide)

end Examples

end AclText
