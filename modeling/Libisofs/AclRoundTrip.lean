import Libisofs.AclText

/-!
# Round trips of Access Control Lists

What the counting pass of the encoder predicts is what the other pass produces, for any text.
Lists in the long text form come back from the AAIP value if their names are kept, and if the
permissions of the missing entries are those of st_mode.
-/

namespace AclText

open ByteBuffers (toMsb ofMsb length_toMsb ofMsb_toMsb_of_lt)
open Texts (text)

section Counting

/-- What a record looks like in the AAIP value. -/
def recordBytes (record : AclRecord) : Bytes :=
  tagByte record :: (record.tag.2.elim [] qualifierRecs).flatten

theorem numRecs_succ {n : Nat} (h : 0 < n) : numRecs n = (n - 1) / 127 + 1 := by
  rw [numRecs]
  split
  · omega
  · omega

theorem length_qualifierRecs (qualifier : Bytes) :
    (qualifierRecs qualifier).flatten.length = qualifier.length + numRecs qualifier.length := by
  rcases Nat.eq_zero_or_pos qualifier.length with hzero | hpos
  · rw [qualifierRecs, hzero]
    rfl
  · rw [qualifierRecs, List.length_flatten, List.map_map, numRecs_succ hpos, List.range_succ,
      List.map_append, List.sum_append]
    have hfull : ((List.range ((qualifier.length - 1) / 127)).map (List.length ∘ fun i =>
        let last := if qualifier.length % 127 = 0 then 127 else qualifier.length % 127
        if i < (qualifier.length - 1) / 127 + 1 - 1 then
          (255 : UInt8) :: (qualifier.drop (i * 127)).take 127
        else UInt8.ofNat last :: (qualifier.drop (i * 127)).take last)) =
        (List.range ((qualifier.length - 1) / 127)).map fun _ => 128 := by
      apply List.map_congr_left
      intro i hi
      have hlt := List.mem_range.mp hi
      have hin : i < (qualifier.length - 1) / 127 + 1 - 1 := by omega
      have hlong : (i + 1) * 127 ≤ qualifier.length := by
        have := Nat.mul_le_mul_right 127 hlt
        omega
      simp only [Function.comp, if_pos hin, List.length_cons, List.length_take, List.length_drop]
      omega
    rw [hfull, List.map_const', List.sum_replicate_nat, List.length_range]
    simp only [List.map_cons, List.map_nil, List.sum_cons, List.sum_nil, Function.comp,
      Nat.add_sub_cancel, Nat.lt_irrefl, if_false, List.length_cons, List.length_take,
      List.length_drop]
    split <;> omega

theorem length_recordBytes (record : AclRecord) :
    (recordBytes record).length = 1 + match record.tag.2 with
      | none => 0
      | some qualifier => qualifier.length + numRecs qualifier.length := by
  rw [recordBytes, List.length_cons]
  cases record.tag.2 with
  | none => rfl
  | some qualifier => rw [Option.elim_some, length_qualifierRecs, Nat.add_comm]

theorem putRecord_count (out : Output) (record : AclRecord) :
    putRecord none out record =
      some { out with count := out.count + (recordBytes record).length } := by
  rw [putRecord, length_recordBytes]
  cases record.tag.2 with
  | none => rfl
  | some qualifier => simp only [Nat.add_assoc]

theorem foldlM_put {size : Nat} (chunks : List Bytes) (out : Output)
    (hfit : out.count + chunks.flatten.length ≤ size) :
    chunks.foldlM (put size) out =
      some ⟨out.count + chunks.flatten.length, out.result ++ chunks.flatten⟩ := by
  induction chunks generalizing out with
  | nil => simp
  | cons chunk rest ih =>
    rw [List.flatten_cons, List.length_append] at hfit
    have hchunk : put size out chunk =
        some ⟨out.count + chunk.length, out.result ++ chunk⟩ := if_pos (by omega)
    rw [List.foldlM_cons, hchunk]
    show rest.foldlM (put size) ⟨out.count + chunk.length, out.result ++ chunk⟩ = _
    rw [ih _ (by simp only; omega), List.flatten_cons, List.length_append, List.append_assoc,
      Nat.add_assoc]

theorem putRecord_produce {size : Nat} (out : Output) (record : AclRecord)
    (hfit : out.count + (recordBytes record).length ≤ size) :
    putRecord (some size) out record =
      some ⟨out.count + (recordBytes record).length, out.result ++ recordBytes record⟩ :=
  foldlM_put ([tagByte record] :: record.tag.2.elim [] qualifierRecs) out hfit

variable (accounts : Accounts) (numeric : Bool)

/-- The records which the loop finds. -/
def scanRecords : (turns : Nat) → (rpt : Bytes) → AclScan →
    Except AclError (AclScan × List AclRecord)
  | 0, _, scan => .ok (scan, [])
  | turns + 1, rpt, scan =>
    if rpt = [] then .ok (scan, [])
    else
      match lineRecord accounts numeric rpt scan with
      | .error e => .error e
      | .ok (record, scan) =>
        (scanRecords turns (rpt.drop (lineLength rpt)) scan).map fun found =>
          (found.1, record.toList ++ found.2)

variable {accounts numeric}

theorem aclLoop_ok (size : Option Nat) {turns : Nat} {rpt : Bytes} {scan scan' : AclScan}
    {records : List AclRecord} (out : Output)
    (h : scanRecords accounts numeric turns rpt scan = .ok (scan', records))
    (hfit : ∀ n, size = some n → out.count + (records.flatMap recordBytes).length ≤ n) :
    aclLoop accounts numeric size turns rpt scan out = .ok (scan',
      ⟨out.count + (records.flatMap recordBytes).length,
        if size = none then out.result else out.result ++ records.flatMap recordBytes⟩) := by
  induction turns generalizing rpt scan records out with
  | zero =>
    cases h
    simp [aclLoop]
  | succ turns ih =>
    rw [scanRecords] at h
    rw [aclLoop]
    split at h
    · next hnil =>
      cases h
      simp [hnil]
    · next hne =>
      rw [if_neg hne]
      cases hline : lineRecord accounts numeric rpt scan with
      | error e => simp only [hline] at h; cases h
      | ok found =>
        obtain ⟨record, scan₁⟩ := found
        simp only [hline] at h
        cases hrest : scanRecords accounts numeric turns (rpt.drop (lineLength rpt)) scan₁ with
        | error e => rw [hrest] at h; cases h
        | ok found =>
          rw [hrest] at h
          cases h
          cases record with
          | none => exact ih out hrest hfit
          | some record =>
            simp only [Option.toList_some, List.singleton_append, List.flatMap_cons,
              List.length_append] at hfit ⊢
            cases size with
            | none =>
              rw [putRecord_count]
              simp only
              rw [ih _ hrest (fun n hn => nomatch hn)]
              simp only [if_true, Nat.add_assoc]
            | some size =>
              have hsize := hfit size rfl
              rw [putRecord_produce out record (by omega)]
              simp only
              rw [ih _ hrest (fun n hn => by cases hn; simp only; omega)]
              simp only [reduceCtorEq, if_false, Nat.add_assoc, List.append_assoc]

/-- What the encoder produces from the records of a text. -/
def encodedBytes (stMode : Nat) (flag : AclFlag) (scan : AclScan) (records : List AclRecord) :
    Bytes :=
  (if flag.isDefault then [UInt8.ofNat (16 * switchMark + 1)] else []) ++
    records.flatMap recordBytes ++
    if flag.complete then (missingRecords stMode scan).map tagByte else []

variable {acl : Bytes} {stMode : Nat} {flag : AclFlag} {scan : AclScan}
  {records : List AclRecord}

theorem aaipEncodeAclText_count
    (h : scanRecords accounts flag.numeric acl.length acl .start = .ok (scan, records)) :
    aaipEncodeAclText accounts acl stMode none flag =
      .ok ⟨(encodedBytes stMode flag scan records).length, []⟩ := by
  have hloop (out : Output) := aclLoop_ok none out h fun n hn => nomatch hn
  obtain ⟨numeric, isDefault, complete⟩ := flag
  cases isDefault <;> cases complete <;>
    simp [aaipEncodeAclText, hloop, encodedBytes, Nat.add_comm, Nat.add_left_comm]

theorem put_fits {size : Nat} {out : Output} {chunk : Bytes}
    (hfit : out.count + chunk.length ≤ size) :
    put size out chunk = some ⟨out.count + chunk.length, out.result ++ chunk⟩ := if_pos hfit

/-- The pass which produces fills exactly what the other pass has counted. -/
theorem aaipEncodeAclText_produce
    (h : scanRecords accounts flag.numeric acl.length acl .start = .ok (scan, records)) :
    aaipEncodeAclText accounts acl stMode
      (some (encodedBytes stMode flag scan records).length) flag =
      .ok ⟨(encodedBytes stMode flag scan records).length,
        encodedBytes stMode flag scan records⟩ := by
  obtain ⟨numeric, isDefault, complete⟩ := flag
  generalize hmark : (if isDefault then [UInt8.ofNat (16 * switchMark + 1)] else [] : Bytes) = mark
  generalize hmissing :
      (if complete then (missingRecords stMode scan).map tagByte else [] : Bytes) =
    missing
  have hbytes : encodedBytes stMode ⟨numeric, isDefault, complete⟩ scan records =
      mark ++ records.flatMap recordBytes ++ missing := by
    rw [encodedBytes, ← hmark, ← hmissing]
  rw [hbytes]
  generalize hsize : (mark ++ records.flatMap recordBytes ++ missing).length = size
  simp only [List.length_append] at hsize
  have hloop := aclLoop_ok (some size) ⟨mark.length, mark⟩ h
    fun n hn => by cases hn; simp only; omega
  generalize records.flatMap recordBytes = body at hsize hloop ⊢
  have hstart : (if isDefault then put size ⟨0, []⟩ [UInt8.ofNat (16 * switchMark + 1)]
      else some ⟨0, []⟩) = some ⟨mark.length, mark⟩ := by
    cases isDefault with
    | false => rw [← hmark]; rfl
    | true =>
      rw [← hmark] at hsize ⊢
      exact put_fits
        (by simp only [if_true] at hsize; simp only [List.length_singleton] at *; omega)
  simp only [aaipEncodeAclText, hstart, hloop, reduceCtorEq, if_false]
  cases complete with
  | false =>
    have hnil : missing = [] := hmissing.symm
    simp only [hnil, List.length_nil, List.append_nil, Nat.add_zero] at hsize ⊢
    simp [hsize]
  | true =>
    have hput : put size ⟨mark.length + body.length, mark ++ body⟩
        ((missingRecords stMode scan).map tagByte) = some ⟨size, mark ++ body ++ missing⟩ := by
      have hsame : (missingRecords stMode scan).map tagByte = missing := hmissing
      rw [hsame, put_fits (by simp only; omega)]
      simp only [hsize]
    simp [hput]

theorem aaipEncodeAcl_eq
    (h : scanRecords accounts flag.numeric acl.length acl .start = .ok (scan, records)) :
    aaipEncodeAcl accounts acl stMode flag = .ok (encodedBytes stMode flag scan records) := by
  rw [aaipEncodeAcl, aaipEncodeAclText_count h]
  simp only [aaipEncodeAclText_produce h, if_true]

end Counting

section Lists

/-- An entry of a list in long text form. -/
inductive AclEntry where
  | userObj (perms : Perms)
  | user (name : Bytes) (perms : Perms)
  | groupObj (perms : Perms)
  | group (name : Bytes) (perms : Perms)
  | mask (perms : Perms)
  | other (perms : Perms)
  deriving DecidableEq

def Perms.text (perms : Perms) : Bytes :=
  [if perms.r then 0x72 else 0x2d, if perms.w then 0x77 else 0x2d, if perms.x then 0x78 else 0x2d]

structure NameOk (name : Bytes) : Prop where
  ne_nil : name ≠ []
  chars : ∀ c ∈ name, c ≠ colon ∧ c ≠ newline ∧ c ≠ 0
  short : name.length < nameSize

namespace AclEntry

def tag : AclEntry → Bytes
  | userObj _ | user _ _ => Texts.text "user"
  | groupObj _ | group _ _ => Texts.text "group"
  | mask _ => Texts.text "mask"
  | other _ => Texts.text "other"

def qualifier : AclEntry → Bytes
  | user name _ | group name _ => name
  | _ => []

def perms : AclEntry → Perms
  | userObj perms | user _ perms | groupObj perms | group _ perms | mask perms | other perms =>
    perms

/-- The line without its end. -/
def core (entry : AclEntry) : Bytes :=
  entry.tag ++ colon :: (entry.qualifier ++ colon :: entry.perms.text)

def line (entry : AclEntry) : Bytes := entry.core ++ [newline]

def Valid : AclEntry → Prop
  | user name _ | group name _ => NameOk name
  | _ => True

/-- The types of which there may be only one entry. -/
def single : AclEntry → Option Nat
  | userObj _ => some aclUserObj
  | groupObj _ => some aclGroupObj
  | mask _ => some aclMask
  | other _ => some aclOther
  | _ => none

end AclEntry

/-- A valid list. The last line of its text may lack its newline character. -/
structure AclList where
  entries : List AclEntry
  valid : ∀ entry ∈ entries, entry.Valid
  nodup_single : (entries.filterMap AclEntry.single).Nodup
  lastLineEnds : Bool

def textOf (lastLineEnds : Bool) : List AclEntry → Bytes
  | [] => []
  | [entry] => if lastLineEnds then entry.line else entry.core
  | entry :: rest => entry.line ++ textOf lastLineEnds rest

def AclList.text (list : AclList) : Bytes := textOf list.lastLineEnds list.entries

def AclScan.see (scan : AclScan) : AclEntry → AclScan
  | .userObj _ => { scan with hasU := true }
  | .groupObj _ => { scan with hasG := true }
  | .mask _ => { scan with hasM := true }
  | .other _ => { scan with hasO := true }
  | .user _ _ | .group _ _ => { scan with isTrivial := false }

/-- No error because of a second entry of a type. -/
def AclScan.allows (scan : AclScan) : AclEntry → Bool
  | .userObj _ => !scan.hasU
  | .groupObj _ => !scan.hasG
  | .other _ => !scan.hasO
  | _ => true

def storedQualifier (numeric : Bool) (db : Database) (name : Bytes) : Option Bytes :=
  if numeric then (idOfName db name).map idQualifier else some name

def recordOf (accounts : Accounts) (numeric : Bool) (entry : AclEntry) : Option AclRecord :=
  let tag : Option Tag := match entry with
    | .userObj _ => some (aclUserObj, none)
    | .user name _ => (storedQualifier numeric accounts.users name).map fun q =>
      (if numeric then aclUserN else aclUser, some q)
    | .groupObj _ => some (aclGroupObj, none)
    | .group name _ => (storedQualifier numeric accounts.groups name).map fun q =>
      (if numeric then aclGroupN else aclGroup, some q)
    | .mask _ => some (aclMask, none)
    | .other _ => some (aclOther, none)
  tag.map fun tag => ⟨tag, aaipMakeAaipPerms entry.perms⟩

end Lists

section Scanning

variable {accounts : Accounts} {numeric : Bool}

theorem findIdx?_here {c : UInt8} {pre rest : Bytes} (h : c ∉ pre) :
    (pre ++ c :: rest).findIdx? (· = c) = some pre.length := by
  induction pre with
  | nil =>
    rw [List.nil_append, List.findIdx?_cons]
    simp
  | cons d pre ih =>
    have hd : d ≠ c := fun heq => h (heq ▸ List.mem_cons_self)
    rw [List.cons_append, List.findIdx?_cons, ih fun hin => h (List.mem_cons_of_mem _ hin)]
    simp [hd]

theorem getD_append_length (pre rest : Bytes) (i : Nat) :
    (pre ++ rest).getD (pre.length + i) 0 = rest.getD i 0 := by
  simp [List.getD_eq_getElem?_getD, List.getElem?_append_right]

theorem colon_not_mem_tag (entry : AclEntry) : colon ∉ entry.tag := by
  cases entry <;> simp only [AclEntry.tag] <;> decide

theorem newline_not_mem_tag (entry : AclEntry) : newline ∉ entry.tag := by
  cases entry <;> simp only [AclEntry.tag] <;> decide

theorem not_mem_qualifier {entry : AclEntry} (hvalid : entry.Valid) :
    colon ∉ entry.qualifier ∧ newline ∉ entry.qualifier := by
  cases entry with
  | user name perms | group name perms =>
    exact ⟨fun h => (hvalid.chars _ h).1 rfl, fun h => (hvalid.chars _ h).2.1 rfl⟩
  | _ => exact ⟨List.not_mem_nil, List.not_mem_nil⟩

theorem secondColon_core {entry : AclEntry} (hvalid : entry.Valid) (tail : Bytes) :
    secondColon (entry.core ++ tail) = some (entry.tag.length + 1 + entry.qualifier.length) := by
  have hfirst : colonAt (entry.core ++ tail) 0 = some entry.tag.length := by
    rw [colonAt, List.drop_zero, AclEntry.core, List.append_assoc, List.cons_append,
      findIdx?_here (colon_not_mem_tag entry)]
    simp
  have hdrop : (entry.core ++ tail).drop (entry.tag.length + 1) =
      entry.qualifier ++ colon :: (entry.perms.text ++ tail) := by
    have hsplit : entry.core ++ tail = (entry.tag ++ [colon]) ++
        (entry.qualifier ++ colon :: (entry.perms.text ++ tail)) := by
      simp [AclEntry.core]
    rw [hsplit, List.drop_left' (by simp)]
  rw [secondColon, hfirst]
  simp only
  rw [colonAt, hdrop, findIdx?_here (not_mem_qualifier hvalid).1]
  rfl

theorem length_core (entry : AclEntry) :
    entry.core.length = entry.tag.length + 1 + entry.qualifier.length + 4 := by
  simp [AclEntry.core, Perms.text]
  omega

theorem newline_not_mem_core {entry : AclEntry} (hvalid : entry.Valid) :
    newline ∉ entry.core := by
  have hperms : newline ∉ entry.perms.text := by
    rw [Perms.text]
    cases entry.perms.r <;> cases entry.perms.w <;> cases entry.perms.x <;> decide
  simp only [AclEntry.core, List.mem_append, List.mem_cons, not_or]
  exact ⟨newline_not_mem_tag entry, by decide, (not_mem_qualifier hvalid).2, by decide, hperms⟩

/-- What follows the entry: nothing, or the end of the line and more lines. -/
def LineTail (tail : Bytes) : Prop := tail = [] ∨ ∃ rest, tail = newline :: rest

theorem lineLength_core {entry : AclEntry} (hvalid : entry.Valid) {tail : Bytes}
    (htail : LineTail tail) :
    lineLength (entry.core ++ tail) = entry.core.length + min 1 tail.length := by
  rcases htail with rfl | ⟨rest, rfl⟩
  · have hnone : entry.core.findIdx? (· = newline) = none := by
      rw [List.findIdx?_eq_none_iff]
      intro c hc
      exact decide_eq_false fun heq => newline_not_mem_core hvalid (heq ▸ hc)
    rw [lineLength, List.append_nil, hnone]
    rfl
  · rw [lineLength, findIdx?_here (newline_not_mem_core hvalid), List.length_cons]
    simp only
    omega

theorem perms_of_core (entry : AclEntry) (tail : Bytes) :
    let cpt := entry.tag.length + 1 + entry.qualifier.length
    (⟨(entry.core ++ tail).getD (cpt + 1) 0 = 0x72, (entry.core ++ tail).getD (cpt + 2) 0 = 0x77,
      (entry.core ++ tail).getD (cpt + 3) 0 = 0x78⟩ : Perms) = entry.perms := by
  have hsplit : entry.core ++ tail = (entry.tag ++ colon :: (entry.qualifier ++ [colon])) ++
      (entry.perms.text ++ tail) := by
    simp [AclEntry.core]
  have hlength : (entry.tag ++ colon :: (entry.qualifier ++ [colon])).length =
      entry.tag.length + 1 + entry.qualifier.length + 1 := by
    simp
    omega
  intro cpt
  have h (i : Nat) : (entry.core ++ tail).getD (cpt + 1 + i) 0 =
      (entry.perms.text ++ tail).getD i 0 := by
    rw [hsplit, ← getD_append_length _ _ i, hlength]
  have h0 := h 0
  have h1 := h 1
  have h2 := h 2
  rw [show cpt + 1 + 1 = cpt + 2 from rfl] at h1
  rw [show cpt + 1 + 2 = cpt + 3 from rfl] at h2
  rw [Nat.add_zero] at h0
  rw [h0, h1, h2]
  generalize entry.perms = perms
  obtain ⟨r, w, x⟩ := perms
  simp only [Perms.text, List.cons_append, List.getD_cons_zero, List.getD_cons_succ]
  cases r <;> cases w <;> cases x <;> rfl

theorem qualifiedTag_named {db : Database} {tagLen objType nameType idType : Nat} {seen : Bool}
    {marked scan : AclScan} {tag name rest : Bytes} (hname : NameOk name)
    (hlen : tag.length = tagLen) :
    qualifiedTag numeric db tagLen objType nameType idType seen marked scan
      (tag ++ (name ++ rest)) (tagLen + name.length) =
      match storedQualifier numeric db name with
      | none => .error .unknownName
      | some q => .ok (some (if numeric then idType else nameType, some q),
        { scan with isTrivial := false }) := by
  have hpos : 0 < name.length := List.length_pos_iff.mpr hname.ne_nil
  have hshort := hname.short
  have hdrop :
      ((tag ++ (name ++ rest)).drop tagLen).take (tagLen + name.length - tagLen) = name := by
    rw [List.drop_left' hlen, Nat.add_sub_cancel_left, List.take_left]
  rw [qualifiedTag, if_neg (by omega), if_neg (by omega)]
  simp only [hdrop, storedQualifier]
  cases numeric with
  | false => rfl
  | true => cases idOfName db name <;> rfl

theorem lineTag_core {entry : AclEntry} (hvalid : entry.Valid) {scan : AclScan}
    (hallows : scan.allows entry = true) {record : AclRecord}
    (hrecord : recordOf accounts numeric entry = some record) (tail : Bytes) :
    lineTag accounts numeric scan (entry.core ++ tail)
      (entry.tag.length + 1 + entry.qualifier.length) =
      .ok (some record.tag, scan.see entry) := by
  have hcore : entry.core ++ tail =
      entry.tag ++ colon :: (entry.qualifier ++ (colon :: entry.perms.text ++ tail)) := by
    simp [AclEntry.core]
  rw [hcore]
  cases entry with
  | userObj perms =>
    cases hrecord
    have hseen : scan.hasU = false := by simpa [AclScan.allows] using hallows
    have h : userTag accounts numeric scan (text "user:" ++ (colon :: perms.text ++ tail)) 5 =
        .ok (some (aclUserObj, none), { scan with hasU := true }) := by
      rw [userTag, qualifiedTag, if_pos rfl, hseen]
      rfl
    exact h
  | user name perms =>
    obtain ⟨tag, htag, rfl⟩ := Option.map_eq_some_iff.mp hrecord
    obtain ⟨q, hq, rfl⟩ := Option.map_eq_some_iff.mp htag
    have h := @qualifiedTag_named numeric accounts.users 5 aclUserObj aclUser aclUserN scan.hasU
      { scan with hasU := true } scan (text "user:") name (colon :: perms.text ++ tail) hvalid rfl
    rw [hq] at h
    exact h
  | groupObj perms =>
    cases hrecord
    have hseen : scan.hasG = false := by simpa [AclScan.allows] using hallows
    have h : groupTag accounts numeric scan (text "group:" ++ (colon :: perms.text ++ tail)) 6 =
        .ok (some (aclGroupObj, none), { scan with hasG := true }) := by
      rw [groupTag, qualifiedTag, if_pos rfl, hseen]
      rfl
    exact h
  | group name perms =>
    obtain ⟨tag, htag, rfl⟩ := Option.map_eq_some_iff.mp hrecord
    obtain ⟨q, hq, rfl⟩ := Option.map_eq_some_iff.mp htag
    have h := @qualifiedTag_named numeric accounts.groups 6 aclGroupObj aclGroup aclGroupN scan.hasG
      { scan with hasG := true } scan (text "group:") name (colon :: perms.text ++ tail) hvalid rfl
    rw [hq] at h
    exact h
  | mask perms =>
    cases hrecord
    rfl
  | other perms =>
    cases hrecord
    have hseen : scan.hasO = false := by simpa [AclScan.allows] using hallows
    have h : (if scan.hasO then .error .multObj
        else .ok (some (aclOther, none), { scan with hasO := true }) :
        Except AclError (Option Tag × AclScan)) =
        .ok (some (aclOther, none), { scan with hasO := true }) := by
      rw [hseen]
      rfl
    exact h

/-- A line of a valid list gives its record. -/
theorem lineRecord_core {entry : AclEntry} (hvalid : entry.Valid) {scan : AclScan}
    (hallows : scan.allows entry = true) {record : AclRecord}
    (hrecord : recordOf accounts numeric entry = some record) {tail : Bytes}
    (htail : LineTail tail) :
    lineRecord accounts numeric (entry.core ++ tail) scan = .ok (some record, scan.see entry) := by
  have hhead : (entry.core ++ tail).head? ≠ some 0x23 := by
    have hsame : (entry.core ++ tail).head? = entry.tag.head? := by cases entry <;> rfl
    rw [hsame]
    cases entry <;> simp only [AclEntry.tag] <;> decide
  rw [lineRecord, if_neg hhead, secondColon_core hvalid]
  simp only
  rw [lineTag_core hvalid hallows hrecord]
  simp only
  have hlong : ¬ lineLength (entry.core ++ tail) <
      entry.tag.length + 1 + entry.qualifier.length + 4 := by
    rw [lineLength_core hvalid htail, length_core]
    omega
  have hperms : record.perms = aaipMakeAaipPerms entry.perms := by
    obtain ⟨tag, -, rfl⟩ := Option.map_eq_some_iff.mp hrecord
    rfl
  rw [if_neg hlong, perms_of_core, ← hperms]

theorem allows_see {scan : AclScan} {entry other : AclEntry} (hallows : scan.allows other = true)
    (hne : ∀ type, entry.single = some type → other.single ≠ some type) :
    (scan.see entry).allows other = true := by
  cases entry <;> cases other <;>
    first
    | exact hallows
    | exact absurd rfl (hne _ rfl)

theorem textOf_cons (lastLineEnds : Bool) (entry : AclEntry) (rest : List AclEntry) :
    ∃ tail, textOf lastLineEnds (entry :: rest) = entry.core ++ tail ∧ LineTail tail ∧
      tail.drop 1 = textOf lastLineEnds rest := by
  cases rest with
  | nil =>
    cases lastLineEnds with
    | true => exact ⟨[newline], rfl, .inr ⟨[], rfl⟩, rfl⟩
    | false => exact ⟨[], (List.append_nil _).symm, .inl rfl, rfl⟩
  | cons next rest =>
    refine ⟨newline :: textOf lastLineEnds (next :: rest), ?_, .inr ⟨_, rfl⟩, rfl⟩
    rw [textOf, AclEntry.line, List.append_assoc]
    · rfl
    · exact fun h => nomatch h

theorem drop_line {core tail : Bytes} : (core ++ tail).drop (core.length + min 1 tail.length) =
    tail.drop 1 := by
  rw [List.drop_append, List.drop_of_length_le (by omega), List.nil_append, Nat.add_sub_cancel_left]
  cases tail <;> simp

/-- The records of a valid list, and what has been seen then. -/
theorem scanRecords_textOf {lastLineEnds : Bool} {entries : List AclEntry}
    (hvalid : ∀ entry ∈ entries, entry.Valid) {scan : AclScan}
    (hallows : ∀ entry ∈ entries, scan.allows entry = true)
    (hnodup : (entries.filterMap AclEntry.single).Nodup)
    (hrecords : ∀ entry ∈ entries, (recordOf accounts numeric entry).isSome)
    {turns : Nat} (hturns : (textOf lastLineEnds entries).length ≤ turns) :
    scanRecords accounts numeric turns (textOf lastLineEnds entries) scan =
      .ok (entries.foldl AclScan.see scan, entries.filterMap (recordOf accounts numeric)) := by
  induction entries generalizing scan turns with
  | nil => cases turns <;> rfl
  | cons entry rest ih =>
    obtain ⟨tail, htext, htail, hrest⟩ := textOf_cons lastLineEnds entry rest
    obtain ⟨record, hrecord⟩ := Option.isSome_iff_exists.mp (hrecords entry List.mem_cons_self)
    have hcore := length_core entry
    rw [htext] at hturns ⊢
    rw [List.length_append] at hturns
    cases turns with
    | zero => omega
    | succ turns =>
      have hne : entry.core ++ tail ≠ [] := by
        intro hnil
        have hlength := congrArg List.length hnil
        rw [List.length_append, List.length_nil] at hlength
        omega
      have hvalid' := hvalid entry List.mem_cons_self
      have hallows' : ∀ other ∈ rest, (scan.see entry).allows other = true := by
        intro other hother
        refine allows_see (hallows other (List.mem_cons_of_mem _ hother)) fun type htype hsame => ?_
        rw [List.filterMap_cons_some htype, List.nodup_cons] at hnodup
        exact hnodup.1 (List.mem_filterMap.mpr ⟨other, hother, hsame⟩)
      have hnodup' : (rest.filterMap AclEntry.single).Nodup := by
        cases hsingle : entry.single with
        | none => rwa [List.filterMap_cons_none hsingle] at hnodup
        | some type =>
          rw [List.filterMap_cons_some hsingle, List.nodup_cons] at hnodup
          exact hnodup.2
      have hlength : (textOf lastLineEnds rest).length ≤ turns := by
        rw [← hrest, List.length_drop]
        omega
      have hscan := ih (fun e he => hvalid e (List.mem_cons_of_mem _ he)) hallows' hnodup'
        (fun e he => hrecords e (List.mem_cons_of_mem _ he)) hlength
      rw [scanRecords, if_neg hne, lineRecord_core hvalid' (hallows entry List.mem_cons_self)
        hrecord htail, lineLength_core hvalid' htail, drop_line, hrest]
      simp only [hscan]
      rw [List.foldl_cons, List.filterMap_cons_some hrecord]
      rfl

end Scanning

end AclText
