import Libisofs.AclCleanout

/-!
# Cleaned Access Control Lists and their completion

The loop of aaip_cleanout_st_mode() keeps the lines which it has kept in front of the text, then
what is left over of removed lines, and then the lines which are still to come. The completion of
a cleaned text brings back the lines which were removed.
-/

namespace AclCleanout

open AclText
open Texts (text strstr)
open GuardedReads (overwrite)

section Masks

variable {entries : List AclEntry} {entry : AclEntry} {rest tail : Bytes}

@[simp]
theorem aclText_nil : aclText [] = [] := rfl

theorem aclText_cons (entry : AclEntry) (entries : List AclEntry) :
    aclText (entry :: entries) = entry.line ++ aclText entries := List.flatMap_cons

theorem aclText_append (entries entries' : List AclEntry) :
    aclText (entries ++ entries') = aclText entries ++ aclText entries' := List.flatMap_append

theorem strlen_aclText (ok : ∀ entry ∈ entries, LineOk entry) :
    strlen (aclText entries ++ 0 :: tail) = some (aclText entries).length := by
  refine strlen_skip fun c hc => ?_
  obtain ⟨entry, hentry, hc⟩ := List.mem_flatMap.mp hc
  rw [AclEntry.line] at hc
  rcases List.mem_append.mp hc with hc | hc
  · exact (core_chars (ok entry hentry) c hc).2
  · rw [List.mem_singleton.mp hc]
    decide

theorem startsBy_mask (entry : AclEntry) (rest : Bytes) :
    startsBy (text "mask:") (entry.line ++ rest) = some entry.isMask := by
  cases entry <;> rfl

/-- The search finds the first mask which is not in the first line. -/
theorem strstr_mask (ok : ∀ entry ∈ entries, LineOk entry) :
    (strstr (newline :: text "mask:") (newline :: (aclText entries ++ 0 :: tail))).isSome
      = entries.any AclEntry.isMask := by
  induction entries with
  | nil => rfl
  | cons entry entries ih =>
    have hentry := ok entry List.mem_cons_self
    have hrest := ih fun e he => ok e (List.mem_cons_of_mem _ he)
    rw [List.any_cons, aclText_cons, List.append_assoc]
    cases hmask : entry.isMask with
    | true =>
      obtain ⟨perms, rfl⟩ : ∃ perms, entry = .mask perms := by
        cases entry with
        | mask perms => exact ⟨perms, rfl⟩
        | _ => cases hmask
      rfl
    | false =>
      have hfirst : strstr (newline :: text "mask:")
            (newline :: (entry.line ++ (aclText entries ++ 0 :: tail)))
          = strstr (newline :: text "mask:") (entry.line ++ (aclText entries ++ 0 :: tail)) := by
        cases entry with
        | mask perms => cases hmask
        | _ => rfl
      have hskip : Texts.skips (newline :: text "mask:") entry.core = true :=
        Texts.skips_of_head fun c hc => ⟨(core_chars hentry c hc).2, (core_chars hentry c hc).1⟩
      rw [hfirst, AclEntry.line, List.append_assoc, Texts.strstr_skips hskip, Bool.false_or]
      exact hrest

theorem hasMask_aclText (ok : ∀ entry ∈ entries, LineOk entry) :
    hasMask (aclText entries ++ 0 :: tail) = some (entries.any AclEntry.isMask) := by
  cases entries with
  | nil => rfl
  | cons entry entries =>
    have hentry := ok entry List.mem_cons_self
    have hrest : ∀ e ∈ entries, LineOk e := fun e he => ok e (List.mem_cons_of_mem _ he)
    have hskip : Texts.skips (newline :: text "mask:") entry.core = true :=
      Texts.skips_of_head fun c hc => ⟨(core_chars hentry c hc).2, (core_chars hentry c hc).1⟩
    have hsearch : (strstr (newline :: text "mask:")
        (aclText (entry :: entries) ++ 0 :: tail)).isSome = entries.any AclEntry.isMask := by
      rw [aclText_cons, AclEntry.line, List.append_assoc, List.append_assoc,
        Texts.strstr_skips hskip]
      exact strstr_mask hrest
    have hstart : startsBy (text "mask:") (aclText (entry :: entries) ++ 0 :: tail)
        = some entry.isMask := by
      rw [aclText_cons, List.append_assoc]
      exact startsBy_mask entry _
    rw [hasMask, hstart, strlen_aclText ok, hsearch, List.any_cons]
    cases entry.isMask <;> rfl

end Masks

section Loop

variable {stMode : Nat} {mask : Bool} {s : Scan} {done gap tail : Bytes} {entry : AclEntry}
  {entries : List AclEntry}

theorem overwrite_append {mid items : Bytes} (hlength : items.length = mid.length)
    (pre post : Bytes) :
    overwrite (pre ++ (mid ++ post)) pre.length items = some (pre ++ (items ++ post)) := by
  have hfits : ¬ (pre ++ (mid ++ post)).length < pre.length + items.length := by
    simp only [List.length_append]
    omega
  rw [overwrite, if_neg hfits, List.take_left, hlength, ← List.drop_drop, List.drop_left,
    List.drop_left, List.append_assoc]

/-- The memory between two turns of the loop. -/
structure At (s : Scan) (done gap : Bytes) (entries : List AclEntry) (tail : Bytes) : Prop where
  buf : s.buf = done ++ (gap ++ (aclText entries ++ 0 :: tail))
  rpt : s.rpt = done.length + gap.length
  wpt : s.wpt = done.length
  npt : ∃ c, s.buf[s.npt]? = some c ∧ c ≠ 0

/-- What a turn knows of the line at rpt. -/
theorem cleanTurn_line {flag : CleanFlag} {len : Nat} {r : LineResult}
    (hlen : lineEnd (s.buf.drop s.rpt) = some len)
    (hresult : lineResult stMode mask flag (s.buf.drop s.rpt) len = some r)
    (hrewrite : r.rewrite = none) (hearly : flag.stopEarly = false) :
    cleanTurn stMode mask flag s =
      if r.skip then
        some ({ s with rpt := s.rpt + len + 1, npt := s.rpt + len, tags := s.tags ||| r.tag,
                       listMode := updateMode s.listMode r.update }, false)
      else
        (placeLine flag { s with rpt := s.rpt + len + 1, npt := s.rpt + len,
                                 tags := s.tags ||| r.tag,
                                 listMode := updateMode s.listMode r.update } s.rpt len).map
          fun s' => (s', false) := by
  simp only [cleanTurn, hlen, hresult, hrewrite, hearly, Option.bind_eq_bind, Option.bind_some]
  cases r.skip with
  | true => rfl
  | false =>
    rw [Option.map_eq_bind]
    rfl

/-- A line with its last byte has moved to the front. The bytes behind it are of no use. -/
structure Placed (s s' : Scan) (done gap line : Bytes) (last : UInt8) (rest : Bytes) : Prop where
  buf : ∃ gap' : Bytes, gap'.length = gap.length ∧
    s'.buf = done ++ (line ++ [last]) ++ (gap' ++ rest)
  wpt : s'.wpt = (done ++ (line ++ [last])).length
  last : s'.buf[(done ++ gap ++ line).length]? = some last
  rpt : s'.rpt = s.rpt
  npt : s'.npt = s.npt
  tags : s'.tags = s.tags

theorem placeLine_moves {flag : CleanFlag} (hclean : flag.doCleanout = true) {line rest : Bytes}
    {last : UInt8} {start : Nat} (hbuf : s.buf = done ++ (gap ++ (line ++ [last] ++ rest)))
    (hwpt : s.wpt = done.length) (hstart : start = done.length + gap.length) :
    ∃ s', placeLine flag s start line.length = some s' ∧
      Placed s s' done gap line last rest := by
  subst hstart
  by_cases hgap : gap = []
  · subst hgap
    have hplace : placeLine flag s (done.length + ([] : Bytes).length) line.length
        = some { s with wpt := done.length + 0 + line.length + 1 } := if_pos (by simpa using hwpt)
    refine ⟨_, hplace, ⟨[], rfl, ?_⟩, ?_, ?_, rfl, rfl, rfl⟩
    · simpa using hbuf
    · simp only [List.length_append, List.length_singleton]
      omega
    · simp [hbuf]
  · have hpos : 0 < gap.length := List.length_pos_iff.mpr hgap
    let region := gap ++ (line ++ [last])
    have hread : (s.buf.drop (done.length + gap.length)).take (line.length + 1)
        = line ++ [last] := by
      rw [hbuf, ← List.append_assoc, List.drop_left' (by simp), List.take_left' (by simp)]
    have hsplit : s.buf = done ++ (region.take (line.length + 1)
        ++ (region.drop (line.length + 1) ++ rest)) := by
      rw [hbuf, ← List.append_assoc (region.take _), List.take_append_drop]
      simp only [region, List.append_assoc]
    have hwrite : overwrite s.buf s.wpt (line ++ [last])
        = some (done ++ ((line ++ [last]) ++ (region.drop (line.length + 1) ++ rest))) := by
      rw [hsplit, hwpt]
      refine overwrite_append ?_ _ _
      simp only [region, List.length_append, List.length_take, List.length_singleton]
      omega
    have hplace : placeLine flag s (done.length + gap.length) line.length
        = some { s with
            buf := done ++ ((line ++ [last]) ++ (region.drop (line.length + 1) ++ rest)),
                        wpt := s.wpt + (line.length + 1) } := by
      rw [placeLine, if_neg (by omega), if_pos hclean, hread, hwrite]
      rfl
    have hregion : region.drop (line.length + 1)
        = (gap ++ line).drop (line.length + 1) ++ [last] := by
      have hle : line.length + 1 ≤ (gap ++ line).length := by
        rw [List.length_append]
        omega
      simp only [region]
      rw [← List.append_assoc, List.drop_append_of_le_length hle]
    refine ⟨_, hplace, ⟨region.drop (line.length + 1), ?_, ?_⟩, ?_, ?_, rfl, rfl, rfl⟩
    · simp only [region, List.length_drop, List.length_append, List.length_singleton]
      omega
    · simp only [List.append_assoc]
    · simp only [hwpt, List.length_append, List.length_singleton]
    · have hindex : (done ++ gap ++ line).length
          = (done ++ ((line ++ [last]) ++ (gap ++ line).drop (line.length + 1))).length := by
        simp only [List.length_append, List.length_drop, List.length_singleton]
        omega
      have hshape : done ++ ((line ++ [last]) ++ (region.drop (line.length + 1) ++ rest))
          = done ++ ((line ++ [last]) ++ (gap ++ line).drop (line.length + 1)) ++ last :: rest := by
        rw [hregion]
        simp only [List.append_assoc, List.cons_append, List.nil_append]
      dsimp only
      rw [hshape, hindex, List.getElem?_append_right (Nat.le_refl _), Nat.sub_self]
      rfl

variable (stMode mask) in
/-- A turn at a line. The line is skipped, or it is kept. -/
theorem cleanTurn_entry (ok : LineOk entry) (at_ : At s done gap (entry :: entries) tail) :
    ∃ s' gap', cleanTurn stMode mask {} s = some (s', false) ∧
      At s' (done ++ if redundant stMode mask entry then [] else entry.line) gap' entries tail ∧
      gap'.length = gap.length + (if redundant stMode mask entry then entry.line.length else 0) ∧
      s'.tags = s.tags ||| entryTag stMode mask entry := by
  have hdrop : s.buf.drop s.rpt = entry.line ++ (aclText entries ++ 0 :: tail) := by
    rw [at_.buf, at_.rpt, ← List.append_assoc, List.drop_left' (by simp), aclText_cons,
      List.append_assoc]
  obtain ⟨update, hresult⟩ := @lineResult_entry entry (aclText entries ++ 0 :: tail) stMode mask
    {} ok rfl rfl
  have hturn := cleanTurn_line (s := s) (hdrop ▸ lineEnd_line ok) (hdrop ▸ hresult) rfl rfl
  have hbuf : s.buf =
      done ++ (gap ++ (entry.core ++ [newline] ++ (aclText entries ++ 0 :: tail))) := by
    rw [at_.buf, aclText_cons, AclEntry.line]
    simp only [List.append_assoc]
  cases hskip : redundant stMode mask entry with
  | true =>
    rw [hskip] at hturn
    refine ⟨_, gap ++ entry.line, hturn, ⟨?_, ?_, ?_, newline, ?_, by decide⟩, ?_, rfl⟩
    · simp only [hbuf, AclEntry.line, if_true, List.append_nil, List.append_assoc]
    · simp only [at_.rpt, AclEntry.line, if_true, List.append_nil, List.length_append,
        List.length_singleton]
      omega
    · simpa using at_.wpt
    · have hshape : s.buf = (done ++ gap ++ entry.core)
          ++ newline :: (aclText entries ++ 0 :: tail) := by
        rw [hbuf]
        simp only [List.append_assoc, List.singleton_append]
      have hindex : s.rpt + entry.core.length = (done ++ gap ++ entry.core).length := by
        rw [at_.rpt]
        simp only [List.length_append]
      dsimp only
      rw [hindex, hshape, List.getElem?_append_right (Nat.le_refl _), Nat.sub_self]
      rfl
    · simp
  | false =>
    rw [hskip] at hturn
    let s₁ : Scan := { s with rpt := s.rpt + entry.core.length + 1,
                              npt := s.rpt + entry.core.length,
                              tags := s.tags ||| entryTag stMode mask entry,
                              listMode := updateMode s.listMode update }
    have hclean : ({} : CleanFlag).doCleanout = true := rfl
    obtain ⟨s', hplace, placed⟩ := placeLine_moves (s := s₁) hclean hbuf at_.wpt at_.rpt
    obtain ⟨gap', hlength, hbuf'⟩ := placed.buf
    have hkept : s'.buf = (done ++ entry.line) ++ (gap' ++ (aclText entries ++ 0 :: tail)) := by
      rw [hbuf', AclEntry.line]
    refine ⟨s', gap', ?_, ⟨hkept, ?_, placed.wpt, newline, ?_, by decide⟩, ?_, placed.tags⟩
    · rw [hturn, if_neg Bool.false_ne_true]
      exact congrArg (Option.map _) hplace
    · rw [placed.rpt]
      have hrpt := at_.rpt
      simp only [s₁, AclEntry.line, List.length_append, List.length_singleton,
        Bool.false_eq_true, if_false]
      omega
    · have hindex : s₁.npt = (done ++ gap ++ entry.core).length := by
        have hrpt := at_.rpt
        simp only [s₁, List.length_append]
        omega
      rw [placed.npt, hindex]
      exact placed.last
    · simpa using hlength

/-- The turn which finds the end of the text. -/
theorem cleanLoop_end (at_ : At s done gap [] tail) (turns : Nat) :
    ∃ s' gap', cleanLoop stMode mask {} (turns + 2) s = some s' ∧
      s'.buf = done ++ 0 :: (gap' ++ tail) ∧ gap'.length = gap.length ∧
      s'.wpt = done.length + 1 ∧ s'.tags = s.tags := by
  have hdrop : s.buf.drop s.rpt = 0 :: tail := by
    rw [at_.buf, at_.rpt, ← List.append_assoc, List.drop_left' (by simp), aclText_nil,
      List.nil_append]
  have hresult : lineResult stMode mask {} (s.buf.drop s.rpt) 0 = some { tag := 0 } := by
    rw [hdrop]
    rfl
  have hlen : lineEnd (s.buf.drop s.rpt) = some 0 := by
    rw [hdrop]
    rfl
  have hturn := cleanTurn_line (s := s) hlen hresult rfl rfl
  let s₁ : Scan := { s with rpt := s.rpt + 0 + 1, npt := s.rpt + 0, tags := s.tags ||| 0,
                            listMode := updateMode s.listMode none }
  have hclean : ({} : CleanFlag).doCleanout = true := rfl
  have hbuf : s₁.buf = done ++ (gap ++ ([] ++ [0] ++ tail)) := at_.buf
  obtain ⟨s', hplace, placed⟩ := placeLine_moves hclean hbuf at_.wpt at_.rpt
  obtain ⟨gap', hlength, hbuf'⟩ := placed.buf
  have hturn' : cleanTurn stMode mask {} s = some (s', false) := by
    rw [hturn, if_neg Bool.false_ne_true]
    exact congrArg (Option.map _) hplace
  obtain ⟨c, hc, hne⟩ := at_.npt
  have hexit : s'.buf[s'.npt]? = some 0 := by
    have hindex : s₁.npt = (done ++ gap ++ ([] : Bytes)).length := by
      have hrpt := at_.rpt
      simp only [s₁, List.length_append, List.length_nil]
      omega
    rw [placed.npt, hindex]
    exact placed.last
  refine ⟨s', gap', ?_, ?_, hlength, ?_, ?_⟩
  · simp [cleanLoop, hc, hne, hturn', hexit]
  · simpa using hbuf'
  · simpa using placed.wpt
  · simpa [s₁] using placed.tags

/-- What the lines leave in tag_types. -/
def tagsOf (stMode : Nat) (mask : Bool) (tags : Nat) (entries : List AclEntry) : Nat :=
  entries.foldl (fun tags entry => tags ||| entryTag stMode mask entry) tags

/-- The entries which stay. -/
def keptEntries (stMode : Nat) (mask : Bool) (entries : List AclEntry) : List AclEntry :=
  entries.filter fun entry => !redundant stMode mask entry

variable (stMode mask) in
theorem cleanLoop_run (ok : ∀ entry ∈ entries, LineOk entry) (at_ : At s done gap entries tail)
    {turns : Nat} (hturns : entries.length + 2 ≤ turns) :
    ∃ s' gap', cleanLoop stMode mask {} turns s = some s' ∧
      s'.buf = done ++ aclText (keptEntries stMode mask entries) ++ 0 :: (gap' ++ tail) ∧
      gap'.length + (aclText (keptEntries stMode mask entries)).length
        = gap.length + (aclText entries).length ∧
      s'.wpt = (done ++ aclText (keptEntries stMode mask entries)).length + 1 ∧
      s'.tags = tagsOf stMode mask s.tags entries := by
  induction entries generalizing s done gap turns with
  | nil =>
    obtain ⟨turns, rfl⟩ := Nat.exists_eq_add_of_le' hturns
    obtain ⟨s', gap', hloop, hbuf, hgap, hwpt, htags⟩ := cleanLoop_end at_ turns
    refine ⟨s', gap', hloop, ?_, ?_, ?_, htags⟩
    · simpa [keptEntries] using hbuf
    · simpa [keptEntries] using hgap
    · simpa [keptEntries] using hwpt
  | cons entry entries ih =>
    obtain ⟨turns, rfl⟩ : ∃ k, turns = k + 1 := ⟨turns - 1, by omega⟩
    obtain ⟨s₁, gap₁, hturn, at₁, hgap₁, htags₁⟩ :=
      cleanTurn_entry stMode mask (ok entry List.mem_cons_self) at_
    obtain ⟨s', gap', hloop, hbuf, hgap, hwpt, htags⟩ :=
      ih (fun e he => ok e (List.mem_cons_of_mem _ he)) at₁
        (Nat.le_of_succ_le_succ (by simpa using hturns))
    obtain ⟨c, hc, hne⟩ := at_.npt
    have hkept : aclText (keptEntries stMode mask (entry :: entries))
        = (if redundant stMode mask entry then [] else entry.line)
          ++ aclText (keptEntries stMode mask entries) := by
      cases hskip : redundant stMode mask entry with
      | true => simp [keptEntries, hskip]
      | false => simp [keptEntries, hskip, aclText_cons]
    refine ⟨s', gap', ?_, ?_, ?_, ?_, ?_⟩
    · simpa [cleanLoop, hc, hne, hturn] using hloop
    · rw [hbuf, hkept]
      simp only [List.append_assoc]
    · rw [hkept, aclText_cons]
      cases hskip : redundant stMode mask entry with
      | true =>
        rw [hskip, if_pos rfl] at hgap₁
        simp only [if_true, List.length_append, List.nil_append]
        omega
      | false =>
        rw [hskip, if_neg Bool.false_ne_true] at hgap₁
        simp only [Bool.false_eq_true, if_false, List.length_append]
        omega
    · rw [hwpt, hkept]
      simp only [List.append_assoc]
    · rw [htags, htags₁]
      rfl

theorem length_aclText (entries : List AclEntry) : entries.length ≤ (aclText entries).length := by
  induction entries with
  | nil => exact Nat.zero_le _
  | cons entry entries ih =>
    have hline : 0 < entry.line.length := by simp [AclEntry.line]
    rw [aclText_cons, List.length_append, List.length_cons]
    omega

/-- The cleanout of a text leaves the entries which stay. -/
theorem aaipCleanoutStMode_aclText (ok : ∀ entry ∈ entries, LineOk entry) (stMode : Nat)
    (tail : Bytes) :
    ∃ gap tags, aaipCleanoutStMode (aclText entries ++ 0 :: tail) stMode {} =
        some ⟨aclText (keptEntries stMode (entries.any AclEntry.isMask) entries)
          ++ 0 :: (gap ++ tail), stMode, tags⟩ ∧
      gap.length + (aclText (keptEntries stMode (entries.any AclEntry.isMask) entries)).length
        = (aclText entries).length := by
  let mask := entries.any AclEntry.isMask
  have hmask : hasMask (aclText entries ++ 0 :: tail) = some mask := hasMask_aclText ok
  by_cases hnil : entries = []
  · subst hnil
    refine ⟨[], 0, ?_, rfl⟩
    simp only [aaipCleanoutStMode, hmask, Option.bind_eq_bind, Option.bind_some]
    rfl
  · have hfirst : ∃ c, (aclText entries ++ 0 :: tail)[0]? = some c ∧ c ≠ 0 := by
      obtain ⟨entry, rest, rfl⟩ := List.exists_cons_of_ne_nil hnil
      rw [aclText_cons]
      cases entry <;> exact ⟨_, rfl, by decide⟩
    have at_ : At ⟨aclText entries ++ 0 :: tail, 0, 0, 0, stMode, 0⟩ [] [] entries tail :=
      ⟨rfl, rfl, rfl, hfirst⟩
    have hturns : entries.length + 2 ≤ (aclText entries ++ 0 :: tail).length + 1 := by
      have hle := length_aclText entries
      rw [List.length_append, List.length_cons]
      omega
    obtain ⟨s', gap, hloop, hbuf, hgap, hwpt, -⟩ :=
      cleanLoop_run stMode mask ok at_ hturns
    rw [List.nil_append] at hbuf hwpt
    have hend : endText {} s' = some s'.buf := by
      have hlast : s'.buf[s'.wpt - 1]? = some 0 := by
        rw [hwpt, hbuf, Nat.add_sub_cancel, List.getElem?_append_right (Nat.le_refl _),
          Nat.sub_self]
        rfl
      have hpos : s'.wpt ≠ 0 := by omega
      simp [endText, CleanFlag.doCleanout, hpos, hlast]
    refine ⟨gap, s'.tags, ?_, by simpa using hgap⟩
    have hearly : (mask && ({} : CleanFlag).stopEarly) = false := Bool.and_false _
    simp only [aaipCleanoutStMode, hmask, hearly, hloop, hend, hbuf, Option.bind_eq_bind,
      Option.bind_some]
    rfl

end Loop

section Adding

variable {stMode : Nat} {mask : Bool} {s : Scan} {entry : AclEntry} {entries : List AclEntry}
  {before rest tail : Bytes}

/-- The flag of the run which only looks at the text. -/
def keepText : CleanFlag := { keep := true }

/-- A turn which changes no byte of the text. -/
theorem cleanTurn_keeps {len tag : Nat} {update : Option (Perms × Nat)} {skip : Bool}
    (hlen : lineEnd (s.buf.drop s.rpt) = some len)
    (hresult : lineResult stMode mask keepText (s.buf.drop s.rpt) len
      = some ⟨tag, update, skip, none⟩) :
    ∃ wpt, cleanTurn stMode mask keepText s =
      some (⟨s.buf, s.rpt + len + 1, wpt, s.rpt + len, updateMode s.listMode update,
        s.tags ||| tag⟩, false) := by
  rw [cleanTurn_line hlen hresult rfl rfl]
  cases skip with
  | true => exact ⟨s.wpt, rfl⟩
  | false =>
    by_cases hplace : s.wpt = s.rpt
    · exact ⟨s.rpt + len + 1, by simp [placeLine, hplace]⟩
    · exact ⟨s.wpt + (len + 1), by simp [placeLine, hplace, CleanFlag.doCleanout, keepText]⟩

theorem cleanLoop_keeps (ok : ∀ entry ∈ entries, LineOk entry)
    (hbuf : s.buf = before ++ (aclText entries ++ 0 :: tail)) (hrpt : s.rpt = before.length)
    (hnpt : ∃ c, s.buf[s.npt]? = some c ∧ c ≠ 0) {turns : Nat}
    (hturns : entries.length + 2 ≤ turns) :
    ∃ s', cleanLoop stMode mask keepText turns s = some s' ∧ s'.buf = s.buf ∧
      s'.tags = tagsOf stMode mask s.tags entries := by
  obtain ⟨c, hc, hne⟩ := hnpt
  have hdrop : s.buf.drop s.rpt = aclText entries ++ 0 :: tail := by
    rw [hbuf, hrpt, List.drop_left]
  induction entries generalizing s before c turns with
  | nil =>
    obtain ⟨turns, rfl⟩ := Nat.exists_eq_add_of_le' hturns
    have hresult : lineResult stMode mask keepText (s.buf.drop s.rpt) 0
        = some ⟨0, none, false, none⟩ := by
      rw [hdrop]
      rfl
    have hlen : lineEnd (s.buf.drop s.rpt) = some 0 := by
      rw [hdrop]
      rfl
    obtain ⟨wpt, hturn⟩ := cleanTurn_keeps hlen hresult
    have hexit : s.buf[s.rpt]? = some 0 := by
      rw [hbuf, hrpt, List.getElem?_append_right (Nat.le_refl _), Nat.sub_self]
      rfl
    refine ⟨⟨s.buf, s.rpt + 0 + 1, wpt, s.rpt + 0, updateMode s.listMode none, s.tags ||| 0⟩,
      ?_, rfl, Nat.or_zero s.tags⟩
    simp [cleanLoop, hc, hne, hturn, hexit]
  | cons entry entries ih =>
    obtain ⟨turns, rfl⟩ : ∃ k, turns = k + 1 := ⟨turns - 1, by omega⟩
    have hentry := ok entry List.mem_cons_self
    have hline : s.buf.drop s.rpt = entry.line ++ (aclText entries ++ 0 :: tail) := by
      rw [hdrop, aclText_cons, List.append_assoc]
    obtain ⟨update, hresult⟩ := @lineResult_entry entry (aclText entries ++ 0 :: tail) stMode mask
      keepText hentry rfl rfl
    obtain ⟨wpt, hturn⟩ := cleanTurn_keeps (s := s) (hline ▸ lineEnd_line hentry)
      (hline ▸ hresult)
    have hbuf' : s.buf = (before ++ entry.line) ++ (aclText entries ++ 0 :: tail) := by
      rw [hbuf, aclText_cons]
      simp only [List.append_assoc]
    have hrpt' : s.rpt + entry.core.length + 1 = (before ++ entry.line).length := by
      simp only [hrpt, AclEntry.line, List.length_append, List.length_singleton]
      omega
    have hnewline : s.buf[s.rpt + entry.core.length]? = some newline := by
      have hshape : s.buf = (before ++ entry.core)
          ++ newline :: (aclText entries ++ 0 :: tail) := by
        rw [hbuf', AclEntry.line]
        simp only [List.append_assoc, List.cons_append, List.nil_append]
      have hindex : s.rpt + entry.core.length = (before ++ entry.core).length := by
        rw [hrpt, List.length_append]
      rw [hindex, hshape, List.getElem?_append_right (Nat.le_refl _), Nat.sub_self]
      rfl
    obtain ⟨s', hloop, hsame, htags⟩ := ih
      (s := ⟨s.buf, s.rpt + entry.core.length + 1, wpt, s.rpt + entry.core.length,
        updateMode s.listMode update, s.tags ||| entryTag stMode mask entry⟩)
      (fun e he => ok e (List.mem_cons_of_mem _ he)) hbuf' hrpt'
      (Nat.le_of_succ_le_succ (by simpa using hturns)) newline hnewline (by decide)
      (by simp only [hrpt', hbuf', List.drop_left])
    exact ⟨s', by simpa [cleanLoop, hc, hne, hturn] using hloop, hsame, htags⟩

/-- The run which only looks reports the bits of all lines. -/
theorem aaipCleanoutStMode_keeps (ok : ∀ entry ∈ entries, LineOk entry) (stMode : Nat)
    (tail : Bytes) :
    aaipCleanoutStMode (aclText entries ++ 0 :: tail) stMode keepText =
      some ⟨aclText entries ++ 0 :: tail, stMode,
        tagsOf stMode (entries.any AclEntry.isMask) 0 entries⟩ := by
  let mask := entries.any AclEntry.isMask
  have hmask : hasMask (aclText entries ++ 0 :: tail) = some mask := hasMask_aclText ok
  have hearly : (mask && keepText.stopEarly) = false := Bool.and_false _
  have hend (s : Scan) : endText keepText s = some s.buf := rfl
  obtain ⟨s', hloop, hsame, htags⟩ : ∃ s', cleanLoop stMode mask keepText
      ((aclText entries ++ 0 :: tail).length + 1) ⟨aclText entries ++ 0 :: tail, 0, 0, 0, stMode, 0⟩
        = some s' ∧ s'.buf = aclText entries ++ 0 :: tail ∧
      s'.tags = tagsOf stMode mask 0 entries := by
    by_cases hnil : entries = []
    · subst hnil
      exact ⟨_, rfl, rfl, rfl⟩
    · have hfirst : ∃ c, (aclText entries ++ 0 :: tail)[0]? = some c ∧ c ≠ 0 := by
        obtain ⟨entry, rest, rfl⟩ := List.exists_cons_of_ne_nil hnil
        rw [aclText_cons]
        cases entry <;> exact ⟨_, rfl, by decide⟩
      have hturns : entries.length + 2 ≤ (aclText entries ++ 0 :: tail).length + 1 := by
        have hle := length_aclText entries
        rw [List.length_append, List.length_cons]
        omega
      have hbuf : aclText entries ++ 0 :: tail = [] ++ (aclText entries ++ 0 :: tail) := rfl
      exact cleanLoop_keeps ok hbuf rfl hfirst hturns
  simp only [aaipCleanoutStMode, hmask, hearly, hloop, hend, hsame, htags, Option.bind_eq_bind,
    Option.bind_some]
  rfl

theorem tagsOf_and_eq_zero {tags bits : Nat} :
    tagsOf stMode mask tags entries &&& bits = 0 ↔
      tags &&& bits = 0 ∧ ∀ entry ∈ entries, entryTag stMode mask entry &&& bits = 0 := by
  induction entries generalizing tags with
  | nil => simp [tagsOf]
  | cons entry entries ih =>
    have hstep : tagsOf stMode mask tags (entry :: entries)
        = tagsOf stMode mask (tags ||| entryTag stMode mask entry) entries := rfl
    rw [hstep, ih, Nat.and_or_distrib_right, Nat.or_eq_zero_iff, List.forall_mem_cons, and_assoc]

/-- Bits which tell whether there is an entry of a kind. -/
theorem tagsOf_kind {bits : Nat} {kind : AclEntry → Bool}
    (h : ∀ entry, entryTag stMode mask entry &&& bits = 0 ↔ kind entry = false) :
    tagsOf stMode mask 0 entries &&& bits = 0 ↔ entries.any kind = false := by
  rw [tagsOf_and_eq_zero, List.any_eq_false]
  simp [h]

variable (stMode mask) in
/-- The bits by which aaip_add_acl_st_mode() recognizes the kinds of entries. -/
theorem entryTag_bits (entry : AclEntry) :
    (entryTag stMode mask entry &&& (4 ||| 32) = 0 ↔ entry.isUserObj = false) ∧
      (entryTag stMode mask entry &&& (2 ||| 16 ||| 1024) = 0 ↔ entry.isGroupObj = false) ∧
      (entryTag stMode mask entry &&& (1 ||| 8) = 0 ↔ entry.isOther = false) ∧
      (entryTag stMode mask entry &&& (128 ||| 256) = 0 ↔ entry.isNamed = false) ∧
      (entryTag stMode mask entry &&& 512 = 0 ↔ entry.isMask = false) := by
  cases entry with
  | userObj perms | other perms =>
    simp only [entryTag, AclEntry.isUserObj, AclEntry.isGroupObj, AclEntry.isOther,
      AclEntry.isNamed, AclEntry.isMask]
    split <;> decide
  | groupObj perms =>
    simp only [entryTag, AclEntry.isUserObj, AclEntry.isGroupObj, AclEntry.isOther,
      AclEntry.isNamed, AclEntry.isMask]
    split
    · decide
    · split <;> decide
  | mask perms | user name perms | group name perms =>
    simp only [entryTag, AclEntry.isUserObj, AclEntry.isGroupObj, AclEntry.isOther,
      AclEntry.isNamed, AclEntry.isMask]
    decide

theorem sprintfToEnd_aclText (ok : ∀ entry ∈ entries, LineOk entry)
    (hroom : entry.line.length ≤ rest.length) :
    sprintfToEnd (aclText entries ++ 0 :: rest) entry.line =
      some (aclText (entries ++ [entry]) ++ 0 :: rest.drop entry.line.length) := by
  have hrest : 0 :: rest = (0 :: rest.take entry.line.length) ++ rest.drop entry.line.length := by
    rw [List.cons_append, List.take_append_drop]
  have hlength : (entry.line ++ [0]).length = (0 :: rest.take entry.line.length).length := by
    simp only [List.length_append, List.length_cons, List.length_take, List.length_nil]
    omega
  have hone : aclText [entry] = entry.line := List.append_nil _
  rw [sprintfToEnd, strlen_aclText ok]
  simp only [Option.bind_eq_bind, Option.bind_some]
  rw [hrest, overwrite_append hlength, aclText_append, hone]
  simp only [List.append_assoc, List.cons_append, List.nil_append]

/-- A line gets added if it is missing, as long as there is room for it. -/
theorem addLine_aclText (ok : ∀ entry ∈ entries, LineOk entry) (rest : Bytes) (missing : Prop)
    [Decidable missing] (hentry : LineOk entry) (hroom : entry.line.length ≤ rest.length) :
    ∃ more room, more = (if missing then [entry] else []) ∧
      addLine missing (aclText entries ++ 0 :: rest) entry.core =
        some (aclText (entries ++ more) ++ 0 :: room) ∧
      (∀ e ∈ entries ++ more, LineOk e) ∧
      (aclText more).length + room.length = rest.length ∧
      (aclText more).length ≤ entry.line.length := by
  have hone : aclText [entry] = entry.line := List.append_nil _
  by_cases h : missing
  · refine ⟨[entry], rest.drop entry.line.length, (if_pos h).symm, ?_, ?_, ?_, ?_⟩
    · rw [addLine, if_pos h]
      exact sprintfToEnd_aclText ok hroom
    · intro e he
      rcases List.mem_append.mp he with he | he
      · exact ok e he
      · rwa [List.mem_singleton.mp he]
    · rw [hone, List.length_drop]
      omega
    · rw [hone]
  · refine ⟨[], rest, (if_neg h).symm, ?_, ?_, Nat.zero_add _, Nat.zero_le _⟩
    · rw [addLine, if_neg h, List.append_nil]
    · rwa [List.append_nil]

/-- The reported bits tell which entries are missing. -/
theorem added_eq_missingEntries (stMode : Nat) (mask : Bool) (user group other : Perms) :
    (if tagsOf stMode mask 0 entries &&& (4 ||| 32) = 0 then [AclEntry.userObj user] else []) ++
    (if tagsOf stMode mask 0 entries &&& (2 ||| 16 ||| 1024) = 0 then [.groupObj group] else []) ++
    (if tagsOf stMode mask 0 entries &&& (1 ||| 8) = 0 then [.other other] else []) ++
    (if tagsOf stMode mask 0 entries &&& (128 ||| 256) ≠ 0 ∧
      tagsOf stMode mask 0 entries &&& 512 = 0 then [.mask group] else []) =
      missingEntries entries user group other := by
  have hbits (entry : AclEntry) := entryTag_bits stMode mask entry
  rw [missingEntries]
  simp only [tagsOf_kind fun entry => (hbits entry).1, tagsOf_kind fun entry => (hbits entry).2.1,
    tagsOf_kind fun entry => (hbits entry).2.2.1, ne_eq,
    tagsOf_kind fun entry => (hbits entry).2.2.2.1, tagsOf_kind fun entry => (hbits entry).2.2.2.2]
  cases entries.any AclEntry.isUserObj <;> cases entries.any AclEntry.isGroupObj <;>
    cases entries.any AclEntry.isOther <;> cases entries.any AclEntry.isNamed <;>
      cases entries.any AclEntry.isMask <;> rfl

/-- The run which adds writes the entries which are missing. -/
theorem aaipAddAclStMode_aclText (ok : ∀ entry ∈ entries, LineOk entry) (stMode : Nat)
    (hroom : 42 ≤ rest.length) :
    ∃ missing room, missing = missingEntries entries (classPerms stMode 6) (classPerms stMode 3)
        (classPerms stMode 0) ∧
      (aclText missing).length ≤ 42 ∧ (aclText missing).length + room.length = rest.length ∧
      aaipAddAclStMode (aclText entries ++ 0 :: rest) stMode =
        some (aclText (entries ++ missing) ++ 0 :: room) := by
  let tags := tagsOf stMode (entries.any AclEntry.isMask) 0 entries
  have hkeep : aaipCleanoutStMode (aclText entries ++ 0 :: rest) stMode { keep := true }
      = some ⟨aclText entries ++ 0 :: rest, stMode, tags⟩ := aaipCleanoutStMode_keeps ok stMode rest
  have huserText : text "user::" ++ modeText stMode 6
      = (AclEntry.userObj (classPerms stMode 6)).core := congrArg _ modeText_eq
  have hgroupText : text "group::" ++ modeText stMode 3
      = (AclEntry.groupObj (classPerms stMode 3)).core := congrArg _ modeText_eq
  have hotherText : text "other::" ++ modeText stMode 0
      = (AclEntry.other (classPerms stMode 0)).core := congrArg _ modeText_eq
  have hmaskText : text "mask::" ++ modeText stMode 3
      = (AclEntry.mask (classPerms stMode 3)).core := congrArg _ modeText_eq
  have huserLine : (AclEntry.userObj (classPerms stMode 6)).line.length = 10 := rfl
  have hgroupLine : (AclEntry.groupObj (classPerms stMode 3)).line.length = 11 := rfl
  have hotherLine : (AclEntry.other (classPerms stMode 0)).line.length = 11 := rfl
  have hmaskLine : (AclEntry.mask (classPerms stMode 3)).line.length = 10 := rfl
  obtain ⟨user, room₁, huser, hadd₁, ok₁, hroom₁, hshort₁⟩ := addLine_aclText ok rest
    (tags &&& (4 ||| 32) = 0) (show LineOk (.userObj (classPerms stMode 6)) from trivial) (by omega)
  obtain ⟨group, room₂, hgroup, hadd₂, ok₂, hroom₂, hshort₂⟩ := addLine_aclText ok₁ room₁
    (tags &&& (2 ||| 16 ||| 1024) = 0)
    (show LineOk (.groupObj (classPerms stMode 3)) from trivial) (by omega)
  obtain ⟨other, room₃, hother, hadd₃, ok₃, hroom₃, hshort₃⟩ := addLine_aclText ok₂ room₂
    (tags &&& (1 ||| 8) = 0) (show LineOk (.other (classPerms stMode 0)) from trivial) (by omega)
  obtain ⟨masks, room, hmasks, hadd₄, -, hroom₄, hshort₄⟩ := addLine_aclText ok₃ room₃
    (tags &&& (128 ||| 256) ≠ 0 ∧ tags &&& 512 = 0)
    (show LineOk (.mask (classPerms stMode 3)) from trivial) (by omega)
  have hlength : (aclText (user ++ group ++ other ++ masks)).length = (aclText user).length +
      (aclText group).length + (aclText other).length + (aclText masks).length := by
    simp only [aclText_append, List.length_append]
  refine ⟨user ++ group ++ other ++ masks, room, ?_, by omega, by omega, ?_⟩
  · rw [huser, hgroup, hother, hmasks]
    exact added_eq_missingEntries stMode _ _ _ _
  · simp only [aaipAddAclStMode, hkeep, Option.bind_eq_bind, Option.bind_some, huserText,
      hgroupText, hotherText, hmaskText, hadd₁, hadd₂, hadd₃, hadd₄]
    simp only [List.append_assoc]

theorem keptEntries_any {kind : AclEntry → Bool}
    (h : ∀ entry, kind entry = true → redundant stMode mask entry = false) :
    (keptEntries stMode mask entries).any kind = entries.any kind := by
  rw [Bool.eq_iff_iff, List.any_eq_true, List.any_eq_true]
  constructor
  · rintro ⟨entry, hentry, hkind⟩
    exact ⟨entry, (List.mem_filter.mp hentry).1, hkind⟩
  · rintro ⟨entry, hentry, hkind⟩
    exact ⟨entry, List.mem_filter.mpr ⟨hentry, by simp [h entry hkind]⟩, hkind⟩

/-- Two entries of a type of which there may be only one are the same entry. -/
theorem eq_of_single (hnodup : (entries.filterMap AclEntry.single).Nodup) {entry' : AclEntry}
    (hentry : entry ∈ entries) (hentry' : entry' ∈ entries) {type : Nat}
    (htype : entry.single = some type) (htype' : entry'.single = some type) : entry = entry' := by
  induction entries with
  | nil => exact absurd hentry List.not_mem_nil
  | cons first entries ih =>
    have hrest : (entries.filterMap AclEntry.single).Nodup := by
      cases hfirst : first.single with
      | none => rwa [List.filterMap_cons_none hfirst] at hnodup
      | some t =>
        rw [List.filterMap_cons_some hfirst] at hnodup
        exact (List.nodup_cons.mp hnodup).2
    have hfresh (h : first.single = some type) {e : AclEntry} (he : e ∈ entries) :
        e.single ≠ some type := by
      rw [List.filterMap_cons_some h] at hnodup
      intro hsingle
      exact (List.nodup_cons.mp hnodup).1 (List.mem_filterMap.mpr ⟨e, he, hsingle⟩)
    rcases List.mem_cons.mp hentry with rfl | hin
    · rcases List.mem_cons.mp hentry' with rfl | hin'
      · rfl
      · exact absurd htype' (hfresh htype hin')
    · rcases List.mem_cons.mp hentry' with rfl | hin'
      · exact absurd htype (hfresh htype' hin)
      · exact ih hrest hin hin'

variable (stMode mask) in
/-- A kind of which there may be only one entry. What is redundant comes back as `value`. -/
theorem kind_comes_back (hnodup : (entries.filterMap AclEntry.single).Nodup)
    (kind : AclEntry → Bool) (type : Nat) (value : AclEntry)
    (hsingle : ∀ e, kind e = true → e.single = some type)
    (hvalue : ∀ e, kind e = true → redundant stMode mask e = true → e = value)
    (hkind : kind entry = true) :
    (entry ∈ keptEntries stMode mask entries ∨
        ((keptEntries stMode mask entries).any kind = false ∧ entry = value)) ↔
      (entry ∈ entries ∨ (entries.any kind = false ∧ entry = value)) := by
  constructor
  · rintro (hkept | ⟨hnone, rfl⟩)
    · exact .inl (List.mem_filter.mp hkept).1
    · cases hany : entries.any kind with
      | false => exact .inr ⟨rfl, rfl⟩
      | true =>
        obtain ⟨e, he, hkind'⟩ := List.any_eq_true.mp hany
        have hredundant : redundant stMode mask e = true := by
          by_contra hkeep
          have hmem : e ∈ keptEntries stMode mask entries :=
            List.mem_filter.mpr ⟨he, by simpa using hkeep⟩
          exact List.any_eq_false.mp hnone e hmem hkind'
        rw [← hvalue e hkind' hredundant]
        exact .inl he
  · rintro (hentry | ⟨hnone, rfl⟩)
    · cases hredundant : redundant stMode mask entry with
      | false => exact .inl (List.mem_filter.mpr ⟨hentry, by simp [hredundant]⟩)
      | true =>
        refine .inr ⟨List.any_eq_false.mpr fun e he hkind' => ?_, hvalue entry hkind hredundant⟩
        obtain ⟨hmem, hkeep⟩ := List.mem_filter.mp he
        have hsame : e = entry :=
          eq_of_single hnodup hmem hentry (hsingle e hkind') (hsingle entry hkind)
        rw [hsame, hredundant] at hkeep
        exact absurd hkeep Bool.false_ne_true
    · refine .inr ⟨List.any_eq_false.mpr fun e he hkind' => ?_, rfl⟩
      exact List.any_eq_false.mp hnone e (List.mem_filter.mp he).1 hkind'

theorem mem_missingEntries {user group other : Perms} :
    entry ∈ missingEntries entries user group other ↔
      (entries.any AclEntry.isUserObj = false ∧ entry = .userObj user) ∨
      (entries.any AclEntry.isGroupObj = false ∧ entry = .groupObj group) ∨
      (entries.any AclEntry.isOther = false ∧ entry = .other other) ∨
      (entries.any AclEntry.isNamed = true ∧ entries.any AclEntry.isMask = false ∧
        entry = .mask group) := by
  simp only [missingEntries]
  cases entries.any AclEntry.isUserObj <;> cases entries.any AclEntry.isGroupObj <;>
    cases entries.any AclEntry.isOther <;> cases entries.any AclEntry.isNamed <;>
      cases entries.any AclEntry.isMask <;> simp

/-- The entries after the completion of what the cleanout has left. -/
theorem mem_completed (hnodup : (entries.filterMap AclEntry.single).Nodup) (stMode : Nat)
    (entry : AclEntry) :
    let kept := keptEntries stMode (entries.any AclEntry.isMask) entries
    entry ∈ kept ++ missingEntries kept (classPerms stMode 6) (classPerms stMode 3)
        (classPerms stMode 0) ↔
      entry ∈ entries ∨ entry ∈ missingEntries entries (classPerms stMode 6)
        (classPerms stMode 3) (classPerms stMode 0) := by
  let mask := entries.any AclEntry.isMask
  have hmask : (keptEntries stMode mask entries).any AclEntry.isMask = mask :=
    keptEntries_any fun e he => by cases e <;> first | rfl | cases he
  have hnamed : (keptEntries stMode mask entries).any AclEntry.isNamed
      = entries.any AclEntry.isNamed :=
    keptEntries_any fun e he => by cases e <;> first | rfl | cases he
  have hplain (h : redundant stMode mask entry = false) :
      entry ∈ keptEntries stMode mask entries ↔ entry ∈ entries := by
    rw [keptEntries, List.mem_filter, h]
    exact and_iff_left rfl
  intro kept
  rw [List.mem_append, mem_missingEntries, mem_missingEntries]
  cases entry with
  | userObj perms =>
    have hkind : (AclEntry.userObj perms).isUserObj = true := rfl
    have hback := kind_comes_back stMode mask hnodup AclEntry.isUserObj aclUserObj
      (.userObj (classPerms stMode 6)) (fun e he => by cases e <;> first | rfl | cases he)
      (fun e he hr => by
        cases e with
        | userObj p => exact congrArg _ (of_decide_eq_true hr)
        | _ => cases he) hkind
    simpa using hback
  | groupObj perms =>
    have hkind : (AclEntry.groupObj perms).isGroupObj = true := rfl
    have hback := kind_comes_back stMode mask hnodup AclEntry.isGroupObj aclGroupObj
      (.groupObj (classPerms stMode 3)) (fun e he => by cases e <;> first | rfl | cases he)
      (fun e he hr => by
        cases e with
        | groupObj p =>
          exact congrArg _ (of_decide_eq_true (Bool.and_eq_true_iff.mp hr).2)
        | _ => cases he) hkind
    simpa using hback
  | other perms =>
    have hkind : (AclEntry.other perms).isOther = true := rfl
    have hback := kind_comes_back stMode mask hnodup AclEntry.isOther aclOther
      (.other (classPerms stMode 0)) (fun e he => by cases e <;> first | rfl | cases he)
      (fun e he hr => by
        cases e with
        | other p => exact congrArg _ (of_decide_eq_true hr)
        | _ => cases he) hkind
    simpa using hback
  | mask perms =>
    have hkept := hplain rfl
    simp only [kept, mask] at hmask hnamed hkept ⊢
    rw [hkept, hmask, hnamed]
    simp
  | user name perms =>
    simpa using hplain rfl
  | group name perms =>
    simpa using hplain rfl

end Adding

section Neutral

/-- The cleanout removes exactly the redundant entries, stays inside the memory of the text, and
leaves what is behind the text. The completion with room for 42 more bytes yields the entries of
the original text and the mandatory ones which this text lacked. -/
theorem cleanout_neutral (entries : List AclEntry) (ok : ∀ entry ∈ entries, LineOk entry)
    (hnodup : (entries.filterMap AclEntry.single).Nodup) (stMode : Nat) (tail room : Bytes)
    (hroom : 42 ≤ room.length) :
    let kept := entries.filter fun entry => !redundant stMode (entries.any AclEntry.isMask) entry
    (∃ garbage tags,
      aaipCleanoutStMode (aclText entries ++ 0 :: tail) stMode {} =
        some ⟨aclText kept ++ 0 :: (garbage ++ tail), stMode, tags⟩ ∧
      (aclText kept ++ 0 :: garbage).length = (aclText entries ++ [0]).length) ∧
    ∃ completed room',
      aaipAddAclStMode (aclText kept ++ 0 :: room) stMode =
        some (aclText completed ++ 0 :: room') ∧
      (aclText completed ++ 0 :: room').length = (aclText kept ++ 0 :: room).length ∧
      (aclText completed).length ≤ (aclText kept).length + 42 ∧
      ∀ entry, entry ∈ completed ↔ entry ∈ entries ∨ entry ∈ missingEntries entries
        (classPerms stMode 6) (classPerms stMode 3) (classPerms stMode 0) := by
  intro kept
  have hkept : kept = keptEntries stMode (entries.any AclEntry.isMask) entries := rfl
  constructor
  · obtain ⟨garbage, tags, hclean, hlength⟩ := aaipCleanoutStMode_aclText ok stMode tail
    refine ⟨garbage, tags, hclean, ?_⟩
    rw [← hkept] at hlength
    simp only [List.length_append, List.length_cons, List.length_nil]
    omega
  · have okKept : ∀ entry ∈ kept, LineOk entry := by
      intro entry hentry
      exact ok entry (List.mem_filter.mp hentry).1
    obtain ⟨missing, room', hmissing, hshort, hlength, hadd⟩ :=
      aaipAddAclStMode_aclText okKept stMode hroom
    refine ⟨kept ++ missing, room', hadd, ?_, ?_, fun entry => ?_⟩
    · simp only [aclText_append, List.length_append, List.length_cons]
      omega
    · rw [aclText_append, List.length_append]
      omega
    · rw [hmissing]
      exact mem_completed hnodup stMode entry

/-- A text with a named entry, of which one line is redundant. -/
theorem named_neutral :
    let entries : List AclEntry := [.userObj ⟨true, true, false⟩, .user [0x61] ⟨true, false, false⟩,
      .groupObj ⟨true, false, false⟩, .mask ⟨true, false, false⟩, .other ⟨false, false, false⟩]
    let kept := entries.filter fun entry => !redundant 0o604 (entries.any AclEntry.isMask) entry
    (∃ garbage tags,
      aaipCleanoutStMode (aclText entries ++ 0 :: []) 0o604 {} =
        some ⟨aclText kept ++ 0 :: (garbage ++ []), 0o604, tags⟩ ∧
      (aclText kept ++ 0 :: garbage).length = (aclText entries ++ [0]).length) ∧
    ∃ completed room',
      aaipAddAclStMode (aclText kept ++ 0 :: List.replicate 42 0) 0o604 =
        some (aclText completed ++ 0 :: room') ∧
      (aclText completed ++ 0 :: room').length
        = (aclText kept ++ 0 :: List.replicate 42 0).length ∧
      (aclText completed).length ≤ (aclText kept).length + 42 ∧
      ∀ entry, entry ∈ completed ↔ entry ∈ entries ∨ entry ∈ missingEntries entries
        (classPerms 0o604 6) (classPerms 0o604 3) (classPerms 0o604 0) :=
  cleanout_neutral _
    (by
      intro entry hentry
      simp only [List.mem_cons, List.not_mem_nil, or_false] at hentry
      rcases hentry with rfl | rfl | rfl | rfl | rfl
      · exact trivial
      · exact ⟨List.cons_ne_nil _ _, by decide +kernel⟩
      · exact trivial
      · exact trivial
      · exact trivial)
    (by decide) 0o604 [] _ (by decide)

/-- A text which has only the entry of others. The completion adds two more lines. -/
theorem only_other_not_neutral :
    aaipCleanoutStMode (aclText [.other ⟨true, false, false⟩] ++ 0 :: List.replicate 42 0) 0o004 {}
        = some ⟨0 :: text "ther::r--" ++ newline :: 0 :: List.replicate 42 0, 0o004, 8⟩ ∧
      aaipAddAclStMode (0 :: text "ther::r--" ++ newline :: 0 :: List.replicate 42 0) 0o004
        = some (aclText [.userObj ⟨false, false, false⟩, .groupObj ⟨false, false, false⟩,
            .other ⟨true, false, false⟩] ++ 0 :: List.replicate 21 0) ∧
      ¬ ∀ entry, entry ∈ [AclEntry.userObj ⟨false, false, false⟩,
          .groupObj ⟨false, false, false⟩, .other ⟨true, false, false⟩]
        ↔ entry ∈ [AclEntry.other ⟨true, false, false⟩] := by
  refine ⟨by decide, by decide, fun h => ?_⟩
  exact absurd ((h (.userObj ⟨false, false, false⟩)).mp (by decide)) (by decide)

end Neutral

end AclCleanout
