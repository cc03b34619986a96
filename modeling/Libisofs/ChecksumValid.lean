import Libisofs.ChecksumImage

/-!
# Written tags are found valid

The positions which were computed in advance are those where the tags get written. So each
tag announces all blocks in front of it, and the check follows the tags up to the tree tag.
-/

namespace ChecksumImage

open Texts Unrollings ChecksumTags

variable {c : Clib} {s : Session}

/-! ## Tag blocks -/

theorem length_decimal_le (n : UInt32) : (decimal n.toNat).length ≤ 10 := by
  have hlt := n.toNat_lt
  rw [decimal, List.length_map, Nat.length_toDigits_le_iff (by decide) (by decide)]
  omega

theorem length_nextText_le (tag : Md5Tag) : (nextText tag).length ≤ 25 := by
  have hlen := length_decimal_le tag.nextTag
  unfold nextText
  rcases nextWord_cases tag.tagType with h | h | h
  · rw [h]
    exact Nat.zero_le _
  · have hword : (text "next=").length = 5 := rfl
    have hblank : (text " ").length = 1 := rfl
    simp only [h, List.length_append, hword, hblank]
    omega
  · have hword : (text "session_start=").length = 14 := rfl
    have hblank : (text " ").length = 1 := rfl
    simp only [h, List.length_append, hword, hblank]
    omega

theorem length_tagText_le {tag : Md5Tag} (htype : tag.tagType ∈ [1, 2, 3, 4])
    (hmd5 : tag.md5.length = 16) : (tagText tag).length ≤ 2048 := by
  have hmagic : (isoUtilTagMagic tag.tagType).length ≤ 31 := by
    generalize tag.tagType = tagType at htype
    simp only [List.mem_cons, List.not_mem_nil, or_false] at htype
    rcases htype with rfl | rfl | rfl | rfl <;> decide
  have hpos := length_decimal_le tag.pos
  have hstart := length_decimal_le tag.rangeStart
  have hsize := length_decimal_le tag.rangeSize
  have hnext := length_nextText_le tag
  have hwords : (text " pos=").length = 5 ∧ (text " range_start=").length = 13 ∧
      (text " range_size=").length = 12 ∧ (text " md5=").length = 5 ∧
        (text " self=").length = 6 ∧ (text "\n").length = 1 := by decide
  obtain ⟨h₁, h₂, h₃, h₄, h₅, h₆⟩ := hwords
  simp only [tagText, List.length_append, length_hex, length_md5, h₅, h₆]
  simp only [parameterText, List.length_append, length_hex, hmd5, h₁, h₂, h₃, h₄]
  omega

theorem ofText_bytes {line : Bytes} (h : line.length ≤ 2048) (more : Bytes) :
    ∃ rest, (Block.ofText (line ++ more)).bytes = line ++ rest := by
  refine ⟨(more ++ List.replicate 2048 0).take (2048 - line.length), ?_⟩
  change (line ++ more ++ List.replicate 2048 0).take 2048 = _
  rw [List.append_assoc, List.take_append, List.take_of_length_le h]

/-- A tag block is decoded to its tag, even if there is another line behind the tag. -/
theorem decodes_ofText {tag : Md5Tag} (htype : tag.tagType ∈ [1, 2, 3, 4])
    (hmd5 : tag.md5.length = 16) (hnext : nextWord tag.tagType = none → tag.nextTag = 0)
    (more : Bytes) : Decodes c (Block.ofText (tagText tag ++ more)) tag := by
  obtain ⟨rest, hrest⟩ := ofText_bytes (length_tagText_le htype hmd5) more
  unfold Decodes
  rw [hrest, List.append_assoc]
  exact decode_tagText htype hmd5 hnext

theorem noTag_volDesc (d : VolDesc) : NoTag c d.block := by
  obtain ⟨type, body⟩ := d
  cases type with
  | bootRecord => rfl
  | primary => rfl
  | supplementary => rfl
  | terminator => rfl

/-! ## Positions -/

theorem length_writerDescs (copy : Copy) : (s.writerDescs copy).length =
    1 + s.elTorito.toList.length + s.joliet.toList.length + s.iso1999.toList.length := by
  simp only [Session.writerDescs, List.length_cons, List.length_append, List.length_map]
  omega

theorem length_toList_le {α : Type} (o : Option α) : o.toList.length ≤ 1 := by
  cases o with
  | none => exact Nat.zero_le 1
  | some a => exact le_rfl

theorem length_superblock (copy : Copy) : (s.superblock copy).length =
    16 + (s.writerDescs copy).length + 1 := by
  simp only [Session.superblock, Session.volDescs, List.length_append, List.length_map,
    List.Vector.toList_length, List.length_singleton]
  omega

theorem sb_eq (copy : Copy) : s.sb = 16 + (s.writerDescs copy).length + 1 := by
  rw [Session.sb, length_superblock, length_writerDescs, length_writerDescs]

theorem sb_bounds : 16 ≤ s.sb ∧ s.sb < 32 := by
  have h₁ := length_toList_le s.elTorito
  have h₂ := length_toList_le s.joliet
  have h₃ := length_toList_le s.iso1999
  rw [sb_eq .session, length_writerDescs]
  omega

theorem lba_fits : s.msBlock.toNat + s.tagIndex + 1 + s.tail.length ≤ 2 ^ 32 := by
  have h := s.fits
  simp only [Session.tagIndex, Session.treeIndex, sb_eq .session, length_writerDescs]
  omega

/-- What stands behind the System Area is no tag. -/
theorem superblock_noTag (copy : Copy) {i : Nat} {block : Block} (hi : 16 ≤ i)
    (h : (s.superblock copy)[i]? = some block) : NoTag c block := by
  rw [Session.superblock, List.getElem?_append_right (by simpa using hi), List.getElem?_map] at h
  obtain ⟨d, -, rfl⟩ := Option.map_eq_some_iff.mp h
  exact noTag_volDesc d

theorem layout_sb : s.layout.checksumSbTagPos = lbaOf s s.sb := by
  simp only [Session.layout, lbaOf, sb_eq .session, UInt32.ofNat_add, UInt32.add_assoc]
  rfl

theorem layout_tree : s.layout.checksumTreeTagPos = lbaOf s s.treeIndex := by
  change s.layout.checksumSbTagPos + 1 + UInt32.ofNat s.second.length +
    UInt32.ofNat s.tree.length = _
  rw [layout_sb]
  simp only [lbaOf, Session.treeIndex, UInt32.ofNat_add, UInt32.add_assoc]
  rfl

theorem layout_tag : s.layout.checksumTagPos = lbaOf s s.tagIndex := by
  change s.layout.checksumTreeTagPos + 1 + UInt32.ofNat s.data.length = _
  rw [layout_tree]
  simp only [lbaOf, Session.tagIndex, UInt32.ofNat_add, UInt32.add_assoc]
  rfl

theorem lbaOf_sub (index : Nat) : lbaOf s index - s.msBlock = UInt32.ofNat index := by
  rw [lbaOf, UInt32.add_comm, UInt32.add_sub_cancel]

theorem layout_rlsb : s.layout.checksumRlsbTagPos = UInt32.ofNat s.sb := by
  have hcomm : 16 + (s.writerDescs .session).length + 1 =
      (s.writerDescs .session).length + 16 + 1 := by omega
  rw [sb_eq .session, hcomm]
  simp only [Session.layout, UInt32.ofNat_add]
  rfl

theorem toNat_sb : (UInt32.ofNat s.sb).toNat = s.sb := by
  have h := @sb_bounds s
  rw [UInt32.toNat_ofNat']
  omega

/-! ## Writing -/

/-- The state of the writer after some blocks. -/
def stage (s : Session) (overwrite : Option (Nat → Block)) (done : List Block) : Ecma119Image :=
  { s.layout with checksumCtx := contents done, optsOverwrite := overwrite, written := done }

variable {overwrite : Option (Nat → Block)} {done : List Block}

theorem contents_append (xs ys : List Block) : contents (xs ++ ys) = contents xs ++ contents ys :=
  List.flatMap_append

theorem foldl_isoWrite (blocks : List Block) :
    blocks.foldl isoWrite (stage s overwrite done) = stage s overwrite (done ++ blocks) := by
  induction blocks generalizing done with
  | nil => rw [List.foldl_nil, List.append_nil]
  | cons block rest ih =>
    have hone : isoWrite (stage s overwrite done) block = stage s overwrite (done ++ [block]) := by
      have hcontents : contents (done ++ [block]) = contents done ++ block.bytes := by
        rw [contents_append, contents, contents, List.flatMap_singleton]
      simp only [isoWrite, stage, hcontents]
    rw [List.foldl_cons, hone, ih, List.append_assoc, List.singleton_append]

theorem foldl_written (t : Ecma119Image) (blocks : List Block) :
    (blocks.foldl isoWrite t).written = t.written ++ blocks ∧
      (blocks.foldl isoWrite t).optsOverwrite = t.optsOverwrite := by
  induction blocks generalizing t with
  | nil => exact ⟨(List.append_nil _).symm, rfl⟩
  | cons block rest ih =>
    obtain ⟨hwritten, hoverwrite⟩ := ih (isoWrite t block)
    refine ⟨?_, hoverwrite⟩
    rw [List.foldl_cons, hwritten]
    simp only [isoWrite, List.append_assoc, List.singleton_append]

/-- The tag block which is written to the session at its place. -/
def tagBlock (s : Session) (done : List Block) (tagType : Nat) (next : UInt32) : Block :=
  Block.ofText (tagText (sessionTag s done tagType done.length next))

theorem announced_two (h : done.length = s.sb) : announced (stage s overwrite done) 2 =
    sessionTag s done 2 done.length (lbaOf s s.treeIndex) := by
  have hpos : (stage s overwrite done).checksumSbTagPos = lbaOf s s.sb := layout_sb
  have hnext : (stage s overwrite done).checksumTreeTagPos = lbaOf s s.treeIndex := layout_tree
  have hsize : lbaOf s s.sb - (stage s overwrite done).checksumRangeStart = UInt32.ofNat s.sb :=
    lbaOf_sub s.sb
  simp only [announced, announced.tagPos, announced.start, sessionTag, hpos, hnext, h,
    OfNat.ofNat_ne_one, Nat.reduceEqDiff, if_false, if_true, hsize]
  rw [← h, List.take_length]
  rfl

theorem announced_three (h : done.length = s.treeIndex) : announced (stage s overwrite done) 3 =
    sessionTag s done 3 done.length (lbaOf s s.tagIndex) := by
  have hpos : (stage s overwrite done).checksumTreeTagPos = lbaOf s s.treeIndex := layout_tree
  have hnext : (stage s overwrite done).checksumTagPos = lbaOf s s.tagIndex := layout_tag
  have hsize : lbaOf s s.treeIndex - (stage s overwrite done).checksumRangeStart =
      UInt32.ofNat s.treeIndex := lbaOf_sub s.treeIndex
  simp only [announced, announced.tagPos, announced.start, sessionTag, hpos, hnext, h,
    OfNat.ofNat_ne_one, Nat.reduceEqDiff, if_false, if_true, hsize]
  rw [← h, List.take_length]
  rfl

theorem announced_one (h : done.length = s.tagIndex) : announced (stage s overwrite done) 1 =
    sessionTag s done 1 done.length 0 := by
  have hpos : (stage s overwrite done).checksumTagPos = lbaOf s s.tagIndex := layout_tag
  have hsize : (stage s overwrite done).checksumRangeSize = UInt32.ofNat s.tagIndex := by
    change s.layout.checksumTagPos - s.msBlock = _
    rw [layout_tag, lbaOf_sub]
  simp only [announced, announced.tagPos, announced.start, sessionTag, hpos, h, hsize,
    OfNat.one_ne_ofNat, if_false, if_true]
  rw [← h, List.take_length]
  rfl

theorem write_two (h : done.length = s.sb) : isoMd5WriteTag (stage s overwrite done) 2 =
    .ok (stage s overwrite (done ++ [tagBlock s done 2 (lbaOf s s.treeIndex)])) := by
  have hone := @foldl_isoWrite s overwrite done [tagBlock s done 2 (lbaOf s s.treeIndex)]
  rw [← hone, tagBlock, ← @announced_two s overwrite done h]
  rfl

theorem write_three (h : done.length = s.treeIndex) : isoMd5WriteTag (stage s overwrite done) 3 =
    .ok (stage s overwrite (done ++ [tagBlock s done 3 (lbaOf s s.tagIndex)])) := by
  have hone := @foldl_isoWrite s overwrite done [tagBlock s done 3 (lbaOf s s.tagIndex)]
  rw [← hone, tagBlock, ← @announced_three s overwrite done h]
  rfl

/-- The session tag may be followed by the line of scdbackup. -/
theorem composeTag_text (t : Ecma119Image) :
    ∃ more, tagText (announced t 1) ++ more = (composeTag t 1).1 := by
  unfold composeTag
  split
  next =>
    unfold isoMd5WriteScdbackupTag
    simp only [List.append_assoc]
    exact List.prefix_append _ _
  next => exact ⟨[], List.append_nil _⟩

theorem write_one (h : done.length = s.tagIndex) : ∃ more t,
    isoMd5WriteTag (stage s overwrite done) 1 = .ok t ∧ t.optsOverwrite = overwrite ∧
      t.written = done ++ [Block.ofText (tagText (sessionTag s done 1 done.length 0) ++ more)] := by
  obtain ⟨more, hmore⟩ := composeTag_text (stage s overwrite done)
  rw [← @announced_one s overwrite done h]
  refine ⟨more, isoWrite { stage s overwrite done with
    checksumCtx := (composeTag (stage s overwrite done) 1).2 }
      (Block.ofText (composeTag (stage s overwrite done) 1).1), rfl, rfl, ?_⟩
  rw [hmore]
  rfl

/-- The session in the order of its blocks. -/
structure Written (s : Session) (written : List Block) : Prop where
  superblock : written.take s.sb = s.superblock .session
  sbTag : written[s.sb]? = some (tagBlock s (written.take s.sb) 2 (lbaOf s s.treeIndex))
  treeTag : written[s.treeIndex]? =
    some (tagBlock s (written.take s.treeIndex) 3 (lbaOf s s.tagIndex))
  tag : ∃ more, written[s.tagIndex]? =
    some (Block.ofText (tagText (sessionTag s written 1 s.tagIndex 0) ++ more))
  length : written.length = s.tagIndex + 1 + s.tail.length

theorem take_and_next (front behind : List Block) (block : Block) :
    (front ++ (block :: behind)).take front.length = front ∧
      (front ++ (block :: behind))[front.length]? = some block := by
  refine ⟨List.take_left, ?_⟩
  rw [List.getElem?_append_right le_rfl, Nat.sub_self, List.getElem?_cons_zero]

theorem append_across (front middle rest : List Block) (block : Block) :
    front ++ [block] ++ middle ++ rest = front ++ (block :: (middle ++ rest)) := by
  rw [List.append_assoc, List.append_assoc, List.singleton_append]

theorem writeFunction_ok (overwrite : Option (Nat → Block)) : ∃ t,
    writeFunction s (stage s overwrite []) = .ok t ∧ t.optsOverwrite = overwrite ∧
      Written s t.written := by
  obtain ⟨sb, hsb⟩ : ∃ sb, sb = s.superblock .session := ⟨_, rfl⟩
  have hsbLen : sb.length = s.sb := by rw [hsb, Session.sb]
  obtain ⟨tree, htree⟩ : ∃ tree, tree =
      sb ++ [tagBlock s sb 2 (lbaOf s s.treeIndex)] ++ (s.second ++ s.tree) := ⟨_, rfl⟩
  have htreeLen : tree.length = s.treeIndex := by
    simp only [htree, List.length_append, List.length_singleton, hsbLen, Session.treeIndex]
    omega
  obtain ⟨data, hdata⟩ : ∃ data, data =
      tree ++ [tagBlock s tree 3 (lbaOf s s.tagIndex)] ++ s.data := ⟨_, rfl⟩
  have hdataLen : data.length = s.tagIndex := by
    simp only [hdata, List.length_append, List.length_singleton, htreeLen, Session.tagIndex]
  obtain ⟨more, t, hone, hoverwrite, hwritten⟩ := @write_one s overwrite data hdataLen
  obtain ⟨hwritten', hoverwrite'⟩ := foldl_written t s.tail
  refine ⟨s.tail.foldl isoWrite t, ?_, hoverwrite'.trans hoverwrite, ?_⟩
  · have hfirst := @foldl_isoWrite s overwrite [] (s.superblock .session)
    rw [List.nil_append, ← hsb] at hfirst
    simp only [writeFunction, ← hsb, hfirst, write_two hsbLen, bind, Except.bind, foldl_isoWrite,
      ← htree, write_three htreeLen, ← hdata, hone]
    rfl
  · -- the session as seen from each of its tags
    have hlist : (s.tail.foldl isoWrite t).written = data ++
        (Block.ofText (tagText (sessionTag s data 1 data.length 0) ++ more) :: s.tail) := by
      rw [hwritten', hwritten, List.append_assoc, List.singleton_append]
    obtain ⟨behind, hbehind⟩ : ∃ behind, (s.tail.foldl isoWrite t).written =
        tree ++ (tagBlock s tree 3 (lbaOf s s.tagIndex) :: behind) :=
      ⟨_, hlist.trans ((congrArg (· ++ _) hdata).trans (append_across tree _ _ _))⟩
    obtain ⟨behindSb, hbehindSb⟩ : ∃ behind, (s.tail.foldl isoWrite t).written =
        sb ++ (tagBlock s sb 2 (lbaOf s s.treeIndex) :: behind) :=
      ⟨_, hbehind.trans ((congrArg (· ++ _) htree).trans (append_across sb _ _ _))⟩
    obtain ⟨hsbTake, hsbNext⟩ := take_and_next sb behindSb (tagBlock s sb 2 (lbaOf s s.treeIndex))
    obtain ⟨htreeTake, htreeNext⟩ :=
      take_and_next tree behind (tagBlock s tree 3 (lbaOf s s.tagIndex))
    obtain ⟨hdataTake, hdataNext⟩ := take_and_next data s.tail
      (Block.ofText (tagText (sessionTag s data 1 data.length 0) ++ more))
    rw [← hbehindSb, hsbLen] at hsbTake hsbNext
    rw [← hbehind, htreeLen] at htreeTake htreeNext
    rw [← hlist, hdataLen] at hdataTake hdataNext
    refine ⟨hsbTake.trans hsb, ?_, ?_, ⟨more, ?_⟩, ?_⟩
    · rw [hsbNext, hsbTake]
    · rw [htreeNext, htreeTake]
    · have htag : sessionTag s data 1 s.tagIndex 0 =
          sessionTag s (s.tail.foldl isoWrite t).written 1 s.tagIndex 0 := by
        simp only [sessionTag, hdataTake, List.take_of_length_le hdataLen.le]
      rw [hdataNext, ← htag]
    · rw [hlist, List.length_append, List.length_cons, hdataLen]
      omega

theorem tagBlock_decodes {written : List Block} {tagType index : Nat} {next : UInt32}
    (htype : tagType ∈ [2, 3]) (hlen : index ≤ written.length) :
    Decodes c (tagBlock s (written.take index) tagType next)
      (sessionTag s written tagType index next) := by
  have htag : sessionTag s (written.take index) tagType (written.take index).length next =
      sessionTag s written tagType index next := by
    simp only [sessionTag, List.length_take, Nat.min_eq_left hlen, List.take_take, Nat.min_self]
  have hblock : tagBlock s (written.take index) tagType next =
      Block.ofText (tagText (sessionTag s written tagType index next) ++ []) := by
    rw [tagBlock, htag, List.append_nil]
  have hin : tagType ∈ [1, 2, 3, 4] := by
    simp only [List.mem_cons, List.not_mem_nil, or_false] at htype ⊢
    omega
  rw [hblock]
  refine decodes_ofText hin (length_md5 _) (fun hnone => ?_) []
  simp only [List.mem_cons, List.not_mem_nil, or_false] at htype
  rcases htype with rfl | rfl <;> cases hnone

/-! ## The check of a session -/

section Check

variable {written : List Block} {src : Source} {blocks : List Block}

theorem clean_self (h : Written s written) : Clean c written s.sb := by
  intro i block hge hlt hblock
  rw [← List.getElem?_take_of_lt hlt, h.superblock] at hblock
  exact superblock_noTag .session hge hblock

theorem keepsTag_of_clean {start : UInt32} {index : Nat} (h : Clean c blocks index) :
    KeepsTag c start blocks blocks index where
  same := rfl
  first i block hge hlt hblock tag hdecodes := by
    have hnone := h i block hge hlt hblock
    unfold NoTag at hnone
    rw [hdecodes] at hnone
    cases hnone

/-- The session has its tags, even if other blocks were altered. -/
theorem tagged (h : Written s written) (hkeeps : KeepsTag c s.msBlock written blocks s.sb)
    (htree : blocks[s.treeIndex]? = written[s.treeIndex]?) :
    Tagged c s.msBlock blocks s.sb s.treeIndex
      (sessionTag s written 2 s.sb (lbaOf s s.treeIndex))
      (sessionTag s written 3 s.treeIndex (lbaOf s s.tagIndex)) where
  superblock := ⟨sb_bounds.1, sb_bounds.2, hkeeps.first⟩
  sbDecodes := ⟨_, hkeeps.same.trans h.sbTag, tagBlock_decodes (by decide) (by
    rw [h.length, Session.tagIndex, Session.treeIndex]
    omega)⟩
  treeDecodes := ⟨_, htree.trans h.treeTag, tagBlock_decodes (by decide) (by
    rw [h.length, Session.tagIndex]
    omega)⟩
  sbType := rfl
  sbPos := rfl
  sbStart := rfl
  next := rfl
  treeType := rfl
  treePos := rfl
  treeStart := rfl
  lt := by
    rw [Session.treeIndex]
    omega
  fits := by
    have hfits := @lba_fits s
    rw [Session.tagIndex] at hfits
    omega

end Check

/-! ## The overwrite buffer -/

/-- A buffer with the superblock and with the relocated tag behind it. -/
structure Prepared (s : Session) (buffer : Nat → Block) : Prop where
  superblock : ∀ i < s.sb, (s.superblock .overwrite)[i]? = some (buffer i)
  tag : buffer s.sb = Block.ofText (tagText (relocatedTag s buffer))

theorem announced_four {t : Ecma119Image} {buffer : Nat → Block}
    (hpos : t.checksumRlsbTagPos = UInt32.ofNat s.sb) (hms : t.msBlock = s.msBlock)
    (hctx : t.checksumCtx = contents ((List.range s.sb).map buffer)) :
    announced t 4 = relocatedTag s buffer := by
  have hstart : UInt32.ofNat s.sb - UInt32.ofNat s.sb % 32 = 0 := by
    have hlt := (@sb_bounds s).2
    apply UInt32.toNat_inj.mp
    have hmod : (UInt32.ofNat s.sb % 32).toNat = s.sb := by
      rw [UInt32.toNat_mod, toNat_sb]
      exact Nat.mod_eq_of_lt hlt
    have hle : UInt32.ofNat s.sb % 32 ≤ UInt32.ofNat s.sb := by
      rw [UInt32.le_iff_toNat_le, hmod, toNat_sb]
    rw [UInt32.toNat_sub_of_le _ _ hle, hmod, toNat_sb, Nat.sub_self]
    rfl
  simp only [announced, announced.tagPos, announced.start, relocatedTag, hpos, hms, hctx,
    OfNat.ofNat_ne_one, Nat.reduceEqDiff, if_false, if_true, hstart, UInt32.sub_zero]

theorem relocate_ok (overwrite : Nat → Block) : ∃ t buffer, s.relocate overwrite = .ok t ∧
    Prepared s buffer ∧ { t with checksumCtx := [] } = stage s (some buffer) [] := by
  obtain ⟨first, hfirst⟩ : ∃ first : Nat → Block,
      first = fun i => (s.superblock .overwrite).getD i (overwrite i) := ⟨_, rfl⟩
  obtain ⟨t, ht⟩ : ∃ t : Ecma119Image, t = { s.layout with
      optsOverwrite := some first
      checksumCtx := contents ((List.range s.sb).map first) } := ⟨_, rfl⟩
  obtain ⟨buffer, hbuffer⟩ : ∃ buffer, buffer = Function.update first s.sb
      (Block.ofText (tagText (announced t 4))) := ⟨_, rfl⟩
  have hother : ∀ i, i ≠ s.sb → buffer i = first i := fun i hi => by
    rw [hbuffer, Function.update_of_ne hi]
  have hsame : (List.range s.sb).map buffer = (List.range s.sb).map first :=
    List.map_congr_left fun i hi => hother i (List.mem_range.mp hi).ne
  have hannounced : announced t 4 = relocatedTag s buffer := by
    refine announced_four ?_ ?_ ?_
    · rw [ht]
      exact layout_rlsb
    · rw [ht]
      rfl
    · rw [ht, hsame]
  refine ⟨{ t with optsOverwrite := some buffer }, buffer, ?_, ⟨fun i hi => ?_, ?_⟩, ?_⟩
  · have hlt : s.layout.checksumRlsbTagPos < 32 := by
      rw [layout_rlsb, UInt32.lt_iff_toNat_lt, toNat_sb]
      exact sb_bounds.2
    have hpos : s.layout.checksumRlsbTagPos.toNat = s.sb := by rw [layout_rlsb, toNat_sb]
    have hcompose : composeTag t 4 = (tagText (announced t 4), t.checksumCtx) := rfl
    have hwrite : isoMd5WriteTag t 4 = .ok { t with
        optsOverwrite := t.optsOverwrite.map fun overwrite => Function.update overwrite
          t.checksumRlsbTagPos.toNat (Block.ofText (tagText (announced t 4))) } := rfl
    have hrlsb : t.checksumRlsbTagPos.toNat = s.sb := by rw [ht]; exact hpos
    have hopts : t.optsOverwrite = some first := by rw [ht]
    simp only [Session.relocate, hlt, if_true, hpos, ← hfirst, ← ht, hwrite, hrlsb, hopts,
      Option.map_some, ← hbuffer]
  · have hlen : i < (s.superblock .overwrite).length := by
      rw [length_superblock, ← sb_eq .overwrite]
      exact hi
    rw [hother i hi.ne, hfirst, List.getElem?_eq_getElem hlen]
    simp only [List.getD_eq_getElem?_getD, List.getElem?_eq_getElem hlen, Option.getD_some]
  · rw [← hannounced, hbuffer, Function.update_self]
  · rw [ht]
    rfl

theorem ecma119ImageNew_ok (hreloc : s.overwrite.isSome →
    s.partitionOffset.toNat + 32 ≤ s.msBlock.toNat) :
    ∃ buffer, ecma119ImageNew s = .ok (stage s buffer []) ∧
      buffer.isSome = s.overwrite.isSome ∧ ∀ b, buffer = some b → Prepared s b := by
  unfold ecma119ImageNew
  cases hoverwrite : s.overwrite with
  | none => exact ⟨none, rfl, rfl, by rintro b ⟨⟩⟩
  | some overwrite =>
    obtain ⟨t, buffer, hrelocate, hprepared, hstage⟩ := @relocate_ok s overwrite
    have hroom : ¬ (s.msBlock ≠ 0 ∧ s.msBlock < s.partitionOffset + 32) := by
      rintro ⟨-, hlt⟩
      have hle := hreloc (by rw [hoverwrite]; rfl)
      have hms := s.msBlock.toNat_lt
      rw [UInt32.lt_iff_toNat_lt, UInt32.toNat_add] at hlt
      change _ < (s.partitionOffset.toNat + 32) % 2 ^ 32 at hlt
      omega
    refine ⟨some buffer, ?_, rfl, ?_⟩
    · simp only [hroom, if_false, hrelocate, Except.map, hstage]
    · rintro b ⟨⟩
      exact hprepared

end ChecksumImage
