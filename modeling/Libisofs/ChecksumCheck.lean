import Libisofs.ChecksumTagText

/-!
# The check of superblock and tree

iso_src_check_sb_tree() passes 16 blocks of System Area and the blocks in front of the first
tag. Then it reads up to the tree tag, which the superblock tag announces. So its result only
depends on the MD5 of two ranges.
-/

namespace ChecksumTags

open Texts Unrollings

variable {c : Clib} {src : Source} {start : UInt32} {blocks : List Block}

def contents (blocks : List Block) : Bytes := blocks.flatMap Block.bytes

/-- The source has these blocks from a start address on. -/
def Reads (src : Source) (start : UInt32) (blocks : List Block) : Prop :=
  ∀ i block, blocks[i]? = some block → src (start + UInt32.ofNat i) = .ok block

def Decodes (c : Clib) (block : Block) (tag : Md5Tag) : Prop :=
  isoUtilDecodeMd5Tag c (block.bytes ++ c.behind) 0 = (1, some tag)

/-- The block is not a tag, also none which is damaged. -/
def NoTag (c : Clib) (block : Block) : Prop :=
  (isoUtilDecodeMd5Tag c (block.bytes ++ c.behind) 0).2 = none

/-- The types of tags for which the check looks in the superblock. -/
def wanted (start : UInt32) : List Nat := if start = 0 then [2, 4] else [2]

theorem contents_take_succ {i : Nat} {block : Block} (h : blocks[i]? = some block) :
    contents (blocks.take (i + 1)) = contents (blocks.take i) ++ block.bytes := by
  rw [List.take_add_one, h, contents, List.flatMap_append, Option.toList_some,
    List.flatMap_singleton]
  rfl

theorem eval_noTag {block : Block} {desired : List Nat} {lba : UInt32} {ctx : Bytes}
    (h : NoTag c block) : isoUtilEvalMd5Tag c block desired lba ctx start = (0, none) := by
  unfold NoTag at h
  unfold isoUtilEvalMd5Tag
  split
  next => rfl
  next hsome => simp [hsome] at h

/-- A block without a valid tag of a desired type is ignored or found damaged. -/
theorem eval_other {block : Block} {desired : List Nat} {lba : UInt32} {ctx : Bytes}
    (h : ∀ tag, Decodes c block tag → tag.tagType ∉ desired) :
    (isoUtilEvalMd5Tag c block desired lba ctx start).1 = 0 ∨
      (isoUtilEvalMd5Tag c block desired lba ctx start).1 = isoMd5AreaCorrupted := by
  unfold isoUtilEvalMd5Tag
  split
  next => exact Or.inl rfl
  next ret tag hdecode =>
    by_cases hdamaged : ret = isoMd5AreaCorrupted
    · right
      simp only [hdamaged, if_true]
    · left
      by_cases hvalid : ret = 1
      · subst hvalid
        have hnot := h tag hdecode
        simp only [hdamaged, hnot, if_false, ne_eq, not_true_eq_false, not_false_eq_true, if_true]
      · simp only [hdamaged, hvalid, if_false, ne_eq, not_false_eq_true, if_true]

/-- A tag at its place is judged by its MD5. -/
theorem eval_placed {block : Block} {tag : Md5Tag} {desired : List Nat} {ctx : Bytes}
    (hdecodes : Decodes c block tag) (hdesired : tag.tagType ∈ desired)
    (hstart : tag.rangeStart = start) :
    isoUtilEvalMd5Tag c block desired tag.pos ctx start =
      (if md5 ctx = tag.md5 then 1 else isoMd5TagMismatch, some tag) := by
  have hcode : (1 : Int) ≠ isoMd5AreaCorrupted := by decide
  unfold Decodes at hdecodes
  simp only [isoUtilEvalMd5Tag, hdecodes, hcode, if_false, ne_eq, not_true_eq_false, hdesired,
    hstart, ite_not]

/-! ## The superblock -/

/-- The superblock is in front of block `k`, and there is no valid tag in front. -/
structure Superblock (c : Clib) (start : UInt32) (blocks : List Block) (k : Nat) : Prop where
  sixteen_le : 16 ≤ k
  lt : k < 32
  noOther : ∀ i block, 16 ≤ i → i < k → blocks[i]? = some block →
    ∀ tag, Decodes c block tag → tag.tagType ∉ wanted start

/-- There is no damaged tag either. -/
def Clean (c : Clib) (blocks : List Block) (k : Nat) : Prop :=
  ∀ i block, 16 ≤ i → i < k → blocks[i]? = some block → NoTag c block

/-- One turn of the loop. -/
theorem scan_turn {i : Nat} {block : Block} {ctx : Bytes} {result : Int × Option Md5Tag}
    (hi : i < 32) (hread : src (start + UInt32.ofNat i) = .ok block)
    (hresult : (if 16 ≤ i then isoUtilEvalMd5Tag c block (wanted start) (start + UInt32.ofNat i)
      ctx start else (0, none)) = result) :
    scanSuperblock c src start (32 - i) ctx =
      if result.1 = isoMd5TagCopied then .leave 2
      else if result.1 = isoMd5AreaCorrupted ∨ result.1 = isoMd5TagMismatch then
        .leave isoSbTreeCorrupted
      else if result.1 < 0 then .leave result.1
      else
        match result.1, result.2 with
        | 1, some tag => .found tag i block (ctx ++ block.bytes)
        | _, _ => scanSuperblock c src start (32 - (i + 1)) (ctx ++ block.bytes) := by
  have hleft : 32 - i = (31 - i) + 1 := by omega
  have hindex : 31 - (31 - i) = i := by omega
  have hnext : 32 - (i + 1) = 31 - i := by omega
  subst hresult
  rw [hleft, scanSuperblock, hindex, hread, hnext]
  rfl

/-- The scan comes to the tag, or it meets a damaged tag before. -/
theorem scan_reaches {k : Nat} {block : Block} (hreads : Reads src start blocks)
    (hsuper : Superblock c start blocks k) (hblock : blocks[k]? = some block) :
    scanSuperblock c src start 32 [] =
        scanSuperblock c src start (32 - k) (contents (blocks.take k)) ∨
      ¬ Clean c blocks k ∧ scanSuperblock c src start 32 [] = .leave isoSbTreeCorrupted := by
  have hlen : k < blocks.length := (List.getElem?_eq_some_iff.mp hblock).1
  have hk := hsuper.lt
  have hpass : ∀ i ≤ k, scanSuperblock c src start 32 [] =
        scanSuperblock c src start (32 - i) (contents (blocks.take i)) ∨
      ¬ Clean c blocks k ∧ scanSuperblock c src start 32 [] = .leave isoSbTreeCorrupted := by
    intro i hi
    induction i with
    | zero => exact Or.inl rfl
    | succ i ih =>
      rcases ih (by omega) with hscan | hleave
      · have hi' : blocks[i]? = some blocks[i] := List.getElem?_eq_getElem (by omega)
        have hcopied : (0 : Int) ≠ isoMd5TagCopied := by decide
        have hzero : ¬ ((0 : Int) = isoMd5AreaCorrupted ∨ (0 : Int) = isoMd5TagMismatch) := by
          decide
        have hdamaged : isoMd5AreaCorrupted ≠ isoMd5TagCopied := by decide
        obtain ⟨⟨ret, tag⟩, hresult⟩ : ∃ result, (if 16 ≤ i then isoUtilEvalMd5Tag c blocks[i]
            (wanted start) (start + UInt32.ofNat i) (contents (blocks.take i)) start
            else (0, none)) = result := ⟨_, rfl⟩
        have hturn := scan_turn (by omega) (hreads i _ hi') hresult
        have hcases : ret = 0 ∨ ret = isoMd5AreaCorrupted ∧ 16 ≤ i := by
          by_cases hge : 16 ≤ i
          · rw [if_pos hge] at hresult
            have hother := @eval_other c start blocks[i] (wanted start) (start + UInt32.ofNat i)
              (contents (blocks.take i)) (hsuper.noOther i _ hge (by omega) hi')
            rw [hresult] at hother
            exact hother.imp_right fun h => ⟨h, hge⟩
          · rw [if_neg hge] at hresult
            exact Or.inl (congrArg Prod.fst hresult).symm
        rcases hcases with rfl | ⟨rfl, hge⟩
        · left
          simp only [hcopied, hzero, if_false, lt_irrefl] at hturn
          rw [hscan, hturn, contents_take_succ hi']
        · right
          simp only [hdamaged, if_false, true_or, if_true] at hturn
          refine ⟨fun hclean => ?_, hscan.trans hturn⟩
          rw [if_pos hge, eval_noTag (hclean i _ hge (by omega) hi')] at hresult
          exact hzero (Or.inl (congrArg Prod.fst hresult))
      · exact Or.inr hleave
  exact hpass k le_rfl

/-- At the tag the scan ends. -/
theorem scan_tag {k : Nat} {block : Block} {tag : Md5Tag} (hreads : Reads src start blocks)
    (hsuper : Superblock c start blocks k) (hblock : blocks[k]? = some block)
    (hdecodes : Decodes c block tag) (hdesired : tag.tagType ∈ wanted start)
    (hpos : tag.pos = start + UInt32.ofNat k) (hstart : tag.rangeStart = start) :
    (md5 (contents (blocks.take k)) = tag.md5 ∧ scanSuperblock c src start 32 [] =
        .found tag k block (contents (blocks.take (k + 1)))) ∨
      ¬ (Clean c blocks k ∧ md5 (contents (blocks.take k)) = tag.md5) ∧
        scanSuperblock c src start 32 [] = .leave isoSbTreeCorrupted := by
  have hresult : (if 16 ≤ k then isoUtilEvalMd5Tag c block (wanted start)
      (start + UInt32.ofNat k) (contents (blocks.take k)) start else (0, none)) =
        (if md5 (contents (blocks.take k)) = tag.md5 then 1 else isoMd5TagMismatch, some tag) := by
    rw [if_pos hsuper.sixteen_le, ← hpos]
    exact eval_placed hdecodes hdesired hstart
  have hturn := scan_turn hsuper.lt (hreads k _ hblock) hresult
  rcases scan_reaches hreads hsuper hblock with hscan | ⟨hdirty, hleave⟩
  · rw [← hscan] at hturn
    by_cases hmatch : md5 (contents (blocks.take k)) = tag.md5
    · left
      have hcopied : (1 : Int) ≠ isoMd5TagCopied := by decide
      have hcorrupted : ¬ ((1 : Int) = isoMd5AreaCorrupted ∨ (1 : Int) = isoMd5TagMismatch) := by
        decide
      have hneg : ¬ (1 : Int) < 0 := by decide
      simp only [hmatch, if_true, hcopied, hcorrupted, hneg, if_false,
        ← contents_take_succ hblock] at hturn
      exact ⟨hmatch, hturn⟩
    · right
      have hcopied : isoMd5TagMismatch ≠ isoMd5TagCopied := by decide
      simp only [hmatch, if_false, hcopied, or_true, if_true] at hturn
      exact ⟨fun h => hmatch h.2, hturn⟩
  · exact Or.inr ⟨fun h => hdirty h.1, hleave⟩

/-! ## The tree -/

theorem toNat_lba {i : Nat} (h : start.toNat + i < 2 ^ 32) :
    (start + UInt32.ofNat i).toNat = start.toNat + i := by
  rw [UInt32.toNat_add, UInt32.toNat_ofNat']
  omega

theorem stable_treeTurn (nextTag : UInt32) (w : TreeWalk) :
    Stable (treeTurn src start nextTag w) := by
  unfold treeTurn
  exact stable_const _

/-- The loop ends with the block of the tree tag, and with the bytes in front of it. -/
theorem walk_tree {tree i : Nat} {last : Block} {block : Block} (hreads : Reads src start blocks)
    (hlast : blocks[tree]? = some last) (hi : i ≤ tree)
    (hfits : start.toNat + tree + 1 < 2 ^ 32) :
    Gives (fun n => loop (treeTurn src start (start + UInt32.ofNat tree)) n
      ⟨UInt32.ofNat i, block, contents (blocks.take i)⟩)
      (.ok ⟨UInt32.ofNat tree + 1, last, contents (blocks.take tree)⟩) := by
  have hlen : tree < blocks.length := (List.getElem?_eq_some_iff.mp hlast).1
  have hnext : (start + UInt32.ofNat tree).toNat = start.toNat + tree := toNat_lba (by omega)
  generalize hleft : tree - i = left
  induction left generalizing i block with
  | zero =>
    obtain rfl : i = tree := by omega
    have hturn : treeTurn src start (start + UInt32.ofNat i)
        ⟨UInt32.ofNat i, block, contents (blocks.take i)⟩ 0 =
          some (.inl ⟨UInt32.ofNat i + 1, last, contents (blocks.take i)⟩) := by
      simp only [treeTurn, UInt32.le_refl, if_true, hreads i last hlast, UInt32.lt_irrefl, if_false]
    have hend : treeTurn src start (start + UInt32.ofNat i)
        ⟨UInt32.ofNat i + 1, last, contents (blocks.take i)⟩ 0 =
          some (.inr (.ok ⟨UInt32.ofNat i + 1, last, contents (blocks.take i)⟩)) := by
      have hafter : ¬ start + (UInt32.ofNat i + 1) ≤ start + UInt32.ofNat i := by
        have hone : UInt32.ofNat i + 1 = UInt32.ofNat (i + 1) := (UInt32.ofNat_add i 1).symm
        rw [UInt32.le_iff_toNat_le, hnext, hone, toNat_lba (by omega)]
        omega
      simp only [treeTurn, hafter, if_false]
    exact gives_of_next (stable_treeTurn _) ⟨0, hturn⟩ (gives_of_turn ⟨0, hend⟩)
  | succ left ih =>
    have hblock : blocks[i]? = some blocks[i] := List.getElem?_eq_getElem (by omega)
    have hlba : (start + UInt32.ofNat i).toNat = start.toNat + i := toNat_lba (by omega)
    have hle : start + UInt32.ofNat i ≤ start + UInt32.ofNat tree := by
      rw [UInt32.le_iff_toNat_le, hnext, hlba]
      omega
    have hlt : start + UInt32.ofNat i < start + UInt32.ofNat tree := by
      rw [UInt32.lt_iff_toNat_lt, hnext, hlba]
      omega
    have hturn : treeTurn src start (start + UInt32.ofNat tree)
        ⟨UInt32.ofNat i, block, contents (blocks.take i)⟩ 0 =
          some (.inl ⟨UInt32.ofNat (i + 1), blocks[i], contents (blocks.take (i + 1))⟩) := by
      simp only [treeTurn, hle, hlt, if_true, hreads i _ hblock, contents_take_succ hblock,
        UInt32.ofNat_add]
      rfl
    exact gives_of_next (stable_treeTurn _) ⟨0, hturn⟩ (ih (by omega) (by omega))

/-- More steps do not change the result of the check. -/
theorem stable_check (c : Clib) (src : Source) (start : UInt32) :
    Stable fun n => isoSrcCheckSbTree c src n start := by
  intro n ret h
  induction n generalizing start ret with
  | zero => cases h
  | succ n ih =>
    simp only [isoSrcCheckSbTree] at h ⊢
    cases hscan : scanSuperblock c src start 32 [] with
    | leave ret' => rwa [hscan] at h
    | found tag i block ctx =>
      rw [hscan] at h
      simp only [] at h ⊢
      split at h
      next htype =>
        rw [if_pos htype]
        split at h
        next hlow =>
          rw [if_pos hlow]
          exact h
        next hhigh =>
          rw [if_neg hhigh]
          exact ih tag.nextTag ret h
      next htype =>
        rw [if_neg htype]
        obtain ⟨w, hw, heq⟩ := Option.map_eq_some_iff.mp h
        have hmore : loop (treeTurn src start tag.nextTag) (n + 1)
            ⟨UInt32.ofNat i + 1, block, ctx⟩ = some w :=
          stable_loop (@stable_treeTurn src start tag.nextTag) _ n w hw
        rw [hmore, Option.map_some, heq]

/-! ## Both tags -/

/-- The blocks of a session up to the tree tag, with the tags which announce their ranges. -/
structure Tagged (c : Clib) (start : UInt32) (blocks : List Block) (sb tree : Nat)
    (sbTag treeTag : Md5Tag) : Prop where
  superblock : Superblock c start blocks sb
  sbDecodes : ∃ block, blocks[sb]? = some block ∧ Decodes c block sbTag
  treeDecodes : ∃ block, blocks[tree]? = some block ∧ Decodes c block treeTag
  sbType : sbTag.tagType = 2
  sbPos : sbTag.pos = start + UInt32.ofNat sb
  sbStart : sbTag.rangeStart = start
  next : sbTag.nextTag = start + UInt32.ofNat tree
  treeType : treeTag.tagType = 3
  treePos : treeTag.pos = start + UInt32.ofNat tree
  treeStart : treeTag.rangeStart = start
  lt : sb < tree
  fits : start.toNat + tree + 1 < 2 ^ 32

/-- The check succeeds if there are no other tags and both ranges have the recorded MD5. It
reports a mismatch if one range has not. -/
theorem check_tagged {sb tree : Nat} {sbTag treeTag : Md5Tag} (hreads : Reads src start blocks)
    (h : Tagged c start blocks sb tree sbTag treeTag) :
    (Clean c blocks sb → md5 (contents (blocks.take sb)) = sbTag.md5 →
      md5 (contents (blocks.take tree)) = treeTag.md5 →
      Gives (fun n => isoSrcCheckSbTree c src n start) 1) ∧
    (md5 (contents (blocks.take sb)) ≠ sbTag.md5 ∨
      md5 (contents (blocks.take tree)) ≠ treeTag.md5 →
      Gives (fun n => isoSrcCheckSbTree c src n start) isoSbTreeCorrupted) := by
  obtain ⟨sbBlock, hsbBlock, hsbDecodes⟩ := h.sbDecodes
  obtain ⟨treeBlock, htreeBlock, htreeDecodes⟩ := h.treeDecodes
  have hdesired : sbTag.tagType ∈ wanted start := by
    rw [h.sbType, wanted]
    split <;> decide
  rcases scan_tag hreads h.superblock hsbBlock hsbDecodes hdesired h.sbPos h.sbStart with
    ⟨hsb, hscan⟩ | ⟨hnot, hscan⟩
  · obtain ⟨n, hn⟩ := @walk_tree src start blocks tree (sb + 1) treeBlock sbBlock hreads
      htreeBlock h.lt h.fits
    have hfour : sbTag.tagType ≠ 4 := by
      rw [h.sbType]
      decide
    have hlba : start + (UInt32.ofNat tree + 1) - 1 = treeTag.pos := by
      rw [h.treePos, ← UInt32.add_assoc, UInt32.add_sub_cancel]
    have heval := @eval_placed c start treeBlock treeTag [3] (contents (blocks.take tree))
      htreeDecodes (by rw [h.treeType]; decide) h.treeStart
    have hone : UInt32.ofNat sb + 1 = UInt32.ofNat (sb + 1) := (UInt32.ofNat_add sb 1).symm
    have hcheck : isoSrcCheckSbTree c src (n + 1) start =
        some (if md5 (contents (blocks.take tree)) = treeTag.md5 then 1
          else isoSbTreeCorrupted) := by
      simp only [isoSrcCheckSbTree, hscan, hfour, if_false, h.next, hone, hn, Option.map_some,
        checkTree, hlba, heval]
      by_cases htree : md5 (contents (blocks.take tree)) = treeTag.md5
      · have hcorrupted : ¬ ((1 : Int) = isoMd5AreaCorrupted ∨ (1 : Int) = isoMd5TagMismatch) := by
          decide
        have hneg : ¬ (1 : Int) < 0 := by decide
        simp only [htree, if_true, hcorrupted, hneg, if_false]
      · simp only [htree, if_false, or_true, if_true]
    constructor
    · rintro - - htree
      rw [if_pos htree] at hcheck
      exact ⟨n + 1, hcheck⟩
    · intro hdiffer
      rw [if_neg (hdiffer.resolve_left (not_not.mpr hsb))] at hcheck
      exact ⟨n + 1, hcheck⟩
  · constructor
    · exact fun hclean hsb _ => absurd ⟨hclean, hsb⟩ hnot
    · intro _
      refine ⟨1, ?_⟩
      simp only [isoSrcCheckSbTree, hscan]

/-- The first blocks of a medium, with a tag which refers to a session elsewhere. -/
structure Relocated (c : Clib) (head : List Block) (k : Nat) (tag : Md5Tag) : Prop where
  superblock : Superblock c 0 head k
  decodes : ∃ block, head[k]? = some block ∧ Decodes c block tag
  type : tag.tagType = 4
  pos : tag.pos = UInt32.ofNat k
  start : tag.rangeStart = 0

theorem check_relocated {head : List Block} {k : Nat} {tag : Md5Tag} (hreads : Reads src 0 head)
    (h : Relocated c head k tag) (n : Nat) :
    (md5 (contents (head.take k)) = tag.md5 ∧ isoSrcCheckSbTree c src (n + 1) 0 =
        if tag.nextTag < 32 then some isoSbTreeCorrupted
        else isoSrcCheckSbTree c src n tag.nextTag) ∨
      ¬ (Clean c head k ∧ md5 (contents (head.take k)) = tag.md5) ∧
        isoSrcCheckSbTree c src (n + 1) 0 = some isoSbTreeCorrupted := by
  obtain ⟨block, hblock, hdecodes⟩ := h.decodes
  have hdesired : tag.tagType ∈ wanted 0 := by
    rw [h.type]
    decide
  have hpos : tag.pos = 0 + UInt32.ofNat k := by rw [h.pos, UInt32.zero_add]
  rcases scan_tag hreads h.superblock hblock hdecodes hdesired hpos h.start with
    ⟨hmatch, hscan⟩ | ⟨hnot, hscan⟩
  · left
    refine ⟨hmatch, ?_⟩
    simp only [isoSrcCheckSbTree, hscan, h.type, if_true]
  · right
    refine ⟨hnot, ?_⟩
    simp only [isoSrcCheckSbTree, hscan]

end ChecksumTags
