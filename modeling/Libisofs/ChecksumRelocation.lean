import Libisofs.ChecksumValid

/-!
# Sessions on overwritable media

After a session has been written, the overwrite buffer gets written to the start of the
medium. Its tag leads the check to the session. This works if the session begins behind the
buffer. ecma119_image_new() demands this, but for a session at LBA 0.
-/

namespace ChecksumImage

open Texts Unrollings ChecksumTags

variable {c : Clib} {s : Session} {t : Ecma119Image} {old : Source}

/-- The session is readable where it was written. -/
theorem reads_session (h : Written s t.written) (hreloc : t.optsOverwrite.isSome →
    s.partitionOffset.toNat + 32 ≤ s.msBlock.toNat) :
    Reads (medium s t old) s.msBlock t.written := by
  intro i block hblock
  have hi : i < t.written.length := (List.getElem?_eq_some_iff.mp hblock).1
  have hfits := @lba_fits s
  rw [h.length] at hi
  have hlba : (s.msBlock + UInt32.ofNat i).toNat = s.msBlock.toNat + i := toNat_lba (by omega)
  have hle : s.msBlock ≤ s.msBlock + UInt32.ofNat i := by
    rw [UInt32.le_iff_toNat_le, hlba]
    omega
  have hbehind : t.written[(s.msBlock + UInt32.ofNat i).toNat - s.msBlock.toNat]? =
      some block := by rw [hlba, Nat.add_sub_cancel_left, hblock]
  unfold medium
  simp only [hle, if_true, hbehind, Option.elim_some]
  cases hoverwrite : t.optsOverwrite with
  | none => rfl
  | some buffer =>
    have hroom := hreloc (by rw [hoverwrite]; rfl)
    have hms := s.msBlock.toNat_lt
    have hnot : ¬ s.msBlock + UInt32.ofNat i < s.partitionOffset + 32 := by
      rw [UInt32.lt_iff_toNat_lt, hlba, UInt32.toNat_add]
      change ¬ _ < (s.partitionOffset.toNat + 32) % 2 ^ 32
      omega
    simp only [hnot, if_false]

/-- The blocks of the buffer up to the tag. -/
def headOf (s : Session) (buffer : Nat → Block) : List Block := (List.range (s.sb + 1)).map buffer

theorem headOf_get {buffer : Nat → Block} {i : Nat} (hi : i ≤ s.sb) :
    (headOf s buffer)[i]? = some (buffer i) := by
  rw [headOf, List.getElem?_map, List.getElem?_range (by omega), Option.map_some]

theorem headOf_take (buffer : Nat → Block) :
    (headOf s buffer).take s.sb = (List.range s.sb).map buffer := by
  rw [headOf, ← List.map_take, List.take_range, Nat.min_eq_left (by omega)]

theorem reads_head {buffer : Nat → Block} (hbuffer : t.optsOverwrite = some buffer)
    (hroom : s.partitionOffset.toNat + 32 < 2 ^ 32) :
    Reads (medium s t old) 0 (headOf s buffer) := by
  intro i block hblock
  have hi : i < (headOf s buffer).length := (List.getElem?_eq_some_iff.mp hblock).1
  have hlen : i ≤ s.sb := by
    rw [headOf, List.length_map, List.length_range] at hi
    omega
  have hsb := (@sb_bounds s).2
  have hlba : (0 + UInt32.ofNat i).toNat = i := by
    rw [UInt32.zero_add, UInt32.toNat_ofNat']
    omega
  have hlt : 0 + UInt32.ofNat i < s.partitionOffset + 32 := by
    rw [UInt32.lt_iff_toNat_lt, hlba, UInt32.toNat_add]
    change i < (s.partitionOffset.toNat + 32) % 2 ^ 32
    omega
  rw [headOf_get hlen] at hblock
  unfold medium
  simp only [hbuffer, hlt, if_true, hlba, Option.some.inj hblock]

theorem prepared_decodes {buffer : Nat → Block} (h : Prepared s buffer) :
    Decodes c (buffer s.sb) (relocatedTag s buffer) := by
  have htext : buffer s.sb = Block.ofText (tagText (relocatedTag s buffer) ++ []) := by
    rw [List.append_nil]
    exact h.tag
  rw [htext]
  have htype : (relocatedTag s buffer).tagType ∈ [1, 2, 3, 4] := List.mem_of_elem_eq_true rfl
  exact decodes_ofText htype (length_md5 _) (fun hnone => by cases hnone) []

theorem clean_head {buffer : Nat → Block} (h : Prepared s buffer) :
    Clean c (headOf s buffer) s.sb := by
  intro i block hge hlt hblock
  rw [headOf_get hlt.le] at hblock
  obtain rfl := Option.some.inj hblock
  exact superblock_noTag .overwrite hge (h.superblock i hlt)

theorem relocated {buffer : Nat → Block} {head : List Block} (h : Prepared s buffer)
    (hkeeps : KeepsTag c 0 (headOf s buffer) head s.sb) :
    Relocated c head s.sb (relocatedTag s buffer) where
  superblock := ⟨sb_bounds.1, sb_bounds.2, hkeeps.first⟩
  decodes := ⟨_, hkeeps.same.trans (headOf_get le_rfl), prepared_decodes h⟩
  type := rfl
  pos := rfl
  start := rfl

/-- The check of the start of the medium goes on with the session, or it reports a mismatch. -/
theorem check_at_start {src : Source} {buffer : Nat → Block} {head : List Block} {r : Int}
    (h : Prepared s buffer) (hkeeps : KeepsTag c 0 (headOf s buffer) head s.sb)
    (hreads : Reads src 0 head) (hms : 32 ≤ s.msBlock.toNat)
    (hsession : Gives (fun n => isoSrcCheckSbTree c src n s.msBlock) r) :
    (md5 (contents (head.take s.sb)) = md5 (contents ((List.range s.sb).map buffer)) ∧
        Gives (fun n => isoSrcCheckSbTree c src n 0) r) ∨
      ¬ (Clean c head s.sb ∧
          md5 (contents (head.take s.sb)) = md5 (contents ((List.range s.sb).map buffer))) ∧
        Gives (fun n => isoSrcCheckSbTree c src n 0) isoSbTreeCorrupted := by
  obtain ⟨n, hn⟩ := hsession
  have hplausible : ¬ (relocatedTag s buffer).nextTag < 32 := by
    change ¬ s.msBlock < 32
    rw [UInt32.lt_iff_toNat_lt]
    exact Nat.not_lt.mpr hms
  rcases check_relocated hreads (relocated h hkeeps) n with ⟨hmatch, hcheck⟩ | ⟨hnot, hcheck⟩
  · rw [if_neg hplausible] at hcheck
    exact Or.inl ⟨hmatch, n + 1, hcheck.trans hn⟩
  · exact Or.inr ⟨hnot, n + 1, hcheck⟩

/-! ## Main results -/

/-- The tags of a written image are valid. If there is a relocated superblock tag, then this
holds for sessions which begin behind the overwrite buffer. -/
theorem tags_valid (s : Session) (hreloc : s.overwrite.isSome →
    s.partitionOffset.toNat + 32 ≤ s.msBlock.toNat) :
    ∃ t, writeImage s = .ok t ∧ t.optsOverwrite.isSome = s.overwrite.isSome ∧
      ∀ c old, TagsValid c s t old := by
  obtain ⟨overwrite, hnew, hsome, hprepared⟩ := ecma119ImageNew_ok hreloc
  obtain ⟨t, hwrite, hoverwrite, hwritten⟩ := @writeFunction_ok s overwrite
  have hroom : t.optsOverwrite.isSome → s.partitionOffset.toNat + 32 ≤ s.msBlock.toNat := by
    rw [hoverwrite, hsome]
    exact hreloc
  refine ⟨t, ?_, by rw [hoverwrite, hsome], fun c old => ?_⟩
  · simp only [writeImage, hnew, bind, Except.bind, hwrite]
  have hlen : s.tagIndex ≤ t.written.length := by
    rw [hwritten.length]
    omega
  have htree : s.treeIndex ≤ t.written.length := by
    rw [Session.tagIndex] at hlen
    omega
  have hsb : s.sb ≤ t.written.length := by
    rw [Session.treeIndex] at htree
    omega
  have hbuffer : ∀ b, t.optsOverwrite = some b → Prepared s b ∧
      s.partitionOffset.toNat + 32 ≤ s.msBlock.toNat := fun b hb =>
    ⟨hprepared b (hoverwrite.symm.trans hb), hroom (by rw [hb]; rfl)⟩
  have haccepted : Gives (fun n => isoSrcCheckSbTree c (medium s t old) n s.msBlock) 1 := by
    have hclean := @clean_self c s _ hwritten
    exact (check_tagged (@reads_session s t old hwritten hroom)
      (tagged hwritten (keepsTag_of_clean hclean) rfl)).1 hclean rfl rfl
  have hreported : ∀ src blocks, Reads src s.msBlock blocks →
      KeepsTag c s.msBlock t.written blocks s.sb →
      blocks[s.treeIndex]? = t.written[s.treeIndex]? →
      (md5 (contents (blocks.take s.sb)) ≠ md5 (contents (t.written.take s.sb)) ∨
        md5 (contents (blocks.take s.treeIndex)) ≠ md5 (contents (t.written.take s.treeIndex))) →
      Gives (fun n => isoSrcCheckSbTree c src n s.msBlock) isoSbTreeCorrupted := by
    intro src blocks hreads hkeeps hsame hdiffer
    exact (check_tagged hreads (tagged hwritten hkeeps hsame)).2 hdiffer
  refine ⟨⟨_, hwritten.sbTag, tagBlock_decodes (by decide) hsb⟩,
    ⟨_, hwritten.treeTag, tagBlock_decodes (by decide) htree⟩, ?_, ?_, haccepted, ?_, hreported, ?_⟩
  · obtain ⟨more, hmore⟩ := hwritten.tag
    have htype : (sessionTag s t.written 1 s.tagIndex 0).tagType ∈ [1, 2, 3, 4] :=
      List.mem_of_elem_eq_true rfl
    exact ⟨_, hmore, decodes_ofText htype (length_md5 _) (fun _ => rfl) more⟩
  · exact fun b hb => prepared_decodes (hbuffer b hb).1
  · intro hisSome
    obtain ⟨b, hb⟩ := Option.isSome_iff_exists.mp hisSome
    obtain ⟨hprep, hle⟩ := hbuffer b hb
    have hms := s.msBlock.toNat_lt
    have hclean := @clean_head c s b hprep
    rcases check_at_start hprep (keepsTag_of_clean hclean) (@reads_head s t old b hb (by omega))
      (by omega) haccepted with ⟨-, hcheck⟩ | ⟨hnot, -⟩
    · exact hcheck
    · exact absurd ⟨hclean, congrArg (fun blocks => md5 (contents blocks)) (headOf_take b)⟩ hnot
  · intro b hb src head blocks hhead hkeepsHead hreads hkeeps hsame hdiffer
    obtain ⟨hprep, hle⟩ := hbuffer b hb
    by_cases hmatch : md5 (contents (head.take s.sb)) = md5 (contents ((List.range s.sb).map b))
    · have hsession := hreported src blocks hreads hkeeps hsame
        (hdiffer.resolve_left (not_not.mpr hmatch))
      rcases check_at_start hprep hkeepsHead hhead (by omega) hsession with
        ⟨-, hcheck⟩ | ⟨-, hcheck⟩
      · exact hcheck
      · exact hcheck
    · rcases check_relocated hhead (relocated hprep hkeepsHead) 0 with ⟨hhead', -⟩ | ⟨-, hcheck⟩
      · exact absurd hhead' hmatch
      · exact ⟨1, hcheck⟩

/-- A session at LBA 0 with an overwrite buffer gets a tag which the check does not accept. -/
theorem refused_at_zero {overwrite : Nat → Block} (hoverwrite : s.overwrite = some overwrite)
    (hms : s.msBlock = 0) (hroom : s.partitionOffset.toNat + 32 < 2 ^ 32) :
    ∃ t, writeImage s = .ok t ∧ t.optsOverwrite.isSome ∧
      ∀ c old, Gives (fun n => isoSrcCheckSbTree c (medium s t old) n 0) isoSbTreeCorrupted := by
  obtain ⟨first, buffer, hrelocate, hprep, hstage⟩ := @relocate_ok s overwrite
  obtain ⟨t, hwrite, hsome, -⟩ := @writeFunction_ok s (some buffer)
  refine ⟨t, ?_, by rw [hsome]; rfl, fun c old => ⟨1, ?_⟩⟩
  · have hguard : ¬ (s.msBlock ≠ 0 ∧ s.msBlock < s.partitionOffset + 32) := fun h => h.1 hms
    simp only [writeImage, ecma119ImageNew, hoverwrite, hguard, if_false, hrelocate, Except.map,
      hstage, bind, Except.bind, hwrite]
  · have hlow : (relocatedTag s buffer).nextTag < 32 := by
      change s.msBlock < 32
      rw [hms]
      decide
    have hkeeps := @keepsTag_of_clean c _ 0 _ (@clean_head c s buffer hprep)
    rcases check_relocated (@reads_head s t old buffer hsome hroom) (relocated hprep hkeeps) 0 with
      ⟨-, hcheck⟩ | ⟨-, hcheck⟩
    · rwa [if_pos hlow] at hcheck
    · exact hcheck

/-! ## Two sessions of zeros -/

def plainClib : Clib where
  num _ := 0
  stale := 0
  behind := []

def zeroBlock : Block := ⟨List.replicate 2048 0, List.length_replicate⟩

def zeroBody : Body := ⟨List.replicate 2047 0, List.length_replicate⟩

/-- A small session at LBA 0 or 32, with an overwrite buffer. -/
def zeroSession (late : Bool) : Session where
  msBlock := if late then 32 else 0
  partitionOffset := 0
  overwrite := some fun _ => zeroBlock
  scdbackupTagParm := []
  systemArea _ := List.Vector.replicate 16 zeroBlock
  primary _ := zeroBody
  elTorito := none
  joliet := none
  iso1999 := none
  terminator := zeroBody
  second := []
  tree := [zeroBlock, zeroBlock, zeroBlock]
  data := [zeroBlock]
  tail := []
  fits := by cases late <;> decide

theorem late_session_valid : ((zeroSession true).overwrite.isSome →
    (zeroSession true).partitionOffset.toNat + 32 ≤ (zeroSession true).msBlock.toNat) ∧
      ∃ t, writeImage (zeroSession true) = .ok t ∧
        t.optsOverwrite.isSome = (zeroSession true).overwrite.isSome ∧
          ∀ c old, TagsValid c (zeroSession true) t old :=
  ⟨fun _ => by decide, tags_valid (zeroSession true) fun _ => by decide⟩

/-- The image of the session at LBA 0 is taken for corrupted, although nothing was altered. -/
theorem early_session_refused : ∃ t, writeImage (zeroSession false) = .ok t ∧
    Gives (fun n => isoSrcCheckSbTree plainClib (medium (zeroSession false) t fun _ => .error (-1))
      n 0) isoSbTreeCorrupted ∧
    ¬ TagsValid plainClib (zeroSession false) t fun _ => .error (-1) := by
  obtain ⟨t, hwrite, hsome, hrefused⟩ :=
    @refused_at_zero (zeroSession false) (fun _ => zeroBlock) rfl rfl (by decide)
  refine ⟨t, hwrite, hrefused _ _, fun hvalid => ?_⟩
  have heq := (stable_check _ _ 0).unique (hrefused _ _) (hvalid.acceptedAtStart hsome)
  exact absurd heq (by decide)

end ChecksumImage
