import Libisofs.ChecksumTagReads

/-!
# The blocks which get read by the check

iso_src_check_sb_tree() adds numbers to the start address which it got from the caller or from
a tag. The search for a tag can run over the end of the address range, and so can the loop
which reads up to the announced tree tag. If that one is announced for the last address, then
the loop does not end by its own.
-/

namespace ChecksumCheckEnds

open Texts ChecksumTags Unrollings

variable {c : Clib} {src : Source} {start : UInt32} {blocks : List Block}

section Reads

variable (c : Clib) (src : Source)

/-- The addresses which the search reads. They are not confined to 32 bits. -/
def scanReads (startLba : UInt32) : (left : Nat) → Bytes → List Nat
  | 0, _ => []
  | left + 1, ctx =>
    let i := 31 - left
    let lba := startLba + UInt32.ofNat i
    (startLba.toNat + i) :: match src lba with
      | .error _ => []
      | .ok block =>
        let desired := if startLba = 0 then [2, 4] else [2]
        let (ret, tag) :=
          if 16 ≤ i then isoUtilEvalMd5Tag c block desired lba ctx startLba else (0, none)
        if ret < 0 then []
        else
          match ret, tag with
          | 1, some _ => []
          | _, _ => scanReads startLba left (ctx ++ block.bytes)

/-- The loop up to the tree tag. `k` is its variable `i` without the limit of 32 bits. -/
def treeReads (startLba nextTag : UInt32) : Nat → (k : Nat) → TreeWalk → List Nat
  | 0, _, _ => []
  | n + 1, k, w =>
    if startLba + w.i ≤ nextTag then
      (startLba.toNat + k) :: match treeTurn src startLba nextTag w n with
        | some (.inl w') => treeReads startLba nextTag n (k + 1) w'
        | _ => []
    else []

def checkReads : Nat → UInt32 → List Nat
  | 0, _ => []
  | n + 1, startLba =>
    scanReads c src startLba 32 [] ++ match scanSuperblock c src startLba 32 [] with
      | .leave _ => []
      | .found tag i block ctx =>
        if tag.tagType = 4 then
          if tag.nextTag < 32 then [] else checkReads n tag.nextTag
        else treeReads src startLba tag.nextTag n (i + 1) ⟨UInt32.ofNat i + 1, block, ctx⟩

end Reads

section Search

/-- What the search learns from the block behind these ones. -/
def evalBehind (c : Clib) (start : UInt32) (blocks : List Block) (block : Block) :
    Int × Option Md5Tag :=
  if 16 ≤ blocks.length then
    isoUtilEvalMd5Tag c block (wanted start) (start + UInt32.ofNat blocks.length) (contents blocks)
      start
  else (0, none)

/-- These blocks are read, and none of them ends the search. -/
inductive PassedOver (c : Clib) (src : Source) (start : UInt32) : List Block → Prop where
  | none : PassedOver c src start []
  | next {blocks : List Block} {block : Block} : PassedOver c src start blocks →
    blocks.length < 32 → src (start + UInt32.ofNat blocks.length) = .ok block →
    (evalBehind c start blocks block).1 = 0 → PassedOver c src start (blocks ++ [block])

/-- The search ends with the tag in the block behind these ones. -/
structure TagFound (c : Clib) (src : Source) (start : UInt32) (blocks : List Block)
    (block : Block) (tag : Md5Tag) : Prop where
  passed : PassedOver c src start blocks
  lt : blocks.length < 32
  read : src (start + UInt32.ofNat blocks.length) = .ok block
  eval : evalBehind c start blocks block = (1, some tag)

theorem contents_append_singleton {block : Block} :
    contents (blocks ++ [block]) = contents blocks ++ block.bytes := by
  rw [contents, contents, List.flatMap_append, List.flatMap_singleton]

/-- The results of the evaluation of a tag. -/
theorem eval_cases {block : Block} {desired : List Nat} {lba : UInt32} {ctx : Bytes} :
    (isoUtilEvalMd5Tag c block desired lba ctx start).1 = 0 ∨
      (∃ tag, tag.tagType ∈ desired ∧
        isoUtilEvalMd5Tag c block desired lba ctx start = (1, some tag)) ∨
      (isoUtilEvalMd5Tag c block desired lba ctx start).1 < 0 := by
  have hcorrupted : isoMd5AreaCorrupted < 0 := by decide
  have hmisplaced : isoMd5TagMisplaced < 0 := by decide
  have hcopied : isoMd5TagCopied < 0 := by decide
  have hmismatch : isoMd5TagMismatch < 0 := by decide
  unfold isoUtilEvalMd5Tag
  split
  next => exact Or.inl rfl
  next ret tag _ =>
    simp only
    split
    next hret => exact Or.inr (Or.inr (hret ▸ hcorrupted))
    split
    next => exact Or.inl rfl
    split
    next => exact Or.inl rfl
    next hdesired =>
    split
    next =>
      split
      next =>
        split
        next => exact Or.inr (Or.inr hmisplaced)
        next => exact Or.inr (Or.inr hcopied)
      next => exact Or.inr (Or.inr hmisplaced)
    split
    next => exact Or.inr (Or.inr hmisplaced)
    split
    next => exact Or.inr (Or.inr hmismatch)
    next => exact Or.inr (Or.inl ⟨tag, not_not.mp hdesired, rfl⟩)

theorem evalBehind_cases {block : Block} : (evalBehind c start blocks block).1 = 0 ∨
    (∃ tag, tag.tagType ∈ wanted start ∧ evalBehind c start blocks block = (1, some tag)) ∨
      (evalBehind c start blocks block).1 < 0 := by
  rw [evalBehind]
  split
  next => exact eval_cases
  next => exact Or.inl rfl

/-- The loop goes on behind blocks which it passes over. -/
theorem scan_passed (h : PassedOver c src start blocks) : scanSuperblock c src start 32 [] =
    scanSuperblock c src start (32 - blocks.length) (contents blocks) := by
  induction h with
  | none => rfl
  | next hpassed hlt hread heval ih =>
    rename_i blocks block
    obtain ⟨⟨ret, tag⟩, hresult⟩ : ∃ result, evalBehind c start blocks block = result := ⟨_, rfl⟩
    rw [hresult] at heval
    obtain rfl : ret = 0 := heval
    have hturn := scan_turn hlt hread hresult
    have hcopied : (0 : Int) ≠ isoMd5TagCopied := by decide
    have hzero : ¬ ((0 : Int) = isoMd5AreaCorrupted ∨ (0 : Int) = isoMd5TagMismatch) := by decide
    simp only [hcopied, hzero, if_false, lt_irrefl] at hturn
    rw [ih, hturn, List.length_append, List.length_singleton,
      contents_append_singleton]

/-- One turn of the loop with its read. -/
theorem scanReads_turn (hlt : blocks.length < 32) :
    scanReads c src start (32 - blocks.length) (contents blocks) =
      (start.toNat + blocks.length) :: match src (start + UInt32.ofNat blocks.length) with
        | .error _ => []
        | .ok block =>
          if (evalBehind c start blocks block).1 < 0 then []
          else
            match (evalBehind c start blocks block).1, (evalBehind c start blocks block).2 with
            | 1, some _ => []
            | _, _ => scanReads c src start (32 - (blocks ++ [block]).length)
                (contents (blocks ++ [block])) := by
  have hleft : 32 - blocks.length = (31 - blocks.length) + 1 := by omega
  have hindex : 31 - (31 - blocks.length) = blocks.length := by omega
  have hnext (block : Block) : 32 - (blocks ++ [block]).length = 31 - blocks.length := by
    rw [List.length_append, List.length_singleton]
    omega
  simp only [contents_append_singleton, hnext]
  rw [hleft, scanReads, hindex]
  rfl

/-- The search reads all blocks which it passes over, and then one more. -/
theorem mem_scanReads {a : Nat} : a ∈ scanReads c src start 32 [] ↔
    ∃ blocks, PassedOver c src start blocks ∧ blocks.length < 32 ∧
      a = start.toNat + blocks.length := by
  constructor
  · have hgeneral : ∀ left blocks, PassedOver c src start blocks → 32 - blocks.length = left →
        a ∈ scanReads c src start left (contents blocks) →
        ∃ blocks, PassedOver c src start blocks ∧ blocks.length < 32 ∧
          a = start.toNat + blocks.length := by
      intro left
      induction left with
      | zero =>
        intro blocks _ _ hmem
        cases hmem
      | succ left ih =>
        intro blocks hpassed hleft hmem
        have hlt : blocks.length < 32 := by omega
        rw [← hleft, scanReads_turn hlt] at hmem
        rcases List.mem_cons.mp hmem with heq | hrest
        · exact ⟨blocks, hpassed, hlt, heq⟩
        · split at hrest
          next => cases hrest
          next block hread =>
          rcases @evalBehind_cases c start blocks block with hzero | ⟨tag, -, hfound⟩ | hneg
          · have hleft' : 32 - (blocks ++ [block]).length = left := by
              rw [List.length_append, List.length_singleton]
              omega
            simp only [hzero, lt_irrefl, if_false] at hrest
            rw [hleft'] at hrest
            exact ih _ (hpassed.next hlt hread hzero) hleft' hrest
          · rw [hfound] at hrest
            cases hrest
          · rw [if_pos hneg] at hrest
            cases hrest
    exact hgeneral 32 [] .none rfl
  · rintro ⟨blocks, hpassed, hlt, rfl⟩
    have hbehind : ∀ b ∈ scanReads c src start (32 - blocks.length) (contents blocks),
        b ∈ scanReads c src start 32 [] := by
      clear hlt
      induction hpassed with
      | none => exact fun b hb => hb
      | next hpassed hlt hread heval ih =>
        intro b hb
        refine ih b ?_
        rw [scanReads_turn hlt, hread]
        simp only [heval, lt_irrefl, if_false]
        exact List.mem_cons_of_mem _ hb
    refine hbehind _ ?_
    rw [scanReads_turn hlt]
    exact List.mem_cons_self

theorem scan_found_iff {tag : Md5Tag} {i : Nat} {block : Block} {ctx : Bytes} :
    scanSuperblock c src start 32 [] = .found tag i block ctx ↔
      ∃ blocks, TagFound c src start blocks block tag ∧ i = blocks.length ∧
        ctx = contents (blocks ++ [block]) := by
  constructor
  · have hgeneral : ∀ left blocks, PassedOver c src start blocks → 32 - blocks.length = left →
        scanSuperblock c src start left (contents blocks) = .found tag i block ctx →
        ∃ blocks, TagFound c src start blocks block tag ∧ i = blocks.length ∧
          ctx = contents (blocks ++ [block]) := by
      intro left
      induction left with
      | zero =>
        intro blocks _ _ hscan
        cases hscan
      | succ left ih =>
        intro blocks hpassed hleft hscan
        have hlt : blocks.length < 32 := by omega
        cases hread : src (start + UInt32.ofNat blocks.length) with
        | error ret =>
          have hindex : 31 - left = blocks.length := by omega
          rw [scanSuperblock, hindex, hread] at hscan
          cases hscan
        | ok read =>
          have hturn := scan_turn hlt hread (rfl : _ = evalBehind c start blocks read)
          rw [← hleft, hturn] at hscan
          rcases @evalBehind_cases c start blocks read with hzero | ⟨found, hwanted, hfound⟩ | hneg
          · have hcopied : (0 : Int) ≠ isoMd5TagCopied := by decide
            have hdamaged : ¬ ((0 : Int) = isoMd5AreaCorrupted ∨
              (0 : Int) = isoMd5TagMismatch) := by decide
            have hleft' : 32 - (blocks ++ [read]).length = left := by
              rw [List.length_append, List.length_singleton]
              omega
            have hleft'' : 32 - (blocks.length + 1) = left := by omega
            simp only [hzero, hcopied, hdamaged, lt_irrefl, if_false, hleft'',
              ← contents_append_singleton] at hscan
            exact ih _ (hpassed.next hlt hread hzero) hleft' hscan
          · have hcopied : (1 : Int) ≠ isoMd5TagCopied := by decide
            have hdamaged : ¬ ((1 : Int) = isoMd5AreaCorrupted ∨
              (1 : Int) = isoMd5TagMismatch) := by decide
            have hpos : ¬ (1 : Int) < 0 := by decide
            simp only [hfound, hcopied, hdamaged, hpos, if_false] at hscan
            injection hscan with htag hi hblock hctx
            subst htag hi hblock hctx
            exact ⟨blocks, ⟨hpassed, hlt, hread, hfound⟩, rfl, contents_append_singleton.symm⟩
          · split at hscan
            next => cases hscan
            split at hscan
            next => cases hscan
            cases hscan
    exact hgeneral 32 [] .none rfl
  · rintro ⟨blocks, hfound, rfl, rfl⟩
    have hturn := scan_turn hfound.lt hfound.read hfound.eval
    have hcopied : (1 : Int) ≠ isoMd5TagCopied := by decide
    have hdamaged : ¬ ((1 : Int) = isoMd5AreaCorrupted ∨ (1 : Int) = isoMd5TagMismatch) := by
      decide
    have hpos : ¬ (1 : Int) < 0 := by decide
    simp only [hcopied, hdamaged, hpos, if_false] at hturn
    rw [scan_passed hfound.passed, hturn, contents_append_singleton]

end Search

section Tree

variable {nextTag : UInt32} {w : TreeWalk} {k n : Nat}

/-- The loop ends, and it reads addresses of 32 bits. -/
def TreeInRange (src : Source) (start nextTag : UInt32) (k : Nat) (w : TreeWalk) : Prop :=
  (Ends fun n => loop (treeTurn src start nextTag) n w) ∧
    ∀ n, ∀ a ∈ treeReads src start nextTag n k w, a < 2 ^ 32

/-- A read fails at this distance from the start or behind it. -/
def FailsFrom (src : Source) (start : UInt32) (k : Nat) : Prop :=
  ∃ i, k ≤ i ∧ start.toNat + i < 2 ^ 32 ∧ ∃ ret, src (start + UInt32.ofNat i) = .error ret

theorem toNat_wrapped : (start + UInt32.ofNat k).toNat = (start.toNat + k) % 2 ^ 32 := by
  rw [UInt32.toNat_add, UInt32.toNat_ofNat', Nat.add_mod_mod]

theorem treeInRange_of_end (hk : w.i = UInt32.ofNat k) (hend : ¬ start + UInt32.ofNat k ≤ nextTag) :
    TreeInRange src start nextTag k w := by
  constructor
  · refine ⟨.ok w, gives_of_turn ⟨0, ?_⟩⟩
    rw [treeTurn, hk, if_neg hend]
  · intro n a ha
    cases n with
    | zero => cases ha
    | succ n =>
      rw [treeReads, hk, if_neg hend] at ha
      cases ha

theorem treeInRange_of_error {ret : Int} (hk : w.i = UInt32.ofNat k)
    (hlt : start.toNat + k < 2 ^ 32) (hgoes : start + UInt32.ofNat k ≤ nextTag)
    (hread : src (start + UInt32.ofNat k) = .error ret) :
    TreeInRange src start nextTag k w := by
  have hturn : ∀ n, treeTurn src start nextTag w n = some (.inr (.error ret)) := fun n => by
    rw [treeTurn, hk, if_pos hgoes, hread]
  constructor
  · exact ⟨.error ret, gives_of_turn ⟨0, hturn 0⟩⟩
  · intro n a ha
    cases n with
    | zero => cases ha
    | succ n =>
      rw [treeReads, hk, if_pos hgoes, hturn] at ha
      obtain rfl := List.mem_singleton.mp ha
      exact hlt

/-- A turn which reads a block. -/
theorem treeTurn_read {block : Block} (hk : w.i = UInt32.ofNat k)
    (hgoes : start + UInt32.ofNat k ≤ nextTag) (hread : src (start + UInt32.ofNat k) = .ok block) :
    ∃ w' : TreeWalk, w'.i = UInt32.ofNat (k + 1) ∧
      ∀ n, treeTurn src start nextTag w n = some (.inl w') := by
  refine ⟨⟨w.i + 1, block, if start + w.i < nextTag then w.ctx ++ block.bytes else w.ctx⟩, ?_,
    fun n => ?_⟩
  · rw [hk]
    exact (UInt32.ofNat_add k 1).symm
  · rw [treeTurn, hk, if_pos hgoes, hread]

/-- If the end is not the last address, or if a read fails, then the loop ends in time. -/
theorem treeInRange_of_ending (hk : w.i = UInt32.ofNat k) (hlt : start.toNat + k < 2 ^ 32)
    (hends : nextTag.toNat = 2 ^ 32 - 1 → FailsFrom src start k) :
    TreeInRange src start nextTag k w := by
  generalize hleft : 2 ^ 32 - (start.toNat + k) = left
  induction left generalizing k w with
  | zero => omega
  | succ left ih =>
    by_cases hgoes : start + UInt32.ofNat k ≤ nextTag
    · cases hread : src (start + UInt32.ofNat k) with
      | error ret => exact treeInRange_of_error hk hlt hgoes hread
      | ok block =>
        obtain ⟨w', hk', hturn⟩ := treeTurn_read hk hgoes hread
        have hle : start.toNat + k ≤ nextTag.toNat := by
          have := UInt32.le_iff_toNat_le.mp hgoes
          rwa [toNat_wrapped, Nat.mod_eq_of_lt hlt] at this
        have hsmall : nextTag.toNat < 2 ^ 32 := nextTag.toNat_lt
        have hmore : nextTag.toNat = 2 ^ 32 - 1 → FailsFrom src start (k + 1) := by
          intro hlast
          obtain ⟨i, hi, hrange, ret, herror⟩ := hends hlast
          have hne : i ≠ k := by
            rintro rfl
            rw [hread] at herror
            cases herror
          exact ⟨i, by omega, hrange, ret, herror⟩
        have hlt' : start.toNat + (k + 1) < 2 ^ 32 := by
          by_cases hlast : nextTag.toNat = 2 ^ 32 - 1
          · obtain ⟨i, hi, hrange, -⟩ := hmore hlast
            omega
          · omega
        obtain ⟨⟨r, hr⟩, hreads⟩ := ih hk' hlt' hmore (by omega)
        constructor
        · exact ⟨r, gives_of_next (stable_treeTurn _) ⟨0, hturn 0⟩ hr⟩
        · intro n a ha
          cases n with
          | zero => cases ha
          | succ n =>
            rw [treeReads, hk, if_pos hgoes, hturn] at ha
            rcases List.mem_cons.mp ha with rfl | hrest
            · exact hlt
            · exact hreads n a hrest
    · exact treeInRange_of_end hk hgoes

/-- If the end is the last address and no read fails, then the address wraps around. -/
theorem wraps_of_readable (hk : w.i = UInt32.ofNat k) (hle : start.toNat + k ≤ 2 ^ 32)
    (hlast : start.toNat + k = 2 ^ 32 ∨ nextTag.toNat = 2 ^ 32 - 1)
    (hnone : ¬ FailsFrom src start k) : ∃ n, 2 ^ 32 ∈ treeReads src start nextTag n k w := by
  generalize hleft : 2 ^ 32 - (start.toNat + k) = left
  induction left generalizing k w with
  | zero =>
    have heq : start.toNat + k = 2 ^ 32 := by omega
    have hgoes : start + UInt32.ofNat k ≤ nextTag := by
      rw [UInt32.le_iff_toNat_le, toNat_wrapped, heq, Nat.mod_self]
      exact Nat.zero_le _
    refine ⟨1, ?_⟩
    rw [treeReads, hk, if_pos hgoes, heq]
    exact List.mem_cons_self
  | succ left ih =>
    have hlt : start.toNat + k < 2 ^ 32 := by omega
    have hnext : nextTag.toNat = 2 ^ 32 - 1 := by omega
    have hgoes : start + UInt32.ofNat k ≤ nextTag := by
      rw [UInt32.le_iff_toNat_le, toNat_wrapped, Nat.mod_eq_of_lt hlt, hnext]
      omega
    cases hread : src (start + UInt32.ofNat k) with
    | error ret => exact absurd ⟨k, le_rfl, hlt, ret, hread⟩ hnone
    | ok block =>
      obtain ⟨w', hk', hturn⟩ := treeTurn_read hk hgoes hread
      have hnone' : ¬ FailsFrom src start (k + 1) := by
        rintro ⟨i, hi, hrest⟩
        exact hnone ⟨i, by omega, hrest⟩
      obtain ⟨n, hn⟩ := ih hk' (by omega) (Or.inr hnext) hnone' (by omega)
      refine ⟨n + 1, ?_⟩
      rw [treeReads, hk, if_pos hgoes, hturn]
      exact List.mem_cons_of_mem _ hn

theorem treeInRange_iff (hk : w.i = UInt32.ofNat k) (hle : start.toNat + k ≤ 2 ^ 32) :
    TreeInRange src start nextTag k w ↔ start.toNat + k < 2 ^ 32 ∧
      (nextTag.toNat = 2 ^ 32 - 1 → FailsFrom src start k) := by
  constructor
  · rintro ⟨-, hreads⟩
    constructor
    · by_contra hnot
      have heq : start.toNat + k = 2 ^ 32 := by omega
      have hnone : ¬ FailsFrom src start k := by
        rintro ⟨i, hi, hrange, -⟩
        omega
      obtain ⟨n, hn⟩ := wraps_of_readable hk hle (Or.inl heq) hnone
      exact absurd (hreads n _ hn) (lt_irrefl _)
    · intro hlast
      by_contra hnone
      obtain ⟨n, hn⟩ := wraps_of_readable hk hle (Or.inr hlast) hnone
      exact absurd (hreads n _ hn) (lt_irrefl _)
  · rintro ⟨hlt, hends⟩
    exact treeInRange_of_ending hk hlt hends

end Tree

section Check

/-- The check comes to an end, and it reads addresses of 32 bits. -/
def CheckInRange (c : Clib) (src : Source) (start : UInt32) : Prop :=
  (Ends fun n => isoSrcCheckSbTree c src n start) ∧
    ∀ n, ∀ a ∈ checkReads c src n start, a < 2 ^ 32

/-- The addresses of a session up to the tree tag fit into 32 bits. If the last one of them is
announced for the tree tag, then a block is not readable. -/
structure SessionFits (c : Clib) (src : Source) (start : UInt32) : Prop where
  search : ∀ blocks, PassedOver c src start blocks → blocks.length < 32 →
    start.toNat + blocks.length < 2 ^ 32
  tree : ∀ blocks block tag, TagFound c src start blocks block tag → tag.tagType ≠ 4 →
    start.toNat + (blocks.length + 1) < 2 ^ 32 ∧
      (tag.nextTag.toNat = 2 ^ 32 - 1 → FailsFrom src start (blocks.length + 1))

/-- The session fits, and so does the one to which its tag refers. -/
structure SessionsFit (c : Clib) (src : Source) (start : UInt32) : Prop where
  session : SessionFits c src start
  relocated : ∀ blocks block tag, TagFound c src start blocks block tag → tag.tagType = 4 →
    32 ≤ tag.nextTag → SessionFits c src tag.nextTag

theorem checkInRange_of_leave {ret : Int} (hscan : scanSuperblock c src start 32 [] = .leave ret) :
    CheckInRange c src start ↔ ∀ a ∈ scanReads c src start 32 [], a < 2 ^ 32 := by
  constructor
  · rintro ⟨-, hreads⟩ a ha
    refine hreads 1 a ?_
    rw [checkReads]
    exact List.mem_append_left _ ha
  · intro hsearch
    constructor
    · refine ⟨ret, 1, ?_⟩
      simp only [isoSrcCheckSbTree, hscan]
    · intro n a ha
      cases n with
      | zero => cases ha
      | succ n =>
        rw [checkReads, hscan] at ha
        exact hsearch a ((List.mem_append.mp ha).resolve_right List.not_mem_nil)

section Found

variable {tag : Md5Tag} {i : Nat} {block : Block} {ctx : Bytes}

theorem checkInRange_of_tree (hscan : scanSuperblock c src start 32 [] = .found tag i block ctx)
    (htype : tag.tagType ≠ 4) : CheckInRange c src start ↔
      (∀ a ∈ scanReads c src start 32 [], a < 2 ^ 32) ∧
        TreeInRange src start tag.nextTag (i + 1) ⟨UInt32.ofNat i + 1, block, ctx⟩ := by
  have hcheck (n : Nat) : isoSrcCheckSbTree c src (n + 1) start =
      (loop (treeTurn src start tag.nextTag) n ⟨UInt32.ofNat i + 1, block, ctx⟩).map
        (checkTree c start) := by
    simp only [isoSrcCheckSbTree, hscan, htype, if_false]
  have hreads (n : Nat) : checkReads c src (n + 1) start = scanReads c src start 32 [] ++
      treeReads src start tag.nextTag n (i + 1) ⟨UInt32.ofNat i + 1, block, ctx⟩ := by
    simp only [checkReads, hscan, htype, if_false]
  constructor
  · rintro ⟨⟨r, n, hn⟩, hrange⟩
    have hall (n : Nat) := hrange (n + 1)
    simp only [hreads, List.mem_append] at hall
    refine ⟨fun a ha => hall 0 a (Or.inl ha), ?_, fun n a ha => hall n a (Or.inr ha)⟩
    cases n with
    | zero => cases hn
    | succ n =>
      have hn : isoSrcCheckSbTree c src (n + 1) start = some r := hn
      rw [hcheck] at hn
      obtain ⟨w, hw, -⟩ := Option.map_eq_some_iff.mp hn
      exact ⟨w, n, hw⟩
  · rintro ⟨hsearch, ⟨w, n, hw⟩, htree⟩
    constructor
    · refine ⟨checkTree c start w, n + 1, ?_⟩
      exact (hcheck n).trans (Option.map_eq_some_iff.mpr ⟨w, hw, rfl⟩)
    · intro n a ha
      cases n with
      | zero => cases ha
      | succ n =>
        rw [hreads] at ha
        rcases List.mem_append.mp ha with ha | ha
        · exact hsearch a ha
        · exact htree n a ha

theorem checkInRange_of_relocated
    (hscan : scanSuperblock c src start 32 [] = .found tag i block ctx) (htype : tag.tagType = 4) :
    CheckInRange c src start ↔ (∀ a ∈ scanReads c src start 32 [], a < 2 ^ 32) ∧
      (32 ≤ tag.nextTag → CheckInRange c src tag.nextTag) := by
  by_cases hlow : tag.nextTag < 32
  · have hcheck : isoSrcCheckSbTree c src 1 start = some isoSbTreeCorrupted := by
      simp only [isoSrcCheckSbTree, hscan, htype, if_true, hlow]
    have hreads (n : Nat) : checkReads c src (n + 1) start = scanReads c src start 32 [] := by
      simp only [checkReads, hscan, htype, if_true, hlow, List.append_nil]
    constructor
    · rintro ⟨-, hrange⟩
      refine ⟨fun a ha => hrange 1 a ?_, fun hge => absurd hlow (UInt32.not_lt.mpr hge)⟩
      rwa [hreads]
    · rintro ⟨hsearch, -⟩
      refine ⟨⟨_, 1, hcheck⟩, fun n a ha => ?_⟩
      cases n with
      | zero => cases ha
      | succ n =>
        rw [hreads] at ha
        exact hsearch a ha
  · have hcheck (n : Nat) : isoSrcCheckSbTree c src (n + 1) start =
        isoSrcCheckSbTree c src n tag.nextTag := by
      simp only [isoSrcCheckSbTree, hscan, htype, if_true, hlow, if_false]
    have hreads (n : Nat) : checkReads c src (n + 1) start = scanReads c src start 32 [] ++
        checkReads c src n tag.nextTag := by
      simp only [checkReads, hscan, htype, if_true, hlow, if_false]
    constructor
    · rintro ⟨⟨r, n, hn⟩, hrange⟩
      have hall (n : Nat) := hrange (n + 1)
      simp only [hreads, List.mem_append] at hall
      refine ⟨fun a ha => hall 0 a (Or.inl ha), fun _ => ⟨?_, fun n a ha => hall n a (Or.inr ha)⟩⟩
      cases n with
      | zero => cases hn
      | succ n => exact ⟨r, n, (hcheck n).symm.trans hn⟩
    · rintro ⟨hsearch, hrest⟩
      obtain ⟨⟨r, n, hn⟩, hlater⟩ := hrest (UInt32.not_lt.mp hlow)
      refine ⟨⟨r, n + 1, (hcheck n).trans hn⟩, fun n a ha => ?_⟩
      cases n with
      | zero => cases ha
      | succ n =>
        rw [hreads] at ha
        rcases List.mem_append.mp ha with ha | ha
        · exact hsearch a ha
        · exact hlater n a ha

end Found

theorem search_iff : (∀ a ∈ scanReads c src start 32 [], a < 2 ^ 32) ↔
    ∀ blocks, PassedOver c src start blocks → blocks.length < 32 →
      start.toNat + blocks.length < 2 ^ 32 := by
  constructor
  · intro h blocks hpassed hlt
    exact h _ (mem_scanReads.mpr ⟨blocks, hpassed, hlt, rfl⟩)
  · intro h a ha
    obtain ⟨blocks, hpassed, hlt, rfl⟩ := mem_scanReads.mp ha
    exact h blocks hpassed hlt

/-- What the check does behind the search is decided by the tag. -/
theorem checkInRange_iff_step : CheckInRange c src start ↔ SessionFits c src start ∧
    ∀ blocks block tag, TagFound c src start blocks block tag → tag.tagType = 4 →
      32 ≤ tag.nextTag → CheckInRange c src tag.nextTag := by
  cases hscan : scanSuperblock c src start 32 [] with
  | leave ret =>
    have hnone : ∀ blocks block tag, ¬ TagFound c src start blocks block tag := by
      intro blocks block tag hfound
      have hsome := scan_found_iff.mpr ⟨blocks, hfound, rfl, rfl⟩
      rw [hscan] at hsome
      cases hsome
    rw [checkInRange_of_leave hscan, search_iff]
    constructor
    · intro h
      exact ⟨⟨h, fun _ _ _ hfound => absurd hfound (hnone _ _ _)⟩,
        fun _ _ _ hfound => absurd hfound (hnone _ _ _)⟩
    · exact fun h => h.1.search
  | found tag i block ctx =>
    obtain ⟨blocks, hfound, rfl, rfl⟩ := scan_found_iff.mp hscan
    have honly : ∀ blocks' block' tag', TagFound c src start blocks' block' tag' →
        blocks'.length = blocks.length ∧ tag' = tag := by
      intro blocks' block' tag' hfound'
      have hsome := scan_found_iff.mpr ⟨blocks', hfound', rfl, rfl⟩
      rw [hscan] at hsome
      injection hsome with htag hlength
      exact ⟨hlength.symm, htag.symm⟩
    by_cases htype : tag.tagType = 4
    · rw [checkInRange_of_relocated hscan htype, search_iff]
      constructor
      · rintro ⟨hsearch, hrest⟩
        refine ⟨⟨hsearch, fun blocks' block' tag' hfound' hne => ?_⟩,
          fun blocks' block' tag' hfound' _ hge => ?_⟩
        · obtain ⟨-, rfl⟩ := honly _ _ _ hfound'
          exact absurd htype hne
        · obtain ⟨-, rfl⟩ := honly _ _ _ hfound'
          exact hrest hge
      · rintro ⟨hfits, hrest⟩
        exact ⟨hfits.search, hrest _ _ _ hfound htype⟩
    · have hi : (⟨UInt32.ofNat blocks.length + 1, block, contents (blocks ++ [block])⟩ :
          TreeWalk).i = UInt32.ofNat (blocks.length + 1) := (UInt32.ofNat_add _ 1).symm
      rw [checkInRange_of_tree hscan htype, search_iff]
      constructor
      · rintro ⟨hsearch, htree⟩
        have hlt := hsearch blocks hfound.passed hfound.lt
        refine ⟨⟨hsearch, fun blocks' block' tag' hfound' _ => ?_⟩,
          fun blocks' block' tag' hfound' hfour => ?_⟩
        · obtain ⟨hlength, rfl⟩ := honly _ _ _ hfound'
          rw [hlength]
          exact (treeInRange_iff hi (by omega)).mp htree
        · obtain ⟨-, rfl⟩ := honly _ _ _ hfound'
          exact absurd hfour htype
      · rintro ⟨hfits, -⟩
        have hlt := hfits.search blocks hfound.passed hfound.lt
        exact ⟨hfits.search, (treeInRange_iff hi (by omega)).mpr
          (hfits.tree _ _ _ hfound htype)⟩

/-- A session which is not at the start of the medium does not refer to another one. -/
theorem tagType_of_found {block : Block} {tag : Md5Tag} (hne : start ≠ 0)
    (h : TagFound c src start blocks block tag) : tag.tagType = 2 := by
  have heval := h.eval
  rcases @evalBehind_cases c start blocks block with hzero | ⟨found, hwanted, hfound⟩ | hneg
  · rw [heval] at hzero
    cases hzero
  · rw [heval] at hfound
    obtain rfl : tag = found := Option.some.inj (congrArg Prod.snd hfound)
    rw [wanted, if_neg hne] at hwanted
    exact List.mem_singleton.mp hwanted
  · rw [heval] at hneg
    have hpos : ¬ (1 : Int) < 0 := by decide
    exact absurd hneg hpos

theorem checkInRange_of_ne (hne : start ≠ 0) :
    CheckInRange c src start ↔ SessionFits c src start := by
  rw [checkInRange_iff_step]
  refine and_iff_left fun blocks block tag hfound hfour => ?_
  rw [tagType_of_found hne hfound] at hfour
  cases hfour

theorem checkInRange_iff : CheckInRange c src start ↔ SessionsFit c src start := by
  have hlater : ∀ tag : Md5Tag, 32 ≤ tag.nextTag →
      (CheckInRange c src tag.nextTag ↔ SessionFits c src tag.nextTag) := by
    intro tag hge
    refine checkInRange_of_ne fun hzero => ?_
    rw [hzero] at hge
    exact absurd hge (by decide)
  rw [checkInRange_iff_step]
  constructor
  · rintro ⟨hsession, hrest⟩
    exact ⟨hsession, fun blocks block tag hfound hfour hge =>
      (hlater tag hge).mp (hrest blocks block tag hfound hfour hge)⟩
  · rintro ⟨hsession, hrest⟩
    exact ⟨hsession, fun blocks block tag hfound hfour hge =>
      (hlater tag hge).mpr (hrest blocks block tag hfound hfour hge)⟩

end Check

section Safety

open LoggedComputations ChecksumTagReads

/-- The decoder reads the block, and the check reads addresses of 32 bits until it ends.
iso_util_eval_md5_tag() looks at the block only by the decoder with mode 0. -/
structure TagReadingSafe (c : Clib) (block : Block) (src : Source) (start : UInt32) : Prop where
  decode : ∀ mode, Emits Inside (decodeReads c (block.bytes ++ c.behind) mode)
  check : CheckInRange c src start

theorem emits_wrongMode {data : Bytes} {mode : Nat} (h : 4 < mode) :
    Emits Inside (decodeReads c data mode) := by
  rw [decodeReads, if_pos h]
  exact emits_pure _

/-- Reading of tags is safe if the strings of the block end in the block, and if the tags of the
medium announce addresses at which the check can end. -/
theorem tagReadingSafe_iff (c : Clib) (block : Block) (src : Source) (start : UInt32) :
    TagReadingSafe c block src start ↔
      (∀ mode ≤ 4, TagInside c (block.bytes ++ c.behind) mode) ∧ SessionsFit c src start := by
  constructor
  · rintro ⟨hdecode, hcheck⟩
    exact ⟨fun mode hmode => (emits_decodeReads hmode).mp (hdecode mode),
      checkInRange_iff.mp hcheck⟩
  · rintro ⟨hinside, hfits⟩
    refine ⟨fun mode => ?_, checkInRange_iff.mpr hfits⟩
    by_cases hmode : mode ≤ 4
    · exact (emits_decodeReads hmode).mpr (hinside mode hmode)
    · exact emits_wrongMode (Nat.lt_of_not_le hmode)

/-- A tag of which the position has no end. -/
def endlessTag : Block :=
  ⟨text "libisofs_checksum_tag_v1 pos=" ++ List.replicate 2019 (charByte '1'), by
    rw [List.length_append, List.length_replicate]
    rfl⟩

/-- A string of digits up to the end of the block ends behind it. -/
theorem stringEnd_digits (n : Nat) :
    stringEnd (text "libisofs_checksum_tag_v1 pos=" ++ List.replicate n (charByte '1'))
      (List.replicate n (charByte '1')) = 29 + n + 1 := by
  have hlength : (text "libisofs_checksum_tag_v1 pos=").length = 29 := rfl
  have hdigit : inString (charByte '1') = true := by decide
  rw [stringEnd, offset, stringSize, List.takeWhile_replicate, if_pos hdigit, List.length_append,
    List.length_replicate, hlength]
  omega

theorem endlessTag_leaves : ¬ TagInside ChecksumImage.plainClib
    (endlessTag.bytes ++ ChecksumImage.plainClib.behind) 0 := by
  intro h
  have hbytes : endlessTag.bytes ++ ChecksumImage.plainClib.behind =
      text "libisofs_checksum_tag_v1 pos=" ++ List.replicate 2019 (charByte '1') :=
    List.append_nil _
  have hbegins (rest : Bytes) :
      findType (text "libisofs_checksum_tag_v1 pos=" ++ rest) 0 = some 1 ∧
        startsTag (text "libisofs_checksum_tag_v1 pos=" ++ rest) 1 = true := ⟨rfl, rfl⟩
  have hplace (rest : Bytes) :
      posPlace (text "libisofs_checksum_tag_v1 pos=" ++ rest) 1 = rest := rfl
  rw [hbytes] at h
  obtain ⟨htype, hstarts⟩ := hbegins (List.replicate 2019 (charByte '1'))
  have hclosed := h.closed 1 htype hstarts
  rw [hplace, stringEnd_digits] at hclosed
  omega

/-- Also the addresses wrap around if the session starts at the last one. -/
theorem endless_tag_unsafe :
    (¬ ∀ block : Block, ∀ mode,
      Emits Inside (decodeReads ChecksumImage.plainClib
        (block.bytes ++ ChecksumImage.plainClib.behind) mode)) ∧
    ¬ ∀ src start, CheckInRange ChecksumImage.plainClib src start := by
  constructor
  · intro h
    exact endlessTag_leaves ((emits_decodeReads (Nat.zero_le 4)).mp (h endlessTag 0))
  · intro h
    have hfits := checkInRange_iff.mp (h (fun _ => .ok ChecksumImage.zeroBlock) 4294967295)
    have hpassed : PassedOver ChecksumImage.plainClib (fun _ => .ok ChecksumImage.zeroBlock)
        4294967295 [ChecksumImage.zeroBlock] :=
      PassedOver.none.next (by decide) rfl rfl
    exact absurd (hfits.session.search _ hpassed (by decide)) (by decide)

end Safety

end ChecksumCheckEnds
