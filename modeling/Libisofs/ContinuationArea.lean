import Libisofs.NameEntries

/-!
# The Continuation Area

The entries which susp_append_ce() puts into it, and the sizes which susp_update_CE_sizes()
records in the CE entries. An area begins where a CE entry points to and ends by the next CE.
-/

namespace NameEntries

def Field.isCe : Field → Bool
  | .other .ce _ => true
  | _ => false

/-- An entry other than CE. -/
structure Plain where
  field : Field
  notPad : field ≠ .pad
  notCe : field.isCe = false
  pos : 0 < field.len
  le : field.len ≤ 255

/-- The lengths of the areas. -/
def areas : Nat → List Field → List Nat
  | len, [] => [len]
  | len, data :: rest =>
    if data.isCe then (len + data.len) :: areas 0 rest else areas (len + data.len) rest

def ceSize (pos : Nat) : Nat := if pos % blockSize = 0 then blockSize else pos % blockSize

/-- The loop of susp_update_CE_sizes(). If it ends by 0 then the last CE keeps its 2048. -/
def suspUpdateCeSizes : Nat → List Field → List Nat
  | currPos, [] => [if currPos > 0 then currPos % blockSize else blockSize]
  | _, .pad :: rest => suspUpdateCeSizes 0 rest
  | currPos, data :: rest =>
    let sizes := suspUpdateCeSizes ((currPos + data.len) % blockSize) rest
    if data.isCe then ceSize (currPos + data.len) :: sizes else sizes

def appendAll (info : SuspInfo) (entries : List Plain) : SuspInfo :=
  entries.foldl (fun info data => suspAppendCe info data.field) info

/-- What gets appended from a position on. -/
def added : Nat → List Plain → List Field
  | _, [] => []
  | pos, data :: rest =>
    if 2020 < pos % 2048 + data.field.len then
      .other .ce 28 :: ((if pos % 2048 = 2020 then [] else [.pad]) ++
        data.field :: added ((pos / 2048 + 1) * 2048 + data.field.len) rest)
    else data.field :: added (pos + data.field.len) rest

variable {pos len currPos offset c : Nat} {data : Plain} {fields : List Field}
  {entries : List Plain} {info : SuspInfo}

/-- Behind an entry there is always room for a CE. -/
theorem appendAll_eq (hroom : info.ceLen % 2048 ≤ 2020) :
    (appendAll info entries).ceSuspFields = info.ceSuspFields ++ added info.ceLen entries ∧
      (appendAll info entries).ceLen % 2048 ≤ 2020 := by
  induction entries generalizing info with
  | nil => exact ⟨(List.append_nil _).symm, hroom⟩
  | cons data rest ih =>
    have hle := data.le
    have hleave : (info.ceLen + data.field.len + 28 - 1) / 2048 ≠ info.ceLen / 2048 ↔
        2020 < info.ceLen % 2048 + data.field.len := by omega
    have hround : (info.ceLen + 28 + 2048 - 1) / 2048 = info.ceLen / 2048 + 1 := by omega
    have hexact : (info.ceLen + 28) % 2048 = 0 ↔ info.ceLen % 2048 = 2020 := by omega
    have happend : suspAppendCe info data.field = if 2020 < info.ceLen % 2048 + data.field.len then
        { info with
          ceSuspFields := info.ceSuspFields ++ .other .ce 28 ::
            ((if info.ceLen % 2048 = 2020 then [] else [.pad]) ++ [data.field])
          ceLen := (info.ceLen / 2048 + 1) * 2048 + data.field.len }
        else { info with
          ceSuspFields := info.ceSuspFields ++ [data.field]
          ceLen := info.ceLen + data.field.len } := by
      simp only [suspAppendCe, hopBlock, roundUp, blockSize, ceEntrySize, hleave, hround, hexact]
      split <;> simp
    obtain ⟨hfields, hlen⟩ := @ih (suspAppendCe info data.field)
      (by rw [happend]; split <;> dsimp only <;> omega)
    refine ⟨hfields.trans ?_, hlen⟩
    rw [happend, added]
    split <;> simp

/-- susp_calc_add_to_ce() predicts the growth. -/
theorem appendAll_ceLen (base ce : Nat) (hce : info.ceLen = base + ce) :
    (appendAll info entries).ceLen =
      base + entries.foldl (fun ce data => suspCalcAddToCe ce base data.field.len) ce := by
  induction entries generalizing info ce with
  | nil => exact hce
  | cons data rest ih =>
    refine ih _ ?_
    simp only [suspAppendCe, hopBlock, suspCalcAddToCe, roundUp, blockSize, ceEntrySize,
      Nat.add_comm ce base, hce]
    split
    · dsimp only
      omega
    · omega

theorem areas_stay : areas len (data.field :: fields) = areas (len + data.field.len) fields :=
  if_neg (by simp [data.notCe])

theorem areas_hop (p : Prop) [Decidable p] :
    areas len (.other .ce 28 :: ((if p then [] else [.pad]) ++ data.field :: fields)) =
      (len + 28) :: areas data.field.len fields := by
  rw [← Nat.zero_add data.field.len, ← areas_stay]
  split <;> rfl

theorem update_stay : suspUpdateCeSizes currPos (data.field :: fields) =
    suspUpdateCeSizes ((currPos + data.field.len) % 2048) fields := by
  simp [suspUpdateCeSizes, data.notPad, data.notCe, blockSize]

theorem update_hop (p : Prop) [Decidable p] :
    suspUpdateCeSizes currPos
        (.other .ce 28 :: ((if p then [] else [.pad]) ++ data.field :: fields)) =
      ceSize (currPos + 28) :: suspUpdateCeSizes
        (((if p then (currPos + 28) % 2048 else 0) + data.field.len) % 2048) fields := by
  split <;> exact congrArg (_ :: ·) update_stay

/-- Each area ends in the block of its begin. -/
theorem areas_le (hlen : len = pos % 2048) (hroom : len ≤ 2020) :
    ∀ n ∈ areas len (added pos entries), n ≤ 2048 := by
  induction entries generalizing pos len with
  | nil =>
    simp only [added, areas, List.mem_singleton]
    omega
  | cons data rest ih =>
    have hle := data.le
    rw [added]
    split
    · rw [areas_hop, List.forall_mem_cons]
      exact ⟨by omega, ih (by omega) (by omega)⟩
    · rw [areas_stay]
      exact ih (by omega) (by omega)

/-- The count gets wrong by a hop without padding in an area which does not begin at a block
border. It gets right by a hop with padding only. -/
theorem update_iff (hpos : pos % 2048 = offset + len) (hroom : offset + len ≤ 2020)
    (hc : c < 2048) (hcurr : currPos = (c + len) % 2048) (hne : 0 < len ∨ entries ≠ []) :
    suspUpdateCeSizes currPos (added pos entries) = areas len (added pos entries) ↔
      c = 0 ∧ ¬ (offset ≠ 0 ∧ ∃ k < entries.length,
        offset + len + ((entries.take k).map (·.field.len)).sum + 28 = 2048) := by
  induction entries generalizing pos len currPos offset c with
  | nil =>
    have hlen := hne.resolve_right (not_not.mpr rfl)
    simp only [added, areas, suspUpdateCeSizes, blockSize, List.cons.injEq, and_true,
      List.length_nil, Nat.not_lt_zero, false_and, exists_false, and_false, not_false_eq_true]
    split <;> omega
  | cons data rest ih =>
    have hle := data.le
    have hmore := data.pos
    rw [added, List.length_cons, Nat.exists_lt_succ_left]
    simp only [List.take_zero, List.map_nil, List.sum_nil, List.take_succ_cons, List.map_cons,
      List.sum_cons]
    split
    next hhop =>
      have hsize : ceSize (currPos + 28) = len + 28 ↔ c = 0 := by
        rw [ceSize, blockSize]
        split <;> omega
      rw [areas_hop, update_hop, List.cons_eq_cons, hsize,
        or_iff_left fun ⟨_, _, h⟩ => by omega]
      refine and_congr_right fun hzero => ?_
      have htail := @ih ((pos / 2048 + 1) * 2048 + data.field.len) data.field.len _ 0
        (if pos % 2048 = 2020 then (currPos + 28) % 2048 else 0) (by omega)
        (by omega) (by split <;> omega) rfl (.inl hmore)
      rw [htail, and_iff_left fun h => h.1 rfl]
      split <;> omega
    next hstay =>
      rw [areas_stay, update_stay,
        @ih _ _ _ offset _ (by omega) (by omega) hc (by omega) (.inl (by omega)),
        or_iff_right (by omega)]
      simp only [Nat.add_assoc]

/-- The begin of the entries of a node, and what is there of them. -/
def ceStart (before : List Plain) : Nat := (appendAll (.fresh 0) before).ceLen

def nodeFields (before entries : List Plain) : List Field :=
  (appendAll (.fresh (ceStart before)) entries).ceSuspFields

theorem nodeFields_eq (before entries : List Plain) :
    nodeFields before entries = added (ceStart before) entries ∧ ceStart before % 2048 ≤ 2020 := by
  have hroom := (@appendAll_eq before (.fresh 0) (by decide)).2
  exact ⟨(@appendAll_eq _ (.fresh (ceStart before)) hroom).1, hroom⟩

/-- The areas of each node respect the block borders, and their total size is as predicted. -/
theorem areas_within_blocks (before entries : List Plain) :
    (∀ n ∈ areas (ceStart before % 2048) (nodeFields before entries), n ≤ 2048) ∧
      ceStart (before ++ entries) = ceStart before +
        entries.foldl (fun ce data => suspCalcAddToCe ce (ceStart before) data.field.len) 0 := by
  obtain ⟨hfields, hroom⟩ := nodeFields_eq before entries
  rw [hfields]
  refine ⟨areas_le rfl hroom, ?_⟩
  rw [ceStart, appendAll, List.foldl_append]
  exact appendAll_ceLen _ 0 rfl

/-- The CE entries tell the lengths of the areas, unless those begin inside of a block which
the entries fill up to the CE at its end. -/
theorem ce_sizes_right_iff (before : List Plain) (data : Plain) (rest : List Plain) :
    suspUpdateCeSizes 0 (nodeFields before (data :: rest)) =
        areas 0 (nodeFields before (data :: rest)) ↔
      ¬ (ceStart before % 2048 ≠ 0 ∧ ∃ k < (data :: rest).length, ceStart before % 2048 +
        (((data :: rest).take k).map (·.field.len)).sum + 28 = 2048) := by
  obtain ⟨hfields, hroom⟩ := nodeFields_eq before (data :: rest)
  rw [hfields]
  exact (@update_iff _ 0 _ _ _ _ rfl hroom (by decide) rfl (.inr (List.cons_ne_nil _ _))).trans
    (and_iff_right rfl)

/-- An AL entry of the given length. -/
def alEntry (lenSue : Nat) (hpos : 0 < lenSue) (hle : lenSue ≤ 255) : Plain where
  field := .other .al lenSue
  notPad := Field.noConfusion
  notCe := rfl
  pos := hpos
  le := hle

def shortEntry : Plain := alEntry 20 (by decide) (by decide)

def longEntry : Plain := alEntry 250 (by decide) (by decide)

/-- Twenty entries behind one of 20 bytes need areas in three blocks. The first one gets
filled up to its end. -/
theorem twenty_areas :
    areas 20 (nodeFields [shortEntry] (List.replicate 20 longEntry)) = [2048, 2028, 1000] ∧
      ∀ n ∈ areas (ceStart [shortEntry] % 2048)
        (nodeFields [shortEntry] (List.replicate 20 longEntry)), n ≤ 2048 :=
  ⟨by decide +kernel, (areas_within_blocks _ _).1⟩

/-- The sizes of these areas get recorded wrong, and right if nothing is in front of them. -/
theorem twenty_sizes :
    suspUpdateCeSizes 0 (nodeFields [shortEntry] (longEntry :: List.replicate 19 longEntry)) ≠
      areas 0 (nodeFields [shortEntry] (longEntry :: List.replicate 19 longEntry)) ∧
    suspUpdateCeSizes 0 (nodeFields [] (longEntry :: List.replicate 19 longEntry)) =
      areas 0 (nodeFields [] (longEntry :: List.replicate 19 longEntry)) :=
  ⟨fun heq => (ce_sizes_right_iff _ _ _).mp heq
      ⟨by decide, 8, by decide, by decide⟩,
    (ce_sizes_right_iff _ _ _).mpr fun h => h.1 (by decide)⟩

end NameEntries
