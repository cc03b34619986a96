import Libisofs.ElTorito

/-!
# Bounds of the El Torito catalog

read_el_torito_boot_catalog() counts the boot images which it finds. It does not count the bytes
of its buffer. Section headers without entries, or many sections, lead it beyond the 2048 bytes.
-/

namespace CatalogBounds

open ByteBuffers ElTorito

/-- `size` bytes get read from `offset` on. -/
structure Access where
  offset : Nat
  size : Nat

def Inside (a : Access) : Prop := a.offset + a.size ≤ blockSize

/-! ## The parser with its accesses to the buffer -/

/-- As readSection. -/
def readSection (buf : Buffer) (sh : Nat) : (entries rx : Nat) → ImageFsData →
    (Nat × ImageFsData × Bool) × List Access
  | 0, rx, data => ((rx, data, false), [])
  | entries + 1, rx, data =>
    let rx := rx + 32
    let data := { data with catsize := data.catsize + 32 }
    if maxBootImages ≤ data.bootimgs.length then ((rx, data, true), [])
    else
      let (result, accesses) := readSection buf sh entries rx
        { data with bootimgs := data.bootimgs ++ [readSectionEntry buf sh rx] }
      (result, ⟨rx, 32⟩ :: accesses)

/-- As readSections. The header indicator gets read before it is known whether the last section
has been done. -/
def readSections (buf : Buffer) : (turns rx : Nat) → (lastDone : Bool) → ImageFsData →
    Option (ImageFsData × List Access)
  | 0, _, _, _ => none
  | turns + 1, rx, lastDone, data =>
    if buf rx &&& 0xfe = 0x90 ∧ lastDone = false then
      let sh := rx
      let data := { data with catsize := data.catsize + 32 }
      match readSection buf sh (buf (sh + 2)).toNat rx data with
      | ((_, data, true), accesses) => some (data, ⟨sh, 1⟩ :: ⟨sh, 32⟩ :: accesses)
      | ((rx, data, false), accesses) =>
        (readSections buf turns (rx + 32) (buf sh &&& 1 = 1) data).map fun r =>
          (r.1, ⟨sh, 1⟩ :: ⟨sh, 32⟩ :: accesses ++ r.2)
    else some (data, [⟨rx, 1⟩])

def Valid (buf : Buffer) : Prop := buf 0 = 1 ∧ buf 30 = 0x55 ∧ buf 31 = 0xAA

instance (buf : Buffer) : Decidable (Valid buf) := inferInstanceAs (Decidable (_ ∧ _))

/-- The parsing of a block which has been loaded: the data, unless the Validation Entry is
refused, and the accesses. -/
def parseCatalog (buf : Buffer) (turns : Nat) : Option (Option ImageFsData × List Access) :=
  if Valid buf then
    (readSections buf turns 64 false ⟨[readDefaultEntry buf], 64, []⟩).map fun r =>
      (some r.1, ⟨0, 32⟩ :: ⟨32, 32⟩ :: r.2)
  else some (none, [⟨0, 32⟩])

/-! ## What is in the block -/

def numEntries (buf : Buffer) (pos : Nat) : Nat := (buf (pos + 2)).toNat

/-- The positions of sections, of which all but the last one have the header indicator which says
that more follow, and the numbers of boot images before them. -/
inductive HeaderAt (buf : Buffer) : (pos images : Nat) → Prop
  | first : HeaderAt buf 64 1
  | next {pos images : Nat} : HeaderAt buf pos images → buf pos = 0x90 →
      images + numEntries buf pos ≤ maxBootImages →
        HeaderAt buf (pos + 32 * (numEntries buf pos + 1)) (images + numEntries buf pos)

/-- A section ends before the end of the block, so that there is one more byte for the next header
indicator. If it has too many entries, then those up to the limit are in the block. -/
structure SectionFits (buf : Buffer) (pos images : Nat) : Prop where
  begins : pos < blockSize
  few : buf pos = 0x90 ∨ buf pos = 0x91 → images + numEntries buf pos ≤ maxBootImages →
    pos + 32 * (numEntries buf pos + 1) < blockSize
  many : buf pos = 0x90 ∨ buf pos = 0x91 → maxBootImages < images + numEntries buf pos →
    pos + 32 * (maxBootImages - images + 1) ≤ blockSize

def SectionsFit (buf : Buffer) : Prop :=
  ∀ pos images, HeaderAt buf pos images → SectionFits buf pos images

/-- The parser ends, reads only inside of the block, and fills at most 32 rows. -/
def ParsesInside (buf : Buffer) : Prop :=
  ∃ turns data accesses, parseCatalog buf turns = some (data, accesses) ∧
    (∀ a ∈ accesses, Inside a) ∧ ∀ d, data = some d → d.bootimgs.length ≤ maxBootImages

section Sections

variable {buf : Buffer} {sh entries rx turns : Nat} {data : ImageFsData}

/-- The places of the entries which get read. -/
def entryAccesses (rx n : Nat) : List Access := (List.range n).map fun i => ⟨rx + 32 * (i + 1), 32⟩

theorem entryAccesses_succ (rx n : Nat) :
    entryAccesses rx (n + 1) = ⟨rx + 32, 32⟩ :: entryAccesses (rx + 32) n := by
  rw [entryAccesses, List.range_succ_eq_map, List.map_cons, List.map_map, entryAccesses]
  refine congrArg (_ :: ·) (List.map_congr_left fun i _ => ?_)
  simp only [Function.comp_apply, Access.mk.injEq, and_true]
  omega

theorem readSection_few (h : data.bootimgs.length + entries ≤ maxBootImages) :
    ∃ data', readSection buf sh entries rx data =
        ((rx + 32 * entries, data', false), entryAccesses rx entries) ∧
      data'.bootimgs.length = data.bootimgs.length + entries := by
  induction entries generalizing rx data with
  | zero => exact ⟨data, rfl, rfl⟩
  | succ entries ih =>
    rw [readSection]
    dsimp only
    rw [if_neg (by omega)]
    obtain ⟨data', hrun, hlength⟩ := @ih (rx + 32)
      { data with
        catsize := data.catsize + 32
        bootimgs := data.bootimgs ++ [readSectionEntry buf sh (rx + 32)] }
      (by rw [List.length_append, List.length_singleton]; omega)
    refine ⟨data', ?_, ?_⟩
    · rw [hrun, entryAccesses_succ, show rx + 32 + 32 * entries = rx + 32 * (entries + 1) by omega]
    · rw [hlength, List.length_append, List.length_singleton]
      omega

theorem readSection_many (hroom : data.bootimgs.length ≤ maxBootImages)
    (h : maxBootImages < data.bootimgs.length + entries) :
    ∃ rx' data', readSection buf sh entries rx data =
        ((rx', data', true), entryAccesses rx (maxBootImages - data.bootimgs.length)) ∧
      data'.bootimgs.length = maxBootImages := by
  induction entries generalizing rx data with
  | zero => omega
  | succ entries ih =>
    rw [readSection]
    dsimp only
    by_cases hfull : maxBootImages ≤ data.bootimgs.length
    · rw [if_pos hfull, show maxBootImages - data.bootimgs.length = 0 by omega]
      exact ⟨_, _, rfl, Nat.le_antisymm hroom hfull⟩
    · rw [if_neg hfull]
      obtain ⟨rx', data', hrun, hlength⟩ := @ih (rx + 32)
        { data with
          catsize := data.catsize + 32
          bootimgs := data.bootimgs ++ [readSectionEntry buf sh (rx + 32)] }
        (by rw [List.length_append, List.length_singleton]; omega)
        (by rw [List.length_append, List.length_singleton]; omega)
      refine ⟨rx', data', ?_, hlength⟩
      rw [hrun, List.length_append, List.length_singleton,
        show maxBootImages - data.bootimgs.length =
          maxBootImages - (data.bootimgs.length + 1) + 1 by omega, entryAccesses_succ]

end Sections

section Headers

variable {buf : Buffer} {turns pos images : Nat} {data : ImageFsData}

theorem headerIndicator_iff (b : UInt8) : b &&& 0xfe = 0x90 ↔ b = 0x90 ∨ b = 0x91 := by
  have hall : ∀ n < 256, UInt8.ofNat n &&& 0xfe = 0x90 ↔
      UInt8.ofNat n = 0x90 ∨ UInt8.ofNat n = 0x91 := by decide +kernel
  have hb := hall b.toNat b.toNat_lt
  rwa [UInt8.ofNat_toNat] at hb

theorem readSections_end {lastDone : Bool}
    (h : ¬ (buf pos &&& 0xfe = 0x90 ∧ lastDone = false)) :
    readSections buf (turns + 1) pos lastDone data = some (data, [⟨pos, 1⟩]) := by
  rw [readSections, if_neg h]

/-- A section with too many entries ends the parsing. -/
theorem readSections_many (hheader : buf pos = 0x90 ∨ buf pos = 0x91)
    (hroom : data.bootimgs.length ≤ maxBootImages)
    (h : maxBootImages < data.bootimgs.length + numEntries buf pos) :
    ∃ data', readSections buf (turns + 1) pos false data =
        some (data', ⟨pos, 1⟩ :: ⟨pos, 32⟩ ::
          entryAccesses pos (maxBootImages - data.bootimgs.length)) ∧
      data'.bootimgs.length = maxBootImages := by
  obtain ⟨rx', data', hrun, hlength⟩ := @readSection_many buf pos (numEntries buf pos) pos
    { data with catsize := data.catsize + 32 } hroom h
  rw [readSections, if_pos ⟨(headerIndicator_iff _).mpr hheader, rfl⟩]
  dsimp only
  rw [numEntries] at hrun
  rw [hrun]
  exact ⟨data', rfl, hlength⟩

/-- After other sections the next one is looked for. -/
theorem readSections_few (hheader : buf pos = 0x90 ∨ buf pos = 0x91)
    (h : data.bootimgs.length + numEntries buf pos ≤ maxBootImages) :
    ∃ data', readSections buf (turns + 1) pos false data =
        (readSections buf turns (pos + 32 * (numEntries buf pos + 1)) (buf pos &&& 1 = 1)
          data').map (fun r => (r.1,
            ⟨pos, 1⟩ :: ⟨pos, 32⟩ :: entryAccesses pos (numEntries buf pos) ++ r.2)) ∧
      data'.bootimgs.length = data.bootimgs.length + numEntries buf pos := by
  obtain ⟨data', hrun, hlength⟩ := @readSection_few buf pos (numEntries buf pos) pos
    { data with catsize := data.catsize + 32 } h
  rw [readSections, if_pos ⟨(headerIndicator_iff _).mpr hheader, rfl⟩]
  dsimp only
  rw [numEntries] at hrun
  rw [hrun]
  refine ⟨data', ?_, hlength⟩
  dsimp only
  rw [Nat.mul_succ, ← Nat.add_assoc]
  rfl

theorem inside_entryAccesses {n : Nat} :
    (∀ a ∈ entryAccesses pos n, Inside a) ↔ n = 0 ∨ pos + 32 * (n + 1) ≤ blockSize := by
  simp only [entryAccesses, List.forall_mem_map, List.mem_range]
  cases n with
  | zero => simp
  | succ n =>
    constructor
    · intro h
      have hlast := h n (Nat.lt_succ_self n)
      rw [Inside] at hlast
      dsimp only at hlast
      omega
    · intro h i hi
      rw [Inside]
      dsimp only
      omega

end Headers

section Safety

variable {buf : Buffer} {turns pos images : Nat} {data : ImageFsData}

/-- Sections which fit get read inside of the block. -/
theorem readSections_inside (hfit : SectionsFit buf) (hat : HeaderAt buf pos images)
    (himages : data.bootimgs.length = images) (hmax : images ≤ maxBootImages)
    (hturns : blockSize - pos < 32 * turns) :
    ∃ data' accesses, readSections buf (turns + 1) pos false data = some (data', accesses) ∧
      (∀ a ∈ accesses, Inside a) ∧ data'.bootimgs.length ≤ maxBootImages := by
  induction turns generalizing pos images data with
  | zero => omega
  | succ turns ih =>
    obtain ⟨hbegins, hfew, hmany⟩ := hfit pos images hat
    have hfirst : Inside ⟨pos, 1⟩ := hbegins
    by_cases hheader : buf pos = 0x90 ∨ buf pos = 0x91
    · by_cases hroom : images + numEntries buf pos ≤ maxBootImages
      · have hnext := hfew hheader hroom
        have hhead : ∀ a ∈ ⟨pos, 1⟩ :: ⟨pos, 32⟩ :: entryAccesses pos (numEntries buf pos),
            Inside a := by
          have hwhole : Inside ⟨pos, 32⟩ := by
            rw [Inside]
            dsimp only
            omega
          exact List.forall_mem_cons.mpr ⟨hfirst, List.forall_mem_cons.mpr ⟨hwhole,
            inside_entryAccesses.mpr (Or.inr (Nat.le_of_lt hnext))⟩⟩
        obtain ⟨data', hrun, hlength⟩ := @readSections_few buf (turns + 1) pos data hheader
          (by rw [himages]; exact hroom)
        obtain ⟨data'', accesses, hrest, hinside, hrows⟩ : ∃ data'' accesses,
            readSections buf (turns + 1) (pos + 32 * (numEntries buf pos + 1))
              (buf pos &&& 1 = 1) data' = some (data'', accesses) ∧
            (∀ a ∈ accesses, Inside a) ∧ data''.bootimgs.length ≤ maxBootImages := by
          rcases hheader with hmore | hlast
          · have hflag : decide (buf pos &&& 1 = 1) = false := by
              rw [hmore]
              rfl
            rw [hflag]
            exact ih (hat.next hmore hroom) (by rw [hlength, himages]) hroom (by omega)
          · have hflag : decide (buf pos &&& 1 = 1) = true := by
              rw [hlast]
              rfl
            rw [hflag, readSections_end fun h => Bool.noConfusion h.2]
            exact ⟨data', _, rfl, by rwa [List.forall_mem_singleton], by omega⟩
        refine ⟨data'', _, by rw [hrun, hrest]; rfl, fun a ha => ?_, hrows⟩
        rcases List.mem_append.mp ha with ha | ha
        · exact hhead a ha
        · exact hinside a ha
      · have hroom' := Nat.not_le.mp hroom
        have hend := hmany hheader hroom'
        obtain ⟨data', hrun, hlength⟩ := @readSections_many buf (turns + 1) pos data hheader
          (by omega) (by omega)
        refine ⟨data', _, hrun, ?_, hlength.le⟩
        rw [himages]
        have hwhole : Inside ⟨pos, 32⟩ := by
          rw [Inside]
          dsimp only
          omega
        exact List.forall_mem_cons.mpr ⟨hfirst, List.forall_mem_cons.mpr ⟨hwhole,
          inside_entryAccesses.mpr (Or.inr hend)⟩⟩
    · rw [readSections_end fun h => hheader ((headerIndicator_iff _).mp h.1)]
      exact ⟨data, _, rfl, by rwa [List.forall_mem_singleton], by omega⟩

/-- Each turn reads the header indicator. -/
theorem readSections_indicator {lastDone : Bool} {result : ImageFsData} {accesses : List Access}
    (h : readSections buf turns pos lastDone data = some (result, accesses)) :
    ⟨pos, 1⟩ ∈ accesses := by
  cases turns with
  | zero => cases h
  | succ turns =>
    rw [readSections] at h
    split at h
    next =>
      dsimp only at h
      split at h
      next =>
        obtain ⟨rfl, rfl⟩ := Prod.mk.inj (Option.some.inj h)
        exact List.mem_cons_self
      next =>
        obtain ⟨r, -, hr⟩ := Option.map_eq_some_iff.mp h
        obtain ⟨rfl, rfl⟩ := Prod.mk.inj hr
        exact List.mem_cons_self
    next =>
      obtain ⟨rfl, rfl⟩ := Prod.mk.inj (Option.some.inj h)
      exact List.mem_cons_self

/-- The section gets looked for in a run with these accesses. -/
def Visited (buf : Buffer) (accesses : List Access) (pos images : Nat) : Prop :=
  images ≤ maxBootImages ∧ ∃ turns data result rest,
    readSections buf turns pos false data = some (result, rest) ∧
      data.bootimgs.length = images ∧ ∀ a ∈ rest, a ∈ accesses

theorem Visited.fits {accesses : List Access} (h : Visited buf accesses pos images)
    (hinside : ∀ a ∈ accesses, Inside a) :
    SectionFits buf pos images ∧ (buf pos = 0x90 → images + numEntries buf pos ≤ maxBootImages →
      Visited buf accesses (pos + 32 * (numEntries buf pos + 1))
        (images + numEntries buf pos)) := by
  obtain ⟨hmax, turns, data, result, rest, hrun, himages, hsub⟩ := h
  have hfirst : Inside ⟨pos, 1⟩ := hinside _ (hsub _ (readSections_indicator hrun))
  cases turns with
  | zero => cases hrun
  | succ turns =>
    by_cases hheader : buf pos = 0x90 ∨ buf pos = 0x91
    · by_cases hroom : images + numEntries buf pos ≤ maxBootImages
      · obtain ⟨data', hstep, hlength⟩ := @readSections_few buf turns pos data hheader
          (by rw [himages]; exact hroom)
        rw [hstep] at hrun
        obtain ⟨r, hnext, hr⟩ := Option.map_eq_some_iff.mp hrun
        obtain ⟨rfl, rfl⟩ := Prod.mk.inj hr
        have hlater : ∀ a ∈ r.2, a ∈ accesses := fun a ha =>
          hsub a (List.mem_append_right _ ha)
        have hafter : Inside ⟨pos + 32 * (numEntries buf pos + 1), 1⟩ :=
          hinside _ (hlater _ (readSections_indicator hnext))
        refine ⟨⟨hfirst, fun _ _ => hafter, fun _ h => absurd hroom (by omega)⟩, fun hmore _ => ?_⟩
        have hflag : decide (buf pos &&& 1 = 1) = false := by
          rw [hmore]
          rfl
        rw [hflag] at hnext
        exact ⟨hroom, turns, data', r.1, r.2, hnext, by rw [hlength, himages], hlater⟩
      · obtain ⟨data', hrun', -⟩ := @readSections_many buf turns pos data hheader
          (by omega) (by omega)
        obtain ⟨-, rfl⟩ := Prod.mk.inj (Option.some.inj (hrun.symm.trans hrun'))
        have hall : ∀ a ∈ entryAccesses pos (maxBootImages - data.bootimgs.length), Inside a :=
          fun a ha => hinside a (hsub a (List.mem_cons_of_mem _ (List.mem_cons_of_mem _ ha)))
        have hwhole : Inside ⟨pos, 32⟩ :=
          hinside _ (hsub _ (List.mem_cons_of_mem _ List.mem_cons_self))
        rw [Inside] at hwhole
        dsimp only at hwhole
        refine ⟨⟨hfirst, fun _ h => absurd h hroom, fun _ _ => ?_⟩, fun _ h => absurd h hroom⟩
        rw [himages] at hall
        rcases inside_entryAccesses.mp hall with hnone | hend
        · rw [hnone]
          omega
        · exact hend
    · exact ⟨⟨hfirst, fun h => absurd h hheader, fun h => absurd h hheader⟩,
        fun h => absurd (Or.inl h) hheader⟩

theorem sectionsFit_of_parsesInside (hvalid : Valid buf) (h : ParsesInside buf) :
    SectionsFit buf := by
  obtain ⟨turns, data, accesses, hparse, hinside, -⟩ := h
  rw [parseCatalog, if_pos hvalid] at hparse
  obtain ⟨r, hrun, hr⟩ := Option.map_eq_some_iff.mp hparse
  obtain ⟨-, rfl⟩ := Prod.mk.inj hr
  have hfirst : Visited buf (⟨0, 32⟩ :: ⟨32, 32⟩ :: r.2) 64 1 :=
    ⟨by decide, turns, _, r.1, r.2, hrun, rfl,
      fun a ha => List.mem_cons_of_mem _ (List.mem_cons_of_mem _ ha)⟩
  intro pos images hat
  suffices hvisited : Visited buf (⟨0, 32⟩ :: ⟨32, 32⟩ :: r.2) pos images from
    (hvisited.fits hinside).1
  induction hat with
  | first => exact hfirst
  | next _ hmore hroom ih => exact (ih.fits hinside).2 hmore hroom

/-- The catalog gets parsed inside of its block if and only if it is no catalog at all, or its
sections end before the end of the block. -/
theorem parsesInside_iff (buf : Buffer) : ParsesInside buf ↔ (Valid buf → SectionsFit buf) := by
  constructor
  · exact fun h hvalid => sectionsFit_of_parsesInside hvalid h
  · intro hfit
    have hentries : Inside ⟨0, 32⟩ ∧ Inside ⟨32, 32⟩ :=
      ⟨show 0 + 32 ≤ 2048 by decide, show 32 + 32 ≤ 2048 by decide⟩
    by_cases hvalid : Valid buf
    · obtain ⟨data, accesses, hrun, hinside, hrows⟩ := @readSections_inside buf 63 64 1
        ⟨[readDefaultEntry buf], 64, []⟩ (hfit hvalid) .first rfl (by decide) (by decide)
      refine ⟨64, some data, ⟨0, 32⟩ :: ⟨32, 32⟩ :: accesses, ?_, ?_, ?_⟩
      · rw [parseCatalog, if_pos hvalid, hrun]
        rfl
      · exact List.forall_mem_cons.mpr ⟨hentries.1, List.forall_mem_cons.mpr ⟨hentries.2, hinside⟩⟩
      · intro d hd
        rw [← Option.some.inj hd]
        exact hrows
    · refine ⟨0, none, [⟨0, 32⟩], ?_, ?_, fun d hd => nomatch hd⟩
      · rw [parseCatalog, if_neg hvalid]
      · exact List.forall_mem_singleton.mpr hentries.1

/-- A catalog full of section headers without entries. -/
def headersOnly : Buffer := fun i =>
  if i = 0 then 1
  else if i = 30 then 0x55
  else if i = 31 then 0xAA
  else if 64 ≤ i ∧ i % 32 = 0 then 0x90
  else 0

theorem headersOnly_outside : ¬ ParsesInside headersOnly := by
  intro h
  have hat (k : Nat) : HeaderAt headersOnly (64 + 32 * k) 1 := by
    induction k with
    | zero => exact .first
    | succ k ih =>
      have hindicator : headersOnly (64 + 32 * k) = 0x90 := by
        simp only [headersOnly]
        rw [if_neg (by omega), if_neg (by omega), if_neg (by omega), if_pos (by omega)]
      have hnone : numEntries headersOnly (64 + 32 * k) = 0 := by
        simp only [numEntries, headersOnly]
        rw [if_neg (by omega), if_neg (by omega), if_neg (by omega), if_neg (by omega)]
        rfl
      have hnext := ih.next hindicator (by rw [hnone]; decide)
      rwa [hnone] at hnext
  have hfits := sectionsFit_of_parsesInside ⟨rfl, rfl, rfl⟩ h _ _ (hat 62)
  exact absurd hfits.begins (by decide)

end Safety

end CatalogBounds
