import Libisofs.NameEntries

/-!
# Names which survive the NM entries

The entries other than NM do not matter to the reader of names. So the round trip is
decided by the place of the name: it is whole in the System Use Area, or it is divided
into two parts of which each needs at least one byte and at most 250 bytes.
-/

namespace NameEntries

open SymlinkTarget (Bytes cString turns compLen Turn)

theorem nmEntries_append_other {data : Field} (hdata : data.nm? = none) (toCe : Bool)
    (info : SuspInfo) : (append toCe info data).nmEntries = info.nmEntries := by
  cases toCe with
  | false => simp [append, suspAppend, SuspInfo.nmEntries, hdata]
  | true =>
    simp only [append, suspAppendCe, hopBlock, SuspInfo.nmEntries, if_true]
    split
    · split <;> simp [hdata]
    · simp [hdata]

theorem nmEntries_foldl_append {fields : List Field} (hfields : ∀ f ∈ fields, f.nm? = none)
    (toCe : Bool) (info : SuspInfo) :
    (fields.foldl (append toCe) info).nmEntries = info.nmEntries := by
  induction fields generalizing info with
  | nil => rfl
  | cons f fields ih =>
    have hrest := ih (fun g hg => hfields g (List.mem_cons_of_mem _ hg)) (append toCe info f)
    have hf := nmEntries_append_other (hfields f List.mem_cons_self) toCe info
    exact hrest.trans hf

theorem addSl_nmEntries (node : Node) (nmInCe : Option Nat) (budget : Budget)
    (info : SuspInfo) : (addSl node nmInCe budget info).2.1.nmEntries = info.nmEntries := by
  unfold addSl
  split
  · split
    · rfl
    · apply nmEntries_foldl_append
      intro f hf
      obtain ⟨entry, -, rfl⟩ := List.mem_map.mp hf
      rfl
  · rfl

theorem addZfField_nmEntries (node : Node) (ceMem : Nat) (budget : Budget)
    (info : SuspInfo) :
    (addZfField node ceMem budget info).2.1.nmEntries = info.nmEntries := by
  unfold addZfField
  split
  · dsimp only
    split
    · rfl
    · exact nmEntries_append_other rfl _ _
  · rfl

theorem nm?_of_mem_alFields {opts : WriteOpts} {node : Node} {f : Field}
    (hf : f ∈ alFields opts node) : f.nm? = none := by
  rcases List.mem_append.mp hf with h | h
  · split at h
    · cases h
    · rw [List.mem_singleton.mp h]
      rfl
  · obtain ⟨size, -, rfl⟩ := List.mem_map.mp h
    rfl

theorem addAaString_nmEntries (opts : WriteOpts) (node : Node) (ceMem : Nat)
    (budget : Budget) (info : SuspInfo) :
    (addAaString opts node ceMem budget info).nmEntries = info.nmEntries := by
  unfold addAaString
  split
  · exact nmEntries_foldl_append (fun f hf => nm?_of_mem_alFields hf) _ _
  · rfl

/-- Nothing behind the name is taken for a name. -/
theorem addTail_nmEntries (opts : WriteOpts) (node : Node) (ceMem : Nat)
    (nmInCe : Option Nat) (budget : Budget) (info : SuspInfo) :
    (addTail opts node ceMem nmInCe budget info).1.nmEntries = info.nmEntries := by
  have hsl := addSl_nmEntries node nmInCe budget info
  unfold addTail
  split
  next heq =>
    rw [heq] at hsl
    exact hsl
  next budget' info' heq =>
    rw [heq] at hsl
    have hzf := addZfField_nmEntries node ceMem budget' info'
    split
    next heq' =>
      rw [heq'] at hzf
      exact hzf.trans hsl
    next heq' =>
      rw [heq'] at hzf
      rw [addAaString_nmEntries]
      exact hzf.trans hsl

/-- Bytes of the System Use Area which are taken before the name. -/
def headLen (opts : WriteOpts) (node : Node) : Nat :=
  ((headFields opts node).map Field.len).sum

theorem typeFields_other {opts : WriteOpts} {type : NodeType} {f : Field}
    (hf : f ∈ typeFields opts type) : f.nm? = none := by
  cases type with
  | file zf => cases hf
  | symlink dest => cases hf
  | dir realParent dedicated | special device =>
    rw [typeFields] at hf
    split at hf
    · rw [List.mem_singleton.mp hf]
      rfl
    · cases hf
  | placeholder =>
    rw [List.mem_singleton.mp hf]
    rfl

theorem headFields_other {opts : WriteOpts} {node : Node} {f : Field}
    (hf : f ∈ headFields opts node) : f.nm? = none := by
  rcases List.mem_append.mp hf with h | h
  · rcases List.mem_append.mp h with h | h
    · split at h
      · rw [List.mem_singleton.mp h]
        rfl
      · cases h
    · rcases List.mem_pair.mp h with rfl | rfl <;> rfl
  · exact typeFields_other h

theorem typeFields_len_le (opts : WriteOpts) (type : NodeType) :
    ((typeFields opts type).map Field.len).sum ≤ 20 := by
  cases type with
  | file zf => simp [typeFields]
  | symlink dest => simp [typeFields]
  | dir realParent dedicated =>
    rw [typeFields]
    split <;> simp [Field.len]
  | special device =>
    rw [typeFields]
    split <;> simp [Field.len]
  | placeholder => simp [typeFields, Field.len]

/-- ISO_ROCKRIDGE_IN_DIR_REC leaves room for these entries and a CE entry. -/
theorem headLen_le (opts : WriteOpts) (node : Node) : headLen opts node ≤ 95 := by
  have htype := typeFields_len_le opts node.type
  unfold headLen headFields
  simp only [List.map_append, List.sum_append, List.map_cons, List.map_nil, List.sum_cons,
    List.sum_nil]
  have hes : ((if opts.aaip && !opts.aaipSusp110 then [Field.other Sig.es 5] else []).map
      Field.len).sum ≤ 5 := by
    split <;> simp [Field.len]
  have hpx : (Field.other Sig.px
      (if opts.rrip110PxIno || !opts.rripVersion110 then 44 else 36)).len ≤ 44 := by
    rw [Field.len]
    split <;> omega
  have htf : (Field.other Sig.tf 26).len = 26 := rfl
  omega

/-- The entries before the name, in the state in which the name finds them. -/
structure HeadDone (opts : WriteOpts) (node : Node) (info : SuspInfo) : Prop where
  noNames : info.suspFields.filterMap Field.nm? = []
  ceEmpty : info.ceSuspFields = []
  sufLen : info.sufLen = headLen opts node

theorem foldl_suspAppend (fields : List Field) (info : SuspInfo) :
    fields.foldl suspAppend info =
      { info with
        suspFields := info.suspFields ++ fields
        sufLen := info.sufLen + (fields.map Field.len).sum } := by
  induction fields generalizing info with
  | nil => simp
  | cons f fields ih =>
    rw [List.foldl_cons, ih]
    simp [suspAppend, Nat.add_assoc]

theorem headDone (opts : WriteOpts) (node : Node) (ceLen : Nat) :
    HeadDone opts node ((headFields opts node).foldl suspAppend (.fresh ceLen)) where
  noNames := by
    rw [foldl_suspAppend]
    simp only [SuspInfo.fresh, List.nil_append, List.filterMap_eq_nil_iff]
    exact fun f hf => headFields_other hf
  ceEmpty := by
    rw [foldl_suspAppend]
    rfl
  sufLen := by
    rw [foldl_suspAppend]
    simp [SuspInfo.fresh, headLen]

/-! ## What the length calculator decides -/

/-- Bytes behind the name if they all go to the System Use Area. -/
def afterNmSize (node : Node) : Nat :=
  match node.type with
  | .symlink dest => 5 + ((turns [] dest).map fun t => compLen t.comp).sum
  | .file (some _) => 16
  | _ => 0

def alSize (opts : WriteOpts) (node : Node) : Nat :=
  if opts.aaip ∧ node.aapt.sum > 0 then node.aapt.sum + esExtra opts else 0

/-- Bytes of all entries of the node. -/
def fullSize (opts : WriteOpts) (node : Node) : Nat :=
  headLen opts node + (5 + node.name.length) + afterNmSize node + alSize opts node

theorem calcSl_eq {space suSize slLen : Nat} {ts : List Turn}
    (hfits : suSize + slLen ≤ space ∨ ts ≠ []) :
    calcSl space suSize slLen ts =
      if suSize + (slLen + (ts.map fun t => compLen t.comp).sum) ≤ space then
        some (suSize + (slLen + (ts.map fun t => compLen t.comp).sum))
      else none := by
  induction ts generalizing slLen with
  | nil =>
    have : suSize + slLen ≤ space := hfits.resolve_right (fun h => h rfl)
    simp [calcSl, this]
  | cons t ts ih =>
    rw [calcSl]
    simp only [List.map_cons, List.sum_cons]
    split
    next hover => rw [if_neg (by omega)]
    next hroom =>
      rw [ih (Or.inl (by omega))]
      simp only [Nat.add_assoc]

theorem calcField_eq {space suSize : Nat} (size : Nat) (hfits : suSize ≤ space) :
    calcField space suSize size =
      if suSize + size ≤ space then some (suSize + size) else none := by
  unfold calcField
  split
  next h => rw [if_neg (by omega)]
  next h => rw [if_pos (by omega)]

theorem turns_ne_nil (comp dest : Bytes) : turns comp dest ≠ [] := by
  induction dest generalizing comp with
  | nil => simp [turns]
  | cons c rest ih =>
    rw [turns]
    split
    · simp
    · exact ih _

theorem calcAfterNm_eq {space suSize : Nat} (node : Node) (hfits : suSize ≤ space) :
    calcAfterNm space node suSize =
      if suSize + afterNmSize node ≤ space then some (suSize + afterNmSize node) else none := by
  obtain ⟨name, type, aapt⟩ := node
  cases type with
  | symlink dest => exact calcSl_eq (Or.inr (turns_ne_nil [] dest))
  | file zf =>
    cases zf with
    | none => simp [calcAfterNm, afterNmSize, hfits]
    | some zf => exact calcField_eq 16 hfits
  | dir realParent dedicated => simp [calcAfterNm, afterNmSize, hfits]
  | special device => simp [calcAfterNm, afterNmSize, hfits]
  | placeholder => simp [calcAfterNm, afterNmSize, hfits]

theorem calcAl_eq {opts : WriteOpts} {space suSize : Nat} (node : Node)
    (hfits : suSize ≤ space) :
    calcAl opts space node suSize =
      if suSize + alSize opts node ≤ space then some (suSize + alSize opts node) else none := by
  unfold calcAl alSize
  split
  · exact calcField_eq _ hfits
  · simp [hfits]

/-- The calculator gives up exactly if the entries are too large in sum. -/
theorem suspCalcNmSlAl_isNone (opts : WriteOpts) (node : Node) (space : Nat) :
    (suspCalcNmSlAl opts node space (headLen opts node)).isNone =
      decide (space < fullSize opts node) := by
  unfold suspCalcNmSlAl fullSize
  rw [Nat.add_assoc (headLen opts node)]
  split
  next hnm =>
    rw [calcAfterNm_eq node hnm]
    split
    next hafter =>
      rw [Option.bind_some, calcAl_eq node hafter]
      split
      next hal => simp [hal]
      next hal => simp only [Option.isNone_none]; symm; simpa using Nat.lt_of_not_le hal
    next hafter =>
      simp only [Option.bind_none, Option.isNone_none]
      symm
      apply decide_eq_true
      omega
  next hnm =>
    simp only [Option.isNone_none]
    symm
    apply decide_eq_true
    omega

/-! ## Writing and reading the name -/

/-- The name in one entry. -/
def wholeNm (name : Bytes) : NmEntry := ⟨nmLen name.length, 0, name⟩

/-- The part of the name in the System Use Area, with the CONTINUE flag. -/
def firstNm (name : Bytes) (fit : Nat) : NmEntry :=
  ⟨nmLen fit, 1, name.take fit⟩

theorem toNat_nmLen {size : Nat} (hsize : size ≤ 250) : (nmLen size).toNat = size + 5 := by
  rw [nmLen, UInt8.toNat_ofNat']
  omega

theorem readRrNm_empty {nm : NmEntry} (hlen : nm.lenSue = 5) (hflag : nm.flags &&& 2 = 0)
    (st : ReadState) : readRrNm nm st = none := by
  simp [readRrNm, hlen, hflag]

theorem readRrNm_text {size : Nat} (flags : UInt8) {text : Bytes} (hpos : 0 < size)
    (hsize : size ≤ 250) (hlen : text.length = size) (hzero : 0 ∉ text) (st : ReadState) :
    readRrNm ⟨nmLen size, flags, text⟩ st =
      some ⟨some (if st.cont then st.name.getD [] ++ text else text),
        decide (flags &&& 1 ≠ 0)⟩ := by
  have hnat := toNat_nmLen hsize
  have hfive : (5 : UInt8).toNat = 5 := rfl
  have hle : ¬ nmLen size ≤ 5 := by
    rw [UInt8.le_iff_toNat_le, hnat, hfive]
    omega
  have hne : nmLen size ≠ 5 := fun heq => hle (heq ▸ UInt8.le_refl 5)
  have htake : text.take (size + 5 - 5) = text := List.take_of_length_le (by omega)
  simp only [readRrNm, hne, hle, false_and, if_false, hnat, htake,
    SymlinkTarget.cString_eq hzero]

theorem tells_whole {name : Bytes} (hpos : 0 < name.length) (hle : name.length ≤ 250)
    (hzero : 0 ∉ name) : Tells [wholeNm name] name := by
  have hread := readRrNm_text 0 hpos hle rfl hzero ⟨none, false⟩
  refine ⟨?_, by simp [readNames, wholeNm, hread]⟩
  simp [wholeNm, toNat_nmLen hle, Nat.add_comm]

/-- The second part is missing if it is too long. -/
def dividedNm (name : Bytes) (fit : Nat) : List NmEntry :=
  firstNm name fit :: if name.length - fit ≤ 250 then [wholeNm (name.drop fit)] else []

/-- The parts of a divided name tell it if none of them is empty or too long. -/
theorem tells_divided_iff {name : Bytes} {fit : Nat} (hlt : fit < name.length)
    (hle : fit ≤ 250) (hzero : 0 ∉ name) :
    Tells (dividedNm name fit) name ↔ 0 < fit ∧ name.length ≤ fit + 250 := by
  unfold dividedNm
  rcases Nat.eq_zero_or_pos fit with rfl | hpos
  · refine iff_of_false ?_ (by omega)
    rintro ⟨-, hread⟩
    rw [readNames, readRrNm_empty rfl (by decide : (1 : UInt8) &&& 2 = 0)] at hread
    cases hread
  · have hfirst : 0 ∉ name.take fit := fun h => hzero (List.mem_of_mem_take h)
    have hsecond : 0 ∉ name.drop fit := fun h => hzero (List.mem_of_mem_drop h)
    have hlen : (name.take fit).length = fit := List.length_take_of_le (by omega)
    have hone := readRrNm_text 1 hpos hle hlen hfirst ⟨none, false⟩
    by_cases hrest : name.length - fit ≤ 250
    · rw [if_pos hrest]
      refine iff_of_true ⟨?_, ?_⟩ (by omega)
      · intro nm hnm
        rcases List.mem_pair.mp hnm with rfl | rfl
        · simp [firstNm, toNat_nmLen hle, hlen, Nat.add_comm]
        · simp [wholeNm, toNat_nmLen hrest, Nat.add_comm]
      · have hsome : 0 < (name.drop fit).length := by
          simp
          omega
        have hroom : (name.drop fit).length ≤ 250 := by
          simp
          omega
        have htwo := readRrNm_text 0 hsome hroom rfl hsecond ⟨some (name.take fit), true⟩
        simp only [readNames, firstNm, wholeNm, hone, Option.bind_some]
        simpa using htwo
    · rw [if_neg hrest]
      refine iff_of_false ?_ (by omega)
      rintro ⟨-, hread⟩
      rw [readNames, firstNm, hone] at hread
      simp [readNames] at hread

theorem rripAddNm_ok {info : SuspInfo} {name : Bytes} {size : Nat} {flags : UInt8} {ce : Bool}
    (hsize : size ≤ 250) :
    rripAddNm info name size flags ce =
      .ok (append ce info (.nm ⟨nmLen size, flags, name.take size⟩)) := by
  unfold rripAddNm
  rw [if_neg (by omega), if_neg (by omega), Int.toNat_natCast]

theorem rripAddNm_refused {info : SuspInfo} {name : Bytes} {size : Nat} {flags : UInt8}
    {ce : Bool} (hsize : 250 < size) :
    rripAddNm info name size flags ce = .error .assertFailure := by
  unfold rripAddNm
  rw [if_pos (by omega)]

theorem nmEntries_append_nm (nm : NmEntry) (info : SuspInfo) :
    (append true info (.nm nm)).nmEntries = info.nmEntries ++ [nm] := by
  simp only [append, suspAppendCe, hopBlock, SuspInfo.nmEntries, if_true]
  split
  · split <;> simp [List.filterMap_cons]
  · simp

/-- The CE entry follows the name in the System Use Area. -/
def addCe (ceIsPredicted : Bool) (info : SuspInfo) : SuspInfo :=
  if ceIsPredicted then suspAppend info (.other .ce ceEntrySize) else info

theorem addCe_nmEntries (ceIsPredicted : Bool) (info : SuspInfo) :
    (addCe ceIsPredicted info).nmEntries = info.nmEntries := by
  cases ceIsPredicted with
  | false => rfl
  | true => exact nmEntries_append_other rfl false info

/-- Free bytes of the System Use Area for the name. -/
def suaFree (space : Nat) (info : SuspInfo) (ceIsPredicted : Bool) : Nat :=
  space - info.sufLen - if ceIsPredicted then ceEntrySize else 0

section AddNm

variable {opts : WriteOpts} {node : Node} {space : Nat} {info : SuspInfo}
  (ceIsPredicted : Bool)

theorem addNm_whole (hhead : HeadDone opts node info) (hle : node.name.length ≤ 250)
    (hfits : 5 + node.name.length ≤ suaFree space info ceIsPredicted) :
    ∃ info', addNm space node ceIsPredicted info = (info', .ok ()) ∧
      info'.nmEntries = [wholeNm node.name] := by
  refine ⟨addCe ceIsPredicted (append false info (.nm (wholeNm node.name))), ?_, ?_⟩
  · unfold addNm
    simp only [suaFree] at hfits
    rw [if_pos hfits, rripAddNm_ok hle]
    simp only [addCe, wholeNm, List.take_length]
  · rw [addCe_nmEntries]
    simp [append, suspAppend, SuspInfo.nmEntries, hhead.noNames, hhead.ceEmpty]

/-- Too little space for any byte of the name makes the writer run wild. -/
theorem addNm_wild (hover : suaFree space info ceIsPredicted < 5)
    (hroom : info.sufLen + ceEntrySize ≤ space) :
    addNm space node ceIsPredicted info = (info, .error .memoryFault) := by
  have hneg : (space : Int) - info.sufLen -
      (if ceIsPredicted then ceEntrySize else 0 : Nat) - 5 < 0 := by
    simp only [suaFree, ceEntrySize] at hover hroom ⊢
    split at hover <;> simp_all <;> omega
  unfold addNm
  simp only [suaFree] at hover
  rw [if_neg (by omega)]
  simp only [rripAddNm]
  rw [if_neg (by omega), if_pos hneg]

/-- A divided name; the second part gets refused if it is too long. -/
theorem addNm_divided (hhead : HeadDone opts node info) {fit : Nat}
    (hfit : suaFree space info ceIsPredicted = fit + 5) (hlt : fit < node.name.length)
    (hle : fit ≤ 250) :
    (addNm space node ceIsPredicted info).1.nmEntries = dividedNm node.name fit := by
  have hsize : (space : Int) - info.sufLen -
      (if ceIsPredicted then ceEntrySize else 0 : Nat) - 5 = fit := by
    unfold suaFree at hfit
    omega
  unfold addNm dividedNm
  simp only [suaFree] at hfit
  rw [if_neg (by omega)]
  simp only [hsize, rripAddNm_ok hle, Int.toNat_natCast]
  have hfirst : (addCe ceIsPredicted
      (append false info (.nm (firstNm node.name fit)))).nmEntries = [firstNm node.name fit] := by
    rw [addCe_nmEntries]
    simp [append, suspAppend, SuspInfo.nmEntries, hhead.noNames, hhead.ceEmpty]
  have hlen : (node.name.drop fit).length = node.name.length - fit := List.length_drop
  by_cases hrest : node.name.length - fit ≤ 250
  · rw [rripAddNm_ok (by omega), if_pos hrest, List.take_length]
    exact (nmEntries_append_nm _ _).trans (congrArg (· ++ [wholeNm (node.name.drop fit)]) hfirst)
  · rw [rripAddNm_refused (by omega), if_neg hrest]
    exact hfirst

end AddNm

/-- Only the writing of the name matters for what the reader of names gets. -/
theorem nmEntries_rripGetSuspFields (opts : WriteOpts) (node : Node) {usedUp : Nat}
    (ceLen : Nat) (hspace : rockridgeInDirRec ≤ suSpace usedUp) :
    ∃ info, HeadDone opts node info ∧
      (rripGetSuspFields opts node usedUp (.fresh ceLen)).1.nmEntries =
        (addNm (suSpace usedUp) node (decide (suSpace usedUp < fullSize opts node))
          info).1.nmEntries := by
  have hhead := headDone opts node ceLen
  refine ⟨_, hhead, ?_⟩
  have hlen := headLen_le opts node
  unfold rripGetSuspFields
  generalize (headFields opts node).foldl suspAppend (.fresh ceLen) = info at hhead ⊢
  have hroom : ¬ info.sufLen + ceEntrySize > suSpace usedUp := by
    rw [hhead.sufLen, ceEntrySize]
    rw [rockridgeInDirRec] at hspace
    omega
  simp only [Nat.not_lt.mpr hspace, hroom, if_false]
  rw [hhead.sufLen, suspCalcNmSlAl_isNone, ← hhead.sufLen]
  generalize addNm (suSpace usedUp) node _ info = written
  obtain ⟨info', result⟩ := written
  cases result with
  | error e => rfl
  | ok _ =>
    dsimp only
    generalize suSpace usedUp - info.sufLen - _ = free
    split
    · exact addTail_nmEntries _ _ _ _ _ _
    · exact addTail_nmEntries _ _ _ _ _ _

/-- Room for the name: all entries fit into the System Use Area, or the name fits besides a
CE entry, or its parts there and in the Continuation Area have 1 to 250 bytes. -/
def Room (opts : WriteOpts) (node : Node) (usedUp : Nat) : Prop :=
  let free := suSpace usedUp - headLen opts node - ceEntrySize
  fullSize opts node ≤ suSpace usedUp ∨ 5 + node.name.length ≤ free ∨
    (6 ≤ free ∧ node.name.length ≤ free + 245)

instance (opts : WriteOpts) (node : Node) (usedUp : Nat) :
    Decidable (Room opts node usedUp) := by
  unfold Room
  infer_instance

/-- Names with 1 to 255 bytes, and directory records with an identifier of up to
ISO_UNTRANSLATED_NAMES_MAX = 96 bytes. The NM entries tell the name exactly if they have
got room. -/
theorem roundTrip_iff_room (opts : WriteOpts) (node : Node) (usedUp ceLen : Nat)
    (hpos : 1 ≤ node.name.length) (hmax : node.name.length ≤ 255) (hzero : 0 ∉ node.name)
    (hused : usedUp ≤ 33 + 96 + 1) :
    RoundTrip opts node usedUp ceLen ↔ Room opts node usedUp := by
  have hspace : rockridgeInDirRec ≤ suSpace usedUp := by
    rw [rockridgeInDirRec, suSpace]
    omega
  have htop : suSpace usedUp ≤ 254 := by
    rw [suSpace]
    omega
  have hlen := headLen_le opts node
  obtain ⟨info, hhead, hentries⟩ := nmEntries_rripGetSuspFields opts node ceLen hspace
  have hsuf := hhead.sufLen
  have hfull : headLen opts node + (5 + node.name.length) ≤ fullSize opts node := by
    unfold fullSize
    omega
  simp only [RoundTrip, hentries, Room]
  rw [rockridgeInDirRec] at hspace
  by_cases hall : fullSize opts node ≤ suSpace usedUp
  · have hfits : 5 + node.name.length ≤ suaFree (suSpace usedUp) info false := by
      simp only [suaFree, Bool.false_eq_true, if_false]
      omega
    obtain ⟨info', hadd, hnm⟩ := addNm_whole false hhead (by omega) hfits
    rw [decide_eq_false (Nat.not_lt.mpr hall), hadd, hnm]
    exact iff_of_true (tells_whole hpos (by omega) hzero) (Or.inl hall)
  · rw [decide_eq_true (Nat.lt_of_not_le hall)]
    have hfree : suaFree (suSpace usedUp) info true =
        suSpace usedUp - headLen opts node - ceEntrySize := by
      simp [suaFree, hsuf]
    rw [← hfree]
    by_cases hfits : 5 + node.name.length ≤ suaFree (suSpace usedUp) info true
    · have hshort : node.name.length ≤ 250 := by omega
      obtain ⟨info', hadd, hnm⟩ := addNm_whole true hhead hshort hfits
      rw [hadd, hnm]
      exact iff_of_true (tells_whole hpos hshort hzero) (Or.inr (Or.inl hfits))
    · by_cases hwild : suaFree (suSpace usedUp) info true < 5
      · have hroom : info.sufLen + ceEntrySize ≤ suSpace usedUp := by
          rw [hsuf, ceEntrySize]
          omega
        have hnone : info.nmEntries = [] := by
          simp [SuspInfo.nmEntries, hhead.noNames, hhead.ceEmpty]
        rw [addNm_wild true hwild hroom, hnone]
        apply iff_of_false
        · rintro ⟨-, hread⟩
          cases hread
        · omega
      · obtain ⟨fit, hfit⟩ := Nat.exists_eq_add_of_le' (Nat.le_of_not_lt hwild)
        have hlt : fit < node.name.length := by omega
        have hle : fit ≤ 250 := by omega
        rw [addNm_divided true hhead hfit hlt hle, tells_divided_iff hlt hle hzero, hfit]
        omega

/-- A file with a name of 200 bytes "a", in a directory record with a short identifier. -/
theorem longFileName_tells :
    RoundTrip ⟨true, false, false, false, false⟩
      ⟨List.replicate 200 0x61, .file none, []⟩ 46 0 :=
  (roundTrip_iff_room _ _ 46 0 (by decide +kernel) (by decide +kernel) (by decide +kernel)
    (by decide)).mpr (by decide +kernel)

/-- AAIP, a block device, and a name of 96 bytes "a" which is recorded untranslated: the
size of the first part is -4. -/
theorem deviceName_lost :
    (rripGetSuspFields ⟨true, false, false, false, false⟩
        ⟨List.replicate 96 0x61, .special true, []⟩ (33 + 96 + 1) (.fresh 0)).2 =
      .error .memoryFault ∧
    ¬ RoundTrip ⟨true, false, false, false, false⟩
      ⟨List.replicate 96 0x61, .special true, []⟩ (33 + 96 + 1) 0 := by
  decide

end NameEntries
