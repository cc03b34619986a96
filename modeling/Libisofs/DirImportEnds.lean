import Libisofs.DirImport

/-!
# The end of an import

The loops over the System Use entries of a record and over the records of a directory end for
themselves, except where continuation areas lead back. The import ends if and only if no
directory leads back to itself either.
-/

namespace DirImport

open ByteBuffers Descent Relation Unrollings
open ReadDir (IsoDataSource blockSize dirSize firstPos blockNumber nextBlock nextRecord lenDr)
open SuspIter (SysUserEntry Status suspIterNew suspSig lenSue advance returned)
open SuspSafety (statusFrom statusFrom_add statusFrom_ended Leads)

variable {r : Reader} {src : IsoDataSource}

/-! ## Entries -/

/-- An entry which ends the loop over the entries. -/
def stops (clTarget : Bool) (sue : SysUserEntry) : Bool :=
  let sig := suspSig sue.base sue.pos
  if version sue ≠ 1 ∧ ¬ (sig 'Z' 'F' ∨ sig 'Z' '2') then false
  else if sig 'P' 'X' then false
  else if sig 'R' 'E' then true
  else if sig 'C' 'L' then !clTarget && decide (UInt32.ofNat (numberAt sue 4) = 0)
  else sig 'S' 'F'

/-- No continuation area leads back to itself, or an entry ends the loop. -/
def EntriesEnd (r : Reader) (src : IsoDataSource) (record : Buffer) (clTarget : Bool) : Prop :=
  AcyclicFrom (Leads (medium r src) record r.lenSkp) none ∨
    ∃ n sue, returned (medium r src) record r.lenSkp false n = some sue ∧
      stops clTarget sue = true

/-- The record makes iso_file_source_new_ifs() read on in another block. -/
def Relocates (r : Reader) (src : IsoDataSource) (record : Buffer) (child : Option FileSource)
    (block : UInt32) : Prop :=
  Gives (parseRecord r src record child false) (.inr block)

/-- The entries of the record end, and so do those of the directory to which it refers. -/
def RecordEnds (r : Reader) (src : IsoDataSource) (record : Buffer)
    (child : Option FileSource) : Prop :=
  r.rr = true → precheck r record child = none → EntriesEnd r src record false ∧
    ∀ block target, Relocates r src record child block → src.readBlock block = .ok target →
      precheck r target child = none → EntriesEnd r src target true

section Entries

variable {clTarget : Bool} {status : Status} {st : RrState} {sue : SysUserEntry}

theorem takeSue_stops : (∃ last, takeSue r clTarget st sue = .inr last) ↔
    stops clTarget sue = true := by
  unfold takeSue stops
  cases clTarget <;> simp only [] <;> split_ifs <;> simp_all

theorem rrTurn_stable (s : Status × RrState) : Stable (rrTurn r src clTarget s) := by
  intro n result h
  obtain ⟨status, st⟩ := s
  cases status with
  | ended ret => exact h
  | calling first iter => exact h
  | atEntry iter => exact h

theorem rrTurn_step (r : Reader) (src : IsoDataSource) (clTarget : Bool) (st : RrState)
    (hstatus : ∀ ret, status ≠ .ended ret) (n : Nat) :
    (∃ st', rrTurn r src clTarget (status, st) n =
        some (.inl ((advance (medium r src) status).1, st')) ∧
        ∀ sue, (advance (medium r src) status).2 = some sue → stops clTarget sue = false) ∨
      ∃ last sue, rrTurn r src clTarget (status, st) n = some (.inr last) ∧
        (advance (medium r src) status).2 = some sue ∧ stops clTarget sue = true := by
  rw [rrTurn.eq_2 _ _ _ _ _ _ fun ret h => hstatus ret h]
  obtain ⟨next, result⟩ := advance (medium r src) status
  cases result with
  | none => exact Or.inl ⟨st, rfl, fun sue h => by cases h⟩
  | some sue =>
    cases htake : takeSue r clTarget st sue with
    | inl st' =>
      refine Or.inl ⟨st', by simp only [htake], fun sue' h => ?_⟩
      obtain rfl := Option.some.inj h
      by_contra hstops
      obtain ⟨last, hlast⟩ := takeSue_stops.mpr (Bool.eq_true_of_not_eq_false hstops)
      rw [htake] at hlast
      cases hlast
    | inr last =>
      exact Or.inr ⟨last, sue, by simp only [htake], rfl, takeSue_stops.mp ⟨last, htake⟩⟩

theorem statusFrom_succ' (med : SuspIter.Medium) (status : Status) (n : Nat) :
    statusFrom med status (n + 1) = statusFrom med (advance med status).1 n := by
  rw [Nat.add_comm, statusFrom_add]
  rfl

/-- The loop over the entries ends by the end of the entries or by one of them. -/
theorem rr_loop_ends_iff : (Ends fun n => loop (rrTurn r src clTarget) n (status, st)) ↔
    (∃ n ret, statusFrom (medium r src) status n = .ended ret) ∨
      ∃ n sue, (advance (medium r src) (statusFrom (medium r src) status n)).2 = some sue ∧
        stops clTarget sue = true := by
  constructor
  · rintro ⟨result, n, hn⟩
    induction n generalizing status st with
    | zero => cases hn
    | succ n ih =>
      by_cases hended : ∃ ret, status = .ended ret
      · obtain ⟨ret, rfl⟩ := hended
        exact Or.inl ⟨0, ret, rfl⟩
      · rcases rrTurn_step r src clTarget st (fun ret h => hended ⟨ret, h⟩) n with
          ⟨st', hturn, -⟩ | ⟨last, sue, -, hsue, hstops⟩
        · simp only [loop, hturn] at hn
          rcases ih hn with ⟨m, ret, hm⟩ | ⟨m, sue, hsue, hstops⟩
          · exact Or.inl ⟨m + 1, ret, (statusFrom_succ' _ _ m).trans hm⟩
          · rw [← statusFrom_succ'] at hsue
            exact Or.inr ⟨m + 1, sue, hsue, hstops⟩
        · exact Or.inr ⟨0, sue, hsue, hstops⟩
  · intro h
    -- the number of steps is the same in both cases
    have hsome : ∃ n, (∃ ret, statusFrom (medium r src) status n = .ended ret) ∨
        ∃ sue, (advance (medium r src) (statusFrom (medium r src) status n)).2 = some sue ∧
          stops clTarget sue = true := by
      rcases h with ⟨n, ret, hn⟩ | ⟨n, sue, hn⟩
      · exact ⟨n, Or.inl ⟨ret, hn⟩⟩
      · exact ⟨n, Or.inr ⟨sue, hn⟩⟩
    obtain ⟨n, hn⟩ := hsome
    clear h
    induction n generalizing status st with
    | zero =>
      rcases hn with ⟨ret, hended⟩ | ⟨sue, hsue, hstops⟩
      · obtain rfl : status = .ended ret := hended
        exact ⟨_, gives_of_turn ⟨0, rfl⟩⟩
      · by_cases hended : ∃ ret, status = .ended ret
        · obtain ⟨ret, rfl⟩ := hended
          exact ⟨_, gives_of_turn ⟨0, rfl⟩⟩
        · rcases rrTurn_step r src clTarget st (fun ret h => hended ⟨ret, h⟩) 0 with
            ⟨st', -, hgo⟩ | ⟨last, -, hturn, -⟩
          · have := hgo sue hsue
            rw [hstops] at this
            cases this
          · exact ⟨_, gives_of_turn ⟨0, hturn⟩⟩
    | succ n ih =>
      by_cases hended : ∃ ret, status = .ended ret
      · obtain ⟨ret, rfl⟩ := hended
        exact ⟨_, gives_of_turn ⟨0, rfl⟩⟩
      · rcases rrTurn_step r src clTarget st (fun ret h => hended ⟨ret, h⟩) 0 with
          ⟨st', hturn, -⟩ | ⟨last, -, hturn, -⟩
        · rw [statusFrom_succ'] at hn
          obtain ⟨result, hresult⟩ := @ih _ st' hn
          exact ⟨result, gives_of_next rrTurn_stable ⟨0, hturn⟩ hresult⟩
        · exact ⟨_, gives_of_turn ⟨0, hturn⟩⟩

theorem susp_ends_iff {record : Buffer} :
    (∃ n ret, statusFrom (medium r src) (.calling false (suspIterNew record r.lenSkp)) n =
      .ended ret) ↔ AcyclicFrom (Leads (medium r src) record r.lenSkp) none := by
  have hsusp : (false && SuspIter.notSusp (suspIterNew record r.lenSkp)) = false := rfl
  constructor
  · rintro ⟨n, ret, hended⟩
    exact acyclicFrom_of_ending
      (@SuspSafety.ending_of_ends (medium r src) record r.lenSkp false none _ n ret hsusp rfl
        hended)
  · intro hacyclic
    obtain ⟨n, ret, -, hended⟩ := @SuspSafety.ends_of_ending (medium r src) record r.lenSkp
      false none _ hsusp (ending_of_acyclicFrom hacyclic) rfl
    exact ⟨n, ret, hended⟩

theorem entries_end_iff {record : Buffer} {clTarget : Bool} :
    (Ends fun n => loop (rrTurn r src clTarget) n (rrStart r record)) ↔
      EntriesEnd r src record clTarget := by
  unfold EntriesEnd rrStart
  rw [rr_loop_ends_iff, susp_ends_iff]
  simp only [returned, SuspSafety.statusAfter_eq]

end Entries

/-! ## Records -/

section Records

variable {record : Buffer} {child : Option FileSource} {clTarget : Bool}

theorem ends_map {α β : Type} {f : Unrolling α} {g : α → β} :
    (Ends fun n => (f n).map g) ↔ Ends f := by
  constructor
  · rintro ⟨b, n, hn⟩
    obtain ⟨a, ha, -⟩ := Option.map_eq_some_iff.mp hn
    exact ⟨a, n, ha⟩
  · rintro ⟨a, n, hn⟩
    refine ⟨g a, n, ?_⟩
    simp only [hn, Option.map_some]

theorem stable_map {α β : Type} {f : Unrolling α} (h : Stable f) (g : α → β) :
    Stable fun n => (f n).map g := by
  intro n b hb
  obtain ⟨a, ha, rfl⟩ := Option.map_eq_some_iff.mp hb
  simp only [h n a ha, Option.map_some]

theorem stable_parseRecord : Stable (parseRecord r src record child clTarget) := by
  unfold parseRecord
  cases precheck r record child with
  | some result => exact stable_const _
  | none =>
    cases r.rr with
    | true => exact stable_map (stable_loop rrTurn_stable _) _
    | false => exact stable_const _

theorem parseRecord_ends_iff : Ends (parseRecord r src record child clTarget) ↔
    (r.rr = true → precheck r record child = none → EntriesEnd r src record clTarget) := by
  rw [← entries_end_iff]
  unfold parseRecord
  cases hcheck : precheck r record child with
  | some result =>
    refine iff_of_true ⟨_, 0, rfl⟩ ?_
    simp
  | none =>
    cases hrr : r.rr with
    | true => simpa using ends_map
    | false =>
      refine iff_of_true ⟨_, 0, rfl⟩ ?_
      simp

theorem stable_newIfsAt (parsed : (Int × Option FileSource) ⊕ UInt32) :
    Stable (newIfsAt r src child parsed) := by
  cases parsed with
  | inl result => exact stable_const _
  | inr block =>
    simp only [newIfsAt]
    cases src.readBlock block with
    | error ret => exact stable_const _
    | ok buffer => exact stable_map stable_parseRecord _

theorem stable_newIfs : Stable (isoFileSourceNewIfs r src record child) :=
  stable_parseRecord.bind stable_newIfsAt

/-- iso_file_source_new_ifs() ends if and only if the entries do. -/
theorem newIfs_ends_iff : Ends (isoFileSourceNewIfs r src record child) ↔
    RecordEnds r src record child := by
  have hsplit : Ends (isoFileSourceNewIfs r src record child) ↔
      ∃ parsed, Gives (parseRecord r src record child false) parsed ∧
        Ends (newIfsAt r src child parsed) := by
    constructor
    · rintro ⟨result, hresult⟩
      obtain ⟨parsed, hparsed, hrest⟩ := (gives_bind stable_parseRecord stable_newIfsAt).mp hresult
      exact ⟨parsed, hparsed, result, hrest⟩
    · rintro ⟨parsed, hparsed, result, hrest⟩
      exact ⟨result, (gives_bind stable_parseRecord stable_newIfsAt).mpr ⟨parsed, hparsed, hrest⟩⟩
  have htarget : ∀ block, Ends (newIfsAt r src child (.inr block)) ↔
      ∀ target, src.readBlock block = .ok target →
        Ends (parseRecord r src target child true) := by
    intro block
    simp only [newIfsAt]
    cases hread : src.readBlock block with
    | error ret =>
      refine iff_of_true ⟨_, 0, rfl⟩ ?_
      simp
    | ok target => simp [ends_map]
  rw [hsplit]
  constructor
  · rintro ⟨parsed, hparsed, hrest⟩ hrr hcheck
    refine ⟨parseRecord_ends_iff.mp ⟨parsed, hparsed⟩ hrr hcheck, fun block target hreloc => ?_⟩
    obtain rfl := stable_parseRecord.unique hparsed hreloc
    intro hread
    exact parseRecord_ends_iff.mp ((htarget block).mp hrest target hread) hrr
  · intro hends
    obtain ⟨parsed, hparsed⟩ :=
      (@parseRecord_ends_iff r src record child false).mpr fun hrr hcheck => (hends hrr hcheck).1
    refine ⟨parsed, hparsed, ?_⟩
    cases parsed with
    | inl result => exact ⟨result, 0, rfl⟩
    | inr block =>
      refine (htarget block).mpr fun target hread => parseRecord_ends_iff.mpr fun hrr hcheck => ?_
      by_cases hfirst : precheck r record child = none
      · exact (hends hrr hfirst).2 block target hparsed hread hcheck
      · obtain ⟨result, hresult⟩ := Option.ne_none_iff_exists'.mp hfirst
        obtain ⟨n, hn⟩ := hparsed
        simp [parseRecord, hresult] at hn

end Records

/-! ## Directories -/

/-- A state of read_dir() in which it reads a record. -/
def Reads (r : Reader) (src : IsoDataSource) (block : UInt32) (s : Reading) : Prop :=
  ∃ first, src.readBlock block = .ok first ∧
    ReflTransGen (Next (readTurn r src block (dirSize first))) (readStart first) s ∧
    s.AtRecord (dirSize first)

section Directories

variable {block : UInt32} {size : Nat} {s s' : Reading}

theorem readTurn_record (h : s.AtRecord size) : readTurn r src block size s = fun n =>
    (isoFileSourceNewIfs r src s.record s.child n).map fun result =>
      if result.1 < 0 then .inr (.error result.1) else .inl (s.next result.1 result.2) := by
  funext n
  simp only [readTurn, h.1, h.2, if_true, if_false]

theorem readTurn_else (h : ¬ s.AtRecord size) : ∃ result, readTurn r src block size s =
    fun _ => some result := by
  by_cases hmore : s.walk.tlen < size
  · have hpad : s.walk.pos = blockSize ∨ s.walk.buffer s.walk.pos = 0 := by
      by_contra hnot
      exact h ⟨hmore, hnot⟩
    cases hread : src.readBlock (blockNumber block (s.walk.advanced + 1)) with
    | error ret =>
      refine ⟨.inr (.error ret), funext fun n => ?_⟩
      simp only [readTurn, hmore, if_true, hpad, hread]
    | ok buffer =>
      refine ⟨.inl { s with walk := nextBlock s.walk buffer }, funext fun n => ?_⟩
      simp only [readTurn, hmore, if_true, hpad, hread]
  · refine ⟨.inr (.ok s.content), funext fun n => ?_⟩
    simp only [readTurn, hmore, if_false]

theorem stable_readTurn (s : Reading) : Stable (readTurn r src block size s) := by
  by_cases h : s.AtRecord size
  · rw [readTurn_record h]
    exact stable_map stable_newIfs _
  · obtain ⟨result, heq⟩ := @readTurn_else r src block size s h
    rw [heq]
    exact stable_const _

theorem readTurn_ends_iff : Ends (readTurn r src block size s) ↔
    (s.AtRecord size → RecordEnds r src s.record s.child) := by
  by_cases h : s.AtRecord size
  · rw [readTurn_record h, ends_map, newIfs_ends_iff]
    simp [h]
  · obtain ⟨result, heq⟩ := @readTurn_else r src block size s h
    rw [heq]
    exact iff_of_true ⟨result, 0, rfl⟩ fun hat => absurd hat h

theorem stable_readDir : Stable (readDir r src block) := by
  unfold readDir
  cases src.readBlock block with
  | error ret => exact stable_const _
  | ok buffer => exact stable_loop stable_readTurn _

/-- A turn passes a record, or it goes on to the next block. -/
theorem next_cases (h : Next (readTurn r src block size) s s') :
    s.AtRecord size ∧ (∃ ret, s'.walk = nextRecord s.walk ret) ∨
      ∃ buffer, src.readBlock (blockNumber block (s.walk.advanced + 1)) = .ok buffer ∧
        s'.walk = nextBlock s.walk buffer := by
  obtain ⟨n, hn⟩ := h
  by_cases hat : s.AtRecord size
  · left
    refine ⟨hat, ?_⟩
    rw [readTurn_record hat] at hn
    obtain ⟨⟨ret, child⟩, -, heq⟩ := Option.map_eq_some_iff.mp hn
    dsimp only at heq
    split at heq
    next => cases heq
    next =>
      obtain rfl := Sum.inl.inj heq
      refine ⟨ret, ?_⟩
      unfold Reading.next
      split
      next => rfl
      next => rfl
  · right
    by_cases hmore : s.walk.tlen < size
    · have hpad : s.walk.pos = blockSize ∨ s.walk.buffer s.walk.pos = 0 := by
        by_contra hnot
        exact hat ⟨hmore, hnot⟩
      simp only [readTurn, hmore, if_true, hpad] at hn
      split at hn
      next => cases hn
      next buffer hread =>
        obtain rfl := Sum.inl.inj (Option.some.inj hn)
        exact ⟨buffer, hread, rfl⟩
    · simp only [readTurn, hmore, if_false] at hn
      cases hn

/-- The position is near the buffer, and the blocks so far could be read. -/
structure Walks (src : IsoDataSource) (block : UInt32) (s : Reading) : Prop where
  behind : ∀ i, blockSize ≤ i → s.walk.buffer i = 0
  pos : s.walk.pos < 2 * blockSize
  read : ∀ k ≤ s.walk.advanced, ∃ buffer, src.readBlock (blockNumber block k) = .ok buffer

variable {blocks : List Buffer}

theorem source_behind {buffer : Buffer} (h : (source blocks).readBlock block = .ok buffer)
    (i : Nat) (hi : blockSize ≤ i) : buffer i = 0 := by
  simp only [source] at h
  split at h
  next data _ =>
    obtain rfl := Except.ok.inj h
    exact if_neg (Nat.not_lt.mpr hi)
  next => cases h

theorem Walks.start {first : Buffer} (h : (source blocks).readBlock block = .ok first) :
    Walks (source blocks) block (readStart first) where
  behind := source_behind h
  pos := by
    have h₁ := (first 0).toNat_lt
    have h₂ := (first (lenDr first 0)).toNat_lt
    change firstPos first < 2 * 2048
    unfold firstPos lenDr at *
    omega
  read k hk := by
    obtain rfl : k = 0 := Nat.le_zero.mp hk
    have hblock : blockNumber block 0 = block := by
      rw [blockNumber, show UInt32.ofNat 0 = 0 from rfl, UInt32.add_zero]
    exact ⟨first, hblock.symm ▸ h⟩

theorem Walks.next (h : Walks (source blocks) block s)
    (hnext : Next (readTurn r (source blocks) block size) s s') :
    Walks (source blocks) block s' := by
  rcases next_cases hnext with ⟨hat, ret, hwalk⟩ | ⟨buffer, hread, hwalk⟩
  · have hpos : s.walk.pos < blockSize := by
      by_contra hge
      exact hat.2 (Or.inr (h.behind _ (Nat.not_lt.mp hge)))
    refine ⟨?_, ?_, ?_⟩
    · rw [hwalk]
      exact h.behind
    · have hlen := (s.walk.buffer s.walk.pos).toNat_lt
      rw [hwalk]
      simp only [nextRecord, lenDr, blockSize] at hpos ⊢
      omega
    · rw [hwalk]
      exact h.read
  · refine ⟨?_, ?_, ?_⟩
    · rw [hwalk]
      exact source_behind hread
    · rw [hwalk]
      change 0 < 2 * 2048
      decide
    · rw [hwalk]
      intro k hk
      rcases Nat.le_succ_iff.mp hk with hk | rfl
      · exact h.read k hk
      · exact ⟨buffer, hread⟩

/-- One of the block numbers is behind the end of the data source. -/
theorem Walks.advanced_lt (hsize : blocks.length < 2 ^ 32) (h : Walks (source blocks) block s) :
    s.walk.advanced < 2 ^ 32 := by
  by_contra hge
  obtain ⟨buffer, hread⟩ := h.read (2 ^ 32 - 1 - block.toNat) (by omega)
  have hnumber : (blockNumber block (2 ^ 32 - 1 - block.toNat)).toNat = 2 ^ 32 - 1 := by
    have hlt := block.toNat_lt
    rw [blockNumber, UInt32.toNat_add, UInt32.toNat_ofNat']
    omega
  have hnone : blocks[2 ^ 32 - 1]? = none := List.getElem?_eq_none (by omega)
  simp only [source, hnumber, hnone] at hread
  cases hread

/-- The loop of read_dir() comes to its end as far as the records do. -/
theorem ending_readTurn (hsize : blocks.length < 2 ^ 32)
    (h : Walks (source blocks) block s) :
    Ending (Next (readTurn r (source blocks) block size)) s := by
  generalize hleft : (2 ^ 32 - s.walk.advanced) * 4096 + (4096 - s.walk.pos) = left
  induction left using Nat.strong_induction_on generalizing s with
  | _ left ih =>
    refine ⟨_, fun s' hnext => ih _ ?_ (h.next hnext) rfl⟩
    have hpos := h.pos
    have hmore := h.advanced_lt hsize
    simp only [blockSize] at hpos
    rcases next_cases hnext with ⟨hat, ret, hwalk⟩ | ⟨buffer, -, hwalk⟩
    · have hne : s.walk.buffer s.walk.pos ≠ 0 := fun heq => hat.2 (Or.inr heq)
      have hlen : 0 < lenDr s.walk.buffer s.walk.pos := by
        refine Nat.pos_of_ne_zero fun heq => hne ?_
        exact UInt8.toNat_inj.mp heq
      have hlt := (s.walk.buffer s.walk.pos).toNat_lt
      rw [hwalk, ← hleft]
      simp only [nextRecord]
      unfold lenDr at hlen ⊢
      omega
    · rw [hwalk, ← hleft]
      simp only [nextBlock]
      omega

/-- read_dir() ends if and only if all the records do which it reads. -/
theorem readDir_ends_iff (hsize : blocks.length < 2 ^ 32) :
    Ends (readDir r (source blocks) block) ↔
      ∀ s, Reads r (source blocks) block s → RecordEnds r (source blocks) s.record s.child := by
  unfold readDir Reads
  cases hread : (source blocks).readBlock block with
  | error ret =>
    refine iff_of_true ⟨_, 0, rfl⟩ ?_
    rintro s ⟨first, hfirst, -⟩
    cases hfirst
  | ok first =>
    simp only [ends_loop_iff stable_readTurn, readTurn_ends_iff]
    constructor
    · rintro ⟨-, hall⟩ s ⟨first', hfirst, hreach, hat⟩
      obtain rfl := Except.ok.inj hfirst
      exact hall s hreach hat
    · intro hall
      exact ⟨ending_readTurn hsize (Walks.start hread),
        fun s hreach hat => hall s ⟨first, rfl, hreach, hat⟩⟩

end Directories

/-! ## The tree -/

/-- The second directory is announced by a record of the first one. -/
def Subdirectory (r : Reader) (src : IsoDataSource) (block sub : UInt32) : Prop :=
  ∃ content, Gives (readDir r src block) (.ok content) ∧
    ∃ file ∈ content, file.isDir = true ∧ file.extents.head? = some sub

/-- The import ends, whatever becomes of single children. -/
def ImportEnds (r : Reader) (src : IsoDataSource) (root : UInt32) : Prop :=
  ∀ choose, Ends fun n => isoAddDirSrcRec r src choose n [] root

section Tree

variable {choose : List Nat → Decision} {path : List Nat} {block : UInt32}

/-- All children of the list get added, and no error is fatal. -/
def insertAll : List Nat → Decision := fun _ => ⟨.insert, false⟩

/-- A function which gives no less for the subordinate directories gives no less here. -/
theorem addChildren_mono {f g : List Nat → UInt32 → Option (Int × List IsoNode)}
    (h : ∀ path block sub, f path block = some sub → g path block = some sub) {k : Nat}
    {files : List FileSource} {result : Int × List IsoNode}
    (hf : addChildren choose f path k files = some result) :
    addChildren choose g path k files = some result := by
  induction files generalizing k result with
  | nil => exact hf
  | cons file rest ih =>
    simp only [addChildren] at hf ⊢
    cases hverdict : (choose (k :: path)).verdict with
    | abort ret =>
      rw [hverdict] at hf
      exact hf
    | pass =>
      rw [hverdict] at hf
      exact ih hf
    | insert =>
      simp only [hverdict] at hf ⊢
      split at hf
      next block _ _ _ =>
        cases hsub : f (k :: path) block with
        | none => simp [hsub] at hf
        | some sub =>
          obtain ⟨ret, nodes⟩ := sub
          simp only [hsub] at hf
          simp only [h _ _ _ hsub]
          split at hf
          next hfatal =>
            rw [if_pos hfatal]
            exact hf
          next hgo =>
            obtain ⟨later, hlater, heq⟩ := Option.map_eq_some_iff.mp hf
            rw [if_neg hgo, ih hlater, Option.map_some, heq]
      next =>
        obtain ⟨later, hlater, heq⟩ := Option.map_eq_some_iff.mp hf
        rw [ih hlater, Option.map_some, heq]

theorem stable_addChildren {addDir : Nat → List Nat → UInt32 → Option (Int × List IsoNode)}
    (h : ∀ path block, Stable fun n => addDir n path block) (k : Nat)
    (files : List FileSource) :
    Stable fun n => addChildren choose (addDir n) path k files :=
  fun n _ => addChildren_mono fun path block sub => h path block n sub

theorem stable_addDir (path : List Nat) (block : UInt32) :
    Stable fun n => isoAddDirSrcRec r src choose n path block := by
  intro n result h
  induction n generalizing path block result with
  | zero => cases h
  | succ n ih =>
    simp only [isoAddDirSrcRec] at h
    cases hread : readDir r src block n with
    | none => simp [hread] at h
    | some content =>
      simp only [isoAddDirSrcRec, stable_readDir n content hread]
      rw [hread] at h
      cases content with
      | error ret => exact h
      | ok content => exact addChildren_mono ih h

/-- If all subordinate directories end, then the loop over the children does. -/
theorem addChildren_ends {addDir : Nat → List Nat → UInt32 → Option (Int × List IsoNode)}
    (h : ∀ path block, Stable fun n => addDir n path block) (k : Nat)
    (files : List FileSource)
    (hends : ∀ file ∈ files, file.isDir = true → ∀ block, file.extents.head? = some block →
      ∀ path, Ends fun n => addDir n path block) :
    Ends fun n => addChildren choose (addDir n) path k files := by
  induction files generalizing k with
  | nil => exact ⟨_, 0, rfl⟩
  | cons file rest ih =>
    have hrest := ih (k + 1) fun file hfile => hends file (List.mem_cons_of_mem _ hfile)
    simp only [addChildren]
    cases (choose (k :: path)).verdict with
    | abort ret => exact ⟨_, 0, rfl⟩
    | pass => exact hrest
    | insert =>
      simp only []
      split
      next block tail hdir hsections =>
        obtain ⟨⟨ret, nodes⟩, m, hm⟩ := hends file List.mem_cons_self hdir block
          (by rw [hsections]; rfl) (k :: path)
        obtain ⟨result, n, hn⟩ := hrest
        have hsub := (h (k :: path) block).of_le (Nat.le_max_left m n) hm
        have hmore := (stable_addChildren h (k + 1) rest).of_le (Nat.le_max_right m n) hn
        by_cases hfatal : ret < 0 ∧ (choose (k :: path)).fatal = true
        · refine ⟨(isoCanceled, [.dir nodes]), max m n, ?_⟩
          simp only [hsub, hfatal, and_self, if_true]
        · refine ⟨(result.1, .dir nodes :: result.2), max m n, ?_⟩
          simp only [hsub, hfatal, if_false, hmore, Option.map_some]
      next => exact ends_map.mpr hrest

/-- If the loop ends and nothing gets left out, then all subordinate directories end. -/
theorem addDir_ends_of_insertAll
    {addDir : List Nat → UInt32 → Option (Int × List IsoNode)} {k : Nat}
    {files : List FileSource} {result : Int × List IsoNode}
    (h : addChildren insertAll addDir path k files = some result) :
    ∀ file ∈ files, file.isDir = true → ∀ block, file.extents.head? = some block →
      ∃ path sub, addDir path block = some sub := by
  induction files generalizing k result with
  | nil => simp
  | cons file rest ih =>
    have hsplit : (∃ later, addChildren insertAll addDir path (k + 1) rest = some later) ∧
        (file.isDir = true → ∀ block, file.extents.head? = some block →
          ∃ path sub, addDir path block = some sub) := by
      simp only [addChildren, insertAll] at h
      split at h
      next block tail hdir hsections =>
        cases hsub : addDir (k :: path) block with
        | none => simp [hsub] at h
        | some sub =>
          simp only [hsub, Bool.false_eq_true, and_false, if_false] at h
          obtain ⟨later, hlater, -⟩ := Option.map_eq_some_iff.mp h
          refine ⟨⟨later, hlater⟩, fun _ block' hhead => ⟨k :: path, sub, ?_⟩⟩
          rw [hsections] at hhead
          exact Option.some.inj hhead ▸ hsub
      next hnot =>
        obtain ⟨later, hlater, -⟩ := Option.map_eq_some_iff.mp h
        refine ⟨⟨later, hlater⟩, fun hdir block hhead => ?_⟩
        obtain ⟨tail, hsections⟩ := List.head?_eq_some_iff.mp hhead
        exact absurd hsections (hnot block tail hdir)
    obtain ⟨⟨later, hlater⟩, hhere⟩ := hsplit
    intro f hf
    rcases List.mem_cons.mp hf with rfl | hf
    · exact hhere
    · exact ih hlater f hf

/-- An import which ends has no endless descent. -/
theorem ending_of_import {n : Nat} {result : Int × List IsoNode}
    (h : isoAddDirSrcRec r src insertAll n path block = some result) :
    Ending (Subdirectory r src) block ∧
      ∀ b, ReflTransGen (Subdirectory r src) block b → Ends (readDir r src b) := by
  induction n generalizing path block result with
  | zero => cases h
  | succ n ih =>
    simp only [isoAddDirSrcRec] at h
    cases hread : readDir r src block n with
    | none => simp [hread] at h
    | some content =>
      have hgives : Gives (readDir r src block) content := ⟨n, hread⟩
      have hsubs : ∀ sub, Subdirectory r src block sub → ∃ path result,
          isoAddDirSrcRec r src insertAll n path sub = some result := by
        rintro sub ⟨content', hcontent', file, hfile, hdir, hhead⟩
        obtain rfl := stable_readDir.unique hgives hcontent'
        simp only [hread] at h
        exact addDir_ends_of_insertAll h file hfile hdir sub hhead
      refine ⟨⟨_, fun sub hsub => ?_⟩, fun b hreach => ?_⟩
      · obtain ⟨path', result', hsub'⟩ := hsubs sub hsub
        exact (ih hsub').1
      · rcases hreach.cases_head with rfl | ⟨sub, hsub, hrest⟩
        · exact ⟨content, hgives⟩
        · obtain ⟨path', result', hsub'⟩ := hsubs sub hsub
          exact (ih hsub').2 b hrest

theorem import_of_ending (hending : Ending (Subdirectory r src) block)
    (hends : ∀ b, ReflTransGen (Subdirectory r src) block b → Ends (readDir r src b)) :
    Ends fun n => isoAddDirSrcRec r src choose n path block := by
  induction hending generalizing path with
  | intro block _ ih =>
    obtain ⟨content, m, hm⟩ := hends block .refl
    cases content with
    | error ret =>
      refine ⟨(r.submit isoFileCantAdd, []), m + 1, ?_⟩
      simp only [isoAddDirSrcRec, hm]
    | ok content =>
      have hchildren : Ends fun n => addChildren choose (isoAddDirSrcRec r src choose n) path 0
          content := by
        refine addChildren_ends stable_addDir 0 content fun file hfile hdir sub hhead path' => ?_
        have hsub : Subdirectory r src block sub := ⟨content, ⟨m, hm⟩, file, hfile, hdir, hhead⟩
        exact ih sub hsub fun b hreach => hends b (hreach.head hsub)
      obtain ⟨result, n, hn⟩ := hchildren
      refine ⟨result, max m n + 1, ?_⟩
      have hread := stable_readDir.of_le (Nat.le_max_left m n) hm
      simp only [isoAddDirSrcRec, hread]
      exact (stable_addChildren stable_addDir 0 content).of_le (Nat.le_max_right m n) hn

/-- The import of a data source, of which not all block numbers are readable, ends if and only
if no directory below the root leads back to itself and all their records end. -/
theorem import_ends_iff {blocks : List Buffer} {root : UInt32} (hsize : blocks.length < 2 ^ 32) :
    ImportEnds r (source blocks) root ↔
      AcyclicFrom (Subdirectory r (source blocks)) root ∧
        ∀ b, ReflTransGen (Subdirectory r (source blocks)) root b →
          ∀ s, Reads r (source blocks) b s → RecordEnds r (source blocks) s.record s.child := by
  constructor
  · intro h
    obtain ⟨result, n, hn⟩ := h insertAll
    obtain ⟨hending, hends⟩ := ending_of_import hn
    exact ⟨acyclicFrom_of_ending hending,
      fun b hreach => (readDir_ends_iff hsize).mp (hends b hreach)⟩
  · rintro ⟨hacyclic, hends⟩ choose
    exact import_of_ending (ending_of_acyclicFrom hacyclic)
      fun b hreach => (readDir_ends_iff hsize).mpr (hends b hreach)

end Tree

/-! ## Directories on a small medium -/

/-- A directory of one block. Behind "." and ".." there is a record of the directory A which
begins at block 1. -/
def withChild : Buffer
  | 0 => 34
  | 10 => 102
  | 34 => 34
  | 68 => 34
  | 70 => 1
  | 93 => 2
  | 100 => 1
  | 101 => 65
  | _ => 0

/-- A directory with nothing but "." and "..". -/
def childless : Buffer
  | 0 => 34
  | 10 => 68
  | 34 => 34
  | _ => 0

/-- The import descends into the subdirectory, and then ends. -/
theorem subdirectory_ends : [withChild, childless].length < 2 ^ 32 ∧
    Subdirectory plainReader (source [withChild, childless]) 0 1 ∧
    ImportEnds plainReader (source [withChild, childless]) 0 := by
  have hsize : [withChild, childless].length < 2 ^ 32 := by decide
  have hparent : readDir plainReader (source [withChild, childless]) 0 2 =
      some (.ok [⟨none, true, [⟨1, 0⟩], 0⟩]) := rfl
  have hchild : readDir plainReader (source [withChild, childless]) 1 1 = some (.ok []) := rfl
  have hleaf : ∀ sub, ¬ Subdirectory plainReader (source [withChild, childless]) 1 sub := by
    rintro sub ⟨content, hcontent, file, hfile, -⟩
    obtain rfl := Except.ok.inj (stable_readDir.unique hcontent ⟨1, hchild⟩)
    cases hfile
  have honly : ∀ sub, Subdirectory plainReader (source [withChild, childless]) 0 sub → sub = 1 := by
    rintro sub ⟨content, hcontent, file, hfile, -, hsub⟩
    obtain rfl := Except.ok.inj (stable_readDir.unique hcontent ⟨2, hparent⟩)
    obtain rfl := List.mem_singleton.mp hfile
    exact (Option.some.inj hsub).symm
  refine ⟨hsize, ⟨_, ⟨2, hparent⟩, _, List.mem_singleton_self _, rfl, rfl⟩,
    (import_ends_iff hsize).mpr ⟨fun b hreach htrans => ?_, fun b _ s _ hrr => by cases hrr⟩⟩
  obtain ⟨sub, hsub, hback⟩ := TransGen.head'_iff.mp htrans
  rcases hreach.cases_head with rfl | ⟨mid, hmid, hdown⟩
  · obtain rfl := honly sub hsub
    rcases hback.cases_head with heq | ⟨next, hnext, -⟩
    · exact absurd heq (by decide)
    · exact hleaf next hnext
  · obtain rfl := honly mid hmid
    rcases hdown.cases_head with rfl | ⟨next, hnext, -⟩
    · exact hleaf sub hsub
    · exact hleaf next hnext

/-- A directory of one block. Behind "." and ".." there is a record of a directory which
begins at block 0. -/
def ownChild : Buffer
  | 0 => 34
  | 10 => 102
  | 34 => 34
  | 68 => 34
  | 93 => 2
  | _ => 0

/-- The root directory is its own child. The import descends into it for ever. -/
theorem own_child_never_ends : ¬ ImportEnds plainReader (source [ownChild]) 0 := by
  intro h
  obtain ⟨result, n, hn⟩ := h insertAll
  have hread : readDir plainReader (source [ownChild]) 0 2 =
      some (.ok [⟨none, true, [⟨0, 0⟩], 0⟩]) := rfl
  have hself : Subdirectory plainReader (source [ownChild]) 0 0 :=
    ⟨_, ⟨2, hread⟩, _, List.mem_singleton_self _, rfl, rfl⟩
  exact (ending_of_import hn).1.irreflexive (.single hself)

end DirImport
