import Mathlib.Data.List.Basic
import Mathlib.Tactic.Ring

/-!
# Numbers and records in byte buffers

A number is stored in a fixed number of bytes, least or most significant byte first. A
buffer in memory is read at positions. If it holds a sequence of bytes at some position,
then it holds each part of the sequence where that part begins.
-/

namespace ByteBuffers

/-- Memory from the begin of a buffer on. -/
abbrev Buffer := Nat → UInt8

def toLsb : (bytes num : Nat) → List UInt8
  | 0, _ => []
  | bytes + 1, num => UInt8.ofNat num :: toLsb bytes (num / 256)

def ofLsb : List UInt8 → Nat
  | [] => 0
  | b :: rest => b.toNat + 256 * ofLsb rest

def toMsb (bytes num : Nat) : List UInt8 := (toLsb bytes num).reverse

def ofMsb (bytes : List UInt8) : Nat := ofLsb bytes.reverse

@[simp] theorem length_toLsb (bytes num : Nat) : (toLsb bytes num).length = bytes := by
  induction bytes generalizing num with
  | zero => rfl
  | succ bytes ih => simp [toLsb, ih]

@[simp] theorem length_toMsb (bytes num : Nat) : (toMsb bytes num).length = bytes := by
  simp [toMsb]

theorem length_toLsb_or_toMsb :
    ∀ writeInt ∈ [toLsb, toMsb], ∀ bytes num, (writeInt bytes num).length = bytes := by
  intro writeInt hmem
  rcases List.mem_cons.mp hmem with rfl | hmsb
  · exact length_toLsb
  · exact List.mem_singleton.mp hmsb ▸ length_toMsb

theorem toLsb_add (m n num : Nat) : toLsb (m + n) num = toLsb m num ++ toLsb n (num / 256 ^ m) := by
  induction m generalizing num with
  | zero => simp [toLsb]
  | succ m ih =>
    rw [Nat.succ_add, toLsb, ih, toLsb, List.cons_append, Nat.div_div_eq_div_mul, ← pow_succ']

theorem toLsb_mod (n num : Nat) : toLsb n (num % 256 ^ n) = toLsb n num := by
  induction n generalizing num with
  | zero => rfl
  | succ n ih =>
    have hbyte : UInt8.ofNat (num % 256 ^ (n + 1)) = UInt8.ofNat num := by
      refine UInt8.toNat_inj.mp ?_
      rw [UInt8.toNat_ofNat', UInt8.toNat_ofNat', pow_succ', Nat.mod_mul_right_mod]
    have hrest : num % 256 ^ (n + 1) / 256 = num / 256 % 256 ^ n := by
      rw [pow_succ', Nat.mod_mul_right_div_self]
    rw [toLsb, toLsb, hbyte, hrest, ih]

theorem ofLsb_toLsb (bytes num : Nat) : ofLsb (toLsb bytes num) = num % 256 ^ bytes := by
  induction bytes generalizing num with
  | zero => simp [toLsb, ofLsb, Nat.mod_one]
  | succ bytes ih =>
    have hbyte : (UInt8.ofNat num).toNat = num % 256 := by simp
    rw [toLsb, ofLsb, ih, hbyte, pow_succ', Nat.mod_mul]

theorem ofLsb_toLsb_of_lt {bytes num : Nat} (h : num < 256 ^ bytes) :
    ofLsb (toLsb bytes num) = num := by
  rw [ofLsb_toLsb, Nat.mod_eq_of_lt h]

theorem ofLsb_lt (bytes : List UInt8) : ofLsb bytes < 256 ^ bytes.length := by
  induction bytes with
  | nil => simp [ofLsb]
  | cons b rest ih =>
    have hb := b.toNat_lt
    rw [ofLsb, List.length_cons, pow_succ]
    omega

theorem ofMsb_toMsb_of_lt {bytes num : Nat} (h : num < 256 ^ bytes) :
    ofMsb (toMsb bytes num) = num := by
  rw [ofMsb, toMsb, List.reverse_reverse, ofLsb_toLsb_of_lt h]

/-- `n` bytes of the buffer. -/
def slice (buf : Buffer) (pos n : Nat) : List UInt8 := (List.range n).map fun i => buf (pos + i)

theorem slice_none (buf : Buffer) (pos : Nat) : slice buf pos 0 = [] := rfl

@[simp] theorem length_slice (buf : Buffer) (pos n : Nat) : (slice buf pos n).length = n := by
  simp [slice]

def Holds (buf : Buffer) (pos : Nat) (bytes : List UInt8) : Prop :=
  ∀ i b, bytes[i]? = some b → buf (pos + i) = b

variable {buf : Buffer} {pos : Nat}

@[simp] theorem holds_nil : Holds buf pos [] := by
  intro i b h
  simp at h

@[simp] theorem holds_cons {b : UInt8} {rest : List UInt8} :
    Holds buf pos (b :: rest) ↔ buf pos = b ∧ Holds buf (pos + 1) rest := by
  constructor
  · intro h
    refine ⟨h 0 b rfl, fun i c hc => ?_⟩
    rw [Nat.add_assoc, Nat.add_comm 1]
    exact h (i + 1) c hc
  · rintro ⟨hb, hrest⟩ i c hc
    cases i with
    | zero => exact hb.trans (Option.some.inj hc)
    | succ i =>
      have := hrest i c hc
      rwa [Nat.add_assoc, Nat.add_comm 1] at this

@[simp] theorem holds_append {xs ys : List UInt8} :
    Holds buf pos (xs ++ ys) ↔ Holds buf pos xs ∧ Holds buf (pos + xs.length) ys := by
  induction xs generalizing pos with
  | nil => simp
  | cons x xs ih =>
    rw [List.cons_append, holds_cons, ih, holds_cons, List.length_cons, Nat.add_assoc,
      Nat.add_comm 1, and_assoc]

theorem Holds.slice_eq {bytes : List UInt8} (h : Holds buf pos bytes) :
    slice buf pos bytes.length = bytes := by
  apply List.ext_getElem (by simp)
  intro i hi hi'
  simp only [slice, List.getElem_map, List.getElem_range]
  exact h i bytes[i] (List.getElem?_eq_getElem hi')

theorem Holds.slice_of_length {bytes : List UInt8} (h : Holds buf pos bytes) {n : Nat}
    (hn : bytes.length = n) : slice buf pos n = bytes := by
  rw [← hn]
  exact h.slice_eq

/-- A number is read back from where it has been written. -/
theorem Holds.ofLsb_slice {bytes num : Nat} (h : Holds buf pos (toLsb bytes num))
    (hnum : num < 256 ^ bytes) : ofLsb (slice buf pos bytes) = num := by
  rw [h.slice_of_length (length_toLsb bytes num), ofLsb_toLsb_of_lt hnum]

section Copies

variable {dst src : Buffer} {off n i : Nat}

/-- `n` bytes of the source replace those of the destination from `off` on. -/
def copyInto (dst : Buffer) (off n : Nat) (src : Buffer) : Buffer := fun i =>
  if off ≤ i ∧ i < off + n then src (i - off) else dst i

theorem copyInto_inside (h : i < n) : copyInto dst off n src (off + i) = src i := by
  rw [copyInto, if_pos (by omega), Nat.add_sub_cancel_left]

theorem copyInto_outside (h : i < off ∨ off + n ≤ i) : copyInto dst off n src i = dst i := by
  rw [copyInto, if_neg (by omega)]

theorem slice_congr {buf buf' : Buffer} {pos pos' : Nat}
    (h : ∀ i < n, buf (pos + i) = buf' (pos' + i)) : slice buf pos n = slice buf' pos' n := by
  simp only [slice]
  exact List.map_congr_left fun i hi => h i (List.mem_range.mp hi)

theorem slice_append (buf : Buffer) (pos m n : Nat) :
    slice buf pos m ++ slice buf (pos + m) n = slice buf pos (m + n) := by
  simp only [slice, List.range_add, List.map_append, List.map_map, Function.comp_def,
    Nat.add_assoc]

theorem slice_getD (bytes : List UInt8) :
    slice (fun i => bytes.getD i 0) 0 bytes.length = bytes := by
  refine List.ext_getElem (by simp) fun i _ hi => ?_
  simp [slice, hi]

theorem eq_of_slice_eq {buf buf' : Buffer} {pos pos' n n' : Nat}
    (h : slice buf pos n = slice buf' pos' n') :
    n = n' ∧ ∀ i < n, buf (pos + i) = buf' (pos' + i) := by
  have hlength := congrArg List.length h
  rw [length_slice, length_slice] at hlength
  subst hlength
  refine ⟨rfl, fun i hi => ?_⟩
  have hget := congrArg (fun l => l[i]?) h
  simpa [slice, List.getElem?_range hi] using hget

end Copies

section Patches

variable {dst src : Buffer} {off n : Nat} {bytes : List UInt8}

def bufferOf (bytes : List UInt8) : Buffer := fun i => bytes.getD i 0

/-- The bytes get written from `off` on. -/
def patch (dst : Buffer) (off : Nat) (bytes : List UInt8) : Buffer :=
  copyInto dst off bytes.length (bufferOf bytes)

/-- A buffer is known by its bytes. -/
theorem holds_congr {buf buf' : Buffer} {pos pos' : Nat}
    (h : ∀ i < bytes.length, buf (pos + i) = buf' (pos' + i)) :
    Holds buf pos bytes ↔ Holds buf' pos' bytes := by
  constructor
  · intro hholds i b hb
    rw [← h i (List.getElem?_eq_some_iff.mp hb).1]
    exact hholds i b hb
  · intro hholds i b hb
    rw [h i (List.getElem?_eq_some_iff.mp hb).1]
    exact hholds i b hb

/-- A part of a buffer is a buffer. -/
theorem holds_shift {buf : Buffer} {start pos : Nat} :
    Holds (fun i => buf (start + i)) pos bytes ↔ Holds buf (start + pos) bytes :=
  holds_congr fun i _ => by rw [Nat.add_assoc]

/-- Buffers which hold the same bytes agree on them. -/
theorem Holds.agree {buf buf' : Buffer} {pos pos' : Nat} (h : Holds buf pos bytes)
    (h' : Holds buf' pos' bytes) {i : Nat} (hi : i < bytes.length) :
    buf (pos + i) = buf' (pos' + i) := by
  rw [h i _ (List.getElem?_eq_getElem hi), h' i _ (List.getElem?_eq_getElem hi)]

/-- What is at other places stays. -/
theorem Holds.copyInto {pos : Nat} (h : Holds dst pos bytes)
    (hapart : pos + bytes.length ≤ off ∨ off + n ≤ pos) :
    Holds (copyInto dst off n src) pos bytes := by
  refine (holds_congr fun i hi => ?_).mpr h
  exact copyInto_outside (by omega)

/-- What is in the copied range arrives. -/
theorem holds_copyInto {pos : Nat} (h : Holds src pos bytes) (hin : pos + bytes.length ≤ n) :
    Holds (ByteBuffers.copyInto dst off n src) (off + pos) bytes := by
  refine (holds_congr fun i hi => ?_).mpr h
  rw [Nat.add_assoc]
  exact copyInto_inside (by omega)

theorem holds_bufferOf : Holds (bufferOf bytes) 0 bytes := by
  intro i b h
  rw [Nat.zero_add, bufferOf, List.getD_eq_getElem?_getD, h, Option.getD_some]

theorem holds_patch : Holds (patch dst off bytes) off bytes :=
  holds_copyInto holds_bufferOf (Nat.le_of_eq (Nat.zero_add _))

theorem Holds.patch {pos : Nat} {other : List UInt8} (h : Holds dst pos other)
    (hapart : pos + other.length ≤ off ∨ off + bytes.length ≤ pos) :
    Holds (patch dst off bytes) pos other := h.copyInto hapart

end Patches

end ByteBuffers
