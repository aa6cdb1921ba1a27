import Mathlib.Algebra.Order.Ring.Nat
import Mathlib.Data.List.Basic
import Mathlib.Data.List.Induction
import TypesetKernel.Bytes

/-!
Numbers as bytes, there and back, and the parts of a file. A number written in a given width is read
back up to that width (`value_ofNat`), and bytes are the bytes of the number that they denote
(`ofNat_value`), so a word written is the word read and no two byte strings of one length denote the
same number. `Bytes.Holds` says that a part stands at an offset of a file; parts written one behind
the other stand one behind the other. A part that is made of blocks of one size holds each block,
and any run of blocks, at a multiple of that size.
-/

namespace TypesetKernel.Bytes

/-! ## Numbers -/

@[simp] theorem value_append_singleton (bs : Bytes) (b : UInt8) :
    value (bs ++ [b]) = 256 * value bs + b.toNat := by
  simp [value, List.foldl_append]

/-- A number is read back up to the width it was written in. -/
theorem value_ofNat (width n : Nat) : value (ofNat width n) = n % 256 ^ width := by
  induction width generalizing n with
  | zero => simp [ofNat, value, Nat.mod_one]
  | succ width ih =>
    rw [ofNat, value_append_singleton, ih, UInt8.toNat_ofNat']
    calc 256 * (n / 256 % 256 ^ width) + n % 256
        = n % 256 + 256 * (n / 256 % 256 ^ width) := Nat.add_comm _ _
      _ = n % (256 * 256 ^ width) := Nat.mod_mul.symm
      _ = n % 256 ^ (width + 1) := by rw [Nat.pow_succ']

theorem value_ofHalf (n : UInt16) : value (ofHalf n) = n.toNat := by
  rw [ofHalf, value_ofNat]
  exact Nat.mod_eq_of_lt n.toNat_lt

theorem value_ofWord (n : UInt32) : value (ofWord n) = n.toNat := by
  rw [ofWord, value_ofNat]
  exact Nat.mod_eq_of_lt n.toNat_lt

/-- Bytes are the bytes of the number that they denote. -/
theorem ofNat_value (bs : Bytes) : ofNat bs.length (value bs) = bs := by
  induction bs using List.reverseRecOn with
  | nil => rfl
  | append_singleton bs b ih =>
    have bound : b.toNat < 256 := b.toNat_lt
    have rest : (256 * value bs + b.toNat) / 256 = value bs := by omega
    have last : UInt8.ofNat (256 * value bs + b.toNat) = b := by
      apply UInt8.toNat_inj.mp
      rw [UInt8.toNat_ofNat']
      omega
    rw [List.length_append, List.length_singleton, ofNat, value_append_singleton, rest, ih, last]

/-- Bytes denote a number below the power of 256 that their length gives. -/
theorem value_lt (bs : Bytes) : value bs < 256 ^ bs.length := by
  have whole := value_ofNat bs.length (value bs)
  rw [ofNat_value] at whole
  rw [whole]
  exact Nat.mod_lt _ (Nat.pow_pos (by decide))

/-- Four bytes are the bytes of the word that they denote. -/
theorem ofWord_value {bs : Bytes} (four : bs.length = 4) :
    ofWord (UInt32.ofNat (value bs)) = bs := by
  have bound := value_lt bs
  have whole := ofNat_value bs
  rw [four] at bound whole
  have kept : (UInt32.ofNat (value bs)).toNat = value bs := Nat.mod_eq_of_lt bound
  rw [ofWord, kept, whole]

/-- The byte at an offset, zero behind the end. -/
def byteAt (bs : Bytes) (offset : Nat) : UInt8 := bs.getD offset 0

/-- The number in the two bytes at an offset. -/
def halfAt (bs : Bytes) (offset : Nat) : Nat := value ((bs.drop offset).take 2)

/-- The number in the four bytes at an offset. -/
def wordAt (bs : Bytes) (offset : Nat) : Nat := value ((bs.drop offset).take 4)

/-- Byte strings with the same bytes in a range have the same part there. -/
theorem part_congr {bs cs : Bytes} {offset width : Nat}
    (same : ∀ i, offset ≤ i → i < offset + width → bs[i]? = cs[i]?) :
    (bs.drop offset).take width = (cs.drop offset).take width := by
  apply List.ext_getElem?
  intro i
  simp only [List.getElem?_take, List.getElem?_drop]
  by_cases inside : i < width
  · rw [if_pos inside, if_pos inside]
    exact same _ (by omega) (by omega)
  · rw [if_neg inside, if_neg inside]

theorem byteAt_part (bs : Bytes) (offset : Nat) {i width : Nat} (inside : i < width) :
    byteAt ((bs.drop offset).take width) i = bs.byteAt (offset + i) := by
  simp [byteAt, inside]

/-- One byte denotes itself. -/
theorem ofNat_value_take_one (bs : Bytes) (offset : Nat) :
    UInt8.ofNat (value ((bs.drop offset).take 1)) = bs.byteAt offset := by
  rw [byteAt, List.getD_eq_getElem?_getD, ← List.head?_drop]
  cases bs.drop offset with
  | nil => rfl
  | cons b rest => simp [value]

theorem halfAt_lt (bs : Bytes) (offset : Nat) : bs.halfAt offset < 65536 := by
  have bound := value_lt ((bs.drop offset).take 2)
  have width : ((bs.drop offset).take 2).length ≤ 2 := List.length_take_le _ _
  calc bs.halfAt offset < 256 ^ ((bs.drop offset).take 2).length := bound
    _ ≤ 256 ^ 2 := Nat.pow_le_pow_right (by decide) width

@[simp] theorem toNat_ofNat_halfAt (bs : Bytes) (offset : Nat) :
    (UInt16.ofNat (bs.halfAt offset)).toNat = bs.halfAt offset := by
  rw [UInt16.toNat_ofNat']
  exact Nat.mod_eq_of_lt (halfAt_lt bs offset)

/-! ## Blocks -/

section Blocks

variable {α : Type} {width : Nat} {block : α → Bytes}

theorem length_flatMap (sized : ∀ x, (block x).length = width) (xs : List α) :
    (xs.flatMap block).length = width * xs.length := by
  induction xs with
  | nil => rfl
  | cons x xs ih =>
    rw [List.flatMap_cons, List.length_append, ih, sized, List.length_cons, Nat.mul_succ]
    omega

theorem drop_flatMap (sized : ∀ x, (block x).length = width) (xs : List α) (n : Nat) :
    (xs.flatMap block).drop (width * n) = (xs.drop n).flatMap block := by
  induction n generalizing xs with
  | zero => rfl
  | succ n ih =>
    cases xs with
    | nil => simp
    | cons x xs =>
      have next : width * (n + 1) = (block x).length + width * n := by
        rw [sized, Nat.mul_succ, Nat.add_comm]
      rw [List.flatMap_cons, next, List.drop_length_add_append, List.drop_succ_cons, ih]

theorem take_flatMap (sized : ∀ x, (block x).length = width) (xs : List α) (n : Nat) :
    (xs.flatMap block).take (width * n) = (xs.take n).flatMap block := by
  induction n generalizing xs with
  | zero => simp
  | succ n ih =>
    cases xs with
    | nil => simp
    | cons x xs =>
      have next : width * (n + 1) = (block x).length + width * n := by
        rw [sized, Nat.mul_succ, Nat.add_comm]
      rw [List.flatMap_cons, next, List.take_length_add_append, List.take_succ_cons,
        List.flatMap_cons, ih]

/-- Blocks cut from a file one behind the other make up the part that they cover. -/
theorem flatMap_blocks (file : Bytes) (offset width count : Nat) :
    ((List.range count).flatMap fun i => (file.drop (offset + width * i)).take width)
      = (file.drop offset).take (width * count) := by
  induction count with
  | zero => simp
  | succ count ih =>
    rw [List.range_succ, List.flatMap_append, ih, List.flatMap_singleton, Nat.mul_succ,
      List.take_add, List.drop_drop]

theorem length_block {file : Bytes} {offset : Nat} (inside : offset + width ≤ file.length) :
    ((file.drop offset).take width).length = width := by
  rw [List.length_take, List.length_drop]
  omega

/-- The part stands in the file at the offset. -/
def Holds (file : Bytes) (offset : Nat) (part : Bytes) : Prop := part <+: file.drop offset

namespace Holds

variable {file part rest : Bytes} {offset : Nat}

theorem whole (file : Bytes) : Holds file 0 file := List.prefix_rfl

theorem left (held : Holds file offset (part ++ rest)) : Holds file offset part :=
  (List.prefix_append _ _).trans held

theorem right (held : Holds file offset (part ++ rest)) :
    Holds file (offset + part.length) rest := by
  obtain ⟨behind, split⟩ := held
  refine ⟨behind, ?_⟩
  rw [← List.drop_drop, ← split, List.append_assoc, List.drop_left]

/-- Blocks next to each other. -/
theorem blocksAt (sized : ∀ x, (block x).length = width) {xs : List α}
    (held : Holds file offset (xs.flatMap block)) {first count : Nat}
    (inside : first + count ≤ xs.length) :
    (file.drop (offset + width * first)).take (width * count)
      = ((xs.drop first).take count).flatMap block := by
  have room : width * count ≤ ((xs.drop first).flatMap block).length := by
    rw [length_flatMap sized, List.length_drop]
    exact Nat.mul_le_mul_left _ (by omega)
  have reach : width * first ≤ (xs.flatMap block).length := by
    rw [length_flatMap sized]
    exact Nat.mul_le_mul_left _ (by omega)
  obtain ⟨behind, split⟩ := held
  rw [← List.drop_drop, ← split, List.drop_append_of_le_length reach, drop_flatMap sized,
    List.take_append_of_le_length room, take_flatMap sized]

/-- One of several blocks. -/
theorem blockAt (sized : ∀ x, (block x).length = width) {xs : List α}
    (held : Holds file offset (xs.flatMap block)) {i : Nat} {x : α} (found : xs[i]? = some x) :
    (file.drop (offset + width * i)).take width = block x := by
  obtain ⟨inside, value⟩ := List.getElem?_eq_some_iff.mp found
  have alone := held.blocksAt sized (show i + 1 ≤ xs.length from inside)
  rw [Nat.mul_one] at alone
  rw [alone, List.drop_eq_getElem_cons inside, List.take_succ_cons, List.take_zero,
    List.flatMap_singleton, value]

end Holds

end Blocks

end TypesetKernel.Bytes
