import Mathlib.Algebra.Order.Ring.Nat
import TypesetKernel.Bytes

/-!
How long a text becomes that is read from bytes of any kind. A text that was written as UTF-8 is
read back (`decode_encode`). Of other bytes the text may be longer than the bytes: a single byte may
become a replacement character, which has three. This is the only cause, so a text is no longer
than its bytes and two more for each replacement character (`utf8ByteSize_decode_le`).
-/

namespace TypesetKernel.Utf8

/-! ## Sizes of texts -/

theorem utf8Size_eq (c : Char) : c.utf8Size =
    if c.toNat < 0x80 then 1 else if c.toNat < 0x800 then 2 else if c.toNat < 0x10000 then 3
    else 4 := by
  have size : c.utf8Size = if c.toNat ≤ 0x7F then 1 else if c.toNat ≤ 0x7FF then 2
    else if c.toNat ≤ 0xFFFF then 3 else 4 := rfl
  rw [size]
  split_ifs <;> omega

/-- The character of a number that is no code point is the first one of all. -/
theorem toNat_ofNat_le (n : Nat) : (Char.ofNat n).toNat ≤ n := by
  by_cases valid : n.isValidChar
  · rw [Char.ofNat, dif_pos valid]
    exact Nat.le_refl n
  · rw [Char.ofNat, dif_neg valid]
    exact Nat.zero_le n

theorem utf8Size_ofNat_le {n size : Nat} (positive : 0 < size)
    (fits : n < 0x80 ∨ 2 ≤ size ∧ n < 0x800 ∨ 3 ≤ size ∧ n < 0x10000 ∨ 4 ≤ size) :
    (Char.ofNat n).utf8Size ≤ size := by
  have bound := toNat_ofNat_le n
  rw [utf8Size_eq]
  split_ifs <;> omega

theorem utf8ByteSize_ofList (cs : List Char) :
    (String.ofList cs).utf8ByteSize = (cs.map Char.utf8Size).sum := by
  rw [String.utf8ByteSize, String.toByteArray_ofList, List.utf8Encode, List.size_toByteArray,
    List.length_flatMap]
  simp only [String.length_utf8EncodeChar]

/-! ## What is read of any bytes -/

/-- The number of bytes of a character, where a replacement character counts as the one byte that it
may stand for. -/
def weight (c : Char) : Nat := if c = replacement then 1 else c.utf8Size

/-- How many bytes have been read of an opened character, judged by the size of what it can still
become. -/
def Opened.credit (o : Opened) : Nat :=
  if o.more = 0 then if o.bits < 0x20 then 1 else if o.bits < 0x400 then 2 else 3
  else if o.more = 1 ∧ 0x10 ≤ o.bits then 2
  else 1

/-- The bytes that have been read behind the last complete character. -/
def credit : Option Opened → Nat
  | none => 0
  | some o => o.credit

theorem Opened.credit_pos (o : Opened) : 0 < o.credit := by
  unfold credit
  split_ifs <;> decide

theorem weight_le (c : Char) : weight c ≤ c.utf8Size := by
  unfold weight
  split
  · exact c.utf8Size_pos
  · exact Nat.le_refl _

theorem weight_ofNat_le {n size : Nat} (positive : 0 < size)
    (fits : n < 0x80 ∨ 2 ≤ size ∧ n < 0x800 ∨ 3 ≤ size ∧ n < 0x10000 ∨ 4 ≤ size) :
    weight (Char.ofNat n) ≤ size :=
  Nat.le_trans (weight_le _) (utf8Size_ofNat_le positive fits)

private theorem credit_of_first {o : Opened}
    (first : o.more = 0 ∧ o.bits < 0x20 ∨ o.more = 1 ∧ o.bits < 0x10 ∨ 2 ≤ o.more) :
    (([] : List Char).map weight).sum + credit (some o) ≤ 1 := by
  have one : o.credit = 1 := by
    unfold Opened.credit
    split_ifs <;> omega
  rw [credit, one]
  exact Nat.le_refl _

/-- The first byte of a character pays for what it completes or opens. -/
theorem weight_start (b : UInt8) :
    ((start b).1.map weight).sum + credit (start b).2 ≤ 1 := by
  unfold start
  dsimp only
  split
  case isTrue ascii =>
    have paid : weight (Char.ofNat b.toNat) ≤ 1 := weight_ofNat_le (by decide) (.inl ascii)
    simpa [credit] using paid
  split
  · decide
  split
  · exact credit_of_first (.inl ⟨rfl, Nat.mod_lt _ (by decide)⟩)
  split
  · exact credit_of_first (.inr (.inl ⟨rfl, Nat.mod_lt _ (by decide)⟩))
  split
  · exact credit_of_first (.inr (.inr (Nat.le_refl _)))
  · decide

/-- Every further byte pays for itself, whether it continues the opened character or ends it. -/
theorem weight_step (o : Option Opened) (b : UInt8) :
    ((step o b).1.map weight).sum + credit (step o b).2 ≤ credit o + 1 := by
  cases o with
  | none => simpa [step, credit] using weight_start b
  | some o =>
    unfold step
    dsimp only
    split
    case isTrue continues =>
      split
      case h_1 last =>
        simp only [List.map_cons, List.map_nil, List.sum_cons, List.sum_nil, credit,
          Opened.credit, last, if_true]
        apply weight_ofNat_le
        · omega
        · split_ifs <;> omega
      case h_2 more owed =>
        simp only [List.map_nil, List.sum_nil, credit, Opened.credit, owed, Nat.succ_ne_zero,
          if_false]
        split_ifs <;> omega
    case isFalse ends =>
      have opened := o.credit_pos
      have fresh := weight_start b
      have replaced : weight replacement = 1 := if_pos rfl
      simp only [List.map_cons, List.sum_cons, replaced, credit] at fresh ⊢
      omega

theorem chars_cons (o : Option Opened) (b : UInt8) (bs : Bytes) :
    chars o (b :: bs) = (step o b).1 ++ chars (step o b).2 bs := by
  cases o <;> rfl

theorem weight_chars (o : Option Opened) (bs : Bytes) :
    ((chars o bs).map weight).sum ≤ credit o + bs.length := by
  induction bs generalizing o with
  | nil =>
    cases o with
    | none => exact Nat.zero_le _
    | some o => exact o.credit_pos
  | cons b bs ih =>
    have next := weight_step o b
    have rest := ih (step o b).2
    rw [chars_cons, List.map_append, List.sum_append, List.length_cons]
    omega

theorem sum_utf8Size (cs : List Char) :
    (cs.map Char.utf8Size).sum = (cs.map weight).sum + 2 * cs.count replacement := by
  induction cs with
  | nil => rfl
  | cons c cs ih =>
    rw [List.map_cons, List.map_cons, List.sum_cons, List.sum_cons, ih, List.count_cons]
    by_cases replaced : c = replacement
    · subst replaced
      have three : replacement.utf8Size = 3 := rfl
      rw [weight, if_pos rfl, three, if_pos (beq_self_eq_true _)]
      omega
    · rw [weight, if_neg replaced, if_neg (by simpa using replaced)]
      omega

theorem count_le_sum_weight (cs : List Char) :
    cs.count replacement ≤ (cs.map weight).sum := by
  induction cs with
  | nil => exact Nat.le_refl _
  | cons c cs ih =>
    rw [List.map_cons, List.sum_cons, List.count_cons]
    by_cases replaced : c = replacement
    · rw [weight, if_pos replaced, if_pos (by simpa using replaced)]
      omega
    · rw [if_neg (by simpa using replaced)]
      omega

/-- A text is no longer than the bytes that it was read from and two more bytes for each of its
replacement characters, of which there are no more than bytes. -/
theorem utf8ByteSize_decode_le (bs : Bytes) :
    (decode bs).utf8ByteSize ≤ bs.length + 2 * (decode bs).toList.count replacement ∧
      (decode bs).toList.count replacement ≤ bs.length := by
  have read := weight_chars none bs
  have replaced := count_le_sum_weight (chars none bs)
  rw [credit, Nat.zero_add] at read
  rw [decode, utf8ByteSize_ofList, sum_utf8Size, String.toList_ofList]
  exact ⟨Nat.add_le_add_right read _, Nat.le_trans replaced read⟩

/-- What is read of a block of bytes may exceed the capacity of the block, at most threefold. -/
theorem utf8ByteSize_decode_le_of_fits {bs : Bytes} {capacity : Nat} (fits : bs.length ≤ capacity) :
    (decode bs).utf8ByteSize ≤ capacity + 2 * (decode bs).toList.count replacement ∧
      (decode bs).utf8ByteSize ≤ 3 * capacity := by
  have size := utf8ByteSize_decode_le bs
  exact ⟨by omega, by omega⟩

/-! ## What is read of a text -/

private theorem toList_loop (bs : ByteArray) (i : Nat) (read : List UInt8) :
    ByteArray.toList.loop bs i read = read.reverse ++ bs.data.toList.drop i := by
  fun_induction ByteArray.toList.loop bs i read with
  | case1 i read inside ih =>
    have within : i < bs.data.toList.length := inside
    have next : bs.get! i = bs.data.toList[i] := by
      rw [ByteArray.get!, getElem!_pos bs.data i inside, Array.getElem_toList]
    rw [ih, List.drop_eq_getElem_cons within, next, List.reverse_cons, List.append_assoc]
    rfl
  | case2 i read outside =>
    rw [List.drop_eq_nil_of_le (Nat.le_of_not_lt outside), List.append_nil]

theorem encode_eq (s : String) : encode s = s.toList.flatMap String.utf8EncodeChar := by
  have bytes : s.toUTF8 = (s.toList.flatMap String.utf8EncodeChar).toByteArray :=
    calc s.toUTF8 = (String.ofList s.toList).toByteArray := by rw [String.ofList_toList]; rfl
      _ = s.toList.utf8Encode := String.toByteArray_ofList
  rw [encode, bytes, ByteArray.toList, toList_loop, List.toList_data_toByteArray]
  rfl

theorem length_encode (s : String) : (encode s).length = s.utf8ByteSize := by
  have size := utf8ByteSize_ofList s.toList
  rw [String.ofList_toList] at size
  rw [encode_eq, size, List.length_flatMap]
  simp only [String.length_utf8EncodeChar]

section Continued

variable {bits v more : Nat} {low high : UInt8} {bs : Bytes}

/-- A byte of six more bits continues a number, and is the last byte of its character or leaves one
byte less to read. -/
private theorem step_continuation (opened : bits = v / 0x40) (above : low.toNat ≤ v % 0x40 + 0x80)
    (below : v % 0x40 + 0x80 ≤ high.toNat) :
    step (some ⟨bits, more, low, high⟩) (UInt8.ofNat (v % 0x40 + 0x80)) =
      match more with
      | 0 => ([Char.ofNat v], none)
      | more + 1 => ([], some ⟨v, more, 0x80, 0xBF⟩) := by
  have byte : (UInt8.ofNat (v % 0x40 + 0x80)).toNat = v % 0x40 + 0x80 := by
    rw [UInt8.toNat_ofNat']
    omega
  have continues : low ≤ UInt8.ofNat (v % 0x40 + 0x80) ∧ UInt8.ofNat (v % 0x40 + 0x80) ≤ high := by
    rw [UInt8.le_iff_toNat_le, UInt8.le_iff_toNat_le, byte]
    exact ⟨above, below⟩
  have whole : bits * 0x40 + (UInt8.ofNat (v % 0x40 + 0x80)).toNat % 0x40 = v := by
    rw [byte]
    omega
  cases more with
  | zero => exact (if_pos continues).trans (congrArg (fun n => ([Char.ofNat n], none)) whole)
  | succ more =>
    exact (if_pos continues).trans
      (congrArg (fun n => (([] : List Char), some (Opened.mk n more 0x80 0xBF))) whole)

private theorem chars_last (opened : bits = v / 0x40) (above : low.toNat ≤ v % 0x40 + 0x80)
    (below : v % 0x40 + 0x80 ≤ high.toNat) :
    chars (some ⟨bits, 0, low, high⟩) (UInt8.ofNat (v % 0x40 + 0x80) :: bs)
      = Char.ofNat v :: chars none bs := by
  rw [chars_cons, step_continuation opened above below]
  rfl

private theorem chars_more (opened : bits = v / 0x40) (above : low.toNat ≤ v % 0x40 + 0x80)
    (below : v % 0x40 + 0x80 ≤ high.toNat) :
    chars (some ⟨bits, more + 1, low, high⟩) (UInt8.ofNat (v % 0x40 + 0x80) :: bs)
      = chars (some ⟨v, more, 0x80, 0xBF⟩) bs := by
  rw [chars_cons, step_continuation opened above below]
  rfl

/-! The first byte of two, three or four tells how many follow and opens the number with what is
left of it. -/

private theorem chars_two (low : 0x80 ≤ v) (high : v < 0x800) :
    chars none (UInt8.ofNat (v / 64 % 32 + 192) :: bs)
      = chars (some ⟨v / 64, 0, 0x80, 0xBF⟩) bs := by
  have lead : (UInt8.ofNat (v / 64 % 32 + 192)).toNat = v / 64 + 192 := by
    rw [UInt8.toNat_ofNat']
    omega
  have bits : (v / 64 + 192) % 0x20 = v / 64 := by omega
  rw [chars_cons, step, start, lead]
  dsimp only
  rw [if_neg (by omega), if_neg (by omega), if_pos (by omega), bits]
  rfl

private theorem chars_three (low : 0x800 ≤ v) (high : v < 0x10000) :
    chars none (UInt8.ofNat (v / 4096 % 16 + 224) :: bs)
      = chars (some ⟨v / 4096, 1, if v / 4096 = 0 then 0xA0 else 0x80,
          if v / 4096 = 13 then 0x9F else 0xBF⟩) bs := by
  have lead : (UInt8.ofNat (v / 4096 % 16 + 224)).toNat = v / 4096 + 224 := by
    rw [UInt8.toNat_ofNat']
    omega
  have bits : (v / 4096 + 224) % 0x10 = v / 4096 := by omega
  rw [chars_cons, step, start, lead]
  dsimp only
  rw [if_neg (by omega), if_neg (by omega), if_neg (by omega), if_pos (by omega), bits]
  simp only [Nat.add_eq_right, Nat.reduceEqDiff]
  rfl

private theorem chars_four (low : 0x10000 ≤ v) (high : v < 0x110000) :
    chars none (UInt8.ofNat (v / 262144 % 8 + 240) :: bs)
      = chars (some ⟨v / 262144, 2, if v / 262144 = 0 then 0x90 else 0x80,
          if v / 262144 = 4 then 0x8F else 0xBF⟩) bs := by
  have lead : (UInt8.ofNat (v / 262144 % 8 + 240)).toNat = v / 262144 + 240 := by
    rw [UInt8.toNat_ofNat']
    omega
  have bits : (v / 262144 + 240) % 0x08 = v / 262144 := by omega
  rw [chars_cons, step, start, lead]
  dsimp only
  rw [if_neg (by omega), if_neg (by omega), if_neg (by omega), if_neg (by omega),
    if_pos (by omega), bits]
  simp only [Nat.add_eq_right, Nat.reduceEqDiff]
  rfl

end Continued

/-- The bytes of a character are read as this character. The ranges that a second byte must not
leave shut out nothing that is written: a character has no shorter form than the one that is
written, and no character is a surrogate or behind the last code point. -/
theorem chars_encodeChar (c : Char) (bs : Bytes) :
    chars none (String.utf8EncodeChar c ++ bs) = c :: chars none bs := by
  have valid : c.toNat < 0xD800 ∨ 0xDFFF < c.toNat ∧ c.toNat < 0x110000 := c.valid
  have same : Char.ofNat c.toNat = c := Char.ofNat_toNat c
  unfold String.utf8EncodeChar
  have code : c.val.toNat = c.toNat := rfl
  rw [code]
  generalize c.toNat = v at *
  dsimp only
  split_ifs with one two three
  · have lead : (UInt8.ofNat v).toNat = v := by
      rw [UInt8.toNat_ofNat']
      omega
    have started : start (UInt8.ofNat v) = ([Char.ofNat v], none) := by
      simp only [start, lead]
      rw [if_pos (by omega)]
    rw [List.singleton_append, chars_cons, step, started, same]
    rfl
  · rw [List.cons_append, List.singleton_append, chars_two (by omega) (by omega),
      chars_last rfl (by simp) (by simp; omega), same]
  · rw [List.cons_append, List.cons_append, List.singleton_append,
      chars_three (by omega) (by omega), chars_more (by omega) ?_ ?_,
      chars_last rfl (by simp) (by simp; omega), same]
    · split_ifs <;> simp
      omega
    · split_ifs <;> simp <;> omega
  · rw [List.cons_append, List.cons_append, List.cons_append, List.singleton_append,
      chars_four (by omega) (by omega), chars_more (by omega) ?_ ?_,
      chars_more (by omega) (by simp) (by simp; omega),
      chars_last rfl (by simp) (by simp; omega), same]
    · split_ifs <;> simp
      omega
    · split_ifs <;> simp <;> omega

theorem chars_flatMap (cs : List Char) : chars none (cs.flatMap String.utf8EncodeChar) = cs := by
  induction cs with
  | nil => rfl
  | cons c cs ih => rw [List.flatMap_cons, chars_encodeChar, ih]

/-- A text that was written is read back. -/
theorem decode_encode (s : String) : decode (encode s) = s := by
  rw [decode, encode_eq, chars_flatMap, String.ofList_toList]

/-- A text that was written into a block is read back, and keeps to the capacity of the block. -/
theorem decode_of_encoded {bs : Bytes} {capacity : Nat} (fits : bs.length ≤ capacity) {s : String}
    (written : bs = encode s) : decode bs = s ∧ s.utf8ByteSize ≤ capacity := by
  subst written
  rw [length_encode] at fits
  exact ⟨decode_encode s, fits⟩

end TypesetKernel.Utf8
