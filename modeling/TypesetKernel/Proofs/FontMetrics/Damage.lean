import Mathlib.Tactic.IntervalCases
import TypesetKernel.Proofs.FontMetrics.Decode

/-!
Damage that is always noticed. The counts of an accepted file are in balance with each other and
with its size, and any eleven of them determine the twelfth (`fault?_of_set?`). So a file is
rejected for its bytes after any one count was changed, and also after it was cut off or went on
behind its end (`damage_rejected`).
-/

namespace TypesetKernel

/-! ## One count changed -/

namespace Bytes

variable {file : Bytes} {offset other : Nat}

/-- The bytes with another number in the two bytes at an offset. -/
def setHalf (file : Bytes) (offset : Nat) (n : UInt16) : Bytes :=
  file.take offset ++ ofHalf n ++ file.drop (offset + 2)

theorem length_setHalf (inside : offset + 2 ≤ file.length) (n : UInt16) :
    (file.setHalf offset n).length = file.length := by
  simp only [setHalf, List.length_append, List.length_take, List.length_drop, length_ofHalf]
  omega

theorem halfAt_setHalf_self (inside : offset + 2 ≤ file.length) (n : UInt16) :
    (file.setHalf offset n).halfAt offset = n.toNat := by
  have before : (file.take offset).length = offset := by
    rw [List.length_take]
    omega
  have part : ((file.setHalf offset n).drop offset).take 2 = ofHalf n := by
    rw [setHalf, List.append_assoc, List.drop_left' before, List.take_left' (length_ofHalf n)]
  rw [halfAt, part, value_ofHalf]

theorem halfAt_setHalf_of_apart (inside : offset + 2 ≤ file.length) (n : UInt16)
    (apart : other + 2 ≤ offset ∨ offset + 2 ≤ other) :
    (file.setHalf offset n).halfAt other = file.halfAt other := by
  have before : (file.take offset).length = offset := by
    rw [List.length_take]
    omega
  refine congrArg value (part_congr fun i low high => ?_)
  rw [setHalf]
  rcases apart with ahead | behind
  · rw [List.append_assoc, List.getElem?_append_left (by omega),
      List.getElem?_take_of_lt (by omega)]
  · rw [List.getElem?_append_right (by simp [before]; omega), List.getElem?_drop]
    congr 1
    simp [before]
    omega

/-- A beginning has the numbers of the whole as far as it goes. -/
theorem halfAt_of_prefix {whole start : Bytes} (begins : start <+: whole)
    (inside : offset + 2 ≤ start.length) : whole.halfAt offset = start.halfAt offset := by
  obtain ⟨rest, rfl⟩ := begins
  refine congrArg value (part_congr fun i _ high => ?_)
  exact List.getElem?_append_left (by omega)

end Bytes

namespace Counts

variable {file : Bytes} {c other : Counts} {place size : Nat} {count : UInt16}

theorem set?_stated (room : 24 ≤ file.length) (isCount : place < 12) (count : UInt16) :
    (stated file).set? place count = some (stated (file.setHalf (2 * place) count)) := by
  have inside : 2 * place + 2 ≤ file.length := by omega
  have changed : (stated file).toList.set place count
      = (stated (file.setHalf (2 * place) count)).toList := by
    apply List.ext_getElem
    · simp [toList_stated]
    · intro i _ _
      simp only [toList_stated, List.getElem_set, List.getElem_map, List.getElem_range]
      by_cases same : place = i
      · subst same
        rw [if_pos rfl, Bytes.halfAt_setHalf_self inside, UInt16.ofNat_toNat]
      · rw [if_neg same, Bytes.halfAt_setHalf_of_apart inside _ (by omega)]
  rw [set?, if_pos isCount, changed, ofList?_toList]

/-- A change of one count upsets the balance: the numbers of words have a fixed sum, and in a range
that is not turned around each end determines the other. -/
theorem fault?_of_set? (sound : c.fault? size = none) (set : c.set? place count = some other)
    (changed : c.toList[place]? ≠ some count) : other.fault? size ≠ none := by
  intro soundToo
  obtain ⟨length, balance, upper, lower, -⟩ := fault?_eq_none_iff.mp sound
  obtain ⟨length', balance', upper', lower', -⟩ := fault?_eq_none_iff.mp soundToo
  have isCount : place < 12 := by
    by_contra outside
    rw [set?, if_neg outside] at set
    cases set
  -- Place by place, eleven numbers are what they were.
  interval_cases place
  all_goals
    cases set
    simp only [toList, List.getElem?_cons_zero, List.getElem?_cons_succ, ne_eq, Option.some.injEq,
      ← UInt16.toNat_inj] at changed
    simp only [words, decodedWords, chars, codeCount, TableSizes.words] at *
    omega

end Counts

namespace FontMetrics

variable {file other : Bytes} {m : FontMetrics}

/-- The bytes are rejected for what they are, and not for want of any. -/
def Malformed (bs : Bytes) : Prop := ∃ d, ofBytes bs = .error d ∧ d.kind = .format

theorem malformed_of_fault {bs : Bytes} (faulty : firstFault? bs.length bs ≠ none) :
    Malformed bs := by
  obtain ⟨fault, found⟩ := Option.ne_none_iff_exists'.mp faulty
  have rejected : verdict bs.length bs = .error fault := by rw [verdict, found]
  exact ⟨fault, (ofBytes_eq_verdict bs).trans rejected, kind_of_verdict rejected⟩

/-- An accepted file has room for its counts, and these break no rule. -/
theorem counts_of_sound (sound : firstFault? file.length file = none) :
    24 ≤ file.length ∧ (Counts.stated file).fault? file.length = none := by
  obtain ⟨length, balance, upper, lower, recipes, -⟩ := (firstFault?_eq_none_iff rfl).mp sound
  have header := (Counts.stated file).header_within
  exact ⟨by omega, Counts.fault?_eq_none_iff.mpr ⟨length, balance, upper, lower, recipes⟩⟩

theorem malformed_setHalf (accepted : ofBytes file = .ok m) {place : Nat} (isCount : place < 12)
    {count : UInt16} (changed : count.toNat ≠ file.halfAt (2 * place)) :
    Malformed (file.setHalf (2 * place) count) := by
  obtain ⟨room, sound⟩ := counts_of_sound (ofBytes_eq_ok_iff.mp accepted).1
  have set := Counts.set?_stated room isCount count
  have different : (Counts.stated file).toList[place]? ≠ some count := by
    intro same
    rw [Counts.toList_stated, List.getElem?_map, List.getElem?_range isCount, Option.map_some,
      Option.some.injEq] at same
    rw [← same, Bytes.toNat_ofNat_halfAt] at changed
    exact changed rfl
  have faulty := Counts.fault?_of_set? sound set different
  apply malformed_of_fault
  intro soundToo
  rw [← Bytes.length_setHalf (show 2 * place + 2 ≤ file.length by omega) count] at faulty
  exact faulty (counts_of_sound soundToo).2

/-- A file that says the same about its length as an accepted file, but is of another length. -/
theorem malformed_of_length (accepted : ofBytes file = .ok m)
    (claims : other.halfAt 0 = file.halfAt 0) (length : other.length ≠ file.length) :
    Malformed other := by
  apply malformed_of_fault
  intro soundToo
  have whole := ((firstFault?_eq_none_iff rfl).mp (ofBytes_eq_ok_iff.mp accepted).1).1
  have wholeToo := ((firstFault?_eq_none_iff rfl).mp soundToo).1
  simp only [Counts.stated, Bytes.toNat_ofNat_halfAt] at whole wholeToo
  omega

/-- After any one of the twelve counts of an accepted file was changed to any other number, and also
after any bytes were cut off its end or put behind it, it is rejected for its bytes. -/
theorem damage_rejected (accepted : ofBytes file = .ok m) :
    (∀ place < 12, ∀ count : UInt16, count.toNat ≠ file.halfAt (2 * place) →
      Malformed (file.setHalf (2 * place) count)) ∧
    ∀ other, other ≠ file → other <+: file ∨ file <+: other → Malformed other := by
  refine ⟨fun place isCount count changed => malformed_setHalf accepted isCount changed, ?_⟩
  intro other different related
  have room := (counts_of_sound (ofBytes_eq_ok_iff.mp accepted).1).1
  by_cases short : other.length < 24
  · apply malformed_of_fault
    simp [firstFault?, short]
  have alike : other.halfAt 0 = file.halfAt 0 ∧ other.length ≠ file.length := by
    rcases related with cut | extended
    · exact ⟨(Bytes.halfAt_of_prefix cut (by omega)).symm,
        fun same => different (cut.eq_of_length same)⟩
    · exact ⟨Bytes.halfAt_of_prefix extended (by omega),
        fun same => different (extended.eq_of_length same.symm).symm⟩
  exact malformed_of_length accepted alike.1 alike.2

/-- A character and its width. The range that is moved, cut to nothing, or turned around by one, a
byte too few and a byte too many. -/
theorem damage_rejected_range :
    let file : Bytes := [0, 8, 0, 0, 0, 65, 0, 65, 0, 1, 0, 0, 0, 0, 0, 0, 0, 0, 0, 0, 0, 0, 0, 0,
      0, 0, 0, 0, 0, 0, 0, 0]
    ∃ m, ofBytes file = .ok m ∧ Malformed (file.setHalf 4 0) ∧ Malformed (file.setHalf 6 64) ∧
      Malformed (file.setHalf 4 67) ∧ Malformed (file.take 31) ∧ Malformed (file ++ [0]) := by
  intro file
  have accepted : ofBytes file = .ok (stated file) := ofBytes_eq_ok_iff.mpr ⟨by decide, rfl⟩
  obtain ⟨counts, lengths⟩ := damage_rejected accepted
  exact ⟨_, accepted, counts 2 (by decide) 0 (by decide), counts 3 (by decide) 64 (by decide),
    counts 2 (by decide) 67 (by decide),
    lengths _ (by decide) (.inl (List.take_prefix _ _)),
    lengths _ (by decide) (.inr (List.prefix_append _ _))⟩

end FontMetrics

end TypesetKernel
