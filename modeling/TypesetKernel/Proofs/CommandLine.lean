import TypesetKernel.CommandLine
import TypesetKernel.Proofs.Decimal
import TypesetKernel.Proofs.FontMetrics.Decode

/-!
What is shown about a font metric file, whichever way the arguments are read and the colours are
made. In an accepted file all codes of the range are bytes, so looking up the listed codes gives the
entries of the font one by one (`map_charInfo?_listedCodes`), and the lines are those of its
characters (`forall₂_glyphLine`). Either the whole report is shown or nothing but the cause of the
failure (`inspect_all_or_nothing`).
-/

namespace TypesetKernel

/-! ## The range of a font -/

namespace FontMetrics

variable {bs : Bytes} {m : FontMetrics}

/-- There is one entry for each code from the lower to the upper end, and all codes are bytes. -/
structure Ranged (m : FontMetrics) : Prop where
  upper : m.upper.toNat ≤ 255
  lower : m.lower.toNat ≤ m.upper.toNat + 1
  length : m.charInfos.length = m.upper.toNat + 1 - m.lower.toNat

theorem ranged_of_ofBytes (accepted : ofBytes bs = .ok m) : m.Ranged := by
  obtain ⟨sound, rfl⟩ := ofBytes_eq_ok_iff.mp accepted
  obtain ⟨-, -, upper, lower, -⟩ := (firstFault?_eq_none_iff rfl).mp sound
  refine { upper, lower, length := ?_ }
  simp [stated, statedFor, Bytes.charInfosAt, Counts.chars, codeCount]

theorem isSome_dimensions? (m : FontMetrics) (code : UInt8) :
    (m.dimensions? code).isSome = (m.charInfo? code).any CharInfo.isPresent := by
  rw [dimensions?, Option.isSome_map]
  cases m.charInfo? code with
  | none => rfl
  | some info => cases present : info.isPresent <;> simp [present]

end FontMetrics

namespace CommandLine

variable {m : FontMetrics}

/-! ## The characters of a font -/

theorem listedCodes_eq (ranged : m.Ranged) :
    listedCodes m = List.range' m.lower.toNat m.charInfos.length := by
  rw [listedCodes, Nat.min_eq_left ranged.upper, ranged.length]

theorem lt_of_mem_listedCodes (ranged : m.Ranged) {code : Nat} (listed : code ∈ listedCodes m) :
    code < 256 := by
  obtain ⟨upper, lower, length⟩ := ranged
  rw [listedCodes, List.mem_range'_1] at listed
  omega

/-- The codes of the characters of a font, in the order in which they are listed. -/
def glyphs (m : FontMetrics) : List UInt8 :=
  ((listedCodes m).map UInt8.ofNat).filter fun code => (m.dimensions? code).isSome

/-- No code is cut off to a byte, so the order is kept. -/
theorem pairwise_glyphs (ranged : m.Ranged) : (glyphs m).Pairwise (· < ·) := by
  have increasing : (listedCodes m).Pairwise (· < ·) := List.pairwise_lt_range'
  refine List.Pairwise.filter _ (List.pairwise_map.mpr (increasing.imp_of_mem ?_))
  intro i j _ listed less
  have bound := lt_of_mem_listedCodes ranged listed
  rw [UInt8.lt_iff_toNat_lt, UInt8.toNat_ofNat_of_lt' (less.trans bound),
    UInt8.toNat_ofNat_of_lt' bound]
  exact less

theorem mem_listedCodes (ranged : m.Ranged) {code : UInt8} (known : (m.charInfo? code).isSome) :
    code.toNat ∈ listedCodes m := by
  rw [listedCodes_eq ranged, List.mem_range'_1]
  unfold FontMetrics.charInfo? at known
  by_cases above : m.lower.toNat ≤ code.toNat
  · rw [if_pos above, isSome_getElem?] at known
    exact ⟨above, by omega⟩
  · rw [if_neg above] at known
    cases known

theorem mem_glyphs (ranged : m.Ranged) (code : UInt8) :
    code ∈ glyphs m ↔ (m.dimensions? code).isSome := by
  rw [glyphs, List.mem_filter, and_iff_right_iff_imp]
  intro present
  rw [FontMetrics.isSome_dimensions?] at present
  have known := Option.isSome_of_any present
  exact List.mem_map.mpr ⟨code.toNat, mem_listedCodes ranged known, UInt8.ofNat_toNat⟩

/-- Looking up all listed codes gives the entries one by one. -/
theorem map_charInfo?_listedCodes (ranged : m.Ranged) :
    (listedCodes m).map (fun code => m.charInfo? (UInt8.ofNat code)) = m.charInfos.map some := by
  refine List.ext_getElem (by simp [listedCodes_eq ranged]) fun i within inside => ?_
  rw [List.length_map] at within inside
  have place : (listedCodes m)[i] = m.lower.toNat + i := by simp [listedCodes_eq ranged]
  have byte := lt_of_mem_listedCodes ranged (List.getElem_mem within)
  rw [place] at byte
  rw [List.getElem_map, List.getElem_map, place, FontMetrics.charInfo?,
    UInt8.toNat_ofNat_of_lt' byte, if_pos (Nat.le_add_right _ _), Nat.add_sub_cancel_left,
    List.getElem?_eq_getElem inside]

/-- What is found is found one by one. -/
theorem forall₂_filterMap {α β : Type} (f : α → Option β) (l : List α) :
    List.Forall₂ (fun a b => f a = some b) (l.filter fun a => (f a).isSome) (l.filterMap f) := by
  induction l with
  | nil => exact .nil
  | cons a l ih => cases found : f a <;> simp [found, ih]

theorem isSome_charLine? (m : FontMetrics) (code : Nat) :
    (charLine? m code).isSome = (m.dimensions? (UInt8.ofNat code)).isSome := Option.isSome_map

theorem forall₂_charLine? (ranged : m.Ranged) : List.Forall₂
    (fun code line => charLine? m code.toNat = some line) (glyphs m) (charLines m) := by
  have listed : charLines m
      = ((listedCodes m).map UInt8.ofNat).filterMap fun code => charLine? m code.toNat := by
    rw [charLines, List.filterMap_map]
    refine List.filterMap_congr fun code member => ?_
    rw [Function.comp_apply, UInt8.toNat_ofNat_of_lt' (lt_of_mem_listedCodes ranged member)]
  have kept : glyphs m = ((listedCodes m).map UInt8.ofNat).filter fun code =>
      (charLine? m code.toNat).isSome := by
    simp only [glyphs, isSome_charLine?, UInt8.ofNat_toNat]
  rw [listed, kept]
  exact forall₂_filterMap _ _

theorem length_charLines (ranged : m.Ranged) :
    (charLines m).length = m.charInfos.countP CharInfo.isPresent := by
  calc (charLines m).length
      = (listedCodes m).countP fun code =>
          (m.charInfo? (UInt8.ofNat code)).any CharInfo.isPresent := by
        simp only [charLines, List.length_filterMap_eq_countP, isSome_charLine?,
          FontMetrics.isSome_dimensions?]
    _ = (m.charInfos.map some).countP (Option.any CharInfo.isPresent) := by
        rw [← map_charInfo?_listedCodes ranged, List.countP_map]
        rfl
    _ = m.charInfos.countP CharInfo.isPresent := by
        rw [List.countP_map]
        rfl

/-! ## What a line says -/

/-- The characters that have an escape of their own. -/
def escapes : List (Char × String) :=
  [('\x00', "\\0"), ('\t', "\\t"), ('\n', "\\n"), ('\r', "\\r"), ('\'', "\\'"), ('\\', "\\\\")]

/-- The characters below U+0100 that cannot be seen. -/
def Hidden (c : Char) : Prop := c.toNat < 0x20 ∨ 0x7F ≤ c.toNat ∧ c.toNat ≤ 0xA0 ∨ c.toNat = 0xAD

/-- How a character stands between apostrophes: as its escape, by its number if it cannot be seen,
or as it is. -/
inductive Literal (c : Char) : String → Prop where
  | escape {text : String} (known : (c, text) ∈ escapes) : Literal c text
  | number (other : c ∉ escapes.map Prod.fst) (hidden : Hidden c) :
    Literal c ("\\u\x7b" ++ String.ofList (Nat.toDigits 16 c.toNat) ++ "\x7d")
  | plain (other : c ∉ escapes.map Prod.fst) (visible : ¬Hidden c) :
    Literal c (String.singleton c)

/-- How a fix word is shown. Of all numbers of hundred thousandths the nearest one to its size is
written, with a point before the last five digits, and the sign stays even if these are all zero. -/
inductive Shown (x : FixWord) : String → Prop where
  | rounded {units : Nat}
      (nearest : BinaryFraction.Nearest (|(x.raw.toInt : ℚ) / 2 ^ 20| * 10 ^ 5) units) :
    Shown x ((if x.raw.toInt < 0 then "-" else "") ++ toString (units / 10 ^ 5) ++ "."
      ++ String.ofList ((Nat.toDigits 10 (units % 10 ^ 5)).leftpad 5 '0'))

/-- The line for a code of a font: the code in three columns, its character and its dimensions. -/
inductive GlyphLine (m : FontMetrics) (code : UInt8) : String → Prop where
  | shows {d : CharDimensions} {character width height depth italic : String}
      (found : m.dimensions? code = some d)
      (literal : Literal (Char.ofNat code.toNat) character)
      (wd : Shown d.width width) (ht : Shown d.height height) (dp : Shown d.depth depth)
      (ic : Shown d.italicCorrection italic) :
    GlyphLine m code ("  " ++ String.ofList ((Nat.toDigits 10 code.toNat).leftpad 3 ' ') ++ " '"
      ++ character ++ "': wd " ++ width ++ " ht " ++ height ++ " dp " ++ depth ++ " ic " ++ italic)

theorem hexDigits_eq_leftpad (count n : Nat) : Text.hexDigits (count + 1) n
    = ((Nat.toDigits 16 (n % 16 ^ (count + 1))).map Char.toUpper).leftpad (count + 1) '0' := by
  have fill (width : Nat) (cs : List Char) :
      (cs.map Char.toUpper).leftpad width '0' = (cs.leftpad width '0').map Char.toUpper := by
    simp [List.leftpad]
  rw [fill]
  induction count generalizing n with
  | zero =>
    have digit : n % 16 < 16 := Nat.mod_lt _ (by decide)
    simp [Text.hexDigits, List.leftpad, Nat.toDigits_of_lt_base digit]
  | succ count ih =>
    rw [Decimal.leftpad_toDigits (by decide), List.map_append, ← ih, Text.hexDigits]
    rfl

/-- No digit of a word is cut off. -/
theorem hexWord_eq (word : UInt32) : Text.hexWord word
    = "0x" ++ String.ofList (((Nat.toDigits 16 word.toNat).map Char.toUpper).leftpad 8 '0') := by
  have bound : word.toNat < 16 ^ (7 + 1) := word.toNat_lt
  rw [Text.hexWord, hexDigits_eq_leftpad, Nat.mod_eq_of_lt bound]

theorem shown_toPlaces (x : FixWord) : Shown x (x.toFraction.toPlaces 5).text := by
  have sign : (x.toFraction.toPlaces 5).negative = decide (x.raw.toInt < 0) := rfl
  have places : (x.toFraction.toPlaces 5).places = 4 + 1 := rfl
  have nearest := BinaryFraction.nearest_toPlaces x.toFraction 5
  generalize x.toFraction.toPlaces 5 = d at sign places nearest ⊢
  rw [Decimal.text_of_places places, sign]
  simp only [decide_eq_true_eq]
  exact .rounded nearest

theorem isInvisible_iff (c : Char) : Text.isInvisible c ↔ Hidden c := by
  simp [Text.isInvisible, Hidden, or_assoc]

theorem literal_escaped (c : Char) : Literal c (Text.escaped c) := by
  unfold Text.escaped
  split
  case h_7 null tab newline carriage apostrophe backslash =>
    have other : c ∉ escapes.map Prod.fst := by
      simpa [escapes] using ⟨null, tab, newline, carriage, apostrophe, backslash⟩
    by_cases invisible : Text.isInvisible c
    · rw [if_pos invisible]
      exact .number other ((isInvisible_iff c).mp invisible)
    · rw [if_neg invisible]
      exact .plain other (mt (isInvisible_iff c).mpr invisible)
  all_goals exact .escape (by decide)

theorem alignRight_eq (width n : Nat) :
    Text.alignRight width (toString n) = String.ofList ((Nat.toDigits 10 n).leftpad width ' ') := by
  rw [← String.toList_inj, Text.alignRight, Nat.toString_eq_ofList_toDigits]
  simp [List.leftpad]

theorem glyphLine_of_charLine? {code : UInt8} {line : String}
    (shown : charLine? m code.toNat = some line) : GlyphLine m code line := by
  obtain ⟨d, found, rfl⟩ := Option.map_eq_some_iff.mp shown
  rw [UInt8.ofNat_toNat] at found
  have opening : " " ++ "'" = " '" := rfl
  have closing : "'" ++ ": wd " = "': wd " := rfl
  have line := GlyphLine.shows found (literal_escaped _) (shown_toPlaces _) (shown_toPlaces _)
    (shown_toPlaces _) (shown_toPlaces _)
  rw [← opening, ← closing, ← alignRight_eq] at line
  simpa only [Text.quoted, String.append_assoc] using line

theorem forall₂_glyphLine (ranged : m.Ranged) :
    List.Forall₂ (GlyphLine m) (glyphs m) (charLines m) :=
  (forall₂_charLine? ranged).imp fun _ _ => glyphLine_of_charLine?

theorem glyphLine_of_mem (ranged : m.Ranged) {line : String} (member : line ∈ charLines m) :
    ∃ code, GlyphLine m code line := by
  obtain ⟨code, listed, shown⟩ := List.mem_filterMap.mp member
  rw [← UInt8.toNat_ofNat_of_lt' (lt_of_mem_listedCodes ranged listed)] at shown
  exact ⟨_, glyphLine_of_charLine? shown⟩

/-! ## One line for a character -/

theorem newline_not_mem_toDigits (n : Nat) : '\n' ∉ Nat.toDigits 10 n := by
  intro member
  cases Nat.isDigit_of_mem_toDigits (by decide) (by decide) member

theorem newline_not_mem_hexDigits : ∀ n < 256, '\n' ∉ Nat.toDigits 16 n := by decide +kernel

/-- A character that would end a line is written as an escape. -/
theorem Literal.newline_not_mem {c : Char} {text : String} (literal : Literal c text) :
    '\n' ∉ text.toList := by
  cases literal with
  | escape known =>
    have none : ∀ e ∈ escapes, '\n' ∉ e.2.toList := by decide
    exact none _ known
  | number other hidden =>
    have small : c.toNat < 256 := by
      unfold Hidden at hidden
      omega
    simp [newline_not_mem_hexDigits c.toNat small]
  | plain other visible =>
    have control : c ≠ '\n' := by
      rintro rfl
      exact other (by decide)
    simpa using control.symm

theorem Shown.newline_not_mem {x : FixWord} {text : String} (shown : Shown x text) :
    '\n' ∉ text.toList := by
  obtain ⟨-⟩ := shown
  split <;> simp [newline_not_mem_toDigits]

theorem GlyphLine.newline_not_mem {code : UInt8} {line : String} (shown : GlyphLine m code line) :
    '\n' ∉ line.toList := by
  obtain ⟨-, literal, wd, ht, dp, ic⟩ := shown
  simp [newline_not_mem_toDigits, literal.newline_not_mem, wd.newline_not_mem, ht.newline_not_mem,
    dp.newline_not_mem, ic.newline_not_mem]

/-! ## Asking for a file -/

/-- The two spellings of the flag that lists the characters. -/
def charsWords : List String := ["-c", "--chars"]

/-- A word that cannot be taken for a flag or for the end of the flags. -/
def isOperand (word : String) : Bool := word.toList.head? ≠ some '-' || word = "-"

/-- The command lines that ask for a file, with or without its characters. The flag may stand before
or behind the file. Behind the end of the flags every word is an operand, whatever it looks like. -/
inductive Asks (file : String) : Bool → List String → Prop where
  | plain (operand : isOperand file) : Asks file false ["tfm", file]
  | behind (operand : isOperand file) {flag : String} (chars : flag ∈ charsWords) :
    Asks file true ["tfm", file, flag]
  | before (operand : isOperand file) {flag : String} (chars : flag ∈ charsWords) :
    Asks file true ["tfm", flag, file]
  | last : Asks file false ["tfm", "--", file]
  | beforeLast {flag : String} (chars : flag ∈ charsWords) :
    Asks file true ["tfm", flag, "--", file]

/-- What the program relies on: the library that reads arguments knows the command lines that ask
for a file. An empty path names none. -/
structure ReadsInspections (libraries : Libraries) : Prop where
  parse_eq : ∀ {file : String} {listChars : Bool} {arguments : List String}, file ≠ "" →
    Asks file listChars arguments → libraries.parse arguments = .ok (.inspect file listChars)

section Run

variable {libraries : Libraries} (contents : String → Except ReadFailure Bytes) {file : String}
  {listChars : Bool} {arguments : List String} {bs : Bytes}

theorem run_of_asks (reads : ReadsInspections libraries) (named : file ≠ "")
    (asks : Asks file listChars arguments) (readable : contents file = .ok bs) :
    run libraries contents arguments = metricsReport libraries file listChars (.ok bs) := by
  rw [run, reads.parse_eq named asks, ← readable]
  rfl

/-- A command line asks for a file that can be read. If the file is rejected, the program fails,
shows the cause and the name of the check in red, and nothing else. Otherwise it succeeds and shows
the same ten lines with or without the flag. The flag adds one line for each byte that has
dimensions, with these dimensions, in the order of the bytes, so there are as many of them as
entries that mark a character, and none if the range is empty. -/
theorem inspect_all_or_nothing (reads : ReadsInspections libraries) (named : file ≠ "")
    (asks : Asks file listChars arguments) (readable : contents file = .ok bs) :
    (∀ d, FontMetrics.ofBytes bs = .error d → run libraries contents arguments =
      { code := 1
        stdout := ""
        stderr :=
          libraries.paint .red ("! " ++ d.message ++ " [" ++ d.check.name ++ "]") ++ "\n" }) ∧
    ∀ m, FontMetrics.ofBytes bs = .ok m → ∃ (codes : List UInt8) (lines : List String),
      run libraries contents arguments =
        { code := 0
          stdout := String.join (([libraries.paint .green file,
            "  checksum:        0x" ++ String.ofList
              (((Nat.toDigits 16 m.header.checksum.toNat).map Char.toUpper).leftpad 8 '0'),
            s!"  design size:     {m.header.designSize.text}pt",
            s!"  coding scheme:   {m.header.codingScheme}",
            s!"  identifier:      {m.header.identifier}",
            s!"  face:            {m.header.face.toNat}",
            s!"  seven-bit safe:  {m.header.sevenBitSafe}",
            s!"  characters:      {m.lower.toNat}..={m.upper.toNat} ({m.charInfos.length} entries)",
            s!"  tables:          {m.widths.length} widths, {m.heights.length} heights, "
              ++ s!"{m.depths.length} depths, {m.italics.length} italics",
            s!"  undecoded:       {m.undecoded.ligKern.toNat} lig/kern, {m.undecoded.kern.toNat} kern, "
              ++ s!"{m.undecoded.extensible.toNat} extensible, {m.undecoded.params.toNat} params"]
            ++ if listChars then lines else []).map (· ++ "\n"))
          stderr := "" } ∧
      codes.Pairwise (· < ·) ∧
      (∀ code, code ∈ codes ↔ (m.dimensions? code).isSome) ∧
      List.Forall₂ (GlyphLine m) codes lines ∧
      lines.length = m.charInfos.countP (fun info => info.widthIndex ≠ 0) ∧
      (∀ line ∈ lines, '\n' ∉ line.toList) ∧
      (m.lower.toNat = m.upper.toNat + 1 → lines = []) := by
  rw [run_of_asks contents reads named asks readable]
  constructor
  · intro d rejected
    simp only [metricsReport, FontMetrics.ofFile, rejected]
    simp only [Outcome.failure, unlines, List.map_cons, List.map_nil, String.join_cons,
      String.join_nil, String.append_empty]
    rfl
  · intro m accepted
    have ranged := FontMetrics.ranged_of_ofBytes accepted
    have checksum : s!"  checksum:        {Text.hexWord m.header.checksum}"
        = "  checksum:        0x" ++ String.ofList
          (((Nat.toDigits 16 m.header.checksum.toNat).map Char.toUpper).leftpad 8 '0') := by
      have mark : "  checksum:        " ++ "0x" = "  checksum:        0x" := rfl
      rw [hexWord_eq, ← mark, String.append_assoc]
      rfl
    refine ⟨glyphs m, charLines m, ?_, pairwise_glyphs ranged, mem_glyphs ranged,
      forall₂_glyphLine ranged, length_charLines ranged, ?_, ?_⟩
    · simp only [metricsReport, FontMetrics.ofFile, accepted]
      rw [Outcome.success, metricsLines, unlines, checksum]
    · intro line member
      obtain ⟨code, shown⟩ := glyphLine_of_mem ranged member
      exact shown.newline_not_mem
    · intro empty
      have none : m.charInfos = [] := List.length_eq_zero_iff.mp (by rw [ranged.length]; omega)
      exact List.length_eq_zero_iff.mp (by rw [length_charLines ranged, none]; rfl)

end Run

/-! ## A terminal -/

/-- Reads the command lines that ask for a file and turns down all others. -/
def readInspection (words : List String) : Except Outcome Task :=
  let front := words.takeWhile (· ≠ "--")
  let operands := front.filter isOperand ++ (words.dropWhile (· ≠ "--")).tail
  let flags := front.filter fun word => !isOperand word
  match operands, flags with
  | ["tfm", file], [] => .ok (.inspect file false)
  | ["tfm", file], [flag] =>
    if flag ∈ charsWords then .ok (.inspect file true) else .error { code := 2 }
  | _, _ => .error { code := 2 }

/-- Libraries for a terminal that shows colours. No name is hashed and no path is straightened when
a file is inspected. -/
def terminal : Libraries where
  parse := readInspection
  paint
    | .red, text => "\x1b[31m" ++ text ++ "\x1b[0m"
    | .green, text => "\x1b[32m" ++ text ++ "\x1b[0m"
    | .yellow, text => "\x1b[33m" ++ text ++ "\x1b[0m"
  hash := fun _ => 0
  straighten := some

theorem readsInspections_terminal : ReadsInspections terminal where
  parse_eq := by
    intro file listChars arguments _ asks
    have command : isOperand "tfm" := by decide
    have flags : ∀ flag ∈ charsWords, flag ≠ "--" ∧ isOperand flag = false := by decide
    have ended {word : String} (operand : isOperand word) : word ≠ "--" := by
      rintro rfl
      revert operand
      decide
    cases asks with
    | plain operand => simp [terminal, readInspection, command, operand, ended]
    | behind operand chars =>
      obtain ⟨other, flag⟩ := flags _ chars
      simp [terminal, readInspection, command, operand, ended, other, flag, chars]
    | before operand chars =>
      obtain ⟨other, flag⟩ := flags _ chars
      simp [terminal, readInspection, command, operand, ended, other, flag, chars]
    | last => simp [terminal, readInspection, command]
    | beforeLast chars =>
      obtain ⟨other, flag⟩ := flags _ chars
      simp [terminal, readInspection, command, other, flag, chars]

/-- A file without bytes is rejected. In a font whose only character has the largest code this code
is listed once and the one before, which has no character, is not. A range that begins behind all
bytes is empty. -/
theorem inspect_all_or_nothing_last_code :
    let single : Bytes := [0, 13, 0, 0, 0, 254, 0, 255, 0, 2, 0, 1, 0, 1, 0, 1, 0, 0, 0, 0, 0, 0,
      0, 0, 0, 0, 0, 0, 1, 0, 0, 0, 0, 0, 0, 0, 0, 8, 0, 0, 0, 0, 0, 0, 0, 0, 0, 0, 0, 0, 0, 0]
    let behind : Bytes := [0, 10, 0, 0, 1, 0, 0, 255, 0, 1, 0, 1, 0, 1, 0, 1, 0, 0, 0, 0, 0, 0, 0, 0,
      0, 0, 0, 0, 0, 0, 0, 0, 0, 0, 0, 0, 0, 0, 0, 0]
    run terminal (fun _ => .ok []) ["tfm", "x.tfm"] =
      { code := 1
        stdout := ""
        stderr := "\x1b[31m! TFM file not large enough. [file-too-small]\x1b[0m\n" } ∧
    (∃ m line, FontMetrics.ofBytes single = .ok m ∧ GlyphLine m 255 line ∧
      (run terminal (fun _ => .ok single) ["tfm", "x.tfm", "--chars"]).stdout
        = (run terminal (fun _ => .ok single) ["tfm", "x.tfm"]).stdout ++ line ++ "\n") ∧
    ∃ m, FontMetrics.ofBytes behind = .ok m ∧ m.lower.toNat = 256 ∧
      run terminal (fun _ => .ok behind) ["tfm", "--chars", "--", "x.tfm"]
        = run terminal (fun _ => .ok behind) ["tfm", "x.tfm"] := by
  intro single behind
  have plain : Asks "x.tfm" false ["tfm", "x.tfm"] := .plain (by decide)
  have flagged : Asks "x.tfm" true ["tfm", "x.tfm", "--chars"] := .behind (by decide) (by decide)
  have closed : Asks "x.tfm" true ["tfm", "--chars", "--", "x.tfm"] := .beforeLast (by decide)
  have inspect (bs : Bytes) {listChars : Bool} {arguments : List String}
      (asks : Asks "x.tfm" listChars arguments) :=
    inspect_all_or_nothing (fun _ => .ok bs) readsInspections_terminal (by decide) asks rfl
  refine ⟨?_, ?_, ?_⟩
  · rw [(inspect [] plain).1 .fileTooSmall (by decide)]
    rfl
  · have accepted : FontMetrics.ofBytes single = .ok (FontMetrics.stated single) :=
      FontMetrics.ofBytes_eq_ok_iff.mpr ⟨by decide, rfl⟩
    obtain ⟨_, _, less, -⟩ := (inspect single plain).2 _ accepted
    obtain ⟨codes, lines, more, -, listed, lined, count, -⟩ := (inspect single flagged).2 _ accepted
    obtain ⟨line, rfl⟩ := List.length_eq_one_iff.mp (count.trans (by decide))
    obtain ⟨code, rest, shown, ended, rfl⟩ := List.forall₂_cons_right_iff.mp lined
    obtain rfl := List.forall₂_nil_right_iff.mp ended
    obtain rfl : 255 = code := List.mem_singleton.mp ((listed 255).mpr (by decide))
    refine ⟨_, line, accepted, shown, ?_⟩
    rw [less, more]
    simp [String.append_assoc]
  · have accepted : FontMetrics.ofBytes behind = .ok (FontMetrics.stated behind) :=
      FontMetrics.ofBytes_eq_ok_iff.mpr ⟨by decide, rfl⟩
    obtain ⟨_, _, less, -⟩ := (inspect behind plain).2 _ accepted
    obtain ⟨codes, lines, more, -, -, -, -, -, empty⟩ := (inspect behind closed).2 _ accepted
    refine ⟨_, accepted, by decide, ?_⟩
    rw [less, more, empty (by decide)]
    rfl

end CommandLine

end TypesetKernel
