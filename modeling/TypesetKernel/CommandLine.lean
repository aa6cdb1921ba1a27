import TypesetKernel.Kernel

/-!
The program. A task either succeeds and shows its report, or fails and shows one line in red and
nothing else. The reading of the arguments, the colours, the hash of names and the straightening of
paths belong to other libraries, which the program is given.
-/

namespace TypesetKernel

/-! ## Layout -/

namespace Text

/-- Moves a text to the right of a column; a text that is too wide stays as it is. -/
def alignRight (width : Nat) (s : String) : String :=
  String.ofList (List.replicate (width - s.length) ' ') ++ s

/-- The lowest `count` hexadecimal digits of a number, in upper case. -/
def hexDigits : Nat → Nat → List Char
  | 0, _ => []
  | count + 1, n => hexDigits count (n / 16) ++ [(Nat.digitChar (n % 16)).toUpper]

/-- A word as eight hexadecimal digits behind their mark. -/
def hexWord (word : UInt32) : String := "0x" ++ String.ofList (hexDigits 8 word.toNat)

/-- Whether a character below U+0100 has no visible form: the control characters, the space that
does not break and the hyphen that is only a hint. -/
def isInvisible (c : Char) : Bool :=
  c.toNat < 0x20 || (0x7F ≤ c.toNat && c.toNat ≤ 0xA0) || c.toNat = 0xAD

/-- The inside of a character literal, for a character below U+0100. -/
def escaped (c : Char) : String :=
  match c with
  | '\x00' => "\\0"
  | '\t' => "\\t"
  | '\n' => "\\n"
  | '\r' => "\\r"
  | '\'' => "\\'"
  | '\\' => "\\\\"
  | c =>
    if isInvisible c then
      "\\u\x7b" ++ String.ofList (Nat.toDigits 16 c.toNat) ++ "\x7d"
    else c.toString

def quoted (c : Char) : String := "'" ++ escaped c ++ "'"

end Text

namespace CommandLine

/-! ## Tasks and outcomes -/

/-- What the program is asked to do. -/
inductive Task where
  /-- Show what a font metric file says. -/
  | inspect (file : String) (listChars : Bool)
  /-- Show the category codes at the start of a run. -/
  | catcodes
  /-- Start a run with the fonts of a directory. -/
  | boot (area : String)
  deriving DecidableEq, Repr

/-- What a run of the program leaves behind. -/
structure Outcome where
  code : Nat
  stdout : String := ""
  stderr : String := ""
  deriving DecidableEq, Repr

inductive Colour where
  | red
  | green
  | yellow
  deriving DecidableEq, Repr

/-- What the program takes from other libraries. -/
structure Libraries where
  /-- The task that the words of a command line ask for, or how the run ends without a task. -/
  parse : List String → Except Outcome Task
  /-- The text in a colour. -/
  paint : Colour → String → String
  hash : NameHash
  /-- The same path without detours, unless it cannot be had. -/
  straighten : String → Option String

/-- Lines of text, each with its end. -/
def unlines (lines : List String) : String := String.join (lines.map (· ++ "\n"))

def Outcome.success (lines : List String) : Outcome := { code := 0, stdout := unlines lines }

def Outcome.failure (message : String) : Outcome := { code := 1, stderr := unlines [message] }

/-! ## Font metric files -/

/-- The codes from the smallest to the largest one of a font, as far as they fit a byte. -/
def listedCodes (m : FontMetrics) : List Nat :=
  List.range' m.lower.toNat (min m.upper.toNat 255 + 1 - m.lower.toNat)

def charLine? (m : FontMetrics) (code : Nat) : Option String :=
  (m.dimensions? (UInt8.ofNat code)).map fun d =>
    let places (x : FixWord) : String := (x.toFraction.toPlaces 5).text
    "  " ++ Text.alignRight 3 (toString code) ++ " " ++ Text.quoted (Char.ofNat code)
      ++ ": wd " ++ places d.width ++ " ht " ++ places d.height ++ " dp " ++ places d.depth
      ++ " ic " ++ places d.italicCorrection

def charLines (m : FontMetrics) : List String := (listedCodes m).filterMap (charLine? m)

/-- What a font metric file says apart from its characters, behind a title. -/
def metricsLines (title : String) (m : FontMetrics) : List String :=
  [title,
    s!"  checksum:        {Text.hexWord m.header.checksum}",
    s!"  design size:     {m.header.designSize.text}pt",
    s!"  coding scheme:   {m.header.codingScheme}",
    s!"  identifier:      {m.header.identifier}",
    s!"  face:            {m.header.face.toNat}",
    s!"  seven-bit safe:  {m.header.sevenBitSafe}",
    s!"  characters:      {m.lower.toNat}..={m.upper.toNat} ({m.charInfos.length} entries)",
    s!"  tables:          {m.widths.length} widths, {m.heights.length} heights, "
      ++ s!"{m.depths.length} depths, {m.italics.length} italics",
    s!"  undecoded:       {m.undecoded.ligKern.toNat} lig/kern, {m.undecoded.kern.toNat} kern, "
      ++ s!"{m.undecoded.extensible.toNat} extensible, {m.undecoded.params.toNat} params"]

/-! ## Category codes and kernels -/

def fontLine (font : Font) (index : Nat) : String :=
  let file := if font.file.isEmpty then "-" else font.file
  s!"{Text.alignRight 3 (toString index)} \\{font.name} = {file} at {font.size.text}"

def kernelLines {hash : NameHash} {N : Type} (k : Kernel hash N) : List String :=
  k.fonts.toList.zipIdx.map (fun (font, index) => fontLine font index)
    ++ [s!"current font: \\{k.font.name}",
      s!"{k.commands.entries} command sequences in {k.commands.capacity} buckets",
      s!"mode: {k.render.mode.text}"]

/-! ## Runs -/

section Runs

variable (libraries : Libraries)

def metricsReport (file : String) (listChars : Bool) (contents : Except ReadFailure Bytes) :
    Outcome :=
  match FontMetrics.ofFile file contents with
  | .error diagnostic =>
    .failure (libraries.paint .red s!"! {diagnostic.message} [{diagnostic.check.name}]")
  | .ok metrics =>
    .success (metricsLines (libraries.paint .green file) metrics
      ++ if listChars then charLines metrics else [])

/-- The line for a character and its category code, coloured unless it is an ordinary one. -/
def catcodeLine (t : CategoryTable) (point : Nat) : String :=
  let code := t.classify point
  let line := Text.quoted (Char.ofNat point) ++ " " ++ Text.alignRight 2 (toString code.number)
    ++ " " ++ code.name
  if code = .other then line else libraries.paint .yellow line

def catcodesReport : Outcome :=
  .success ((List.range' 0x20 (0x7F - 0x20)).map (catcodeLine libraries .starting))

def bootReport (source : FontSource) : Outcome :=
  match (Kernel.boot .usual source : Except KernelError (Kernel libraries.hash Unit)) with
  | .error failure => .failure (libraries.paint .red failure.message)
  | .ok kernel => .success (kernelLines kernel)

/-- The fonts of a directory. -/
def fontsIn (area : String) : FontDirectory := { area, straighten := libraries.straighten }

/-- The paths of the files that a task may read. -/
def Task.paths : Task → List String
  | .inspect file _ => [file]
  | .catcodes => []
  | .boot area => Config.usual.builtinFonts.map fun font =>
    (fontsIn libraries area).path font.file

def Task.perform (contents : String → Except ReadFailure Bytes) : Task → Outcome
  | .inspect file listChars => metricsReport libraries file listChars (contents file)
  | .catcodes => catcodesReport libraries
  | .boot area => bootReport libraries ((fontsIn libraries area).source contents)

/-- The whole program, given the way to read a file and its arguments. -/
def run (contents : String → Except ReadFailure Bytes) (arguments : List String) : Outcome :=
  match libraries.parse arguments with
  | .error outcome => outcome
  | .ok task => task.perform libraries contents

end Runs

/-! ## The outer layer -/

/-- Why the system could not read a file. -/
def readFailure : IO.Error → ReadFailure
  | .noFileOrDirectory .. => .notFound
  | .inappropriateType _ code _ => if code = 21 then .isDirectory else .notDirectory
  | error => .other (toString error)

def fetch (path : String) : IO (Except ReadFailure Bytes) := do
  match ← (IO.FS.readBinFile path).toBaseIO with
  | .ok contents => return .ok contents.toList
  | .error error => return .error (readFailure error)

/-- Reads the files that the task needs, shows the outcome and gives the exit code. -/
def program (libraries : Libraries) (arguments : List String) : IO UInt32 := do
  let paths := match libraries.parse arguments with
    | .ok task => task.paths libraries
    | .error _ => []
  let files ← paths.mapM fun path => return (path, ← fetch path)
  let contents (path : String) := (files.lookup path).getD (.error .notFound)
  let outcome := run libraries contents arguments
  IO.print outcome.stdout
  IO.eprint outcome.stderr
  return UInt32.ofNat outcome.code

end CommandLine

end TypesetKernel
