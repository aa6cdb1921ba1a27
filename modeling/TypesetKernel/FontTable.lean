import TypesetKernel.FontMetrics.Decode

/-!
Where font metric files come from and which of them are loaded. A source turns the id of a font
file, such as `cmr10`, into the contents of the file, and can say where it looks for it. A directory
as a source looks for a file of the same name; its paths are texts whose names are separated by
slashes. The table of loaded fonts. Font 0 is the null font, every further font was loaded from a
source, and no font is ever removed or changed, so the index of a font stays good for the whole run.
The metrics of a file are decoded once and serve for every size at which the file is loaded again.
-/

namespace TypesetKernel

/-! ## Sources -/

namespace Path

def isAbsolute (path : String) : Bool := path.startsWith "/"

/-- A path within a directory. An absolute path stays as it is. -/
def join (directory path : String) : String :=
  if isAbsolute path || directory.isEmpty then path
  else if directory.endsWith "/" then directory ++ path
  else directory ++ "/" ++ path

end Path

/-- Gives the contents of font metric files. -/
structure FontSource where
  /-- Where a file is looked for, for messages. -/
  locate : String → String
  read : String → Except ReadFailure Bytes

/-- Font metric files kept in memory. -/
structure MemoryFonts where
  files : List (String × Bytes)
  deriving DecidableEq, Repr

namespace MemoryFonts

/-- Adds a file, in place of one with the same id. -/
def insert (m : MemoryFonts) (id : String) (contents : Bytes) : MemoryFonts :=
  ⟨(id, contents) :: m.files⟩

def source (m : MemoryFonts) : FontSource where
  locate id := s!"<memory>/{id}"
  read id :=
    match m.files.lookup id with
    | some contents => .ok contents
    | none => .error (.notInMemory id)

end MemoryFonts

/-- A directory of font metric files. -/
structure FontDirectory where
  area : String
  /-- The same path without detours, unless it cannot be had. -/
  straighten : String → Option String

namespace FontDirectory

def extension : String := ".tfm"

/-- The path of the file with an id; the ending may be left out of the id. -/
def path (d : FontDirectory) (id : String) : String :=
  let name := if id.endsWith extension then id else id ++ extension
  let path := Path.join d.area name
  (d.straighten path).getD path

/-- The directory as a source, given the way to read a file. -/
def source (d : FontDirectory) (contents : String → Except ReadFailure Bytes) : FontSource where
  locate := d.path
  read id := contents (d.path id)

end FontDirectory

/-! ## Loaded fonts -/

/-- What is asked for when a font is loaded. -/
structure FontRequest where
  /-- The id of the font metric file. -/
  file : String
  /-- The name of the command that selects the font. -/
  name : String
  /-- A positive number is a size in scaled points, a negative one a multiple of the design size in
  thousandths, and zero asks for the design size. -/
  atSize : Int32
  deriving DecidableEq, Repr

structure Font extends FontRequest where
  metrics : FontMetrics
  deriving DecidableEq, Repr

namespace Font

/-- The font that is there from the start. -/
def null : Font := { file := "", name := "nullfont", atSize := 0, metrics := .null }

/-- The size that a request gives a font. A multiple of the design size is rounded toward zero and
kept within the allowed range. -/
def sizeOf (designSize : FixWord) (atSize : Int32) : Scaled :=
  let design := designSize.toScaledPoints
  if atSize = 0 then ⟨design⟩
  else if 0 < atSize then ⟨atSize⟩
  else Scaled.clamped ((design.toInt * -atSize.toInt).tdiv 1000)

def size (f : Font) : Scaled := sizeOf f.metrics.header.designSize f.atSize

/-- The dimensions of a character at the size of the font. -/
def scaledDimensions? (f : Font) (code : UInt8) : Option (Scaled × Scaled × Scaled × Scaled) :=
  (f.metrics.dimensions? code).map fun d =>
    (f.size.scale d.width, f.size.scale d.height, f.size.scale d.depth,
      f.size.scale d.italicCorrection)

end Font

structure FontTable where
  /-- The fonts behind the null font, in the order in which they were loaded. -/
  loaded : Array Font
  /-- The metrics of every file decoded so far. -/
  decoded : List (String × FontMetrics)
  deriving DecidableEq, Repr

namespace FontTable

def empty : FontTable := { loaded := #[], decoded := [] }

def size (t : FontTable) : Nat := t.loaded.size + 1

/-- All fonts in the order of their indices. -/
def toList (t : FontTable) : List Font := .null :: t.loaded.toList

def font? (t : FontTable) : Nat → Option Font
  | 0 => some .null
  | index + 1 => t.loaded[index]?

/-- The metrics of a file, decoded unless they are known already. -/
def metricsOf (t : FontTable) (source : FontSource) (file : String) :
    Except Diagnostic FontMetrics :=
  match t.decoded.lookup file with
  | some metrics => .ok metrics
  | none => FontMetrics.ofFile (source.locate file) (source.read file)

def remember (t : FontTable) (file : String) (metrics : FontMetrics) : FontTable :=
  if (t.decoded.lookup file).isSome then t
  else { t with decoded := (file, metrics) :: t.decoded }

/-- Loads a font and gives its index. -/
def load (t : FontTable) (source : FontSource) (request : FontRequest) :
    Except Diagnostic (Nat × FontTable) :=
  match t.metricsOf source request.file with
  | .error diagnostic => .error diagnostic
  | .ok metrics =>
    let t' := t.remember request.file metrics
    .ok (t.size, { t' with loaded := t'.loaded.push { request with metrics } })

end FontTable

end TypesetKernel
