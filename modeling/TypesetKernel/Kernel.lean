import TypesetKernel.CommandTable
import TypesetKernel.FontTable
import TypesetKernel.RenderState

/-!
The state of a run that a scanner and an interpreter work on: category codes, commands, fonts, the
lists under construction and the dimensions of the page. Loading a font also defines the command
that selects it. An operation that fails gives no new state, so it cannot leave anything behind.
-/

namespace TypesetKernel

/-! ## Configurations -/

/-- What a run starts with: the number of chains of its command table and the fonts that are loaded
before anything else. -/
structure Config where
  tableSize : Nat
  builtinFonts : List FontRequest
  deriving DecidableEq, Repr

namespace Config

/-- A thousand thousandths: the design size itself. -/
def atDesignSize : Int32 := -1000

/-- The usual configuration: roman, italic, bold and typewriter at their design sizes. -/
def usual : Config where
  tableSize := CommandTable.usualCapacity
  builtinFonts :=
    [⟨"cmr10", "rm", atDesignSize⟩, ⟨"cmti10", "it", atDesignSize⟩,
      ⟨"cmbx10", "bf", atDesignSize⟩, ⟨"cmtt10", "tt", atDesignSize⟩]

def bare : Config := { usual with builtinFonts := [] }

def addFont (c : Config) (font : FontRequest) : Config :=
  { c with builtinFonts := c.builtinFonts ++ [font] }

end Config

/-! ## Kernels -/

inductive KernelError where
  | fontLoad (file name : String) (cause : Diagnostic)
  | fontIndex (index size : Nat)
  deriving DecidableEq, Repr

def KernelError.message : KernelError → String
  | .fontLoad file name cause => s!"! Font \\{name}={file} not loadable: {cause.message}"
  | .fontIndex index size => s!"Font index {index} out of range (only {size} fonts loaded)"

structure PageDimensions where
  leftSkip : Scaled
  rightSkip : Scaled
  hsize : Scaled
  vsize : Scaled
  parIndent : Scaled
  baselineSkip : Scaled
  splitTopSkip : Scaled
  deriving DecidableEq, Repr

/-- A line of just under six and a half inches, nine inches of text, an indent of 18 points and
lines 12 points apart. -/
def PageDimensions.starting : PageDimensions where
  leftSkip := .zero
  rightSkip := .zero
  hsize := Scaled.ofUnit 0x67FFF .inch
  vsize := Scaled.ofUnit (Scaled.ofPoints 9).sp .inch
  parIndent := Scaled.ofPoints 18
  baselineSkip := Scaled.ofPoints 12
  splitTopSkip := Scaled.ofPoints 12

/-- The state of a run whose command names are spread by `hash` and whose nodes have the type `N`.
-/
structure Kernel (hash : NameHash) (N : Type) where
  catcodes : CategoryTable
  commands : CommandTable hash
  fonts : FontTable
  render : RenderState N
  page : PageDimensions
  currentFont : Nat
  deriving DecidableEq, Repr

namespace Kernel

variable {hash : NameHash} {N : Type}

/-- The state before anything is loaded or defined. -/
def blank (capacity : Nat) : Kernel hash N where
  catcodes := .starting
  commands := .empty capacity
  fonts := .empty
  render := {}
  page := .starting
  currentFont := 0

def define (k : Kernel hash N) (name : String) (code : CategoryCode) (payload : Word) :
    Kernel hash N :=
  { k with commands := k.commands.set { name, code, payload } }

/-- Loads a font, defines the command that selects it and gives the index of the font. -/
def loadFont (k : Kernel hash N) (source : FontSource) (request : FontRequest) :
    Except KernelError (Nat × Kernel hash N) :=
  match k.fonts.load source request with
  | .error cause => .error (.fontLoad request.file request.name cause)
  | .ok (index, fonts) =>
    .ok (index, { k with fonts }.define request.name .setFont (.ofIndex index))

/-- Loads fonts one after the other, up to the first that fails. -/
def loadFonts (k : Kernel hash N) (source : FontSource) :
    List FontRequest → Except KernelError (Kernel hash N)
  | [] => .ok k
  | request :: requests =>
    match k.loadFont source request with
    | .error failure => .error failure
    | .ok (_, k') => k'.loadFonts source requests

/-- The state at the start of a run. The first font of the configuration is selected, and the
commands that end a paragraph and the run are defined last, whatever the fonts are called. -/
def boot (config : Config) (source : FontSource) : Except KernelError (Kernel hash N) :=
  match (blank config.tableSize).loadFonts source config.builtinFonts with
  | .error failure => .error failure
  | .ok k =>
    let k := (k.define "par" .parEnd .zero).define "end" .stop .zero
    .ok { k with
      render := { k.render with mode := .vertical }
      currentFont := if config.builtinFonts.isEmpty then 0 else 1 }

def selectFont (k : Kernel hash N) (index : Nat) : Except KernelError (Kernel hash N) :=
  if index < k.fonts.size then .ok { k with currentFont := index }
  else .error (.fontIndex index k.fonts.size)

def font (k : Kernel hash N) : Font := (k.fonts.font? k.currentFont).getD .null

end Kernel

end TypesetKernel
