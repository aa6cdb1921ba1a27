import TypesetKernel.FixedPoint

/-!
Category codes and the commands that they mark. A category code is the lexical class of a character,
or the class of a command. The first sixteen are the classes of characters and have their customary
numbers; the last three never classify a character but mark the commands that end a paragraph, end
the run or select a font. Only the category codes of the first 128 code points can be changed; every
other code point is invalid.

A table keeps what command names currently stand for. A hash spreads the names over a fixed number
of chains. A new name goes to the front of its chain; a known name is redefined where it stands, so
within a chain the names are ordered by their first definition, newest first. Names are never
removed.
-/

namespace TypesetKernel

/-! ## Category codes -/

/-- The lexical class of a character or a command. -/
inductive CategoryCode where
  /-- Starts a command name. -/
  | escape
  | beginGroup
  | endGroup
  | mathShift
  | alignmentTab
  /-- Ends a line. -/
  | carriageReturn
  | parameter
  | superscript
  | subscript
  | ignore
  | spacer
  | letter
  | other
  | active
  | comment
  | invalid
  | parEnd
  | stop
  | setFont
  deriving DecidableEq, Repr, Inhabited

namespace CategoryCode

/-- All category codes, each at the place of its number. -/
def all : List CategoryCode :=
  [escape, beginGroup, endGroup, mathShift, alignmentTab, carriageReturn, parameter, superscript,
    subscript, ignore, spacer, letter, other, active, comment, invalid, parEnd, stop, setFont]

def number (c : CategoryCode) : Nat := all.idxOf c

/-- The category code of a number; there are nineteen. -/
def ofNumber? (n : Nat) : Option CategoryCode := all[n]?

def name : CategoryCode → String
  | escape => "Escape"
  | beginGroup => "BeginGroup"
  | endGroup => "EndGroup"
  | mathShift => "MathShift"
  | alignmentTab => "AlignmentTab"
  | carriageReturn => "CarriageReturn"
  | parameter => "Parameter"
  | superscript => "Superscript"
  | subscript => "Subscript"
  | ignore => "Ignore"
  | spacer => "Spacer"
  | letter => "Letter"
  | other => "Other"
  | active => "Active"
  | comment => "Comment"
  | invalid => "Invalid"
  | parEnd => "ParEnd"
  | stop => "Stop"
  | setFont => "SetFont"

/-- The class of a character at the start of a run: letters are letters, and the backslash, the
line ends, the percent sign, the blank, the first and the last ASCII character have their customary
classes. Every other character is just that. -/
def starting (point : Nat) : CategoryCode :=
  if point = 0x00 then ignore
  else if point = 0x0A ∨ point = 0x0D then carriageReturn
  else if point = 0x20 then spacer
  else if point = 0x25 then comment
  else if point = 0x5C then escape
  else if point = 0x7F then invalid
  else if 0x41 ≤ point ∧ point ≤ 0x5A ∨ 0x61 ≤ point ∧ point ≤ 0x7A then letter
  else other

@[simp] theorem ofNumber?_number (c : CategoryCode) : ofNumber? c.number = some c := by
  cases c <;> rfl

end CategoryCode

/-! ## Category codes of code points -/

/-- The category codes of the first 128 code points. -/
structure CategoryTable where
  codes : Vector CategoryCode 128
  deriving DecidableEq, Repr

namespace CategoryTable

def starting : CategoryTable := ⟨Vector.ofFn fun point => CategoryCode.starting point⟩

def classify (t : CategoryTable) (point : Nat) : CategoryCode := t.codes[point]?.getD .invalid

/-- Changes the category code of one of the first 128 code points. -/
def set? (t : CategoryTable) (point : Nat) (code : CategoryCode) : Option CategoryTable :=
  if bound : point < 128 then some ⟨t.codes.set point code⟩ else none

def toList (t : CategoryTable) : List CategoryCode := t.codes.toList

end CategoryTable

/-! ## Commands -/

/-- What a command name stands for: a class and a word that the class gives a meaning to. -/
structure Command where
  name : String
  code : CategoryCode
  payload : Word
  deriving DecidableEq, Repr

/-- Replaces the first command of a chain that has the name of the given one. -/
def Command.redefineIn (c : Command) : List Command → List Command
  | [] => []
  | d :: chain => if d.name = c.name then c :: chain else d :: c.redefineIn chain

/-- Spreads names over the chains of a table. Any function will do, however many names it gives the
same number. -/
abbrev NameHash := String → UInt64

/-- The commands by name. There is at least one chain. -/
structure CommandTable (hash : NameHash) where
  chains : Array (List Command)
  /-- The number of names. -/
  entries : Nat
  chains_pos : 0 < chains.size
  deriving DecidableEq, Repr

namespace CommandTable

variable {hash : NameHash}

def usualCapacity : Nat := 4098

/-- A table without commands. At least one chain is made. -/
def empty (capacity : Nat) : CommandTable hash where
  chains := Array.replicate (max capacity 1) []
  entries := 0
  chains_pos := by rw [Array.size_replicate]; omega

/-- The number of chains, which never changes. -/
def capacity (t : CommandTable hash) : Nat := t.chains.size

/-- The chain that a name belongs to. -/
def bucketOf (t : CommandTable hash) (name : String) : Nat :=
  (hash name).toNat % t.chains.size

theorem bucketOf_lt (t : CommandTable hash) (name : String) : t.bucketOf name < t.chains.size :=
  Nat.mod_lt _ t.chains_pos

def chain (t : CommandTable hash) (name : String) : List Command :=
  have := t.bucketOf_lt name
  t.chains[t.bucketOf name]

def setChain (t : CommandTable hash) (name : String) (chain : List Command) (entries : Nat) :
    CommandTable hash where
  chains := t.chains.set (t.bucketOf name) chain (t.bucketOf_lt name)
  entries := entries
  chains_pos := by rw [Array.size_set]; exact t.chains_pos

def get? (t : CommandTable hash) (name : String) : Option Command :=
  (t.chain name).find? fun c => c.name = name

/-- Redefines a known name where it stands. -/
def redefine? (t : CommandTable hash) (c : Command) : Option (CommandTable hash) :=
  if (t.get? c.name).isSome then
    some (t.setChain c.name (c.redefineIn (t.chain c.name)) t.entries)
  else none

/-- Defines a name, in front of its chain if it is new. -/
def set (t : CommandTable hash) (c : Command) : CommandTable hash :=
  (t.redefine? c).getD (t.setChain c.name (c :: t.chain c.name) (t.entries + 1))

/-- All commands, chain by chain. -/
def toList (t : CommandTable hash) : List Command := t.chains.toList.flatten

end CommandTable

end TypesetKernel
