/-!
Bytes and what is read from them. `Bytes.value` reads a byte string as a number, most significant
byte first, and `Bytes.ofNat` writes a number in a given number of bytes, dropping what does not
fit. A stream holds bytes, reports a size, and stands at an offset. The reported size is what the
stream says about itself; only the bytes that it really holds can be read. Every operation on a
stream either succeeds completely or fails with the offset at which it was asked to start, and a
failing one leaves the stream as it was.

Bytes are read as UTF-8 text, whatever they are. The reader goes byte by byte and remembers what it
still expects of an opened character. A byte that cannot continue the opened character ends it: one
replacement character stands for the bytes before it, and the byte itself is read afresh. So every
longest beginning of a character that does not come to its end, and every byte that cannot begin a
character, gives exactly one replacement character.
-/

namespace TypesetKernel

/-! ## Byte strings -/

/-- A byte string, such as the contents of a file. -/
abbrev Bytes := List UInt8

inductive ByteOrder where
  | big
  | little
  deriving DecidableEq, Repr

namespace Bytes

/-- The number that the bytes denote, most significant byte first. -/
def value (bs : Bytes) : Nat := bs.foldl (fun n b => 256 * n + b.toNat) 0

/-- The lowest `width` bytes of a number, most significant byte first. -/
def ofNat : Nat → Nat → Bytes
  | 0, _ => []
  | width + 1, n => ofNat width (n / 256) ++ [UInt8.ofNat n]

def ofHalf (n : UInt16) : Bytes := ofNat 2 n.toNat

def ofWord (n : UInt32) : Bytes := ofNat 4 n.toNat

@[simp] theorem length_ofNat (width n : Nat) : (ofNat width n).length = width := by
  induction width generalizing n with
  | zero => rfl
  | succ width ih => simp [ofNat, ih]

@[simp] theorem length_ofHalf (n : UInt16) : (ofHalf n).length = 2 := length_ofNat 2 _

@[simp] theorem length_ofWord (n : UInt32) : (ofWord n).length = 4 := length_ofNat 4 _

end Bytes

def ByteOrder.value : ByteOrder → Bytes → Nat
  | .big, bs => Bytes.value bs
  | .little, bs => Bytes.value bs.reverse

/-! ## Files that cannot be read -/

/-- Why a file could not be read. -/
inductive ReadFailure where
  | notFound
  | isDirectory
  /-- The path passes through a file as if it were a directory. -/
  | notDirectory
  /-- The path, or one name in it, is longer than file systems allow. -/
  | nameTooLong
  /-- The path contains the character that ends names in file systems. -/
  | nulInName
  /-- No file of this name is kept in memory. -/
  | notInMemory (id : String)
  /-- Anything else, in the words of the system. -/
  | other (message : String)
  deriving DecidableEq, Repr

def ReadFailure.message : ReadFailure → String
  | .notFound => "No such file or directory (os error 2)"
  | .isDirectory => "Is a directory (os error 21)"
  | .notDirectory => "Not a directory (os error 20)"
  | .nameTooLong => "File name too long (os error 36)"
  | .nulInName => "file name contained an unexpected NUL byte"
  | .notInMemory id => s!"no virtual font file {id}"
  | .other message => message

/-! ## Streams -/

/-- A positioned stream of bytes. -/
structure ByteStream where
  /-- The bytes that can really be read. -/
  bytes : Array UInt8
  /-- The size that the stream reports. -/
  size : Nat
  /-- The current position, in bytes from the start. -/
  offset : Nat
  order : ByteOrder
  deriving DecidableEq, Repr

/-- An operation would have passed the end of the stream. -/
structure EndOfStream where
  offset : Nat
  deriving DecidableEq, Repr

def EndOfStream.message (e : EndOfStream) : String :=
  s!"unexpected end of stream at offset {e.offset}"

namespace ByteStream

/-- A computation that reads from a stream; the stream outlives a failure. -/
abbrev Reader (α : Type) := EStateM EndOfStream ByteStream α

/-- A stream at the start of some bytes that reports a size of its own choice. -/
def claiming (bs : Bytes) (size : Nat) : ByteStream :=
  { bytes := bs.toArray, size, offset := 0, order := .big }

/-- A stream at the start of some bytes that reports their number. -/
def ofBytes (bs : Bytes) : ByteStream := claiming bs bs.length

/-- The bytes that the stream holds. -/
def contents (s : ByteStream) : Bytes := s.bytes.toList

/-- Moves to an absolute offset; the very end of the bytes is allowed. -/
def seek (target : Nat) : Reader Unit := fun s =>
  if target ≤ s.bytes.size then .ok () { s with offset := target } else .error ⟨target⟩ s

def take (n : Nat) : Reader Bytes := fun s =>
  if s.offset + n ≤ s.bytes.size then
    .ok (s.bytes.extract s.offset (s.offset + n)).toList { s with offset := s.offset + n }
  else .error ⟨s.offset⟩ s

/-- Reads the number that the next `width` bytes denote in the current order. -/
def number (width : Nat) : Reader Nat := do
  let bs ← take width
  return (← get).order.value bs

def byte : Reader UInt8 := return UInt8.ofNat (← number 1)

def half : Reader UInt16 := return UInt16.ofNat (← number 2)

def word : Reader UInt32 := return UInt32.ofNat (← number 4)

@[simp] theorem contents_claiming (bs : Bytes) (size : Nat) :
    (claiming bs size).contents = bs := rfl

@[simp] theorem contents_ofBytes (bs : Bytes) : (ofBytes bs).contents = bs := rfl

theorem seek_apply (target : Nat) (s : ByteStream) :
    seek target s = if target ≤ s.contents.length then .ok () { s with offset := target }
      else .error ⟨target⟩ s := rfl

/-- A read that fits delivers the bytes behind the offset and moves past them. -/
theorem take_apply (n : Nat) (s : ByteStream) :
    take n s = if s.offset + n ≤ s.contents.length then
        .ok ((s.contents.drop s.offset).take n) { s with offset := s.offset + n }
      else .error ⟨s.offset⟩ s := by
  have read : (s.bytes.extract s.offset (s.offset + n)).toList
      = (s.contents.drop s.offset).take n := by simp [contents]
  simp only [take, read]
  rfl

end ByteStream

/-! ## Text -/

namespace Utf8

/-- Stands for bytes that are not text. -/
def replacement : Char := '\uFFFD'

/-- A character of which some bytes are still owed. -/
structure Opened where
  /-- The bits read so far. -/
  bits : Nat
  /-- How many bytes follow the next one. -/
  more : Nat
  /-- The least value of the next byte. -/
  low : UInt8
  /-- The greatest value of the next byte. -/
  high : UInt8
  deriving DecidableEq, Repr

/-- Reads the first byte of a character: the characters it completes and what it opens. The limits
on the second byte exclude overlong forms, surrogates and numbers above the last code point. -/
def start (b : UInt8) : List Char × Option Opened :=
  let n := b.toNat
  if n < 0x80 then ([Char.ofNat n], none)
  else if n < 0xC2 then ([replacement], none)
  else if n < 0xE0 then ([], some ⟨n % 0x20, 0, 0x80, 0xBF⟩)
  else if n < 0xF0 then
    let low := if n = 0xE0 then 0xA0 else 0x80
    let high := if n = 0xED then 0x9F else 0xBF
    ([], some ⟨n % 0x10, 1, low, high⟩)
  else if n < 0xF5 then
    let low := if n = 0xF0 then 0x90 else 0x80
    let high := if n = 0xF4 then 0x8F else 0xBF
    ([], some ⟨n % 0x08, 2, low, high⟩)
  else ([replacement], none)

/-- Reads one byte: the characters it completes and what is open behind it. -/
def step : Option Opened → UInt8 → List Char × Option Opened
  | none, b => start b
  | some o, b =>
    if o.low ≤ b ∧ b ≤ o.high then
      let bits := o.bits * 0x40 + b.toNat % 0x40
      match o.more with
      | 0 => ([Char.ofNat bits], none)
      | more + 1 => ([], some ⟨bits, more, 0x80, 0xBF⟩)
    else
      let (chars, rest) := start b
      (replacement :: chars, rest)

/-- The characters of the bytes behind an opened character. -/
def chars : Option Opened → Bytes → List Char
  | none, [] => []
  | some _, [] => [replacement]
  | o, b :: bs => (step o b).1 ++ chars (step o b).2 bs

def decode (bs : Bytes) : String := String.ofList (chars none bs)

def encode (s : String) : Bytes := s.toUTF8.toList

end Utf8

end TypesetKernel
