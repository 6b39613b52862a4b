/-!
# Bytes and text

Input is never decoded on its way through the library: a line is the bytes between two line
breaks, whatever they encode. Bytes are held as plain lists, so that every statement about a
stretch of input is a statement about `List`, and text that the library writes itself enters
through `utf8`.
-/

namespace Linemark

/-- A stretch of input or output. -/
abbrev Bytes := List UInt8

/-- The byte LF, `'\n'`. -/
def lineFeed : UInt8 := 0x0A

/-- The byte CR, `'\r'`. -/
def carriageReturn : UInt8 := 0x0D

/-- A byte that ends a line. -/
def isBreak (b : UInt8) : Bool := b == lineFeed || b == carriageReturn

theorem isBreak_iff {b : UInt8} : isBreak b = true ↔ b = lineFeed ∨ b = carriageReturn := by
  simp [isBreak]

/-- The UTF-8 encoding of a text. -/
def utf8 (text : String) : Bytes := text.toList.flatMap String.utf8EncodeChar

@[simp] theorem utf8_empty : utf8 "" = [] := rfl

@[simp] theorem utf8_append (s t : String) : utf8 (s ++ t) = utf8 s ++ utf8 t := by
  simp [utf8]

/-! ## Decimal numbers

Numbers are written without leading zeros. They are read more liberally: a single plus sign may
stand in front, and any number of leading zeros. -/

/-- A number in decimal digits. -/
def decimal (n : Nat) : String := String.ofList (Nat.toDigits 10 n)

/-- Reads decimal digits, at least one. -/
def readDigits? (digits : List Char) : Option Nat :=
  if digits.isEmpty || !digits.all Char.isDigit then none
  else some (Nat.ofDigitChars 10 digits 0)

/-- Reads a decimal number with an optional plus sign. -/
def readDecimal? : List Char → Option Nat
  | '+' :: digits => readDigits? digits
  | digits => readDigits? digits

/-! ## Escaped bytes

Any byte can be written in printable characters: most stand for themselves, the others are written
as a backslash and what it introduces. No two bytes are written alike. -/

/-- A digit of a hexadecimal number. -/
def hexDigit (n : Nat) : UInt8 := (Nat.digitChar n).toUInt8

/-- A byte in printable characters: itself, or a backslash with a letter or with `x` and two
hexadecimal digits. Quotes and the backslash are escaped too. -/
def escaped (b : UInt8) : Bytes :=
  if b = 0x09 then utf8 "\\t"
  else if b = 0x0D then utf8 "\\r"
  else if b = 0x0A then utf8 "\\n"
  else if b = 0x27 then utf8 "\\'"
  else if b = 0x22 then utf8 "\\\""
  else if b = 0x5C then utf8 "\\\\"
  else if 0x20 ≤ b ∧ b ≤ 0x7E then [b]
  else utf8 "\\x" ++ [hexDigit (b.toNat / 16), hexDigit (b.toNat % 16)]

/-! ## Bytes as they are shown

A line may hold any bytes, but what is shown is always well-formed UTF-8 of the same length:
every byte that is not part of a well-formed encoding of a scalar value is shown as `?`. The
length is kept so that a mark beneath a column stays beneath it.

The well-formed encodings are those of the Unicode table of byte ranges: no encoding is longer
than it need be, none encodes a surrogate, and none a number above 10FFFF. Two such encodings in a
byte string never overlap, so reading from the left finds all of them. -/

/-- A byte that goes on with an encoding. -/
def isContinuation (b : UInt8) : Bool := 0x80 ≤ b && b ≤ 0xBF

/-- The bytes that may be second after a first byte of an encoding of more than one byte, as a
range, and the length of the encoding. -/
def encodingForm? (first : UInt8) : Option (Nat × UInt8 × UInt8) :=
  if first < 0xC2 then none
  else if first ≤ 0xDF then some (2, 0x80, 0xBF)
  else if first = 0xE0 then some (3, 0xA0, 0xBF)
  else if first = 0xED then some (3, 0x80, 0x9F)
  else if first ≤ 0xEF then some (3, 0x80, 0xBF)
  else if first = 0xF0 then some (4, 0x90, 0xBF)
  else if first ≤ 0xF3 then some (4, 0x80, 0xBF)
  else if first = 0xF4 then some (4, 0x80, 0x8F)
  else none

/-- The length of the well-formed encoding that a byte string starts with; zero if it starts with
none. -/
def scalarLength : Bytes → Nat
  | [] => 0
  | first :: rest =>
    if first ≤ 0x7F then 1
    else
      match encodingForm? first, rest with
      | some (2, low, high), b :: _ => if low ≤ b && b ≤ high then 2 else 0
      | some (3, low, high), b :: c :: _ =>
        if low ≤ b && b ≤ high && isContinuation c then 3 else 0
      | some (4, low, high), b :: c :: d :: _ =>
        if low ≤ b && b ≤ high && isContinuation c && isContinuation d then 4 else 0
      | _, _ => 0

/-- What is shown for a byte that is part of no encoding. -/
def replacement : UInt8 := 0x3F

/-- Adds bytes to a display. The first `kept` of them belong to an encoding that has begun. -/
def displayFrom (kept : Nat) (shown : Array UInt8) : Bytes → Array UInt8
  | [] => shown
  | b :: rest =>
    match kept with
    | n + 1 => displayFrom n (shown.push b) rest
    | 0 =>
      match scalarLength (b :: rest) with
      | 0 => displayFrom 0 (shown.push replacement) rest
      | n + 1 => displayFrom n (shown.push b) rest

/-- The bytes that are shown for a line. -/
def display (bs : Bytes) : Bytes := (displayFrom 0 #[] bs).toList

private theorem size_displayFrom (kept : Nat) (shown : Array UInt8) (bs : Bytes) :
    (displayFrom kept shown bs).size = shown.size + bs.length := by
  fun_induction displayFrom kept shown bs <;> simp_all <;> omega

@[simp] theorem length_display (bs : Bytes) : (display bs).length = bs.length := by
  simp [display, size_displayFrom]

end Linemark
