/-!
# Item codes of typed arrays

A typed array names its item kind by one letter, which fixes whether the items are signed,
unsigned, floating point or characters, and how wide they are.
-/

set_option autoImplicit false

namespace Stowage

/-- What the items of a typed array are. -/
inductive ItemKind where
  | signed
  | unsigned
  | float
  | character
  deriving DecidableEq, Repr

/-- The item code of a typed array. -/
inductive ItemCode where
  | signedByte
  | unsignedByte
  | signedShort
  | unsignedShort
  | signedInt
  | unsignedInt
  | signedLong
  | unsignedLong
  | signedQuad
  | unsignedQuad
  | single
  | double
  | wide
  deriving DecidableEq, Repr

namespace ItemCode

/-- Every item code. -/
def all : List ItemCode :=
  [.signedByte, .unsignedByte, .signedShort, .unsignedShort, .signedInt, .unsignedInt,
   .signedLong, .unsignedLong, .signedQuad, .unsignedQuad, .single, .double, .wide]

/-- The letter of a code. -/
def letter : ItemCode → Char
  | .signedByte => 'b'
  | .unsignedByte => 'B'
  | .signedShort => 'h'
  | .unsignedShort => 'H'
  | .signedInt => 'i'
  | .unsignedInt => 'I'
  | .signedLong => 'l'
  | .unsignedLong => 'L'
  | .signedQuad => 'q'
  | .unsignedQuad => 'Q'
  | .single => 'f'
  | .double => 'd'
  | .wide => 'u'

/-- Bytes per item. -/
def size : ItemCode → Nat
  | .signedByte | .unsignedByte => 1
  | .signedShort | .unsignedShort => 2
  | .signedInt | .unsignedInt | .single | .wide => 4
  | .signedLong | .unsignedLong | .signedQuad | .unsignedQuad | .double => 8

/-- What the items are. -/
def kind : ItemCode → ItemKind
  | .signedByte | .signedShort | .signedInt | .signedLong | .signedQuad => .signed
  | .unsignedByte | .unsignedShort | .unsignedInt | .unsignedLong | .unsignedQuad => .unsigned
  | .single | .double => .float
  | .wide => .character

/-- The code with a given letter. -/
def ofLetter? (letter : Char) : Option ItemCode := all.find? (·.letter == letter)

theorem ofLetter?_letter (code : ItemCode) : ofLetter? code.letter = some code := by
  cases code <;> decide

theorem size_pos (code : ItemCode) : 0 < code.size := by cases code <;> decide

end ItemCode

end Stowage
