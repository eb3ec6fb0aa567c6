import Stowage.Fault.Basic
import Stowage.Text.DecimalDigit

/-!
# Tokens of descriptor text

Descriptor text is made of words, integers and single marks. `Scan.ofText` splits a text: blanks
and comments fall away, an integer is an optional minus sign and a maximal run of decimal digits,
a word is a maximal run of ASCII letters, digits and underscores that does not start with a digit,
and integers are tried before words. The scan stops at the first character that starts none of
these; what was read before it is kept, because a reader of the tokens may refuse them earlier.

The scan walks through the characters one at a time. A piece that is longer than one character
says how many more belong to it, and the walk passes over those.
-/

set_option autoImplicit false

namespace Stowage.Descriptor

/-- A word with a meaning of its own. -/
inductive Keyword where
  | define
  | as
  | vlen
  | array
  | enum
  | compound
  deriving DecidableEq, Repr

/-- The spelling of a keyword. -/
def Keyword.text : Keyword → String
  | .define => "define"
  | .as => "as"
  | .vlen => "vlen"
  | .array => "array"
  | .enum => "enum"
  | .compound => "compound"

/-- Every keyword. -/
def Keyword.all : List Keyword := [define, as, vlen, array, enum, compound]

/-- The keyword with a spelling. -/
def Keyword.ofText? (text : String) : Option Keyword := all.find? (·.text == text)

/-- A character with a meaning of its own. -/
inductive Mark where
  | openBrace
  | closeBrace
  | less
  | greater
  | openParen
  | closeParen
  | comma
  | colon
  | equals
  | atSign
  deriving DecidableEq, Repr

/-- The character of a mark. -/
def Mark.char : Mark → Char
  | .openBrace => '\x7b'
  | .closeBrace => '\x7d'
  | .less => '<'
  | .greater => '>'
  | .openParen => '('
  | .closeParen => ')'
  | .comma => ','
  | .colon => ':'
  | .equals => '='
  | .atSign => '@'

/-- Every mark. -/
def Mark.all : List Mark :=
  [openBrace, closeBrace, less, greater, openParen, closeParen, comma, colon, equals, atSign]

/-- The mark with a character. -/
def Mark.ofChar? (c : Char) : Option Mark := all.find? (·.char == c)

/-- What a token says. -/
inductive Lexeme where
  | identifier (name : String)
  | integer (value : Int)
  | keyword (word : Keyword)
  | mark (mark : Mark)
  deriving DecidableEq, Repr

/-- The text of a token in a message; an integer is written anew. -/
def Lexeme.text : Lexeme → String
  | .identifier name => name
  | .integer value => toString value
  | .keyword word => word.text
  | .mark m => String.singleton m.char

/-- A token and where it starts. -/
structure Token where
  /-- What the token says. -/
  lexeme : Lexeme
  /-- Where the token starts. -/
  position : Position
  deriving DecidableEq, Repr

/-! ### Character classes -/

/-- Characters that separate tokens and have no meaning: newline among them. -/
def isBlank (c : Char) : Bool := c == ' ' || c == '\t' || c == '\r' || c == '\n'

/-- Characters that start a word. -/
def startsWord (c : Char) : Bool := c.isAlpha || c == '_'

/-- Characters that continue a word. -/
def continuesWord (c : Char) : Bool := c.isAlphanum || c == '_'

/-- The word with a spelling: a keyword or an identifier. -/
def Lexeme.ofWord (word : List Char) : Lexeme :=
  let text := String.ofList word
  match Keyword.ofText? text with
  | some found => .keyword found
  | none => .identifier text

/-! ### Pieces -/

/-- What starts at a character, and how many more characters belong to it. -/
inductive Piece where
  | skip (more : Nat)
  | token (lexeme : Lexeme) (more : Nat)
  | illegal

/-- The piece that a character starts. -/
def pieceAt (c : Char) (rest : List Char) : Piece :=
  if isBlank c then .skip 0
  else if DecimalDigit.isDigit c then
    let digits := rest.takeWhile DecimalDigit.isDigit
    .token (.integer (DecimalDigit.toNat (c :: digits))) digits.length
  else if c == '-' && (rest.head?.any DecimalDigit.isDigit) then
    let digits := rest.takeWhile DecimalDigit.isDigit
    .token (.integer (-(DecimalDigit.toNat digits : Int))) digits.length
  else if startsWord c then
    let word := rest.takeWhile continuesWord
    .token (.ofWord (c :: word)) word.length
  else if c == '#' then .skip (rest.takeWhile (· != '\n')).length
  else
    match Mark.ofChar? c with
    | some found => .token (.mark found) 0
    | none => .illegal

/-! ### The scan -/

/-- The position after a character. -/
def advance (position : Position) (c : Char) : Position :=
  if c = '\n' then ⟨position.line + 1, 1⟩ else ⟨position.line, position.column + 1⟩

/-- The tokens of a text up to its end or to a character that starts none. -/
structure Scan where
  /-- The tokens in order. -/
  tokens : List Token
  /-- The fault that stopped the scan, unless it reached the end. -/
  stop : Option Fault
  deriving DecidableEq, Repr

/-- Scans from a position, passing over `skip` characters first. -/
def scanFrom : (skip : Nat) → Position → List Char → Scan
  | _, _, [] => ⟨[], none⟩
  | skip + 1, position, c :: rest => scanFrom skip (advance position c) rest
  | 0, position, c :: rest =>
    match pieceAt c rest with
    | .skip more => scanFrom more (advance position c) rest
    | .token lexeme more =>
      let after := scanFrom more (advance position c) rest
      ⟨⟨lexeme, position⟩ :: after.tokens, after.stop⟩
    | .illegal => ⟨[], some (.grammar (.illegalCharacter c position))⟩

/-- The scan of a whole text. -/
def Scan.ofText (text : String) : Scan := scanFrom 0 ⟨1, 1⟩ text.toList

/-- The tokens of a text that can be scanned to its end. -/
def tokenize (text : String) : Except Fault (List Token) :=
  let scan := Scan.ofText text
  match scan.stop with
  | none => .ok scan.tokens
  | some fault => .error fault

example : Scan.ofText "a1 -07 # x\n @" =
    ⟨[⟨.identifier "a1", ⟨1, 1⟩⟩, ⟨.integer (-7), ⟨1, 4⟩⟩, ⟨.mark .atSign, ⟨2, 2⟩⟩], none⟩ := by
  decide +kernel
example : Scan.ofText "vlen\n-x" =
    ⟨[⟨.keyword .vlen, ⟨1, 1⟩⟩], some (.grammar (.illegalCharacter '-' ⟨2, 1⟩))⟩ := by
  decide +kernel

end Stowage.Descriptor
