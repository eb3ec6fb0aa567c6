import Stowage.Bytes
import Stowage.Number.Binary
import Stowage.Number.ItemCode

/-!
# Values

`Value` is what callers hand to the codecs and get back: numbers, text, and the containers that
count as one dimension of an array. Lists, mutable buffers and typed arrays can be changed in
place; tuples and byte strings cannot. A value says what its parts hold, and not which of them are
one object; where this matters, arrays are made of objects (`Object`).

A floating point number is its 64-bit word. The items of a typed array are kept as words too,
each as wide as the item code says.
-/

set_option autoImplicit false

namespace Stowage

/-- A typed array: an item code and one word per item. -/
structure PackedArray where
  /-- What the items are. -/
  code : ItemCode
  /-- The items as words of `code.size` bytes. -/
  words : List Nat
  deriving DecidableEq, Repr

/-- A value that is passed to a codec or returned by one. -/
inductive Value where
  | null
  | bool (b : Bool)
  | int (i : Int)
  | float (word : Nat)
  | text (s : String)
  | list (items : List Value)
  | tuple (items : List Value)
  | bytes (data : Bytes)
  | buffer (data : Bytes)
  | packed (array : PackedArray)

namespace PackedArray

/-- An unsigned word of `size` bytes read as a signed number. -/
def signedWord (size word : Nat) : Int :=
  if word < Nat.pow 2 (8 * size - 1) then word else (word : Int) - Nat.pow 2 (8 * size)

/-- The value of one item. -/
def item (code : ItemCode) (word : Nat) : Value :=
  match code.kind with
  | .signed => .int (signedWord code.size word)
  | .unsigned => .int word
  | .float =>
    if code.size = 4 then .float (Number.BinaryFormat.single.convertOrInfinity .double word)
    else .float word
  | .character => .text (String.singleton (Char.ofNat word))

/-- The items in order. -/
def items (array : PackedArray) : List Value := array.words.map (item array.code)

/-- The items laid out back to back. -/
def toBytes (array : PackedArray) : Bytes := array.words.flatMap (Bytes.ofNat array.code.size)

/-- The words of a byte sequence, `size` bytes each. An incomplete last word is left out. -/
def wordsOf (size : Nat) (data : Bytes) : List Nat :=
  (List.range (data.length / size)).map fun k =>
    Bytes.toNat ((data.drop (k * size)).take size)

/-- The typed array whose items are laid out in a byte sequence; nothing when the last item is
incomplete. -/
def ofBytes? (code : ItemCode) (data : Bytes) : Option PackedArray :=
  if data.length % code.size = 0 then some ⟨code, wordsOf code.size data⟩ else none

end PackedArray

namespace Value

/-- The name of the kind of a value, as messages give it. -/
def kindName : Value → String
  | .null => "NoneType"
  | .bool _ => "bool"
  | .int _ => "int"
  | .float _ => "float"
  | .text _ => "str"
  | .list _ => "list"
  | .tuple _ => "tuple"
  | .bytes _ => "bytes"
  | .buffer _ => "bytearray"
  | .packed _ => "array"

/-- The elements of a value that can be walked through: the items of a container, the numbers of
its bytes, the characters of a text. -/
def elements? : Value → Option (List Value)
  | .list items | .tuple items => some items
  | .text s => some (s.toList.map fun c => .text (String.singleton c))
  | .bytes data | .buffer data => some (data.map fun b => .int b.toNat)
  | .packed array => some array.items
  | .null | .bool _ | .int _ | .float _ => none

/-- Whether a value counts as one dimension of an array. -/
def isArray : Value → Bool
  | .list _ | .tuple _ | .bytes _ | .buffer _ | .packed _ => true
  | _ => false

/-- The elements of an array dimension; other values have none. -/
def children (v : Value) : List Value := if v.isArray then v.elements?.getD [] else []

/-- The length of an array dimension. -/
def extent : Value → Nat
  | .list items | .tuple items => items.length
  | .bytes data | .buffer data => data.length
  | .packed array => array.words.length
  | _ => 0

/-- Whether a value can be changed in place. -/
def isMutable : Value → Bool
  | .list _ | .buffer _ | .packed _ => true
  | _ => false

/-- Whether a value counts as present: zero, false, nothing and everything empty do not. -/
def isTruthy : Value → Bool
  | .null => false
  | .bool b => b
  | .int i => i != 0
  | .float word => !Number.isZeroWord word
  | .text s => !s.isEmpty
  | .list items | .tuple items => !items.isEmpty
  | .bytes data | .buffer data => !data.isEmpty
  | .packed array => !array.words.isEmpty

/-- The contents of a byte string or buffer. -/
def data? : Value → Option Bytes
  | .bytes data | .buffer data => some data
  | _ => none

end Value

end Stowage
