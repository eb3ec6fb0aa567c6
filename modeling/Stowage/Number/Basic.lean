/-!
# Number types

The six fixed-width number types that a flat buffer stores: signed integers of one, two, four and
eight bytes and binary floating point numbers of four and eight.
-/

set_option autoImplicit false

namespace Stowage

/-- A fixed-width number type. -/
inductive NumberType where
  | int8
  | int16
  | int32
  | int64
  | float32
  | float64
  deriving DecidableEq, Repr

namespace NumberType

/-- Every number type. -/
def all : List NumberType := [.int8, .int16, .int32, .int64, .float32, .float64]

/-- The name in descriptor text. -/
def name : NumberType → String
  | .int8 => "int8"
  | .int16 => "int16"
  | .int32 => "int32"
  | .int64 => "int64"
  | .float32 => "float32"
  | .float64 => "float64"

/-- Bytes per number. -/
def size : NumberType → Nat
  | .int8 => 1
  | .int16 => 2
  | .int32 => 4
  | .int64 => 8
  | .float32 => 4
  | .float64 => 8

/-- The format letter of a packed number. -/
def letter : NumberType → Char
  | .int8 => 'b'
  | .int16 => 'h'
  | .int32 => 'i'
  | .int64 => 'q'
  | .float32 => 'f'
  | .float64 => 'd'

/-- Whether the type stores floating point numbers. -/
def isFloat : NumberType → Bool
  | .float32 | .float64 => true
  | _ => false

/-- Whether the type stores integers. -/
def isInteger (n : NumberType) : Bool := !n.isFloat

/-- The type with a given name. -/
def ofName? (name : String) : Option NumberType := all.find? (·.name == name)

/-- The integer type with a given width in bytes. -/
def integerOfSize? (size : Int) : Option NumberType :=
  all.find? fun n => n.isInteger && (n.size : Int) == size

/-- The floating point type with a given width in bytes. -/
def floatOfSize? (size : Int) : Option NumberType :=
  all.find? fun n => n.isFloat && (n.size : Int) == size

theorem ofName?_name (n : NumberType) : ofName? n.name = some n := by cases n <;> decide

theorem integerOfSize?_size (n : NumberType) (h : n.isInteger = true) :
    integerOfSize? n.size = some n := by
  revert h
  cases n <;> decide

theorem floatOfSize?_size (n : NumberType) (h : n.isFloat = true) :
    floatOfSize? n.size = some n := by
  revert h
  cases n <;> decide

theorem size_pos (n : NumberType) : 0 < n.size := by cases n <;> decide

/-- Whether an integer is in the range of a signed type of `size` bytes. -/
def inRange (size : Nat) (i : Int) : Bool :=
  decide (-(Nat.pow 2 (8 * size - 1) : Int) ≤ i ∧ i < Nat.pow 2 (8 * size - 1))

end NumberType

end Stowage
