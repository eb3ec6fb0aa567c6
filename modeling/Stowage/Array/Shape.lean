import Stowage.Number.Storage

/-!
# Shapes of nested arrays

A nested array is described by the lengths of its dimensions, outermost first, and the number type
of its elements. The shape is read along the spine, which goes from the array to its first item and
on to the first item of that, down to a row: a byte string, a typed array, or a container whose
first item is not a container. Then every sub-array is checked against the lengths found.

`Shape.strides` gives the bytes that one step in each dimension passes over. Dimension zero is a
root of length one, so the first stride is the size of the whole array.
-/

set_option autoImplicit false

namespace Stowage

/-- The shape of a nested array. -/
structure Shape where
  /-- The lengths of the dimensions, outermost first. -/
  lengths : List Nat
  /-- The type of the elements. -/
  type : NumberType
  /-- Whether the row that fixed the type is a byte string or a buffer. -/
  byteRows : Bool
  deriving DecidableEq, Repr

namespace Shape

/-- The number of dimensions. -/
def rank (shape : Shape) : Nat := shape.lengths.length

/-- The number of elements in dimensions of the given lengths. -/
def countOf (lengths : List Nat) : Nat := lengths.foldr (· * ·) 1

/-- Strides of dimensions with the given lengths over elements of the given size. -/
def stridesOf (size : Nat) : List Nat → List Nat
  | [] => [size]
  | length :: rest => size * (length * countOf rest) :: stridesOf size rest

/-- The bytes one step in each dimension passes over, the root first. -/
def strides (shape : Shape) : List Nat := stridesOf shape.type.size shape.lengths

/-- The number of elements. -/
def elementCount (shape : Shape) : Nat := countOf shape.lengths

/-- The number of bytes of the whole array. -/
def byteCount (shape : Shape) : Nat := shape.type.size * shape.elementCount

/-- The number of elements in a row. -/
def rowLength (shape : Shape) : Nat := shape.lengths.getLastD 1

/-- The number of bytes of a row. -/
def rowSize (shape : Shape) : Nat := shape.type.size * shape.rowLength

/-- The lengths of the dimensions that lead to a row. -/
def outerLengths (shape : Shape) : List Nat := shape.lengths.dropLast

/-- The number of rows. -/
def rowCount (shape : Shape) : Nat := countOf shape.outerLengths

/-! ### Finding the shape -/

/-- The number type for elements like the given one. -/
def typeOfLeaf (wanted : Option NumberType) (leaf : Value) : Except Fault NumberType :=
  match leaf with
  | .bool _ => .error (.shape .booleans)
  | .int _ =>
    match wanted with
    | none => .ok .int64
    | some type => if type.isInteger then .ok type else .error (.shape (.integersAs type))
  | .float _ =>
    match wanted with
    | none => .ok .float64
    | some type => if type.isFloat then .ok type else .error (.shape (.floatsAs type))
  | other => .error (.shape (.unsupportedElement other.kindName))

/-- The number type of a row that fixes its own, which must be the one wanted. -/
def typeOfRow (wanted : Option NumberType) (found : NumberType) : Except Fault NumberType :=
  match wanted with
  | none => .ok found
  | some type => if type = found then .ok found else .error (.shape (.arrayAs found type))

/-- Puts a dimension around a shape. -/
def within (length : Nat) (shape : Shape) : Shape :=
  { shape with lengths := length :: shape.lengths }

mutual

/-- The shape along the spine of an array, whose own dimension has the given number. -/
def ofSpine (wanted : Option NumberType) (level : Nat) : Value → Except Fault Shape
  | .list items => ofItems wanted level items
  | .tuple items => ofItems wanted level items
  | .bytes data | .buffer data =>
    if data.isEmpty then .error (.shape (.emptyDimension level))
    else (typeOfRow wanted .int8).map fun type => ⟨[data.length], type, true⟩
  | .packed array =>
    if array.words.isEmpty then .error (.shape (.emptyDimension level))
    else
      match PackedArray.numberType array.code with
      | .error fault => .error fault
      | .ok found => (typeOfRow wanted found).map fun type => ⟨[array.words.length], type, false⟩
  | other => .error (.shape (.notAnArray other.kindName))

/-- The shape along the spine of a container with the given items. -/
def ofItems (wanted : Option NumberType) (level : Nat) : List Value → Except Fault Shape
  | [] => .error (.shape (.emptyDimension level))
  | first :: rest =>
    if first.isArray then (ofSpine wanted (level + 1) first).map (within (rest.length + 1))
    else (typeOfLeaf wanted first).map fun type => ⟨[rest.length + 1], type, false⟩

end

/-- Checks every sub-array against the lengths of the dimensions from a level on. -/
def conform : (level : Nat) → (lengths : List Nat) → Value → Except Fault Unit
  | _, [], _ => .ok ()
  | level, length :: rest, v =>
    if !v.isArray then .error (.shape (.notAnArrayAt level v.kindName))
    else if v.extent ≠ length then .error (.shape (.ragged v.extent level length))
    else if rest.isEmpty then .ok ()
    else v.children.forM (conform (level + 1) rest)

/-- The shape of an array, with the wanted number type if one is given. -/
def describe (array : Value) (wanted : Option NumberType) : Except Fault Shape := do
  let shape ← ofSpine wanted 1 array
  conform 1 shape.lengths array
  .ok shape

end Shape

end Stowage
