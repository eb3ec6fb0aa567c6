import Stowage.Array.Walk

/-!
# Flat forms of nested arrays

`flatten` packs the rows of an array back to back, each element in the bytes of the array's number
type. A byte string or buffer of rank one is its own flat form. `unflatten` fills an array of the
same shape from a flat form: rows that can be changed in place are, and the others are replaced in
the list around them. Rows are filled in order, and a fault leaves the rows before it filled.
-/

set_option autoImplicit false

namespace Stowage

/-! ### Packing -/

/-- Puts `count` values back to back into a buffer, in the bytes of a number type. There must be as
many values, and room for them. -/
def packInto (type : NumberType) (count : Nat) (out : Bytes) (offset : Nat)
    (values : List Value) : Except Fault Bytes :=
  if values.length ≠ count then .error .storage
  else
    match Bytes.wordStart? out.length offset (type.size * count) with
    | none => .error .storage
    | some start =>
      (type.storeAll values).map fun data =>
        out.take start ++ data ++ out.drop (start + data.length)

/-- The flat form with a row put in at its byte offset. Byte strings, buffers and typed arrays are
taken as they are and must have the size of a row. -/
def packRow (shape : Shape) (out : Bytes) (offset : Nat) (row : Value) : Except Fault Bytes :=
  let raw (data : Bytes) : Except Fault Bytes :=
    if data.length = shape.rowSize then .ok (Bytes.splice out offset (offset + shape.rowSize) data)
    else .error (.conversion (.rowBytes data.length shape.rowSize))
  match row with
  | .bytes data | .buffer data => raw data
  | .packed array => raw array.toBytes
  | .list items | .tuple items =>
    match packInto shape.type shape.rowLength out offset items with
    | .ok out => .ok out
    | .error .storage => .error (.conversion (.row offset))
    | .error fault => .error fault
  | _ => .error .operand

/-- The flat form with at most `count` rows from a cursor on put in. -/
def packRows : (count : Nat) → Walk → Walk.Cursor → (out : Bytes) → Except Fault Bytes
  | 0, _, _, out => .ok out
  | count + 1, walk, cursor, out =>
    match walk.pull cursor with
    | (.error fault, _, _) => .error fault
    | (.ok none, _, _) => .ok out
    | (.ok (some (offset, row)), cursor, walk) =>
      match packRow walk.shape out offset row with
      | .error fault => .error fault
      | .ok out => packRows count walk cursor out

/-- The flat form of an array: the array itself, or fresh bytes. -/
inductive Flat where
  | itself
  | fresh (data : Bytes)
  deriving DecidableEq, Repr

/-- The flat form of an array. -/
def flatten (array : Value) (wanted : Option NumberType) : Except Fault Flat := do
  let walk ← Walk.ofArray array wanted
  if walk.shape.rank = 1 ∧ walk.shape.byteRows then .ok .itself
  else
    let out := Bytes.zeros walk.shape.byteCount
    let data ← packRows (walk.shape.rowCount + 1) walk (.ready 0) out
    .ok (.fresh data)

/-- A buffer of zeros with the size of the flat form, or the array itself if it is its own. -/
def emptyFlat (array : Value) (wanted : Option NumberType) : Except Fault Flat := do
  let shape ← Shape.describe array wanted
  if shape.rank = 1 ∧ shape.byteRows then .ok .itself
  else .ok (.fresh (Bytes.zeros shape.byteCount))

/-! ### Filling -/

/-- The elements that go into rows: bytes as they are, or numbers. -/
inductive Cells where
  | bytes (data : Bytes)
  | numbers (values : List Value)

namespace Cells

/-- The first elements. -/
def take (n : Nat) : Cells → Cells
  | bytes data => bytes (data.take n)
  | numbers values => numbers (values.take n)

/-- The elements after the first. -/
def drop (n : Nat) : Cells → Cells
  | bytes data => bytes (data.drop n)
  | numbers values => numbers (values.drop n)

/-- The elements as values. -/
def values : Cells → List Value
  | bytes data => data.map fun b => .int b.toNat
  | numbers values => values

end Cells

/-- The byte that stores a number in a row of bytes; a negative one from -128 on is stored as its
two's complement. -/
def byteOf? : Value → Option UInt8
  | .int i =>
    let n := if -128 ≤ i ∧ i < 0 then i + 256 else i
    if 0 ≤ n ∧ n < 256 then some (UInt8.ofNat n.toNat) else none
  | _ => none

/-- Elements as a row of bytes. -/
def byteRow (cells : Cells) : Except Fault Bytes :=
  match cells with
  | .bytes data => .ok data
  | .numbers values =>
    match values.mapM byteOf? with
    | some data => .ok data
    | none => .error (.conversion .byteRow)

/-- Elements as a typed array. Bytes are taken as the bytes of its items. -/
def packedRow (code : ItemCode) (cells : Cells) : Except Fault PackedArray :=
  match cells with
  | .bytes data =>
    match PackedArray.ofBytes? code data with
    | some array => .ok array
    | none => .error .malformed
  | .numbers values =>
    match PackedArray.ofValues? code values with
    | some array => .ok array
    | none => .error (.conversion (.itemRow code))

/-- A row of the same kind that holds the given elements. -/
def fillRow (row : Value) (cells : Cells) : Except Fault Value :=
  match row with
  | .list _ => .ok (.list cells.values)
  | .tuple _ => .ok (.tuple cells.values)
  | .buffer _ => (byteRow cells).map .buffer
  | .bytes _ => (byteRow cells).map .bytes
  | .packed array => (packedRow array.code cells).map .packed
  | other => .error (.conversion (.unfillableRow other.kindName))

/-- Puts a filled row in the place of the row last visited: into it when it can be changed in
place, and otherwise into the container around it. -/
def putFilled (walk : Walk) (row filled : Value) : Except Fault Walk :=
  if row.isMutable then .ok (walk.putRow filled) else walk.replaceRow filled

/-- Fills at most `count` rows from a cursor on, and gives the walk with the rows filled so far. -/
def fillRows : (count : Nat) → Walk → Walk.Cursor → Cells → Except Fault Unit × Walk
  | 0, walk, _, _ => (.ok (), walk)
  | count + 1, walk, cursor, cells =>
    match walk.pull cursor with
    | (.error fault, _, walk) => (.error fault, walk)
    | (.ok none, _, walk) => (.ok (), walk)
    | (.ok (some (_, row)), cursor, walk) =>
      let width := walk.shape.rowLength
      match (fillRow row (cells.take width)).bind (putFilled walk row) with
      | .error fault => (.error fault, walk)
      | .ok walk => fillRows count walk cursor (cells.drop width)

/-- The bytes that a value stands for where a byte string is needed. -/
def bytesOf : Value → Except Fault Bytes
  | .bytes data | .buffer data => .ok data
  | .packed array => .ok array.toBytes
  | .list items | .tuple items =>
    items.mapM fun item =>
      match NumberType.integerOf? item with
      | none => .error .operand
      | some i => if 0 ≤ i ∧ i < 256 then .ok (UInt8.ofNat i.toNat) else .error .malformed
  | _ => .error .operand

/-- The elements of a flat form. -/
def cellsOf (shape : Shape) (data : Value) : Except Fault Cells :=
  if shape.byteRows then (bytesOf data).map .bytes
  else
    match data with
    | .bytes _ | .buffer _ | .packed _ => do
      let raw ← bytesOf data
      if raw.length = shape.byteCount then
        .ok (.numbers (shape.type.loadAll shape.elementCount raw))
      else .error (.conversion .buffer)
    | _ => .error .operand

/-- The elements of a flat form that has the size of the array. -/
def readFlat (shape : Shape) (data : Value) : Except Fault Cells :=
  match data.elements? with
  | none => .error .operand
  | some elements =>
    if elements.length ≠ shape.byteCount then
      .error (.size (.arrayBuffer elements.length shape.byteCount))
    else cellsOf shape data

/-- An array after an attempt to fill it, and what came of the attempt. -/
structure Unflattened where
  /-- The filled array, or why it could not be filled. -/
  result : Except Fault Value
  /-- What the array given has become. -/
  template : Value

/-- Fills an array from a flat form. -/
def unflatten (data template : Value) (wanted : Option NumberType) : Unflattened :=
  match Walk.ofArray template wanted with
  | .error fault => ⟨.error fault, template⟩
  | .ok walk =>
    match readFlat walk.shape data with
    | .error fault => ⟨.error fault, template⟩
    | .ok cells =>
      let (result, walk) := fillRows (walk.shape.rowCount + 1) walk (.ready 0) cells
      let kept := if walk.shape.rank = 1 ∧ !template.isMutable then template else walk.array
      ⟨result.map fun _ => walk.array, kept⟩

/-- An array, and the number type that its elements shall have if one is wanted. -/
structure Codec where
  array : Value
  wanted : Option NumberType

/-- Fills the array of a codec from a flat form. From then on the codec has the filled array; after
a fault it still has its own one, with what the attempt has done to it. -/
def Codec.unflatten (codec : Codec) (data : Value) : Except Fault Value × Codec :=
  let attempt := Stowage.unflatten data codec.array codec.wanted
  match attempt.result with
  | .ok filled => (.ok filled, { codec with array := filled })
  | .error fault => (.error fault, { codec with array := attempt.template })

end Stowage
