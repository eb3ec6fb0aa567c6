import Stowage.Array.Flatten

/-!
# Arrays made of objects

A `Value` says what an array holds. An array can be more than that: the same list can stand at two
places in it, and what is put into the list at one place is then found at the other. `Object` is a
value in which all that can be changed in place, every list, buffer and typed array, has an
identity. Parts with the same identity are one object, so `Object.assign` changes all of them.

`Object.unflatten` fills an array of objects from a flat form. It goes through the rows as
`unflatten` does, since a walk only looks at what the array holds: a row that can be changed takes
its elements wherever it stands, and any other row is replaced in the list around it, wherever this
list stands.
-/

set_option autoImplicit false

namespace Stowage

/-- Whether a value holds no part that could be changed or replaced. -/
def Value.isFixed : Value → Bool
  | .list _ | .tuple _ | .buffer _ | .packed _ => false
  | _ => true

/-- A value whose changeable parts have identities. -/
inductive Object where
  | fixed (v : Value) (hfixed : v.isFixed = true)
  | list (id : Nat) (items : List Object)
  | tuple (items : List Object)
  | buffer (id : Nat) (data : Bytes)
  | packed (id : Nat) (array : PackedArray)

namespace Object

mutual

/-- What an object holds. -/
def value : Object → Value
  | fixed v _ => v
  | list _ items => .list (values items)
  | tuple items => .tuple (values items)
  | buffer _ data => .buffer data
  | packed _ array => .packed array

/-- What objects hold. -/
def values : List Object → List Value
  | [] => []
  | object :: rest => object.value :: values rest

end

mutual

/-- The identities in an object, one for each place where a part with an identity stands. -/
def ids : Object → List Nat
  | fixed _ _ => []
  | list id items => id :: idsOf items
  | tuple items => idsOf items
  | buffer id _ => [id]
  | packed id _ => [id]

/-- The identities in objects. -/
def idsOf : List Object → List Nat
  | [] => []
  | object :: rest => object.ids ++ idsOf rest

end

/-- The identity of an object itself. -/
def id? : Object → Option Nat
  | list id _ | buffer id _ | packed id _ => some id
  | fixed _ _ | tuple _ => none

/-- The same object under another identity, if it has one. -/
def withId (id : Nat) : Object → Object
  | list _ items => list id items
  | buffer _ data => buffer id data
  | packed _ array => packed id array
  | other => other

/-- An identity that no part of an object has. -/
def fresh (object : Object) : Nat := object.ids.foldr Nat.max 0 + 1

mutual

/-- An object after the one with an identity has become another one. -/
def assign (id : Nat) (object new : Object) : Object :=
  match object with
  | fixed v hfixed => fixed v hfixed
  | list other items => if other = id then new else list other (assignAll id items new)
  | tuple items => tuple (assignAll id items new)
  | buffer other data => if other = id then new else buffer other data
  | packed other array => if other = id then new else packed other array

/-- Objects after the one with an identity has become another one. -/
def assignAll (id : Nat) (objects : List Object) (new : Object) : List Object :=
  match objects with
  | [] => []
  | object :: rest => object.assign id new :: assignAll id rest new

end

end Object

namespace Value

mutual

/-- The number of parts that can be changed in place. -/
def changeable : Value → Nat
  | .list items => 1 + changeableIn items
  | .tuple items => changeableIn items
  | .buffer _ | .packed _ => 1
  | _ => 0

/-- The number of parts of values that can be changed in place. -/
def changeableIn : List Value → Nat
  | [] => 0
  | v :: rest => v.changeable + changeableIn rest

end

end Value

namespace Object

mutual

/-- A new object that holds a value. Its parts have identities of their own, from a number on. -/
def ofValue (first : Nat) : Value → Object
  | .list items => list first (ofValues (first + 1) items)
  | .tuple items => tuple (ofValues first items)
  | .buffer data => buffer first data
  | .packed array => packed first array
  | .null => fixed .null rfl
  | .bool b => fixed (.bool b) rfl
  | .int i => fixed (.int i) rfl
  | .float word => fixed (.float word) rfl
  | .text s => fixed (.text s) rfl
  | .bytes data => fixed (.bytes data) rfl

/-- New objects that hold values. -/
def ofValues (first : Nat) : List Value → List Object
  | [] => []
  | v :: rest => ofValue first v :: ofValues (first + v.changeable) rest

end

/-- The elements of an array dimension. -/
def children : Object → List Object
  | list _ items | tuple items => items
  | other => other.value.children.map (ofValue 0)

/-- The part of an object at a path of indexes. -/
def at? : (path : List Nat) → Object → Option Object
  | [], object => some object
  | i :: path, object => object.children[i]?.bind (at? path)

/-! ### Filling -/

/-- Puts another row in the place last visited. The container around it must be a list. -/
def replaceRow (array : Object) (walk : Walk) (row : Object) : Except Fault Object :=
  if walk.shape.rank = 1 then .ok row
  else
    let parent := walk.placeOf (walk.shape.rank - 2)
    match array.at? parent with
    | some (list id items) =>
      .ok (array.assign id (list id (items.set (walk.indexOf (walk.shape.rank - 1)) row)))
    | _ => .error (.conversion (.immutableParent (array.value.part parent).kindName))

/-- Puts a filled row in the place of the row last visited: into it when it can be changed in
place, and otherwise into the container around it. -/
def putFilled (array : Object) (walk : Walk) (filled : Value) : Except Fault Object :=
  let row := ofValue array.fresh filled
  match (array.at? (walk.placeOf (walk.shape.rank - 1))).bind id? with
  | some id => .ok (array.assign id (row.withId id))
  | none => array.replaceRow walk row

/-- Fills at most `count` rows of an array from a cursor on, and gives the array with the rows
filled so far. The walk goes through what the array holds. -/
def fillRows : (count : Nat) → Object → Walk → Walk.Cursor → Cells → Except Fault Unit × Object
  | 0, array, _, _, _ => (.ok (), array)
  | count + 1, array, walk, cursor, cells =>
    match walk.pull cursor with
    | (.error fault, _, _) => (.error fault, array)
    | (.ok none, _, _) => (.ok (), array)
    | (.ok (some (_, row)), cursor, walk) =>
      let width := walk.shape.rowLength
      match (fillRow row (cells.take width)).bind (array.putFilled walk) with
      | .error fault => (.error fault, array)
      | .ok array =>
        fillRows count array { walk with array := array.value } cursor (cells.drop width)

/-- An array of objects after an attempt to fill it, and what came of the attempt. -/
structure Unflattened where
  /-- The filled array, or why it could not be filled. -/
  result : Except Fault Object
  /-- What the array given has become. -/
  template : Object

/-- Fills an array of objects from a flat form. -/
def unflatten (data : Value) (template : Object) (wanted : Option NumberType) : Unflattened :=
  match Walk.ofArray template.value wanted with
  | .error fault => ⟨.error fault, template⟩
  | .ok walk =>
    match readFlat walk.shape data with
    | .error fault => ⟨.error fault, template⟩
    | .ok cells =>
      let (result, array) := fillRows (walk.shape.rowCount + 1) template walk (.ready 0) cells
      let kept := if walk.shape.rank = 1 ∧ template.id? = none then template else array
      ⟨result.map fun _ => array, kept⟩

end Object

end Stowage
