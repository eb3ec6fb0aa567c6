import Stowage.Array.Shape

/-!
# Walking through the rows of an array

A walk goes through the rows of an array in row-major order, which is the order of their byte
offsets in the flat form. The index of a dimension is recovered from the offset: the offset divided
by the stride, modulo the length.

A walk remembers, for each dimension that leads to a row, the index last visited and the part of the
array found there. `Walk.seek` looks a part up again only when its index changes or a part around it
was looked up again. Parts are remembered by their places, so they are seen as they have become.
This is the same as remembering the parts themselves, as long as no part but a row is ever exchanged
for another one. `Walk.replaceRow` does so, and the row in the place last visited is then the one
that was put there. `Walk.checkComplete` says whether a walk that ended at an offset has been
everywhere. A walk only looks at what an array holds, so an array of objects (`Object`) is walked
through like its value.

A cursor is a walk in progress. Each pull gives the next row; the pull after the last row checks
that the walk is complete, and from then on, and after any fault, there are no more rows.
-/

set_option autoImplicit false

namespace Stowage

namespace Value

/-- The part of a nested array at a path of indexes. -/
def at? : (path : List Nat) → Value → Option Value
  | [], v => some v
  | i :: path, v => v.children[i]?.bind (at? path)

/-- The array with another part at a path of indexes. A path that leads nowhere changes
nothing. -/
def putAt : (path : List Nat) → Value → (part : Value) → Value
  | [], _, part => part
  | i :: path, .list items, part => .list (items.modify i fun item => putAt path item part)
  | i :: path, .tuple items, part => .tuple (items.modify i fun item => putAt path item part)
  | _ :: _, v, _ => v

/-- The part at a path that leads somewhere. -/
def part (v : Value) (path : List Nat) : Value := (v.at? path).getD .null

end Value

/-- A dimension that leads to the rows, and what was last visited in it. -/
structure Walk.Level where
  /-- The bytes that one step in the dimension passes over. -/
  stride : Nat
  /-- The length of the dimension. -/
  length : Nat
  /-- The index last visited. -/
  index : Nat
  /-- The place of the part last visited, as the path of indexes that leads to it. -/
  place : List Nat
  deriving DecidableEq, Repr

/-- An array, its shape, and the dimensions that lead to the rows, the root first. -/
structure Walk where
  /-- The shape of the array. -/
  shape : Shape
  /-- The array. -/
  array : Value
  /-- What was last visited, one level for each dimension but the last. -/
  levels : List Walk.Level

namespace Walk

/-- Dimensions below a place in which the part at a path was last visited. -/
def levelsAt : (place strides lengths path : List Nat) → List Level
  | place, stride :: strides, length :: lengths, index :: path =>
    ⟨stride, length, index, place ++ [index]⟩ :: levelsAt (place ++ [index]) strides lengths path
  | _, _, _, _ => []

/-- A walk in which the row at a path was last visited. -/
def standing (shape : Shape) (array : Value) (path : List Nat) : Walk :=
  ⟨shape, array,
    ⟨shape.byteCount, 1, 0, []⟩ :: levelsAt [] (shape.strides.drop 1) shape.outerLengths path⟩

/-- A walk through an array that stands at its first row. -/
def ofArray (array : Value) (wanted : Option NumberType) : Except Fault Walk := do
  let shape ← Shape.describe array wanted
  .ok (standing shape array (shape.outerLengths.map fun _ => 0))

/-- The index of every dimension, the root first; inside a row it is always zero. -/
def index (walk : Walk) : List Nat := walk.levels.map (·.index) ++ [0]

/-- The index last visited in a dimension. -/
def indexOf (walk : Walk) (level : Nat) : Nat := (walk.levels[level]?.map (·.index)).getD 0

/-- The place of the part last visited in a dimension. -/
def placeOf (walk : Walk) (level : Nat) : List Nat := (walk.levels[level]?.map (·.place)).getD []

/-- Goes down to the row at a byte offset, from a part at a place through levels of which the first
has the given number. A part last visited is taken as it is when its index stays, unless a part
around it has changed. -/
def descend (array : Value) (offset : Nat) :
    (number : Nat) → (place : List Nat) → (changed : Bool) → List Level →
      Except Fault (List Nat) × List Level
  | _, place, _, [] => (.ok place, [])
  | number, place, changed, level :: rest =>
    let index := offset / level.stride % level.length
    if index = level.index ∧ !changed then
      let (found, rest) := descend array offset (number + 1) level.place false rest
      (found, level :: rest)
    else if level.length - 1 < index then
      (.error (.conversion (.indexRange index number)), level :: rest)
    else
      match (array.part place).children[index]? with
      | none => (.error (.conversion (.dimension number)), level :: rest)
      | some _ =>
        let place := place ++ [index]
        let (found, rest) := descend array offset (number + 1) place true rest
        (found, { level with index, place } :: rest)

/-- Goes to the row at a byte offset. -/
def seek (walk : Walk) (offset : Nat) : Except Fault Value × Walk :=
  let (found, levels) := descend walk.array offset 0 [] false walk.levels
  (found.map walk.array.part, { walk with levels })

/-- Puts contents into the row last visited. -/
def putRow (walk : Walk) (row : Value) : Walk :=
  { walk with array := walk.array.putAt (walk.placeOf (walk.shape.rank - 1)) row }

/-- Puts another row in the place last visited. The container around it must be a list. -/
def replaceRow (walk : Walk) (row : Value) : Except Fault Walk :=
  let last := walk.shape.rank - 1
  if walk.shape.rank = 1 then .ok { walk with array := row }
  else
    let parent := walk.placeOf (walk.shape.rank - 2)
    match walk.array.part parent with
    | .list _ => .ok { walk with array := walk.array.putAt (parent ++ [walk.indexOf last]) row }
    | other => .error (.conversion (.immutableParent other.kindName))

/-- The first dimension, counted from a number, whose index is not its last one. -/
def firstUnfinished : (number : Nat) → List Level → Option Fault
  | _, [] => none
  | number, level :: rest =>
    if level.index + 1 = level.length then firstUnfinished (number + 1) rest
    else some (.traversal (.dimension number level.index (level.length - 1)))

/-- Checks that a walk that ended at an offset visited every row. -/
def checkComplete (walk : Walk) (offset : Int) : Except Fault Unit :=
  if offset < walk.shape.byteCount then
    .error (.traversal (.early offset walk.shape.byteCount))
  else
    match firstUnfinished 0 walk.levels with
    | some fault => .error fault
    | none => .ok ()

/-- How far a walk in progress has come. -/
inductive Cursor where
  | ready (offset : Nat)
  | finished
  deriving DecidableEq, Repr

/-- The next row with its offset, or nothing when the walk has ended. -/
def pull (walk : Walk) (cursor : Cursor) :
    Except Fault (Option (Nat × Value)) × Cursor × Walk :=
  match cursor with
  | .finished => (.ok none, .finished, walk)
  | .ready offset =>
    if offset < walk.shape.byteCount then
      match walk.seek offset with
      | (.ok row, walk) => (.ok (some (offset, row)), .ready (offset + walk.shape.rowSize), walk)
      | (.error fault, walk) => (.error fault, .finished, walk)
    else
      match walk.checkComplete offset with
      | .ok () => (.ok none, .finished, walk)
      | .error fault => (.error fault, .finished, walk)

end Walk

end Stowage
