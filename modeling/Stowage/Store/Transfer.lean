import Stowage.Sequence.Capture
import Stowage.Sequence.Packing
import Stowage.Store.Basic

/-!
# Transfers between values and datasets

A transfer writes values to a dataset or reads them back. Writing packs the values, hands the packed
buffer to the store, and reclaims the buffer whatever became of the write. Reading takes fresh
copies from the store, captures or unpacks them, and reclaims them whatever became of that; captured
elements are interpreted afterwards, when their memory is gone.

Only the buffers of types that hold addresses are reclaimed. When reclaiming is refused, its fault
is the one that is reported.
-/

set_option autoImplicit false

namespace Stowage

namespace Store

/-- Reclaims a buffer if its type holds addresses. -/
def reclaimIf (holdsAddresses : Bool) (typeId count : Int) (buffer : Bytes) : Action Store Unit :=
  if holdsAddresses then reclaim typeId count buffer else pure ()

/-- The number of elements of a value. -/
def lengthOf (values : Value) : Int := (values.elements?.getD []).length

/-- Takes fresh copies of a dataset into a buffer of the given length. -/
def fetch (handle typeId : Int) (length : Int) : Action Store Bytes := do
  let buffer ← .ofExcept (Buffer.zeroed length)
  read handle typeId buffer.length

/-! ### Sequences -/

/-- Packs sequences; the buffer owns the blocks it refers to. -/
def packSequences (values : Value) (typeId : Int) : Action Store Bytes := fun store =>
  onHeap ((·.1) <$> Sequence.packSequences store.catalogue values typeId) store

/-- Reads sequences from a dataset. -/
def readSequences (handle typeId count : Int) : Action Store (List Value) := do
  let table ← fetch handle typeId (count * entrySize)
  let batch ← Action.ensuring
    (.reading fun store => Batch.capture store.heap store.catalogue table count typeId)
    (reclaim typeId count table)
  .ofExcept batch.interpret

/-- Writes sequences to a dataset. -/
def writeSequences (handle typeId : Int) (values : Value) : Action Store Unit := do
  let table ← packSequences values typeId
  Action.ensuring (write handle typeId table) (reclaim typeId (lengthOf values) table)

/-! ### Arrays -/

/-- Packs arrays; the buffer owns the blocks it refers to. -/
def packArrays (values : Value) (typeId : Int) : Action Store Bytes := fun store =>
  onHeap ((·.1) <$> Sequence.packArrays store.catalogue values typeId) store

/-- The array type with a number. -/
def arrayType (typeId : Int) : Action Store ElementType :=
  .reading fun store => do
    let (element, length) ← store.catalogue.arrayElement typeId
    .ok (.array element length)

/-- Reads arrays from a dataset. -/
def readArrays (handle typeId count : Int) : Action Store (List Value) := do
  let type ← arrayType typeId
  let buffer ← fetch handle typeId (count * type.size)
  let batch ← Action.ensuring
    (.reading fun store => Batch.captureArrays store.heap store.catalogue buffer count typeId)
    (reclaimIf type.isVariable typeId count buffer)
  .ofExcept batch.interpret

/-- Writes arrays to a dataset. -/
def writeArrays (handle typeId : Int) (values : Value) : Action Store Unit := do
  let type ← arrayType typeId
  let buffer ← packArrays values typeId
  Action.ensuring (write handle typeId buffer)
    (reclaimIf type.isVariable typeId (lengthOf values) buffer)

/-! ### Strings -/

/-- Packs strings; the buffer owns the blocks it refers to. -/
def packStrings (values : Value) : Action Store Bytes :=
  onHeap ((·.1) <$> Sequence.packStrings values)

/-- Reads strings from a dataset. -/
def readStrings (handle typeId count : Int) : Action Store (List Value) := do
  let buffer ← fetch handle typeId (count * addressSize)
  Action.ensuring (.reading fun store => Batch.captureStrings store.heap buffer count)
    (reclaim typeId count buffer)

/-- Writes strings to a dataset. -/
def writeStrings (handle typeId : Int) (values : Value) : Action Store Unit := do
  let buffer ← packStrings values
  Action.ensuring (write handle typeId buffer) (reclaim typeId (lengthOf values) buffer)

/-! ### Records -/

/-- Packs records of a layout, and gives the addresses of the strings allocated for them. -/
def packRecords (layout : RecordLayout) (attached : Bool) (records : Value) :
    Action Store (Bytes × List Nat) := do
  .ofExcept layout.check
  onHeap (layout.pack attached records)

/-- Unpacks records of a layout. -/
def unpackRecords (layout : RecordLayout) (attached : Bool) (buffer : Bytes) (count : Int) :
    Action Store (List Value) :=
  .reading fun store => do
    layout.check
    layout.unpack (if attached then some store.heap else none) buffer count

/-- Requires that the records are packed and read with a heap. -/
def requireAttached (attached : Bool) : Action Store Unit :=
  if attached then pure () else .refuse (.conversion .detached)

/-- Reads records of a layout from a dataset. -/
def readRecords (layout : RecordLayout) (attached : Bool) (handle typeId count : Int) :
    Action Store (List Value) := do
  .ofExcept layout.check
  requireAttached attached
  let buffer ← fetch handle typeId (count * layout.size)
  Action.ensuring (.reading fun store => layout.unpack (some store.heap) buffer count)
    (reclaimIf layout.hasVariableFields typeId count buffer)

/-- Writes records of a layout to a dataset. -/
def writeRecords (layout : RecordLayout) (attached : Bool) (handle typeId : Int)
    (records : Value) : Action Store Unit := do
  .ofExcept layout.check
  requireAttached attached
  let (buffer, _) ← onHeap (layout.pack true records)
  Action.ensuring (write handle typeId buffer)
    (reclaimIf layout.hasVariableFields typeId (lengthOf records) buffer)

end Store

end Stowage
