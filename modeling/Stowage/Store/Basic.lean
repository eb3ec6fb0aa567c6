import Stowage.Descriptor.Parser
import Stowage.Registry
import Stowage.Store.Payloads

/-!
# The store

The store keeps datasets: arrays of elements of one registered type. A dataset owns private copies
of every payload written to it. Reading a dataset allocates fresh copies, which belong to the
reader until it reclaims the buffer that refers to them.

A write is refused before anything changes when the dataset, the type or the size do not fit. After
that its effects come in order: all payloads are copied, the old ones are freed, the dataset takes
the new bytes. A refusal on the way keeps the effects made before it.
-/

set_option autoImplicit false

namespace Stowage

/-- A stored array of elements of one type. -/
structure Dataset where
  /-- The number of the type of the elements. -/
  typeId : Int
  /-- The number of elements. -/
  count : Nat
  /-- The inline bytes of the elements. -/
  data : Bytes
  deriving DecidableEq, Repr

/-- A heap, the registered types, and the datasets in the order of their handles. -/
structure Store where
  /-- The memory that payloads lie in. -/
  heap : Heap
  /-- The registered types. -/
  registry : Registry
  /-- The datasets, the one with handle one first. -/
  datasets : List Dataset
  deriving DecidableEq

namespace Store

/-- A store without types and datasets. -/
def empty (capacity : Nat) : Store := ⟨.empty capacity, .empty, []⟩

/-- Runs an action on the heap. -/
def onHeap {α : Type} (x : Action Heap α) : Action Store α :=
  Action.within (·.heap) (fun heap store => { store with heap }) x

/-- The registered types as a catalogue. -/
def catalogue (store : Store) : Catalogue := store.registry.catalogue

/-- Registers a type and the types it contains, and gives its number. -/
def register (type : ElementType) : Action Store Nat := fun store =>
  let (registry, id) := store.registry.register type
  (.ok id, { store with registry })

/-- Registers the type that descriptor text describes, and gives its number. -/
def registerText (text : String) : Action Store Nat := do
  let type ← Action.ofExcept (Descriptor.parse text)
  register type

/-- The dataset with a handle. -/
def dataset (store : Store) (handle : Int) : Except Fault Dataset :=
  if handle ≤ 0 then .error (.lookup (.dataset handle))
  else
    match store.datasets[(handle - 1).toNat]? with
    | some dataset => .ok dataset
    | none => .error (.lookup (.dataset handle))

/-- Creates a dataset of zero bytes and gives its handle. -/
def createDataset (typeId count : Int) : Action Store Nat := fun store =>
  let created : Except Fault Dataset := do
    if count < 0 then .error (.invalid (.datasetCount count))
    let type ← store.registry.typeOf typeId
    let data ← Buffer.zeroed (count * type.size)
    .ok ⟨typeId, count.toNat, data⟩
  match created with
  | .error fault => (.error fault, store)
  | .ok dataset =>
    (.ok (store.datasets.length + 1), { store with datasets := store.datasets ++ [dataset] })

/-- The dataset with a handle and the type with a number, when they fit each other and a buffer of
the given size. -/
def fitting (store : Store) (handle typeId : Int) (size : Nat) :
    Except Fault (Dataset × ElementType) := do
  let dataset ← store.dataset handle
  let type ← store.registry.typeOf typeId
  let held ← store.registry.typeOf dataset.typeId
  if type ≠ held then .error (.invalid (.datasetType handle held.name type.name))
  else if size ≠ dataset.data.length then
    .error (.size (.dataset size handle dataset.data.length))
  else .ok (dataset, type)

/-- Gives a dataset new bytes. -/
def putData (handle : Int) (data : Bytes) : Action Store Unit :=
  .update fun store =>
    { store with
      datasets := store.datasets.modify (handle - 1).toNat fun dataset => { dataset with data } }

/-- Replaces the contents of a dataset by copies of what a buffer holds and refers to. -/
def write (handle typeId : Int) (buffer : Bytes) : Action Store Unit := do
  let (dataset, type) ← .reading fun store => store.fitting handle typeId buffer.length
  let stored ← onHeap (type.copyEach dataset.count buffer)
  onHeap (type.freeEach dataset.count dataset.data)
  putData handle stored

/-- The bytes of a dataset for a buffer of the given size, with fresh copies of its payloads. -/
def read (handle typeId : Int) (size : Nat) : Action Store Bytes := do
  let (dataset, type) ← .reading fun store => store.fitting handle typeId size
  onHeap (type.copyEach dataset.count dataset.data)

/-- Reads a dataset into a buffer of the caller, which takes the new bytes when all payloads have
been copied. -/
def readInto (handle typeId : Int) : Action (Store × Bytes) Unit := do
  let size ← .reading fun (_, out) => .ok out.length
  let data ← Action.within Prod.fst (fun store (_, out) => (store, out)) (read handle typeId size)
  .update fun (store, _) => (store, data)

/-- Frees the payloads of the first `count` elements of a buffer. -/
def reclaim (typeId count : Int) (buffer : Bytes) : Action Store Unit := do
  let type ← .reading fun store => store.registry.typeOf typeId
  onHeap (type.freeEach count.toNat buffer)

end Store

end Stowage
