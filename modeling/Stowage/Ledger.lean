import Stowage.Buffer
import Stowage.ElementType
import Stowage.Heap

/-!
# Ledgers of allocated blocks

While values are packed, the ledger notes the address of every block that was allocated for them.
The address of a block is going to be stored in a word, so a block whose address does not fit is
refused; it is noted all the same. `Ledger.settle` closes a ledger: when packing succeeded the
addresses are handed over, and when it was refused the blocks are freed.
-/

set_option autoImplicit false

namespace Stowage

/-- A heap and the blocks allocated so far for the values being packed, the first one first. -/
structure Ledger where
  /-- The heap. -/
  heap : Heap
  /-- The addresses of the blocks. -/
  owned : List Nat
  deriving DecidableEq, Repr

namespace Ledger

/-- Runs an action on the heap. -/
def onHeap {α : Type} (x : Action Heap α) : Action Ledger α :=
  Action.within (·.heap) (fun heap ledger => { ledger with heap }) x

/-- Notes addresses. -/
def note (addresses : List Nat) : Action Ledger Unit :=
  Action.update fun ledger => { ledger with owned := ledger.owned ++ addresses }

/-- Allocates a block that holds the given bytes, and gives its address for a word to store. -/
def place (bytes : Bytes) : Action Ledger Nat := do
  let address ← onHeap (Heap.allocate bytes.length)
  note [address]
  onHeap (Heap.write address bytes)
  .ofExcept (Buffer.wordNumber addressSize address)

/-- Packs with a new ledger. The blocks of a refused packing are freed in the order that `order`
puts them in. -/
def settle {α : Type} (order : List Nat → List Nat) (packing : Action Ledger α) :
    Action Heap (α × List Nat) := fun heap =>
  match packing ⟨heap, []⟩ with
  | (.ok a, ledger) => (.ok (a, ledger.owned), ledger.heap)
  | (.error fault, ledger) =>
    match Heap.freeAll (order ledger.owned) ledger.heap with
    | (.ok (), heap) => (.error fault, heap)
    | (.error other, heap) => (.error other, heap)

end Ledger

end Stowage
