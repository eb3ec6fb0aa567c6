import Stowage.Action
import Stowage.Bytes

/-!
# The heap

The heap gives out blocks of memory at rising addresses and remembers every block it ever gave
out. Address zero is never given out. A block that is freed is overwritten and stays where it is,
so an address into it is known to dangle; no address is given out twice.

An access must lie in one live block: the last block that starts at or before the address has to
be live and to reach as far as the access does. Blocks are kept with the last one first, so that
block is the first found.

The heap has a capacity, which doubles until a new block fits. A closed heap has no live blocks
and cannot grow; a block given out after closing has an address but no memory behind it.

A heap is seen here as the list of its blocks, each with its own contents. The one memory that holds
them all, byte by byte, and the books that are kept about them are an `Arena`, which answers every
operation as the heap of its blocks does.

A byte count below zero passes the check of `locate`. What such a read gives follows the rule for
cuts: an end below zero counts from the back of the whole memory (`image`).
-/

set_option autoImplicit false

namespace Stowage

/-- A block of memory. -/
structure Block where
  /-- The address of the first byte. -/
  start : Nat
  /-- The contents. -/
  data : Bytes
  /-- Whether the block has not been freed. -/
  live : Bool
  deriving DecidableEq, Repr

/-- The address after the last byte. -/
def Block.stop (block : Block) : Nat := block.start + block.data.length

/-- The byte that overwrites a freed block. -/
def Block.poison : UInt8 := 0xDD

/-- The block after it was freed. -/
def Block.release (block : Block) : Block :=
  { block with data := List.replicate block.data.length poison, live := false }

/-- A heap of blocks. -/
structure Heap where
  /-- The bytes of memory there is room for. -/
  capacity : Nat
  /-- The address of the next block. -/
  top : Nat
  /-- Every block given out, the last one first. -/
  blocks : List Block
  /-- Whether the memory was given back. -/
  closed : Bool
  deriving DecidableEq, Repr

namespace Heap

/-- The capacity when none is given. -/
def defaultCapacity : Nat := 4096

/-- Blocks start at multiples of this. -/
def alignment : Nat := 8

/-- The address that refers to nothing. -/
def nullAddress : Nat := 0

/-- An empty heap; a capacity of zero stands for the default. -/
def empty (capacity : Nat) : Heap :=
  ⟨if capacity = 0 then defaultCapacity else capacity, alignment, [], false⟩

/-- The live blocks. -/
def liveBlocks (heap : Heap) : List Block := heap.blocks.filter (·.live)

/-- The number of live blocks. -/
def liveCount (heap : Heap) : Nat := heap.liveBlocks.length

/-- Whether a live block starts at an address. -/
def isLive (heap : Heap) (address : Int) : Bool :=
  heap.blocks.any fun block => block.live && (block.start : Int) == address

/-- The address space a block of `count` bytes takes up. -/
def footprint (count : Nat) : Nat := (max count 1 + alignment - 1) / alignment * alignment

/-- A capacity doubled until it is large enough. -/
def grown (needed capacity : Nat) : Nat :=
  if 0 < capacity ∧ capacity < needed then grown needed (2 * capacity) else capacity
termination_by needed - capacity

/-- Gives out a block of zero bytes and its address. An empty block takes one byte. -/
def allocate (count : Int) : Action Heap Nat := fun heap =>
  if count < 0 then (.error (.invalid (.allocation count)), heap)
  else
    let top := heap.top + footprint count.toNat
    if heap.capacity < top ∧ heap.closed then (.error (.memory .closed), heap)
    else
      (.ok heap.top,
        { heap with
          capacity := grown top heap.capacity
          top
          blocks := ⟨heap.top, Bytes.zeros (max count.toNat 1), true⟩ :: heap.blocks })

/-- The heap with the block at an address changed. -/
def alter (heap : Heap) (start : Nat) (f : Block → Block) : Heap :=
  { heap with
    blocks := heap.blocks.map fun block => if block.start = start then f block else block }

/-- Frees the block that starts at an address. -/
def free (address : Int) : Action Heap Unit := fun heap =>
  if heap.isLive address then
    let freed := heap.alter address.toNat Block.release
    if heap.closed then (.error (.memory .closed), freed) else (.ok (), freed)
  else (.error (.memory (.notLive address)), heap)

/-- The last block that starts at or before an address. -/
def blockAt? (heap : Heap) (address : Int) : Option Block :=
  heap.blocks.find? fun block => decide ((block.start : Int) ≤ address)

/-- The live block that an access lies in. -/
def locate (heap : Heap) (address count : Int) : Except Fault Block :=
  match heap.blockAt? address with
  | none => .error (.memory (.unallocated address))
  | some block =>
    if !block.live then .error (.memory (.freed address))
    else if address + count > block.stop then .error (.memory (.overrun count address))
    else .ok block

/-- The memory that blocks take up, the last block given first: zero bytes between them. -/
def imageOf : List Block → Bytes
  | [] => []
  | block :: older => Bytes.padTo block.start (imageOf older) ++ block.data

/-- The whole memory. -/
def image (heap : Heap) : Bytes := Bytes.padTo heap.capacity (imageOf heap.blocks)

/-- The bytes at an address. -/
def read (heap : Heap) (address count : Int) : Except Fault Bytes :=
  match heap.locate address count with
  | .error fault => .error fault
  | .ok block =>
    if heap.closed then .error (.memory .closed)
    else if count < 0 then .ok (Bytes.slice heap.image address (address + count))
    else .ok ((block.data.drop (address - block.start).toNat).take count.toNat)

/-- The bytes at an address up to the first zero byte of the block. -/
def readString (heap : Heap) (address : Int) : Except Fault Bytes :=
  match heap.locate address 0 with
  | .error fault => .error fault
  | .ok block =>
    if heap.closed then .error (.memory .closed)
    else
      let data := block.data.drop (address - block.start).toNat
      if data.contains 0 then .ok (Bytes.untilNul data)
      else .error (.memory (.unterminated address))

/-- A sequence with bytes written over its own from an offset on. -/
def overwrite (offset : Nat) (bytes data : Bytes) : Bytes :=
  data.take offset ++ bytes ++ data.drop (offset + bytes.length)

/-- Writes bytes at an address. -/
def write (address : Int) (bytes : Bytes) : Action Heap Unit := fun heap =>
  match heap.locate address bytes.length with
  | .error fault => (.error fault, heap)
  | .ok block =>
    if heap.closed then (.error (.memory .closed), heap)
    else
      let offset := (address - block.start).toNat
      (.ok (), heap.alter block.start fun block =>
        { block with data := overwrite offset bytes block.data })

/-- Gives the memory back. -/
def close (heap : Heap) : Heap :=
  { heap with
    blocks := heap.blocks.map fun block => { block with live := false }
    closed := true }

/-- Frees blocks in order. -/
def freeAll (addresses : List Nat) : Action Heap Unit :=
  Action.each (fun (address : Nat) => free address) addresses

end Heap

end Stowage
