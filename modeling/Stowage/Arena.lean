import Stowage.Heap

/-!
# The arena

The arena is the memory of a heap, byte by byte, and the books that are kept about it: the addresses
of all blocks ever given out in rising order, how large each block is, and which blocks are live.
New memory is full of zero bytes, and a block is given out at the top without being touched. When
the top would leave the memory, all of it is copied into a larger one.

The block that an access starts in is looked up by halving the list of addresses (`bisectRight`).

An arena whose memory was given back still has its books, so it refuses an operation only where the
memory is needed.
-/

set_option autoImplicit false

namespace Stowage

/-- Memory and the books about its blocks. -/
structure Arena where
  /-- The bytes, unless the memory was given back. -/
  memory : Option Bytes
  /-- The number of bytes. -/
  capacity : Nat
  /-- The address of the next block. -/
  top : Nat
  /-- The addresses of all blocks given out, the first one first. -/
  starts : List Nat
  /-- The size of each block, by its address. -/
  sizes : List (Nat × Nat)
  /-- The addresses of the blocks that were not freed. -/
  live : List Nat
  deriving DecidableEq, Repr

namespace Arena

/-- An arena of zero bytes; a capacity of zero stands for the default. -/
def empty (capacity : Nat) : Arena :=
  let capacity := if capacity = 0 then Heap.defaultCapacity else capacity
  ⟨some (Bytes.zeros capacity), capacity, Heap.alignment, [], [], []⟩

/-- The number of live blocks. -/
def liveCount (arena : Arena) : Nat := arena.live.length

/-- Whether a live block starts at an address. -/
def isLive (arena : Arena) (address : Int) : Bool :=
  arena.live.any fun start => (start : Int) == address

/-- The size of the block at an address. -/
def sizeAt (arena : Arena) (start : Nat) : Nat := (arena.sizes.lookup start).getD 0

/-- Moves to a larger memory, which holds at least `needed` bytes. -/
def grow (needed : Nat) : Action Arena Unit := fun arena =>
  match arena.memory with
  | none => (.error (.memory .closed), arena)
  | some old =>
    let capacity := Heap.grown needed arena.capacity
    let memory := Bytes.splice (Bytes.zeros capacity) 0 arena.capacity old
    (.ok (), { arena with memory := some memory, capacity })

/-- Makes room up to an address. -/
def reserve (top : Nat) : Action Arena Unit := fun arena =>
  if arena.capacity < top then grow top arena else (.ok (), arena)

/-- Gives out the block at the top and returns its address. An empty block takes one byte. -/
def allocate (count : Int) : Action Arena Nat := fun arena =>
  if count < 0 then (.error (.invalid (.allocation count)), arena)
  else
    let top := arena.top + Heap.footprint count.toNat
    match reserve top arena with
    | (.error fault, arena) => (.error fault, arena)
    | (.ok (), arena) =>
      (.ok arena.top,
        { arena with
          top
          starts := arena.starts ++ [arena.top]
          sizes := (arena.top, max count.toNat 1) :: arena.sizes
          live := arena.live.insert arena.top })

/-- The memory with bytes written at an address. -/
def poke (memory : Bytes) (address : Int) (bytes : Bytes) : Bytes :=
  Bytes.splice memory address (address + bytes.length) bytes

/-- Frees the block that starts at an address. -/
def free (address : Int) : Action Arena Unit := fun arena =>
  if arena.isLive address then
    let freed := { arena with live := arena.live.erase address.toNat }
    match arena.memory with
    | none => (.error (.memory .closed), freed)
    | some memory =>
      let poison := List.replicate (arena.sizeAt address.toNat) Block.poison
      (.ok (), { freed with memory := some (poke memory address poison) })
  else (.error (.memory (.notLive address)), arena)

/-- How many numbers of a rising list are at most `x`, when those before `low` are and those from
`high` on are not. -/
def bisectRight (xs : List Nat) (x : Int) (low high : Nat) : Nat :=
  if low < high then
    let middle := (low + high) / 2
    if x < xs.getD middle 0 then bisectRight xs x low middle
    else bisectRight xs x (middle + 1) high
  else low
termination_by high - low

/-- Where the live block that an access lies in starts and ends. -/
def locate (arena : Arena) (address count : Int) : Except Fault (Nat × Nat) :=
  match bisectRight arena.starts address 0 arena.starts.length with
  | 0 => .error (.memory (.unallocated address))
  | index + 1 =>
    let start := arena.starts.getD index 0
    let stop := start + arena.sizeAt start
    if !arena.live.contains start then .error (.memory (.freed address))
    else if address + count > stop then .error (.memory (.overrun count address))
    else .ok (start, stop)

/-- The bytes at an address. -/
def read (arena : Arena) (address count : Int) : Except Fault Bytes := do
  let _ ← arena.locate address count
  match arena.memory with
  | none => .error (.memory .closed)
  | some memory => .ok (Bytes.slice memory address (address + count))

/-- The bytes at an address up to the first zero byte of the block. -/
def readString (arena : Arena) (address : Int) : Except Fault Bytes := do
  let (_, stop) ← arena.locate address 0
  match arena.memory with
  | none => .error (.memory .closed)
  | some memory =>
    match (Bytes.slice memory address stop).idxOf? 0 with
    | none => .error (.memory (.unterminated address))
    | some length => .ok (Bytes.slice memory address (address + length))

/-- Writes bytes at an address. -/
def write (address : Int) (bytes : Bytes) : Action Arena Unit := fun arena =>
  match arena.locate address bytes.length with
  | .error fault => (.error fault, arena)
  | .ok _ =>
    match arena.memory with
    | none => (.error (.memory .closed), arena)
    | some memory => (.ok (), { arena with memory := some (poke memory address bytes) })

/-- Gives the memory back. -/
def close (arena : Arena) : Arena := { arena with memory := none, live := [] }

end Arena

end Stowage
