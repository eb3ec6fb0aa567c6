import Stowage.Buffer
import Stowage.ElementType
import Stowage.Heap

/-!
# Payloads

The payloads of an element are the blocks that its stored addresses lead to, and the blocks that
these lead to in turn. `copyAt` gives an element fresh copies of its payloads, the inner ones
first, and stores their addresses in place of the old ones; `freeAt` frees the payloads, a block
after those it leads to. Null addresses lead to nothing.
-/

set_option autoImplicit false

namespace Stowage

/-- Places bytes in a new block. -/
def Heap.place (bytes : Bytes) : Action Heap Nat := do
  let address ← allocate bytes.length
  write address bytes
  pure address

/-- Gives the string at a position a fresh copy. -/
def copyString (position : Int) (buffer : Bytes) : Action Heap Bytes := do
  let address ← .ofExcept (Buffer.loadWord buffer position addressSize)
  if address = Heap.nullAddress then pure buffer
  else do
    let text ← .reading fun heap => heap.readString address
    let copy ← Heap.place (text ++ [0])
    .ofExcept (Buffer.storeWord buffer position (Bytes.ofNat addressSize copy))

/-- Gives the sequence at a position a fresh copy, whose payload `inner` changes first. -/
def copySequence (size : Int) (inner : (count : Nat) → Bytes → Action Heap Bytes) (position : Int)
    (buffer : Bytes) : Action Heap Bytes := do
  let (length, address) ← .ofExcept (Buffer.loadEntry buffer position)
  if address = Heap.nullAddress then pure buffer
  else do
    let payload ← .reading fun heap => heap.read address (length * size)
    let payload ← inner length payload
    let copy ← Heap.place payload
    .ofExcept (Buffer.storeWord buffer position (Buffer.entryBytes length copy))

/-- Frees the string at a position. -/
def freeString (position : Int) (buffer : Bytes) : Action Heap Unit := do
  let address ← .ofExcept (Buffer.loadWord buffer position addressSize)
  if address = Heap.nullAddress then pure () else Heap.free address

/-- Frees the sequence at a position, after `inner` has freed what its payload leads to. -/
def freeSequence (inner : (count address : Nat) → Action Heap Unit) (position : Int)
    (buffer : Bytes) : Action Heap Unit := do
  let (length, address) ← .ofExcept (Buffer.loadEntry buffer position)
  if address = Heap.nullAddress then pure ()
  else do
    inner length address
    Heap.free address

mutual

/-- Gives the element at a position fresh copies of its payloads. -/
def ElementType.copyAt : ElementType → (position : Int) → Bytes → Action Heap Bytes
  | .string, position, buffer => copyString position buffer
  | .vlen element, position, buffer =>
    copySequence element.size
      (fun count payload =>
        if element.isVariable then
          Action.iterate (fun k payload => element.copyAt (k * element.size) payload)
            0 count payload
        else pure payload)
      position buffer
  | .compound members _, position, buffer => members.copyAt position buffer
  | .array element length, position, buffer =>
    if element.isVariable then
      Action.iterate (fun k buffer => element.copyAt (position + k * element.size) buffer)
        0 length.toNat buffer
    else pure buffer
  | _, _, buffer => pure buffer

/-- Gives the members of a record at a position fresh copies of their payloads. -/
def Members.copyAt : Members → (position : Int) → Bytes → Action Heap Bytes
  | .nil, _, buffer => pure buffer
  | .cons _ offset type rest, position, buffer => do
    let buffer ←
      if type.isVariable then type.copyAt (position + offset) buffer else pure buffer
    rest.copyAt position buffer

end

mutual

/-- Frees the payloads of the element at a position. -/
def ElementType.freeAt : ElementType → (position : Int) → Bytes → Action Heap Unit
  | .string, position, buffer => freeString position buffer
  | .vlen element, position, buffer =>
    freeSequence
      (fun count address =>
        if element.isVariable then do
          let payload ← .reading fun heap => heap.read address (count * element.size)
          Action.iterate (fun k _ => element.freeAt (k * element.size) payload) 0 count ()
        else pure ())
      position buffer
  | .compound members _, position, buffer => members.freeAt position buffer
  | .array element length, position, buffer =>
    if element.isVariable then
      Action.iterate (fun k _ => element.freeAt (position + k * element.size) buffer)
        0 length.toNat ()
    else pure ()
  | _, _, _ => pure ()

/-- Frees the payloads of the members of a record at a position. -/
def Members.freeAt : Members → (position : Int) → Bytes → Action Heap Unit
  | .nil, _, _ => pure ()
  | .cons _ offset type rest, position, buffer => do
    if type.isVariable then type.freeAt (position + offset) buffer else pure ()
    rest.freeAt position buffer

end

namespace ElementType

/-- Gives `count` elements back to back fresh copies of their payloads. -/
def copyEach (type : ElementType) (count : Nat) (buffer : Bytes) : Action Heap Bytes :=
  if type.isVariable then
    Action.iterate (fun i buffer => type.copyAt (i * type.size) buffer) 0 count buffer
  else pure buffer

/-- Frees the payloads of `count` elements back to back. -/
def freeEach (type : ElementType) (count : Nat) (buffer : Bytes) : Action Heap Unit :=
  if type.isVariable then
    Action.iterate (fun i _ => type.freeAt (i * type.size) buffer) 0 count ()
  else pure ()

end ElementType

end Stowage
