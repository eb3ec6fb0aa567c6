import Stowage.Catalogue.Basic
import Stowage.Sequence.Captured

/-!
# Capturing sequences

Capturing copies stored sequences out of the heap, so that they can be decoded after their memory
is gone. A stored sequence is a length and an address; what the address leads to is copied, and
addresses in the copy are followed at once.

Capturing reads the heap and never changes it. Memory that cannot be read does not refuse the
capture: a sequence whose bytes cannot be copied keeps its length and an empty payload, and a
string that cannot be read is empty.
-/

set_option autoImplicit false

namespace Stowage

namespace Captured

/-- Element widths that are tried when a type does not say how wide it is. -/
def fallbackWidths : List Int := [8, 4]

/-- The bytes of `length` elements at an address, tried with one width after another. -/
def copyWith (heap : Heap) (address : Int) (length : Int) : List Int → Except Fault Bytes
  | [] => .ok []
  | width :: widths =>
    match heap.read address (length * width) with
    | .ok bytes => .ok bytes
    | .error (.memory _) => copyWith heap address length widths
    | .error fault => .error fault

/-- The bytes of `length` elements of the given width at an address; none when they cannot be
read. -/
def copyPayload (heap : Heap) (width length address : Int) : Except Fault Bytes :=
  copyWith heap address length (if 0 < width then [width] else fallbackWidths)

/-! ### Strings -/

/-- Fixed strings back to back. -/
def fixedEntries (width length : Int) (raw : Bytes) : List Bytes :=
  (List.range length.toNat).map fun (k : Nat) =>
    Bytes.untilNul (Bytes.slice raw (k * width) ((k + 1) * width))

/-- The string at an address, and whether it could be read. A null address is the empty
string. -/
def stringEntry (heap : Heap) (address : Nat) : Except Fault (Bytes × Bool) :=
  if address = Heap.nullAddress then .ok ([], true)
  else
    match heap.readString address with
    | .ok bytes => .ok (bytes, true)
    | .error (.memory _) => .ok ([], false)
    | .error fault => .error fault

/-- The strings at `count` addresses, from the one with the given number on. -/
def stringEntries (heap : Heap) (raw : Bytes) :
    (number count : Nat) → Except Fault (List (Bytes × Bool))
  | _, 0 => .ok []
  | number, count + 1 => do
    let address ← Buffer.loadWord raw (number * addressSize) addressSize
    let entry ← stringEntry heap address
    let entries ← stringEntries heap raw (number + 1) count
    .ok (entry :: entries)

/-- The texts of strings, when each could be read and is valid text. -/
def decodedTexts (entries : List Bytes) (complete : Bool) : Option (List Value) :=
  if complete then (entries.mapM Utf8.toText?).map fun texts => texts.map Value.text else none

/-- The element that holds strings, decoded when each could be read and is valid text. -/
def ofStrings (entries : List Bytes) (complete : Bool) (length : Int) : Except Fault Captured :=
  (StringTable.ofEntries entries).map fun payload =>
    .mk payload length (decodedTexts entries complete) none

/-! ### Elements -/

/-- The element of a stored length and address, whose items are captured by `items`. -/
def captureEntry (heap : Heap) (width : Int) (items : Bytes → Int → Except Fault Captured)
    (length address : Nat) : Except Fault Captured :=
  if length = 0 ∨ address = Heap.nullAddress then .ok empty
  else do
    let raw ← copyPayload heap width length address
    if raw.isEmpty then .ok (.mk [] length none none) else items raw length

/-- The stored lengths and addresses at `count` positions, from the one with the given number
on. -/
def loadEntries (raw : Bytes) : (number count : Nat) → Except Fault (List (Nat × Nat))
  | _, 0 => .ok []
  | number, count + 1 => do
    let entry ← Buffer.loadEntry raw (number * entrySize)
    let entries ← loadEntries raw (number + 1) count
    .ok (entry :: entries)

/-- Records decoded while their strings can be read; nothing when that is refused. -/
def decodeLive (heap : Heap) (layout : RecordLayout) (raw : Bytes) (length : Int) :
    Except Fault (Option (List Value)) :=
  let outcome : Except Fault (List Value) := do
    layout.check
    layout.unpack (some heap) raw length
  match outcome with
  | .ok values => .ok (some values)
  | .error fault => if fault.isMarshalling then .ok none else .error fault

/-- The element of `length` items whose inline bytes are given. -/
def captureItems (heap : Heap) : ElementType → Bytes → Int → Except Fault Captured
  | .fixedString width, raw, length =>
    ofStrings (fixedEntries width length raw) true length
  | .string, raw, length => do
    let entries ← stringEntries heap raw 0 length.toNat
    ofStrings (entries.map (·.1)) (entries.all (·.2)) length
  | .vlen element, raw, length => do
    let entries ← loadEntries raw 0 length.toNat
    let parts ← entries.mapM fun (count, address) =>
      captureEntry heap element.size (captureItems heap element) count address
    .ok (.mk raw length none (some parts))
  | .compound members size, raw, length =>
    if members.isVariable then do
      let decoded ← decodeLive heap (.ofMembers members size) raw length
      .ok (.mk raw length decoded none)
    else .ok (.mk raw length none none)
  | _, raw, length => .ok (.mk raw length none none)

end Captured

namespace Batch

/-- Captures the first `count` elements of a table of lengths and addresses. -/
def capture (heap : Heap) (catalogue : Catalogue) (table : Bytes) (count typeId : Int) :
    Except Fault Batch := do
  let needed := count * entrySize
  if (table.length : Int) < needed then .error (.size (.entries table.length count needed))
  else
    let base ← catalogue.sequenceElement typeId
    let elements ← captureTable heap base table 0 count.toNat
    .ok ⟨typeId, base, elements⟩
where
  /-- Captures the elements from the one with the given number on. -/
  captureTable (heap : Heap) (base : ElementType) (table : Bytes) :
      (number count : Nat) → Except Fault (List Captured)
    | _, 0 => .ok []
    | number, count + 1 => do
      let (length, address) ← Buffer.loadEntry table (number * entrySize)
      let element ←
        Captured.captureEntry heap base.size (Captured.captureItems heap base) length address
      let elements ← captureTable heap base table (number + 1) count
      .ok (element :: elements)

/-- Captures the first `count` arrays of a buffer. -/
def captureArrays (heap : Heap) (catalogue : Catalogue) (buffer : Bytes) (count typeId : Int) :
    Except Fault Batch := do
  let (base, length) ← catalogue.arrayElement typeId
  let type := ElementType.array base length
  let needed := count * type.size
  if (buffer.length : Int) < needed then .error (.size (.arrays buffer.length count needed))
  else
    match base with
    | .array _ _ => .error (.type (.uncapturable type.name))
    | _ =>
      let elements ← (List.range count.toNat).mapM fun (i : Nat) =>
        Captured.captureItems heap base
          (Bytes.slice buffer (i * type.size) ((i + 1) * type.size)) length
      .ok ⟨typeId, base, elements⟩

/-- The texts at the first `count` addresses of a buffer; empty where memory cannot be read. -/
def captureStrings (heap : Heap) (buffer : Bytes) (count : Int) : Except Fault (List Value) := do
  let needed := count * addressSize
  if (buffer.length : Int) < needed then .error (.size (.strings buffer.length count needed))
  else
    let entries ← Captured.stringEntries heap buffer 0 count.toNat
    .ok (entries.map fun entry => .text (Utf8.toTextLossy entry.1))

end Batch

end Stowage
