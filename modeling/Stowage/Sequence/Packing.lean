import Stowage.Catalogue.Basic
import Stowage.Record.Packing

/-!
# Packing sequences

`Sequence.encode` lays the elements of a sequence out in payload bytes. What an element keeps
outside of its inline bytes, a string or an inner sequence, is placed in the heap first and its
address stored inline. A missing or empty sequence is stored as length and address zero and takes no
block.

`packSequences`, `packArrays` and `packStrings` build whole tables. Each notes the blocks it
allocates; when an element is refused, they are freed again, the last one first, and the refusal is
passed on.
-/

set_option autoImplicit false

namespace Stowage

namespace Sequence

/-- The bytes of a value that must be text; a missing one is empty. -/
def textBytes (value : Value) : Except Fault Bytes :=
  match RecordLayout.textBytes? value with
  | some bytes => .ok bytes
  | none => .error (.conversion (.notText value.kindName))

/-- The bytes of a fixed string; there is no room for one that is too wide. -/
def fixedPart (width : Int) (value : Value) : Except Fault Bytes := do
  let bytes ← textBytes value
  if Buffer.indexLimit ≤ width then .error .overflow else .ok (RecordLayout.fixedBytes width bytes)

/-- The values of an enumeration with the names of constants replaced by their values. -/
def resolveConstants (members : List (String × Int)) : List Value → Except Fault (List Value)
  | [] => .ok []
  | value :: rest => do
    let value ← match value with
      | .text name => (ElementType.valueOf members name).map .int
      | other => .ok other
    let others ← resolveConstants members rest
    .ok (value :: others)

/-- Numbers back to back; a missing one is the zero of the type. -/
def encodeNumbers (typeName : String) (type : NumberType) (values : List Value) :
    Except Fault Bytes :=
  match type.storeAll (values.map type.present) with
  | .error .storage => .error (.conversion (.values typeName))
  | outcome => outcome

/-- The bytes of a reference, which must have the width. -/
def referenceBytes? (width : Int) (value : Value) : Option Bytes :=
  value.data?.filter fun data => (data.length : Int) == width

/-- References back to back. -/
def encodeReferences (width : Int) (values : List Value) : Except Fault Bytes :=
  match values.mapM (referenceBytes? width) with
  | some parts => .ok parts.flatten
  | none => .error (.conversion (.references width))

/-- The address of a copy of a text; a missing text has the null address. -/
def placeText (value : Value) : Action Ledger Nat :=
  match value with
  | .null => pure Heap.nullAddress
  | value => do
    let bytes ← .ofExcept (textBytes value)
    Ledger.place (bytes ++ [0])

/-- The length and the address of a sequence whose elements are laid out by `items`. -/
def placeSequence (items : Value → Action Ledger Bytes) (value : Value) :
    Action Ledger (Nat × Nat) :=
  if !value.isTruthy then pure (0, Heap.nullAddress)
  else do
    let payload ← items value
    let address ← Ledger.place payload
    let length ← .ofExcept (Buffer.wordNumber addressSize (value.elements?.getD []).length)
    pure (length, address)

/-- The payload bytes of a sequence of elements. -/
def encode : ElementType → Value → Action Ledger Bytes
  | base, value =>
    match value.elements? with
    | none => .refuse .operand
    | some values =>
      match base with
      | .number type => .ofExcept (encodeNumbers type.name type values)
      | .enum backing members => .ofExcept do
        let values ← resolveConstants members values
        encodeNumbers (ElementType.enum backing members).name backing values
      | .string => do
        let addresses ← Action.collect placeText values
        pure (addresses.flatMap (Bytes.ofNat addressSize))
      | .fixedString width => .ofExcept do
        let parts ← values.mapM (fixedPart width)
        .ok parts.flatten
      | .reference width => .ofExcept (encodeReferences width values)
      | .vlen element => do
        let entries ← Action.collect (placeSequence (encode element)) values
        pure (entries.flatMap fun entry => Buffer.entryBytes entry.1 entry.2)
      | .compound members size => (RecordLayout.ofMembers members size).packNoting true value
      | .array element length =>
        .refuse (.type (.unpackable (ElementType.array element length).name))

/-- The table of sequences of a sequence type, and the addresses of the blocks it owns. -/
def packSequences (catalogue : Catalogue) (values : Value) (typeId : Int) :
    Action Heap (Bytes × List Nat) := do
  let base ← .ofExcept (catalogue.sequenceElement typeId)
  match values.elements? with
  | none => .refuse .operand
  | some elements =>
    Ledger.settle List.reverse do
      let entries ← Action.collect (placeSequence (encode base)) elements
      pure (entries.flatMap fun entry => Buffer.entryBytes entry.1 entry.2)

/-- Packs arrays into a buffer from the one with the given number on. A missing array is left
zero. -/
def packArraysFrom (base : ElementType) (length size : Int) :
    (number : Nat) → List Value → Bytes → Action Ledger Bytes
  | _, [], out => pure out
  | number, .null :: rest, out => packArraysFrom base length size (number + 1) rest out
  | number, value :: rest, out =>
    match value.elements? with
    | none => .refuse .operand
    | some values =>
      if (values.length : Int) ≠ length then
        .refuse (.conversion (.arrayLength number values.length length))
      else do
        let bytes ← encode base value
        packArraysFrom base length size (number + 1) rest
          (Bytes.splice out (number * size) ((number + 1) * size) bytes)

/-- The buffer of arrays of an array type, and the addresses of the blocks it owns. -/
def packArrays (catalogue : Catalogue) (values : Value) (typeId : Int) :
    Action Heap (Bytes × List Nat) := do
  let (base, length) ← .ofExcept (catalogue.arrayElement typeId)
  match values.elements? with
  | none => .refuse .operand
  | some elements => do
    let size := (ElementType.array base length).size
    let out ← .ofExcept (Buffer.zeroed (elements.length * size))
    Ledger.settle List.reverse (packArraysFrom base length size 0 elements out)

/-- The buffer of the addresses of texts, and the addresses of the blocks it owns. -/
def packStrings (values : Value) : Action Heap (Bytes × List Nat) :=
  match values.elements? with
  | none => .refuse .operand
  | some elements =>
    Ledger.settle List.reverse do
      let addresses ← Action.collect placeText elements
      pure (addresses.flatMap (Bytes.ofNat addressSize))

end Sequence

end Stowage
