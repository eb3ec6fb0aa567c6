import Stowage.Buffer
import Stowage.Ledger
import Stowage.Number.Storage
import Stowage.Record.Layout
import Stowage.Text.Utf8

/-!
# Packed records

A packed record holds each field's value at the field's offset: numbers in their bytes, fixed
strings cut at their width and filled up with zero bytes, other strings as the address of a
zero-terminated copy in the heap. A missing value packs as the zero of its field.

Reading a record follows the addresses at once. A string that cannot be read any more is empty.
Without a heap, records with such strings can be neither packed nor, unless the address is null,
read.
-/

set_option autoImplicit false

namespace Stowage

namespace RecordLayout

/-- The bytes of a value that counts as text; a missing one is empty. -/
def textBytes? : Value → Option Bytes
  | .null => some []
  | .text s => some (Utf8.ofText s)
  | .bytes data | .buffer data => some data
  | _ => none

/-- Bytes cut at a width and filled up to it. -/
def fixedBytes (width : Int) (bytes : Bytes) : Bytes :=
  Bytes.padTo width.toNat (Bytes.slice bytes 0 width)

/-- The text in the bytes of a fixed string. -/
def fixedText (bytes : Bytes) : Value := .text (Utf8.toTextLossy (Bytes.untilNul bytes))

/-! ### Packing -/

/-- Packs a number at a position. -/
def packNumber (name : String) (type : NumberType) (position : Int) (value : Value)
    (out : Bytes) : Except Fault Bytes :=
  let stored : Except Fault Bytes := do
    let _ ← Buffer.wordBytes out position type.size
    let bytes ← type.store (type.present value)
    Buffer.storeWord out position bytes
  match stored with
  | .error .storage => .error (.conversion (.field name))
  | outcome => outcome

/-- Packs one field of a record that starts at `base`. -/
def packField (attached : Bool) (base : Int) (field : Member) (value : Value) (out : Bytes) :
    Action Ledger Bytes :=
  let position := base + field.offset
  match field.type with
  | .number type => .ofExcept (packNumber field.name type position value out)
  | type =>
    match textBytes? value with
    | none => .refuse (.conversion (.fieldNotText field.name value.kindName))
    | some bytes =>
      match type with
      | .fixedString width =>
        pure (Bytes.splice out position (position + width) (fixedBytes width bytes))
      | _ =>
        if attached then do
          let address ← Ledger.place (bytes ++ [0])
          .ofExcept (Buffer.storeWord out position (Bytes.ofNat addressSize address))
        else .refuse (.conversion (.fieldNeedsHeapToStore field.name))

/-- Packs the fields of a record in order. -/
def packFields (attached : Bool) (base : Int) :
    List Member → List Value → Bytes → Action Ledger Bytes
  | field :: fields, value :: values, out => do
    let out ← packField attached base field value out
    packFields attached base fields values out
  | _, _, out => pure out

/-- Packs records from the one with the given number on. -/
def packFrom (layout : RecordLayout) (attached : Bool) :
    (number : Nat) → List Value → Bytes → Action Ledger Bytes
  | _, [], out => pure out
  | number, record :: rest, out =>
    match record.elements? with
    | none => .refuse .operand
    | some values =>
      if values.length ≠ layout.fields.length then
        .refuse (.layout (.recordLength number values.length layout.fields.length))
      else do
        let out ← packFields attached (number * layout.size) layout.fields values out
        packFrom layout attached (number + 1) rest out

/-- Packs records into a new buffer, and gives the addresses of the strings allocated for them.
When it is refused, those strings are freed. -/
def pack (layout : RecordLayout) (attached : Bool) (records : Value) :
    Action Heap (Bytes × List Nat) :=
  match records.elements? with
  | none => .refuse .operand
  | some elements => do
    let out ← .ofExcept (Buffer.zeroed (elements.length * layout.size))
    Ledger.settle id (packFrom layout attached 0 elements out)

/-- Checks the layout, packs records, and notes the strings allocated for them once all of them are
packed. -/
def packNoting (layout : RecordLayout) (attached : Bool) (records : Value) :
    Action Ledger Bytes := do
  .ofExcept layout.check
  let (buffer, addresses) ← Ledger.onHeap (layout.pack attached records)
  Ledger.note addresses
  pure buffer

/-! ### Reading -/

/-- Reads one field of a record that starts at `base`. -/
def unpackField (heap? : Option Heap) (buffer : Bytes) (base : Int) (field : Member) :
    Except Fault Value :=
  let position := base + field.offset
  match field.type with
  | .number type => (Buffer.wordBytes buffer position type.size).map type.load
  | .fixedString width => .ok (fixedText (Bytes.slice buffer position (position + width)))
  | _ => do
    let address ← Buffer.loadWord buffer position addressSize
    if address = Heap.nullAddress then .ok (.text "")
    else
      match heap? with
      | none => .error (.conversion (.fieldNeedsHeapToLoad field.name))
      | some heap =>
        match heap.readString address with
        | .ok bytes => .ok (.text (Utf8.toTextLossy bytes))
        | .error (.memory _) => .ok (.text "")
        | .error fault => .error fault

/-- Reads `count` records from the one with the given number on. -/
def unpackFrom (layout : RecordLayout) (heap? : Option Heap) (buffer : Bytes) :
    (number count : Nat) → Except Fault (List Value)
  | _, 0 => .ok []
  | number, count + 1 => do
    let values ← layout.fields.mapM (unpackField heap? buffer (number * layout.size))
    let records ← unpackFrom layout heap? buffer (number + 1) count
    .ok (.tuple values :: records)

/-- Reads records from a buffer that holds at least as many. -/
def unpack (layout : RecordLayout) (heap? : Option Heap) (buffer : Bytes) (count : Int) :
    Except Fault (List Value) :=
  if (buffer.length : Int) < count * layout.size then
    .error (.size (.records buffer.length count (count * layout.size)))
  else layout.unpackFrom heap? buffer 0 count.toNat

end RecordLayout

end Stowage
