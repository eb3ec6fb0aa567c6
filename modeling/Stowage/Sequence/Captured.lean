import Stowage.Number.Storage
import Stowage.Record.Packing
import Stowage.Sequence.StringTable

/-!
# Captured elements

A captured element owns a copy of the bytes of one stored sequence, so it can be decoded when the
memory the sequence lay in is gone. The elements of a sequence of strings are kept as a string
table. What had to be decoded while memory was there is kept decoded, and a sequence of sequences
keeps its captured parts.

`decode` gives the values of an element or says why it has none. `interpret` puts default values of
the right number in the place of an element that cannot be decoded, so one bad element does not
affect the others.
-/

set_option autoImplicit false

namespace Stowage

/-- The owned copy of one stored sequence. -/
inductive Captured where
  /-- The bytes, the number of values, values decoded already, and the parts of a sequence of
  sequences. -/
  | mk (payload : Bytes) (length : Int) (decoded : Option (List Value))
      (parts : Option (List Captured))

namespace Captured

/-- The bytes of the sequence. -/
def payload : Captured → Bytes
  | mk payload _ _ _ => payload

/-- The number of values. -/
def length : Captured → Int
  | mk _ length _ _ => length

/-- The values that were decoded already. -/
def decoded : Captured → Option (List Value)
  | mk _ _ decoded _ => decoded

/-- The captured parts of a sequence of sequences. -/
def parts : Captured → Option (List Captured)
  | mk _ _ _ parts => parts

/-- A sequence without values. -/
def empty : Captured := mk [] 0 none none

/-- The value that stands for one that could not be decoded. -/
def default (base : ElementType) : Value :=
  match base.typeClass with
  | .integer | .enum => .int 0
  | .float => .float 0
  | .string => .text ""
  | .reference => .bytes []
  | .vlen => .list []
  | .compound | .array => .null

/-- The texts of a string table, empty ones added up to the number of values. More of them than a
sequence can hold are an overflow. -/
def decodeTexts (payload : Bytes) (length : Int) : Except Fault (List Value) :=
  match StringTable.entries payload with
  | .error fault => .error fault
  | .ok entries =>
    let texts := (Bytes.slice entries 0 length).map fun entry => Value.text (Utf8.toTextLossy entry)
    let missing := length - texts.length
    if Buffer.indexLimit ≤ missing then .error .overflow
    else .ok (texts ++ List.replicate missing.toNat (.text ""))

/-- Numbers back to back. -/
def decodeNumbers (type : NumberType) (payload : Bytes) (length : Int) :
    Except Fault (List Value) :=
  let needed := length * type.size
  if (payload.length : Int) < needed then
    .error (.invalid (.elementPayload payload.length length needed))
  else if length < 0 then .error .storage
  else .ok (type.loadAll length.toNat payload)

/-- References: the entries of a table that is the whole payload, or else cuts of the width. -/
def decodeReferences (width : Int) (payload : Bytes) (length : Int) : Except Fault (List Value) :=
  match StringTable.exactEntries? payload length with
  | some entries => .ok (entries.map .bytes)
  | none =>
    let needed := length * width
    if (payload.length : Int) < needed then
      .error (.invalid (.referencePayload payload.length length needed))
    else
      .ok ((List.range length.toNat).map fun (k : Nat) =>
        .bytes (Bytes.slice payload (k * width) ((k + 1) * width)))

/-- Records without a heap. -/
def decodeRecords (layout : RecordLayout) (payload : Bytes) (length : Int) :
    Except Fault (List Value) := do
  layout.check
  layout.unpack none payload length

/-- Default values in the place of values that could not be decoded. -/
def orDefaults (base : ElementType) (length : Int) (outcome : Except Fault (List Value)) :
    Except Fault (List Value) :=
  match outcome with
  | .ok values => .ok values
  | .error fault =>
    if fault.isDecoding then .ok (List.replicate length.toNat (default base)) else .error fault

mutual

/-- The values of an element. -/
def decode (base : ElementType) : Captured → Except Fault (List Value)
  | mk payload length decoded parts =>
    match decoded with
    | some values =>
      if (values.length : Int) ≠ length then
        .error (.invalid (.decodedCount values.length length))
      else .ok values
    | none =>
      match base with
      | .fixedString _ | .string => decodeTexts payload length
      | .vlen element =>
        match parts with
        | none => .error (.invalid .nestedMissing)
        | some parts =>
          if (parts.length : Int) ≠ length then .error (.invalid .nestedMissing)
          else interpretAll element parts
      | .number type => decodeNumbers type payload length
      | .enum backing _ => decodeNumbers backing payload length
      | .reference width => decodeReferences width payload length
      | .compound members size =>
        decodeRecords (.ofMembers members size) payload length
      | .array _ _ => .error (.type (.uninterpretable base.name))

/-- The values of elements, each as a list; default values for those that cannot be decoded. -/
def interpretAll (base : ElementType) : List Captured → Except Fault (List Value)
  | [] => .ok []
  | captured :: rest =>
    let values :=
      if captured.length = 0 then .ok [] else orDefaults base captured.length (decode base captured)
    match values with
    | .error fault => .error fault
    | .ok values =>
      match interpretAll base rest with
      | .error fault => .error fault
      | .ok others => .ok (.list values :: others)

end

/-- The values of one element, default values when it cannot be decoded. -/
def interpret (base : ElementType) (captured : Captured) : Except Fault (List Value) :=
  if captured.length = 0 then .ok [] else orDefaults base captured.length (decode base captured)

end Captured

/-- The captured elements of one stored table. -/
structure Batch where
  /-- The number of the type of the table. -/
  typeId : Int
  /-- The type of the values of each element. -/
  base : ElementType
  /-- The elements in order. -/
  elements : List Captured

/-- The values of every element of a batch. -/
def Batch.interpret (batch : Batch) : Except Fault (List Value) :=
  Captured.interpretAll batch.base batch.elements

end Stowage
