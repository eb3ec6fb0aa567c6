import Stowage.Catalogue.Basic
import Stowage.Span

/-!
# Record layouts

A record layout lists fields at byte offsets and the size of a record. `RecordLayout.check` accepts
a layout whose fields are numbers and strings, lie inside the record, and do not overlap.
-/

set_option autoImplicit false

namespace Stowage

/-- The fields of a record and its size. -/
structure RecordLayout where
  /-- The fields in the order of a record's values. -/
  fields : List Member
  /-- The bytes of a record. -/
  size : Int
  deriving DecidableEq

namespace RecordLayout

/-- Whether a field of the type can be packed into a record. -/
def isFieldType : ElementType → Bool
  | .number _ | .fixedString _ | .string => true
  | _ => false

/-- The layout of a compound type. -/
def ofMembers (members : Members) (size : Int) : RecordLayout := ⟨members.toList, size⟩

/-- Whether a field holds an address. -/
def hasVariableFields (layout : RecordLayout) : Bool := layout.fields.any (·.type.isVariable)

/-- Checks one field against the size of the record. -/
def checkField (size : Int) (field : Member) : Except Fault Unit :=
  if !isFieldType field.type then .error (.field field.name field.type.name)
  else if field.offset < 0 ∨ field.stop > size then
    .error (.layout (.fieldOutside field.name field.offset size))
  else .ok ()

/-- The bytes that a field covers. -/
def fieldSpan (field : Member) : Span := ⟨field.name, field.offset, field.stop⟩

/-- Checks the layout: first every field on its own, then neighbours in order of offsets. -/
def check (layout : RecordLayout) : Except Fault Unit :=
  match layout.fields.forM (checkField layout.size) with
  | .error fault => .error fault
  | .ok () =>
    match Span.firstOverlap? (layout.fields.map fieldSpan) with
    | some (before, span) => .error (.layout (.fieldsOverlap span.name span.offset before.name))
    | none => .ok ()

end RecordLayout

/-- The record layout of a compound type known by number. -/
def Catalogue.recordLayout (catalogue : Catalogue) (id : Int) : Except Fault RecordLayout := do
  match ← catalogue.classify id with
  | .compound members size => .ok (.ofMembers members size)
  | _ => .error (.type (.notCompound id))

end Stowage
