import Stowage.Fault.Basic

/-!
# Messages of faults

`Fault.message` gives the text of a fault. The refusals of the number and buffer primitives have
none, and where another fault was caused by one of them the text ends in a mark for it.
-/

set_option autoImplicit false

namespace Stowage

/-- A number in lower-case hexadecimal after `0x`, the sign in front. -/
def hexadecimal (n : Int) : String :=
  (if n < 0 then "-0x" else "0x") ++ String.ofList (Nat.toDigits 16 n.natAbs)

/-- The mark for the text of a refusal by a primitive. -/
def causeMark : String := "<cause>"

/-- A name in single quotes. -/
def quoted (name : String) : String := "'" ++ name ++ "'"

namespace ShapeFault

/-- The text of a shape fault. -/
def message : ShapeFault → String
  | .notAnArray kind => s!"Expected an array, got {kind}"
  | .emptyDimension dimension => s!"Dimension {dimension} is empty"
  | .unsupportedItems code =>
    "Unsupported array typecode " ++ quoted (String.singleton code.letter)
  | .booleans => "Boolean elements are not supported"
  | .integersAs wanted => "Integer elements cannot be stored as " ++ wanted.name
  | .floatsAs wanted => "Float elements cannot be stored as " ++ wanted.name
  | .unsupportedElement kind => s!"Unsupported element type: {kind}"
  | .arrayAs found wanted => "Array of " ++ found.name ++ " cannot be stored as " ++ wanted.name
  | .notAnArrayAt depth kind => s!"Expected an array at depth {depth}, got {kind}"
  | .ragged length depth expected =>
    s!"Ragged array: length {length} at depth {depth}, expected {expected}"

end ShapeFault

namespace SizeFault

/-- The text of a size fault. -/
def message : SizeFault → String
  | .arrayBuffer actual needed => s!"Buffer holds {actual} bytes, array needs {needed}"
  | .records actual count needed =>
    s!"Buffer holds {actual} bytes, {count} records need {needed}"
  | .entries actual count needed => s!"Table holds {actual} bytes, {count} entries need {needed}"
  | .arrays actual count needed => s!"Buffer holds {actual} bytes, {count} arrays need {needed}"
  | .strings actual count needed =>
    s!"Buffer holds {actual} bytes, {count} strings need {needed}"
  | .dataset actual handle held =>
    s!"Buffer holds {actual} bytes, dataset {handle} holds {held}"

end SizeFault

namespace ConversionFault

/-- The text of a conversion fault. -/
def message : ConversionFault → String
  | .row byte => s!"Cannot pack row at byte {byte}: " ++ causeMark
  | .rowBytes actual expected => s!"Row holds {actual} bytes, expected {expected}"
  | .buffer => "Cannot decode buffer: " ++ causeMark
  | .byteRow => "Cannot store [...] in a byte row: " ++ causeMark
  | .itemRow code =>
    "Cannot store [...] in an array of typecode " ++ quoted (String.singleton code.letter)
  | .unfillableRow kind => s!"Cannot fill a row of type {kind}"
  | .immutableParent kind => s!"Cannot replace a row inside an immutable {kind}"
  | .indexRange index level => s!"Index {index} out of range for dimension {level}"
  | .dimension level => s!"Cannot index dimension {level}: " ++ causeMark
  | .field name => "Field " ++ quoted name ++ ": " ++ causeMark
  | .fieldNotText name kind => "Field " ++ quoted name ++ " expects a string, got " ++ kind
  | .fieldNeedsHeapToStore name =>
    "Field " ++ quoted name ++ " needs a library to allocate its string"
  | .fieldNeedsHeapToLoad name =>
    "Field " ++ quoted name ++ " needs a library to read its string"
  | .detached => "This operation needs a library"
  | .values typeName => "Cannot pack " ++ typeName ++ " values: " ++ causeMark
  | .references width => s!"References must be {width} bytes long"
  | .notText kind => s!"Expected a string, got {kind}"
  | .arrayLength element actual expected =>
    s!"Array element {element} has {actual} values, expected {expected}"

end ConversionFault

namespace LayoutFault

/-- The text of a layout fault. -/
def message : LayoutFault → String
  | .recordLength record actual fields =>
    s!"Record {record} has {actual} values, layout has {fields} fields"
  | .fieldOutside name offset recordSize =>
    "Field " ++ quoted name ++
      s!" at offset {offset} does not fit in a {recordSize}-byte record"
  | .fieldsOverlap name offset other =>
    "Field " ++ quoted name ++ s!" at offset {offset} overlaps field " ++ quoted other
  | .membersOverlap name offset other stop =>
    "Member " ++ quoted name ++ s!" at offset {offset} overlaps " ++ quoted other ++
      s!", which ends at {stop}"

end LayoutFault

namespace TypeFault

/-- The text of a type fault. -/
def message : TypeFault → String
  | .noInteger size => s!"No integer type of {size} bytes"
  | .noFloat size => s!"No float type of {size} bytes"
  | .noBacking size => s!"No enum backing type of {size} bytes"
  | .arrayRank rank => s!"Only 1-D arrays are supported, got {rank}-D"
  | .noClass => "Unsupported type class: None"
  | .notCompound id => s!"Type {id} is not a compound type"
  | .notSequence typeName => "Type " ++ typeName ++ " is not a variable-length type"
  | .notArray typeName => "Type " ++ typeName ++ " is not an array type"
  | .uninterpretable typeName => "Cannot interpret elements of type " ++ typeName
  | .uncapturable typeName => "Cannot capture elements of type " ++ typeName
  | .unpackable typeName => "Cannot pack elements of type " ++ typeName

end TypeFault

namespace MemoryFault

/-- The text of a memory fault. -/
def message : MemoryFault → String
  | .closed => "Heap is closed"
  | .notLive address => "Address " ++ hexadecimal address ++ " is not a live block"
  | .unallocated address => "Address " ++ hexadecimal address ++ " is not allocated"
  | .freed address => "Address " ++ hexadecimal address ++ " refers to freed memory"
  | .overrun count address =>
    s!"Access of {count} bytes at " ++ hexadecimal address ++ " overruns its block"
  | .unterminated address => "String at " ++ hexadecimal address ++ " is not terminated"

end MemoryFault

namespace TraversalFault

/-- The text of a traversal fault. -/
def message : TraversalFault → String
  | .early offset total => s!"Traversal did not complete all data: n={offset} size={total}"
  | .dimension level index last =>
    s!"Traversal did not complete all data: current_index[{level}] = {index}" ++
      s!" (should be {last})"

end TraversalFault

namespace InvalidFault

/-- The text of an invalid argument, descriptor or payload. -/
def message : InvalidFault → String
  | .allocation count => s!"Cannot allocate {count} bytes"
  | .datasetCount count => s!"Dataset count must not be negative, got {count}"
  | .datasetType handle held given => s!"Dataset {handle} holds " ++ held ++ ", not " ++ given
  | .noElementType id => s!"Type {id} has no element type"
  | .notAnArrayType id => s!"Type {id} is not an array type"
  | .noMembers id => s!"Type {id} has no members"
  | .notACompoundType id => s!"Type {id} is not a compound type"
  | .notAnEnumType id => s!"Type {id} is not an enum type"
  | .alreadyDefined name => "Type " ++ quoted name ++ " is already defined"
  | .width name given => "Width of " ++ quoted name ++ s!" must be positive, got {given}"
  | .takesNoWidth name => "Type " ++ quoted name ++ " does not take a width"
  | .arrayLength length => s!"Array length must be positive, got {length}"
  | .nestedArray => "Arrays of arrays are not supported"
  | .enumBacking name => "Enum backing type must be an integer type, got " ++ quoted name
  | .duplicateEnumMember name => s!"Duplicate enum member: {name}"
  | .duplicateMember name => s!"Duplicate compound member: {name}"
  | .negativeOffset name => "Member " ++ quoted name ++ " has a negative offset"
  | .tableTooShort => "String table is too short for its count"
  | .tableTruncated entry => s!"String table truncated at entry {entry}"
  | .tableOverrun entry => s!"String table entry {entry} overruns the payload"
  | .decodedCount actual expected => s!"Decoded {actual} values, expected {expected}"
  | .nestedMissing => "Nested elements were not captured"
  | .elementPayload actual count needed =>
    s!"Payload holds {actual} bytes, {count} elements need {needed}"
  | .referencePayload actual count needed =>
    s!"Payload holds {actual} bytes, {count} references need {needed}"

end InvalidFault

namespace LookupFault

/-- The text of a failed look-up, when it has one. -/
def message? : LookupFault → Option String
  | .enumMember name => some s!"Unknown enum member: {name}"
  | .compoundMember name => some s!"Unknown compound member: {name}"
  | .typeName name => some s!"Unknown type: {name}"
  | .typeId id => some s!"Unknown type id: {id}"
  | .dataset handle => some s!"Unknown dataset handle: {handle}"
  | .entry => none

end LookupFault

namespace GrammarFault

/-- The text of a grammar fault. -/
def message : GrammarFault → String
  | .illegalCharacter c position =>
    let line := position.line
    let column := position.column
    "Illegal character " ++ quoted (String.singleton c) ++ s!" at line {line}, column {column}"
  | .unexpectedToken text position =>
    let line := position.line
    let column := position.column
    "Syntax error at " ++ quoted text ++ s!" (line {line}, column {column})"
  | .unexpectedEnd => "Syntax error at end of input"
  | .noDefinitions => "Expected one or more 'define' statements"

end GrammarFault

namespace Fault

/-- The text of a fault, when it has one. -/
def message? : Fault → Option String
  | .shape cause => some cause.message
  | .size cause => some cause.message
  | .conversion cause => some cause.message
  | .layout cause => some cause.message
  | .field name typeName =>
    some ("Field " ++ quoted name ++ " has unsupported type " ++ typeName)
  | .type cause => some cause.message
  | .memory cause => some cause.message
  | .traversal cause => some cause.message
  | .invalid cause => some cause.message
  | .lookup cause => cause.message?
  | .grammar cause => some cause.message
  | .operand | .index | .overflow | .malformed | .storage | .unbounded => none

end Fault

end Stowage
