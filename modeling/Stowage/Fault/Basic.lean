import Stowage.Number.Basic
import Stowage.Number.ItemCode

/-!
# Faults

A fault says why an operation was refused. The constructors of `Fault` are the families that a
caller can tell apart; each carries the cause within its family. The last constructors are
refusals of the number and buffer primitives, which have no text of their own.

Two families matter to the codecs themselves: `isMarshalling` are the faults of this library's own
codecs, and `isDecoding` those that turn a captured element into default values instead of failing
the batch.
-/

set_option autoImplicit false

namespace Stowage

/-- A place in a text: line and column, both from one. -/
structure Position where
  /-- The line, counted by newline characters. -/
  line : Nat
  /-- The column, counted in characters. -/
  column : Nat
  deriving DecidableEq, Repr

/-- Why a value is not a rectangular array of numbers. -/
inductive ShapeFault where
  | notAnArray (kind : String)
  | emptyDimension (level : Nat)
  | unsupportedItems (code : ItemCode)
  | booleans
  | integersAs (wanted : NumberType)
  | floatsAs (wanted : NumberType)
  | unsupportedElement (kind : String)
  | arrayAs (found wanted : NumberType)
  | notAnArrayAt (depth : Nat) (kind : String)
  | ragged (length depth expected : Nat)
  deriving DecidableEq, Repr

/-- Why a buffer has the wrong number of bytes. -/
inductive SizeFault where
  | arrayBuffer (actual needed : Nat)
  | records (actual : Nat) (count needed : Int)
  | entries (actual : Nat) (count needed : Int)
  | arrays (actual : Nat) (count needed : Int)
  | strings (actual : Nat) (count needed : Int)
  | dataset (actual : Nat) (handle : Int) (held : Nat)
  deriving DecidableEq, Repr

/-- Why a value could not be converted. -/
inductive ConversionFault where
  | row (byte : Nat)
  | rowBytes (actual expected : Nat)
  | buffer
  | byteRow
  | itemRow (code : ItemCode)
  | unfillableRow (kind : String)
  | immutableParent (kind : String)
  | indexRange (index level : Nat)
  | dimension (level : Nat)
  | field (name : String)
  | fieldNotText (name kind : String)
  | fieldNeedsHeapToStore (name : String)
  | fieldNeedsHeapToLoad (name : String)
  | detached
  | values (typeName : String)
  | references (width : Int)
  | notText (kind : String)
  | arrayLength (element : Nat) (actual : Nat) (expected : Int)
  deriving DecidableEq, Repr

/-- Why a record and its layout disagree. -/
inductive LayoutFault where
  | recordLength (record actual fields : Nat)
  | fieldOutside (name : String) (offset recordSize : Int)
  | fieldsOverlap (name : String) (offset : Int) (other : String)
  | membersOverlap (name : String) (offset : Int) (other : String) (stop : Int)
  deriving DecidableEq, Repr

/-- Why a type cannot be used where it was given. -/
inductive TypeFault where
  | noInteger (size : Int)
  | noFloat (size : Int)
  | noBacking (size : Int)
  | arrayRank (rank : Nat)
  | noClass
  | notCompound (id : Int)
  | notSequence (typeName : String)
  | notArray (typeName : String)
  | uninterpretable (typeName : String)
  | uncapturable (typeName : String)
  | unpackable (typeName : String)
  deriving DecidableEq, Repr

/-- Why an address does not refer to memory that can be used. -/
inductive MemoryFault where
  | closed
  | notLive (address : Int)
  | unallocated (address : Int)
  | freed (address : Int)
  | overrun (count : Int) (address : Int)
  | unterminated (address : Int)
  deriving DecidableEq, Repr

/-- How a traversal ended before it visited every row. -/
inductive TraversalFault where
  | early (offset : Int) (total : Nat)
  | dimension (level index last : Nat)
  deriving DecidableEq, Repr

/-- Why an argument, a descriptor or a captured payload is not acceptable. -/
inductive InvalidFault where
  | allocation (count : Int)
  | datasetCount (count : Int)
  | datasetType (handle : Int) (held given : String)
  | noElementType (id : Int)
  | notAnArrayType (id : Int)
  | noMembers (id : Int)
  | notACompoundType (id : Int)
  | notAnEnumType (id : Int)
  | alreadyDefined (name : String)
  | width (name : String) (given : Int)
  | takesNoWidth (name : String)
  | arrayLength (length : Int)
  | nestedArray
  | enumBacking (name : String)
  | duplicateEnumMember (name : String)
  | duplicateMember (name : String)
  | negativeOffset (name : String)
  | tableTooShort
  | tableTruncated (entry : Nat)
  | tableOverrun (entry : Nat)
  | decodedCount (actual : Nat) (expected : Int)
  | nestedMissing
  | elementPayload (actual : Nat) (count needed : Int)
  | referencePayload (actual : Nat) (count needed : Int)
  deriving DecidableEq, Repr

/-- What was looked up and not found. -/
inductive LookupFault where
  | enumMember (name : String)
  | compoundMember (name : String)
  | typeName (name : String)
  | typeId (id : Int)
  | dataset (handle : Int)
  | entry
  deriving DecidableEq, Repr

/-- Why a text is not a type description. -/
inductive GrammarFault where
  | illegalCharacter (c : Char) (position : Position)
  | unexpectedToken (text : String) (position : Position)
  | unexpectedEnd
  | noDefinitions
  deriving DecidableEq, Repr

/-- Why an operation was refused. -/
inductive Fault where
  | shape (cause : ShapeFault)
  | size (cause : SizeFault)
  | conversion (cause : ConversionFault)
  | layout (cause : LayoutFault)
  | field (name typeName : String)
  | type (cause : TypeFault)
  | memory (cause : MemoryFault)
  | traversal (cause : TraversalFault)
  | invalid (cause : InvalidFault)
  | lookup (cause : LookupFault)
  | grammar (cause : GrammarFault)
  /-- A value of the wrong kind. -/
  | operand
  /-- An index outside its sequence. -/
  | index
  /-- A number too large for its representation. -/
  | overflow
  /-- A value that is not acceptable to a primitive. -/
  | malformed
  /-- A number that does not fit its word, or a word that does not fit its buffer. -/
  | storage
  /-- A chain of types without end. -/
  | unbounded
  deriving DecidableEq, Repr

namespace Fault

/-- Whether a fault is one of this library's own codecs. -/
def isMarshalling : Fault → Bool
  | .shape _ | .size _ | .conversion _ | .layout _ | .field _ _ | .type _ | .memory _ => true
  | _ => false

/-- Whether a fault while decoding an element makes default values of it. -/
def isDecoding : Fault → Bool
  | .invalid _ | .malformed | .storage => true
  | fault => fault.isMarshalling

end Fault

end Stowage
