import Stowage.Action
import Stowage.ElementType

/-!
# Type catalogues

A catalogue knows element types by number and answers questions about one type at a time: its
class, its size, what it contains. `Catalogue.classify` puts the answers together to an element
type. A catalogue that is not honest about its sizes still has an answer for every question, so
`classify` refuses what has no counterpart: a number of a width that does not exist, an array that
does not have exactly one dimension, a type without a class.
-/

set_option autoImplicit false

namespace Stowage

/-- The questions that can be asked about types known by number. -/
structure Catalogue where
  /-- The class of a type; a type may have none. -/
  classOf : Int → Except Fault (Option TypeClass)
  /-- The inline size of a type. -/
  sizeOf : Int → Except Fault Int
  /-- The type of the elements of a sequence or an array. -/
  elementOf : Int → Except Fault Int
  /-- The dimensions of an array. -/
  dimensionsOf : Int → Except Fault (List Int)
  /-- Whether a string is stored by its address. -/
  isVariableString : Int → Except Fault Bool
  /-- The number of members of a compound or an enumeration. -/
  memberCount : Int → Except Fault Nat
  /-- The name of a member. -/
  memberName : Int → Int → Except Fault String
  /-- The offset of a member of a compound. -/
  memberOffset : Int → Int → Except Fault Int
  /-- The type of a member of a compound. -/
  memberType : Int → Int → Except Fault Int
  /-- The value of a member of an enumeration. -/
  memberValue : Int → Int → Except Fault Int
  /-- No chain of types, each contained in the one before it, is longer. -/
  depth : Nat

namespace Catalogue

/-- The element type of a number, following chains of contained types up to a bound. -/
def classifyWithin (catalogue : Catalogue) : (bound : Nat) → Int → Except Fault ElementType
  | 0, _ => .error .unbounded
  | bound + 1, id => do
    let typeClass ← catalogue.classOf id
    let size ← catalogue.sizeOf id
    match typeClass with
    | some .integer =>
      match NumberType.integerOfSize? size with
      | some type => .ok (.number type)
      | none => .error (.type (.noInteger size))
    | some .float =>
      match NumberType.floatOfSize? size with
      | some type => .ok (.number type)
      | none => .error (.type (.noFloat size))
    | some .string =>
      if ← catalogue.isVariableString id then .ok .string else .ok (.fixedString size)
    | some .vlen =>
      let element ← classifyWithin catalogue bound (← catalogue.elementOf id)
      .ok (.vlen element)
    | some .array =>
      match ← catalogue.dimensionsOf id with
      | [length] =>
        let element ← classifyWithin catalogue bound (← catalogue.elementOf id)
        .ok (.array element length)
      | dimensions => .error (.type (.arrayRank dimensions.length))
    | some .reference => .ok (.reference size)
    | some .enum =>
      match NumberType.integerOfSize? size with
      | none => .error (.type (.noBacking size))
      | some type =>
        let members ← (List.range (← catalogue.memberCount id)).mapM fun (i : Nat) => do
          let name ← catalogue.memberName id i
          let value ← catalogue.memberValue id i
          .ok (name, value)
        .ok (.enum type members)
    | some .compound =>
      let members ← (List.range (← catalogue.memberCount id)).mapM fun (i : Nat) => do
        let name ← catalogue.memberName id i
        let offset ← catalogue.memberOffset id i
        let type ← classifyWithin catalogue bound (← catalogue.memberType id i)
        .ok (⟨name, offset, type⟩ : Member)
      .ok (ElementType.compoundOf members size)
    | none => .error (.type .noClass)

/-- The element type of a number. -/
def classify (catalogue : Catalogue) (id : Int) : Except Fault ElementType :=
  catalogue.classifyWithin (catalogue.depth + 1) id

/-- The element type of a sequence or an array, or the type itself. -/
def baseOf (catalogue : Catalogue) (id : Int) : Except Fault Int := do
  match ← catalogue.classOf id with
  | some .vlen | some .array => catalogue.elementOf id
  | _ => .ok id

/-- Whether a type is a string, or a sequence or array of strings. -/
def isText (catalogue : Catalogue) (id : Int) : Except Fault Bool := do
  let typeClass ← catalogue.classOf (← catalogue.baseOf id)
  .ok (typeClass == some .string)

/-- The type of the elements of a sequence type. -/
def sequenceElement (catalogue : Catalogue) (id : Int) : Except Fault ElementType := do
  match ← catalogue.classify id with
  | .vlen element => .ok element
  | type => .error (.type (.notSequence type.name))

/-- The type of the elements of an array type, and their number. -/
def arrayElement (catalogue : Catalogue) (id : Int) : Except Fault (ElementType × Int) := do
  match ← catalogue.classify id with
  | .array element length => .ok (element, length)
  | type => .error (.type (.notArray type.name))

end Catalogue

end Stowage
