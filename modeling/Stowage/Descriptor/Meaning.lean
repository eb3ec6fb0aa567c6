import Stowage.ElementType
import Stowage.Span

/-!
# What descriptor phrases mean

Each phrase of descriptor text has a type as its meaning, or is refused. The functions here give
the meaning of one phrase from the meanings of its parts: a name from the types known by name, a
name with a width, an array, an enumeration whose values count on from the last one given, and a
compound whose members lie back to back unless an offset is given.

When a phrase is wrong in two ways, the order of the checks decides which fault it has.
-/

set_option autoImplicit false

namespace Stowage.Descriptor

/-- Types known by name, in the order they were defined. -/
abbrev Definitions := List (String × ElementType)

/-- The type that a name has before any definition. -/
def builtin? (name : String) : Option ElementType :=
  match NumberType.ofName? name with
  | some type => some (.number type)
  | none =>
    if name = "string" then some .string
    else if name = "reference" then some (.reference referenceSize)
    else none

/-- The type of a name. -/
def typeNamed (definitions : Definitions) (name : String) : Except Fault ElementType :=
  match builtin? name with
  | some type => .ok type
  | none =>
    match definitions.find? (·.1 == name) with
    | some (_, type) => .ok type
    | none => .error (.lookup (.typeName name))

/-- The type of a name with a width. -/
def sized (name : String) (width : Int) : Except Fault ElementType :=
  if width ≤ 0 then .error (.invalid (.width name width))
  else if name = "string" then .ok (.fixedString width)
  else if name = "reference" then .ok (.reference width)
  else .error (.invalid (.takesNoWidth name))

/-- Whether a type is an array. -/
def isArrayType : ElementType → Bool
  | .array _ _ => true
  | _ => false

/-- The array of a length. -/
def arrayOf (element : ElementType) (length : Int) : Except Fault ElementType :=
  if length ≤ 0 then .error (.invalid (.arrayLength length))
  else if isArrayType element then .error (.invalid .nestedArray)
  else .ok (.array element length)

/-- A constant as it is written: a name, and a value when one is given. -/
structure ConstantSpec where
  /-- The name of the constant. -/
  name : String
  /-- The value, when one is given. -/
  value? : Option Int
  deriving DecidableEq, Repr

/-- The constants with their values, counting on from `next`, given the names already used. -/
def numbered (next : Int) (used : List String) :
    List ConstantSpec → Except Fault (List (String × Int))
  | [] => .ok []
  | spec :: rest =>
    if used.contains spec.name then .error (.invalid (.duplicateEnumMember spec.name))
    else
      let value := spec.value?.getD next
      match numbered (value + 1) (spec.name :: used) rest with
      | .ok members => .ok ((spec.name, value) :: members)
      | .error fault => .error fault

/-- The enumeration over a backing type. -/
def enumOf (backing : String) (specs : List ConstantSpec) : Except Fault ElementType :=
  match (NumberType.ofName? backing).filter (·.isInteger) with
  | none => .error (.invalid (.enumBacking backing))
  | some type =>
    match numbered 0 [] specs with
    | .ok members => .ok (.enum type members)
    | .error fault => .error fault

/-- A member as it is written: a name, a type, and an offset when one is given. -/
structure MemberSpec where
  /-- The name of the member. -/
  name : String
  /-- The type of the member. -/
  type : ElementType
  /-- The offset, when one is given. -/
  offset? : Option Int
  deriving DecidableEq

/-- The members at their offsets, the first at `next` and each at the end of the one listed before
it unless it says otherwise, given the names already used. -/
def placed (next : Int) (used : List String) : List MemberSpec → Except Fault (List Member)
  | [] => .ok []
  | spec :: rest =>
    if used.contains spec.name then .error (.invalid (.duplicateMember spec.name))
    else
      let offset := spec.offset?.getD next
      if offset < 0 then .error (.invalid (.negativeOffset spec.name))
      else
        let member : Member := ⟨spec.name, offset, spec.type⟩
        match placed member.stop (spec.name :: used) rest with
        | .ok members => .ok (member :: members)
        | .error fault => .error fault

/-- The bytes that a member covers. -/
def memberSpan (member : Member) : Span := ⟨member.name, member.offset, member.stop⟩

/-- The compound of the given members, none of which may overlap. -/
def compoundOf (specs : List MemberSpec) : Except Fault ElementType :=
  match placed 0 [] specs with
  | .error fault => .error fault
  | .ok members =>
    match Span.firstOverlap? (members.map memberSpan) with
    | some (before, span) =>
      .error (.layout (.membersOverlap span.name span.offset before.name before.stop))
    | none => .ok (ElementType.compoundOf members (-1))

/-- The definitions with one more, when its name is free. -/
def define (definitions : Definitions) (name : String) (type : ElementType) :
    Except Fault Definitions :=
  if (definitions.any (·.1 == name)) || (builtin? name).isSome then
    .error (.invalid (.alreadyDefined name))
  else .ok (definitions ++ [(name, type)])

end Stowage.Descriptor
