import Stowage.Fault.Basic

/-!
# Element types

An element type says what one stored element is and how many bytes it takes inline: a number, a
string of fixed width, the address of a string, a sequence stored as length and address, a fixed
number of elements back to back, an opaque reference, a named constant over a number, or a record
of named members at byte offsets.

Widths, lengths, offsets and sizes are integers, because a type given directly is not checked; the
types read from descriptor text are. `compoundOf` computes the size of a compound whose declared
size is negative.
-/

set_option autoImplicit false

namespace Stowage

mutual

/-- The type of one stored element. -/
inductive ElementType where
  /-- A number stored inline. -/
  | number (type : NumberType)
  /-- Text stored inline in `width` bytes, filled up with zero bytes. -/
  | fixedString (width : Int)
  /-- The address of zero-terminated text. -/
  | string
  /-- The length and the address of a sequence. -/
  | vlen (element : ElementType)
  /-- `length` elements back to back. -/
  | array (element : ElementType) (length : Int)
  /-- `width` bytes that are not interpreted. -/
  | reference (width : Int)
  /-- A number with named values. -/
  | enum (backing : NumberType) (members : List (String × Int))
  /-- Named members at byte offsets inside `size` bytes. -/
  | compound (members : Members) (size : Int)

/-- The members of a compound, in the order they are listed. -/
inductive Members where
  | nil
  | cons (name : String) (offset : Int) (type : ElementType) (rest : Members)

end

deriving instance DecidableEq for ElementType, Members

/-- The coarse class of an element type. -/
inductive TypeClass where
  | integer
  | float
  | string
  | vlen
  | compound
  | reference
  | enum
  | array
  deriving DecidableEq, Repr

/-- Bytes of a stored address. -/
def addressSize : Nat := 8

/-- Bytes of a stored length and address. -/
def entrySize : Nat := 16

/-- The width of a reference when none is given. -/
def referenceSize : Int := 8

namespace ElementType

/-- The bytes one element takes inline. -/
def size : ElementType → Int
  | number type => type.size
  | fixedString width => width
  | string => addressSize
  | vlen _ => entrySize
  | array element length => element.size * length
  | reference width => width
  | enum backing _ => backing.size
  | compound _ size => size

/-- The class of the type. -/
def typeClass : ElementType → TypeClass
  | number type => if type.isFloat then .float else .integer
  | fixedString _ | string => .string
  | vlen _ => .vlen
  | array _ _ => .array
  | reference _ => .reference
  | enum _ _ => .enum
  | compound _ _ => .compound

/-- Whether the elements are text. -/
def isText : ElementType → Bool
  | fixedString _ | string => true
  | _ => false

theorem isText_iff (type : ElementType) : type.isText = true ↔ type.typeClass = .string := by
  cases type <;> simp [isText, typeClass]
  split <;> simp

end ElementType

mutual

/-- Whether stored elements hold addresses. -/
def ElementType.isVariable : ElementType → Bool
  | .string => true
  | .vlen _ => true
  | .array element _ => element.isVariable
  | .compound members _ => members.isVariable
  | _ => false

/-- Whether a member holds addresses. -/
def Members.isVariable : Members → Bool
  | .nil => false
  | .cons _ _ type rest => type.isVariable || rest.isVariable

end

mutual

/-- The name of the type in descriptor text. Offsets, values and declared sizes are not part of
it. -/
def ElementType.name : ElementType → String
  | .number type => type.name
  | .fixedString width => "string(" ++ toString width ++ ")"
  | .string => "string"
  | .vlen element => "vlen<" ++ element.name ++ ">"
  | .array element length => "array<" ++ element.name ++ ", " ++ toString length ++ ">"
  | .reference width =>
    if width = referenceSize then "reference" else "reference(" ++ toString width ++ ")"
  | .enum backing members =>
    "enum<" ++ backing.name ++ "> \x7b " ++ ", ".intercalate (members.map (·.1)) ++ " \x7d"
  | .compound members _ => "compound \x7b " ++ members.names ++ " \x7d"

/-- The names and types of members, separated by commas. -/
def Members.names : Members → String
  | .nil => ""
  | .cons name _ type .nil => name ++ ": " ++ type.name
  | .cons name _ type rest => name ++ ": " ++ type.name ++ ", " ++ rest.names

end

/-- One member of a compound. -/
structure Member where
  /-- The name of the member. -/
  name : String
  /-- Where the member starts. -/
  offset : Int
  /-- What the member holds. -/
  type : ElementType
  deriving DecidableEq

namespace Member

/-- The first byte after the member. -/
def stop (member : Member) : Int := member.offset + member.type.size

end Member

namespace Members

/-- The members as a list. -/
def toList : Members → List Member
  | nil => []
  | cons name offset type rest => ⟨name, offset, type⟩ :: rest.toList

/-- The members of a list. -/
def ofList : List Member → Members
  | [] => nil
  | member :: rest => cons member.name member.offset member.type (ofList rest)

@[simp] theorem toList_ofList (members : List Member) : (ofList members).toList = members := by
  induction members with
  | nil => rfl
  | cons member rest ih => simp [ofList, toList, ih]

@[simp] theorem ofList_toList : (members : Members) → ofList members.toList = members
  | nil => rfl
  | cons name offset type rest => by simp [ofList, toList, ofList_toList rest]

end Members

/-- The end of the last member to end; zero when there is none. -/
def extent : List Member → Int
  | [] => 0
  | member :: rest => rest.foldl (fun stop m => max stop m.stop) member.stop

namespace ElementType

/-- The compound with the given members, its size computed when the declared one is negative. -/
def compoundOf (members : List Member) (declared : Int) : ElementType :=
  .compound (.ofList members) (if declared < 0 then extent members else declared)

/-- The value of a named constant. -/
def valueOf (members : List (String × Int)) (name : String) : Except Fault Int :=
  match members.find? (·.1 == name) with
  | some (_, value) => .ok value
  | none => .error (.lookup (.enumMember name))

/-- The member with a name. -/
def memberNamed (members : Members) (name : String) : Except Fault Member :=
  match members.toList.find? (·.name == name) with
  | some member => .ok member
  | none => .error (.lookup (.compoundMember name))

end ElementType

example : (ElementType.compoundOf [⟨"x", 0, .number .int8⟩, ⟨"s", 4, .string⟩] (-1)).size = 12 := by
  decide
example : (ElementType.compoundOf [⟨"x", 0, .vlen (.reference 8)⟩, ⟨"s", 4, .fixedString 3⟩] 0).name
    = "compound \x7b x: vlen<reference>, s: string(3) \x7d" := by decide +kernel

end Stowage
