import Stowage.Catalogue.Basic

/-!
# The type registry

The registry numbers element types in the order in which they are registered, from one on. A type
is registered once, and after every type it contains; so the types contained in a registered type
have smaller numbers.
-/

set_option autoImplicit false

namespace Stowage

/-- The registered types, the first one first. -/
structure Registry where
  /-- The types in the order of their numbers. -/
  types : List ElementType
  deriving DecidableEq

namespace Registry

/-- A registry without types. -/
def empty : Registry := ⟨[]⟩

/-- The number of a registered type. -/
def idOf? (registry : Registry) (type : ElementType) : Option Nat :=
  (registry.types.idxOf? type).map (· + 1)

/-- The type with a number. -/
def typeOf (registry : Registry) (id : Int) : Except Fault ElementType :=
  if id ≤ 0 then .error (.lookup (.typeId id))
  else
    match registry.types[(id - 1).toNat]? with
    | some type => .ok type
    | none => .error (.lookup (.typeId id))

/-- The registry with a type at its end, unless it is there already. -/
def push (registry : Registry) (type : ElementType) : Registry :=
  if registry.types.contains type then registry else ⟨registry.types ++ [type]⟩

end Registry

mutual

/-- The registry with a type and, before it, the types it contains. -/
def ElementType.registerIn : ElementType → Registry → Registry
  | .vlen element, registry =>
    if registry.types.contains (.vlen element) then registry
    else (element.registerIn registry).push (.vlen element)
  | .array element length, registry =>
    if registry.types.contains (.array element length) then registry
    else (element.registerIn registry).push (.array element length)
  | .compound members size, registry =>
    if registry.types.contains (.compound members size) then registry
    else (members.registerIn registry).push (.compound members size)
  | type, registry => registry.push type

/-- The registry with the types of members. -/
def Members.registerIn : Members → Registry → Registry
  | .nil, registry => registry
  | .cons _ _ type rest, registry => rest.registerIn (type.registerIn registry)

end

namespace Registry

/-- Registers a type and gives its number. -/
def register (registry : Registry) (type : ElementType) : Registry × Nat :=
  let registry := type.registerIn registry
  (registry, (registry.idOf? type).getD 0)

/-- An element of a list by an index that counts from the back when it is negative. -/
def pick {α : Type} (items : List α) (index : Int) : Except Fault α :=
  let position := if index < 0 then items.length + index else index
  if position < 0 then .error .index
  else
    match items[position.toNat]? with
    | some item => .ok item
    | none => .error .index

/-- The number of a type contained in a registered one. -/
def idOf (registry : Registry) (type : ElementType) : Except Fault Int :=
  match registry.idOf? type with
  | some id => .ok id
  | none => .error (.lookup .entry)

/-- The type of the elements of a sequence or an array. -/
def elementOf (registry : Registry) (id : Int) : Except Fault Int := do
  match ← registry.typeOf id with
  | .vlen element | .array element _ => registry.idOf element
  | _ => .error (.invalid (.noElementType id))

/-- The dimensions of an array. -/
def dimensionsOf (registry : Registry) (id : Int) : Except Fault (List Int) := do
  match ← registry.typeOf id with
  | .array _ length => .ok [length]
  | _ => .error (.invalid (.notAnArrayType id))

/-- The number of members of a compound or an enumeration. -/
def memberCount (registry : Registry) (id : Int) : Except Fault Nat := do
  match ← registry.typeOf id with
  | .compound members _ => .ok members.toList.length
  | .enum _ members => .ok members.length
  | _ => .error (.invalid (.noMembers id))

/-- The name of a member of a compound or an enumeration. -/
def memberName (registry : Registry) (id index : Int) : Except Fault String := do
  match ← registry.typeOf id with
  | .compound members _ => (pick members.toList index).map (·.name)
  | .enum _ members => (pick members index).map (·.1)
  | _ => .error (.invalid (.noMembers id))

/-- A member of a compound. -/
def member (registry : Registry) (id index : Int) : Except Fault Member := do
  match ← registry.typeOf id with
  | .compound members _ => pick members.toList index
  | _ => .error (.invalid (.notACompoundType id))

/-- The type of a member of a compound. -/
def memberType (registry : Registry) (id index : Int) : Except Fault Int := do
  registry.idOf (← registry.member id index).type

/-- The value of a member of an enumeration. -/
def memberValue (registry : Registry) (id index : Int) : Except Fault Int := do
  match ← registry.typeOf id with
  | .enum _ members => (pick members index).map (·.2)
  | _ => .error (.invalid (.notAnEnumType id))

/-- The registry as a catalogue. -/
def catalogue (registry : Registry) : Catalogue where
  classOf id := (registry.typeOf id).map fun type => some type.typeClass
  sizeOf id := (registry.typeOf id).map (·.size)
  elementOf := registry.elementOf
  dimensionsOf := registry.dimensionsOf
  isVariableString id := (registry.typeOf id).map (· == .string)
  memberCount := registry.memberCount
  memberName := registry.memberName
  memberOffset id index := (registry.member id index).map (·.offset)
  memberType := registry.memberType
  memberValue := registry.memberValue
  depth := registry.types.length

end Registry

end Stowage
