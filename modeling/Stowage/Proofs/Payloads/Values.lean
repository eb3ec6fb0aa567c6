import Stowage.Proofs.Number.Stored
import Stowage.Proofs.Payloads.Contents
import Stowage.Record.Packing

/-!
# Values of views

`ElementType.viewed` gives the value that an element with a given view stands for.
`ElementType.normalised` says what becomes of a value that is written as an element and read back:
numbers are kept as their type stores them, a name of a constant becomes its value, text ends at its
first zero byte and is decoded leniently, a missing text is empty and a missing sequence has no
items. Items are views and values in order (`Shows`).
-/

set_option autoImplicit false

namespace Stowage

/-- The items of a value; none when it has no items. -/
def Value.items (value : Value) : List Value := value.elements?.getD []

theorem Value.items_of_elements? {value : Value} {values : List Value}
    (h : value.elements? = some values) : value.items = values := by
  rw [items, h]
  rfl

/-- A value that does not count as present has no items. -/
theorem Value.items_of_not_isTruthy {value : Value} (h : value.isTruthy = false) :
    value.items = [] := by
  cases value with
  | null | bool | int | float => rfl
  | text s =>
    have hempty : s = "" := by simpa [isTruthy] using h
    subst hempty
    rfl
  | list items | tuple items =>
    have hempty : items = [] := by simpa [isTruthy] using h
    subst hempty
    rfl
  | bytes data | buffer data =>
    have hempty : data = [] := by simpa [isTruthy] using h
    subst hempty
    rfl
  | packed array =>
    have hempty : array.words = [] := by simpa [isTruthy] using h
    simp [items, elements?, PackedArray.items, hempty]

/-- The text of bytes up to the first zero byte. -/
def textOf (bytes : Bytes) : Value := .text (Utf8.toTextLossy (Bytes.untilNul bytes))

mutual

/-- The value that an element of the given view stands for. -/
def ElementType.viewed : ElementType → View → Value
  | .number type, .inline bytes => type.load bytes
  | .enum backing _, .inline bytes => backing.load bytes
  | .fixedString _, .inline bytes => textOf bytes
  | .reference _, .inline bytes => .bytes bytes
  | .string, .null _ => .text ""
  | .string, .text bytes => .text (Utf8.toTextLossy bytes)
  | .vlen _, .null _ => .list []
  | .vlen element, .items views => .list (views.map element.viewed)
  | .array element _, .items views => .list (views.map element.viewed)
  | .compound members _, .record _ views => .tuple (members.viewed views)
  | _, _ => .null

/-- The values that the members of a record stand for. -/
def Members.viewed : Members → List View → List Value
  | .cons _ _ type rest, view :: views => type.viewed view :: rest.viewed views
  | _, _ => []

end

/-- The value that a value of an enumeration is stored as. -/
def resolved (members : List (String × Int)) (value : Value) : Value :=
  match value with
  | .text name =>
    match ElementType.valueOf members name with
    | .ok i => .int i
    | .error _ => value
  | other => other

mutual

/-- What becomes of a value that is written as an element and read back. -/
def ElementType.normalised : ElementType → Value → Value
  | .number type, value => type.kept value
  | .enum backing members, value => backing.kept (resolved members value)
  | .fixedString width, value =>
    textOf (((RecordLayout.textBytes? value).getD []).take width.toNat)
  | .string, value => textOf ((RecordLayout.textBytes? value).getD [])
  | .reference _, value => .bytes (value.data?.getD [])
  | .vlen element, value => .list (value.items.map element.normalised)
  | .array element _, value => .list (value.items.map element.normalised)
  | .compound members _, value => .tuple (members.normalised value.items)

/-- What becomes of the values of a record's fields. -/
def Members.normalised : Members → List Value → List Value
  | .cons _ _ type rest, value :: values => type.normalised value :: rest.normalised values
  | _, _ => []

end

/-- The views stand for what becomes of the values. -/
def ElementType.Shows (type : ElementType) (values : List Value) (views : List View) : Prop :=
  views.map type.viewed = values.map type.normalised

namespace ElementType.Shows

variable {type : ElementType} {first second : List Value} {views others : List View}

theorem nil (type : ElementType) : type.Shows [] [] := rfl

theorem append (h : type.Shows first views) (h' : type.Shows second others) :
    type.Shows (first ++ second) (views ++ others) := by
  unfold Shows at h h' ⊢
  rw [List.map_append, List.map_append, h, h']

/-- One value is shown by one view. -/
theorem eq_singleton {value : Value} (h : type.Shows [value] views) :
    ∃ view, views = [view] ∧ type.viewed view = type.normalised value := by
  have hlength := congrArg List.length h
  rw [List.length_map, List.length_map, List.length_singleton] at hlength
  obtain ⟨view, rfl⟩ := List.length_eq_one_iff.1 hlength
  exact ⟨view, rfl, by simpa [Shows] using h⟩

end ElementType.Shows

end Stowage
