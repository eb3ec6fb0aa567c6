import Stowage.Fault.Basic
import Stowage.Number.Basic
import Stowage.Value

/-!
# Stored numbers

`NumberType.store` lays a value out in the bytes of a number type and `load` reads it back. Integer
types take integers in their range and truth values. Floating point types take floating point
numbers, integers and truth values; an integer is rounded to 64 bits first. A finite floating point
number that rounds past the largest 32-bit one is an overflow, which callers tell apart from all
other refusals; an integer that is too large is refused like any other value.
-/

set_option autoImplicit false

namespace Stowage

namespace NumberType

open Number (BinaryFormat)

/-- The integer that a value counts as. -/
def integerOf? : Value → Option Int
  | .int i => some i
  | .bool b => some (if b then 1 else 0)
  | _ => none

/-- The 64-bit floating point word that a value counts as. -/
def floatOf? : Value → Option Nat
  | .float word => some word
  | .int i => BinaryFormat.double.ofInt? i
  | .bool b => BinaryFormat.double.ofInt? (if b then 1 else 0)
  | _ => none

/-- Whether a value is a floating point number. -/
def isFloatValue : Value → Bool
  | .float _ => true
  | _ => false

/-- The bytes of an integer in a type of `size` bytes, in two's complement. -/
def storeInteger (size : Nat) (i : Int) : Bytes :=
  Bytes.ofNat size (i % Nat.pow 2 (8 * size)).toNat

/-- The zero of a number type. -/
def default (type : NumberType) : Value := if type.isFloat then .float 0 else .int 0

/-- The value that is stored for a value: the zero of the type for a missing one. -/
def present (type : NumberType) (value : Value) : Value :=
  match value with
  | .null => type.default
  | other => other

/-- The bytes of a value in a number type. -/
def store (type : NumberType) (v : Value) : Except Fault Bytes :=
  match type with
  | .float64 =>
    match floatOf? v with
    | some word => .ok (Bytes.ofNat 8 word)
    | none => .error .storage
  | .float32 =>
    match floatOf? v with
    | some word =>
      match BinaryFormat.double.convert? .single word with
      | some single => .ok (Bytes.ofNat 4 single)
      | none => .error (if isFloatValue v then .overflow else .storage)
    | none => .error .storage
  | _ =>
    match integerOf? v with
    | some i => if inRange type.size i then .ok (storeInteger type.size i) else .error .storage
    | none => .error .storage

/-- The bytes of values one after another. The first value that cannot be stored decides the
fault. -/
def storeAll (type : NumberType) : List Value → Except Fault Bytes
  | [] => .ok []
  | v :: rest =>
    match type.store v with
    | .error fault => .error fault
    | .ok bytes =>
      match storeAll type rest with
      | .error fault => .error fault
      | .ok others => .ok (bytes ++ others)

/-- The number in the bytes of a number type. -/
def load (type : NumberType) (bytes : Bytes) : Value :=
  match type with
  | .float64 => .float (Bytes.toNat bytes)
  | .float32 => .float (BinaryFormat.single.convertOrInfinity .double (Bytes.toNat bytes))
  | _ => .int (PackedArray.signedWord type.size (Bytes.toNat bytes))

/-- The first `count` numbers of a buffer. -/
def loadAll (type : NumberType) : (count : Nat) → Bytes → List Value
  | 0, _ => []
  | count + 1, bytes =>
    type.load (bytes.take type.size) :: loadAll type count (bytes.drop type.size)

@[simp] theorem length_loadAll (type : NumberType) (count : Nat) (bytes : Bytes) :
    (loadAll type count bytes).length = count := by
  induction count generalizing bytes with
  | zero => rfl
  | succ count ih => simp [loadAll, ih]

theorem length_of_store {type : NumberType} {v : Value} {bytes : Bytes}
    (h : type.store v = .ok bytes) : bytes.length = type.size := by
  cases type <;> simp only [store] at h <;> repeat' split at h
  all_goals first
    | (cases h; simp [storeInteger, size])
    | exact absurd h (by simp)

end NumberType

namespace PackedArray

/-- The word of a value as an item; nothing when the items cannot hold it. A floating point number
too large for its item becomes an infinity. -/
def wordOf? (code : ItemCode) (v : Value) : Option Nat :=
  match code.kind with
  | .signed =>
    match NumberType.integerOf? v with
    | some i =>
      if NumberType.inRange code.size i then some (i % Nat.pow 2 (8 * code.size)).toNat else none
    | none => none
  | .unsigned =>
    match NumberType.integerOf? v with
    | some i => if 0 ≤ i ∧ i < Nat.pow 2 (8 * code.size) then some i.toNat else none
    | none => none
  | .float =>
    (NumberType.floatOf? v).map fun word =>
      if code.size = 4 then Number.BinaryFormat.double.convertOrInfinity .single word else word
  | .character => none

/-- The typed array of values, when its items can hold all of them. -/
def ofValues? (code : ItemCode) (values : List Value) : Option PackedArray :=
  (values.mapM (wordOf? code)).map fun words => ⟨code, words⟩

/-- The number type that a typed array holds: its items are signed or floating point. -/
def numberType? (code : ItemCode) : Option NumberType :=
  match code.kind with
  | .signed => NumberType.integerOfSize? code.size
  | .float => NumberType.floatOfSize? code.size
  | _ => none

/-- The number type that a typed array holds, or why it holds none. -/
def numberType (code : ItemCode) : Except Fault NumberType :=
  match numberType? code with
  | some type => .ok type
  | none => .error (.shape (.unsupportedItems code))

end PackedArray

end Stowage
