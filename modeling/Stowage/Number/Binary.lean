/-!
# Binary floating point words

A floating point number is kept as its word: sign bit, biased exponent, fraction. `BinaryFormat`
fixes the two field widths, `decode` gives the value a word stands for as `mantissa * 2 ^ exponent`,
and `encodeFinite?` rounds such a value to a word, half-way cases to the even neighbour. A finite
value that rounds past the largest word has none.

Between the 32-bit and the 64-bit format a word is converted by decoding and encoding. A NaN keeps
its sign and the leading bits of its payload and becomes quiet.
-/

set_option autoImplicit false

namespace Stowage.Number

/-- The field widths of a binary interchange format. -/
structure BinaryFormat where
  /-- Bits of the stored fraction. -/
  fractionBits : Nat
  /-- Bits of the biased exponent. -/
  exponentBits : Nat

/-- What a word stands for. -/
inductive Datum where
  | nan (negative : Bool) (payload : Nat)
  | infinite (negative : Bool)
  | finite (negative : Bool) (mantissa : Nat) (exponent : Int)

namespace BinaryFormat

/-- The 32-bit format. -/
def single : BinaryFormat := ⟨23, 8⟩

/-- The 64-bit format. -/
def double : BinaryFormat := ⟨52, 11⟩

/-- The exponent of the last place of the smallest numbers. -/
def leastExponent (format : BinaryFormat) : Int :=
  2 - (Nat.pow 2 (format.exponentBits - 1) : Int) - format.fractionBits

/-- The biased exponent of infinities and NaNs. -/
def topExponent (format : BinaryFormat) : Nat := Nat.pow 2 format.exponentBits - 1

/-- The word with the given sign and magnitude field. -/
def signed (format : BinaryFormat) (negative : Bool) (magnitude : Nat) : Nat :=
  (if negative then Nat.pow 2 (format.fractionBits + format.exponentBits) else 0) + magnitude

/-- The magnitude field of the infinities. -/
def infinity (format : BinaryFormat) : Nat := format.topExponent * Nat.pow 2 format.fractionBits

/-- The value of a word. -/
def decode (format : BinaryFormat) (word : Nat) : Datum :=
  let fraction := word % Nat.pow 2 format.fractionBits
  let exponent := word / Nat.pow 2 format.fractionBits % Nat.pow 2 format.exponentBits
  let negative := word / Nat.pow 2 (format.fractionBits + format.exponentBits) % 2 == 1
  if exponent = format.topExponent then
    if fraction = 0 then .infinite negative else .nan negative fraction
  else if exponent = 0 then .finite negative fraction format.leastExponent
  else
    .finite negative (Nat.pow 2 format.fractionBits + fraction)
      (format.leastExponent + exponent - 1)

/-- A quotient by a power of two, rounded to the nearest integer and half-way cases to the even
one. -/
def roundShift (n shift : Nat) : Nat :=
  let divisor := Nat.pow 2 shift
  let quotient := n / divisor
  let twice := 2 * (n % divisor)
  if twice < divisor then quotient
  else if divisor < twice then quotient + 1
  else if shift = 0 then quotient
  else quotient + quotient % 2

/-- The magnitude field nearest to `mantissa * 2 ^ exponent`, or nothing when that is not
finite. -/
def magnitude? (format : BinaryFormat) (mantissa : Nat) (exponent : Int) : Option Nat :=
  let bits : Int := if mantissa = 0 then 0 else Nat.log2 mantissa + 1
  let place := max format.leastExponent (exponent + bits - (format.fractionBits + 1))
  let scaled :=
    if place ≤ exponent then mantissa * Nat.pow 2 (exponent - place).toNat
    else roundShift mantissa (place - exponent).toNat
  let field := (place - format.leastExponent).toNat * Nat.pow 2 format.fractionBits + scaled
  if field < format.infinity then some field else none

/-- The word nearest to a finite value. -/
def encodeFinite? (format : BinaryFormat) (negative : Bool) (mantissa : Nat) (exponent : Int) :
    Option Nat :=
  if mantissa = 0 then some (format.signed negative 0)
  else (format.magnitude? mantissa exponent).map (format.signed negative)

/-- The quiet NaN with the leading bits of a payload that was `width` bits wide. -/
def quietNan (format : BinaryFormat) (negative : Bool) (payload width : Nat) : Nat :=
  let fraction := payload * Nat.pow 2 format.fractionBits / Nat.pow 2 width
  let quietBit := Nat.pow 2 (format.fractionBits - 1)
  format.signed negative (format.infinity + quietBit + fraction % quietBit)

/-- The word of another format nearest to the value of a word; nothing when a finite value is too
large. -/
def convert? (source target : BinaryFormat) (word : Nat) : Option Nat :=
  match source.decode word with
  | .nan negative payload => some (target.quietNan negative payload source.fractionBits)
  | .infinite negative => some (target.signed negative target.infinity)
  | .finite negative mantissa exponent => target.encodeFinite? negative mantissa exponent

/-- The word of another format nearest to the value of a word, an infinity when a finite value is
too large. -/
def convertOrInfinity (source target : BinaryFormat) (word : Nat) : Nat :=
  match source.decode word with
  | .nan negative payload => target.quietNan negative payload source.fractionBits
  | .infinite negative => target.signed negative target.infinity
  | .finite negative mantissa exponent =>
    (target.encodeFinite? negative mantissa exponent).getD
      (target.signed negative target.infinity)

/-- The word nearest to an integer; nothing when it is too large. -/
def ofInt? (format : BinaryFormat) (n : Int) : Option Nat :=
  format.encodeFinite? (decide (n < 0)) n.natAbs 0

end BinaryFormat

/-- Whether a 64-bit word is a zero of either sign. -/
def isZeroWord (word : Nat) : Bool := word % Nat.pow 2 63 == 0

example : BinaryFormat.double.ofInt? 1 = some 0x3ff0000000000000 := by decide +kernel
example : BinaryFormat.double.ofInt? (-(2 ^ 53 + 1)) = some 0xc340000000000000 := by decide +kernel
example : BinaryFormat.double.ofInt? (2 ^ 1024 - 2 ^ 970) = none := by decide +kernel
example : BinaryFormat.double.convert? .single 0x3ff8000000000000 = some 0x3fc00000 := by
  decide +kernel
example : BinaryFormat.double.convert? .single 0x47f0000000000000 = none := by decide +kernel
example : BinaryFormat.single.convert? .double 1 = some 0x36a0000000000000 := by decide +kernel
example : BinaryFormat.double.convert? .single 0x36a0000000000000 = some 1 := by decide +kernel
example : BinaryFormat.double.convert? .single 0x7ff8000000000000 = some 0x7fc00000 := by
  decide +kernel

end Stowage.Number
