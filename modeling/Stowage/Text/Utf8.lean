import Stowage.Bytes

/-!
# UTF-8

`encode` writes characters as UTF-8. Reading goes through `scan`, which yields one entry per
character and one empty entry per maximal subpart of a sequence that cannot be completed:
`decode?` succeeds when there is no empty entry, and `decodeLossy` puts U+FFFD in place of each.

The scan is a machine that takes one byte at a time. `Pending` is what a started sequence still
needs; the bounds on its next byte rule out overlong forms, surrogates and values past U+10FFFF.
-/

set_option autoImplicit false

namespace Stowage.Utf8

/-- The bytes of one character. -/
def encodeChar (c : Char) : Bytes :=
  let n := c.toNat
  let tail (shift : Nat) : UInt8 := UInt8.ofNat (0x80 + (n >>> shift) % 64)
  if n < 0x80 then [UInt8.ofNat n]
  else if n < 0x800 then [UInt8.ofNat (0xC0 + n >>> 6), tail 0]
  else if n < 0x10000 then [UInt8.ofNat (0xE0 + n >>> 12), tail 6, tail 0]
  else [UInt8.ofNat (0xF0 + n >>> 18), tail 12, tail 6, tail 0]

/-- The bytes of a sequence of characters. -/
def encode (chars : List Char) : Bytes := chars.flatMap encodeChar

/-- A started sequence: the value read so far, the bounds of the next byte, and how many bytes are
still needed after that one. -/
structure Pending where
  /-- The value of the bits read so far. -/
  value : Nat
  /-- The least next byte that continues the sequence. -/
  least : Nat
  /-- The greatest next byte that continues the sequence. -/
  greatest : Nat
  /-- Bytes needed after the next one. -/
  more : Nat

/-- What a first byte does: it is a character, starts a sequence, or is invalid. -/
inductive First where
  | char (c : Char)
  | start (pending : Pending)
  | invalid

/-- Classifies the first byte of a sequence. -/
def first (b : UInt8) : First :=
  let n := b.toNat
  if n < 0x80 then .char (Char.ofNat n)
  else if n < 0xC2 then .invalid
  else if n < 0xE0 then .start ⟨n - 0xC0, 0x80, 0xBF, 0⟩
  else if n < 0xF0 then
    .start ⟨n - 0xE0, if n = 0xE0 then 0xA0 else 0x80, if n = 0xED then 0x9F else 0xBF, 1⟩
  else if n < 0xF5 then
    .start ⟨n - 0xF0, if n = 0xF0 then 0x90 else 0x80, if n = 0xF4 then 0x8F else 0xBF, 2⟩
  else .invalid

/-- The entries of a byte sequence, given what was started before it. -/
def scan : Option Pending → Bytes → List (Option Char)
  | none, [] => []
  | some _, [] => [none]
  | none, b :: rest =>
    match first b with
    | .char c => some c :: scan none rest
    | .start pending => scan (some pending) rest
    | .invalid => none :: scan none rest
  | some pending, b :: rest =>
    if pending.least ≤ b.toNat ∧ b.toNat ≤ pending.greatest then
      let value := pending.value * 64 + b.toNat % 64
      match pending.more with
      | 0 => some (Char.ofNat value) :: scan none rest
      | more + 1 => scan (some ⟨value, 0x80, 0xBF, more⟩) rest
    else
      match first b with
      | .char c => none :: some c :: scan none rest
      | .start next => none :: scan (some next) rest
      | .invalid => none :: none :: scan none rest

/-- The characters of a byte sequence that is valid UTF-8. -/
def decode? (bytes : Bytes) : Option (List Char) := (scan none bytes).mapM id

/-- The characters of a byte sequence, with U+FFFD for each subpart that is not valid. -/
def decodeLossy (bytes : Bytes) : List Char :=
  (scan none bytes).map fun entry => entry.getD (Char.ofNat 0xFFFD)

example : encode ['a', 'é', '€', '😀'] =
    [0x61, 0xC3, 0xA9, 0xE2, 0x82, 0xAC, 0xF0, 0x9F, 0x98, 0x80] := by decide
example : decode? (encode ['a', 'é', '€', '😀']) = some ['a', 'é', '€', '😀'] := by decide
example : decode? [0xED, 0xA0, 0x80] = none := by decide
example : (decodeLossy [0xF0, 0x9F, 0x98, 0x41, 0xC0, 0xAF, 0xE2, 0x82]).map Char.toNat =
    [0xFFFD, 0x41, 0xFFFD, 0xFFFD, 0xFFFD] := by decide

/-- The bytes of a text. -/
def ofText (text : String) : Bytes := encode text.toList

/-- The text of a byte sequence, with U+FFFD for each subpart that is not valid. -/
def toTextLossy (bytes : Bytes) : String := String.ofList (decodeLossy bytes)

/-- The text of a byte sequence that is valid UTF-8. -/
def toText? (bytes : Bytes) : Option String := (decode? bytes).map String.ofList

end Stowage.Utf8
