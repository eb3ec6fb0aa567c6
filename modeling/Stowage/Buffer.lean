import Stowage.Bytes
import Stowage.Fault.Basic

/-!
# Words in buffers

New buffers and words at positions, with a fault where the request cannot be met: a buffer needs a
length that is not negative, and a word has to lie inside its buffer. Whether the position of a word
that does not is too large to be used decides only which fault it is.
-/

set_option autoImplicit false

namespace Stowage.Buffer

/-- Lengths and positions from here on are too large to be used. -/
def indexLimit : Int := Nat.pow 2 63

/-- A buffer of zero bytes. -/
def zeroed (length : Int) : Except Fault Bytes :=
  if length < 0 then .error .malformed
  else if indexLimit ≤ length then .error .overflow
  else .ok (Bytes.zeros length.toNat)

/-- The bytes of a word at a position. -/
def wordBytes (buffer : Bytes) (position : Int) (width : Nat) : Except Fault Bytes :=
  match Bytes.wordAt? buffer position width with
  | some word => .ok word
  | none =>
    if position < -indexLimit ∨ indexLimit ≤ position then .error .overflow else .error .storage

/-- The number at a position, its lowest byte first. -/
def loadWord (buffer : Bytes) (position : Int) (width : Nat) : Except Fault Nat :=
  (wordBytes buffer position width).map Bytes.toNat

/-- The buffer with a word at a position. -/
def storeWord (buffer : Bytes) (position : Int) (word : Bytes) : Except Fault Bytes :=
  match Bytes.putWord? buffer position word with
  | some buffer => .ok buffer
  | none =>
    if position < -indexLimit ∨ indexLimit ≤ position then .error .index else .error .storage

/-- A number that fits a word of the given width. -/
def wordNumber (width n : Nat) : Except Fault Nat :=
  if n < Nat.pow 256 width then .ok n else .error .storage

/-- The length and the address at a position. -/
def loadEntry (buffer : Bytes) (position : Int) : Except Fault (Nat × Nat) :=
  (wordBytes buffer position 16).map fun bytes =>
    (Bytes.toNat (bytes.take 8), Bytes.toNat (bytes.drop 8))

/-- The bytes of a length and an address. -/
def entryBytes (length address : Nat) : Bytes := Bytes.ofNat 8 length ++ Bytes.ofNat 8 address

end Stowage.Buffer
