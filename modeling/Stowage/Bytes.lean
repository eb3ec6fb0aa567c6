/-!
# Byte sequences

Buffers are lists of bytes. A number is laid out with its lowest byte first: `ofNat` writes the
lowest `width` bytes of a number and `toNat` reads a sequence back.

Cuts follow one rule for every index: a negative index counts from the back, and an index past
either end is moved to that end (`clampIndex`). `slice` takes a cut out and `splice` puts other
bytes in its place, so a splice may change the length.

A word inside a buffer is addressed more strictly: `wordStart?` gives the position of `width`
bytes, or nothing when they do not lie inside the buffer.
-/

set_option autoImplicit false

namespace Stowage

/-- The contents of a buffer. -/
abbrev Bytes := List UInt8

namespace Bytes

/-- The lowest `width` bytes of a number, the lowest first. -/
def ofNat : (width : Nat) → Nat → Bytes
  | 0, _ => []
  | width + 1, n => UInt8.ofNat n :: ofNat width (n / 256)

/-- The number whose bytes are given, the lowest first. -/
def toNat : Bytes → Nat
  | [] => 0
  | b :: rest => b.toNat + 256 * toNat rest

@[simp] theorem length_ofNat (width n : Nat) : (ofNat width n).length = width := by
  induction width generalizing n with
  | zero => rfl
  | succ width ih => simp [ofNat, ih]

/-- A buffer of zero bytes. -/
def zeros (n : Nat) : Bytes := List.replicate n 0

@[simp] theorem length_zeros (n : Nat) : (zeros n).length = n := by simp [zeros]

/-- Zero bytes appended up to a length; a longer sequence stays as it is. -/
def padTo (length : Nat) (bytes : Bytes) : Bytes := bytes ++ zeros (length - bytes.length)

/-- The bytes before the first zero byte. -/
def untilNul (bytes : Bytes) : Bytes := bytes.takeWhile (· ≠ 0)

/-! ### Cuts -/

/-- Moves an index into a sequence of the given length: a negative one counts from the back, and
one past an end becomes that end. -/
def clampIndex (length : Nat) (i : Int) : Nat :=
  if i < 0 then (length + i).toNat else min i.toNat length

theorem clampIndex_natCast (length i : Nat) : clampIndex length (i : Int) = min i length := by
  have h : ¬ (i : Int) < 0 := by omega
  simp [clampIndex, h]

/-- The elements from `start` up to `stop`. -/
def slice {α : Type} (xs : List α) (start stop : Int) : List α :=
  (xs.take (clampIndex xs.length stop)).drop (clampIndex xs.length start)

theorem slice_natCast {α : Type} (xs : List α) (start stop : Nat) :
    slice xs start stop = (xs.take stop).drop start := by
  simp only [slice, clampIndex_natCast]
  by_cases hstart : start ≤ xs.length
  · rw [Nat.min_eq_left hstart]
    by_cases hstop : stop ≤ xs.length
    · rw [Nat.min_eq_left hstop]
    · have hle : xs.length ≤ stop := by omega
      rw [Nat.min_eq_right hle, List.take_length, List.take_of_length_le hle]
  · have hle : xs.length ≤ start := by omega
    rw [Nat.min_eq_right hle, List.drop_of_length_le, List.drop_of_length_le] <;>
      · simp only [List.length_take]
        omega

/-- The sequence with the elements from `start` up to `stop` replaced by others. -/
def splice {α : Type} (xs : List α) (start stop : Int) (ys : List α) : List α :=
  let first := clampIndex xs.length start
  xs.take first ++ ys ++ xs.drop (max first (clampIndex xs.length stop))

/-! ### Words at a position -/

/-- Where `width` bytes at a position start, when they lie inside a buffer of the given length. A
negative position counts from the back. -/
def wordStart? (length : Nat) (position : Int) (width : Nat) : Option Nat :=
  let start := if position < 0 then length + position else position
  if 0 ≤ start ∧ start + width ≤ length then some start.toNat else none

/-- The `width` bytes at a position. -/
def wordAt? (bytes : Bytes) (position : Int) (width : Nat) : Option Bytes :=
  (wordStart? bytes.length position width).map fun start => (bytes.drop start).take width

/-- The buffer with a word written at a position. -/
def putWord? (bytes : Bytes) (position : Int) (word : Bytes) : Option Bytes :=
  (wordStart? bytes.length position word.length).map fun start =>
    bytes.take start ++ word ++ bytes.drop (start + word.length)

theorem add_le_of_wordStart? {length width start : Nat} {position : Int}
    (h : wordStart? length position width = some start) : start + width ≤ length := by
  simp only [wordStart?] at h
  generalize (if position < 0 then (length : Int) + position else position) = first at h
  split at h
  · have hstart := Option.some.inj h
    omega
  · exact absurd h (by simp)

theorem length_of_putWord? {bytes result word : Bytes} {position : Int}
    (h : putWord? bytes position word = some result) : result.length = bytes.length := by
  obtain ⟨start, hstart, rfl⟩ := Option.map_eq_some_iff.1 h
  have hle := add_le_of_wordStart? hstart
  simp only [List.length_append, List.length_take, List.length_drop]
  omega

end Bytes

end Stowage
