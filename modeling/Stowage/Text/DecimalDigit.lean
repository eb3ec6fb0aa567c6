/-!
# Decimal digits

The characters of general category Nd come in runs of ten consecutive code points, zero to nine.
`zeros` lists the first of each run, so a decimal digit is a character at most nine above one of
them, and its value is the distance.
-/

set_option autoImplicit false

namespace Stowage.DecimalDigit

/-- The code points of the characters for zero, in order. -/
def zeros : List Nat :=
  [0x30, 0x660, 0x6F0, 0x7C0, 0x966, 0x9E6, 0xA66, 0xAE6, 0xB66, 0xBE6, 0xC66, 0xCE6, 0xD66,
   0xDE6, 0xE50, 0xED0, 0xF20, 0x1040, 0x1090, 0x17E0, 0x1810, 0x1946, 0x19D0, 0x1A80, 0x1A90,
   0x1B50, 0x1BB0, 0x1C40, 0x1C50, 0xA620, 0xA8D0, 0xA900, 0xA9D0, 0xA9F0, 0xAA50, 0xABF0,
   0xFF10, 0x104A0, 0x10D30, 0x11066, 0x110F0, 0x11136, 0x111D0, 0x112F0, 0x11450, 0x114D0,
   0x11650, 0x116C0, 0x11730, 0x118E0, 0x11950, 0x11C50, 0x11D50, 0x11DA0, 0x16A60, 0x16AC0,
   0x16B50, 0x1D7CE, 0x1D7D8, 0x1D7E2, 0x1D7EC, 0x1D7F6, 0x1E140, 0x1E2F0, 0x1E950, 0x1FBF0]

/-- The value of a character as a decimal digit. -/
def value? (c : Char) : Option Nat :=
  (zeros.find? fun z => decide (z ≤ c.toNat ∧ c.toNat < z + 10)).map (c.toNat - ·)

/-- Whether a character is a decimal digit. -/
def isDigit (c : Char) : Bool := (value? c).isSome

/-- The number written by a sequence of decimal digits; other characters do not count. -/
def toNat (digits : List Char) : Nat :=
  (digits.filterMap value?).foldl (fun n d => 10 * n + d) 0

theorem value?_lt {c : Char} {d : Nat} (h : value? c = some d) : d < 10 := by
  obtain ⟨z, hfind, rfl⟩ := Option.map_eq_some_iff.1 h
  have hbounds := List.find?_some hfind
  simp only [decide_eq_true_eq] at hbounds
  omega

example : zeros.length = 66 := by decide
example : value? '7' = some 7 ∧ value? '٣' = some 3 ∧ value? 'a' = none := by decide
example : toNat ['0', '4', '2'] = 42 := by decide

end Stowage.DecimalDigit
