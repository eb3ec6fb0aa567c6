import Stowage.Proofs.Heap.Operations
import Stowage.Proofs.Sequence.Texts

/-!
# Strings are decoded alike at once and later

The strings of a captured sequence are kept in a table. They are decoded at once as well when every
one of them can be read and is valid text; otherwise they are decoded from the table, with U+FFFD in
the place of what is not valid. So one bad string decides how all the others are decoded, and it
must not change what they are decoded to.

`Captured.stringAt?` is the string with a number in the bytes of a sequence, when it can be read,
and `Captured.textAt?` its text, when it is valid as well. Any bytes of strings are captured as the
table of the strings, with empty ones where memory cannot be read
(`Captured.captureItems_of_isText`), and they are decoded at once unless one of them has no text
(`Captured.decodedTexts_eq_none_iff`). `Captured.decode_undecoded` compares the two decodings.
-/

set_option autoImplicit false

namespace Stowage

namespace Captured

variable {heap : Heap} {type : ElementType} {raw : Bytes} {length : Nat}

/-- The element without the values that were decoded at once. -/
def undecoded : Captured → Captured
  | mk payload length _ parts => mk payload length none parts

/-- Without the values that were decoded at once, an element of strings is one of strings that could
not all be read. -/
theorem undecoded_stringElement (entries : List Bytes) (complete : Bool) (count : Int) :
    (stringElement entries complete count).undecoded = stringElement entries false count := rfl

/-! ### Strings by number -/

/-- The string at an address, when it can be read. A null address is the empty string. -/
def stringThere? (heap : Heap) (address : Nat) : Option Bytes :=
  if address = Heap.nullAddress then some [] else (heap.readString address).toOption

/-- The string with a number in the bytes of a sequence of strings, when it can be read. A string of
fixed width stands in the bytes themselves and ends at its first zero byte; any other stands at the
address that is stored in its place. -/
def stringAt? (heap : Heap) : ElementType → Bytes → Nat → Option Bytes
  | .fixedString width, raw, k =>
    some (Bytes.untilNul (Bytes.slice raw (k * width) ((k + 1) * width)))
  | .string, raw, k =>
    stringThere? heap (Bytes.toNat (Bytes.cut raw (k * addressSize) addressSize))
  | _, _, _ => none

/-- The text of the string with a number, when the string can be read and is valid. -/
def textAt? (heap : Heap) (type : ElementType) (raw : Bytes) (k : Nat) : Option String :=
  (stringAt? heap type raw k).bind Utf8.toText?

/-- The strings of a sequence in order, empty where they cannot be read. -/
def strings (heap : Heap) (type : ElementType) (raw : Bytes) (length : Nat) : List Bytes :=
  (List.range length).map fun k ↦ (stringAt? heap type raw k).getD []

theorem length_strings : (strings heap type raw length).length = length := by
  rw [strings, List.length_map, List.length_range]

theorem getElem?_strings {k : Nat} (hk : k < length) :
    (strings heap type raw length)[k]? = some ((stringAt? heap type raw k).getD []) := by
  rw [strings, List.getElem?_map, List.getElem?_range hk]
  rfl

/-- Assumes: few strings, and those that can be read are short enough for a string table. All of
them fit in one. -/
theorem fits_strings (hcount : length < StringTable.sizeLimit)
    (hshort : ∀ k < length, ∀ string ∈ stringAt? heap type raw k,
      string.length < StringTable.sizeLimit) :
    StringTable.Fits (strings heap type raw length) := by
  refine ⟨Nat.lt_of_le_of_lt (Nat.le_of_eq length_strings) hcount,
    List.forall_mem_map.2 fun k hk ↦ ?_⟩
  rcases hstring : stringAt? heap type raw k with _ | string
  · decide
  · exact hshort k (List.mem_range.1 hk) string hstring

/-! ### Capturing strings -/

/-- An item whose number is among the first ones lies inside a buffer of so many. -/
theorem item_stop_le {k count width total : Nat} (hk : k ∈ List.range' 0 count)
    (htotal : count * width ≤ total) : k * width + width ≤ total := by
  have hlt := List.mem_range'_1.1 hk
  have hnext : (k + 1) * width ≤ count * width := Nat.mul_le_mul_right width (by omega)
  rw [Nat.succ_mul] at hnext
  exact Nat.le_trans hnext htotal

theorem stringEntries_eq_mapM (number count : Nat) :
    stringEntries heap raw number count = (List.range' number count).mapM fun (k : Nat) ↦
      Buffer.loadWord raw (k * addressSize) addressSize >>= stringEntry heap := by
  induction count generalizing number with
  | zero => rfl
  | succ count ih =>
    rw [stringEntries, ih, List.range'_succ, Outcome.mapM_cons_ok]
    rcases Buffer.loadWord raw (number * addressSize) addressSize with _ | address <;> rfl

/-- An address is followed to its string, and to an empty one when it cannot be read. -/
theorem stringEntry_eq (heap : Heap) (address : Nat) :
    stringEntry heap address =
      .ok ((stringThere? heap address).getD [], (stringThere? heap address).isSome) := by
  unfold stringEntry stringThere?
  by_cases hnull : address = Heap.nullAddress
  · rw [if_pos hnull, if_pos hnull]
    rfl
  · rw [if_neg hnull, if_neg hnull]
    rcases hread : heap.readString address with fault | bytes
    · obtain ⟨cause, rfl⟩ := Heap.readString_error hread
      rfl
    · rfl

/-- All addresses are followed. -/
theorem stringEntries_eq (heap : Heap) (hraw : length * addressSize ≤ raw.length) :
    stringEntries heap raw 0 length = .ok ((List.range length).map fun k ↦
      ((stringAt? heap .string raw k).getD [], (stringAt? heap .string raw k).isSome)) := by
  rw [stringEntries_eq_mapM, List.range_eq_range', Outcome.mapM_eq_ok_iff,
    List.forall₂_map_right_iff, List.forall₂_same]
  intro k hk
  have hload := Buffer.loadWord_eq (item_stop_le hk hraw)
  rw [Int.natCast_mul] at hload
  rw [hload, Outcome.ok_bind, stringEntry_eq]
  rfl

/-- Assumes: bytes of so many strings. They are captured as the table of the strings. -/
theorem captureItems_of_isText (heap : Heap) (htext : type.isText = true)
    (hraw : length * type.size ≤ raw.length) :
    captureItems heap type raw length = ofStrings (strings heap type raw length)
      ((List.range length).all fun k ↦ (stringAt? heap type raw k).isSome) length := by
  cases type with
  | fixedString width =>
    have hall : ((List.range length).all fun k ↦
        (stringAt? heap (.fixedString width) raw k).isSome) = true :=
      List.all_eq_true.2 fun _ _ ↦ rfl
    rw [captureItems, hall, fixedEntries, Int.toNat_natCast]
    rfl
  | string =>
    have hwords : length * addressSize ≤ raw.length := Int.ofNat_le.1 hraw
    rw [captureItems, Int.toNat_natCast, stringEntries_eq heap hwords, Outcome.ok_bind,
      List.map_map, List.all_map]
    rfl
  | _ => exact absurd htext Bool.false_ne_true

/-- Strings are decoded at once unless one of them has no text. -/
theorem decodedTexts_eq_none_iff :
    decodedTexts (strings heap type raw length)
        ((List.range length).all fun k ↦ (stringAt? heap type raw k).isSome) = none ↔
      ∃ k < length, textAt? heap type raw k = none := by
  unfold decodedTexts
  by_cases hall : ((List.range length).all fun k ↦ (stringAt? heap type raw k).isSome) = true
  · have htext (k : Nat) (hk : k ∈ List.range length) :
        Utf8.toText? ((stringAt? heap type raw k).getD []) = textAt? heap type raw k := by
      obtain ⟨string, hstring⟩ := Option.isSome_iff_exists.1 (List.all_eq_true.1 hall k hk)
      rw [textAt?, hstring]
      rfl
    rw [if_pos hall, Option.map_eq_none_iff, Outcome.mapM_eq_none_iff]
    constructor
    · rintro ⟨_, hmem, hnone⟩
      obtain ⟨k, hk, rfl⟩ := List.mem_map.1 hmem
      exact ⟨k, List.mem_range.1 hk, (htext k hk).symm.trans hnone⟩
    · rintro ⟨k, hk, hnone⟩
      have hmem := List.mem_range.2 hk
      exact ⟨_, List.mem_map_of_mem hmem, (htext k hmem).trans hnone⟩
  · rw [if_neg hall]
    refine iff_of_true rfl ?_
    rw [List.all_eq_true] at hall
    push Not at hall
    obtain ⟨k, hk, hnone⟩ := hall
    exact ⟨k, List.mem_range.1 hk, by rw [textAt?, Option.not_isSome_iff_eq_none.1 hnone]; rfl⟩

/-! ### Both decodings -/

/-- Strings are decoded alike at once and later.

Assumes: a type of strings, bytes of so many strings, and strings few and short enough for a string
table; the heap may be in any state. The bytes are captured, as an element of so many values. There
are values, as many as there are strings, that the element is decoded to, and that it is decoded to
from its table alone when those that were decoded at once are taken from it. The values that were
decoded at once are none other; there are none exactly when some string cannot be read or is not
valid text. Each value is the text of the string with its number, with U+FFFD in the place of what
is not valid, and the empty text where the string cannot be read. -/
theorem decode_undecoded (heap : Heap) {type : ElementType} (htext : type.isText = true)
    {raw : Bytes} {length : Nat} (hraw : length * type.size ≤ raw.length)
    (hcount : length < StringTable.sizeLimit)
    (hshort : ∀ k < length, ∀ string ∈ stringAt? heap type raw k,
      string.length < StringTable.sizeLimit) :
    ∃ captured values, captureItems heap type raw length = .ok captured ∧
      captured.length = length ∧ values.length = length ∧
      decode type captured = .ok values ∧ decode type captured.undecoded = .ok values ∧
      (∀ decoded, captured.decoded = some decoded → decoded = values) ∧
      (captured.decoded = none ↔ ∃ k < length, textAt? heap type raw k = none) ∧
      ∀ k < length,
        (∀ text ∈ textAt? heap type raw k, values[k]? = some (.text text)) ∧
        (∀ string ∈ stringAt? heap type raw k,
          values[k]? = some (.text (Utf8.toTextLossy string))) ∧
        (stringAt? heap type raw k = none → values[k]? = some (.text "")) := by
  have hlength : (strings heap type raw length).length = length := length_strings
  have hfits := fits_strings hcount hshort
  have hdecode (complete : Bool) := decode_stringElement htext complete hfits
  rw [hlength] at hdecode
  refine ⟨_, _, (captureItems_of_isText heap htext hraw).trans
      (ofStrings_eq_ok _ _ hfits), rfl, ?count, hdecode _, ?later,
    fun decoded ↦ eq_of_decodedTexts, decodedTexts_eq_none_iff, fun k hk ↦ ?each⟩
  case count => rw [List.length_map, hlength]
  case later => rw [undecoded_stringElement, hdecode]
  case each =>
    rw [List.getElem?_map, getElem?_strings hk, Option.map_some]
    refine ⟨fun text hread ↦ ?_, fun string hstring ↦ ?_, fun hnone ↦ ?_⟩
    · obtain ⟨string, hstring, hvalid⟩ := Option.bind_eq_some_iff.1 hread
      rw [hstring, Option.getD_some, Utf8.toTextLossy_of_toText? hvalid]
    · rw [hstring, Option.getD_some]
    · rw [hnone]
      rfl

/-- A heap with the strings `a` and `é`, and one that is cut off within a character. -/
def lettered : Heap :=
  (((Heap.empty 0).extend [0x61, 0]).extend [0xC3, 0xA9, 0]).extend [0x62, 0xE2, 0x82, 0]

/-- The addresses of the first two strings of `lettered`, the null address, the address of the third
string, and one that leads nowhere. -/
def letteredWords : Bytes := [8, 16, 0, 24, 999].flatMap (Bytes.ofNat addressSize)

/-- The first three strings are decoded at once; together with the other two they are decoded from
the table, and keep their texts. -/
theorem decode_undecoded_lettered :
    (∃ captured, captureItems lettered .string letteredWords (3 : Nat) = .ok captured ∧
      captured.decoded = some [.text "a", .text "é", .text ""] ∧
      decode .string captured.undecoded = .ok [.text "a", .text "é", .text ""]) ∧
    ∃ captured, captureItems lettered .string letteredWords (5 : Nat) = .ok captured ∧
      captured.decoded = none ∧
      decode .string captured.undecoded =
        .ok [.text "a", .text "é", .text "", .text "b\uFFFD", .text ""] := by
  have hshort : ∀ k < 5, ∀ string ∈ stringAt? lettered .string letteredWords k,
      string.length < StringTable.sizeLimit := by decide +kernel
  have hfirst : textAt? lettered .string letteredWords 0 = some "a" := by decide +kernel
  have hsecond : textAt? lettered .string letteredWords 1 = some "é" := by decide +kernel
  have hthird : textAt? lettered .string letteredWords 2 = some "" := by decide +kernel
  constructor
  · obtain ⟨captured, values, hcaptured, -, hlength, -, hlater, honce, hnone, hvalue⟩ :=
      decode_undecoded lettered rfl (by decide : ((3 : Nat) : Int) * ElementType.string.size ≤
        letteredWords.length) (by decide) fun k hk ↦ hshort k (by omega)
    have hsome : captured.decoded ≠ none := by
      rw [ne_eq, hnone]
      decide +kernel
    obtain ⟨decoded, hdecoded⟩ := Option.ne_none_iff_exists'.1 hsome
    obtain rfl := honce decoded hdecoded
    obtain ⟨a, e, empty, rfl⟩ := List.length_eq_three.1 hlength
    obtain rfl := Option.some.inj ((hvalue 0 (by decide)).1 "a" hfirst)
    obtain rfl := Option.some.inj ((hvalue 1 (by decide)).1 "é" hsecond)
    obtain rfl := Option.some.inj ((hvalue 2 (by decide)).1 "" hthird)
    exact ⟨captured, hcaptured, hdecoded, hlater⟩
  · obtain ⟨captured, values, hcaptured, -, hlength, -, hlater, -, hnone, hvalue⟩ :=
      decode_undecoded lettered rfl (by decide : ((5 : Nat) : Int) * ElementType.string.size ≤
        letteredWords.length) (by decide) hshort
    refine ⟨captured, hcaptured, hnone.2 ⟨3, by decide, by decide +kernel⟩, ?_⟩
    match values, hlength with
    | [a, e, empty, cut, lost], _ =>
      obtain rfl := Option.some.inj ((hvalue 0 (by decide)).1 "a" hfirst)
      obtain rfl := Option.some.inj ((hvalue 1 (by decide)).1 "é" hsecond)
      obtain rfl := Option.some.inj ((hvalue 2 (by decide)).1 "" hthird)
      obtain rfl := Option.some.inj
        ((hvalue 3 (by decide)).2.1 [0x62, 0xE2, 0x82] (by decide +kernel))
      obtain rfl := Option.some.inj ((hvalue 4 (by decide)).2.2 (by decide +kernel))
      have hcut : Utf8.toTextLossy [0x62, 0xE2, 0x82] = "b\uFFFD" := by decide +kernel
      rw [hlater, hcut]

end Captured

end Stowage
