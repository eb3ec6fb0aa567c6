import Stowage.Proofs.Bytes
import Stowage.Text.Utf8
import Mathlib.Data.List.Infix

/-!
# Text whose bytes are cut

The bytes of a text may be cut anywhere, also within a character. Characters that were kept whole
are read back, and what is left of a character that was cut is read as one U+FFFD, however many of
its bytes are left (`Utf8.toTextLossy_take_ofText`). The characters that are kept whole are the
longest beginning of the text that fits (`Utf8.LongestFit`).
-/

set_option autoImplicit false

namespace Stowage.Utf8

variable {c : Char} {chars : List Char} {rest : Bytes} {width n : Nat}

/-! ### One byte -/

/-- Six bits of a number with the mark of a byte that continues a sequence. -/
theorem toNat_tail (n : Nat) : (UInt8.ofNat (0x80 + n % 64)).toNat = 0x80 + n % 64 :=
  UInt8.toNat_ofNat_of_lt' (by change _ < 256; omega)

theorem first_ofNat_of_ascii (h : n < 0x80) : first (UInt8.ofNat n) = .char (Char.ofNat n) := by
  have hbyte : (UInt8.ofNat n).toNat = n := UInt8.toNat_ofNat_of_lt' (by change _ < 256; omega)
  rw [first, hbyte]
  exact if_pos h

/-- The first of two bytes. -/
theorem first_ofNat_two (h : 2 ≤ n) (h' : n < 32) :
    first (UInt8.ofNat (0xC0 + n)) = .start ⟨n, 0x80, 0xBF, 0⟩ := by
  have hbyte : (UInt8.ofNat (0xC0 + n)).toNat = 0xC0 + n :=
    UInt8.toNat_ofNat_of_lt' (by change _ < 256; omega)
  rw [first, hbyte]
  rw [if_neg (by omega), if_neg (by omega), if_pos (by omega), Nat.add_sub_cancel_left]

/-- The first of three bytes. -/
theorem first_ofNat_three (h : n < 16) :
    first (UInt8.ofNat (0xE0 + n)) =
      .start ⟨n, if n = 0 then 0xA0 else 0x80, if n = 0xD then 0x9F else 0xBF, 1⟩ := by
  have hbyte : (UInt8.ofNat (0xE0 + n)).toNat = 0xE0 + n :=
    UInt8.toNat_ofNat_of_lt' (by change _ < 256; omega)
  rw [first, hbyte]
  rw [if_neg (by omega), if_neg (by omega), if_neg (by omega), if_pos (by omega),
    Nat.add_sub_cancel_left]
  simp only [Nat.add_eq_left, show 0xE0 + n = 0xED ↔ n = 0xD by omega]

/-- The first of four bytes. -/
theorem first_ofNat_four (h : n < 5) :
    first (UInt8.ofNat (0xF0 + n)) =
      .start ⟨n, if n = 0 then 0x90 else 0x80, if n = 4 then 0x8F else 0xBF, 2⟩ := by
  have hbyte : (UInt8.ofNat (0xF0 + n)).toNat = 0xF0 + n :=
    UInt8.toNat_ofNat_of_lt' (by change _ < 256; omega)
  rw [first, hbyte]
  rw [if_neg (by omega), if_neg (by omega), if_neg (by omega), if_neg (by omega),
    if_pos (by omega), Nat.add_sub_cancel_left]
  simp only [Nat.add_eq_left, show 0xF0 + n = 0xF4 ↔ n = 4 by omega]

/-! ### One character -/

theorem encodeChar_one (h : c.toNat < 0x80) : encodeChar c = [UInt8.ofNat c.toNat] := if_pos h

theorem encodeChar_two (h : 0x80 ≤ c.toNat) (h' : c.toNat < 0x800) :
    encodeChar c = [UInt8.ofNat (0xC0 + c.toNat / 64), UInt8.ofNat (0x80 + c.toNat % 64)] := by
  unfold encodeChar
  rw [if_neg (by omega), if_pos h', Nat.shiftRight_eq_div_pow]
  rfl

theorem encodeChar_three (h : 0x800 ≤ c.toNat) (h' : c.toNat < 0x10000) :
    encodeChar c = [UInt8.ofNat (0xE0 + c.toNat / 4096),
      UInt8.ofNat (0x80 + c.toNat / 64 % 64), UInt8.ofNat (0x80 + c.toNat % 64)] := by
  unfold encodeChar
  rw [if_neg (by omega), if_neg (by omega), if_pos h', Nat.shiftRight_eq_div_pow]
  dsimp only
  rw [Nat.shiftRight_eq_div_pow]
  rfl

theorem encodeChar_four (h : 0x10000 ≤ c.toNat) :
    encodeChar c = [UInt8.ofNat (0xF0 + c.toNat / 262144),
      UInt8.ofNat (0x80 + c.toNat / 4096 % 64), UInt8.ofNat (0x80 + c.toNat / 64 % 64),
      UInt8.ofNat (0x80 + c.toNat % 64)] := by
  unfold encodeChar
  rw [if_neg (by omega), if_neg (by omega), if_neg (by omega), Nat.shiftRight_eq_div_pow]
  dsimp only
  rw [Nat.shiftRight_eq_div_pow, Nat.shiftRight_eq_div_pow]
  rfl

/-- After what was started, the bytes complete the character, and fewer bytes do not. -/
structure Completes (c : Char) (pending : Pending) (bytes : Bytes) : Prop where
  /-- All bytes complete the character. -/
  all : ∀ rest, scan (some pending) (bytes ++ rest) = some c :: scan none rest
  /-- Fewer bytes leave it started. -/
  fewer : ∀ count < bytes.length, scan (some pending) (bytes.take count) = [none]

/-- The last byte completes the character. -/
theorem completes_last {value least greatest : Nat} (hleast : least ≤ 0x80 + n % 64)
    (hgreatest : 0x80 + n % 64 ≤ greatest) (hvalue : value * 64 + n % 64 = c.toNat) :
    Completes c ⟨value, least, greatest, 0⟩ [UInt8.ofNat (0x80 + n % 64)] where
  all := fun rest ↦ by
    have hbits : (0x80 + n % 64) % 64 = n % 64 := by omega
    rw [List.singleton_append, scan, toNat_tail, if_pos ⟨hleast, hgreatest⟩]
    dsimp only
    rw [hbits, hvalue, Char.ofNat_toNat]
  fewer := fun count hcount ↦ by
    obtain rfl : count = 0 := Nat.lt_one_iff.1 hcount
    rfl

/-- Any byte before adds six bits. -/
theorem Completes.more {value least greatest more sum : Nat} {bytes : Bytes}
    (h : Completes c ⟨sum, 0x80, 0xBF, more⟩ bytes) (hleast : least ≤ 0x80 + n % 64)
    (hgreatest : 0x80 + n % 64 ≤ greatest) (hsum : value * 64 + n % 64 = sum) :
    Completes c ⟨value, least, greatest, more + 1⟩ (UInt8.ofNat (0x80 + n % 64) :: bytes) := by
  have hstep (rest : Bytes) : scan (some ⟨value, least, greatest, more + 1⟩)
      (UInt8.ofNat (0x80 + n % 64) :: rest) = scan (some ⟨sum, 0x80, 0xBF, more⟩) rest := by
    have hbits : (0x80 + n % 64) % 64 = n % 64 := by omega
    rw [scan, toNat_tail, if_pos ⟨hleast, hgreatest⟩]
    dsimp only
    rw [hbits, hsum]
  refine ⟨fun rest ↦ ?_, fun count hcount ↦ ?_⟩
  · rw [List.cons_append, hstep, h.all]
  · cases count with
    | zero => rfl
    | succ count =>
      rw [List.take_succ_cons, hstep]
      exact h.fewer count (Nat.lt_of_succ_lt_succ hcount)

/-- The bytes are read as the character, and fewer of them as nothing that is valid. -/
structure ReadAs (bytes : Bytes) (c : Char) : Prop where
  /-- All bytes are read as the character. -/
  all : ∀ rest, scan none (bytes ++ rest) = some c :: scan none rest
  /-- Fewer bytes, but some, are read as one subpart that is not valid. -/
  fewer : ∀ count, 0 < count → count < bytes.length → scan none (bytes.take count) = [none]

theorem Completes.readAs {pending : Pending} {bytes : Bytes} (h : Completes c pending bytes)
    {b : UInt8} (hfirst : first b = .start pending) : ReadAs (b :: bytes) c := by
  have hstart (rest : Bytes) : scan none (b :: rest) = scan (some pending) rest := by
    rw [scan, hfirst]
  refine ⟨fun rest ↦ ?_, fun count hpos hcount ↦ ?_⟩
  · rw [List.cons_append, hstart, h.all]
  · obtain ⟨fewer, rfl⟩ := Nat.exists_eq_succ_of_ne_zero (Nat.ne_of_gt hpos)
    rw [List.take_succ_cons, hstart]
    exact h.fewer fewer (Nat.lt_of_succ_lt_succ hcount)

/-- The bytes of a character are read as the character. -/
theorem readAs_encodeChar (c : Char) : ReadAs (encodeChar c) c := by
  have hvalid : c.toNat < 0xD800 ∨ 0xDFFF < c.toNat ∧ c.toNat < 0x110000 := c.valid
  rcases Nat.lt_or_ge c.toNat 0x80 with hone | hone
  · rw [encodeChar_one hone]
    refine ⟨fun rest ↦ ?_, fun count hpos hcount ↦ ?_⟩
    · rw [List.singleton_append, scan, first_ofNat_of_ascii hone, Char.ofNat_toNat]
    · exact absurd hpos (Nat.not_lt.2 (Nat.le_of_lt_succ hcount))
  have hlast : Completes c ⟨c.toNat / 64, 0x80, 0xBF, 0⟩ [UInt8.ofNat (0x80 + c.toNat % 64)] :=
    completes_last (by omega) (by omega) (by omega)
  rcases Nat.lt_or_ge c.toNat 0x800 with htwo | htwo
  · rw [encodeChar_two hone htwo]
    exact hlast.readAs (first_ofNat_two (by omega) (by omega))
  rcases Nat.lt_or_ge c.toNat 0x10000 with hthree | hthree
  · rw [encodeChar_three htwo hthree]
    -- the bounds of the second byte rule out what takes fewer bytes, and surrogates
    refine (hlast.more ?_ ?_ ?_).readAs (first_ofNat_three (by omega))
    · split <;> omega
    · split <;> omega
    · omega
  · have hlastTwo : Completes c ⟨c.toNat / 4096, 0x80, 0xBF, 1⟩
        [UInt8.ofNat (0x80 + c.toNat / 64 % 64), UInt8.ofNat (0x80 + c.toNat % 64)] :=
      hlast.more (by omega) (by omega) (by omega)
    rw [encodeChar_four hthree]
    refine (hlastTwo.more ?_ ?_ ?_).readAs (first_ofNat_four (by omega))
    · split <;> omega
    · split <;> omega
    · omega

/-- Only U+0000 is encoded with a zero byte. -/
theorem ne_zero_of_mem_encodeChar (h : c ≠ Char.ofNat 0) {b : UInt8} (hb : b ∈ encodeChar c) :
    b ≠ 0 := by
  have hone : 0 < c.toNat := by
    refine Nat.pos_of_ne_zero fun hzero ↦ h ?_
    rw [← Char.ofNat_toNat c, hzero]
  have hvalid : c.toNat < 0x110000 := by
    rcases c.valid with hlt | ⟨_, hlt⟩
    · exact Nat.lt_trans hlt (by decide)
    · exact hlt
  have hbyte {n : Nat} (hpos : 0 < n) (hlt : n < 256) : UInt8.ofNat n ≠ 0 := by
    intro hzero
    have hsame := congrArg UInt8.toNat hzero
    rw [UInt8.toNat_ofNat_of_lt' hlt] at hsame
    exact Nat.ne_of_gt hpos hsame
  rcases Nat.lt_or_ge c.toNat 0x80 with hascii | hascii
  · rw [encodeChar_one hascii] at hb
    obtain rfl := List.mem_singleton.1 hb
    exact hbyte hone (by omega)
  rcases Nat.lt_or_ge c.toNat 0x800 with htwo | htwo
  · rw [encodeChar_two hascii htwo] at hb
    simp only [List.mem_cons, List.not_mem_nil, or_false] at hb
    rcases hb with rfl | rfl <;> exact hbyte (by omega) (by omega)
  rcases Nat.lt_or_ge c.toNat 0x10000 with hthree | hthree
  · rw [encodeChar_three htwo hthree] at hb
    simp only [List.mem_cons, List.not_mem_nil, or_false] at hb
    rcases hb with rfl | rfl | rfl <;> exact hbyte (by omega) (by omega)
  · rw [encodeChar_four hthree] at hb
    simp only [List.mem_cons, List.not_mem_nil, or_false] at hb
    rcases hb with rfl | rfl | rfl | rfl <;> exact hbyte (by omega) (by omega)

/-- A text without U+0000 has no zero bytes. -/
theorem ne_zero_of_mem_ofText {text : String} (h : Char.ofNat 0 ∉ text.toList) {b : UInt8}
    (hb : b ∈ ofText text) : b ≠ 0 := by
  obtain ⟨c, hc, hb⟩ := List.mem_flatMap.1 hb
  exact ne_zero_of_mem_encodeChar (fun hzero ↦ h (hzero ▸ hc)) hb

/-! ### Characters that fit -/

/-- The longest beginning of a text whose bytes fit into a width. -/
structure LongestFit (width : Nat) (chars kept : List Char) : Prop where
  /-- The text starts with it. -/
  starts : kept <+: chars
  /-- Its bytes fit. -/
  fits : (encode kept).length ≤ width
  /-- No longer beginning fits. -/
  longest : ∀ other, other <+: chars → (encode other).length ≤ width → other.length ≤ kept.length

/-- There is one longest beginning. -/
theorem LongestFit.unique {kept other : List Char} (h : LongestFit width chars kept)
    (h' : LongestFit width chars other) : kept = other := by
  have hle := h'.longest kept h.starts h.fits
  have hge := h.longest other h'.starts h'.fits
  exact (List.prefix_of_prefix_length_le h.starts h'.starts hle).eq_of_length
    (Nat.le_antisymm hle hge)

/-- The characters that fit into a width, taken from the front. -/
def fitting : Nat → List Char → List Char
  | _, [] => []
  | width, c :: rest =>
    if (encodeChar c).length ≤ width then c :: fitting (width - (encodeChar c).length) rest else []

theorem encode_cons (c : Char) (chars : List Char) :
    encode (c :: chars) = encodeChar c ++ encode chars := rfl

/-- A letter takes one byte each time. -/
theorem ofText_replicate (n : Nat) :
    ofText (String.ofList (List.replicate n 'a')) = List.replicate n 0x61 := by
  rw [ofText, String.toList_ofList]
  induction n with
  | zero => rfl
  | succ n ih =>
    rw [List.replicate_succ, encode_cons, ih]
    rfl

theorem longestFit_fitting (width : Nat) (chars : List Char) :
    LongestFit width chars (fitting width chars) := by
  induction chars generalizing width with
  | nil => exact ⟨List.prefix_rfl, Nat.zero_le _, fun other hother _ ↦ hother.length_le⟩
  | cons c rest ih =>
    by_cases hfits : (encodeChar c).length ≤ width
    · obtain ⟨hstarts, hrest, hlongest⟩ := ih (width - (encodeChar c).length)
      rw [fitting, if_pos hfits]
      refine ⟨List.cons_prefix_cons.2 ⟨rfl, hstarts⟩, ?_, fun other hother hbytes ↦ ?_⟩
      · rw [encode_cons, List.length_append]
        omega
      · cases other with
        | nil => exact Nat.zero_le _
        | cons first others =>
          obtain ⟨rfl, hothers⟩ := List.cons_prefix_cons.1 hother
          rw [encode_cons, List.length_append] at hbytes
          have hle := hlongest others hothers (by omega)
          exact Nat.succ_le_succ hle
    · rw [fitting, if_neg hfits]
      refine ⟨List.nil_prefix, Nat.zero_le _, fun other hother hbytes ↦ ?_⟩
      cases other with
      | nil => exact Nat.zero_le _
      | cons first others =>
        obtain ⟨rfl, _⟩ := List.cons_prefix_cons.1 hother
        rw [encode_cons, List.length_append] at hbytes
        omega

/-- Cut bytes are read as the characters that fit and one subpart that is not valid, unless all
characters fit or the cut lies between two of them. -/
theorem scan_take_encode (width : Nat) (chars : List Char) :
    scan none ((encode chars).take width) = (fitting width chars).map some ++
      if fitting width chars = chars ∨ (encode (fitting width chars)).length = width then []
      else [none] := by
  induction chars generalizing width with
  | nil => rw [encode, List.flatMap_nil, List.take_nil, fitting, if_pos (.inl rfl)]; rfl
  | cons c rest ih =>
    have hread := readAs_encodeChar c
    by_cases hfits : (encodeChar c).length ≤ width
    · -- the rest is cut at the room that the first character leaves
      have hlength (kept : List Char) : (encodeChar c).length + (encode kept).length = width ↔
          (encode kept).length = width - (encodeChar c).length := by omega
      rw [fitting, if_pos hfits, encode_cons, List.take_append, List.take_of_length_le hfits,
        hread.all, ih, encode_cons, List.length_append]
      simp only [List.cons.injEq, true_and, hlength, List.map_cons, List.cons_append]
    · rw [fitting, if_neg hfits, encode_cons, List.take_append_of_le_length (by omega)]
      rcases Nat.eq_zero_or_pos width with rfl | hpos
      · rw [if_pos (.inr rfl)]
        rfl
      · rw [hread.fewer width hpos (by omega), if_neg]
        · rfl
        · simp [encode]
          omega

/-- The bytes of a text are read as the characters that fit into the width they are cut at, and
U+FFFD behind them unless all characters fit or fill it. -/
theorem toTextLossy_take_ofText (width : Nat) (text : String) :
    toTextLossy ((ofText text).take width) = String.ofList (fitting width text.toList ++
      if fitting width text.toList = text.toList ∨
        (encode (fitting width text.toList)).length = width then []
      else [Char.ofNat 0xFFFD]) := by
  rw [toTextLossy, decodeLossy, ofText, scan_take_encode, List.map_append, List.map_map]
  congr 2
  · exact List.map_id' _
  · split <;> rfl

end Stowage.Utf8
