import Stowage.Proofs.Number.Stored
import Mathlib.Tactic.Ring

/-!
# Widening a number and narrowing it again

A word is its sign, its exponent field and its fraction (`decode_signed`). A number of the 32-bit
format is one of the 64-bit format, with its last place further down, so rounding it back is exact
and gives the word it came from; only a NaN may come back quiet (`convert?_convertOrInfinity`). What
was rounded to 32 bits once stays as it is (`convertOrInfinity_of_convert?`).
-/

set_option autoImplicit false

namespace Stowage.Number.BinaryFormat

variable {format : BinaryFormat}

/-! ### Words and their fields -/

/-- A word means what its fields mean. -/
theorem decode_signed (negative : Bool) {exponent fraction : Nat}
    (hexponent : exponent < 2 ^ format.exponentBits)
    (hfraction : fraction < 2 ^ format.fractionBits) :
    format.decode (format.signed negative (exponent * 2 ^ format.fractionBits + fraction)) =
      if exponent = format.topExponent then
        if fraction = 0 then .infinite negative else .nan negative fraction
      else if exponent = 0 then .finite negative fraction format.leastExponent
      else
        .finite negative (2 ^ format.fractionBits + fraction)
          (format.leastExponent + exponent - 1) := by
  obtain ⟨sign, hsign, hsigned⟩ : ∃ sign, (sign % 2 == 1) = negative ∧
      format.signed negative (exponent * 2 ^ format.fractionBits + fraction) =
        2 ^ format.fractionBits * (2 ^ format.exponentBits * sign + exponent) + fraction := by
    refine ⟨if negative then 1 else 0, by cases negative <;> rfl, ?_⟩
    cases negative
    · simp [signed, Nat.mul_comm]
    · simp only [signed, if_true, Nat.pow_eq, Nat.pow_add]
      ring
  have hinner : 2 ^ format.fractionBits * (2 ^ format.exponentBits * sign + exponent) + fraction =
      2 ^ (format.fractionBits + format.exponentBits) * sign +
        (2 ^ format.fractionBits * exponent + fraction) := by
    rw [Nat.pow_add]
    ring
  have hmagnitude : 2 ^ format.fractionBits * exponent + fraction <
      2 ^ (format.fractionBits + format.exponentBits) := by
    rw [Nat.pow_add]
    calc 2 ^ format.fractionBits * exponent + fraction
        < 2 ^ format.fractionBits * (exponent + 1) := by rw [Nat.mul_succ]; omega
      _ ≤ 2 ^ format.fractionBits * 2 ^ format.exponentBits := Nat.mul_le_mul_left _ hexponent
  have hwordFraction : (2 ^ format.fractionBits * (2 ^ format.exponentBits * sign + exponent) +
      fraction) % 2 ^ format.fractionBits = fraction := by
    rw [Nat.mul_add_mod, Nat.mod_eq_of_lt hfraction]
  have hwordExponent : (2 ^ format.fractionBits * (2 ^ format.exponentBits * sign + exponent) +
      fraction) / 2 ^ format.fractionBits % 2 ^ format.exponentBits = exponent := by
    rw [Nat.mul_add_div (Nat.two_pow_pos _), Nat.div_eq_of_lt hfraction, Nat.add_zero,
      Nat.mul_add_mod, Nat.mod_eq_of_lt hexponent]
  have hwordSign : (2 ^ format.fractionBits * (2 ^ format.exponentBits * sign + exponent) +
      fraction) / 2 ^ (format.fractionBits + format.exponentBits) % 2 = sign % 2 := by
    rw [hinner, Nat.mul_add_div (Nat.two_pow_pos _), Nat.div_eq_of_lt hmagnitude, Nat.add_zero]
  rw [hsigned, decode]
  simp only [Nat.pow_eq, hwordFraction, hwordExponent, hwordSign, hsign]

/-- Every word has fields. -/
theorem exists_fields {word : Nat}
    (h : word < 2 ^ (format.fractionBits + format.exponentBits + 1)) :
    ∃ negative exponent fraction, exponent < 2 ^ format.exponentBits ∧
      fraction < 2 ^ format.fractionBits ∧
      word = format.signed negative (exponent * 2 ^ format.fractionBits + fraction) := by
  have hrest : word % 2 ^ (format.fractionBits + format.exponentBits) / 2 ^ format.fractionBits *
      2 ^ format.fractionBits + word % 2 ^ (format.fractionBits + format.exponentBits) %
        2 ^ format.fractionBits = word % 2 ^ (format.fractionBits + format.exponentBits) := by
    rw [Nat.mul_comm, Nat.div_add_mod]
  have hword := Nat.div_add_mod word (2 ^ (format.fractionBits + format.exponentBits))
  have hsign : word / 2 ^ (format.fractionBits + format.exponentBits) < 2 := by
    rw [Nat.div_lt_iff_lt_mul (Nat.two_pow_pos _), ← Nat.pow_succ']
    exact h
  have hlt := Nat.mod_lt word (Nat.two_pow_pos (format.fractionBits + format.exponentBits))
  refine ⟨decide (word / 2 ^ (format.fractionBits + format.exponentBits) = 1),
    word % 2 ^ (format.fractionBits + format.exponentBits) / 2 ^ format.fractionBits,
    word % 2 ^ (format.fractionBits + format.exponentBits) % 2 ^ format.fractionBits, ?_,
    Nat.mod_lt _ (Nat.two_pow_pos _), ?_⟩
  · rwa [Nat.div_lt_iff_lt_mul (Nat.two_pow_pos _), ← Nat.pow_add, Nat.add_comm format.exponentBits]
  · rw [hrest, signed]
    by_cases hone : word / 2 ^ (format.fractionBits + format.exponentBits) = 1
    · rw [hone, Nat.mul_one] at hword
      simpa [hone] using hword.symm
    · have hzero : word / 2 ^ (format.fractionBits + format.exponentBits) = 0 :=
        Nat.lt_one_iff.1 (Nat.lt_of_le_of_ne (Nat.le_of_lt_succ hsign) hone)
      rw [hzero, Nat.mul_zero, Nat.zero_add] at hword
      simpa [hzero] using hword.symm

/-! ### Rounding what needs none -/

theorem roundShift_mul (n shift : Nat) : roundShift (n * 2 ^ shift) shift = n := by
  have hpos : 0 < 2 ^ shift := Nat.two_pow_pos shift
  rw [roundShift]
  simp only [Nat.pow_eq, Nat.mul_div_cancel _ hpos, Nat.mul_mod_left, Nat.mul_zero, if_pos hpos]

/-- A number with few bits is taken to the full width of the format. -/
theorem magnitude?_widened {mantissa : Nat} (hne : mantissa ≠ 0) {shift : Nat}
    (hshift : mantissa.log2 + shift = format.fractionBits) {exponent : Int}
    (hleast : format.leastExponent ≤ exponent - shift) :
    format.magnitude? mantissa exponent =
      let field := (exponent - shift - format.leastExponent).toNat * 2 ^ format.fractionBits +
        mantissa * 2 ^ shift
      if field < format.infinity then some field else none := by
  have hplace : max format.leastExponent
      (exponent + ((mantissa.log2 : Int) + 1) - (format.fractionBits + 1)) = exponent - shift := by
    rw [← hshift]
    push_cast
    omega
  have hback : (exponent - (exponent - shift)).toNat = shift := by omega
  rw [magnitude?, if_neg hne, hplace]
  simp only [Nat.pow_eq, hback, if_pos (by omega : exponent - (shift : Int) ≤ exponent)]

theorem log2_mul_two_pow {n : Nat} (hne : n ≠ 0) (shift : Nat) :
    (n * 2 ^ shift).log2 = n.log2 + shift := by
  have hproduct : n * 2 ^ shift ≠ 0 := Nat.mul_ne_zero hne (Nat.two_pow_pos shift).ne'
  refine (Nat.log2_eq_iff hproduct).2 ⟨?_, ?_⟩
  · rw [Nat.pow_add]
    exact Nat.mul_le_mul_right _ (Nat.log2_self_le hne)
  · rw [Nat.add_right_comm, Nat.pow_add]
    exact Nat.mul_lt_mul_of_pos_right Nat.lt_log2_self (Nat.two_pow_pos shift)

/-- A number whose lower bits are zeros is taken without them. -/
theorem magnitude?_narrowed {mantissa shift : Nat} (hne : mantissa ≠ 0) (hshift : 0 < shift)
    {exponent : Int}
    (hplace : max format.leastExponent
      (exponent + ((mantissa.log2 : Int) + 1) - (format.fractionBits + 1)) = exponent) :
    format.magnitude? (mantissa * 2 ^ shift) (exponent - shift) =
      let field := (exponent - format.leastExponent).toNat * 2 ^ format.fractionBits + mantissa
      if field < format.infinity then some field else none := by
  have hproduct : mantissa * 2 ^ shift ≠ 0 := Nat.mul_ne_zero hne (Nat.two_pow_pos shift).ne'
  have hbits : (mantissa * 2 ^ shift).log2 = mantissa.log2 + shift := log2_mul_two_pow hne shift
  have hplaceShifted : max format.leastExponent
      (exponent - shift + (((mantissa * 2 ^ shift).log2 : Int) + 1) - (format.fractionBits + 1)) =
        exponent := by
    rw [hbits]
    push_cast
    omega
  have hback : (exponent - (exponent - shift)).toNat = shift := by omega
  rw [magnitude?, if_neg hproduct, hplaceShifted]
  simp only [Nat.pow_eq, hback, if_neg (by omega : ¬exponent ≤ exponent - (shift : Int)),
    roundShift_mul]

/-! ### From 32 bits to 64 and back -/

/-- Whether a word is a NaN. -/
def isNan (format : BinaryFormat) (word : Nat) : Bool :=
  match format.decode word with
  | .nan _ _ => true
  | _ => false

theorem isNan_mod (word : Nat) :
    format.isNan (word % 2 ^ (format.fractionBits + format.exponentBits + 1)) =
      format.isNan word := by
  rw [isNan, isNan, decode_mod]

/-- A word of the 32-bit format, made quiet if it is a NaN. -/
def quieted (word : Nat) : Nat :=
  match single.decode word with
  | .nan negative payload => single.quietNan negative payload single.fractionBits
  | _ => word

theorem topExponent_single : single.topExponent = 255 := by decide

theorem topExponent_double : double.topExponent = 2047 := by decide

theorem infinity_single : single.infinity = 255 * 2 ^ 23 := by decide

theorem infinity_double : double.infinity = 2047 * 2 ^ double.fractionBits := by decide

theorem fractionBits_single : single.fractionBits = 23 := rfl

theorem fractionBits_double : double.fractionBits = 52 := rfl

variable {negative : Bool} {mantissa : Nat} {exponent : Int}

/-- A finite number of the 32-bit format is one of the 64-bit format. -/
theorem exists_widened (negative : Bool) (hne : mantissa ≠ 0) (hmantissa : mantissa < 2 ^ 24)
    (hlow : -149 ≤ exponent) (hhigh : exponent ≤ 104) :
    ∃ word, double.encodeFinite? negative mantissa exponent = some word ∧
      double.decode word = .finite negative (mantissa * 2 ^ (52 - mantissa.log2))
        (exponent - (52 - mantissa.log2 : Nat)) := by
  have hbits : mantissa.log2 < 24 := (Nat.log2_lt hne).2 hmantissa
  generalize hshift : 52 - mantissa.log2 = shift
  have hsum : mantissa.log2 + shift = double.fractionBits := by
    change _ = 52
    omega
  have hleast : double.leastExponent = -1074 := rfl
  have hwidened := magnitude?_widened hne hsum (by omega : double.leastExponent ≤ exponent - shift)
  have hscaled : (mantissa * 2 ^ shift).log2 = 52 := (log2_mul_two_pow hne shift).trans hsum
  have hscaledNe : mantissa * 2 ^ shift ≠ 0 := Nat.mul_ne_zero hne (Nat.two_pow_pos shift).ne'
  obtain ⟨hscaledLow, hscaledHigh⟩ := (Nat.log2_eq_iff hscaledNe).1 hscaled
  generalize mantissa * 2 ^ shift = scaled at *
  have hfield : (exponent - shift - double.leastExponent).toNat * 2 ^ double.fractionBits + scaled =
      (exponent - shift + 1075).toNat * 2 ^ double.fractionBits + (scaled - 2 ^ 52) := by
    rw [fractionBits_double]
    omega
  have hfinite : (exponent - shift + 1075).toNat * 2 ^ double.fractionBits + (scaled - 2 ^ 52) <
      double.infinity := by
    rw [infinity_double, fractionBits_double]
    omega
  rw [hfield] at hwidened
  refine ⟨double.signed negative ((exponent - shift + 1075).toNat * 2 ^ double.fractionBits +
    (scaled - 2 ^ 52)), ?_, ?_⟩
  · rw [encodeFinite?, if_neg hne, hwidened]
    simp only [if_pos hfinite, Option.map_some]
  · have hexponent : (exponent - shift + 1075).toNat < 2 ^ double.exponentBits := by
      change _ < 2048
      omega
    have hfraction : scaled - 2 ^ 52 < 2 ^ double.fractionBits := by
      rw [fractionBits_double]
      omega
    have htop : (exponent - shift + 1075).toNat ≠ double.topExponent := by
      rw [topExponent_double]
      omega
    have hscaledEq : 2 ^ double.fractionBits + (scaled - 2 ^ 52) = scaled := by
      rw [fractionBits_double]
      omega
    have hexponentEq : double.leastExponent + ((exponent - shift + 1075).toNat : Int) - 1 =
        exponent - shift := by
      omega
    rw [decode_signed negative hexponent hfraction, if_neg htop, if_neg (by omega), hscaledEq,
      hexponentEq]

/-- It is rounded back to its fields. -/
theorem encodeFinite?_narrowed (hne : mantissa ≠ 0) (hmantissa : mantissa < 2 ^ 24)
    (hlow : -149 ≤ exponent) (hhigh : exponent ≤ 104)
    (hnormal : 2 ^ 23 ≤ mantissa ∨ exponent = -149) :
    single.encodeFinite? negative (mantissa * 2 ^ (52 - mantissa.log2))
        (exponent - (52 - mantissa.log2 : Nat)) =
      some (single.signed negative ((exponent + 149).toNat * 2 ^ 23 + mantissa)) := by
  have hbits : mantissa.log2 < 24 := (Nat.log2_lt hne).2 hmantissa
  have hbitsNormal : 2 ^ 23 ≤ mantissa → 23 ≤ mantissa.log2 := (Nat.le_log2 hne).2
  have hleast : single.leastExponent = -149 := rfl
  have hfractionBits : (single.fractionBits : Int) = 23 := rfl
  have hplace : max single.leastExponent
      (exponent + ((mantissa.log2 : Int) + 1) - (single.fractionBits + 1)) = exponent := by
    omega
  have hfield : (exponent - single.leastExponent).toNat * 2 ^ single.fractionBits + mantissa =
      (exponent + 149).toNat * 2 ^ 23 + mantissa := rfl
  have hfinite : (exponent + 149).toNat * 2 ^ 23 + mantissa < single.infinity := by
    rw [infinity_single]
    omega
  have hproduct : mantissa * 2 ^ (52 - mantissa.log2) ≠ 0 :=
    Nat.mul_ne_zero hne (Nat.two_pow_pos _).ne'
  rw [encodeFinite?, if_neg hproduct, magnitude?_narrowed hne (by omega) hplace, hfield]
  simp only [if_pos hfinite, Option.map_some]

theorem convert?_of_finite {word : Nat}
    (hword : single.decode word = .finite negative mantissa exponent) (hne : mantissa ≠ 0)
    (hmantissa : mantissa < 2 ^ 24) (hlow : -149 ≤ exponent) (hhigh : exponent ≤ 104)
    (hnormal : 2 ^ 23 ≤ mantissa ∨ exponent = -149) :
    double.convert? single (single.convertOrInfinity double word) =
      some (single.signed negative ((exponent + 149).toNat * 2 ^ 23 + mantissa)) := by
  obtain ⟨widened, hencode, hdecode⟩ := exists_widened negative hne hmantissa hlow hhigh
  have hwidened : single.convertOrInfinity double word = widened := by
    rw [convertOrInfinity, hword]
    simp only [hencode, Option.getD_some]
  rw [hwidened, convert?, hdecode]
  exact encodeFinite?_narrowed hne hmantissa hlow hhigh hnormal

theorem convert?_of_infinite {word : Nat} (hword : single.decode word = .infinite negative) :
    double.convert? single (single.convertOrInfinity double word) =
      some (single.signed negative single.infinity) := by
  have hdecode : double.decode (double.signed negative double.infinity) = .infinite negative := by
    have htop : 2047 < 2 ^ double.exponentBits := by decide
    have h := decode_signed negative htop (Nat.two_pow_pos double.fractionBits)
    rwa [topExponent_double, if_pos rfl, if_pos rfl, Nat.add_zero, ← infinity_double] at h
  have hwidened : single.convertOrInfinity double word =
      double.signed negative double.infinity := by
    rw [convertOrInfinity, hword]
  rw [hwidened, convert?, hdecode]

theorem convert?_of_nan {word payload : Nat} (hword : single.decode word = .nan negative payload) :
    double.convert? single (single.convertOrInfinity double word) =
      some (single.quietNan negative payload single.fractionBits) := by
  have hquiet : double.quietNan negative payload single.fractionBits = double.signed negative
      (2047 * 2 ^ double.fractionBits + (2 ^ 51 + payload * 2 ^ 52 / 2 ^ 23 % 2 ^ 51)) := by
    simp only [quietNan, infinity_double, fractionBits_double, fractionBits_single, Nat.pow_eq,
      Nat.reduceSub, Nat.add_assoc]
  have hdecode : double.decode (double.quietNan negative payload single.fractionBits) =
      .nan negative (2 ^ 51 + payload * 2 ^ 52 / 2 ^ 23 % 2 ^ 51) := by
    have htop : 2047 < 2 ^ double.exponentBits := by decide
    have hfraction : 2 ^ 51 + payload * 2 ^ 52 / 2 ^ 23 % 2 ^ 51 < 2 ^ double.fractionBits := by
      rw [fractionBits_double]
      omega
    have h := decode_signed negative htop hfraction
    rwa [topExponent_double, if_pos rfl, if_neg (by omega), ← hquiet] at h
  have hback : (2 ^ 51 + payload * 2 ^ 52 / 2 ^ 23 % 2 ^ 51) * 2 ^ 23 / 2 ^ 52 % 2 ^ 22 =
      payload * 2 ^ 23 / 2 ^ 23 % 2 ^ 22 := by
    omega
  have hwidened : single.convertOrInfinity double word =
      double.quietNan negative payload single.fractionBits := by
    rw [convertOrInfinity, hword]
  have hnarrowed : single.quietNan negative
      (2 ^ 51 + payload * 2 ^ 52 / 2 ^ 23 % 2 ^ 51) double.fractionBits =
        single.quietNan negative payload single.fractionBits := by
    simp only [quietNan, fractionBits_double, fractionBits_single, Nat.pow_eq, Nat.reduceSub, hback]
  rw [hwidened, convert?, hdecode]
  exact congrArg some hnarrowed

/-- Widening a word and narrowing it again gives the word back, quiet if it is a NaN. -/
theorem convert?_convertOrInfinity {word : Nat} (h : word < 2 ^ 32) :
    double.convert? single (single.convertOrInfinity double word) = some (quieted word) := by
  have hword : word < 2 ^ (single.fractionBits + single.exponentBits + 1) := h
  obtain ⟨negative, exponent, fraction, hexponent, hfraction, rfl⟩ := exists_fields hword
  have hdecode := decode_signed negative hexponent hfraction
  have hexponentLt : exponent < 256 := hexponent
  have hfractionLt : fraction < 2 ^ 23 := hfraction
  have hleast : single.leastExponent = -149 := rfl
  rw [topExponent_single, hleast] at hdecode
  rw [quieted]
  by_cases htop : exponent = 255
  · subst htop
    rw [if_pos rfl] at hdecode
    by_cases hzero : fraction = 0
    · rw [if_pos hzero] at hdecode
      rw [convert?_of_infinite hdecode, hdecode, hzero, infinity_single]
      rfl
    · rw [if_neg hzero] at hdecode
      rw [convert?_of_nan hdecode, hdecode]
  · rw [if_neg htop] at hdecode
    by_cases hsubnormal : exponent = 0
    · subst hsubnormal
      rw [if_pos rfl] at hdecode
      by_cases hzero : fraction = 0
      · subst hzero
        rw [hdecode]
        cases negative <;> decide +kernel
      · rw [convert?_of_finite hdecode hzero (by omega) (by decide) (by decide) (.inr rfl), hdecode]
        rfl
    · rw [if_neg hsubnormal] at hdecode
      have hsum : 2 ^ single.fractionBits + fraction = 2 ^ 23 + fraction := rfl
      have hback : (-149 + (exponent : Int) - 1 + 149).toNat * 2 ^ 23 + (2 ^ 23 + fraction) =
          exponent * 2 ^ single.fractionBits + fraction := by
        change _ = exponent * 2 ^ 23 + fraction
        omega
      rw [hsum] at hdecode
      rw [convert?_of_finite hdecode (by omega) (by omega) (by omega) (by omega) (.inl (by omega)),
        hdecode, hback]

theorem signed_lt {field : Nat} (negative : Bool) (h : field < 2 ^ 31) :
    single.signed negative field < 2 ^ 32 := by
  have hsign : single.signed negative field = (if negative then 2 ^ 31 else 0) + field := rfl
  rw [hsign]
  split <;> omega

/-- Finite numbers and infinities are no NaNs. -/
theorem quieted_signed {field : Nat} (negative : Bool) (h : field ≤ single.infinity) :
    quieted (single.signed negative field) = single.signed negative field := by
  rw [infinity_single] at h
  have hexponent : field / 2 ^ 23 < 2 ^ single.exponentBits := by
    change _ < 256
    omega
  have hfields : field / 2 ^ 23 * 2 ^ single.fractionBits + field % 2 ^ 23 = field := by
    rw [fractionBits_single]
    omega
  have hdecode := decode_signed negative hexponent
    (Nat.mod_lt field (Nat.two_pow_pos single.fractionBits))
  rw [topExponent_single] at hdecode
  rw [fractionBits_single] at hfields hdecode
  rw [hfields] at hdecode
  rw [quieted, hdecode]
  by_cases htop : field / 2 ^ 23 = 255
  · rw [if_pos htop, if_pos (by omega)]
  · rw [if_neg htop]
    by_cases hsubnormal : field / 2 ^ 23 = 0
    · rw [if_pos hsubnormal]
    · rw [if_neg hsubnormal]

/-- A quiet NaN has the quiet bit and the leading bits of its payload. -/
theorem decode_quietNan (negative : Bool) (payload width : Nat) :
    single.decode (single.quietNan negative payload width) =
      .nan negative (2 ^ 22 + payload * 2 ^ 23 / 2 ^ width % 2 ^ 22) := by
  have hquiet : single.quietNan negative payload width = single.signed negative
      (255 * 2 ^ single.fractionBits + (2 ^ 22 + payload * 2 ^ 23 / 2 ^ width % 2 ^ 22)) := by
    simp only [quietNan, infinity_single, fractionBits_single, Nat.pow_eq, Nat.reduceSub,
      Nat.add_assoc]
  have htop : 255 < 2 ^ single.exponentBits := by decide
  have hfraction :
      2 ^ 22 + payload * 2 ^ 23 / 2 ^ width % 2 ^ 22 < 2 ^ single.fractionBits := by
    rw [fractionBits_single]
    omega
  have h := decode_signed negative htop hfraction
  rwa [topExponent_single, if_pos rfl, if_neg (by omega), ← hquiet] at h

theorem quieted_quietNan (negative : Bool) (payload width : Nat) :
    quieted (single.quietNan negative payload width) = single.quietNan negative payload width := by
  have hdecode := decode_quietNan negative payload width
  have hback : (2 ^ 22 + payload * 2 ^ 23 / 2 ^ width % 2 ^ 22) * 2 ^ 23 / 2 ^ 23 % 2 ^ 22 =
      payload * 2 ^ 23 / 2 ^ width % 2 ^ 22 := by
    omega
  rw [quieted, hdecode]
  simp only [quietNan, fractionBits_single, Nat.pow_eq, Nat.reduceSub, hback]

theorem quieted_eq_self {word : Nat} (h : single.isNan word = false) : quieted word = word := by
  rcases hdecode : single.decode word with ⟨negative, payload⟩ | _ | _
  · rw [isNan, hdecode] at h
    exact absurd h (by simp)
  · rw [quieted, hdecode]
  · rw [quieted, hdecode]

/-- A NaN that is made quiet stays one. -/
theorem isNan_quieted (word : Nat) : single.isNan (quieted word) = single.isNan word := by
  rcases hdecode : single.decode word with ⟨negative, payload⟩ | _ | _
  · have hquieted : quieted word = single.quietNan negative payload single.fractionBits := by
      rw [quieted, hdecode]
    rw [hquieted, isNan, isNan, decode_quietNan, hdecode]
  · rw [quieted, hdecode]
  · rw [quieted, hdecode]

/-- What was rounded to 32 bits is a word of the format, and quiet already. -/
theorem quieted_of_convert? {word rounded : Nat} (h : double.convert? single word = some rounded) :
    rounded < 2 ^ 32 ∧ quieted rounded = rounded := by
  have hinfinity := infinity_single
  rw [convert?] at h
  split at h
  · next negative payload _ =>
    obtain rfl := Option.some.inj h
    refine ⟨signed_lt negative ?_, quieted_quietNan negative payload double.fractionBits⟩
    simp only [infinity_single, fractionBits_single, Nat.pow_eq, Nat.reduceSub]
    omega
  · next negative _ =>
    obtain rfl := Option.some.inj h
    exact ⟨signed_lt negative (by omega), quieted_signed negative (Nat.le_refl _)⟩
  · next negative mantissa exponent _ =>
    obtain ⟨field, hfield, rfl⟩ : ∃ field, field < single.infinity ∧
        single.signed negative field = rounded := by
      rw [encodeFinite?] at h
      split at h
      · exact ⟨0, by omega, Option.some.inj h⟩
      · obtain ⟨field, hmagnitude, hrounded⟩ := Option.map_eq_some_iff.1 h
        refine ⟨field, ?_, hrounded⟩
        rw [magnitude?] at hmagnitude
        simp only [Option.ite_none_right_eq_some] at hmagnitude
        exact Option.some.inj hmagnitude.2 ▸ hmagnitude.1
    exact ⟨signed_lt negative (by omega), quieted_signed negative (Nat.le_of_lt hfield)⟩

/-- What was rounded to 32 bits is what it is when it is widened and rounded again. -/
theorem convertOrInfinity_of_convert? {word rounded : Nat}
    (h : double.convert? single word = some rounded) :
    double.convertOrInfinity single (single.convertOrInfinity double rounded) = rounded := by
  obtain ⟨hlt, hquiet⟩ := quieted_of_convert? h
  have hagain := convert?_convertOrInfinity hlt
  rw [hquiet, convert?] at hagain
  rw [convertOrInfinity]
  split at hagain
  · exact Option.some.inj hagain
  · exact Option.some.inj hagain
  · rw [hagain]
    rfl

end Stowage.Number.BinaryFormat
