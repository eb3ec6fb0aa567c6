import Stowage.Number.Storage
import Stowage.Proofs.Bytes
import Stowage.Proofs.Outcome
import Mathlib.Data.Nat.ModEq

/-!
# What a number type keeps of a value

`NumberType.kept` says what comes back when a value is stored in a number type and loaded again:
integers and truth values as the integer they are, floating point numbers as the nearest number of
the type, and a missing value as zero. Whatever can be stored is kept in this sense (`load_store`).
-/

set_option autoImplicit false

namespace Stowage

namespace Number.BinaryFormat

/-- Bits above the sign do not count. -/
theorem decode_mod (format : BinaryFormat) (word : Nat) :
    format.decode (word % 2 ^ (format.fractionBits + format.exponentBits + 1)) =
      format.decode word := by
  have hfraction : word % 2 ^ (format.fractionBits + format.exponentBits + 1) %
      Nat.pow 2 format.fractionBits = word % Nat.pow 2 format.fractionBits :=
    Nat.mod_mod_of_dvd _ (Nat.pow_dvd_pow 2 (by omega))
  have hexponent : word % 2 ^ (format.fractionBits + format.exponentBits + 1) /
      Nat.pow 2 format.fractionBits % Nat.pow 2 format.exponentBits =
      word / Nat.pow 2 format.fractionBits % Nat.pow 2 format.exponentBits := by
    simp only [Nat.pow_eq]
    rw [Nat.add_assoc, Nat.pow_add, Nat.mod_mul_right_div_self]
    exact Nat.mod_mod_of_dvd _ (Nat.pow_dvd_pow 2 (by omega))
  have hsign : word % 2 ^ (format.fractionBits + format.exponentBits + 1) /
      Nat.pow 2 (format.fractionBits + format.exponentBits) % 2 =
      word / Nat.pow 2 (format.fractionBits + format.exponentBits) % 2 := by
    rw [Nat.pow_eq, Nat.pow_succ, Nat.mod_mul_right_div_self, Nat.mod_mod]
  simp only [decode, hfraction, hexponent, hsign]

end Number.BinaryFormat

namespace NumberType

open Number (BinaryFormat)

variable {type : NumberType} {value : Value} {bytes : Bytes}

/-! ### Integers -/

theorem pow_size (size : Nat) : 256 ^ size = 2 ^ (8 * size) := by
  rw [Nat.pow_mul]

theorem toNat_storeInteger (size : Nat) (i : Int) :
    Bytes.toNat (storeInteger size i) = (i % Nat.pow 2 (8 * size)).toNat := by
  have hpos : (0 : Int) < Nat.pow 2 (8 * size) := Int.natCast_pos.2 (Nat.two_pow_pos (8 * size))
  have hlt : i % Nat.pow 2 (8 * size) < Nat.pow 2 (8 * size) := Int.emod_lt_of_pos i hpos
  rw [storeInteger, Bytes.toNat_ofNat, pow_size, Nat.mod_eq_of_lt]
  change _ < Nat.pow 2 (8 * size)
  omega

/-- An integer in the range of a type is read back from its two's complement. -/
theorem signedWord_storeInteger {size : Nat} (hsize : 0 < size) {i : Int}
    (h : inRange size i = true) :
    PackedArray.signedWord size (Bytes.toNat (storeInteger size i)) = i := by
  obtain ⟨hlow, hhigh⟩ := of_decide_eq_true h
  have hpos : 0 < Nat.pow 2 (8 * size - 1) := Nat.pow_pos (by decide)
  have hdouble : Nat.pow 2 (8 * size) = 2 * Nat.pow 2 (8 * size - 1) := by
    rw [← Nat.sub_add_cancel (by omega : 1 ≤ 8 * size)]
    exact Nat.pow_succ'
  rw [PackedArray.signedWord, toNat_storeInteger]
  by_cases hneg : i < 0
  · have hmod : i % Nat.pow 2 (8 * size) = i + Nat.pow 2 (8 * size) := by
      rw [← Int.add_emod_right]
      exact Int.emod_eq_of_lt (by omega) (by omega)
    rw [hmod, if_neg (by omega), Int.toNat_of_nonneg (by omega)]
    omega
  · have hmod : i % Nat.pow 2 (8 * size) = i := Int.emod_eq_of_lt (by omega) (by omega)
    rw [hmod, if_pos (by omega), Int.toNat_of_nonneg (by omega)]

/-- A word read as a signed number is stored as it was. -/
theorem storeInteger_signedWord (size word : Nat) :
    storeInteger size (PackedArray.signedWord size word) = Bytes.ofNat size word := by
  have hmod : PackedArray.signedWord size word % Nat.pow 2 (8 * size) =
      ((word % 2 ^ (8 * size) : Nat) : Int) := by
    rw [PackedArray.signedWord]
    split
    · rfl
    · exact Int.sub_emod_right _ _
  rw [storeInteger, hmod, Int.toNat_natCast, ← pow_size, Bytes.ofNat_mod]

/-- A word of the right width read as a signed number is in the range of its type. -/
theorem inRange_signedWord {size word : Nat} (hsize : 0 < size) (h : word < 2 ^ (8 * size)) :
    inRange size (PackedArray.signedWord size word) = true := by
  have hword : word < Nat.pow 2 (8 * size) := h
  have hdouble : Nat.pow 2 (8 * size) = 2 * Nat.pow 2 (8 * size - 1) := by
    rw [← Nat.sub_add_cancel (by omega : 1 ≤ 8 * size)]
    exact Nat.pow_succ'
  rw [PackedArray.signedWord]
  split <;> exact decide_eq_true ⟨by omega, by omega⟩

/-! ### All numbers -/

/-- What remains of a value that is stored in a number type. -/
def kept (type : NumberType) (value : Value) : Value :=
  match value with
  | .null => type.default
  | value =>
    match type with
    | .float64 =>
      match floatOf? value with
      | some word => .float (word % 2 ^ 64)
      | none => value
    | .float32 =>
      match (floatOf? value).bind (BinaryFormat.double.convert? .single) with
      | some word => .float (BinaryFormat.single.convertOrInfinity .double word)
      | none => value
    | _ =>
      match integerOf? value with
      | some i => .int i
      | none => value

theorem convertOrInfinity_mod (word : Nat) :
    BinaryFormat.single.convertOrInfinity .double (word % 2 ^ 32) =
      BinaryFormat.single.convertOrInfinity .double word := by
  have hdecode : BinaryFormat.single.decode (word % 2 ^ 32) = BinaryFormat.single.decode word :=
    BinaryFormat.single.decode_mod word
  simp only [BinaryFormat.convertOrInfinity, hdecode]

/-- The zero of a type is stored and loaded as it is. -/
theorem load_store_default (type : NumberType) (h : type.store type.default = .ok bytes) :
    type.load bytes = type.default := by
  cases type <;> obtain rfl := Except.ok.inj h <;> rfl

theorem integerOf?_of_storeInteger {size : Nat} {fault : Fault}
    (h : (match integerOf? value with
      | some i => if inRange size i then .ok (storeInteger size i) else .error fault
      | none => .error fault) = Except.ok bytes) :
    ∃ i, integerOf? value = some i ∧ inRange size i = true ∧ bytes = storeInteger size i := by
  split at h
  · next i hi =>
    split at h
    · next hrange => exact ⟨i, hi, hrange, (Except.ok.inj h).symm⟩
    · exact absurd h (by simp)
  · exact absurd h (by simp)

/-- What was stored is loaded as it is kept. -/
theorem load_store (h : type.store (type.present value) = .ok bytes) :
    type.load bytes = type.kept value := by
  by_cases hnull : value = .null
  · subst hnull
    exact load_store_default type h
  · have hpresent : type.present value = value := by
      cases value <;> first | rfl | exact absurd rfl hnull
    rw [hpresent] at h
    cases type with
    | int8 | int16 | int32 | int64 =>
      obtain ⟨i, hi, hrange, rfl⟩ := integerOf?_of_storeInteger h
      simp only [load, kept, hi]
      exact congrArg Value.int (signedWord_storeInteger (by decide) hrange)
    | float32 =>
      simp only [store] at h
      split at h
      · next word hword =>
        split at h
        · next single hsingle =>
          obtain rfl := Except.ok.inj h
          simp only [load, kept, hword, Option.bind_some, hsingle, Bytes.toNat_ofNat]
          exact congrArg Value.float (convertOrInfinity_mod single)
        · exact absurd h (by simp)
      · exact absurd h (by simp)
    | float64 =>
      simp only [store] at h
      split at h
      · next word hword =>
        obtain rfl := Except.ok.inj h
        simp only [load, kept, hword, Bytes.toNat_ofNat]
        rfl
      · exact absurd h (by simp)

theorem storeAll_cons_eq_ok {type : NumberType} {value : Value} {rest : List Value}
    {bytes : Bytes} : type.storeAll (value :: rest) = .ok bytes ↔
      ∃ first others, type.store value = .ok first ∧ type.storeAll rest = .ok others ∧
        first ++ others = bytes := by
  rw [storeAll]
  rcases type.store value with fault | first
  · simp
  · rcases type.storeAll rest with fault | others <;> simp

/-- Values are stored one by one, and laid out back to back. -/
theorem storeAll_eq_mapM (type : NumberType) (values : List Value) :
    type.storeAll values = (values.mapM type.store).map List.flatten := by
  induction values with
  | nil => rfl
  | cons value rest ih =>
    rw [storeAll, Outcome.mapM_cons_ok, ih]
    rcases type.store value with fault | part
    · rfl
    · rcases rest.mapM type.store with fault | parts <;> rfl

theorem storeAll_append (type : NumberType) (first second : List Value) :
    type.storeAll (first ++ second) = (do
      let bytes ← type.storeAll first
      let others ← type.storeAll second
      .ok (bytes ++ others)) := by
  induction first with
  | nil =>
    rw [List.nil_append, storeAll, Outcome.ok_bind]
    cases type.storeAll second <;> rfl
  | cons value rest ih =>
    rw [List.cons_append, storeAll, storeAll, ih]
    rcases type.store value with fault | part
    · rfl
    · rcases type.storeAll rest with fault | bytes
      · rfl
      · rcases type.storeAll second with fault | others
        · rfl
        · exact congrArg Except.ok (List.append_assoc part bytes others).symm

end NumberType

end Stowage
