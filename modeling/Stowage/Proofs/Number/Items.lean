import Stowage.Proofs.Number.Conversion

/-!
# Items of typed arrays as stored numbers

The items of a typed array of signed or floating point numbers are numbers of one type. Storing an
item in this type gives the bytes it has in the array, quiet if it is a 32-bit NaN (`store_item`),
and what the type keeps of a value is an item again (`exists_wordOf?_kept`). Values stored one after
another are loaded as they are kept (`loadAll_of_storeAll`), and bytes that are loaded are stored as
they were, if there is no NaN among them (`exists_storeEach_loadAll`).
-/

set_option autoImplicit false

namespace Stowage

open Number (BinaryFormat)

namespace NumberType

variable {type : NumberType} {value : Value} {bytes : Bytes}

theorem ne_null_of_store (h : type.store value = .ok bytes) : value ≠ .null := by
  rintro rfl
  cases type <;> exact absurd h (by simp [store, integerOf?, floatOf?])

/-- What was stored, and not missing, is loaded as it is kept. -/
theorem load_of_store (h : type.store value = .ok bytes) : type.load bytes = type.kept value := by
  have hpresent : type.store (type.present value) = .ok bytes := by
    rw [present.eq_2 type value (ne_null_of_store h), h]
  exact load_store hpresent

/-- An integer that is stored is kept as it is. -/
theorem kept_of_store_integer (hinteger : type.isInteger = true)
    (h : type.store value = .ok bytes) :
    ∃ i, integerOf? value = some i ∧ inRange type.size i = true ∧ type.kept value = .int i := by
  have hne := ne_null_of_store h
  cases type with
  | int8 | int16 | int32 | int64 =>
    obtain ⟨i, hi, hrange, _⟩ := integerOf?_of_storeInteger h
    refine ⟨i, hi, hrange, ?_⟩
    simp only [kept, hi]
  | float32 | float64 => exact absurd hinteger (by decide)

/-- A 32-bit floating point number is kept as what it is rounded to. -/
theorem kept_of_store_float32 (h : float32.store value = .ok bytes) :
    ∃ word rounded, BinaryFormat.double.convert? .single word = some rounded ∧
      float32.kept value = .float (BinaryFormat.single.convertOrInfinity .double rounded) := by
  have hne := ne_null_of_store h
  simp only [store] at h
  split at h
  · next word hword =>
    split at h
    · next rounded hrounded =>
      refine ⟨word, rounded, hrounded, ?_⟩
      simp only [kept, hword, Option.bind_some, hrounded]
    · exact absurd h (by simp)
  · exact absurd h (by simp)

/-- A 64-bit floating point number is kept as it is. -/
theorem kept_of_store_float64 (h : float64.store value = .ok bytes) :
    ∃ word, float64.kept value = .float word := by
  have hne := ne_null_of_store h
  simp only [store] at h
  split at h
  · next word hword =>
    refine ⟨word % 2 ^ 64, ?_⟩
    simp only [kept, hword]
  · exact absurd h (by simp)

/-- Whether the bytes of a number type are a NaN. -/
def isNan (type : NumberType) (bytes : Bytes) : Bool :=
  match type with
  | .float32 => BinaryFormat.single.isNan (Bytes.toNat bytes)
  | .float64 => BinaryFormat.double.isNan (Bytes.toNat bytes)
  | _ => false

/-- Values that were stored one after another are loaded as they are kept. -/
theorem loadAll_of_storeAll {values : List Value} (h : type.storeAll values = .ok bytes) :
    type.loadAll values.length bytes = values.map type.kept := by
  induction values generalizing bytes with
  | nil => rfl
  | cons value rest ih =>
    obtain ⟨first, others, hfirst, hrest, rfl⟩ := storeAll_cons_eq_ok.1 h
    have hlength : first.length = type.size := length_of_store hfirst
    rw [List.length_cons, loadAll, List.map_cons, List.take_left' hlength,
      List.drop_left' hlength, load_of_store hfirst, ih hrest]

end NumberType

namespace PackedArray

open NumberType (inRange integerOf? floatOf?)

variable {code : ItemCode} {type : NumberType} {value : Value} {bytes : Bytes} {word : Nat}

/-- A word that an item can have, as it is read and written again: no 32-bit NaN but a quiet one. -/
def Plain (code : ItemCode) (word : Nat) : Prop :=
  word < 2 ^ (8 * code.size) ∧ (code = .single → BinaryFormat.quieted word = word)

theorem size_of_numberType? (h : numberType? code = some type) : type.size = code.size := by
  cases code <;> cases type <;> first | rfl | exact absurd h (by decide)

/-- A 32-bit item is widened and narrowed again, which makes a NaN quiet. -/
theorem store_item_single (word : Nat) :
    NumberType.float32.store (item .single word) =
      .ok (Bytes.ofNat 4 (BinaryFormat.quieted (word % 2 ^ 32))) := by
  have hconvert : BinaryFormat.double.convert? .single
      (BinaryFormat.single.convertOrInfinity .double word) =
        some (BinaryFormat.quieted (word % 2 ^ 32)) := by
    rw [← NumberType.convertOrInfinity_mod]
    exact BinaryFormat.convert?_convertOrInfinity (Nat.mod_lt word (Nat.two_pow_pos 32))
  have hitem : item .single word =
      .float (BinaryFormat.single.convertOrInfinity .double word) := rfl
  rw [hitem, NumberType.store]
  simp only [floatOf?, hconvert]

/-- Storing an item gives its own bytes. -/
theorem store_item (hcode : numberType? code = some type) (h : Plain code word) :
    type.store (item code word) = .ok (Bytes.ofNat code.size word) := by
  obtain ⟨hlt, hquiet⟩ := h
  have hsigned {size : Nat} (hsize : 0 < size) (hword : word < 2 ^ (8 * size)) :
      (if inRange size (signedWord size word) = true then
        Except.ok (NumberType.storeInteger size (signedWord size word))
      else .error Fault.storage) = .ok (Bytes.ofNat size word) := by
    rw [if_pos (NumberType.inRange_signedWord hsize hword), NumberType.storeInteger_signedWord]
  cases code with
  | signedByte | signedShort | signedInt | signedLong | signedQuad =>
    obtain rfl := Option.some.inj hcode
    exact hsigned (by decide) hlt
  | single =>
    obtain rfl := Option.some.inj hcode
    have hword : word % 2 ^ 32 = word := Nat.mod_eq_of_lt hlt
    rw [store_item_single, hword, hquiet rfl]
    rfl
  | double =>
    obtain rfl := Option.some.inj hcode
    rfl
  | _ => exact absurd hcode (by simp [numberType?, ItemCode.kind])

/-- What a number type keeps of a value is an item of a typed array of this type. -/
theorem exists_wordOf?_kept (hcode : numberType? code = some type)
    (h : type.store value = .ok bytes) :
    ∃ word, wordOf? code (type.kept value) = some word ∧ item code word = type.kept value := by
  have hne := NumberType.ne_null_of_store h
  have hinteger (hinteger : type.isInteger = true) (hkind : code.kind = .signed) :
      ∃ word, wordOf? code (type.kept value) = some word ∧ item code word = type.kept value := by
    obtain ⟨i, _, hrange, hkept⟩ := NumberType.kept_of_store_integer hinteger h
    rw [size_of_numberType? hcode] at hrange
    refine ⟨(i % Nat.pow 2 (8 * code.size)).toNat, ?_, ?_⟩
    · rw [hkept, wordOf?, hkind]
      exact if_pos hrange
    · have hsigned := NumberType.signedWord_storeInteger code.size_pos hrange
      rw [NumberType.toNat_storeInteger] at hsigned
      rw [hkept, item, hkind]
      exact congrArg Value.int hsigned
  cases code with
  | signedByte | signedShort | signedInt | signedLong | signedQuad =>
    obtain rfl := Option.some.inj hcode
    exact hinteger rfl rfl
  | single =>
    obtain rfl := Option.some.inj hcode
    obtain ⟨_, rounded, hrounded, hkept⟩ := NumberType.kept_of_store_float32 h
    have hagain := BinaryFormat.convertOrInfinity_of_convert? hrounded
    rw [hkept]
    exact ⟨rounded, congrArg some hagain, rfl⟩
  | double =>
    obtain rfl := Option.some.inj hcode
    obtain ⟨word, hkept⟩ := NumberType.kept_of_store_float64 h
    rw [hkept]
    exact ⟨word, rfl, rfl⟩
  | _ => exact absurd hcode (by simp [numberType?, ItemCode.kind])

/-- Values that are items make up a typed array. -/
theorem exists_ofValues? {values : List Value}
    (h : ∀ v ∈ values, ∃ word, wordOf? code v = some word ∧ item code word = v) :
    ∃ words, ofValues? code values = some ⟨code, words⟩ ∧ words.map (item code) = values := by
  induction values with
  | nil => exact ⟨[], rfl, rfl⟩
  | cons value rest ih =>
    obtain ⟨⟨word, hword, hitem⟩, hrest⟩ := List.forall_mem_cons.1 h
    obtain ⟨words, hwords, hitems⟩ := ih hrest
    obtain ⟨found, hmapM, harray⟩ := Option.map_eq_some_iff.1 hwords
    obtain rfl : words = found := (congrArg PackedArray.words harray).symm
    refine ⟨word :: words, ?_, by rw [List.map_cons, hitem, hitems]⟩
    rw [ofValues?, List.mapM_cons, hword, hmapM]
    rfl

/-! ### Numbers that are loaded and stored again -/

/-- The number in the bytes of a type is an item of a typed array of this type. -/
theorem exists_load_eq_item (type : NumberType) :
    ∃ code, numberType? code = some type ∧
      ∀ bytes, type.load bytes = item code (Bytes.toNat bytes) := by
  cases type with
  | int8 => exact ⟨.signedByte, rfl, fun _ ↦ rfl⟩
  | int16 => exact ⟨.signedShort, rfl, fun _ ↦ rfl⟩
  | int32 => exact ⟨.signedInt, rfl, fun _ ↦ rfl⟩
  | int64 => exact ⟨.signedQuad, rfl, fun _ ↦ rfl⟩
  | float32 => exact ⟨.single, rfl, fun _ ↦ rfl⟩
  | float64 => exact ⟨.double, rfl, fun _ ↦ rfl⟩

/-- An item that is stored as some bytes, other than a NaN, has these bytes in the array. -/
theorem ofNat_of_store_item (hcode : numberType? code = some type)
    (h : type.store (item code word) = .ok bytes) (hnan : type.isNan bytes = false) :
    Bytes.ofNat code.size word = bytes := by
  have hsigned {size : Nat} (h : (if inRange size (signedWord size word) = true then
      Except.ok (NumberType.storeInteger size (signedWord size word))
      else .error Fault.storage) = .ok bytes) : Bytes.ofNat size word = bytes := by
    split at h
    · rw [← NumberType.storeInteger_signedWord]
      exact Except.ok.inj h
    · exact absurd h (by simp)
  cases code with
  | signedByte | signedShort | signedInt | signedLong | signedQuad =>
    obtain rfl := Option.some.inj hcode
    exact hsigned h
  | single =>
    obtain rfl := Option.some.inj hcode
    obtain rfl := Except.ok.inj ((store_item_single word).symm.trans h)
    have hword : BinaryFormat.single.isNan (word % 2 ^ 32) = false := by
      rw [NumberType.isNan, Bytes.toNat_ofNat] at hnan
      rw [← BinaryFormat.isNan_quieted, ← BinaryFormat.isNan_mod]
      exact hnan
    rw [BinaryFormat.quieted_eq_self hword]
    exact (Bytes.ofNat_mod 4 word).symm
  | double =>
    obtain rfl := Option.some.inj hcode
    exact Except.ok.inj h
  | _ => exact absurd hcode (by simp [numberType?, ItemCode.kind])

end PackedArray

namespace NumberType

variable {type : NumberType} {bytes : Bytes}

/-- What is loaded is stored as it was, unless it is a NaN. -/
theorem store_load (hlength : bytes.length = type.size) (hnan : type.isNan bytes = false) :
    type.store (type.load bytes) = .ok bytes := by
  obtain ⟨code, hcode, hload⟩ := PackedArray.exists_load_eq_item type
  have hsize : bytes.length = code.size := hlength.trans (PackedArray.size_of_numberType? hcode)
  have hlt : Bytes.toNat bytes < 2 ^ (8 * code.size) := by
    rw [← pow_size, ← hsize]
    exact Bytes.toNat_lt bytes
  have hquiet : code = .single → BinaryFormat.quieted (Bytes.toNat bytes) = Bytes.toNat bytes := by
    rintro rfl
    obtain rfl := Option.some.inj hcode
    exact BinaryFormat.quieted_eq_self hnan
  rw [hload, PackedArray.store_item hcode ⟨hlt, hquiet⟩, ← hsize, Bytes.ofNat_toNat]

/-- Assumes: bytes of as many numbers as are loaded, none of them a NaN. The numbers are stored one
after another as the bytes. -/
theorem exists_storeEach_loadAll {count : Nat} (hlength : bytes.length = type.size * count)
    (hnan : ∀ k < count, type.isNan (Bytes.cut bytes (k * type.size) type.size) = false) :
    ∃ parts, (type.loadAll count bytes).mapM type.store = .ok parts ∧ parts.flatten = bytes ∧
      ∀ part ∈ parts, type.isNan part = false := by
  induction count generalizing bytes with
  | zero =>
    obtain rfl := List.length_eq_zero_iff.1 hlength
    exact ⟨[], rfl, rfl, fun _ hpart ↦ absurd hpart List.not_mem_nil⟩
  | succ count ih =>
    rw [Nat.mul_succ] at hlength
    have hfirst := hnan 0 (Nat.succ_pos count)
    rw [Nat.zero_mul, Bytes.cut, List.drop_zero] at hfirst
    have htake : (bytes.take type.size).length = type.size := by
      rw [List.length_take]
      omega
    have hdrop : (bytes.drop type.size).length = type.size * count := by
      rw [List.length_drop]
      omega
    obtain ⟨parts, hparts, hflatten, hrest⟩ := ih hdrop fun k hk ↦ by
      have hnext := hnan (k + 1) (Nat.succ_lt_succ hk)
      rwa [Bytes.cut, Nat.succ_mul, Nat.add_comm, ← List.drop_drop] at hnext
    refine ⟨bytes.take type.size :: parts, ?_, ?_, List.forall_mem_cons.2 ⟨hfirst, hrest⟩⟩
    · rw [loadAll, Outcome.mapM_cons_ok, store_load htake hfirst, Outcome.ok_bind, hparts]
      rfl
    · rw [List.flatten_cons, hflatten, List.take_append_drop]

theorem exists_load_of_mem_loadAll {count : Nat} {v : Value} (h : v ∈ type.loadAll count bytes) :
    ∃ part, v = type.load part := by
  induction count generalizing bytes with
  | zero => exact absurd h List.not_mem_nil
  | succ count ih =>
    rcases List.mem_cons.1 h with rfl | hrest
    · exact ⟨_, rfl⟩
    · exact ih hrest

end NumberType

end Stowage
