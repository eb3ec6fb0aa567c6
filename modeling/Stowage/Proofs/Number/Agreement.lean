import Stowage.Proofs.Number.Items

/-!
# Bytes of the same numbers

The bytes of numbers one after another are compared number by number, where a NaN counts as any
other (`NumberType.SameNumbers`). Compared in this way, numbers that are cut into parts are the same
when those of each part are (`NumberType.sameNumbers_flatten_iff`).

The items of a typed array have bytes of their own, and bytes in which a number type stores them.
For an array of the type these are the same (`PackedArray.Fits.storesItems`), and for any other
array of items of this size they are when each item is stored in its own bytes
(`PackedArray.exists_storeAll_items_iff`).
-/

set_option autoImplicit false

namespace Stowage

namespace NumberType

/-- The same bytes, or two NaNs. -/
def Agrees (type : NumberType) (bytes other : Bytes) : Prop :=
  bytes = other ∨ (type.isNan bytes = true ∧ type.isNan other = true)

instance (type : NumberType) (bytes other : Bytes) : Decidable (type.Agrees bytes other) :=
  inferInstanceAs (Decidable (_ ∨ _))

/-- As many bytes, and at each place the bytes of the same number. -/
def SameNumbers (type : NumberType) (bytes other : Bytes) : Prop :=
  bytes.length = other.length ∧ ∀ k, type.Agrees (Bytes.cut bytes (k * type.size) type.size)
    (Bytes.cut other (k * type.size) type.size)

variable {type : NumberType} {bytes other first second : Bytes}

theorem SameNumbers.refl (type : NumberType) (bytes : Bytes) : type.SameNumbers bytes bytes :=
  ⟨rfl, fun _ ↦ .inl rfl⟩

/-- The bytes of a single number. -/
theorem sameNumbers_iff_agrees (hbytes : bytes.length = type.size)
    (hother : other.length = type.size) :
    type.SameNumbers bytes other ↔ type.Agrees bytes other := by
  have hwhole {data : Bytes} (hdata : data.length = type.size) :
      Bytes.cut data (0 * type.size) type.size = data := by
    rw [Nat.zero_mul, ← hdata, Bytes.cut_zero_length]
  have hbehind {data : Bytes} (hdata : data.length = type.size) (k : Nat) :
      Bytes.cut data ((k + 1) * type.size) type.size = [] := by
    refine Bytes.cut_of_length_le ?_ _
    rw [hdata, Nat.succ_mul]
    exact Nat.le_add_left _ _
  constructor
  · rintro ⟨_, hagrees⟩
    have hfirst := hagrees 0
    rwa [hwhole hbytes, hwhole hother] at hfirst
  · refine fun hagrees ↦ ⟨hbytes.trans hother.symm, fun k ↦ ?_⟩
    cases k with
    | zero => rwa [hwhole hbytes, hwhole hother]
    | succ k =>
      rw [hbehind hbytes, hbehind hother]
      exact .inl rfl

theorem sameNumbers_append_iff {count : Nat} (hfirst : first.length = count * type.size)
    (hsecond : second.length = count * type.size) :
    type.SameNumbers (first ++ bytes) (second ++ other) ↔
      type.SameNumbers first second ∧ type.SameNumbers bytes other := by
  have hinside {data : Bytes} (hdata : data.length = count * type.size) (rest : Bytes) {k : Nat}
      (hk : k < count) : Bytes.cut (data ++ rest) (k * type.size) type.size =
        Bytes.cut data (k * type.size) type.size := by
    refine Bytes.cut_append_left rest ?_
    rw [hdata, ← Nat.succ_mul]
    exact Nat.mul_le_mul_right _ hk
  have hbehind {data : Bytes} (hdata : data.length = count * type.size) (rest : Bytes) (k : Nat) :
      Bytes.cut (data ++ rest) ((count + k) * type.size) type.size =
        Bytes.cut rest (k * type.size) type.size := by
    rw [Nat.add_mul, ← hdata, Bytes.cut_append_right]
  have hnone {data : Bytes} (hdata : data.length = count * type.size) {k : Nat} (hk : count ≤ k) :
      Bytes.cut data (k * type.size) type.size = [] :=
    Bytes.cut_of_length_le (hdata ▸ Nat.mul_le_mul_right _ hk) _
  constructor
  · rintro ⟨hlength, hagrees⟩
    rw [List.length_append, List.length_append, hfirst, hsecond] at hlength
    refine ⟨⟨hfirst.trans hsecond.symm, fun k ↦ ?_⟩, Nat.add_left_cancel hlength, fun k ↦ ?_⟩
    · rcases Nat.lt_or_ge k count with hk | hk
      · have hplace := hagrees k
        rwa [hinside hfirst bytes hk, hinside hsecond other hk] at hplace
      · rw [hnone hfirst hk, hnone hsecond hk]
        exact .inl rfl
    · have hplace := hagrees (count + k)
      rwa [hbehind hfirst, hbehind hsecond] at hplace
  · rintro ⟨⟨hlengthFirst, hagreesFirst⟩, hlength, hagrees⟩
    refine ⟨by rw [List.length_append, List.length_append, hlengthFirst, hlength], fun k ↦ ?_⟩
    rcases Nat.lt_or_ge k count with hk | hk
    · rw [hinside hfirst bytes hk, hinside hsecond other hk]
      exact hagreesFirst k
    · obtain ⟨j, rfl⟩ := Nat.exists_eq_add_of_le hk
      rw [hbehind hfirst, hbehind hsecond]
      exact hagrees j

/-- Parts with as many numbers each hold the same numbers back to back when they do one by one. -/
theorem sameNumbers_flatten_iff {count : Nat} {parts others : List Bytes}
    (hcount : parts.length = others.length)
    (hparts : ∀ part ∈ parts, part.length = count * type.size)
    (hothers : ∀ part ∈ others, part.length = count * type.size) :
    type.SameNumbers parts.flatten others.flatten ↔ List.Forall₂ type.SameNumbers parts others := by
  induction parts generalizing others with
  | nil =>
    obtain rfl := List.length_eq_zero_iff.1 hcount.symm
    exact iff_of_true (.refl _ _) .nil
  | cons part rest ih =>
    obtain ⟨other, others, rfl⟩ := List.exists_cons_of_length_eq_add_one hcount.symm
    obtain ⟨hpart, hrest⟩ := List.forall_mem_cons.1 hparts
    obtain ⟨hother, hothers⟩ := List.forall_mem_cons.1 hothers
    rw [List.flatten_cons, List.flatten_cons, sameNumbers_append_iff hpart hother,
      List.forall₂_cons, ih (Nat.succ.inj hcount) hrest hothers]

/-- Assumes: functions that give parts with as many numbers each as there are in each of some other
parts. All parts exist, and hold the same numbers back to back, when each exists and holds the same
numbers as the part in its place. -/
theorem exists_mapM_sameNumbers_iff {α : Type} {f : α → Except Fault Bytes} {as : List α}
    {others : List Bytes} {count : Nat} (hcount : as.length = others.length)
    (hparts : ∀ a ∈ as, ∀ part, f a = .ok part → part.length = count * type.size)
    (hothers : ∀ part ∈ others, part.length = count * type.size) :
    (∃ parts, as.mapM f = .ok parts ∧ type.SameNumbers parts.flatten others.flatten) ↔
      List.Forall₂ (fun a other ↦ ∃ part, f a = .ok part ∧ type.SameNumbers part other) as
        others := by
  rw [← Outcome.exists_mapM_iff]
  refine exists_congr fun parts ↦ and_congr_right fun hmapM ↦ ?_
  have hall := Outcome.mapM_eq_ok_iff.1 hmapM
  refine sameNumbers_flatten_iff (hall.length_eq.symm.trans hcount) (fun part hpart ↦ ?_) hothers
  obtain ⟨a, ha, hpart⟩ := Outcome.exists_mem_of_forall₂ hall hpart
  exact hparts a ha part hpart

/-- Every item of a typed array is stored in the bytes it has there. -/
def StoresItems (type : NumberType) (array : PackedArray) : Prop :=
  ∀ word ∈ array.words, ∃ bytes, type.store (PackedArray.item array.code word) = .ok bytes ∧
    type.Agrees bytes (Bytes.ofNat array.code.size word)

end NumberType

namespace PackedArray

open Number (BinaryFormat)

variable {array : PackedArray} {code : ItemCode} {type : NumberType} {word : Nat}

/-- Every word has room in the bytes of an item. -/
def Fits (array : PackedArray) : Prop := ∀ word ∈ array.words, word < 2 ^ (8 * array.code.size)

/-- An item of a number type is stored in the bytes it has, or is a NaN and stays one. -/
theorem exists_store_item (hcode : numberType? code = some type)
    (hlt : word < 2 ^ (8 * code.size)) :
    ∃ bytes, type.store (item code word) = .ok bytes ∧
      type.Agrees bytes (Bytes.ofNat code.size word) := by
  rcases eq_or_ne code .single with rfl | hne
  · obtain rfl := Option.some.inj hcode
    have hword : word % 2 ^ 32 = word := Nat.mod_eq_of_lt hlt
    have hstored := store_item_single word
    rw [hword] at hstored
    refine ⟨_, hstored, ?_⟩
    rcases hnan : BinaryFormat.single.isNan word with _ | _
    · rw [BinaryFormat.quieted_eq_self hnan]
      exact .inl rfl
    · have hloaded (word : Nat) : NumberType.float32.isNan (Bytes.ofNat 4 word) =
          BinaryFormat.single.isNan word := by
        rw [NumberType.isNan, Bytes.toNat_ofNat]
        exact BinaryFormat.isNan_mod word
      refine .inr ⟨?_, (hloaded word).trans hnan⟩
      rw [hloaded, BinaryFormat.isNan_quieted, hnan]
  · exact ⟨_, store_item hcode ⟨hlt, fun hsingle ↦ absurd hsingle hne⟩, .inl rfl⟩

theorem Fits.storesItems (h : array.Fits) (hcode : numberType? array.code = some type) :
    type.StoresItems array := fun word hword ↦ exists_store_item hcode (h word hword)

/-- The items are stored in the bytes of the typed array when each of them is. -/
theorem exists_storeAll_items_iff (hsize : array.code.size = type.size) :
    (∃ bytes, type.storeAll array.items = .ok bytes ∧ type.SameNumbers bytes array.toBytes) ↔
      type.StoresItems array := by
  have hlength (word : Nat) : (Bytes.ofNat array.code.size word).length = 1 * type.size := by
    rw [Bytes.length_ofNat, Nat.one_mul, hsize]
  have hstored : ∀ v ∈ array.items, ∀ part, type.store v = .ok part →
      part.length = 1 * type.size :=
    fun _ _ _ hpart ↦ (NumberType.length_of_store hpart).trans (Nat.one_mul _).symm
  have hcount : array.items.length = (array.words.map (Bytes.ofNat array.code.size)).length := by
    rw [items, List.length_map, List.length_map]
  have hparts := NumberType.exists_mapM_sameNumbers_iff hcount hstored
    (List.forall_mem_map.2 fun word _ ↦ hlength word)
  rw [items, List.forall₂_map_left_iff, List.forall₂_map_right_iff, List.forall₂_same] at hparts
  rw [NumberType.storeAll_eq_mapM, toBytes, List.flatMap_def]
  simp only [Outcome.map_eq_ok]
  refine Iff.trans ⟨?_, ?_⟩ (hparts.trans (forall₂_congr fun word _ ↦ ?_))
  · rintro ⟨_, ⟨parts, hmapM, rfl⟩, hsame⟩
    exact ⟨parts, hmapM, hsame⟩
  · rintro ⟨parts, hmapM, hsame⟩
    exact ⟨parts.flatten, ⟨parts, hmapM, rfl⟩, hsame⟩
  · refine exists_congr fun bytes ↦ and_congr_right fun hbytes ↦ ?_
    exact NumberType.sameNumbers_iff_agrees (NumberType.length_of_store hbytes)
      ((hlength word).trans (Nat.one_mul _))

end PackedArray

end Stowage
