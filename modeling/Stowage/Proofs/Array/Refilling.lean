import Stowage.Proofs.Array.Filling

/-!
# Flattening undoes filling

An array that was filled from a flat form is like the array given, and its elements are the numbers
of the flat form, so it has the same shape (`Shape.describe_of_alike`). Numbers that are loaded and
stored again have the bytes they had, unless they are NaNs, and this is so for the items of typed
arrays too (`flatMap_rawBytes_of_storeEach`). So the flat form of the filled array is the one it was
filled from (`flatten_of_unflatten`).
-/

set_option autoImplicit false

namespace Stowage

/-- Whether the rows of an array are of one kind: lists and tuples, typed arrays with one item code,
or byte strings and buffers. -/
def Shape.Homogeneous (shape : Shape) (array : Value) : Prop :=
  (∀ row ∈ shape.rowsOf array, row.isSequence = true) ∨
    (∃ code, ∀ row ∈ shape.rowsOf array, ∃ words, row = .packed ⟨code, words⟩) ∨
    ∀ row ∈ shape.rowsOf array, ∃ data, row.data? = some data

/-! ### Bytes of typed arrays -/

section Rows

variable {rows : List Value} {code : ItemCode} {type : NumberType} {parts : List Bytes}

/-- Typed arrays one after another have the items and the bytes of one typed array. -/
theorem exists_words_of_packed (hrows : ∀ row ∈ rows, ∃ words, row = .packed ⟨code, words⟩) :
    ∃ words : List Nat, rows.flatMap Value.children = words.map (PackedArray.item code) ∧
      rows.flatMap Value.rawBytes = words.flatMap (Bytes.ofNat code.size) := by
  induction rows with
  | nil => exact ⟨[], rfl, rfl⟩
  | cons row rest ih =>
    obtain ⟨⟨first, rfl⟩, hrest⟩ := List.forall_mem_cons.1 hrows
    obtain ⟨words, hchildren, hraw⟩ := ih hrest
    refine ⟨first ++ words, ?_, ?_⟩
    · rw [List.flatMap_cons, hchildren, List.map_append]
      rfl
    · rw [List.flatMap_cons, hraw, List.flatMap_append]
      rfl

/-- Typed arrays have the bytes that their items are stored as, if there is no NaN among them. -/
theorem flatMap_rawBytes_of_storeEach (hcode : PackedArray.numberType? code = some type)
    (hrows : ∀ row ∈ rows, ∃ words, row = .packed ⟨code, words⟩)
    (hparts : (rows.flatMap Value.children).mapM type.store = .ok parts)
    (hnan : ∀ part ∈ parts, type.isNan part = false) :
    rows.flatMap Value.rawBytes = parts.flatten := by
  obtain ⟨words, hchildren, hraw⟩ := exists_words_of_packed hrows
  rw [hchildren] at hparts
  have hall := (List.forall₂_and_left parts _).2 ⟨hnan, (Outcome.mapM_eq_ok_iff.1 hparts).flip⟩
  rw [List.forall₂_map_right_iff] at hall
  have hsame : parts.map id = words.map (Bytes.ofNat code.size) := by
    refine Outcome.map_eq_map_of_forall₂ (hall.imp ?_)
    rintro part word ⟨hpart, hstore⟩
    exact (PackedArray.ofNat_of_store_item hcode hstore hpart).symm
  rw [List.map_id] at hsame
  rw [hraw, hsame, List.flatMap_def]

end Rows

/-! ### Flat forms of filled arrays -/

section Unflatten

variable {array template data : Value} {wanted : Option NumberType} {shape : Shape} {raw : Bytes}

/-- The flat form of rows of lists and tuples has the bytes that the elements are stored as. -/
theorem flatten_of_storeEach (h : Shape.describe array wanted = .ok shape)
    (hrows : ∀ row ∈ shape.rowsOf array, row.isSequence = true) {parts : List Bytes}
    (hparts : (shape.leavesOf array).mapM shape.type.store = .ok parts) :
    flatten array wanted = .ok (.fresh parts.flatten) := by
  obtain ⟨hexists, hstored, _⟩ := flatten_of_isSequence h hrows
  obtain ⟨flat, hflat⟩ := hexists.2 (Outcome.exists_mapM_eq_ok_iff.1 ⟨parts, hparts⟩)
  obtain ⟨found, hfound, rfl, _⟩ := hstored flat hflat
  obtain rfl := Except.ok.inj (hparts.symm.trans hfound)
  exact hflat

/-- The flat form of typed arrays has the bytes of their items. -/
theorem flatten_of_packed (h : Shape.describe array wanted = .ok shape) {code : ItemCode}
    (hrows : ∀ row ∈ shape.rowsOf array, ∃ words, row = .packed ⟨code, words⟩) :
    flatten array wanted = .ok (.fresh ((shape.rowsOf array).flatMap Value.rawBytes)) := by
  have hfits := Shape.fits_of_describe h
  obtain ⟨hcode, hbytes⟩ := hfits.numberType?_of_packed hrows
  refine (flatten_of_raw h (by simp [hbytes]) fun row hrow ↦ ?_).1
  obtain ⟨words, rfl⟩ := hrows row hrow
  exact hfits.encodeRow_of_packed hcode hrow

/-- Assumes: rows for numbers of the type of the shape, and a flat form of the right size without
NaNs. The array is filled with the numbers of the flat form; it stays like it was, has the same
shape, and its elements are stored as the bytes of the flat form. -/
theorem unflatten_of_numbers (h : Shape.describe template wanted = .ok shape)
    (hreplaceable : template.Replaceable shape.outerLengths.length)
    (hrows : ∀ row ∈ shape.rowsOf template, row.Takes shape.type)
    (hlength : raw.length = shape.byteCount)
    (hnan : ∀ k < shape.elementCount,
      shape.type.isNan (Bytes.cut raw (k * shape.type.size) shape.type.size) = false) :
    ∃ result parts, (unflatten (.buffer raw) template wanted).result = .ok result ∧
      template.Alike shape.outerLengths.length result ∧
      Shape.describe result wanted = .ok shape ∧
      (shape.leavesOf result).mapM shape.type.store = .ok parts ∧ parts.flatten = raw ∧
      ∀ part ∈ parts, shape.type.isNan part = false := by
  obtain ⟨parts, hparts, hflatten, hnone⟩ := NumberType.exists_storeEach_loadAll hlength hnan
  have hstored : shape.type.storeAll (shape.type.loadAll shape.elementCount raw) = .ok raw := by
    rw [NumberType.storeAll_eq_mapM, hparts, ← hflatten]
    rfl
  have hkept := NumberType.loadAll_of_storeAll hstored
  rw [NumberType.length_loadAll] at hkept
  obtain ⟨result, hresult, halike, hleaves⟩ := unflatten_of_storeAll h hreplaceable hrows hstored
    (NumberType.length_loadAll _ _ _) hlength
  rw [← hkept] at hleaves
  have hloaded : ∀ row ∈ shape.rowsOf result, row.isSequence = true →
      ∀ leaf ∈ row.children, ∃ bytes, leaf = shape.type.load bytes := by
    intro row hrow _ leaf hleaf
    have hmem : leaf ∈ shape.leavesOf result := List.mem_flatMap.2 ⟨row, hrow, hleaf⟩
    rw [hleaves] at hmem
    exact NumberType.exists_load_of_mem_loadAll hmem
  rw [← hleaves] at hparts
  exact ⟨result, parts, hresult, halike, Shape.describe_of_alike h halike hloaded, hparts, hflatten,
    hnone⟩

/-- Rows of bytes that are filled with bytes are these bytes. -/
theorem flatten_unflatten_of_data (h : Shape.describe template wanted = .ok shape)
    (hrows : ∀ row ∈ shape.rowsOf template, ∃ data, row.data? = some data)
    (hreplaceable : template.Replaceable shape.outerLengths.length)
    (hlength : raw.length = shape.byteCount) :
    ∃ result, (unflatten (.buffer raw) template wanted).result = .ok result ∧
      ∃ flat, flatten result wanted = .ok flat ∧ (flat.value result).data? = some raw := by
  have hbuffer : (Value.buffer raw).data? = some raw := rfl
  obtain ⟨result, hresult, halike, hleaves⟩ :=
    unflatten_of_data h hreplaceable hrows hbuffer hlength
  have hrowsResult : ∀ row ∈ shape.rowsOf result, ∃ data, row.data? = some data :=
    halike.forall_rows (fun _ _ hkind ↦ hkind.exists_data) hrows
  have hagain : Shape.describe result wanted = .ok shape := by
    refine Shape.describe_of_alike h halike fun row hrow hsequence ↦ ?_
    obtain ⟨former, hformer⟩ := hrowsResult row hrow
    rw [Value.data?_of_isSequence hsequence] at hformer
    exact absurd hformer (by simp)
  obtain ⟨_, flat, hflat, hvalue⟩ := flatten_of_data hagain hrowsResult
  refine ⟨result, hresult, flat, hflat, hvalue.trans (congrArg some ?_)⟩
  have hinjective : Function.Injective fun b : UInt8 ↦ Value.int b.toNat := by
    intro b other hsame
    exact UInt8.toNat_inj.1 (Int.ofNat_inj.1 (Value.int.inj hsame))
  rw [Shape.leavesOf_of_data hrowsResult] at hleaves
  exact List.map_injective_iff.2 hinjective hleaves

/-- The contents of a byte string, a buffer, or a typed array whose items are single bytes. -/
def Value.octets? : Value → Option Bytes
  | .bytes data | .buffer data => some data
  | .packed array => if array.code.size = 1 then some array.toBytes else none
  | _ => none

/-- Items of one byte fill an array like a buffer with the same bytes. -/
theorem unflatten_eq_of_octets? (hdata : data.octets? = some raw) :
    unflatten data template wanted = unflatten (.buffer raw) template wanted := by
  cases data with
  | bytes found | buffer found => exact unflatten_eq_of_data? hdata
  | packed array =>
    by_cases hsize : array.code.size = 1
    · obtain rfl : array.toBytes = raw := Option.some.inj ((if_pos hsize).symm.trans hdata)
      have hlength : array.items.length =
          (array.toBytes.map fun b ↦ Value.int b.toNat).length := by
        rw [List.length_map, PackedArray.length_toBytes, hsize, Nat.mul_one, PackedArray.items,
          List.length_map]
      have hread (shape : Shape) :
          readFlat shape (.packed array) = readFlat shape (.buffer array.toBytes) := by
        unfold readFlat
        dsimp only [Value.elements?]
        rw [hlength]
        rfl
      unfold unflatten
      simp only [hread]
    · exact absurd ((if_neg hsize).symm.trans hdata) (by simp)
  | _ => exact absurd hdata (by simp [Value.octets?])

/-- Flattening an array that was filled gives back what it was filled from. Assumes: an array with a
shape, whose rows are of one kind, and in which rows that cannot be changed in place stand in lists;
and a buffer of single bytes that has the size of the array, in which no element of a floating point
type is a NaN. The array can be filled from these bytes, and the result has a flat form, with the
same number type wanted, which holds exactly these bytes. -/
theorem flatten_of_unflatten (h : Shape.describe template wanted = .ok shape)
    (hrows : shape.Homogeneous template)
    (hreplaceable : template.Replaceable shape.outerLengths.length)
    (hdata : data.octets? = some raw) (hlength : raw.length = shape.byteCount)
    (hnan : ∀ k < shape.elementCount,
      shape.type.isNan (Bytes.cut raw (k * shape.type.size) shape.type.size) = false) :
    ∃ result, (unflatten data template wanted).result = .ok result ∧
      ∃ flat, flatten result wanted = .ok flat ∧ (flat.value result).data? = some raw := by
  rw [unflatten_eq_of_octets? hdata]
  rcases hrows with hrows | ⟨code, hrows⟩ | hrows
  · have htakes : ∀ row ∈ shape.rowsOf template, row.Takes shape.type :=
      fun row hrow ↦ Value.takes_of_isSequence (hrows row hrow) shape.type
    obtain ⟨result, parts, hresult, halike, hagain, hparts, rfl, _⟩ :=
      unflatten_of_numbers h hreplaceable htakes hlength hnan
    have hrowsResult : ∀ row ∈ shape.rowsOf result, row.isSequence = true :=
      halike.forall_rows (fun _ _ hkind hrow ↦ hkind.isSequence_eq.trans hrow) hrows
    exact ⟨result, hresult, _, flatten_of_storeEach hagain hrowsResult hparts, rfl⟩
  · obtain ⟨hcode, _⟩ := (Shape.fits_of_describe h).numberType?_of_packed hrows
    have htakes : ∀ row ∈ shape.rowsOf template, row.Takes shape.type := by
      intro row hrow
      obtain ⟨words, rfl⟩ := hrows row hrow
      exact hcode
    obtain ⟨result, parts, hresult, halike, hagain, hparts, rfl, hnone⟩ :=
      unflatten_of_numbers h hreplaceable htakes hlength hnan
    have hrowsResult : ∀ row ∈ shape.rowsOf result, ∃ words, row = .packed ⟨code, words⟩ :=
      halike.forall_rows (fun _ _ hkind ↦ hkind.exists_packed) hrows
    refine ⟨result, hresult, _, flatten_of_packed hagain hrowsResult, ?_⟩
    exact congrArg some (flatMap_rawBytes_of_storeEach hcode hrowsResult hparts hnone)
  · exact flatten_unflatten_of_data h hrows hreplaceable hlength

end Unflatten

end Stowage
