import Stowage.Proofs.Array.Filling
import Stowage.Proofs.Array.RowMaps
import Stowage.Proofs.Number.Agreement

/-!
# Typed arrays among the rows of an array

A row that is a typed array is laid out in the flat form with the bytes it has, if these are as many
as a row takes up. Its item code must be one of the type of the elements if it is the first row, and
is not looked at otherwise.

So the array with a list of the items in the place of each typed array has the same flat form, but
for the bytes of NaNs, exactly when every item is stored in the bytes it has
(`flatten_typed_rows`). Items of the type of the elements are.
-/

set_option autoImplicit false

namespace Stowage

/-! ### Lists in the place of typed arrays -/

namespace Value

/-- The row with a list of its items in its place, if it is a typed array. -/
def listed : Value → Value
  | .packed array => .list array.items
  | v => v

theorem isArray_listed (row : Value) : row.listed.isArray = row.isArray := by
  cases row <;> rfl

theorem data?_listed (row : Value) : row.listed.data? = row.data? := by
  cases row <;> rfl

theorem extent_listed (row : Value) : row.listed.extent = row.extent := by
  cases row with
  | packed array => exact List.length_map _
  | _ => rfl

theorem listed_of_isSequence {row : Value} (h : row.isSequence = true) : row.listed = row := by
  cases row with
  | list | tuple => rfl
  | _ => exact absurd h Bool.false_ne_true

theorem listed_of_data? {row : Value} {data : Bytes} (h : row.data? = some data) :
    row.listed = row := by
  cases row with
  | bytes | buffer => rfl
  | _ => exact absurd h (by simp [data?])

end Value

namespace Shape

variable {array row : Value} {type chosen : NumberType} {shape : Shape} {part : Bytes}

theorem leafOf_item {code : ItemCode} (hcode : PackedArray.numberType? code = some type)
    (word : Nat) : LeafOf (some type) (PackedArray.item code word) type := by
  cases code with
  | signedByte | signedShort | signedInt | signedLong | signedQuad =>
    obtain rfl := Option.some.inj hcode
    exact .int rfl rfl
  | single | double =>
    obtain rfl := Option.some.inj hcode
    exact .float rfl rfl
  | _ => exact absurd hcode (by simp [PackedArray.numberType?, ItemCode.kind])

/-- A list of the items of a typed array begins with an element of its type. -/
theorem ElementsOf.listed (h : ElementsOf (some chosen) row type) (hpos : 0 < row.extent) :
    ElementsOf (some chosen) row.listed type := by
  obtain rfl := h.eq_wanted
  cases h with
  | items hrow hfirst hleaf =>
    rw [Value.listed_of_isSequence hrow]
    exact .items hrow hfirst hleaf
  | data hrow hwanted =>
    rw [Value.listed_of_data? hrow]
    exact .data hrow hwanted
  | @packed array _ hfound _ =>
    obtain ⟨word, rest, hwords⟩ := List.exists_cons_of_length_pos hpos
    have hfirst : array.items.head? = some (PackedArray.item array.code word) := by
      rw [PackedArray.items, hwords]
      rfl
    exact .items rfl hfirst (leafOf_item hfound word)

theorem describe_listed (h : describe array (some type) = .ok shape) :
    describe (array.mapRows Value.listed shape.outerLengths.length) (some type) = .ok shape := by
  obtain ⟨hregular, hframed, hrows, row, hhead, helements, hbyteRows⟩ :=
    describe_eq_ok_iff_rows.1 h
  have hlisted : shape.rowsOf (array.mapRows Value.listed shape.outerLengths.length) =
      (shape.rowsOf array).map Value.listed := hframed.rows_mapRows _
  have hpos : 0 < row.extent :=
    (hrows row (List.mem_of_head? hhead)).2 ▸ hregular.rowLength_pos
  refine describe_eq_ok_iff_rows.2 ⟨hregular, hframed.mapRows _, ?_, row.listed, ?_,
    helements.listed hpos, hbyteRows.trans (congrArg _ (Value.data?_listed row).symm)⟩
  · rw [hlisted]
    refine List.forall_mem_map.2 fun row hrow ↦ ?_
    rw [Value.isArray_listed, Value.extent_listed]
    exact hrows row hrow
  · rw [hlisted, List.head?_map, hhead]
    rfl

theorem ElementsOf.numberType?_eq {wanted : Option NumberType} {typed : PackedArray}
    (h : ElementsOf wanted (.packed typed) type) :
    PackedArray.numberType? typed.code = some type := by
  cases h with
  | items hsequence => exact absurd hsequence Bool.false_ne_true
  | data hdata => exact absurd hdata (by simp [Value.data?])
  | packed hfound => exact hfound

/-- The item code of a typed array that is the first row is one of the type of the elements. -/
theorem numberType?_of_head? (h : describe array (some type) = .ok shape) {typed : PackedArray}
    (hhead : (shape.rowsOf array).head? = some (.packed typed)) :
    PackedArray.numberType? typed.code = some type := by
  obtain ⟨_, _, _, row, hrow, helements, _⟩ := describe_eq_ok_iff_rows.1 h
  obtain rfl := Option.some.inj (hrow.symm.trans hhead)
  rw [← type_of_describe h]
  exact helements.numberType?_eq

/-- Assumes: a row that is laid out as some bytes. With a list in its place it is laid out as the
same numbers when it is no typed array or its items are stored in the bytes they have. -/
theorem exists_encodeRow_listed_iff (hpos : 0 < shape.rowLength)
    (hextent : row.extent = shape.rowLength) (hpart : shape.encodeRow row = .ok part) :
    (∃ other, shape.encodeRow row.listed = .ok other ∧ shape.type.SameNumbers other part) ↔
      ∀ typed, row = .packed typed → shape.type.StoresItems typed := by
  cases row with
  | packed array =>
    obtain ⟨hlength, rfl⟩ := wholeRow_eq_ok.1 hpart
    have hwords : array.words.length = shape.rowLength := hextent
    have hsize : array.code.size = shape.type.size := by
      rw [PackedArray.length_toBytes, hwords, rowSize, Nat.mul_comm] at hlength
      exact Nat.eq_of_mul_eq_mul_right hpos hlength
    refine (PackedArray.exists_storeAll_items_iff hsize).trans ⟨fun hstores typed htyped ↦ ?_,
      fun hstores ↦ hstores array rfl⟩
    obtain rfl := Value.packed.inj htyped
    exact hstores
  | _ => exact iff_of_true ⟨part, hpart, .refl _ _⟩ fun _ htyped ↦ absurd htyped (by simp)

end Shape

/-! ### Flat forms -/

section Flatten

variable {array : Value} {type : NumberType} {shape : Shape} {flat : Flat}

/-- An array has a flat form with the same numbers as some bytes. -/
def FlattensTo (type : NumberType) (array : Value) (bytes : Bytes) : Prop :=
  ∃ flat, flatten array (some type) = .ok flat ∧
    type.SameNumbers (flat.value array).rawBytes bytes

theorem flattensTo_iff (h : Shape.describe array (some type) = .ok shape) {bytes : Bytes} :
    FlattensTo type array bytes ↔ ∃ parts, (shape.rowsOf array).mapM shape.encodeRow = .ok parts ∧
      type.SameNumbers parts.flatten bytes := by
  constructor
  · rintro ⟨flat, hflat, hsame⟩
    obtain ⟨parts, hparts, hdata⟩ := exists_parts_of_flatten h hflat
    exact ⟨parts, hparts, Value.rawBytes_of_data? hdata ▸ hsame⟩
  · rintro ⟨parts, hparts, hsame⟩
    obtain ⟨flat, hflat, hdata⟩ := exists_flatten_of_parts h hparts
    exact ⟨flat, hflat, (Value.rawBytes_of_data? hdata).symm ▸ hsame⟩

/-- Assumes: an array of numbers of a type that has a flat form. The array with a list in the place
of each typed array among its rows has a flat form with the same numbers exactly when the items of
each of them are stored in the bytes they have. -/
theorem flattensTo_listed_iff (h : Shape.describe array (some type) = .ok shape)
    (hflat : flatten array (some type) = .ok flat) :
    FlattensTo type (array.mapRows Value.listed shape.outerLengths.length)
        (flat.value array).rawBytes ↔
      ∀ typed, .packed typed ∈ shape.rowsOf array → type.StoresItems typed := by
  have hfits := Shape.fits_of_describe h
  have hfitsListed := Shape.fits_of_describe (Shape.describe_listed h)
  have htype := Shape.type_of_describe h
  obtain ⟨parts, hparts, hdata⟩ := exists_parts_of_flatten h hflat
  have hall := Outcome.mapM_eq_ok_iff.1 hparts
  have hsize : shape.rowSize = shape.rowLength * type.size := by
    rw [Shape.rowSize, htype, Nat.mul_comm]
  have hlengths : ∀ part ∈ parts, part.length = shape.rowLength * type.size :=
    hsize ▸ Shape.length_of_mem_parts hfits hparts
  have hlisted : shape.rowsOf (array.mapRows Value.listed shape.outerLengths.length) =
      (shape.rowsOf array).map Value.listed := hfits.framed.rows_mapRows _
  have hcount : ((shape.rowsOf array).map Value.listed).length = parts.length := by
    rw [List.length_map, hall.length_eq]
  have hrows : ∀ row ∈ (shape.rowsOf array).map Value.listed, ∀ part,
      shape.encodeRow row = .ok part → part.length = shape.rowLength * type.size :=
    fun row hrow part hpart ↦
      (Shape.length_of_encodeRow (hfitsListed.rows row (hlisted ▸ hrow)).2 hpart).trans hsize
  rw [flattensTo_iff (Shape.describe_listed h), Value.rawBytes_of_data? hdata, hlisted,
    NumberType.exists_mapM_sameNumbers_iff hcount hrows hlengths, List.forall₂_map_left_iff,
    Outcome.forall₂_iff_forall_mem hall fun row hrow part hpart ↦ htype ▸
      Shape.exists_encodeRow_listed_iff hfits.rowLength_pos (hfits.rows row hrow).2 hpart]
  exact ⟨fun hstores typed htyped ↦ hstores _ htyped typed rfl,
    fun hstores row hrow typed htyped ↦ hstores typed (htyped ▸ hrow)⟩

/-- A row stands in the flat form at its offset. -/
theorem encodeRow_eq_cut (h : Shape.describe array (some type) = .ok shape)
    (hflat : flatten array (some type) = .ok flat) {row : Value} {k : Nat}
    (hrow : (shape.rowsOf array)[k]? = some row) :
    shape.encodeRow row =
      .ok (Bytes.cut (flat.value array).rawBytes (k * shape.rowSize) shape.rowSize) := by
  obtain ⟨parts, hparts, hdata⟩ := exists_parts_of_flatten h hflat
  have hall := Outcome.mapM_eq_ok_iff.1 hparts
  obtain ⟨hk, rfl⟩ := List.getElem?_eq_some_iff.1 hrow
  have hk' : k < parts.length := hall.length_eq ▸ hk
  rw [Value.rawBytes_of_data? hdata, Bytes.cut_flatten
    (Shape.length_of_mem_parts (Shape.fits_of_describe h) hparts) (List.getElem?_eq_getElem hk')]
  exact hall.get hk hk'

/-- Assumes: an array of numbers of a type that has a flat form. Each typed array among its rows has
as many bytes as a row and stands in the flat form with these bytes. The array with a list in the
place of each of them has the same shape. It has a flat form with the same numbers exactly when all
their items are stored in the bytes they have, which they are if the item codes of the typed arrays
behind the first row are those of the type. -/
theorem flatten_typed_rows (h : Shape.describe array (some type) = .ok shape)
    (hflat : flatten array (some type) = .ok flat) :
    (∀ k typed, (shape.rowsOf array)[k]? = some (.packed typed) →
      typed.toBytes.length = shape.rowSize ∧
        Bytes.cut (flat.value array).rawBytes (k * shape.rowSize) shape.rowSize =
          typed.toBytes) ∧
    Shape.describe (array.mapRows Value.listed shape.outerLengths.length) (some type) =
      .ok shape ∧
    (FlattensTo type (array.mapRows Value.listed shape.outerLengths.length)
        (flat.value array).rawBytes ↔
      ∀ typed, .packed typed ∈ shape.rowsOf array → type.StoresItems typed) ∧
    ((∀ typed, .packed typed ∈ shape.rowsOf array → typed.Fits) →
      (∀ typed, .packed typed ∈ (shape.rowsOf array).tail →
        PackedArray.numberType? typed.code = some type) →
      FlattensTo type (array.mapRows Value.listed shape.outerLengths.length)
        (flat.value array).rawBytes) := by
  have hlisted := flattensTo_listed_iff h hflat
  refine ⟨fun k typed htyped ↦ ?_, Shape.describe_listed h, hlisted, fun hfits hcodes ↦ ?_⟩
  · obtain ⟨hlength, hcut⟩ := Shape.wholeRow_eq_ok.1 (encodeRow_eq_cut h hflat htyped)
    exact ⟨hlength, hcut.symm⟩
  · refine hlisted.2 fun typed htyped ↦ (hfits typed htyped).storesItems ?_
    rcases hrows : shape.rowsOf array with _ | ⟨row, rest⟩
    · exact absurd (hrows ▸ htyped) List.not_mem_nil
    · rcases List.mem_cons.1 (hrows ▸ htyped) with hfirst | hrest
      · exact Shape.numberType?_of_head? h (by rw [hrows, hfirst]; rfl)
      · exact hcodes typed (hrows ▸ hrest)

/-- A typed array behind the first row keeps its signalling NaN, which is a quiet one when a list
stands in its place. -/
theorem flatten_typed_rows_quiet :
    let array := Value.list [.tuple [.float 0x3ff8000000000000], .packed ⟨.single, [0x7fa00000]⟩]
    let listed := Value.list
      [.tuple [.float 0x3ff8000000000000], .list [.float 0x7ffc000000000000]]
    array.mapRows Value.listed 1 = listed ∧
      flatten array (some .float32) = .ok (.fresh [0, 0, 192, 63, 0, 0, 160, 127]) ∧
      flatten listed (some .float32) = .ok (.fresh [0, 0, 192, 63, 0, 0, 224, 127]) ∧
      FlattensTo .float32 listed [0, 0, 192, 63, 0, 0, 160, 127] := by
  intro array listed
  let shape : Shape := ⟨[2, 1], .float32, false⟩
  have h : Shape.describe array (some .float32) = .ok shape := by rfl
  have hflat : flatten array (some .float32) = .ok (.fresh [0, 0, 192, 63, 0, 0, 160, 127]) := by
    dsimp only [array]
    rfl
  have hlisted : array.mapRows Value.listed 1 = listed := by rfl
  have honly (typed : PackedArray) (htyped : .packed typed ∈ shape.rowsOf array) :
      typed = ⟨.single, [0x7fa00000]⟩ := by
    rcases List.mem_cons.1 htyped with hfirst | hrest
    · exact absurd hfirst (by simp)
    · exact Value.packed.inj (List.mem_singleton.1 hrest)
  have hfits : ∀ typed, .packed typed ∈ shape.rowsOf array → typed.Fits := by
    intro typed htyped word hword
    obtain rfl := honly typed htyped
    obtain rfl := List.mem_singleton.1 hword
    decide
  have hcodes : ∀ typed, .packed typed ∈ (shape.rowsOf array).tail →
      PackedArray.numberType? typed.code = some .float32 := by
    intro typed htyped
    obtain rfl := honly typed (List.mem_of_mem_tail htyped)
    rfl
  obtain ⟨_, _, _, hsame⟩ := flatten_typed_rows h hflat
  refine ⟨hlisted, hflat, ?_, hlisted ▸ hsame hfits hcodes⟩
  dsimp only [listed]
  rfl

/-- A typed array of integers behind the first row of an array of floating point numbers is taken
for one of floating point numbers. -/
theorem flatten_typed_rows_reinterpreted :
    let array := Value.list [.list [.float 0x3ff8000000000000], .packed ⟨.signedInt, [1]⟩]
    let listed := Value.list [.list [.float 0x3ff8000000000000], .list [.int 1]]
    array.mapRows Value.listed 1 = listed ∧
      flatten array (some .float32) = .ok (.fresh [0, 0, 192, 63, 1, 0, 0, 0]) ∧
      flatten listed (some .float32) = .ok (.fresh [0, 0, 192, 63, 0, 0, 128, 63]) ∧
      ¬ FlattensTo .float32 listed [0, 0, 192, 63, 1, 0, 0, 0] := by
  intro array listed
  have hlisted : flatten listed (some .float32) =
      .ok (.fresh [0, 0, 192, 63, 0, 0, 128, 63]) := by
    dsimp only [listed]
    rfl
  refine ⟨by rfl, by dsimp only [array]; rfl, hlisted, ?_⟩
  rintro ⟨flat, hflat, _, hagrees⟩
  obtain rfl := Except.ok.inj (hlisted.symm.trans hflat)
  exact absurd (hagrees 1) (by decide)

end Flatten

end Stowage
