import Stowage.Proofs.Array.RowLoop

/-!
# Filling arrays from flat forms

Where rows that cannot be changed in place stand in lists, no row refuses elements that it can be
filled with by itself (`Shape.not_refuses`), so the whole array is filled. It stays like it was but
for its elements, which are those of the flat form, in order (`unflatten_of_readFlat`). So an array
filled from the flat form of another one with the same shape has the elements of this one
(`unflatten_of_flatten`).
-/

set_option autoImplicit false

namespace Stowage

open Shape (digits length_digits)

/-- Whether a row takes elements and then holds them. -/
def Value.Holds (row : Value) (cells : Cells) : Prop :=
  ∃ filled, fillRow row cells = .ok filled ∧ filled.children = cells.values ∧ row.Alike 0 filled

/-- Whether a row can take numbers of a type without changing them. -/
def Value.Takes (type : NumberType) : Value → Prop
  | .list _ | .tuple _ => True
  | .packed array => PackedArray.numberType? array.code = some type
  | _ => False

theorem Value.takes_of_isSequence {row : Value} (h : row.isSequence = true) (type : NumberType) :
    row.Takes type := by
  cases row with
  | list | tuple => trivial
  | _ => exact absurd h (by simp [isSequence])

/-- Rows for numbers hold what a type keeps of values that it can store. -/
theorem Value.Takes.holds {type : NumberType} {row : Value} (h : row.Takes type)
    {values : List Value}
    (hvalues : ∀ v ∈ values, ∃ value bytes, type.store value = .ok bytes ∧ v = type.kept value)
    (hextent : row.extent = values.length) : row.Holds (.numbers values) := by
  cases row with
  | list => exact ⟨.list values, rfl, rfl, trivial, hextent⟩
  | tuple => exact ⟨.tuple values, rfl, rfl, trivial, hextent⟩
  | packed array =>
    have hitem : ∀ v ∈ values, ∃ word, PackedArray.wordOf? array.code v = some word ∧
        PackedArray.item array.code word = v := by
      intro v hv
      obtain ⟨value, bytes, hstore, rfl⟩ := hvalues v hv
      exact PackedArray.exists_wordOf?_kept h hstore
    obtain ⟨words, hwords, hitems⟩ := PackedArray.exists_ofValues? hitem
    refine ⟨.packed ⟨array.code, words⟩, ?_, hitems, rfl, ?_⟩
    · rw [fillRow, packedRow]
      simp only [hwords]
      rfl
    · rw [hextent, ← hitems, List.length_map]
      rfl
  | _ => exact absurd h (by simp [Value.Takes])

theorem Value.Takes.data?_eq_none {type : NumberType} {row : Value} (h : row.Takes type) :
    row.data? = none := by
  cases row with
  | bytes | buffer => exact h.elim
  | _ => rfl

/-- Rows of bytes hold bytes. -/
theorem Value.holds_of_data? {row : Value} {former data : Bytes} (h : row.data? = some former)
    (hextent : row.extent = data.length) : row.Holds (.bytes data) := by
  cases row with
  | bytes => exact ⟨.bytes data, rfl, rfl, trivial, hextent⟩
  | buffer => exact ⟨.buffer data, rfl, rfl, trivial, hextent⟩
  | _ => exact absurd h (by simp [Value.data?])

namespace Shape

variable {shape : Shape}
/-- Assumes: as many elements as there are in the rows, and rows that hold any run of them. All rows
can be filled, and then they hold these elements in order. -/
theorem exists_fillEach {rows : List Value} {cells : Cells}
    (hcount : cells.values.length = rows.length * shape.rowLength)
    (hrows : ∀ row ∈ rows, ∀ k,
      ((cells.drop k).take shape.rowLength).values.length = shape.rowLength →
        row.Holds ((cells.drop k).take shape.rowLength)) :
    ∃ filled, shape.fillEach rows cells = .ok filled ∧
      filled.flatMap Value.children = cells.values ∧
      List.Forall₂ (Value.Alike 0) rows filled := by
  induction rows generalizing cells with
  | nil =>
    rw [List.length_nil, Nat.zero_mul] at hcount
    exact ⟨[], rfl, (List.length_eq_zero_iff.1 hcount).symm, .nil⟩
  | cons row rest ih =>
    obtain ⟨hrow, hrest⟩ := List.forall_mem_cons.1 hrows
    rw [List.length_cons, Nat.succ_mul] at hcount
    have hwidth : (cells.take shape.rowLength).values.length = shape.rowLength := by
      rw [Cells.values_take, List.length_take]
      omega
    have hfirst := hrow 0
    rw [Cells.drop_zero] at hfirst
    obtain ⟨first, hfill, hchildren, halike⟩ := hfirst hwidth
    have hcountRest : (cells.drop shape.rowLength).values.length =
        rest.length * shape.rowLength := by
      rw [Cells.values_drop, List.length_drop]
      omega
    obtain ⟨others, hfillOthers, hothers, hall⟩ := ih hcountRest fun other hother k ↦ by
      rw [Cells.drop_drop]
      exact hrest other hother _
    refine ⟨first :: others, ?_, ?_, .cons halike hall⟩
    · rw [fillEach, hfill]
      dsimp only
      rw [hfillOthers]
      rfl
    · rw [List.flatMap_cons, hchildren, hothers, Cells.values_take, Cells.values_drop,
        List.take_append_drop]

end Shape

/-! ### Arrays in which rows can be replaced -/

namespace Shape

variable {shape : Shape} {target array : Value} {cells : Cells} {k : Nat} {fault : Fault}

/-- Rows of the same kind and length take the places of others, and leave the array like it was. -/
theorem alike_putRows (hframed : target.Framed shape.outerLengths) {first : Nat}
    {rest others : List Value} (halike : target.Alike shape.outerLengths.length array)
    (hrest : (shape.rowsOf array).drop first = rest)
    (hall : List.Forall₂ (Value.Alike 0) rest others) :
    target.Alike shape.outerLengths.length (shape.putRows array first others) := by
  induction hall generalizing array first with
  | nil => exact halike
  | @cons row filled rest others hrow _ ih =>
    have hplace : (shape.rowsOf array)[first]? = some row := by
      rw [← List.head?_drop, hrest]
      rfl
    have hframedArray := halike.framed hframed
    have hlt := hframedArray.lt_of_getElem? hplace
    have hput : shape.rowsOf (array.putAt (digits shape.outerLengths first) filled) =
        (shape.rowsOf array).set first filled := hframedArray.rows_putAt hlt filled
    refine ih ?_ ?_
    · rw [← length_digits shape.outerLengths first] at halike ⊢
      exact halike.putAt ((hframedArray.at?_digits hlt).trans hplace) hrow
    · rw [hput, List.drop_set_of_lt (Nat.lt_succ_self first), List.drop_add_one_eq_tail_drop,
        hrest, List.tail_cons]

/-- Where rows can be replaced, none refuses what it can be filled with by itself. -/
theorem not_refuses (hframed : array.Framed shape.outerLengths)
    (hreplaceable : array.Replaceable shape.outerLengths.length) {filled : List Value}
    (hfill : shape.fillEach (shape.rowsOf array) cells = .ok filled) :
    ¬ shape.Refuses array k (shape.sliceOf cells k) fault := by
  intro hrefuses
  cases hrefuses with
  | elements hrow herror =>
    obtain ⟨found, hfound, _⟩ := getElem?_fillEach hfill hrow
    exact absurd (herror.symm.trans hfound) (by simp)
  | @parent row _ items hrow _ himmutable hrank hparent =>
    have hplace : array.at? (digits shape.outerLengths k) = some row :=
      (hframed.at?_digits (hframed.lt_of_getElem? hrow)).trans hrow
    have hlength := length_digits shape.outerLengths k
    have hinner : shape.outerLengths.length = shape.rank - 1 := List.length_dropLast
    rw [← hlength] at hreplaceable
    rcases hreplaceable.of_at? hplace with hmutable | hlist
    · exact absurd (himmutable.symm.trans hmutable) (by simp)
    · obtain ⟨others, hothers⟩ := hlist (List.length_pos_iff.1 (by omega))
      rw [Value.part_eq_of_at? hparent] at hothers
      exact absurd hothers (by simp)

end Shape

/-! ### Flat forms and back -/

/-- The flat form of an array as a value: the array itself, or a buffer. -/
def Flat.value (array : Value) : Flat → Value
  | .itself => array
  | .fresh data => .buffer data

section Unflatten

variable {source target data : Value} {wanted : Option NumberType} {shape other : Shape}
  {cells : Cells} {raw : Bytes}

/-- Assumes: an array in which rows can be replaced, and all of them filled by themselves. The array
can be filled; it stays like it was, and has these rows. -/
theorem unflatten_of_fillEach (h : Shape.describe target wanted = .ok shape)
    (hreplaceable : target.Replaceable shape.outerLengths.length)
    (hread : readFlat shape data = .ok cells) {filled : List Value}
    (hfill : shape.fillEach (shape.rowsOf target) cells = .ok filled)
    (hall : List.Forall₂ (Value.Alike 0) (shape.rowsOf target) filled) :
    ∃ result, (unflatten data target wanted).result = .ok result ∧
      target.Alike shape.outerLengths.length result ∧ shape.rowsOf result = filled := by
  have hfits := Shape.fits_of_describe h
  have hlength : (shape.rowsOf target).length = shape.rowCount := hfits.framed.length_rows
  have halike : target.Alike shape.outerLengths.length target :=
    .refl hfits.framed fun row hrow ↦ (hfits.rows row hrow).1
  obtain ⟨outcome, hprogress, hunflatten⟩ := unflatten_progress h hread
  rw [hunflatten]
  cases hprogress with
  | @complete found hfound =>
    obtain rfl := Except.ok.inj (hfill.symm.trans hfound)
    have hcount : filled.length = shape.rowCount := hall.length_eq.symm.trans hlength
    refine ⟨shape.putRows target 0 filled, rfl,
      Shape.alike_putRows hfits.framed halike List.drop_zero hall, ?_⟩
    rw [Shape.rowsOf_putRows hfits.framed (by omega), List.take_zero, List.nil_append, Nat.zero_add,
      List.drop_of_length_le (by omega), List.append_nil]
  | stopped _ hrefuses =>
    rw [Nat.zero_add] at hrefuses
    exact absurd hrefuses (Shape.not_refuses hfits.framed hreplaceable hfill)

/-- Assumes: an array in which rows can be replaced, and a flat form with as many elements as the
array has, any run of which the rows hold. The array can be filled; it stays like it was, and has
the elements of the flat form. -/
theorem unflatten_of_readFlat (h : Shape.describe target wanted = .ok shape)
    (hreplaceable : target.Replaceable shape.outerLengths.length)
    (hread : readFlat shape data = .ok cells) (hcount : cells.values.length = shape.elementCount)
    (hrows : ∀ row ∈ shape.rowsOf target, ∀ k,
      ((cells.drop k).take shape.rowLength).values.length = shape.rowLength →
        row.Holds ((cells.drop k).take shape.rowLength)) :
    ∃ result, (unflatten data target wanted).result = .ok result ∧
      target.Alike shape.outerLengths.length result ∧ shape.leavesOf result = cells.values := by
  have hfits := Shape.fits_of_describe h
  have hlength : (shape.rowsOf target).length = shape.rowCount := hfits.framed.length_rows
  rw [hfits.elementCount_eq, ← hlength] at hcount
  obtain ⟨filled, hfill, hchildren, hall⟩ := Shape.exists_fillEach hcount hrows
  obtain ⟨result, hresult, hlikeResult, hrowsResult⟩ :=
    unflatten_of_fillEach h hreplaceable hread hfill hall
  exact ⟨result, hresult, hlikeResult, by rw [Shape.leavesOf, hrowsResult, hchildren]⟩

/-- A byte string fills an array like a buffer with the same bytes. -/
theorem unflatten_eq_of_data? (hdata : data.data? = some raw) :
    unflatten data target wanted = unflatten (.buffer raw) target wanted := by
  cases data with
  | bytes found | buffer found =>
    obtain rfl := Option.some.inj hdata
    rfl
  | _ => exact absurd hdata (by simp [Value.data?])

/-- A buffer of the right size holds numbers. -/
theorem readFlat_numbers (hbytes : shape.byteRows = false)
    (hlength : raw.length = shape.byteCount) :
    readFlat shape (.buffer raw) =
      .ok (.numbers (shape.type.loadAll shape.elementCount raw)) := by
  have helements : (raw.map fun b ↦ Value.int b.toNat).length = shape.byteCount :=
    (List.length_map _).trans hlength
  rw [readFlat]
  simp only [Value.elements?, helements, ne_eq, not_true_eq_false, if_false, cellsOf, hbytes,
    Bool.false_eq_true, bytesOf, Outcome.ok_bind, hlength, if_true]

/-- For rows of bytes, bytes of the right size are taken as they are. -/
theorem readFlat_bytes (hbytes : shape.byteRows = true) (hdata : data.data? = some raw)
    (hlength : raw.length = shape.byteCount) : readFlat shape data = .ok (.bytes raw) := by
  have helements : (raw.map fun b ↦ Value.int b.toNat).length = shape.byteCount :=
    (List.length_map _).trans hlength
  cases data with
  | bytes found | buffer found =>
    obtain rfl : found = raw := Option.some.inj hdata
    rw [readFlat]
    simp only [Value.elements?, helements, ne_eq, not_true_eq_false, if_false, cellsOf, hbytes,
      if_true, bytesOf, Except.map]
  | _ => exact absurd hdata (by simp [Value.data?])

/-- Assumes: rows for numbers of the type of the shape. From the bytes of stored numbers, as many as
there are elements, the array is filled with these numbers as they are kept. -/
theorem unflatten_of_storeAll (h : Shape.describe target wanted = .ok shape)
    (hreplaceable : target.Replaceable shape.outerLengths.length)
    (hrows : ∀ row ∈ shape.rowsOf target, row.Takes shape.type) {values : List Value}
    (hstored : shape.type.storeAll values = .ok raw) (hcount : values.length = shape.elementCount)
    (hlength : raw.length = shape.byteCount) :
    ∃ result, (unflatten (.buffer raw) target wanted).result = .ok result ∧
      target.Alike shape.outerLengths.length result ∧
      shape.leavesOf result = values.map shape.type.kept := by
  have hfits := Shape.fits_of_describe h
  have hbytes : shape.byteRows = false :=
    hfits.byteRows_eq_false fun row hrow ↦ (hrows row hrow).data?_eq_none
  have hread := readFlat_numbers hbytes hlength
  rw [← hcount, NumberType.loadAll_of_storeAll hstored] at hread
  have hkept : (values.map shape.type.kept).length = shape.elementCount :=
    (List.length_map _).trans hcount
  refine unflatten_of_readFlat h hreplaceable hread hkept fun row hrow k hwidth ↦ ?_
  refine (hrows row hrow).holds (fun v hv ↦ ?_) ((hfits.rows row hrow).2.trans hwidth.symm)
  obtain ⟨value, hvalue, rfl⟩ := List.mem_map.1 (List.mem_of_mem_drop (List.mem_of_mem_take hv))
  obtain ⟨bytes, hbytes⟩ := Shape.exists_storeAll_iff.1 ⟨raw, hstored⟩ value hvalue
  exact ⟨value, bytes, hbytes, rfl⟩

/-- Rows of bytes are filled with bytes as they are. -/
theorem unflatten_of_data (h : Shape.describe target wanted = .ok shape)
    (hreplaceable : target.Replaceable shape.outerLengths.length)
    (hrows : ∀ row ∈ shape.rowsOf target, ∃ data, row.data? = some data)
    (hdata : data.data? = some raw) (hlength : raw.length = shape.byteCount) :
    ∃ result, (unflatten data target wanted).result = .ok result ∧
      target.Alike shape.outerLengths.length result ∧
      shape.leavesOf result = raw.map fun b ↦ .int b.toNat := by
  have hfits := Shape.fits_of_describe h
  obtain ⟨htype, hbytes⟩ := hfits.type_of_data hrows
  have hread := readFlat_bytes hbytes hdata hlength
  have hcount : (raw.map fun b ↦ Value.int b.toNat).length = shape.elementCount := by
    rw [List.length_map, hlength, Shape.byteCount, htype]
    exact Nat.one_mul _
  refine unflatten_of_readFlat h hreplaceable hread hcount fun row hrow k hwidth ↦ ?_
  obtain ⟨former, hformer⟩ := hrows row hrow
  exact Value.holds_of_data? hformer
    ((hfits.rows row hrow).2.trans (hwidth.symm.trans (List.length_map _)))

/-- An array of one dimension that is a row of bytes is its own flat form. -/
theorem flatten_itself (h : Shape.describe source wanted = .ok shape) (hrank : shape.rank = 1)
    (hbytes : shape.byteRows = true) :
    flatten source wanted = .ok .itself ∧ shape.rowsOf source = [source] ∧
      shape.encodeRow source = .ok source.rawBytes ∧ source.data? = some source.rawBytes := by
  have hfits := Shape.fits_of_describe h
  have hrow : shape.rowsOf source = [source] := by
    have houter : shape.outerLengths.length = 0 := by
      have := hfits.rank_eq
      omega
    rw [Shape.rowsOf, houter, Value.rows]
  have hdata : source.data? = some source.rawBytes := by
    obtain ⟨row, hhead, hfixed⟩ := hfits.fixed
    rw [hrow] at hhead
    obtain rfl : source = row := Option.some.inj hhead
    cases source with
    | bytes | buffer => rfl
    | list | tuple => exact absurd (hbytes.symm.trans hfixed) (by simp)
    | packed => exact absurd (hbytes.symm.trans hfixed.2) (by simp)
    | _ => exact hfixed.elim
  refine ⟨?_, hrow, ?_, hdata⟩
  · rw [flatten, Walk.ofArray_eq_ok h, Outcome.ok_bind]
    exact if_pos ⟨hrank, hbytes⟩
  · exact hfits.encodeRow_of_data (hrow ▸ List.forall_mem_singleton.2 ⟨_, hdata⟩)
      (hrow ▸ List.mem_cons_self)

/-- A flat form has the bytes of the rows back to back, whether it is the array itself or not. -/
theorem exists_parts_of_flatten (h : Shape.describe source wanted = .ok shape) {flat : Flat}
    (hflat : flatten source wanted = .ok flat) :
    ∃ parts, (shape.rowsOf source).mapM shape.encodeRow = .ok parts ∧
      (flat.value source).data? = some parts.flatten := by
  by_cases hself : shape.rank = 1 ∧ shape.byteRows = true
  · obtain ⟨hitself, hrow, hencode, hdata⟩ := flatten_itself h hself.1 hself.2
    obtain rfl := Except.ok.inj (hitself.symm.trans hflat)
    refine ⟨[source.rawBytes], ?_, hdata.trans (congrArg some (List.append_nil _).symm)⟩
    rw [hrow, Outcome.mapM_cons_ok, hencode]
    rfl
  · rw [flatten_eq h hself] at hflat
    obtain ⟨raw, hraw, rfl⟩ := Outcome.map_eq_ok.1 hflat
    obtain ⟨parts, hparts, rfl⟩ := Shape.encodeRows_eq_ok_iff.1 hraw
    exact ⟨parts, hparts, rfl⟩

/-- There is a flat form when every row has bytes. -/
theorem exists_flatten_of_parts (h : Shape.describe source wanted = .ok shape)
    {parts : List Bytes} (hparts : (shape.rowsOf source).mapM shape.encodeRow = .ok parts) :
    ∃ flat, flatten source wanted = .ok flat ∧
      (flat.value source).data? = some parts.flatten := by
  by_cases hself : shape.rank = 1 ∧ shape.byteRows = true
  · obtain ⟨hitself, _⟩ := flatten_itself h hself.1 hself.2
    obtain ⟨found, hfound, hdata⟩ := exists_parts_of_flatten h hitself
    obtain rfl := Except.ok.inj (hfound.symm.trans hparts)
    exact ⟨.itself, hitself, hdata⟩
  · have hrows : shape.encodeRows 0 (shape.rowsOf source) = .ok parts.flatten :=
      Shape.encodeRows_eq_ok_iff.2 ⟨parts, hparts, rfl⟩
    exact ⟨.fresh parts.flatten, by rw [flatten_eq h hself, hrows]; rfl, rfl⟩

/-- Rows of bytes make up the flat form, whether this is the array itself or not. -/
theorem flatten_of_data (h : Shape.describe source wanted = .ok shape)
    (hrows : ∀ row ∈ shape.rowsOf source, ∃ data, row.data? = some data) :
    ((shape.rowsOf source).flatMap Value.rawBytes).length = shape.byteCount ∧
      ∃ flat, flatten source wanted = .ok flat ∧
        (flat.value source).data? = some ((shape.rowsOf source).flatMap Value.rawBytes) := by
  have hfits := Shape.fits_of_describe h
  have hencode : ∀ row ∈ shape.rowsOf source, shape.encodeRow row = .ok row.rawBytes :=
    fun row hrow ↦ hfits.encodeRow_of_data hrows hrow
  have hparts : (shape.rowsOf source).mapM shape.encodeRow =
      .ok ((shape.rowsOf source).map Value.rawBytes) :=
    (Outcome.mapM_congr hencode).trans List.mapM_pure
  exact ⟨hfits.length_rawBytes hencode, exists_flatten_of_parts h hparts⟩

/-- The elements of rows of bytes are these bytes as numbers. -/
theorem Shape.leavesOf_of_data
    (hrows : ∀ row ∈ shape.rowsOf source, ∃ data, row.data? = some data) :
    shape.leavesOf source =
      ((shape.rowsOf source).flatMap Value.rawBytes).map fun b ↦ .int b.toNat := by
  rw [leavesOf, List.map_flatMap]
  refine List.flatMap_congr fun row hrow ↦ ?_
  obtain ⟨data, hdata⟩ := hrows row hrow
  cases row with
  | bytes | buffer => rfl
  | _ => exact absurd hdata (by simp [Value.data?])

/-- There are as many elements as the shape says. -/
theorem Shape.Fits.length_leavesOf (h : shape.Fits source) :
    (shape.leavesOf source).length = shape.elementCount := by
  have hrows : ∀ row ∈ shape.rowsOf source, row.children.length = shape.rowLength :=
    fun row hrow ↦ (Value.length_children (h.rows row hrow).1).trans (h.rows row hrow).2
  have hcount : (shape.rowsOf source).length = shape.rowCount := h.framed.length_rows
  rw [leavesOf, length_flatMap_of_forall hrows, hcount, h.elementCount_eq]

/-- An array is filled from the flat form of another one. Assumes: two arrays of one shape, as it is
found with the same number type wanted, of which the first has rows of lists and tuples and the
second has rows for numbers of this type, or both have rows of bytes; rows of the second that cannot
be changed in place stand in lists. When the first has a flat form, the second can be filled from
it. It is then made of the same containers as before and has the elements of the first, position by
position, as the number type keeps them: an integer type keeps integers, and truth values as 0 and
1; a 64-bit floating point type keeps the word of a number, and a 32-bit one what the number was
rounded to. -/
theorem unflatten_of_flatten {flat : Flat} (h : Shape.describe source wanted = .ok shape)
    (hto : Shape.describe target wanted = .ok other) (hlengths : other.lengths = shape.lengths)
    (htype : other.type = shape.type)
    (hrows : (∀ row ∈ shape.rowsOf source, row.isSequence = true) ∧
        (∀ row ∈ other.rowsOf target, row.Takes shape.type) ∨
      (∀ row ∈ shape.rowsOf source, ∃ data, row.data? = some data) ∧
        ∀ row ∈ other.rowsOf target, ∃ data, row.data? = some data)
    (hreplaceable : target.Replaceable other.outerLengths.length)
    (hflat : flatten source wanted = .ok flat) :
    ∃ result, (unflatten (flat.value source) target wanted).result = .ok result ∧
      target.Alike other.outerLengths.length result ∧
      other.leavesOf result = (shape.leavesOf source).map shape.type.kept := by
  have hfits := Shape.fits_of_describe h
  have helements : shape.elementCount = other.elementCount := by
    rw [Shape.elementCount, Shape.elementCount, hlengths]
  have hbyteCount : shape.byteCount = other.byteCount := by
    rw [Shape.byteCount, Shape.byteCount, helements, htype]
  rcases hrows with ⟨hfrom, hinto⟩ | ⟨hfrom, hinto⟩
  · obtain ⟨parts, hparts, rfl, hlength⟩ := (flatten_of_isSequence h hfrom).2.1 flat hflat
    have hstored : shape.type.storeAll (shape.leavesOf source) = .ok parts.flatten := by
      rw [NumberType.storeAll_eq_mapM, hparts]
      rfl
    rw [← htype] at hstored hinto ⊢
    exact unflatten_of_storeAll hto hreplaceable hinto hstored
      (hfits.length_leavesOf.trans helements) (hlength.trans hbyteCount)
  · obtain ⟨hlength, found, hfound, hdata⟩ := flatten_of_data h hfrom
    obtain rfl : flat = found := Except.ok.inj (hflat.symm.trans hfound)
    have hleaves := Shape.leavesOf_of_data hfrom
    have hkept : (shape.leavesOf source).map shape.type.kept = shape.leavesOf source := by
      rw [(hfits.type_of_data hfrom).1, hleaves, List.map_map]
      rfl
    rw [hkept, hleaves]
    exact unflatten_of_data hto hreplaceable hinto hdata (hlength.trans hbyteCount)

end Unflatten

end Stowage
