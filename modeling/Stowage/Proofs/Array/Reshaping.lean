import Stowage.Proofs.Array.Overwriting

/-!
# The shape of a filled array

An array that was filled has rows of the same kinds as before. Their lengths stay, with one
exception: when the first row is one of bytes, all rows are filled with bytes, and a row of typed
items takes these as the bytes of its items, of which there are fewer when they are wider than a
byte (`Shape.filledLength`). The filled array has the shape it had exactly when this does not
happen, and otherwise it has no shape at all (`unflatten_reshapes`).
-/

set_option autoImplicit false

namespace Stowage

/-! ### Filled rows -/

/-- The number of items that elements make up in a row. -/
def Cells.extentIn (cells : Cells) : Value → Nat
  | .packed array =>
    match cells with
    | .bytes data => data.length / array.code.size
    | .numbers values => values.length
  | _ => cells.values.length

theorem length_byteRow {cells : Cells} {data : Bytes} (h : byteRow cells = .ok data) :
    data.length = cells.values.length := by
  cases cells with
  | bytes found =>
    obtain rfl := Except.ok.inj h
    exact (List.length_map _).symm
  | numbers values =>
    rw [byteRow] at h
    split at h
    · next found hfound =>
      obtain rfl := Except.ok.inj h
      exact (Outcome.mapM_eq_some_iff.1 hfound).length_eq.symm
    · exact absurd h (by simp)

theorem packedRow_eq_ok {cells : Cells} {row array : PackedArray}
    (h : packedRow row.code cells = .ok array) :
    array.code = row.code ∧ array.words.length = cells.extentIn (.packed row) := by
  cases cells with
  | bytes data =>
    rw [packedRow, PackedArray.ofBytes?] at h
    split at h
    · next found hfound =>
      obtain rfl := Except.ok.inj h
      split at hfound
      · obtain rfl := Option.some.inj hfound
        refine ⟨rfl, ?_⟩
        rw [PackedArray.wordsOf, List.length_map, List.length_range]
        rfl
      · exact absurd hfound (by simp)
    · exact absurd h (by simp)
  | numbers values =>
    rw [packedRow, PackedArray.ofValues?] at h
    split at h
    · next found hfound =>
      obtain rfl := Except.ok.inj h
      obtain ⟨words, hwords, rfl⟩ := Option.map_eq_some_iff.1 hfound
      exact ⟨rfl, (Outcome.mapM_eq_some_iff.1 hwords).length_eq.symm⟩
    · exact absurd h (by simp)

/-- A filled row is of the same kind, and has the items that its elements make up. -/
theorem fillRow_eq_ok {row filled : Value} {cells : Cells} (h : fillRow row cells = .ok filled) :
    row.SameKind filled ∧ filled.extent = cells.extentIn row := by
  cases row with
  | list | tuple =>
    obtain rfl := Except.ok.inj h
    exact ⟨trivial, rfl⟩
  | bytes | buffer =>
    obtain ⟨data, hdata, rfl⟩ := Outcome.map_eq_ok.1 h
    exact ⟨trivial, length_byteRow hdata⟩
  | packed array =>
    obtain ⟨found, hfound, rfl⟩ := Outcome.map_eq_ok.1 h
    obtain ⟨hcode, hlength⟩ := packedRow_eq_ok hfound
    exact ⟨hcode.symm, hlength⟩
  | _ => exact absurd h (by simp [fillRow])

/-! ### Elements of flat forms -/

theorem length_bytesOf {data : Value} {elements : List Value} {raw : Bytes}
    (helements : data.elements? = some elements) (h : bytesOf data = .ok raw) :
    elements.length ≤ raw.length := by
  cases data with
  | bytes found | buffer found =>
    obtain rfl := Except.ok.inj h
    obtain rfl := Option.some.inj helements
    exact Nat.le_of_eq (List.length_map _)
  | list items | tuple items =>
    obtain rfl := Option.some.inj helements
    exact Nat.le_of_eq (Outcome.mapM_eq_ok_iff.1 h).length_eq
  | packed array =>
    obtain rfl := Except.ok.inj h
    obtain rfl := Option.some.inj helements
    rw [PackedArray.length_toBytes, PackedArray.items, List.length_map]
    exact Nat.le_mul_of_pos_right _ array.code.size_pos
  | _ => exact absurd h (by simp [bytesOf])

variable {shape : Shape} {target data result row filled : Value} {cells : Cells}
  {wanted : Option NumberType}

/-- For rows of bytes there are at least as many bytes as the array has, and otherwise as many
numbers, which were loaded. -/
theorem readFlat_cases (h : readFlat shape data = .ok cells) :
    (shape.byteRows = true ∧ ∃ raw : Bytes, cells = .bytes raw ∧ shape.byteCount ≤ raw.length) ∨
      shape.byteRows = false ∧
        ∃ raw, cells = .numbers (shape.type.loadAll shape.elementCount raw) := by
  rw [readFlat] at h
  split at h
  · exact absurd h (by simp)
  · next elements helements =>
    split at h
    · exact absurd h (by simp)
    · next hsize =>
      have hlength : elements.length = shape.byteCount := Decidable.not_not.1 hsize
      unfold cellsOf at h
      split at h
      · next hbytes =>
        obtain ⟨raw, hraw, rfl⟩ := Outcome.map_eq_ok.1 h
        exact .inl ⟨hbytes, raw, rfl, hlength ▸ length_bytesOf helements hraw⟩
      · next hbytes =>
        refine .inr ⟨Bool.eq_false_iff.2 hbytes, ?_⟩
        split at h
        case h_4 => exact absurd h (by simp)
        all_goals
          obtain ⟨raw, _, hcells⟩ := Outcome.bind_eq_ok.1 h
          split at hcells
          · exact ⟨raw, (Except.ok.inj hcells).symm⟩
          · exact absurd hcells (by simp)

namespace Shape

/-- The number of items that a row has when it was filled. -/
def filledLength (shape : Shape) : Value → Nat
  | .packed array =>
    if shape.byteRows then shape.rowLength / array.code.size else shape.rowLength
  | _ => shape.rowLength

/-- The elements that go into a row make up as many items as it has when it was filled. -/
theorem Fits.extentIn_sliceOf (hfits : shape.Fits target) (h : readFlat shape data = .ok cells)
    {k : Nat} (hk : k < shape.rowCount) (row : Value) :
    (shape.sliceOf cells k).extentIn row = shape.filledLength row := by
  have hroom : k * shape.rowLength + shape.rowLength ≤ shape.elementCount := by
    rw [hfits.elementCount_eq, ← Nat.succ_mul]
    exact Nat.mul_le_mul_right _ hk
  rcases readFlat_cases h with ⟨hbytes, raw, rfl, hraw⟩ | ⟨hbytes, raw, rfl⟩
  · have hcount : shape.byteCount = shape.elementCount := by
      rw [byteCount, hfits.type_of_byteRows hbytes]
      exact Nat.one_mul _
    have hlength : ((raw.drop (k * shape.rowLength)).take shape.rowLength).length =
        shape.rowLength := by
      rw [List.length_take, List.length_drop]
      omega
    have hslice : shape.sliceOf (.bytes raw) k =
        .bytes ((raw.drop (k * shape.rowLength)).take shape.rowLength) := rfl
    rw [hslice]
    cases row with
    | packed array =>
      rw [Cells.extentIn, filledLength, if_pos hbytes, hlength]
    | _ => exact (List.length_map _).trans hlength
  · have hlength : (((shape.type.loadAll shape.elementCount raw).drop (k * shape.rowLength)).take
        shape.rowLength).length = shape.rowLength := by
      rw [List.length_take, List.length_drop, NumberType.length_loadAll]
      omega
    have hslice : shape.sliceOf (.numbers (shape.type.loadAll shape.elementCount raw)) k =
        .numbers (((shape.type.loadAll shape.elementCount raw).drop (k * shape.rowLength)).take
          shape.rowLength) := rfl
    rw [hslice]
    cases row with
    | packed array =>
      rw [Cells.extentIn, filledLength, if_neg (Bool.eq_false_iff.1 hbytes), hlength]
    | _ => exact hlength

/-- A filled row has as many items as before unless its items take up several bytes each. -/
theorem filledLength_eq_iff (hshape : shape.Regular) (row : Value) :
    shape.filledLength row = shape.rowLength ↔
      (shape.byteRows = true → ∀ array, row = .packed array → array.code.size = 1) := by
  cases row with
  | packed array =>
    have hpos := hshape.rowLength_pos
    rw [filledLength]
    split
    · next hbytes =>
      rw [Nat.div_eq_self]
      constructor
      · rintro hsize _ found hfound
        obtain rfl := Value.packed.inj hfound
        exact hsize.resolve_left (Nat.ne_of_gt hpos)
      · exact fun hsize ↦ .inr (hsize hbytes array rfl)
    · next hbytes => exact ⟨fun _ h ↦ absurd h hbytes, fun _ ↦ rfl⟩
  | _ => exact ⟨fun _ _ _ hrow ↦ absurd hrow (by simp), fun _ ↦ rfl⟩

/-- Behind a first row of bytes, all rows of typed items have items of one byte. -/
def Bytewise (shape : Shape) (array : Value) : Prop :=
  shape.byteRows = true → ∀ row, .packed row ∈ shape.rowsOf array → row.code.size = 1

theorem bytewise_iff (hshape : shape.Regular) :
    shape.Bytewise target ↔
      ∀ row ∈ shape.rowsOf target, shape.filledLength row = shape.rowLength := by
  constructor
  · intro h row hrow
    refine (filledLength_eq_iff hshape row).2 fun hbytes array harray ↦ ?_
    exact h hbytes array (harray ▸ hrow)
  · intro h hbytes row hrow
    exact (filledLength_eq_iff hshape (.packed row)).1 (h _ hrow) hbytes row rfl

end Shape

/-- Lists and tuples that are filled with numbers hold numbers that were loaded. -/
theorem exists_load_of_fillRow (hread : readFlat shape data = .ok cells)
    (hbytes : shape.byteRows = false) {k : Nat}
    (hfill : fillRow row (shape.sliceOf cells k) = .ok filled) (hrow : row.isSequence = true) :
    ∀ leaf ∈ filled.children, ∃ bytes, leaf = shape.type.load bytes := by
  rcases readFlat_cases hread with ⟨htrue, _⟩ | ⟨_, raw, rfl⟩
  · exact absurd (htrue.symm.trans hbytes) (by simp)
  · have hchildren : filled.children =
        ((shape.type.loadAll shape.elementCount raw).drop (k * shape.rowLength)).take
          shape.rowLength := by
      cases row with
      | list | tuple =>
        obtain rfl := Except.ok.inj hfill
        rfl
      | _ => exact absurd hrow Bool.false_ne_true
    intro leaf hleaf
    rw [hchildren] at hleaf
    exact NumberType.exists_load_of_mem_loadAll (List.mem_of_mem_drop (List.mem_of_mem_take hleaf))

/-! ### Filled arrays -/

/-- The rows of a filled array are of the same kinds as before, and have as many items as their
elements make up. -/
theorem rowsOf_of_unflatten (h : Shape.describe target wanted = .ok shape)
    (hresult : (unflatten data target wanted).result = .ok result) :
    ∃ cells, readFlat shape data = .ok cells ∧ result.Framed shape.outerLengths ∧
      (∀ k row, (shape.rowsOf target)[k]? = some row →
        ∃ filled, fillRow row (shape.sliceOf cells k) = .ok filled ∧
          (shape.rowsOf result)[k]? = some filled) ∧
      List.Forall₂ (fun row filled ↦ row.SameKind filled ∧ filled.extent = shape.filledLength row)
        (shape.rowsOf target) (shape.rowsOf result) := by
  have hfits := Shape.fits_of_describe h
  rcases hread : readFlat shape data with fault | cells
  · rw [unflatten_of_readFlat_error h hread] at hresult
    exact absurd hresult (by simp)
  rcases unflatten_cases h hread with ⟨rows, hfill, hfilled⟩ | ⟨fault, _, hfault, _⟩
  · obtain rfl := Except.ok.inj (hfilled.symm.trans hresult)
    have hcount : (shape.rowsOf target).length = shape.rowCount := hfits.framed.length_rows
    have hlength : rows.length = shape.rowCount := (Shape.length_fillEach hfill).trans hcount
    have hrows : shape.rowsOf (shape.putRows target 0 rows) = rows := by
      rw [Shape.rowsOf_putRows hfits.framed (by rw [hlength, Nat.zero_add]), hlength,
        List.take_zero, List.nil_append, Nat.zero_add, ← hcount, List.drop_length,
        List.append_nil]
    have hplaces (k : Nat) (row : Value) (hrow : (shape.rowsOf target)[k]? = some row) :
        ∃ filled, fillRow row (shape.sliceOf cells k) = .ok filled ∧
          (shape.rowsOf (shape.putRows target 0 rows))[k]? = some filled := by
      rw [hrows]
      exact Shape.getElem?_fillEach hfill hrow
    refine ⟨cells, rfl, Shape.framed_putRows hfits.framed 0 rows, hplaces, ?_⟩
    refine List.forall₂_iff_get.2 ⟨by rw [hrows, hcount, hlength], fun k hk hk' ↦ ?_⟩
    obtain ⟨filled, hfilled, hplace⟩ := hplaces k _ (List.getElem?_eq_getElem hk)
    obtain ⟨_, rfl⟩ := List.getElem?_eq_some_iff.1 hplace
    obtain ⟨hkind, hextent⟩ := fillRow_eq_ok hfilled
    exact ⟨hkind, hextent.trans (hfits.extentIn_sliceOf hread (hcount ▸ hk) _)⟩
  · exact absurd (hfault.symm.trans hresult) (by simp)

/-- A filled array whose rows have the length of a row has the shape it had. -/
theorem describe_of_unflatten (h : Shape.describe target wanted = .ok shape)
    (hresult : (unflatten data target wanted).result = .ok result)
    (hlengths : ∀ row ∈ shape.rowsOf target, shape.filledLength row = shape.rowLength) :
    Shape.describe result wanted = .ok shape := by
  obtain ⟨hregular, _, hrows, first, hfirst, helements, hbyteRows⟩ :=
    Shape.describe_eq_ok_iff_rows.1 h
  obtain ⟨cells, hread, hframed, hplaces, hall⟩ := rowsOf_of_unflatten h hresult
  have hfits := Shape.fits_of_describe h
  have hhead : (shape.rowsOf target)[0]? = some first := List.head?_eq_getElem?.symm.trans hfirst
  obtain ⟨filled, hfill, hplace⟩ := hplaces 0 first hhead
  obtain ⟨hkind, hextent⟩ := fillRow_eq_ok hfill
  have hmem := List.mem_of_head? hfirst
  have halike : first.Alike 0 filled := by
    refine ⟨hkind, ?_⟩
    rw [hextent, hfits.extentIn_sliceOf hread (hfits.framed.lt_of_getElem? hhead),
      hlengths first hmem, (hrows first hmem).2]
  refine Shape.describe_eq_ok_iff_rows.2 ⟨hregular, hframed, fun found hfound ↦ ?_, filled,
    List.head?_eq_getElem?.trans hplace, helements.of_alike halike fun hsequence ↦ ?_, ?_⟩
  · obtain ⟨row, hrow, hsame, hlength⟩ := Outcome.exists_mem_of_forall₂ hall hfound
    exact ⟨hsame.isArray.2, hlength.trans (hlengths row hrow)⟩
  · have hfirstSequence : first.isSequence = true := hkind.isSequence_eq.symm.trans hsequence
    refine exists_load_of_fillRow hread ?_ hfill hfirstSequence
    rw [hbyteRows, Value.data?_of_isSequence hfirstSequence]
    rfl
  · exact hbyteRows.trans hkind.isSome_data?_eq.symm

/-- Assumes: an array with a first row of bytes, whose outer dimensions and first row are as long as
a shape says. When it has any shape, all its rows are as long. -/
theorem Shape.extent_of_describe {other : Shape} (hshape : shape.Regular)
    (hframed : result.Framed shape.outerLengths)
    (harrays : ∀ row ∈ shape.rowsOf result, row.isArray = true) {bytes : Bytes}
    (hfirst : (shape.rowsOf result).head? = some row) (hrow : row.data? = some bytes)
    (hextent : row.extent = shape.rowLength) (h : Shape.describe result wanted = .ok other) :
    ∀ found ∈ shape.rowsOf result, found.extent = shape.rowLength := by
  have hinner : ∀ first, row.children.head? = some first → first.isArray = false := by
    intro first hchild
    have hsequence : ¬row.isSequence = true := fun hsequence ↦
      absurd ((Value.data?_of_isSequence hsequence).symm.trans hrow) (by simp)
    exact Bool.eq_false_iff.2 fun harray ↦
      hsequence (Value.isSequence_of_mem_children (List.mem_of_head? hchild) harray)
  obtain ⟨hextents, _⟩ := hframed.spine hshape.outer_pos harrays hfirst hinner
  obtain ⟨hspine, hconforms⟩ := Shape.describe_eq_ok_iff.1 h
  obtain ⟨_, hlengths, _⟩ := Shape.ofSpine_eq_ok_iff.1 hspine
  rw [hlengths, hextents, hextent] at hconforms
  exact fun found hfound ↦ ((hconforms.framed hshape.outer_pos).2 found hfound).2

/-- An array that was filled has rows of the same kinds as before. Each of them has as many items as
a row of the array, except that behind a first row of bytes a row of wider typed items has only as
many as its bytes make up. Exactly when there is no such row, the array has the shape it had, as it
is found with the same number type wanted; and when there is one, it has no shape at all, whatever
type is wanted. -/
theorem unflatten_reshapes (h : Shape.describe target wanted = .ok shape)
    (hresult : (unflatten data target wanted).result = .ok result) :
    List.Forall₂ (fun row filled ↦ row.SameKind filled ∧ filled.extent = shape.filledLength row)
        (shape.rowsOf target) (shape.rowsOf result) ∧
      (Shape.describe result wanted = .ok shape ↔ shape.Bytewise target) ∧
      ((∃ chosen other, Shape.describe result chosen = .ok other) ↔ shape.Bytewise target) := by
  have hfits := Shape.fits_of_describe h
  obtain ⟨cells, hread, hframed, hplaces, hall⟩ := rowsOf_of_unflatten h hresult
  have hkeeps : shape.Bytewise target → Shape.describe result wanted = .ok shape := fun hbytewise ↦
    describe_of_unflatten h hresult ((Shape.bytewise_iff hfits.toRegular).1 hbytewise)
  have hbytewise : (∃ chosen other, Shape.describe result chosen = .ok other) →
      shape.Bytewise target := by
    rintro ⟨chosen, other, hother⟩ hbytes packed hpacked
    obtain ⟨first, hfirst, hfixed⟩ := hfits.fixed
    obtain ⟨rest, hrows⟩ := List.head?_eq_some_iff.1 hfirst
    obtain ⟨filled, others, ⟨hkind, hextent⟩, _, hfilled⟩ :=
      List.forall₂_cons_left_iff.1 (hrows ▸ hall)
    obtain ⟨hdata, hlength⟩ : (∃ bytes, first.data? = some bytes) ∧
        shape.filledLength first = shape.rowLength := by
      cases first with
      | bytes found | buffer found => exact ⟨⟨found, rfl⟩, rfl⟩
      | list | tuple => exact absurd (hbytes.symm.trans hfixed) (by simp)
      | packed => exact absurd (hbytes.symm.trans hfixed.2) (by simp)
      | _ => exact hfixed.elim
    obtain ⟨bytes, hfilledData⟩ := hkind.exists_data hdata
    have harrays : ∀ row ∈ shape.rowsOf result, row.isArray = true := fun row hrow ↦ by
      obtain ⟨_, _, hsame, _⟩ := Outcome.exists_mem_of_forall₂ hall hrow
      exact hsame.isArray.2
    obtain ⟨found, hfound, _, hwidth⟩ := Outcome.exists_mem_of_forall₂ hall.flip hpacked
    have hsame := Shape.extent_of_describe hfits.toRegular hframed harrays
      (by rw [hfilled]; rfl) hfilledData (hextent.trans hlength) hother found hfound
    exact (Shape.filledLength_eq_iff hfits.toRegular (.packed packed)).1 (hwidth.symm.trans hsame)
      hbytes packed rfl
  exact ⟨hall, ⟨fun hsame ↦ hbytewise ⟨wanted, shape, hsame⟩, hkeeps⟩,
    ⟨hbytewise, fun hsame ↦ ⟨wanted, shape, hkeeps hsame⟩⟩⟩

/-- A row of one-byte items behind a byte string keeps its length, and the array its shape. -/
theorem unflatten_reshapes_narrow :
    let target := Value.list [.bytes [0, 0], .packed ⟨.signedByte, [0, 0]⟩]
    let result := Value.list [.bytes [1, 2], .packed ⟨.signedByte, [3, 255]⟩]
    let shape : Shape := ⟨[2, 2], .int8, true⟩
    Shape.describe target (some .int8) = .ok shape ∧
      (unflatten (.buffer [1, 2, 3, 255]) target (some .int8)).result = .ok result ∧
      shape.Bytewise target ∧ Shape.describe result (some .int8) = .ok shape := by
  intro target result shape
  have h : Shape.describe target (some .int8) = .ok shape := by rfl
  have hresult : (unflatten (.buffer [1, 2, 3, 255]) target (some .int8)).result = .ok result := by
    dsimp only [target, result]
    rfl
  have hbytewise : shape.Bytewise target := by
    intro _ row hrow
    obtain rfl : row = ⟨.signedByte, [0, 0]⟩ := by
      simpa [target, shape, Shape.rowsOf, Shape.outerLengths, Value.rows, Value.children,
        Value.elements?, Value.isArray] using hrow
    rfl
  obtain ⟨_, hkeeps, _⟩ := unflatten_reshapes h hresult
  exact ⟨h, hresult, hbytewise, hkeeps.2 hbytewise⟩

/-- Behind a byte string, a row of four integers becomes a row of one, and the array is ragged. -/
theorem unflatten_shrinks_wide_items :
    let target := Value.list [.bytes [0, 0, 0, 0], .packed ⟨.signedInt, [1, 2, 3, 4]⟩]
    let data : Bytes := [0, 0, 0, 0, 1, 2, 3, 4]
    let result := Value.list [.bytes [0, 0, 0, 0], .packed ⟨.signedInt, [67305985]⟩]
    Shape.describe target (some .int8) = .ok ⟨[2, 4], .int8, true⟩ ∧
      data.length = Shape.byteCount ⟨[2, 4], .int8, true⟩ ∧
      (unflatten (.buffer data) target (some .int8)).result = .ok result ∧
      Shape.describe result (some .int8) = .error (.shape (.ragged 1 2 4)) := by
  intro target data result
  refine ⟨by rfl, rfl, ?_, by rfl⟩
  dsimp only [target, data, result]
  rfl

end Stowage
