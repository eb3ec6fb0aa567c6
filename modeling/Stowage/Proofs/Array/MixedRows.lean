import Stowage.Proofs.Array.Filling
import Stowage.Proofs.Array.RowMaps

/-!
# Rows of bytes among lists and tuples

An array of eight-bit numbers can have byte strings and buffers as rows besides lists and tuples.
Its flat form has one byte for each element, and which row comes first decides how the bytes are
read when an array of the same build is filled from it. After a list or tuple they are read as
signed numbers, which a row of bytes takes as the bytes they were. After a byte string or buffer
they are taken as bytes, which a list or tuple gets as numbers from 0 to 255.

So rows of bytes come back as they were, and lists and tuples do unless the array begins with a row
of bytes and they hold a negative number (`unflatten_flatten_mixed`).
-/

set_option autoImplicit false

namespace Stowage

namespace Value

/-- The row with its items changed, if it is a list or tuple. -/
def mapItems (f : Value → Value) : Value → Value
  | .list items => .list (items.map f)
  | .tuple items => .tuple (items.map f)
  | v => v

/-- The byte in which an element is stored, as a number. -/
def byteNumber (leaf : Value) : Value :=
  match NumberType.integerOf? leaf with
  | some i => .int (i % 256)
  | none => leaf

/-- A list, a tuple, or a row of bytes. -/
def IsMixedRow (row : Value) : Prop := row.isSequence = true ∨ ∃ data, row.data? = some data

variable {f g : Value → Value} {row : Value}

theorem alike_mapItems (h : row.isArray = true) : Alike 0 row (row.mapItems f) := by
  cases row with
  | list items | tuple items => exact ⟨trivial, (List.length_map f).symm⟩
  | bytes | buffer | packed => exact ⟨.refl h, rfl⟩
  | _ => exact absurd h Bool.false_ne_true

theorem mapItems_eq_iff (h : row.isSequence = true) :
    row.mapItems f = row.mapItems g ↔ ∀ leaf ∈ row.children, f leaf = g leaf := by
  cases row with
  | list items => exact (Value.list.injEq _ _).to_iff.trans List.map_inj_left
  | tuple items => exact (Value.tuple.injEq _ _).to_iff.trans List.map_inj_left
  | _ => exact absurd h Bool.false_ne_true

theorem mapItems_of_data? {data : Bytes} (h : row.data? = some data) : row.mapItems f = row := by
  cases row with
  | bytes | buffer => rfl
  | _ => exact absurd h (by simp [data?])

end Value

/-! ### Single bytes -/

/-- An element of eight bits is one byte, which is read as the number it was. -/
theorem exists_byte_of_store {leaf : Value} {bytes : Bytes}
    (h : NumberType.int8.store leaf = .ok bytes) :
    ∃ (i : Int) (b : UInt8), NumberType.integerOf? leaf = some i ∧ (-128 ≤ i ∧ i < 128) ∧
      bytes = [b] ∧ NumberType.int8.kept leaf = .int i ∧ leaf.byteNumber = .int b.toNat := by
  obtain ⟨i, hi, hrange, hkept⟩ := NumberType.kept_of_store_integer rfl h
  have hbounds : -128 ≤ i ∧ i < 128 := of_decide_eq_true hrange
  obtain ⟨b, rfl⟩ := List.length_eq_one_iff.1 (NumberType.length_of_store h)
  have hstored : NumberType.storeInteger 1 i = [b] := by
    obtain ⟨j, hj, _, hbytes⟩ := NumberType.integerOf?_of_storeInteger h
    obtain rfl := Option.some.inj (hi.symm.trans hj)
    exact hbytes.symm
  have hnat : b.toNat = (i % 256).toNat := by
    have hword := NumberType.toNat_storeInteger 1 i
    rw [hstored] at hword
    exact hword
  refine ⟨i, b, hi, hbounds, rfl, hkept, ?_⟩
  rw [Value.byteNumber, hi, hnat]
  exact congrArg Value.int (Int.toNat_of_nonneg (Int.emod_nonneg i (by decide))).symm

/-- A byte that was read as a signed number is stored in a row of bytes as it was. -/
theorem byteOf?_load (b : UInt8) : byteOf? (NumberType.int8.load [b]) = some b := by
  have hlt : b.toNat < 256 := b.toNat_lt
  generalize hi : PackedArray.signedWord 1 b.toNat = i
  have hunsigned : (if -128 ≤ i ∧ i < 0 then i + 256 else i) = (b.toNat : Int) := by
    have hword : i = if b.toNat < 128 then (b.toNat : Int) else (b.toNat : Int) - 256 := hi.symm
    split at hword
    · rw [if_neg (by omega), hword]
    · rw [if_pos (by omega), hword, Int.sub_add_cancel]
  have hload : NumberType.int8.load [b] = .int i := congrArg Value.int hi
  rw [hload, byteOf?, hunsigned, if_pos (by omega), Int.toNat_natCast, UInt8.ofNat_toNat]

theorem loadAll_int8 (raw : Bytes) :
    NumberType.int8.loadAll raw.length raw = raw.map fun b ↦ NumberType.int8.load [b] := by
  induction raw with
  | nil => rfl
  | cons b rest ih => exact congrArg _ ih

namespace Shape

variable {shape : Shape} {source target row : Value} {raw part : Bytes}

/-- What an element of a list or tuple has become when it is filled in again. -/
def reread (shape : Shape) (leaf : Value) : Value :=
  if shape.byteRows then leaf.byteNumber else NumberType.int8.kept leaf

/-- The elements that rows are filled with from a flat form of bytes. -/
def cellsFrom (shape : Shape) (raw : Bytes) : Cells :=
  if shape.byteRows then .bytes raw else .numbers (raw.map fun b ↦ NumberType.int8.load [b])

theorem cellsFrom_take (raw : Bytes) (n : Nat) :
    (shape.cellsFrom raw).take n = shape.cellsFrom (raw.take n) := by
  unfold cellsFrom
  split
  · rfl
  · exact congrArg Cells.numbers List.map_take.symm

theorem cellsFrom_drop (raw : Bytes) (n : Nat) :
    (shape.cellsFrom raw).drop n = shape.cellsFrom (raw.drop n) := by
  unfold cellsFrom
  split
  · rfl
  · exact congrArg Cells.numbers List.map_drop.symm

theorem readFlat_cellsFrom (htype : shape.type = .int8) (hlength : raw.length = shape.byteCount) :
    readFlat shape (.buffer raw) = .ok (shape.cellsFrom raw) := by
  unfold cellsFrom
  split
  · next hbytes => exact readFlat_bytes hbytes rfl hlength
  · next hbytes =>
    have hcount : shape.elementCount = raw.length := by
      rw [hlength, byteCount, htype]
      exact (Nat.one_mul _).symm
    rw [readFlat_numbers (Bool.eq_false_iff.2 hbytes) hlength, htype, hcount, loadAll_int8]

/-- The elements of the bytes in which values are stored. -/
theorem values_cellsFrom {values : List Value} (h : NumberType.int8.storeAll values = .ok part) :
    (shape.cellsFrom part).values = values.map shape.reread := by
  induction values generalizing part with
  | nil =>
    obtain rfl := Except.ok.inj h
    unfold cellsFrom
    split <;> rfl
  | cons leaf rest ih =>
    obtain ⟨first, others, hleaf, hrest, rfl⟩ := NumberType.storeAll_cons_eq_ok.1 h
    have hload := NumberType.load_of_store hleaf
    obtain ⟨i, b, _, _, rfl, _, hbyte⟩ := exists_byte_of_store hleaf
    have hothers := ih hrest
    unfold cellsFrom reread at hothers ⊢
    rw [List.map_cons, ← hothers]
    split
    · exact congrArg (· :: _) hbyte.symm
    · exact congrArg (· :: _) hload

/-- A row of bytes is filled with the bytes as they are. -/
theorem byteRow_cellsFrom (raw : Bytes) : byteRow (shape.cellsFrom raw) = .ok raw := by
  unfold cellsFrom
  split
  · rfl
  · have hbytes : (raw.map fun b ↦ NumberType.int8.load [b]).mapM byteOf? = some raw := by
      rw [Outcome.mapM_eq_some_iff, List.forall₂_map_left_iff]
      exact List.forall₂_same.2 fun b _ ↦ byteOf?_load b
    rw [byteRow, hbytes]

/-- Assumes: a row that is stored as some bytes, and one of the same kind. From these bytes the
other becomes the row with its items read again. -/
theorem fillRow_cellsFrom (htype : shape.type = .int8) (hrow : row.IsMixedRow)
    (hkind : row.SameKind target) (hpart : shape.encodeRow row = .ok part) :
    fillRow target (shape.cellsFrom part) = .ok (row.mapItems shape.reread) := by
  have hvalues {items : List Value} (hstored : shape.type.storeAll items = .ok part) :
      (shape.cellsFrom part).values = items.map shape.reread :=
    values_cellsFrom (htype ▸ hstored)
  cases row <;> cases target <;> simp only [Value.SameKind] at hkind
  case list => exact congrArg (fun values ↦ Except.ok (Value.list values)) (hvalues hpart)
  case tuple => exact congrArg (fun values ↦ Except.ok (Value.tuple values)) (hvalues hpart)
  case bytes | buffer =>
    obtain ⟨_, rfl⟩ := wholeRow_eq_ok.1 hpart
    rw [fillRow, byteRow_cellsFrom]
    rfl
  case packed =>
    rcases hrow with hsequence | ⟨data, hdata⟩
    · exact absurd hsequence Bool.false_ne_true
    · exact absurd hdata (by simp [Value.data?])

/-- Assumes: rows that are stored as some bytes, and rows of the same kinds and lengths. From these
bytes, one after another, the others become the rows with their items read again. -/
theorem fillEach_cellsFrom (htype : shape.type = .int8) {rows targets : List Value}
    {parts : List Bytes} (hrows : ∀ row ∈ rows, row.IsMixedRow)
    (hextents : ∀ row ∈ rows, row.extent = shape.rowLength)
    (hall : List.Forall₂ (Value.Alike 0) rows targets)
    (hparts : rows.mapM shape.encodeRow = .ok parts) :
    shape.fillEach targets (shape.cellsFrom parts.flatten) =
      .ok (rows.map (Value.mapItems shape.reread)) := by
  have hsize : shape.rowSize = shape.rowLength := by
    rw [rowSize, htype]
    exact Nat.one_mul _
  induction hall generalizing parts with
  | nil => rfl
  | @cons row target rows targets hlike _ ih =>
    obtain ⟨hrow, hrows⟩ := List.forall_mem_cons.1 hrows
    obtain ⟨hextent, hextents⟩ := List.forall_mem_cons.1 hextents
    rw [Outcome.mapM_cons_ok] at hparts
    obtain ⟨part, hpart, hrest⟩ := Outcome.bind_eq_ok.1 hparts
    obtain ⟨others, hothers, hsplit⟩ := Outcome.bind_eq_ok.1 hrest
    obtain rfl := Except.ok.inj hsplit
    have hlength : part.length = shape.rowLength :=
      (length_of_encodeRow hextent hpart).trans hsize
    rw [List.flatten_cons, fillEach, cellsFrom_take, cellsFrom_drop, List.take_left' hlength,
      List.drop_left' hlength, fillRow_cellsFrom htype hrow hlike.1 hpart]
    dsimp only
    rw [ih hrows hextents hothers]
    rfl

end Shape

/-! ### Flat forms and back -/

section Unflatten

variable {source target : Value} {shape : Shape} {flat : Flat}

/-- No list or tuple among the rows of an array holds a negative number. -/
def Shape.NonNegative (shape : Shape) (array : Value) : Prop :=
  ∀ row ∈ shape.rowsOf array, row.isSequence = true → ∀ leaf ∈ row.children,
    ∀ i, NumberType.integerOf? leaf = some i → 0 ≤ i

/-- Assumes: an array of eight-bit numbers that has a flat form, with lists, tuples and rows of
bytes as rows, and an array made of the same containers with the same shape, whose rows can be
replaced. The second can be filled from the flat form of the first, and becomes the first with the
items of lists and tuples read again. -/
theorem unflatten_flatten_reread (h : Shape.describe source (some .int8) = .ok shape)
    (hto : Shape.describe target (some .int8) = .ok shape)
    (hrows : ∀ row ∈ shape.rowsOf source, row.IsMixedRow)
    (halike : source.Alike shape.outerLengths.length target)
    (hreplaceable : source.Replaceable shape.outerLengths.length)
    (hflat : flatten source (some .int8) = .ok flat) :
    (unflatten (flat.value source) target (some .int8)).result =
      .ok (source.mapRows (Value.mapItems shape.reread) shape.outerLengths.length) := by
  have hfits := Shape.fits_of_describe h
  have htype := Shape.type_of_describe h
  have hlike : List.Forall₂ (Value.Alike 0) (shape.rowsOf source) (shape.rowsOf target) :=
    halike.rows
  obtain ⟨parts, hparts, hraw⟩ := exists_parts_of_flatten h hflat
  have hencode : shape.encodeRows 0 (shape.rowsOf source) = .ok parts.flatten :=
    Shape.encodeRows_eq_ok_iff.2 ⟨parts, hparts, rfl⟩
  have hlength := Shape.length_of_encodeRows hfits hencode
  have hfill := Shape.fillEach_cellsFrom htype hrows (fun row hrow ↦ (hfits.rows row hrow).2) hlike
    hparts
  have hmapped : source.Alike shape.outerLengths.length
      (source.mapRows (Value.mapItems shape.reread) shape.outerLengths.length) :=
    hfits.framed.alike_mapRows fun row hrow ↦ Value.alike_mapItems (hfits.rows row hrow).1
  have hrowsMapped := hfits.framed.rows_mapRows (Value.mapItems shape.reread)
  have hfilled : List.Forall₂ (Value.Alike 0) (shape.rowsOf target)
      ((shape.rowsOf source).map (Value.mapItems shape.reread)) := by
    rw [Shape.rowsOf, Shape.rowsOf, ← hrowsMapped]
    exact (halike.symm.trans hmapped).rows
  obtain ⟨result, hresult, hlikeResult, hrowsResult⟩ := unflatten_of_fillEach hto
    (halike.replaceable hreplaceable) (Shape.readFlat_cellsFrom htype hlength) hfill hfilled
  have hlikeSource := halike.trans hlikeResult
  have hsame := (hlikeSource.symm.trans hmapped).eq_of_rows (hlikeSource.framed hfits.framed)
    (hrowsResult.trans hrowsMapped.symm)
  rw [unflatten_eq_of_data? hraw, hresult, hsame]

/-- Items that are read again are what the type keeps of them when the first row is a list or tuple,
or when no list or tuple holds a negative number. -/
theorem mapItems_reread_eq_iff {row : Value} {part : Bytes} (htype : shape.type = .int8)
    (hrow : row.isSequence = true) (hpart : shape.encodeRow row = .ok part) :
    row.mapItems shape.reread = row.mapItems NumberType.int8.kept ↔
      (shape.byteRows = true → ∀ leaf ∈ row.children,
        ∀ i, NumberType.integerOf? leaf = some i → 0 ≤ i) := by
  rw [Value.mapItems_eq_iff hrow]
  by_cases hbytes : shape.byteRows = true
  · rw [imp_iff_right hbytes]
    refine forall₂_congr fun leaf hleaf ↦ ?_
    rw [Shape.encodeRow_of_isSequence hrow, htype] at hpart
    have hstorable : Shape.Storable ⟨[], .int8, false⟩ leaf :=
      Shape.exists_storeAll_iff.1 ⟨part, hpart⟩ leaf hleaf
    obtain ⟨bytes, hstored⟩ := hstorable
    obtain ⟨i, b, hi, hbounds, _, hkept, hbyte⟩ := exists_byte_of_store hstored
    rw [Shape.reread, if_pos hbytes, hkept, Value.byteNumber, hi, Value.int.injEq]
    constructor
    · intro hmod j hj
      obtain rfl := Option.some.inj hj
      omega
    · intro hnonneg
      have := hnonneg i rfl
      omega
  · constructor
    · exact fun _ h ↦ absurd h hbytes
    · intro _ leaf _
      rw [Shape.reread, if_neg hbytes]

/-- Assumes: an array of eight-bit numbers that has a flat form, with lists, tuples and rows of
bytes as rows, and an array made of the same containers with the same shape, whose rows can be
replaced. The second can be filled from the flat form of the first. It becomes the first array, with
truth values as 0 and 1, exactly when the first row is no row of bytes or no list or tuple holds a
negative number; otherwise each negative number has become that of its byte. -/
theorem unflatten_flatten_mixed (h : Shape.describe source (some .int8) = .ok shape)
    (hto : Shape.describe target (some .int8) = .ok shape)
    (hrows : ∀ row ∈ shape.rowsOf source, row.IsMixedRow)
    (halike : source.Alike shape.outerLengths.length target)
    (hreplaceable : source.Replaceable shape.outerLengths.length)
    (hflat : flatten source (some .int8) = .ok flat) :
    ∃ result, (unflatten (flat.value source) target (some .int8)).result = .ok result ∧
      result = source.mapRows (Value.mapItems shape.reread) shape.outerLengths.length ∧
      (result = source.mapRows (Value.mapItems NumberType.int8.kept) shape.outerLengths.length ↔
        (shape.byteRows = true → shape.NonNegative source)) := by
  have hfits := Shape.fits_of_describe h
  obtain ⟨parts, hparts, _⟩ := exists_parts_of_flatten h hflat
  refine ⟨_, unflatten_flatten_reread h hto hrows halike hreplaceable hflat, rfl, ?_⟩
  rw [hfits.framed.mapRows_eq_iff]
  constructor
  · intro heq hbytes row hrow hsequence
    obtain ⟨part, hpart⟩ := Outcome.exists_mapM_eq_ok_iff.1 ⟨parts, hparts⟩ row hrow
    exact (mapItems_reread_eq_iff (Shape.type_of_describe h) hsequence hpart).1 (heq row hrow)
      hbytes
  · intro hnonneg row hrow
    rcases hrows row hrow with hsequence | ⟨data, hdata⟩
    · obtain ⟨part, hpart⟩ := Outcome.exists_mapM_eq_ok_iff.1 ⟨parts, hparts⟩ row hrow
      exact (mapItems_reread_eq_iff (Shape.type_of_describe h) hsequence hpart).2 fun hbytes ↦
        hnonneg hbytes row hrow hsequence
    · rw [Value.mapItems_of_data? hdata, Value.mapItems_of_data? hdata]

/-- A list with a negative number comes back from a flat form when it stands before the bytes. -/
theorem unflatten_flatten_mixed_listed :
    let source := Value.list [.list [.int (-1), .bool true], .bytes [255, 1]]
    let target := Value.list [.list [.int 0, .int 0], .bytes [0, 0]]
    flatten source (some .int8) = .ok (.fresh [255, 1, 255, 1]) ∧
      (unflatten (.buffer [255, 1, 255, 1]) target (some .int8)).result =
        .ok (.list [.list [.int (-1), .int 1], .bytes [255, 1]]) := by
  intro source target
  let shape : Shape := ⟨[2, 2], .int8, false⟩
  have h : Shape.describe source (some .int8) = .ok shape := by rfl
  have hto : Shape.describe target (some .int8) = .ok shape := by rfl
  have hflat : flatten source (some .int8) = .ok (.fresh [255, 1, 255, 1]) := by
    dsimp only [source]
    rfl
  have hrows : ∀ row ∈ shape.rowsOf source, row.IsMixedRow :=
    List.forall_mem_cons.2 ⟨.inl rfl, List.forall_mem_singleton.2 (.inr ⟨_, rfl⟩)⟩
  have halike : source.Alike shape.outerLengths.length target :=
    ⟨trivial, .cons ⟨trivial, rfl⟩ (.cons ⟨trivial, rfl⟩ .nil)⟩
  have hreplaceable : source.Replaceable shape.outerLengths.length :=
    fun parent hparent ↦ .inl ⟨_, List.mem_singleton.1 hparent⟩
  obtain ⟨result, hresult, _, hkept⟩ :=
    unflatten_flatten_mixed h hto hrows halike hreplaceable hflat
  refine ⟨hflat, hresult.trans (congrArg Except.ok ?_)⟩
  exact hkept.2 fun hbytes ↦ absurd hbytes Bool.false_ne_true

/-- A list with a negative number does not come back from a flat form when it stands behind a byte
string. -/
theorem unflatten_flatten_negative_behind_bytes :
    let source := Value.list [.bytes [0, 0], .list [.int (-1), .int 1]]
    Shape.describe source (some .int8) = .ok ⟨[2, 2], .int8, true⟩ ∧
      flatten source (some .int8) = .ok (.fresh [0, 0, 255, 1]) ∧
      (unflatten (.buffer [0, 0, 255, 1]) source (some .int8)).result =
        .ok (.list [.bytes [0, 0], .list [.int 255, .int 1]]) ∧
      (unflatten (.buffer [0, 0, 255, 1]) source (some .int8)).result ≠ .ok source := by
  intro source
  have hresult : (unflatten (.buffer [0, 0, 255, 1]) source (some .int8)).result =
      .ok (.list [.bytes [0, 0], .list [.int 255, .int 1]]) := by
    dsimp only [source]
    rfl
  refine ⟨by rfl, by dsimp only [source]; rfl, hresult, ?_⟩
  rw [hresult]
  simp [source]

end Unflatten

end Stowage
