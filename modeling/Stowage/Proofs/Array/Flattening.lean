import Stowage.Array.Flatten
import Stowage.Proofs.Array.Traversal
import Stowage.Proofs.Number.Items

/-!
# Flat forms hold the rows in order

Each row has bytes of its own (`Shape.encodeRow`), and packing rows writes them at their offsets, so
the flat form of an array is the bytes of its rows, back to back, or the fault of the first row that
has none (`flatten_eq`). For rows of lists and tuples these are the bytes of the elements, one after
another; typed arrays, byte strings and buffers are taken as they are (`flatten_rowMajor`).
-/

set_option autoImplicit false

namespace Stowage

open Heap (overwrite)
open Shape (digits length_digits)

namespace Shape

/-! ### Rows by themselves -/

/-- Bytes that are a row by themselves. -/
def wholeRow (shape : Shape) (data : Bytes) : Except Fault Bytes :=
  if data.length = shape.rowSize then .ok data
  else .error (.conversion (.rowBytes data.length shape.rowSize))

/-- The bytes of a row by itself. -/
def encodeRow (shape : Shape) : (row : Value) → Except Fault Bytes
  | .list items | .tuple items => shape.type.storeAll items
  | .bytes data | .buffer data => shape.wholeRow data
  | .packed array => shape.wholeRow array.toBytes
  | _ => .error .operand

/-- The fault of a row that starts at a byte offset. -/
def rowFault (offset : Nat) : Fault → Fault
  | .storage => .conversion (.row offset)
  | fault => fault

/-- The bytes of rows back to back, the first with the given number. -/
def encodeRows (shape : Shape) : (number : Nat) → (rows : List Value) → Except Fault Bytes
  | _, [] => .ok []
  | number, row :: rest =>
    match shape.encodeRow row with
    | .error fault => .error (rowFault (number * shape.rowSize) fault)
    | .ok data => (shape.encodeRows (number + 1) rest).map (data ++ ·)

variable {shape : Shape} {row : Value} {rows : List Value} {out data : Bytes}

/-- Rows have bytes together when each of them has. -/
theorem encodeRows_eq_ok_iff {number : Nat} :
    shape.encodeRows number rows = .ok data ↔
      ∃ parts, rows.mapM shape.encodeRow = .ok parts ∧ data = parts.flatten := by
  induction rows generalizing number data with
  | nil =>
    constructor
    · exact fun h ↦ ⟨[], rfl, (Except.ok.inj h).symm⟩
    · rintro ⟨parts, hparts, rfl⟩
      obtain rfl := Except.ok.inj hparts
      rfl
  | cons row rest ih =>
    rw [encodeRows, Outcome.mapM_cons_ok]
    rcases shape.encodeRow row with fault | part
    · simp
    · simp only [Outcome.ok_bind, Outcome.map_eq_ok, ih, Outcome.bind_eq_ok]
      constructor
      · rintro ⟨_, ⟨parts, hparts, rfl⟩, rfl⟩
        exact ⟨part :: parts, ⟨parts, hparts, rfl⟩, rfl⟩
      · rintro ⟨_, ⟨parts, hparts, hall⟩, rfl⟩
        obtain rfl := Except.ok.inj hall
        exact ⟨parts.flatten, ⟨parts, hparts, rfl⟩, rfl⟩

/-- The first row without bytes decides the fault. -/
theorem encodeRows_eq_error {number : Nat} {fault : Fault}
    (h : shape.encodeRows number rows = .error fault) :
    ∃ before row after cause, rows = before ++ row :: after ∧
      (∀ earlier ∈ before, ∃ part, shape.encodeRow earlier = .ok part) ∧
      shape.encodeRow row = .error cause ∧
      fault = rowFault ((number + before.length) * shape.rowSize) cause := by
  induction rows generalizing number with
  | nil => exact absurd h (by simp [encodeRows])
  | cons row rest ih =>
    rw [encodeRows] at h
    rcases hrow : shape.encodeRow row with cause | part
    · rw [hrow] at h
      exact ⟨[], row, rest, cause, rfl, fun _ hmem ↦ absurd hmem List.not_mem_nil, hrow,
        (Except.error.inj h).symm⟩
    · rw [hrow] at h
      rcases hrest : shape.encodeRows (number + 1) rest with cause | others
      · rw [hrest] at h
        obtain rfl := Except.error.inj h
        obtain ⟨before, other, after, first, rfl, hbefore, hother, hfault⟩ := ih hrest
        refine ⟨row :: before, other, after, first, rfl,
          List.forall_mem_cons.2 ⟨⟨part, hrow⟩, hbefore⟩, hother, ?_⟩
        rw [hfault, List.length_cons, Nat.add_right_comm, Nat.add_assoc]
      · rw [hrest] at h
        exact absurd h (by simp [Except.map])

theorem wholeRow_eq_ok {raw : Bytes} :
    shape.wholeRow raw = .ok data ↔ raw.length = shape.rowSize ∧ raw = data := by
  unfold wholeRow
  split <;> simp_all

theorem length_of_encodeRow (hextent : row.extent = shape.rowLength)
    (h : shape.encodeRow row = .ok data) : data.length = shape.rowSize := by
  cases row with
  | list items | tuple items =>
    have hitems : items.length = shape.rowLength := hextent
    have hstored : shape.type.storeAll items = .ok data := h
    rw [NumberType.storeAll_eq_mapM] at hstored
    obtain ⟨parts, hparts, rfl⟩ := Outcome.map_eq_ok.1 hstored
    have hall := Outcome.mapM_eq_ok_iff.1 hparts
    have hlengths : ∀ part ∈ parts, part.length = shape.type.size :=
      ((List.forall₂_and_left parts items).1
        (hall.flip.imp fun _ _ h ↦ ⟨NumberType.length_of_store h, h⟩)).1
    rw [Bytes.length_flatten_of_forall hlengths, ← hall.length_eq, hitems, rowSize, Nat.mul_comm]
  | bytes raw | buffer raw =>
    obtain ⟨hlength, rfl⟩ := wholeRow_eq_ok.1 h
    exact hlength
  | packed array =>
    obtain ⟨hlength, rfl⟩ := wholeRow_eq_ok.1 h
    exact hlength
  | _ => exact absurd h (by simp [encodeRow])

/-- Each row has as many bytes as a row takes up. -/
theorem length_of_mem_parts {array : Value} (h : shape.Fits array) {parts : List Bytes}
    (hparts : (shape.rowsOf array).mapM shape.encodeRow = .ok parts) :
    ∀ part ∈ parts, part.length = shape.rowSize := by
  intro part hpart
  obtain ⟨row, hrow, hencode⟩ :=
    Outcome.exists_mem_of_forall₂ (Outcome.mapM_eq_ok_iff.1 hparts) hpart
  exact length_of_encodeRow (h.rows row hrow).2 hencode

/-- The bytes of all rows have the size of the array. -/
theorem length_of_encodeRows {array : Value} {number : Nat} (h : shape.Fits array)
    (hencode : shape.encodeRows number (shape.rowsOf array) = .ok data) :
    data.length = shape.byteCount := by
  obtain ⟨parts, hparts, rfl⟩ := encodeRows_eq_ok_iff.1 hencode
  have hall := Outcome.mapM_eq_ok_iff.1 hparts
  have hrows : (shape.rowsOf array).length = shape.rowCount := h.framed.length_rows
  rw [Bytes.length_flatten_of_forall (length_of_mem_parts h hparts), ← hall.length_eq, hrows,
    h.byteCount_eq]

/-- A row is packed by writing its own bytes at its offset. -/
theorem packRow_eq {offset : Nat} (harray : row.isArray = true)
    (hextent : row.extent = shape.rowLength) (hroom : offset + shape.rowSize ≤ out.length) :
    packRow shape out offset row = match shape.encodeRow row with
      | .ok data => .ok (overwrite offset data out)
      | .error fault => .error (rowFault offset fault) := by
  have hitems {items : List Value} (hcount : items.length = shape.rowLength) :
      packInto shape.type shape.rowLength out offset items =
        (shape.type.storeAll items).map (overwrite offset · out) := by
    rw [packInto, if_neg (not_not.2 hcount), Bytes.wordStart?_natCast, ← rowSize, if_pos hroom]
    rfl
  have hraw {raw : Bytes} :
      (if raw.length = shape.rowSize then
        .ok (Bytes.splice out (offset : Int) ((offset : Int) + (shape.rowSize : Int)) raw)
      else .error (.conversion (.rowBytes raw.length shape.rowSize))) =
        match shape.wholeRow raw with
        | .ok data => Except.ok (overwrite offset data out)
        | .error fault => .error (rowFault offset fault) := by
    unfold wholeRow
    split
    · next hlength => exact congrArg _ (Bytes.splice_eq_overwrite hlength hroom)
    · rfl
  cases row with
  | list items | tuple items =>
    have hcount : items.length = shape.rowLength := hextent
    rw [packRow, encodeRow]
    simp only [hitems hcount]
    cases shape.type.storeAll items with
    | ok data => rfl
    | error fault => cases fault <;> rfl
  | bytes raw | buffer raw => exact hraw
  | packed array => exact hraw
  | _ => exact absurd harray (by simp [Value.isArray])

end Shape

/-! ### The loop over the rows -/

section Rows

variable {shape : Shape} {array : Value}

/-- Assumes: a walk that stands at some row, and room for the row at the cursor. The next round of
the loop writes the bytes of this row at its offset and stands there, or ends with its fault. -/
theorem packRows_of_row (h : shape.Fits array) {path : List Nat}
    (hpath : path.length = shape.outerLengths.length) {number : Nat} {row : Value}
    (hrow : (shape.rowsOf array)[number]? = some row) {out : Bytes}
    (hroom : number * shape.rowSize + shape.rowSize ≤ out.length) (count : Nat) :
    packRows (count + 1) (.standing shape array path) (.ready (number * shape.rowSize)) out =
      match shape.encodeRow row with
      | .ok data => packRows count (.standing shape array (digits shape.outerLengths number))
          (.ready ((number + 1) * shape.rowSize)) (overwrite (number * shape.rowSize) data out)
      | .error fault => .error (Shape.rowFault (number * shape.rowSize) fault) := by
  obtain ⟨harray, hextent⟩ := h.rows row (List.mem_of_getElem? hrow)
  rw [packRows, Walk.pull_row h.toRegular h.framed hpath hrow]
  dsimp only [Walk.shape_standing]
  rw [Shape.packRow_eq harray hextent hroom]
  cases shape.encodeRow row <;> rfl

/-- Assumes: a walk that stands at the row before the one with the given number, and a cursor at
this one. The rest of the loop writes the bytes of the rows from this one on at its offset. -/
theorem packRows_standing (h : shape.Fits array) {count number : Nat}
    (hcount : number + count = shape.rowCount) {out : Bytes}
    (hout : out.length = shape.byteCount) :
    packRows (count + 1) (.standing shape array (digits shape.outerLengths (number - 1)))
        (.ready (number * shape.rowSize)) out =
      (shape.encodeRows number ((shape.rowsOf array).drop number)).map
        (overwrite (number * shape.rowSize) · out) := by
  have hrows : (shape.rowsOf array).length = shape.rowCount := h.framed.length_rows
  induction count generalizing number out with
  | zero =>
    obtain rfl : number = shape.rowCount := hcount
    rw [packRows, Walk.pull_end h.toRegular, List.drop_of_length_le (Nat.le_of_eq hrows)]
    exact congrArg _ (Bytes.overwrite_nil _ out).symm
  | succ count ih =>
    have hlt : number < (shape.rowsOf array).length := by omega
    have hrow := List.getElem?_eq_getElem hlt
    have hdrop := List.drop_eq_getElem_cons hlt
    generalize (shape.rowsOf array)[number] = row at hrow hdrop
    have hroom : number * shape.rowSize + shape.rowSize ≤ out.length := by
      rw [hout, h.byteCount_eq, ← Nat.succ_mul]
      exact Nat.mul_le_mul_right _ (by omega)
    rw [packRows_of_row h (length_digits _ _) hrow hroom, hdrop, Shape.encodeRows]
    rcases hencode : shape.encodeRow row with fault | data
    · rfl
    · have hlength : data.length = shape.rowSize :=
        Shape.length_of_encodeRow (h.rows row (List.mem_of_getElem? hrow)).2 hencode
      have hwritten : (overwrite (number * shape.rowSize) data out).length = shape.byteCount := by
        rw [Bytes.length_overwrite (hlength ▸ hroom), hout]
      have hrest : number + 1 + count = shape.rowCount := by omega
      have hbehind : (number + 1) * shape.rowSize = number * shape.rowSize + data.length := by
        rw [hlength, Nat.succ_mul]
      have hnext := ih hrest hwritten
      rw [Nat.add_sub_cancel] at hnext
      dsimp only
      rw [hnext]
      rcases shape.encodeRows (number + 1) ((shape.rowsOf array).drop (number + 1)) with _ | others
      · rfl
      · dsimp only [Except.map]
        rw [hbehind, Bytes.overwrite_overwrite_next (hlength ▸ hroom)]

/-- The flat form of an array, unless this is the array itself, has the bytes of its rows back to
back. -/
theorem flatten_eq {wanted : Option NumberType} (h : Shape.describe array wanted = .ok shape)
    (hfresh : ¬(shape.rank = 1 ∧ shape.byteRows = true)) :
    flatten array wanted = (shape.encodeRows 0 (shape.rowsOf array)).map .fresh := by
  have hfits := Shape.fits_of_describe h
  have hpacked := packRows_standing hfits (Nat.zero_add shape.rowCount)
    (Bytes.length_zeros shape.byteCount)
  rw [Nat.zero_mul, Nat.zero_sub, List.drop_zero] at hpacked
  rw [flatten, Walk.ofArray_eq_ok h, Outcome.ok_bind]
  refine (if_neg hfresh).trans ?_
  dsimp only [Walk.shape_standing]
  rw [hpacked]
  rcases hencode : shape.encodeRows 0 (shape.rowsOf array) with fault | data
  · rfl
  · have hlength := Shape.length_of_encodeRows hfits hencode
    refine congrArg (fun data ↦ Except.ok (Flat.fresh data)) ?_
    exact Bytes.overwrite_zero (hlength.trans (Bytes.length_zeros _).symm)

end Rows

/-! ### Rows of one kind -/

/-- The bytes of a row that is taken as it is. -/
def Value.rawBytes : Value → Bytes
  | .bytes data | .buffer data => data
  | .packed array => array.toBytes
  | _ => []

theorem Value.rawBytes_of_data? {v : Value} {data : Bytes} (h : v.data? = some data) :
    v.rawBytes = data := by
  cases v with
  | bytes | buffer => exact Option.some.inj h
  | _ => exact absurd h (by simp [Value.data?])

theorem PackedArray.length_toBytes (array : PackedArray) :
    array.toBytes.length = array.words.length * array.code.size :=
  length_flatMap_of_forall fun word _ ↦ Bytes.length_ofNat _ word

namespace Shape

variable {shape : Shape} {array : Value} {rows : List Value}

/-- Whether a value can be stored as an element. -/
def Storable (shape : Shape) (leaf : Value) : Prop := ∃ bytes, shape.type.store leaf = .ok bytes

/-- The fault of the first row that has an element which cannot be stored, for the first such
element of this row. -/
def FirstRefused (shape : Shape) (array : Value) (fault : Fault) : Prop :=
  ∃ before row after, shape.rowsOf array = before ++ row :: after ∧
    (∀ earlier ∈ before, ∀ leaf ∈ earlier.children, shape.Storable leaf) ∧
    ∃ first leaf rest cause, row.children = first ++ leaf :: rest ∧
      (∀ other ∈ first, shape.Storable other) ∧ shape.type.store leaf = .error cause ∧
      fault = rowFault (before.length * shape.rowSize) cause

theorem storeAll_flatMap (type : NumberType) (rows : List Value) :
    type.storeAll (rows.flatMap Value.children) =
      (rows.mapM fun row ↦ type.storeAll row.children).map List.flatten := by
  induction rows with
  | nil => rfl
  | cons row rest ih =>
    rw [List.flatMap_cons, NumberType.storeAll_append, ih, Outcome.mapM_cons_ok]
    rcases type.storeAll row.children with fault | bytes
    · rfl
    · generalize (rest.mapM fun row ↦ type.storeAll row.children) = others
      cases others <;> rfl

/-- A list or a tuple has the bytes of its items. -/
theorem encodeRow_of_isSequence {row : Value} (h : row.isSequence = true) :
    shape.encodeRow row = shape.type.storeAll row.children := by
  cases row with
  | list | tuple => rfl
  | _ => exact absurd h (by simp [Value.isSequence])

theorem exists_storeAll_iff {values : List Value} :
    (∃ bytes, shape.type.storeAll values = .ok bytes) ↔ ∀ v ∈ values, shape.Storable v := by
  rw [NumberType.storeAll_eq_mapM]
  simp only [Outcome.map_eq_ok]
  refine Iff.trans ?_ Outcome.exists_mapM_eq_ok_iff
  exact ⟨fun ⟨_, parts, hparts, _⟩ ↦ ⟨parts, hparts⟩, fun ⟨parts, hparts⟩ ↦ ⟨_, parts, hparts, rfl⟩⟩

/-- Rows of lists and tuples have the bytes of their elements. -/
theorem encodeRows_eq_ok_iff_storeAll {data : Bytes} {number : Nat}
    (hrows : ∀ row ∈ rows, row.isSequence = true) :
    shape.encodeRows number rows = .ok data ↔
      shape.type.storeAll (rows.flatMap Value.children) = .ok data := by
  rw [encodeRows_eq_ok_iff, storeAll_flatMap, Outcome.map_eq_ok,
    Outcome.mapM_congr fun row hrow ↦ encodeRow_of_isSequence (hrows row hrow)]
  simp only [eq_comm]

/-- Rows that are taken as they are have their own bytes. -/
theorem encodeRows_eq_ok_of_raw {number : Nat}
    (hrows : ∀ row ∈ rows, shape.encodeRow row = .ok row.rawBytes) :
    shape.encodeRows number rows = .ok (rows.flatMap Value.rawBytes) := by
  refine encodeRows_eq_ok_iff.2 ⟨rows.map Value.rawBytes, ?_, List.flatMap_def⟩
  rw [Outcome.mapM_congr hrows]
  exact List.mapM_pure

theorem FirstRefused.of_encodeRows {fault : Fault}
    (hrows : ∀ row ∈ shape.rowsOf array, row.isSequence = true)
    (h : shape.encodeRows 0 (shape.rowsOf array) = .error fault) :
    shape.FirstRefused array fault := by
  obtain ⟨before, row, after, cause, hsplit, hbefore, hrow, rfl⟩ := encodeRows_eq_error h
  rw [hsplit] at hrows
  obtain ⟨hrowsBefore, hrowsAfter⟩ := List.forall_mem_append.1 hrows
  rw [encodeRow_of_isSequence (hrowsAfter row List.mem_cons_self),
    NumberType.storeAll_eq_mapM] at hrow
  refine ⟨before, row, after, hsplit, fun earlier hearlier ↦ ?_, ?_⟩
  · have hparts := hbefore earlier hearlier
    rw [encodeRow_of_isSequence (hrowsBefore earlier hearlier)] at hparts
    exact exists_storeAll_iff.1 hparts
  · rcases hitems : row.children.mapM shape.type.store with fault | parts
    · rw [hitems] at hrow
      obtain rfl := Except.error.inj hrow
      obtain ⟨first, leaf, rest, hchildren, hfirst, hleaf⟩ := Outcome.mapM_eq_error_iff.1 hitems
      exact ⟨first, leaf, rest, _, hchildren, hfirst, hleaf, by rw [Nat.zero_add]⟩
    · rw [hitems] at hrow
      exact absurd hrow (by simp [Except.map])

namespace Fits

/-- Rows of another kind are no rows of bytes. -/
theorem byteRows_eq_false (h : shape.Fits array)
    (hrows : ∀ row ∈ shape.rowsOf array, row.data? = none) : shape.byteRows = false := by
  obtain ⟨row, hrow, hfixed⟩ := h.fixed
  have hdata := hrows row (List.mem_of_head? hrow)
  cases row with
  | list | tuple => exact hfixed
  | packed => exact hfixed.2
  | bytes | buffer => exact absurd hdata (by simp [Value.data?])
  | _ => exact hfixed.elim

/-- Typed arrays as rows hold numbers of the type of the shape. -/
theorem numberType?_of_packed (h : shape.Fits array) {code : ItemCode}
    (hrows : ∀ row ∈ shape.rowsOf array, ∃ words, row = .packed ⟨code, words⟩) :
    PackedArray.numberType? code = some shape.type ∧ shape.byteRows = false := by
  obtain ⟨row, hrow, hfixed⟩ := h.fixed
  obtain ⟨words, rfl⟩ := hrows row (List.mem_of_head? hrow)
  exact hfixed

/-- Rows of bytes hold numbers of one byte. -/
theorem type_of_data (h : shape.Fits array)
    (hrows : ∀ row ∈ shape.rowsOf array, ∃ data, row.data? = some data) :
    shape.type = .int8 ∧ shape.byteRows = true := by
  obtain ⟨row, hrow, hfixed⟩ := h.fixed
  obtain ⟨data, hdata⟩ := hrows row (List.mem_of_head? hrow)
  cases row with
  | bytes | buffer => exact hfixed
  | _ => exact absurd hdata (by simp [Value.data?])

theorem encodeRow_of_packed (h : shape.Fits array) {code : ItemCode}
    (hcode : PackedArray.numberType? code = some shape.type) {words : List Nat}
    (hrow : .packed ⟨code, words⟩ ∈ shape.rowsOf array) :
    shape.encodeRow (.packed ⟨code, words⟩) =
      .ok (Value.packed ⟨code, words⟩).rawBytes := by
  have hextent : words.length = shape.rowLength := (h.rows _ hrow).2
  refine wholeRow_eq_ok.2 ⟨?_, rfl⟩
  rw [PackedArray.length_toBytes, hextent, rowSize, PackedArray.size_of_numberType? hcode,
    Nat.mul_comm]

theorem encodeRow_of_data (h : shape.Fits array)
    (hrows : ∀ row ∈ shape.rowsOf array, ∃ data, row.data? = some data) {row : Value}
    (hrow : row ∈ shape.rowsOf array) : shape.encodeRow row = .ok row.rawBytes := by
  have hsize : shape.rowSize = shape.rowLength := by
    rw [rowSize, (h.type_of_data hrows).1]
    exact Nat.one_mul _
  have hextent := (h.rows row hrow).2
  obtain ⟨data, hdata⟩ := hrows row hrow
  cases row with
  | bytes raw | buffer raw => exact wholeRow_eq_ok.2 ⟨hextent.trans hsize.symm, rfl⟩
  | _ => exact absurd hdata (by simp [Value.data?])

/-- Rows that are taken as they are have the size of the array together. -/
theorem length_rawBytes (h : shape.Fits array)
    (hrows : ∀ row ∈ shape.rowsOf array, shape.encodeRow row = .ok row.rawBytes) :
    ((shape.rowsOf array).flatMap Value.rawBytes).length = shape.byteCount := by
  have hencode : shape.encodeRows 0 (shape.rowsOf array) =
      .ok ((shape.rowsOf array).flatMap Value.rawBytes) := encodeRows_eq_ok_of_raw hrows
  exact length_of_encodeRows h hencode

end Fits

/-- Items that are read and written as they are have the bytes of their row. -/
theorem storeAll_items {code : ItemCode} (hcode : PackedArray.numberType? code = some shape.type)
    {words : List Nat} (hwords : ∀ word ∈ words, PackedArray.Plain code word) :
    shape.type.storeAll (Value.packed ⟨code, words⟩).children =
      .ok (Value.packed ⟨code, words⟩).rawBytes := by
  change shape.type.storeAll (words.map (PackedArray.item code)) =
    .ok (words.flatMap (Bytes.ofNat code.size))
  induction words with
  | nil => rfl
  | cons word rest ih =>
    obtain ⟨hword, hrest⟩ := List.forall_mem_cons.1 hwords
    rw [List.map_cons, NumberType.storeAll, PackedArray.store_item hcode hword, ih hrest]
    rfl

end Shape

/-! ### Flat forms -/

section Flat

variable {array : Value} {wanted : Option NumberType} {shape : Shape}

theorem flatten_of_isSequence (h : Shape.describe array wanted = .ok shape)
    (hrows : ∀ row ∈ shape.rowsOf array, row.isSequence = true) :
    ((∃ flat, flatten array wanted = .ok flat) ↔
        ∀ leaf ∈ shape.leavesOf array, shape.Storable leaf) ∧
      (∀ flat, flatten array wanted = .ok flat →
        ∃ parts, (shape.leavesOf array).mapM shape.type.store = .ok parts ∧
          flat = .fresh parts.flatten ∧ parts.flatten.length = shape.byteCount) ∧
      ∀ fault, flatten array wanted = .error fault → shape.FirstRefused array fault := by
  have hfits := Shape.fits_of_describe h
  have hbytes := hfits.byteRows_eq_false fun row hrow ↦ Value.data?_of_isSequence (hrows row hrow)
  rw [flatten_eq h (by simp [hbytes])]
  have hstored (data : Bytes) : shape.encodeRows 0 (shape.rowsOf array) = .ok data ↔
      shape.type.storeAll (shape.leavesOf array) = .ok data :=
    Shape.encodeRows_eq_ok_iff_storeAll hrows
  refine ⟨?_, fun flat hflat ↦ ?_, fun fault hfault ↦ ?_⟩
  · rw [← Shape.exists_storeAll_iff]
    simp only [Outcome.map_eq_ok, hstored]
    exact ⟨fun ⟨_, data, hdata, _⟩ ↦ ⟨data, hdata⟩, fun ⟨data, hdata⟩ ↦ ⟨_, data, hdata, rfl⟩⟩
  · obtain ⟨data, hdata, rfl⟩ := Outcome.map_eq_ok.1 hflat
    have hlength := Shape.length_of_encodeRows hfits hdata
    rw [hstored, NumberType.storeAll_eq_mapM] at hdata
    obtain ⟨parts, hparts, rfl⟩ := Outcome.map_eq_ok.1 hdata
    exact ⟨parts, hparts, rfl, hlength⟩
  · rcases hencode : shape.encodeRows 0 (shape.rowsOf array) with cause | data
    · rw [hencode] at hfault
      obtain rfl := Except.error.inj hfault
      exact .of_encodeRows hrows hencode
    · rw [hencode] at hfault
      exact absurd hfault (by simp [Except.map])

/-- Rows that are taken as they are make up the flat form. -/
theorem flatten_of_raw (h : Shape.describe array wanted = .ok shape)
    (hfresh : ¬(shape.rank = 1 ∧ shape.byteRows = true))
    (hrows : ∀ row ∈ shape.rowsOf array, shape.encodeRow row = .ok row.rawBytes) :
    flatten array wanted = .ok (.fresh ((shape.rowsOf array).flatMap Value.rawBytes)) ∧
      ((shape.rowsOf array).flatMap Value.rawBytes).length = shape.byteCount := by
  have hencode : shape.encodeRows 0 (shape.rowsOf array) =
      .ok ((shape.rowsOf array).flatMap Value.rawBytes) := Shape.encodeRows_eq_ok_of_raw hrows
  rw [flatten_eq h hfresh, hencode]
  exact ⟨rfl, (Shape.fits_of_describe h).length_rawBytes hrows⟩

/-- Flattening is row-major packing. An array with rows of lists and tuples has a flat form when
every element can be stored; then it holds the elements in order, and otherwise the first row with
another element is refused. Rows that are typed arrays of one kind, or byte strings and buffers
inside another dimension, are laid out as they are; items of typed arrays have the bytes they are
stored in. -/
theorem flatten_rowMajor (h : Shape.describe array wanted = .ok shape) :
    ((∀ row ∈ shape.rowsOf array, row.isSequence = true) →
      ((∃ flat, flatten array wanted = .ok flat) ↔
          ∀ leaf ∈ shape.leavesOf array, shape.Storable leaf) ∧
        (∀ flat, flatten array wanted = .ok flat →
          ∃ parts, (shape.leavesOf array).mapM shape.type.store = .ok parts ∧
            flat = .fresh parts.flatten ∧ parts.flatten.length = shape.byteCount) ∧
        ∀ fault, flatten array wanted = .error fault → shape.FirstRefused array fault) ∧
    (∀ code, (∀ row ∈ shape.rowsOf array, ∃ words, row = .packed ⟨code, words⟩) →
      (flatten array wanted = .ok (.fresh ((shape.rowsOf array).flatMap Value.rawBytes)) ∧
        ((shape.rowsOf array).flatMap Value.rawBytes).length = shape.byteCount) ∧
        ((∀ words, .packed ⟨code, words⟩ ∈ shape.rowsOf array →
            ∀ word ∈ words, PackedArray.Plain code word) →
          ∃ parts, (shape.leavesOf array).mapM shape.type.store = .ok parts ∧
            parts.flatten = (shape.rowsOf array).flatMap Value.rawBytes)) ∧
    (1 < shape.rank → (∀ row ∈ shape.rowsOf array, ∃ data, row.data? = some data) →
      flatten array wanted = .ok (.fresh ((shape.rowsOf array).flatMap Value.rawBytes)) ∧
        ((shape.rowsOf array).flatMap Value.rawBytes).length = shape.byteCount) := by
  have hfits := Shape.fits_of_describe h
  refine ⟨flatten_of_isSequence h, fun code hrows ↦ ⟨?_, fun hplain ↦ ?_⟩, fun hrank hrows ↦ ?_⟩
  · obtain ⟨hcode, hbytes⟩ := hfits.numberType?_of_packed hrows
    refine flatten_of_raw h (by simp [hbytes]) fun row hrow ↦ ?_
    obtain ⟨words, rfl⟩ := hrows row hrow
    exact hfits.encodeRow_of_packed hcode hrow
  · obtain ⟨hcode, _⟩ := hfits.numberType?_of_packed hrows
    have hparts : (shape.rowsOf array).mapM (fun row ↦ shape.type.storeAll row.children) =
        .ok ((shape.rowsOf array).map Value.rawBytes) := by
      refine (Outcome.mapM_congr fun row hrow ↦ ?_).trans List.mapM_pure
      obtain ⟨words, rfl⟩ := hrows row hrow
      exact Shape.storeAll_items hcode (hplain words hrow)
    have hstored : shape.type.storeAll (shape.leavesOf array) =
        .ok ((shape.rowsOf array).flatMap Value.rawBytes) := by
      rw [Shape.leavesOf, Shape.storeAll_flatMap, hparts, List.flatMap_def]
      rfl
    rw [NumberType.storeAll_eq_mapM] at hstored
    obtain ⟨parts, hparts, hflatten⟩ := Outcome.map_eq_ok.1 hstored
    exact ⟨parts, hparts, hflatten⟩
  · exact flatten_of_raw h (by omega) fun row hrow ↦ hfits.encodeRow_of_data hrows hrow

/-- Two rows of 16-bit numbers, the last of them a truth value, are laid out one after another. -/
theorem flatten_rowMajor_nested :
    let array := Value.list [.tuple [.int 1, .int (-2)], .list [.int 300, .bool true]]
    Shape.describe array (some .int16) = .ok ⟨[2, 2], .int16, false⟩ ∧
      flatten array (some .int16) = .ok (.fresh [1, 0, 254, 255, 44, 1, 1, 0]) := by
  intro array
  have h : Shape.describe array (some .int16) = .ok ⟨[2, 2], .int16, false⟩ := by rfl
  have hparts : (Shape.leavesOf ⟨[2, 2], .int16, false⟩ array).mapM NumberType.int16.store =
      .ok [[1, 0], [254, 255], [44, 1], [1, 0]] := by rfl
  have hrows : ∀ row ∈ Shape.rowsOf ⟨[2, 2], .int16, false⟩ array, row.isSequence = true := by
    decide
  obtain ⟨hflat, hbytes, _⟩ := (flatten_rowMajor h).1 hrows
  obtain ⟨flat, hflat⟩ := hflat.2 (Outcome.exists_mapM_eq_ok_iff.1 ⟨_, hparts⟩)
  obtain ⟨parts, hstored, rfl, _⟩ := hbytes flat hflat
  obtain rfl := Except.ok.inj (hstored.symm.trans hparts)
  exact ⟨h, hflat⟩

end Flat

end Stowage
