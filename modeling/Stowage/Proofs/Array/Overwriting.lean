import Stowage.Proofs.Array.Discovery
import Stowage.Proofs.Array.Filling

/-!
# Arrays that could not be filled

Filling an array stops at the first row that refuses its elements. The rows in front hold what they
are filled with, each from its own slice of the buffer (`Shape.Fits.sliceOf_eq`), and the others are
as they were (`Shape.StoppedAt`). So a codec whose array could not be filled has an array that is
filled up to some row and as it was from there on (`Codec.unflatten_stops`). The arrays are values,
in which each row has a place of its own.
-/

set_option autoImplicit false

namespace Stowage

open Shape (digits length_digits)

/-- Whether a fault is one of a size. -/
def Fault.isSize : Fault → Bool
  | .size _ => true
  | _ => false

/-- Whether a fault is one of elements that a row does not take. -/
def Fault.isFilling : Fault → Bool
  | .conversion _ | .malformed => true
  | _ => false

theorem Fault.other_of_isFilling {fault : Fault} (h : fault.isFilling = true) :
    fault.isShape = false ∧ fault.isSize = false := by
  cases fault with
  | conversion | malformed => exact ⟨rfl, rfl⟩
  | _ => exact absurd h Bool.false_ne_true

theorem okOr_fillRow (row : Value) (cells : Cells) :
    Outcome.OkOr Fault.isFilling (fun _ ↦ True) (fillRow row cells) := by
  have hbytes : Outcome.OkOr Fault.isFilling (fun _ ↦ True) (byteRow cells) := by
    unfold byteRow
    repeat' split
    all_goals first | exact rfl | trivial
  have hitems (code : ItemCode) :
      Outcome.OkOr Fault.isFilling (fun _ ↦ True) (packedRow code cells) := by
    unfold packedRow
    repeat' split
    all_goals first | exact rfl | trivial
  cases row with
  | list | tuple => trivial
  | bytes | buffer => exact hbytes.map _ fun _ _ ↦ trivial
  | packed array => exact (hitems array.code).map _ fun _ _ ↦ trivial
  | _ => exact rfl

/-! ### Slices of numbers -/

namespace NumberType

variable {type : NumberType}

theorem drop_loadAll (first count : Nat) (bytes : Bytes) :
    (type.loadAll (first + count) bytes).drop first =
      type.loadAll count (bytes.drop (first * type.size)) := by
  induction first generalizing bytes with
  | zero => rw [Nat.zero_add, Nat.zero_mul, List.drop_zero, List.drop_zero]
  | succ first ih =>
    rw [Nat.add_right_comm, loadAll, List.drop_succ_cons, ih, List.drop_drop, Nat.succ_mul,
      Nat.add_comm]

theorem take_loadAll (count more : Nat) (bytes : Bytes) :
    (type.loadAll (count + more) bytes).take count =
      type.loadAll count (bytes.take (count * type.size)) := by
  induction count generalizing bytes with
  | zero => rfl
  | succ count ih =>
    have hfirst : (bytes.take ((count + 1) * type.size)).take type.size = bytes.take type.size := by
      rw [List.take_take, Nat.succ_mul, Nat.min_eq_left (Nat.le_add_left _ _)]
    have hrest : (bytes.take ((count + 1) * type.size)).drop type.size =
        (bytes.drop type.size).take (count * type.size) := by
      rw [List.drop_take, Nat.succ_mul, Nat.add_sub_cancel]
    rw [Nat.add_right_comm, loadAll, List.take_succ_cons, ih, loadAll, hfirst, hrest]

end NumberType

/-! ### What goes into a row -/

namespace Shape

variable {shape : Shape} {array : Value} {cells : Cells} {k : Nat}

/-- Rows of bytes hold numbers of one byte. -/
theorem Fits.type_of_byteRows (h : shape.Fits array) (hbytes : shape.byteRows = true) :
    shape.type = .int8 := by
  obtain ⟨row, _, hfixed⟩ := h.fixed
  cases row with
  | bytes | buffer => exact hfixed.1
  | list | tuple => exact absurd (hbytes.symm.trans hfixed) (by simp)
  | packed => exact absurd (hbytes.symm.trans hfixed.2) (by simp)
  | _ => exact hfixed.elim

/-- The elements in some bytes: the bytes themselves, or the numbers stored in them. -/
def cellsIn (shape : Shape) (count : Nat) (bytes : Bytes) : Cells :=
  if shape.byteRows then .bytes bytes else .numbers (shape.type.loadAll count bytes)

theorem readFlat_of_data? {data : Value} {raw : Bytes} (hdata : data.data? = some raw)
    (h : readFlat shape data = .ok cells) :
    raw.length = shape.byteCount ∧ cells = shape.cellsIn shape.elementCount raw := by
  have hbuffer : readFlat shape (.buffer raw) = .ok cells := by
    cases data with
    | bytes found | buffer found =>
      obtain rfl := Option.some.inj hdata
      exact h
    | _ => exact absurd hdata (by simp [Value.data?])
  have hlength : raw.length = shape.byteCount := by
    rw [readFlat] at hbuffer
    simp only [Value.elements?, List.length_map] at hbuffer
    split at hbuffer
    · exact absurd hbuffer (by simp)
    · next hsize => exact Decidable.not_not.1 hsize
  refine ⟨hlength, Except.ok.inj (hbuffer.symm.trans ?_)⟩
  unfold cellsIn
  split
  · next hbytes => exact readFlat_bytes hbytes rfl hlength
  · next hbytes => exact readFlat_numbers (Bool.eq_false_iff.2 hbytes) hlength

/-- What goes into a row are the elements in its slice of the buffer. -/
theorem Fits.sliceOf_eq (hfits : shape.Fits array) {data : Value} {raw : Bytes}
    (hdata : data.data? = some raw) (h : readFlat shape data = .ok cells)
    (hk : k < shape.rowCount) :
    shape.sliceOf cells k =
      shape.cellsIn shape.rowLength (Bytes.cut raw (k * shape.rowSize) shape.rowSize) := by
  obtain ⟨_, rfl⟩ := readFlat_of_data? hdata h
  obtain ⟨more, hmore⟩ : ∃ more, shape.rowCount = k + (1 + more) :=
    ⟨shape.rowCount - k - 1, by omega⟩
  have hcount : shape.elementCount =
      k * shape.rowLength + (shape.rowLength + more * shape.rowLength) := by
    rw [hfits.elementCount_eq, hmore, Nat.add_mul, Nat.add_mul, Nat.one_mul]
  unfold sliceOf cellsIn
  split
  · next hbytes =>
    have hsize : shape.rowSize = shape.rowLength := by
      rw [rowSize, hfits.type_of_byteRows hbytes]
      exact Nat.one_mul _
    rw [hsize]
    rfl
  · have hstart : k * shape.rowLength * shape.type.size = k * shape.rowSize := by
      rw [rowSize, Nat.mul_assoc, Nat.mul_comm shape.rowLength]
    have hsize : shape.rowLength * shape.type.size = shape.rowSize := Nat.mul_comm _ _
    rw [hcount]
    refine congrArg Cells.numbers ?_
    rw [NumberType.drop_loadAll, NumberType.take_loadAll, hstart, hsize]
    rfl

end Shape

/-! ### Arrays that could not be filled -/

/-- What an array has become when filling it stopped at a row. -/
structure Shape.StoppedAt (shape : Shape) (before : Value) (cells : Cells) (fault : Fault) (k : Nat)
    (after : Value) : Prop where
  /-- The row refuses the elements that should go into it. -/
  refuses : shape.Refuses before k (shape.sliceOf cells k) fault
  /-- Every row in front of it holds what it is filled with. -/
  filled : ∀ j < k, ∃ row filled, (shape.rowsOf before)[j]? = some row ∧
    fillRow row (shape.sliceOf cells j) = .ok filled ∧ (shape.rowsOf after)[j]? = some filled
  /-- The row and those behind it are as before. -/
  kept : (shape.rowsOf after).drop k = (shape.rowsOf before).drop k
  /-- Nothing but the rows in front of it has changed. -/
  around : after = shape.putRows before 0 ((shape.rowsOf after).take k)

namespace Shape

variable {shape : Shape} {before after target data : Value} {cells : Cells} {fault : Fault}
  {k : Nat} {wanted : Option NumberType}

/-- Rows refuse elements with faults of filling. -/
theorem Refuses.isFilling (h : shape.Refuses before k cells fault) : fault.isFilling = true := by
  cases h with
  | parent => rfl
  | @elements row _ _ hfill =>
    have hrow := okOr_fillRow row cells
    rwa [hfill] at hrow

/-- Rows that are put in front of one that refuses its elements. -/
theorem StoppedAt.putRows (hframed : before.Framed shape.outerLengths) {filled : List Value}
    (hfill : shape.fillEach ((shape.rowsOf before).take k) cells = .ok filled)
    (hrefuses : shape.Refuses before k (shape.sliceOf cells k) fault) :
    shape.StoppedAt before cells fault k (shape.putRows before 0 filled) := by
  obtain ⟨row, hrow⟩ := hrefuses.exists_row
  have hlt := hframed.lt_of_getElem? hrow
  have hlength : filled.length = k := by
    rw [length_fillEach hfill, List.length_take, rowsOf, hframed.length_rows]
    exact Nat.min_eq_left (Nat.le_of_lt hlt)
  have hrows : shape.rowsOf (shape.putRows before 0 filled) =
      filled ++ (shape.rowsOf before).drop k := by
    rw [rowsOf_putRows hframed (by rw [hlength, Nat.zero_add]; exact Nat.le_of_lt hlt), hlength,
      List.take_zero, List.nil_append, Nat.zero_add]
  refine ⟨hrefuses, fun j hj ↦ ?_, ?_, ?_⟩
  · have hinside : j < (shape.rowsOf before).length := by
      rw [rowsOf, hframed.length_rows]
      exact Nat.lt_trans hj hlt
    have htake : ((shape.rowsOf before).take k)[j]? = (shape.rowsOf before)[j]? :=
      List.getElem?_take_of_lt hj
    obtain ⟨former, hformer⟩ : ∃ former, (shape.rowsOf before)[j]? = some former :=
      ⟨_, List.getElem?_eq_getElem hinside⟩
    obtain ⟨found, hfound, hplace⟩ := getElem?_fillEach hfill (htake.trans hformer)
    refine ⟨former, found, hformer, hfound, ?_⟩
    rw [hrows, List.getElem?_append_left (hlength ▸ hj), hplace]
  · rw [hrows, ← hlength, List.drop_left]
  · rw [hrows, List.take_left' hlength]

/-- An array that refuses the elements of its first row is as before. -/
theorem StoppedAt.eq_of_zero (h : shape.StoppedAt before cells fault 0 after) : after = before :=
  h.around

/-- An array of one dimension is its first row. -/
theorem StoppedAt.eq_zero_of_rank (h : shape.StoppedAt before cells fault k after)
    (hfits : shape.Fits before) (hrank : shape.rank = 1) : k = 0 := by
  obtain ⟨row, hrow⟩ := h.refuses.exists_row
  have hlt := hfits.framed.lt_of_getElem? hrow
  have houter : shape.outerLengths = [] := by
    have := hfits.rank_eq
    exact List.length_eq_zero_iff.1 (by omega)
  rw [houter] at hlt
  exact Nat.lt_one_iff.1 hlt

end Shape

section Unflatten

variable {target data : Value} {wanted : Option NumberType} {shape : Shape} {cells : Cells}

/-- From elements of the right size, all rows of an array are filled and put in their places, or
filling it stops at a row. -/
theorem unflatten_cases (h : Shape.describe target wanted = .ok shape)
    (hread : readFlat shape data = .ok cells) :
    (∃ filled, shape.fillEach (shape.rowsOf target) cells = .ok filled ∧
      (unflatten data target wanted).result = .ok (shape.putRows target 0 filled)) ∨
    ∃ fault k, (unflatten data target wanted).result = .error fault ∧
      shape.StoppedAt target cells fault k (unflatten data target wanted).template := by
  have hfits := Shape.fits_of_describe h
  obtain ⟨outcome, hprogress, hunflatten⟩ := unflatten_progress h hread
  rw [hunflatten]
  cases hprogress with
  | complete hfill => exact .inl ⟨_, hfill, rfl⟩
  | @stopped k filled fault hfill hrefuses =>
    rw [Nat.zero_add] at hrefuses
    have hstopped := Shape.StoppedAt.putRows hfits.framed hfill hrefuses
    refine .inr ⟨fault, k, rfl, ?_⟩
    split
    · next hsingle =>
      obtain rfl := hstopped.eq_zero_of_rank hfits hsingle.1
      have hsame := hstopped.eq_of_zero
      rw [hsame] at hstopped
      exact hstopped
    · exact hstopped

/-- An array without a shape is not touched. -/
theorem unflatten_of_describe_error {fault : Fault}
    (h : Shape.describe target wanted = .error fault) :
    unflatten data target wanted = ⟨.error fault, target⟩ := by
  rw [unflatten, Walk.ofArray, h, Outcome.error_bind]

/-- Neither is one for which the buffer does not have the elements. -/
theorem unflatten_of_readFlat_error {fault : Fault} (h : Shape.describe target wanted = .ok shape)
    (hread : readFlat shape data = .error fault) :
    unflatten data target wanted = ⟨.error fault, target⟩ := by
  rw [unflatten, Walk.ofArray_eq_ok h]
  dsimp only [Walk.shape_standing]
  rw [hread]

theorem Codec.unflatten_eq_error {codec after : Codec} {fault : Fault}
    (h : codec.unflatten data = (.error fault, after)) :
    (Stowage.unflatten data codec.array codec.wanted).result = .error fault ∧
      after = { codec with
        array := (Stowage.unflatten data codec.array codec.wanted).template } := by
  rw [Codec.unflatten] at h
  split at h
  · exact absurd (Prod.mk.inj h).1 (by simp)
  · next hresult =>
    obtain ⟨hfault, rfl⟩ := Prod.mk.inj h
    exact ⟨hresult.trans hfault, rfl⟩

/-- A codec whose array could not be filled still has this array, and there is a row where filling
stopped: the rows in front of it, in row-major order, hold what filling each of them from its slice
of the buffer gives, the row itself has refused the elements in its slice, and it, the rows behind
it and everything around the rows are as before. It is the first row, so that nothing has changed,
when the array has no shape or just one dimension, or the buffer is not one for it. -/
theorem Codec.unflatten_stops {codec after : Codec} {fault : Fault}
    (h : codec.unflatten data = (.error fault, after)) :
    after.wanted = codec.wanted ∧ ∃ k,
      (k = 0 → after = codec) ∧
      (fault.isShape = true ∨ fault.isSize = true ∨
        (∃ shape, Shape.describe codec.array codec.wanted = .ok shape ∧ shape.rank = 1) → k = 0) ∧
      (k = 0 ∧ (Shape.describe codec.array codec.wanted = .error fault ∨
          ∃ shape, Shape.describe codec.array codec.wanted = .ok shape ∧
            readFlat shape data = .error fault) ∨
        ∃ shape cells, Shape.describe codec.array codec.wanted = .ok shape ∧
          readFlat shape data = .ok cells ∧
          (∀ raw, data.data? = some raw → ∀ j < shape.rowCount, shape.sliceOf cells j =
            shape.cellsIn shape.rowLength (Bytes.cut raw (j * shape.rowSize) shape.rowSize)) ∧
          shape.StoppedAt codec.array cells fault k after.array) := by
  obtain ⟨hresult, rfl⟩ := unflatten_eq_error h
  refine ⟨rfl, ?_⟩
  rcases hshape : Shape.describe codec.array codec.wanted with cause | shape
  · rw [unflatten_of_describe_error hshape] at hresult ⊢
    obtain rfl := Except.error.inj hresult
    exact ⟨0, fun _ ↦ rfl, fun _ ↦ rfl, .inl ⟨rfl, .inl rfl⟩⟩
  · rcases hread : readFlat shape data with cause | cells
    · rw [unflatten_of_readFlat_error hshape hread] at hresult ⊢
      obtain rfl := Except.error.inj hresult
      exact ⟨0, fun _ ↦ rfl, fun _ ↦ rfl, .inl ⟨rfl, .inr ⟨shape, rfl, hread⟩⟩⟩
    · have hfits := Shape.fits_of_describe hshape
      rcases unflatten_cases hshape hread with ⟨filled, _, hfilled⟩ | ⟨cause, k, hcause, hstopped⟩
      · exact absurd (hfilled.symm.trans hresult) (by simp)
      · obtain rfl := Except.error.inj (hcause.symm.trans hresult)
        refine ⟨k, ?_, ?_, .inr ⟨shape, cells, rfl, hread,
          fun raw hraw j hj ↦ hfits.sliceOf_eq hraw hread hj, hstopped⟩⟩
        · rintro rfl
          rw [hstopped.eq_of_zero]
        · obtain ⟨hnoShape, hnoSize⟩ := Fault.other_of_isFilling hstopped.refuses.isFilling
          rintro (hkind | hkind | ⟨found, hfound, hrank⟩)
          · exact absurd (hkind.symm.trans hnoShape) (by simp)
          · exact absurd (hkind.symm.trans hnoSize) (by simp)
          · obtain rfl := Except.ok.inj hfound
            exact hstopped.eq_zero_of_rank hfits hrank

/-- A list is filled; the row of bytes behind it refuses a number that is too large for a byte, and
stays as it was. -/
theorem Codec.unflatten_stops_wide :
    let codec : Codec := ⟨.list [.list [.int 7, .int 7], .buffer [9, 9]], some .int16⟩
    let after : Codec := ⟨.list [.list [.int 1, .int 2], .buffer [9, 9]], some .int16⟩
    let shape : Shape := ⟨[2, 2], .int16, false⟩
    codec.unflatten (.buffer [1, 0, 2, 0, 44, 1, 0, 0]) = (.error (.conversion .byteRow), after) ∧
      ∃ k cells, readFlat shape (.buffer [1, 0, 2, 0, 44, 1, 0, 0]) = .ok cells ∧
        shape.StoppedAt codec.array cells (.conversion .byteRow) k after.array := by
  intro codec after shape
  have h : codec.unflatten (.buffer [1, 0, 2, 0, 44, 1, 0, 0]) =
      (.error (.conversion .byteRow), after) := by
    dsimp only [codec, after]
    rfl
  have hshape : Shape.describe codec.array codec.wanted = .ok shape := by rfl
  obtain ⟨_, k, hkept, _, ⟨hzero, _⟩ | ⟨found, cells, hfound, hread, _, hstopped⟩⟩ :=
    Codec.unflatten_stops h
  · have hsame := congrArg Codec.array (hkept hzero)
    exact absurd hsame (by simp [codec, after])
  · obtain rfl := Except.ok.inj (hshape.symm.trans hfound)
    exact ⟨h, k, cells, hread, hstopped⟩

end Unflatten

end Stowage
