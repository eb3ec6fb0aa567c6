import Stowage.Array.Walk
import Stowage.Proofs.Outcome
import Stowage.Proofs.Uniform

/-!
# Rows of nested arrays

An array with a shape is made of lists and tuples down to its rows (`Value.Framed`), and its rows
have one length (`Shape.Fits`). Its rows are numbered in row-major order. The path to a row is found
by dividing: its indexes are the digits of its number, to the lengths of the outer dimensions as
bases (`Value.at?_digits`), and a part put at this path takes the place of this row alone
(`Value.rows_putAt`).
-/

set_option autoImplicit false

namespace Stowage

/-! ### Rows and paths -/

namespace Shape

/-- The digits of a number to the given bases, the last digit counting single steps. -/
def digits : (lengths : List Nat) → Nat → List Nat
  | [], _ => []
  | _ :: rest, k => k / countOf rest :: digits rest (k % countOf rest)

@[simp] theorem length_digits (lengths : List Nat) (k : Nat) :
    (digits lengths k).length = lengths.length := by
  induction lengths generalizing k with
  | nil => rfl
  | cons length rest ih => rw [digits, List.length_cons, List.length_cons, ih]

theorem countOf_cons (length : Nat) (rest : List Nat) :
    countOf (length :: rest) = length * countOf rest := rfl

theorem countOf_pos {lengths : List Nat} (h : ∀ length ∈ lengths, 0 < length) :
    0 < countOf lengths := by
  induction lengths with
  | nil => exact Nat.one_pos
  | cons length rest ih =>
    obtain ⟨hlength, hrest⟩ := List.forall_mem_cons.1 h
    exact Nat.mul_pos hlength (ih hrest)

theorem countOf_append (lengths others : List Nat) :
    countOf (lengths ++ others) = countOf lengths * countOf others := by
  induction lengths with
  | nil => exact (Nat.one_mul _).symm
  | cons length rest ih => rw [List.cons_append, countOf_cons, countOf_cons, ih, Nat.mul_assoc]

end Shape

namespace Value

open Shape (countOf countOf_cons digits)

/-- The parts of an array at a depth, in order. -/
def rows : (depth : Nat) → Value → List Value
  | 0, v => [v]
  | depth + 1, v => v.children.flatMap (rows depth)

/-- Whether a value is a list or a tuple. -/
def isSequence : Value → Bool
  | .list _ | .tuple _ => true
  | _ => false

/-- Lists and tuples inside each other, with the given numbers of items. -/
def Framed : (lengths : List Nat) → Value → Prop
  | [], _ => True
  | length :: rest, v =>
    v.isSequence = true ∧ v.children.length = length ∧ ∀ child ∈ v.children, child.Framed rest

variable {lengths path : List Nat} {v part : Value}

theorem children_putAt (h : v.isSequence = true) (i : Nat) (path : List Nat) (part : Value) :
    (v.putAt (i :: path) part).children = v.children.modify i (putAt path · part) := by
  cases v with
  | list | tuple => rfl
  | _ => exact absurd h (by simp [isSequence])

namespace Framed

theorem length_rows (h : v.Framed lengths) : (v.rows lengths.length).length = countOf lengths := by
  induction lengths generalizing v with
  | nil => rfl
  | cons length rest ih =>
    obtain ⟨_, hlength, hchildren⟩ := h
    rw [List.length_cons, rows,
      length_flatMap_of_forall fun child hchild ↦ ih (hchildren child hchild), hlength,
      countOf_cons]

theorem lt_of_getElem? (h : v.Framed lengths) {k : Nat} {row : Value}
    (hrow : (v.rows lengths.length)[k]? = some row) : k < countOf lengths :=
  h.length_rows ▸ (List.getElem?_eq_some_iff.1 hrow).1

/-- The part at a path of digits is the row with the number they stand for. -/
theorem at?_digits (h : v.Framed lengths) {k : Nat} (hk : k < countOf lengths) :
    v.at? (digits lengths k) = (v.rows lengths.length)[k]? := by
  induction lengths generalizing v k with
  | nil =>
    obtain rfl : k = 0 := Nat.lt_one_iff.1 hk
    rfl
  | cons length rest ih =>
    obtain ⟨_, _, hchildren⟩ := h
    have hpos : 0 < countOf rest := Nat.pos_of_mul_pos_left (Nat.zero_lt_of_lt hk)
    have hlengths : ∀ child ∈ v.children, (child.rows rest.length).length = countOf rest :=
      fun child hchild ↦ (hchildren child hchild).length_rows
    rw [digits, Value.at?, List.length_cons, rows, getElem?_flatMap_of_forall hlengths hpos]
    refine Option.bind_congr fun child hchild ↦ ?_
    exact ih (hchildren child (List.mem_of_getElem? hchild)) (Nat.mod_lt k hpos)

/-- A part put at a path of digits replaces the row with the number they stand for. -/
theorem rows_putAt (h : v.Framed lengths) {k : Nat} (hk : k < countOf lengths) (part : Value) :
    (v.putAt (digits lengths k) part).rows lengths.length =
      (v.rows lengths.length).set k part := by
  induction lengths generalizing v k with
  | nil =>
    obtain rfl : k = 0 := Nat.lt_one_iff.1 hk
    rfl
  | cons length rest ih =>
    obtain ⟨hsequence, _, hchildren⟩ := h
    have hpos : 0 < countOf rest := Nat.pos_of_mul_pos_left (Nat.zero_lt_of_lt hk)
    have hlengths : ∀ child ∈ v.children, (child.rows rest.length).length = countOf rest :=
      fun child hchild ↦ (hchildren child hchild).length_rows
    rw [digits, List.length_cons, rows, rows, children_putAt hsequence]
    exact flatMap_modify_of_forall hlengths hpos
      fun child hchild ↦ ih (hchildren child hchild) (Nat.mod_lt k hpos)

/-- Another part at the place of a row leaves the array made of lists and tuples. -/
theorem putAt (h : v.Framed lengths) (hpath : path.length = lengths.length) (part : Value) :
    (v.putAt path part).Framed lengths := by
  induction lengths generalizing v path with
  | nil => trivial
  | cons length rest ih =>
    obtain ⟨i, path, rfl⟩ := List.exists_cons_of_length_eq_add_one hpath
    obtain ⟨hsequence, hlength, hchildren⟩ := h
    refine ⟨?_, ?_, fun child hchild ↦ ?_⟩
    · cases v with
      | list | tuple => rfl
      | _ => exact absurd hsequence (by simp [isSequence])
    · rw [children_putAt hsequence, List.length_modify, hlength]
    · rw [children_putAt hsequence] at hchild
      obtain ⟨j, hj⟩ := List.mem_iff_getElem?.1 hchild
      rw [List.getElem?_modify] at hj
      obtain ⟨former, hformer, rfl⟩ := Option.map_eq_some_iff.1 hj
      have hframed := hchildren former (List.mem_of_getElem? hformer)
      split
      · exact ih hframed (Nat.succ.inj hpath)
      · exact hframed

end Framed

/-- Every part has the length of its dimension. -/
def Conforms : (lengths : List Nat) → Value → Prop
  | [], _ => True
  | length :: rest, v =>
    v.isArray = true ∧ v.extent = length ∧ ∀ child ∈ v.children, child.Conforms rest

theorem length_children (h : v.isArray = true) : v.children.length = v.extent := by
  cases v with
  | list | tuple => rfl
  | bytes | buffer => exact List.length_map _
  | packed array => exact List.length_map _
  | _ => exact absurd h (by simp [isArray])

theorem isArray_of_isSequence (h : v.isSequence = true) : v.isArray = true := by
  cases v with
  | list | tuple => rfl
  | _ => exact absurd h Bool.false_ne_true

theorem data?_of_isSequence (h : v.isSequence = true) : v.data? = none := by
  cases v with
  | list | tuple => rfl
  | _ => exact absurd h Bool.false_ne_true

/-- Only lists and tuples have parts that are arrays. -/
theorem isSequence_of_mem_children {child : Value} (hmem : child ∈ v.children)
    (hchild : child.isArray = true) : v.isSequence = true := by
  cases v with
  | list | tuple => rfl
  | bytes | buffer =>
    obtain ⟨_, _, rfl⟩ := List.mem_map.1 hmem
    exact absurd hchild (by simp [isArray])
  | packed array =>
    obtain ⟨word, _, rfl⟩ := List.mem_map.1 hmem
    refine absurd hchild ?_
    unfold PackedArray.item
    split
    · simp [isArray]
    · simp [isArray]
    · split <;> simp [isArray]
    · simp [isArray]
  | _ => exact absurd hmem List.not_mem_nil

/-- Assumes: an array that conforms to positive lengths. It is made of lists and tuples down to its
rows, which are arrays of the last length. -/
theorem Conforms.framed {outer : List Nat} {last : Nat} (h : v.Conforms (outer ++ [last]))
    (hpos : ∀ length ∈ outer, 0 < length) :
    v.Framed outer ∧ ∀ row ∈ v.rows outer.length, row.isArray = true ∧ row.extent = last := by
  induction outer generalizing v with
  | nil =>
    obtain ⟨harray, hextent, _⟩ := h
    refine ⟨trivial, fun row hrow ↦ ?_⟩
    obtain rfl := List.mem_singleton.1 hrow
    exact ⟨harray, hextent⟩
  | cons length rest ih =>
    obtain ⟨harray, hextent, hchildren⟩ := h
    obtain ⟨hlength, hrest⟩ := List.forall_mem_cons.1 hpos
    have hcount : v.children.length = length := (length_children harray).trans hextent
    obtain ⟨first, hfirst⟩ := List.exists_mem_of_length_pos (hcount ▸ hlength)
    have hfirstArray : first.isArray = true := by
      have hconforms := hchildren first hfirst
      cases rest with
      | nil => exact hconforms.1
      | cons => exact hconforms.1
    refine ⟨⟨isSequence_of_mem_children hfirst hfirstArray, hcount,
      fun child hchild ↦ (ih (hchildren child hchild) hrest).1⟩, fun row hrow ↦ ?_⟩
    obtain ⟨child, hchild, hrow⟩ := List.mem_flatMap.1 hrow
    exact (ih (hchildren child hchild) hrest).2 row hrow

end Value

namespace Shape

theorem conform_eq_ok_iff {level : Nat} {lengths : List Nat} {v : Value} :
    conform level lengths v = .ok () ↔ v.Conforms lengths := by
  induction lengths generalizing level v with
  | nil => exact ⟨fun _ ↦ trivial, fun _ ↦ rfl⟩
  | cons length rest ih =>
    rw [conform, Value.Conforms]
    by_cases harray : v.isArray = true
    · by_cases hextent : v.extent = length
      · simp only [harray, hextent, Bool.not_true, Bool.false_eq_true, if_false, ne_eq,
          not_true_eq_false, true_and]
        split
        · next hempty =>
          obtain rfl := List.isEmpty_iff.1 hempty
          exact ⟨fun _ _ _ ↦ trivial, fun _ ↦ rfl⟩
        · rw [Outcome.forM_eq_ok_iff]
          exact forall₂_congr fun child _ ↦ ih
      · simp [harray, hextent]
    · simp [harray]

/-- The rows of an array, in order. -/
def rowsOf (shape : Shape) (array : Value) : List Value := array.rows shape.outerLengths.length

/-- The elements of the rows of an array, in order. -/
def leavesOf (shape : Shape) (array : Value) : List Value :=
  (shape.rowsOf array).flatMap Value.children

/-- What a row that fixes the type of a shape has to do with it. -/
def FixedBy (shape : Shape) : Value → Prop
  | .bytes _ | .buffer _ => shape.type = .int8 ∧ shape.byteRows = true
  | .packed array =>
    PackedArray.numberType? array.code = some shape.type ∧ shape.byteRows = false
  | .list _ | .tuple _ => shape.byteRows = false
  | _ => False

/-- A shape of some array. -/
structure Regular (shape : Shape) : Prop where
  /-- There is a last dimension, which is that inside the rows. -/
  lengths_eq : shape.lengths = shape.outerLengths ++ [shape.rowLength]
  /-- No dimension is empty. -/
  positive : ∀ length ∈ shape.lengths, 0 < length

/-- An array that has a shape. -/
structure Fits (shape : Shape) (array : Value) : Prop extends shape.Regular where
  /-- The array is made of lists and tuples down to its rows. -/
  framed : array.Framed shape.outerLengths
  /-- The rows are arrays of one length. -/
  rows : ∀ row ∈ shape.rowsOf array, row.isArray = true ∧ row.extent = shape.rowLength
  /-- The first row fixes the type. -/
  fixed : ∃ row, (shape.rowsOf array).head? = some row ∧ shape.FixedBy row

/-- An array has the shape found along its spine when every part conforms to it. -/
theorem describe_eq_ok_iff {array : Value} {wanted : Option NumberType} {shape : Shape} :
    describe array wanted = .ok shape ↔
      ofSpine wanted 1 array = .ok shape ∧ array.Conforms shape.lengths := by
  rw [describe, Outcome.bind_eq_ok]
  constructor
  · rintro ⟨found, hspine, hrest⟩
    obtain ⟨_, hconform, hshape⟩ := Outcome.bind_eq_ok.1 hrest
    obtain rfl := Except.ok.inj hshape
    exact ⟨hspine, conform_eq_ok_iff.1 hconform⟩
  · rintro ⟨hspine, hconforms⟩
    refine ⟨shape, hspine, ?_⟩
    rw [conform_eq_ok_iff.2 hconforms]
    rfl

namespace Regular

variable {shape : Shape}

theorem outer_pos (h : shape.Regular) : ∀ length ∈ shape.outerLengths, 0 < length :=
  fun length hlength ↦ h.positive length ((List.dropLast_sublist _).mem hlength)

theorem rowLength_pos (h : shape.Regular) : 0 < shape.rowLength := by
  refine h.positive _ ?_
  rw [h.lengths_eq]
  exact List.mem_append_right _ List.mem_cons_self

theorem rowSize_pos (h : shape.Regular) : 0 < shape.rowSize :=
  Nat.mul_pos shape.type.size_pos h.rowLength_pos

theorem rank_eq (h : shape.Regular) : shape.rank = shape.outerLengths.length + 1 := by
  rw [rank, h.lengths_eq, List.length_append, List.length_singleton]

theorem elementCount_eq (h : shape.Regular) :
    shape.elementCount = shape.rowCount * shape.rowLength := by
  rw [elementCount, h.lengths_eq, countOf_append, rowCount, countOf_cons]
  exact congrArg _ (Nat.mul_one _)

theorem byteCount_eq (h : shape.Regular) :
    shape.byteCount = shape.rowCount * shape.rowSize := by
  rw [byteCount, h.elementCount_eq, rowSize, Nat.mul_left_comm]

end Regular

end Shape

end Stowage
