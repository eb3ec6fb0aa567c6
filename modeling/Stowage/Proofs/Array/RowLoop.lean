import Stowage.Proofs.Array.Flattening
import Stowage.Proofs.Array.Structure

/-!
# Filling row by row

Filling an array goes through its rows in order and stops at the first one that refuses its elements
(`unflatten_progress`). Whatever the rows are, those in front have been overwritten by what filling
each of them by itself gives, and nothing else has changed: the array is the one given with these
rows put in their places (`Shape.putRows`). A row refuses elements that it cannot hold, and a row
that cannot be changed in place refuses all elements inside a tuple (`Shape.Refuses`).
-/

set_option autoImplicit false

namespace Stowage

open Shape (digits length_digits)

/-! ### Elements of flat forms -/

namespace Cells

theorem values_take (cells : Cells) (n : Nat) : (cells.take n).values = cells.values.take n := by
  cases cells with
  | bytes data => exact List.map_take
  | numbers => rfl

theorem values_drop (cells : Cells) (n : Nat) : (cells.drop n).values = cells.values.drop n := by
  cases cells with
  | bytes data => exact List.map_drop
  | numbers => rfl

theorem drop_drop (cells : Cells) (n k : Nat) : (cells.drop n).drop k = cells.drop (n + k) := by
  cases cells with
  | bytes data => exact congrArg bytes List.drop_drop
  | numbers values => exact congrArg numbers List.drop_drop

theorem drop_zero (cells : Cells) : cells.drop 0 = cells := by
  cases cells <;> rfl

end Cells

/-! ### Parts around the rows -/

namespace Value

variable {lengths path inner : List Nat} {v part : Value}

/-- Above its rows, an array is made of lists and tuples. -/
theorem Framed.isSequence_of_mem_rows (h : v.Framed lengths) {depth : Nat}
    (hdepth : depth < lengths.length) (hpart : part ∈ v.rows depth) : part.isSequence = true := by
  induction depth generalizing v lengths with
  | zero =>
    obtain rfl := List.mem_singleton.1 hpart
    cases lengths with
    | nil => exact absurd hdepth (Nat.not_lt_zero _)
    | cons length rest => exact h.1
  | succ depth ih =>
    cases lengths with
    | nil => exact absurd hdepth (Nat.not_lt_zero _)
    | cons length rest =>
      obtain ⟨child, hchild, hpart⟩ := List.mem_flatMap.1 hpart
      exact ih (h.2.2 child hchild) (Nat.lt_of_succ_lt_succ hdepth) hpart

/-- A part that is put further down leaves the kinds of the parts above. -/
theorem exists_tuple_of_putAt (hinner : inner.length < path.length) {items : List Value}
    (h : (v.putAt path part).at? inner = some (.tuple items)) :
    ∃ former, v.at? inner = some (.tuple former) := by
  induction inner generalizing v path with
  | nil =>
    obtain ⟨i, path, rfl⟩ := List.exists_cons_of_length_pos hinner
    cases v with
    | tuple former => exact ⟨former, rfl⟩
    | _ => exact absurd (Option.some.inj h) (by simp [putAt])
  | cons j inner ih =>
    obtain ⟨i, path, rfl⟩ := List.exists_cons_of_length_pos (Nat.zero_lt_of_lt hinner)
    by_cases hsequence : v.isSequence = true
    · obtain ⟨child, hchild, hitems⟩ := Option.bind_eq_some_iff.1 h
      rw [children_putAt hsequence, List.getElem?_modify, Option.map_eq_map,
        Option.map_eq_some_iff] at hchild
      obtain ⟨former, hformer, rfl⟩ := hchild
      rw [at?, hformer, Option.bind_some]
      split at hitems
      · exact ih (Nat.lt_of_succ_lt_succ hinner) hitems
      · exact ⟨items, hitems⟩
    · rw [putAt_cons_of_not_isSequence hsequence] at h
      exact ⟨items, h⟩

end Value

/-! ### Rows filled by themselves -/

namespace Shape

/-- Rows filled by themselves, each with as many elements as a row has. -/
def fillEach (shape : Shape) : (rows : List Value) → Cells → Except Fault (List Value)
  | [], _ => .ok []
  | row :: rest, cells =>
    match fillRow row (cells.take shape.rowLength) with
    | .error fault => .error fault
    | .ok filled => (shape.fillEach rest (cells.drop shape.rowLength)).map (filled :: ·)

variable {shape : Shape} {array row : Value} {cells : Cells} {k first : Nat} {fault : Fault}

/-- The elements that go into the row with a number. -/
def sliceOf (shape : Shape) (cells : Cells) (k : Nat) : Cells :=
  (cells.drop (k * shape.rowLength)).take shape.rowLength

theorem sliceOf_zero (shape : Shape) (cells : Cells) :
    shape.sliceOf cells 0 = cells.take shape.rowLength := by
  rw [sliceOf, Nat.zero_mul, Cells.drop_zero]

theorem sliceOf_drop (shape : Shape) (cells : Cells) (k : Nat) :
    shape.sliceOf (cells.drop shape.rowLength) k = shape.sliceOf cells (k + 1) := by
  rw [sliceOf, sliceOf, Cells.drop_drop, Nat.succ_mul, Nat.add_comm]

theorem fillEach_cons_eq_ok {row : Value} {rest filled : List Value} {cells : Cells}
    (h : shape.fillEach (row :: rest) cells = .ok filled) :
    ∃ first others, fillRow row (cells.take shape.rowLength) = .ok first ∧
      shape.fillEach rest (cells.drop shape.rowLength) = .ok others ∧
      filled = first :: others := by
  rw [fillEach] at h
  rcases hfirst : fillRow row (cells.take shape.rowLength) with fault | first
  · rw [hfirst] at h
    exact absurd h (by simp)
  · rw [hfirst] at h
    obtain ⟨others, hothers, rfl⟩ := Outcome.map_eq_ok.1 h
    exact ⟨first, others, rfl, hothers, rfl⟩

theorem fillEach_cons_of_ok {filled : Value} {rest others : List Value}
    (hfill : fillRow row (cells.take shape.rowLength) = .ok filled)
    (hothers : shape.fillEach rest (cells.drop shape.rowLength) = .ok others) :
    shape.fillEach (row :: rest) cells = .ok (filled :: others) := by
  rw [fillEach, hfill]
  dsimp only
  rw [hothers]
  rfl

theorem length_fillEach {rows filled : List Value} (h : shape.fillEach rows cells = .ok filled) :
    filled.length = rows.length := by
  induction rows generalizing cells filled with
  | nil =>
    obtain rfl := Except.ok.inj h
    rfl
  | cons row rest ih =>
    obtain ⟨first, others, _, hothers, rfl⟩ := fillEach_cons_eq_ok h
    rw [List.length_cons, List.length_cons, ih hothers]

/-- Each row is filled with the elements that go into it. -/
theorem getElem?_fillEach {rows filled : List Value} (h : shape.fillEach rows cells = .ok filled)
    (hrow : rows[k]? = some row) :
    ∃ found, fillRow row (shape.sliceOf cells k) = .ok found ∧ filled[k]? = some found := by
  induction rows generalizing cells filled k with
  | nil => exact absurd hrow (by simp)
  | cons head rest ih =>
    obtain ⟨first, others, hfirst, hothers, rfl⟩ := fillEach_cons_eq_ok h
    cases k with
    | zero =>
      obtain rfl := Option.some.inj hrow
      exact ⟨first, (sliceOf_zero shape cells).symm ▸ hfirst, rfl⟩
    | succ k =>
      obtain ⟨found, hfound, hplace⟩ := ih hothers hrow
      exact ⟨found, sliceOf_drop shape cells k ▸ hfound, hplace⟩

/-! ### Rows that are put in their places -/

/-- The array with other rows from a number on, as many as are given. -/
def putRows (shape : Shape) (array : Value) : (first : Nat) → (rows : List Value) → Value
  | _, [] => array
  | first, row :: rest =>
    putRows shape (array.putAt (digits shape.outerLengths first) row) (first + 1) rest

theorem framed_putRows (h : array.Framed shape.outerLengths) (first : Nat) (rows : List Value) :
    (shape.putRows array first rows).Framed shape.outerLengths := by
  induction rows generalizing array first with
  | nil => exact h
  | cons row rest ih => exact ih (h.putAt (length_digits _ _) row) (first + 1)

/-- The rows of the array with other rows are these in their places. -/
theorem rowsOf_putRows (h : array.Framed shape.outerLengths) {rows : List Value}
    (hrows : first + rows.length ≤ shape.rowCount) :
    shape.rowsOf (shape.putRows array first rows) =
      (shape.rowsOf array).take first ++ rows ++
        (shape.rowsOf array).drop (first + rows.length) := by
  induction rows generalizing array first with
  | nil =>
    rw [putRows, List.append_nil, List.length_nil, Nat.add_zero, List.take_append_drop]
  | cons row rest ih =>
    rw [List.length_cons] at hrows
    have hlt : first < shape.rowCount := by omega
    have hput : shape.rowsOf (array.putAt (digits shape.outerLengths first) row) =
        (shape.rowsOf array).set first row := h.rows_putAt hlt row
    have hlength : first < (shape.rowsOf array).length := by
      rwa [rowsOf, h.length_rows]
    have hnext : first + (rest.length + 1) = first + 1 + rest.length := by omega
    rw [putRows, ih (h.putAt (length_digits _ _) row) (by omega), hput, List.take_add_one,
      List.take_set_of_le (Nat.le_refl _), List.getElem?_set_self hlength,
      List.drop_set_of_lt (by omega), List.length_cons, hnext]
    simp only [Option.toList_some, List.append_assoc, List.singleton_append]

/-- Why a row with a number takes no elements: they are none that it can hold, or it cannot be
changed in place and stands in a tuple. -/
inductive Refuses (shape : Shape) (array : Value) (k : Nat) (cells : Cells) : Fault → Prop
  | elements {row : Value} {fault : Fault} (hrow : (shape.rowsOf array)[k]? = some row)
      (hfill : fillRow row cells = .error fault) : Refuses shape array k cells fault
  | parent {row filled : Value} {items : List Value}
      (hrow : (shape.rowsOf array)[k]? = some row) (hfill : fillRow row cells = .ok filled)
      (himmutable : row.isMutable = false) (hrank : 1 < shape.rank)
      (hparent : array.at? (digits shape.outerLengths k).dropLast = some (.tuple items)) :
      Refuses shape array k cells (.conversion (.immutableParent "tuple"))

/-- A row put in front of another one does not change what the other refuses. -/
theorem Refuses.of_putAt (hframed : array.Framed shape.outerLengths) (hfirst : first < k)
    (h : shape.Refuses (array.putAt (digits shape.outerLengths first) row) k cells fault) :
    shape.Refuses array k cells fault := by
  have hkept {other : Value} (hother : (shape.rowsOf
      (array.putAt (digits shape.outerLengths first) row))[k]? = some other) :
      (shape.rowsOf array)[k]? = some other := by
    have hlt : k < shape.rowCount :=
      (hframed.putAt (length_digits _ _) row).lt_of_getElem? hother
    have hput : shape.rowsOf (array.putAt (digits shape.outerLengths first) row) =
        (shape.rowsOf array).set first row := hframed.rows_putAt (Nat.lt_trans hfirst hlt) row
    rwa [hput, List.getElem?_set_ne (Nat.ne_of_lt hfirst)] at hother
  cases h with
  | elements hrow hfill => exact .elements (hkept hrow) hfill
  | parent hrow hfill himmutable hrank hparent =>
    have hdepth : (digits shape.outerLengths k).dropLast.length <
        (digits shape.outerLengths first).length := by
      rw [List.length_dropLast, length_digits, length_digits]
      have hinner : shape.outerLengths.length = shape.rank - 1 := List.length_dropLast
      omega
    obtain ⟨former, hformer⟩ := Value.exists_tuple_of_putAt hdepth hparent
    exact .parent (hkept hrow) hfill himmutable hrank hformer

theorem Refuses.exists_row (h : shape.Refuses array k cells fault) :
    ∃ row, (shape.rowsOf array)[k]? = some row := by
  cases h with
  | elements hrow => exact ⟨_, hrow⟩
  | parent hrow => exact ⟨_, hrow⟩

/-- What the loop over the rows comes to from a number on: either all other rows are filled and put
in their places, or one of them refuses its elements and those in front of it are. -/
inductive Progress (shape : Shape) (array : Value) (first : Nat) (rest : List Value)
    (cells : Cells) : Except Fault Unit × Walk → Prop
  | complete {filled : List Value} (hfill : shape.fillEach rest cells = .ok filled) :
    Progress shape array first rest cells
      (.ok (), .standing shape (shape.putRows array first filled)
        (digits shape.outerLengths (shape.rowCount - 1)))
  | stopped {count : Nat} {filled : List Value} {fault : Fault}
      (hfill : shape.fillEach (rest.take count) cells = .ok filled)
      (hrefuses : shape.Refuses array (first + count) (shape.sliceOf cells count) fault) :
    Progress shape array first rest cells
      (.error fault, .standing shape (shape.putRows array first filled)
        (digits shape.outerLengths (first + count)))

theorem Progress.shape_eq {rest : List Value} {outcome : Except Fault Unit × Walk}
    (h : shape.Progress array first rest cells outcome) : outcome.2.shape = shape := by
  cases h <;> rfl

/-- A row is filled and put in its place before the others. -/
theorem Progress.cons (hframed : array.Framed shape.outerLengths) {filled : Value}
    {rest : List Value} (hfill : fillRow row (cells.take shape.rowLength) = .ok filled)
    {outcome : Except Fault Unit × Walk}
    (h : shape.Progress (array.putAt (digits shape.outerLengths first) filled) (first + 1) rest
      (cells.drop shape.rowLength) outcome) :
    shape.Progress array first (row :: rest) cells outcome := by
  cases h with
  | complete hothers => exact .complete (fillEach_cons_of_ok hfill hothers)
  | @stopped count others fault hothers hrefuses =>
    have hnumber : first + 1 + count = first + (count + 1) := by omega
    rw [sliceOf_drop] at hrefuses
    have hrefused := hrefuses.of_putAt hframed (by omega)
    rw [hnumber] at hrefused ⊢
    have hfilled : shape.fillEach ((row :: rest).take (count + 1)) cells =
        .ok (filled :: others) := fillEach_cons_of_ok hfill hothers
    exact .stopped hfilled hrefused

end Shape

/-! ### The loop -/

section Rows

variable {shape : Shape} {array row filled : Value} {path : List Nat} {cells : Cells}

/-- A filled row is put into the array at its place, or the row refuses its elements. -/
theorem putFilled_cases (hshape : shape.Regular) (hframed : array.Framed shape.outerLengths)
    {k : Nat} (hrow : (shape.rowsOf array)[k]? = some row)
    (hfill : fillRow row cells = .ok filled) :
    putFilled (.standing shape array (digits shape.outerLengths k)) row filled =
        .ok (.standing shape (array.putAt (digits shape.outerLengths k) filled)
          (digits shape.outerLengths k)) ∨
      ∃ fault, putFilled (.standing shape array (digits shape.outerLengths k)) row filled =
        .error fault ∧ shape.Refuses array k cells fault := by
  have hdigits : (digits shape.outerLengths k).length = shape.outerLengths.length :=
    length_digits _ _
  have hplace : array.at? (digits shape.outerLengths k) = some row :=
    (hframed.at?_digits (hframed.lt_of_getElem? hrow)).trans hrow
  have hrefuses (items : List Value) (himmutable : row.isMutable = false) (hrank : 1 < shape.rank)
      (hparent : array.at? (digits shape.outerLengths k).dropLast = some (.tuple items)) :
      shape.Refuses array k cells _ := .parent hrow hfill himmutable hrank hparent
  generalize digits shape.outerLengths k = path at hdigits hplace hrefuses ⊢
  unfold putFilled
  split
  · rw [Walk.putRow_standing hshape hdigits]
    exact .inl rfl
  · next himmutable =>
    by_cases hparent : path ≠ [] → ∃ items, array.part path.dropLast = .list items
    · exact .inl (Walk.replaceRow_standing hshape hdigits hparent)
    · obtain ⟨hne, hparent⟩ := Classical.not_imp.1 hparent
      have hpos := List.length_pos_iff.2 hne
      have hrank := hshape.rank_eq
      obtain ⟨parent, hat⟩ : ∃ parent, array.at? path.dropLast = some parent := by
        rw [← List.dropLast_append_getLast hne, Value.at?_append] at hplace
        obtain ⟨parent, hparent, _⟩ := Option.bind_eq_some_iff.1 hplace
        exact ⟨parent, hparent⟩
      have hsequence : parent.isSequence = true :=
        hframed.isSequence_of_mem_rows (by rw [List.length_dropLast]; omega)
          (Value.mem_rows_of_at? hat)
      rw [Value.part_eq_of_at? hat] at hparent
      refine .inr ⟨_, Walk.replaceRow_standing_refused hshape hdigits hne
        (Value.part_eq_of_at? hat ▸ hparent), ?_⟩
      rw [Value.part_eq_of_at? hat]
      cases parent with
      | list items => exact absurd ⟨items, rfl⟩ hparent
      | tuple items => exact hrefuses items (Bool.eq_false_iff.2 himmutable) (by omega) hat
      | _ => exact absurd hsequence (by simp [Value.isSequence])

/-- One round of the loop: the next row is filled and put into the array, where the walk then
stands, or the walk stands at the next row, which refuses its elements. -/
theorem fillRows_step (cells : Cells) (hshape : shape.Regular)
    (hframed : array.Framed shape.outerLengths)
    (hpath : path.length = shape.outerLengths.length) {k : Nat}
    (hrow : (shape.rowsOf array)[k]? = some row) (count : Nat) :
    (∃ filled, fillRow row (cells.take shape.rowLength) = .ok filled ∧
      fillRows (count + 1) (.standing shape array path) (.ready (k * shape.rowSize)) cells =
        fillRows count (.standing shape (array.putAt (digits shape.outerLengths k) filled)
          (digits shape.outerLengths k)) (.ready ((k + 1) * shape.rowSize))
          (cells.drop shape.rowLength)) ∨
      ∃ fault, shape.Refuses array k (cells.take shape.rowLength) fault ∧
        fillRows (count + 1) (.standing shape array path) (.ready (k * shape.rowSize)) cells =
          (.error fault, .standing shape array (digits shape.outerLengths k)) := by
  rw [fillRows, Walk.pull_row hshape hframed hpath hrow]
  dsimp only [Walk.shape_standing]
  rcases hfill : fillRow row (cells.take shape.rowLength) with fault | filled
  · exact .inr ⟨fault, .elements hrow hfill, rfl⟩
  · dsimp only [Except.bind]
    rcases putFilled_cases hshape hframed hrow hfill with hput | ⟨fault, hput, hrefuses⟩
    · rw [hput]
      exact .inl ⟨filled, rfl, rfl⟩
    · rw [hput]
      exact .inr ⟨fault, hrefuses, rfl⟩

/-- Assumes: a walk that stands at the last row of the first ones. The loop fills the other rows and
puts them in their places, up to the first that refuses its elements. -/
theorem fillRows_progress (cells : Cells) (hshape : shape.Regular)
    (hframed : array.Framed shape.outerLengths) {first : Nat} {rest : List Value}
    (hrest : (shape.rowsOf array).drop first = rest)
    (hfirst : first ≤ shape.rowCount) :
    shape.Progress array first rest cells
      (fillRows (rest.length + 1) (.standing shape array (digits shape.outerLengths (first - 1)))
        (.ready (first * shape.rowSize)) cells) := by
  induction rest generalizing array first cells with
  | nil =>
    obtain rfl : first = shape.rowCount := by
      have hle := List.drop_eq_nil_iff.1 hrest
      rw [Shape.rowsOf, hframed.length_rows] at hle
      exact Nat.le_antisymm hfirst hle
    have hnone : shape.fillEach [] cells = .ok [] := rfl
    rw [List.length_nil, fillRows, Walk.pull_end hshape]
    exact .complete hnone
  | cons row rest ih =>
    have hrow : (shape.rowsOf array)[first]? = some row := by
      rw [← List.head?_drop, hrest]
      rfl
    have hlt : first < shape.rowCount := hframed.lt_of_getElem? hrow
    rw [List.length_cons]
    rcases fillRows_step cells hshape hframed (length_digits _ (first - 1)) hrow
      (rest.length + 1) with ⟨filled, hfill, hnext⟩ | ⟨fault, hrefuses, hstop⟩
    · have hput : shape.rowsOf (array.putAt (digits shape.outerLengths first) filled) =
          (shape.rowsOf array).set first filled := hframed.rows_putAt hlt filled
      have hrestNext : (shape.rowsOf (array.putAt (digits shape.outerLengths first) filled)).drop
          (first + 1) = rest := by
        rw [hput, List.drop_set_of_lt (Nat.lt_succ_self first), List.drop_add_one_eq_tail_drop,
          hrest, List.tail_cons]
      rw [hnext]
      exact .cons hframed hfill (ih _ (hframed.putAt (length_digits _ _) filled) hrestNext hlt)
    · have hnone : shape.fillEach ((row :: rest).take 0) cells = .ok [] := rfl
      rw [hstop]
      exact .stopped hnone ((Shape.sliceOf_zero shape cells).symm ▸ hrefuses)

/-- An array is filled by the loop over all its rows. -/
theorem unflatten_eq {data : Value} {wanted : Option NumberType}
    (h : Shape.describe array wanted = .ok shape) (hread : readFlat shape data = .ok cells) :
    let outcome := fillRows (shape.rowCount + 1)
      (.standing shape array (digits shape.outerLengths 0)) (.ready 0) cells
    unflatten data array wanted =
      ⟨outcome.1.map fun _ ↦ outcome.2.array,
        if outcome.2.shape.rank = 1 ∧ !array.isMutable then array else outcome.2.array⟩ := by
  intro outcome
  rw [unflatten, Walk.ofArray_eq_ok h]
  dsimp only [Walk.shape_standing]
  rw [hread]
  rfl

/-- The loop over all rows fills them, up to the first that refuses its elements. -/
theorem unflatten_progress {data : Value} {wanted : Option NumberType}
    (h : Shape.describe array wanted = .ok shape) (hread : readFlat shape data = .ok cells) :
    ∃ outcome, shape.Progress array 0 (shape.rowsOf array) cells outcome ∧
      unflatten data array wanted =
        ⟨outcome.1.map fun _ ↦ outcome.2.array,
          if outcome.2.shape.rank = 1 ∧ !array.isMutable then array else outcome.2.array⟩ := by
  have hfits := Shape.fits_of_describe h
  have hlength : (shape.rowsOf array).length = shape.rowCount := hfits.framed.length_rows
  have hprogress := fillRows_progress cells hfits.toRegular hfits.framed
    (List.drop_zero (l := shape.rowsOf array)) (Nat.zero_le _)
  rw [hlength, Nat.zero_sub, Nat.zero_mul] at hprogress
  exact ⟨_, hprogress, unflatten_eq h hread⟩

end Rows

end Stowage
