import Stowage.Proofs.Array.Rows

/-!
# Along the spine of an array

The shape of an array is read along its spine, `Value.spine`: the array, its first part, the first
part of that, and so on to a byte string, a typed array, or a container that is empty or begins with
an element. Its lengths are those of the dimensions, and what the last container holds decides the
type of the elements (`Shape.ofSpine_eq_ok_iff`). In an array that has a shape the last container is
the first row, so the shape is known from the rows (`Shape.describe_eq_ok_iff_rows`).
-/

set_option autoImplicit false

namespace Stowage

namespace Value

mutual

/-- The containers met on the way from a value to its first row, which is the last of them. -/
def spine : Value → List Value
  | .list items => .list items :: spineOfItems items
  | .tuple items => .tuple items :: spineOfItems items
  | v => [v]

/-- What the spine of a container with the given items goes on with. -/
def spineOfItems : List Value → List Value
  | [] => []
  | first :: _ => if first.isArray then first.spine else []

end

variable {v first row : Value}

theorem spine_of_head? (hfirst : v.children.head? = some first) (harray : first.isArray = true) :
    v.spine = v :: first.spine := by
  have hsequence := isSequence_of_mem_children (List.mem_of_mem_head? hfirst) harray
  cases v with
  | list items | tuple items =>
    obtain ⟨rest, rfl⟩ := List.head?_eq_some_iff.1 hfirst
    rw [spine, spineOfItems, if_pos harray]
  | _ => exact absurd hsequence Bool.false_ne_true

theorem spine_of_forall_head?
    (h : ∀ first, v.children.head? = some first → first.isArray = false) : v.spine = [v] := by
  cases v with
  | list items | tuple items =>
    rw [spine]
    cases items with
    | nil => rfl
    | cons first rest => rw [spineOfItems, if_neg (Bool.eq_false_iff.1 (h first rfl))]
  | _ => rfl

/-- The spine ends with a value, or goes on with the spine of its first part. -/
theorem spine_cases (v : Value) :
    ((∀ first, v.children.head? = some first → first.isArray = false) ∧ v.spine = [v]) ∨
      ∃ first, v.children.head? = some first ∧ first.isArray = true ∧
        v.spine = v :: first.spine := by
  by_cases h : ∃ first, v.children.head? = some first ∧ first.isArray = true
  · obtain ⟨first, hfirst, harray⟩ := h
    exact .inr ⟨first, hfirst, harray, spine_of_head? hfirst harray⟩
  · have hnone : ∀ first, v.children.head? = some first → first.isArray = false :=
      fun first hfirst ↦ Bool.eq_false_iff.2 fun harray ↦ h ⟨first, hfirst, harray⟩
    exact .inl ⟨hnone, spine_of_forall_head? hnone⟩

theorem spine_ne_nil (v : Value) : v.spine ≠ [] := by
  rcases spine_cases v with ⟨_, h⟩ | ⟨_, _, _, h⟩ <;> rw [h] <;> exact List.cons_ne_nil _ _

/-- The spine ends with the first part at its depth. -/
theorem head?_rows_spine (v : Value) : (v.rows (v.spine.length - 1)).head? = v.spine.getLast? := by
  induction hparts : v.spine generalizing v with
  | nil => exact absurd hparts v.spine_ne_nil
  | cons part rest ih =>
    rcases v.spine_cases with ⟨_, hspine⟩ | ⟨first, hfirst, _, hspine⟩
    · obtain ⟨rfl, rfl⟩ := List.cons_eq_cons.1 (hspine.symm.trans hparts)
      rfl
    · obtain ⟨rfl, rfl⟩ := List.cons_eq_cons.1 (hspine.symm.trans hparts)
      have hne := first.spine_ne_nil
      have hdepth : first.spine.length - 1 + 1 = first.spine.length :=
        Nat.sub_add_cancel (List.length_pos_iff.2 hne)
      obtain ⟨others, hchildren⟩ := List.head?_eq_some_iff.1 hfirst
      rw [List.length_cons, Nat.add_sub_cancel, ← hdepth, rows, hchildren, List.flatMap_cons,
        List.head?_append, ih first rfl, List.getLast?_cons_of_ne_nil hne,
        List.getLast?_eq_some_getLast hne]
      rfl

/-- Assumes: lists and tuples, none of them empty, down to rows that are arrays, the first of which
has no array in it. The spine goes down to this row. -/
theorem Framed.spine {outer : List Nat} (h : v.Framed outer)
    (hpos : ∀ length ∈ outer, 0 < length)
    (harrays : ∀ row ∈ v.rows outer.length, row.isArray = true)
    (hrow : (v.rows outer.length).head? = some row)
    (hinner : ∀ first, row.children.head? = some first → first.isArray = false) :
    v.spine.map extent = outer ++ [row.extent] ∧ v.spine.getLast? = some row := by
  induction outer generalizing v with
  | nil =>
    obtain rfl := Option.some.inj hrow
    rw [spine_of_forall_head? hinner]
    exact ⟨rfl, rfl⟩
  | cons length rest ih =>
    obtain ⟨hsequence, hlength, hchildren⟩ := h
    obtain ⟨hlengthPos, hrest⟩ := List.forall_mem_cons.1 hpos
    obtain ⟨first, others, hfirst⟩ := List.exists_cons_of_length_pos (hlength ▸ hlengthPos)
    have hmem : first ∈ v.children := hfirst ▸ List.mem_cons_self
    have hframed := hchildren first hmem
    have hrowsFirst : ∀ row ∈ first.rows rest.length, row.isArray = true :=
      fun row hrow ↦ harrays row (List.mem_flatMap.2 ⟨first, hmem, hrow⟩)
    have harray : first.isArray = true := by
      cases rest with
      | nil => exact hrowsFirst first List.mem_cons_self
      | cons => exact isArray_of_isSequence hframed.1
    have hhead : (first.rows rest.length).head? = some row := by
      have hne : first.rows rest.length ≠ [] := List.ne_nil_of_length_pos
        (hframed.length_rows ▸ Shape.countOf_pos hrest)
      obtain ⟨found, more, hfound⟩ := List.exists_cons_of_ne_nil hne
      rw [List.length_cons, rows, hfirst, List.flatMap_cons, hfound] at hrow
      rw [hfound]
      exact hrow
    obtain ⟨hextents, hlast⟩ := ih hframed hrest hrowsFirst hhead
    have hextent : v.extent = length :=
      (length_children (isArray_of_isSequence hsequence)).symm.trans hlength
    rw [spine_of_head? (hfirst ▸ rfl) harray, List.map_cons, hextents, hextent,
      List.getLast?_cons_of_ne_nil first.spine_ne_nil, hlast]
    exact ⟨rfl, rfl⟩

/-- Assumes: lists and tuples down to rows that are arrays of one length. -/
theorem Framed.conforms {outer : List Nat} {last : Nat} (h : v.Framed outer)
    (hrows : ∀ row ∈ v.rows outer.length, row.isArray = true ∧ row.extent = last) :
    v.Conforms (outer ++ [last]) := by
  induction outer generalizing v with
  | nil =>
    obtain ⟨harray, hextent⟩ := hrows v List.mem_cons_self
    exact ⟨harray, hextent, fun _ _ ↦ trivial⟩
  | cons length rest ih =>
    obtain ⟨hsequence, hlength, hchildren⟩ := h
    have harray := isArray_of_isSequence hsequence
    refine ⟨harray, (length_children harray).symm.trans hlength, fun child hchild ↦ ?_⟩
    exact ih (hchildren child hchild) fun row hrow ↦
      hrows row (List.mem_flatMap.2 ⟨child, hchild, hrow⟩)

end Value

namespace Shape

/-- A number is stored as the wanted type, which must be of its sort, or as a type of eight
bytes. -/
inductive LeafOf (wanted : Option NumberType) : Value → NumberType → Prop
  | int {i : Int} {type : NumberType} (hwanted : wanted.getD .int64 = type)
      (htype : type.isInteger = true) : LeafOf wanted (.int i) type
  | float {word : Nat} {type : NumberType} (hwanted : wanted.getD .float64 = type)
      (htype : type.isFloat = true) : LeafOf wanted (.float word) type

/-- A container without containers in it holds elements of the type, which is the wanted one if one
is given. A list or tuple is judged by its first element. -/
inductive ElementsOf (wanted : Option NumberType) : Value → NumberType → Prop
  | items {row leaf : Value} {type : NumberType} (hrow : row.isSequence = true)
      (hfirst : row.children.head? = some leaf) (hleaf : LeafOf wanted leaf type) :
      ElementsOf wanted row type
  | data {row : Value} {data : Bytes} (hrow : row.data? = some data)
      (hwanted : wanted.getD .int8 = .int8) : ElementsOf wanted row .int8
  | packed {array : PackedArray} {type : NumberType}
      (hfound : PackedArray.numberType? array.code = some type)
      (hwanted : wanted.getD type = type) : ElementsOf wanted (.packed array) type

variable {wanted : Option NumberType} {level : Nat} {v row : Value} {shape : Shape}
  {type : NumberType}

/-! ### Element types -/

theorem typeOfLeaf_eq_ok_iff {leaf : Value} :
    typeOfLeaf wanted leaf = .ok type ↔ LeafOf wanted leaf type := by
  constructor
  · intro h
    unfold typeOfLeaf at h
    split at h
    · exact absurd h (by simp)
    · split at h
      · exact .int (Except.ok.inj h) (Except.ok.inj h ▸ rfl)
      · split at h
        · next hinteger =>
          obtain rfl := Except.ok.inj h
          exact .int rfl hinteger
        · exact absurd h (by simp)
    · split at h
      · exact .float (Except.ok.inj h) (Except.ok.inj h ▸ rfl)
      · split at h
        · next hfloat =>
          obtain rfl := Except.ok.inj h
          exact .float rfl hfloat
        · exact absurd h (by simp)
    · exact absurd h (by simp)
  · rintro (⟨rfl, htype⟩ | ⟨rfl, htype⟩)
    · cases wanted with
      | none => rfl
      | some type => exact if_pos htype
    · cases wanted with
      | none => rfl
      | some type => exact if_pos htype

theorem typeOfRow_eq_ok_iff {found : NumberType} :
    typeOfRow wanted found = .ok type ↔ wanted.getD found = found ∧ found = type := by
  cases wanted with
  | none => simp [typeOfRow]
  | some wanted =>
    rw [typeOfRow]
    split
    · next h => simp [h]
    · next h => simp [h]

theorem LeafOf.isArray_eq_false {leaf : Value} (h : LeafOf wanted leaf type) :
    leaf.isArray = false := by
  cases h with
  | int | float => rfl

/-- A row with elements is a container, and nothing inside it is one. -/
theorem ElementsOf.isArray (h : ElementsOf wanted row type) :
    row.isArray = true ∧ ∀ first, row.children.head? = some first → first.isArray = false := by
  cases h with
  | items hrow hfirst hleaf =>
    refine ⟨Value.isArray_of_isSequence hrow, fun first h ↦ ?_⟩
    obtain rfl := Option.some.inj (hfirst.symm.trans h)
    exact hleaf.isArray_eq_false
  | @data _ bytes hrow =>
    have hsequence : ¬ row.isSequence = true := fun h ↦
      absurd (hrow.symm.trans (Value.data?_of_isSequence h)) (by simp)
    refine ⟨?_, fun first hfirst ↦ Bool.eq_false_iff.2 fun harray ↦ hsequence ?_⟩
    · cases row with
      | bytes | buffer => rfl
      | _ => exact absurd hrow (by simp [Value.data?])
    · exact Value.isSequence_of_mem_children (List.mem_of_mem_head? hfirst) harray
  | packed =>
    refine ⟨rfl, fun first hfirst ↦ Bool.eq_false_iff.2 fun harray ↦ ?_⟩
    exact absurd (Value.isSequence_of_mem_children (List.mem_of_mem_head? hfirst) harray)
      Bool.false_ne_true

/-- What a row has to do with the type of its elements. -/
theorem ElementsOf.fixedBy (h : ElementsOf wanted row shape.type)
    (hbyteRows : shape.byteRows = row.data?.isSome) : shape.FixedBy row := by
  obtain ⟨lengths, type, byteRows⟩ := shape
  cases h with
  | items hrow =>
    rw [Value.data?_of_isSequence hrow] at hbyteRows
    cases row with
    | list | tuple => exact hbyteRows
    | _ => exact absurd hrow Bool.false_ne_true
  | data hrow =>
    rw [hrow] at hbyteRows
    cases row with
    | bytes | buffer => exact ⟨rfl, hbyteRows⟩
    | _ => exact absurd hrow (by simp [Value.data?])
  | packed hfound => exact ⟨hfound, hbyteRows⟩

/-! ### Along the spine -/

theorem ofSpine_of_isSequence (h : v.isSequence = true) (level : Nat) :
    ofSpine wanted level v = ofItems wanted level v.children := by
  cases v with
  | list | tuple => rfl
  | _ => exact absurd h Bool.false_ne_true

/-- The shape of a container that begins with another one. -/
theorem ofSpine_of_head? {first : Value} (hfirst : v.children.head? = some first)
    (harray : first.isArray = true) :
    ofSpine wanted level v = (ofSpine wanted (level + 1) first).map (within v.extent) := by
  have hsequence := Value.isSequence_of_mem_children (List.mem_of_mem_head? hfirst) harray
  obtain ⟨rest, hchildren⟩ := List.head?_eq_some_iff.1 hfirst
  rw [ofSpine_of_isSequence hsequence,
    ← Value.length_children (Value.isArray_of_isSequence hsequence), hchildren, ofItems,
    if_pos harray]
  rfl

theorem elementsOf_iff_leafOf (hrow : row.isSequence = true) :
    ElementsOf wanted row type ↔
      ∃ leaf, row.children.head? = some leaf ∧ LeafOf wanted leaf type := by
  constructor
  · rintro (⟨_, hfirst, hleaf⟩ | ⟨hdata, _⟩ | _)
    · exact ⟨_, hfirst, hleaf⟩
    · exact absurd (hdata.symm.trans (Value.data?_of_isSequence hrow)) (by simp)
    · exact absurd hrow Bool.false_ne_true
  · rintro ⟨leaf, hfirst, hleaf⟩
    exact .items hrow hfirst hleaf

/-- The shape of a list or tuple that does not begin with a container. -/
theorem ofSpine_eq_ok_iff_of_isSequence (hrow : row.isSequence = true)
    (h : ∀ first, row.children.head? = some first → first.isArray = false) :
    ofSpine wanted level row = .ok shape ↔ 0 < row.extent ∧ shape.lengths = [row.extent] ∧
      ElementsOf wanted row shape.type ∧ shape.byteRows = row.data?.isSome := by
  rw [ofSpine_of_isSequence hrow, ← Value.length_children (Value.isArray_of_isSequence hrow),
    Value.data?_of_isSequence hrow, elementsOf_iff_leafOf hrow]
  cases hchildren : row.children with
  | nil => simp [ofItems]
  | cons first rest =>
    have hfirst : first.isArray = false := h first (hchildren ▸ rfl)
    rw [ofItems, if_neg (Bool.eq_false_iff.1 hfirst), Outcome.map_eq_ok]
    constructor
    · rintro ⟨type, htype, rfl⟩
      exact ⟨Nat.succ_pos _, rfl, ⟨first, rfl, typeOfLeaf_eq_ok_iff.1 htype⟩, rfl⟩
    · rintro ⟨_, hlengths, ⟨leaf, hleaf, htype⟩, hrows⟩
      obtain rfl := Option.some.inj hleaf
      refine ⟨shape.type, typeOfLeaf_eq_ok_iff.2 htype, ?_⟩
      obtain ⟨lengths, type, byteRows⟩ := shape
      obtain rfl : lengths = [rest.length + 1] := hlengths
      obtain rfl : byteRows = false := hrows
      rfl

/-- Where the spine ends, the shape is that of a row. -/
theorem ofSpine_eq_ok_iff_elementsOf
    (h : ∀ first, v.children.head? = some first → first.isArray = false) :
    ofSpine wanted level v = .ok shape ↔ 0 < v.extent ∧ shape.lengths = [v.extent] ∧
      ElementsOf wanted v shape.type ∧ shape.byteRows = v.data?.isSome := by
  obtain ⟨lengths, type, byteRows⟩ := shape
  cases v with
  | list | tuple => exact ofSpine_eq_ok_iff_of_isSequence rfl h
  | bytes data | buffer data =>
    rw [ofSpine]
    by_cases hempty : data.isEmpty = true
    · simp [Value.extent, List.isEmpty_iff.1 hempty]
    · have hpos : 0 < data.length := List.length_pos_iff.2 (mt List.isEmpty_iff.2 hempty)
      rw [if_neg hempty, Outcome.map_eq_ok]
      constructor
      · rintro ⟨found, hfound, hshape⟩
        obtain ⟨rfl, rfl, rfl⟩ := Shape.mk.inj hshape
        obtain ⟨hwanted, rfl⟩ := typeOfRow_eq_ok_iff.1 hfound
        exact ⟨hpos, rfl, .data rfl hwanted, rfl⟩
      · rintro ⟨_, rfl, helements, rfl⟩
        refine ⟨type, ?_, rfl⟩
        cases helements with
        | items hrow => exact absurd hrow Bool.false_ne_true
        | data _ hwanted => exact typeOfRow_eq_ok_iff.2 ⟨hwanted, rfl⟩
  | packed array =>
    rw [ofSpine, PackedArray.numberType]
    by_cases hempty : array.words.isEmpty = true
    · simp [Value.extent, List.isEmpty_iff.1 hempty]
    · have hpos : 0 < array.words.length := List.length_pos_iff.2 (mt List.isEmpty_iff.2 hempty)
      rw [if_neg hempty]
      constructor
      · intro hspine
        rcases hfound : PackedArray.numberType? array.code with _ | found
        · rw [hfound] at hspine
          exact absurd hspine (by simp)
        · rw [hfound] at hspine
          obtain ⟨found, htype, hshape⟩ := Outcome.map_eq_ok.1 hspine
          obtain ⟨rfl, rfl, rfl⟩ := Shape.mk.inj hshape
          obtain ⟨hwanted, rfl⟩ := typeOfRow_eq_ok_iff.1 htype
          exact ⟨hpos, rfl, .packed hfound hwanted, rfl⟩
      · rintro ⟨_, rfl, helements, rfl⟩
        cases helements with
        | items hrow => exact absurd hrow Bool.false_ne_true
        | data hrow => exact absurd hrow (by simp [Value.data?])
        | packed hfound hwanted =>
          rw [hfound]
          exact Outcome.map_eq_ok.2 ⟨type, typeOfRow_eq_ok_iff.2 ⟨hwanted, rfl⟩, rfl⟩
  | _ => simp [ofSpine, Value.extent]

theorem ofSpine_eq_ok_iff :
    ofSpine wanted level v = .ok shape ↔
      (∀ part ∈ v.spine, 0 < part.extent) ∧ shape.lengths = v.spine.map Value.extent ∧
        ∃ last, v.spine.getLast? = some last ∧ ElementsOf wanted last shape.type ∧
          shape.byteRows = last.data?.isSome := by
  induction hparts : v.spine generalizing v level shape with
  | nil => exact absurd hparts v.spine_ne_nil
  | cons part rest ih =>
    rcases v.spine_cases with ⟨hlast, hspine⟩ | ⟨first, hfirst, harray, hspine⟩
    · obtain ⟨rfl, rfl⟩ := List.cons_eq_cons.1 (hspine.symm.trans hparts)
      rw [ofSpine_eq_ok_iff_elementsOf hlast]
      simp
    · obtain ⟨rfl, rfl⟩ := List.cons_eq_cons.1 (hspine.symm.trans hparts)
      have hgetLast : (v :: first.spine).getLast? = first.spine.getLast? := by
        rw [List.getLast?_cons_of_ne_nil first.spine_ne_nil]
      rw [ofSpine_of_head? hfirst harray, Outcome.map_eq_ok, hgetLast, List.forall_mem_cons,
        List.map_cons]
      constructor
      · rintro ⟨inner, hinner, rfl⟩
        obtain ⟨hpos, hlengths, hlast⟩ := (ih rfl).1 hinner
        refine ⟨⟨?_, hpos⟩, congrArg _ hlengths, hlast⟩
        have hmem := List.mem_of_mem_head? hfirst
        have hsequence := Value.isSequence_of_mem_children hmem harray
        rw [← Value.length_children (Value.isArray_of_isSequence hsequence)]
        exact List.length_pos_of_mem hmem
      · rintro ⟨⟨_, hpos⟩, hlengths, hlast⟩
        refine ⟨⟨first.spine.map Value.extent, shape.type, shape.byteRows⟩,
          (ih rfl).2 ⟨hpos, rfl, hlast⟩, ?_⟩
        rw [within, ← hlengths]

/-! ### By rows -/

/-- An array has a shape when it is made of lists and tuples down to rows of one length, the first
of which has elements of the type. -/
theorem describe_eq_ok_iff_rows {array : Value} :
    describe array wanted = .ok shape ↔
      shape.Regular ∧ array.Framed shape.outerLengths ∧
        (∀ row ∈ shape.rowsOf array, row.isArray = true ∧ row.extent = shape.rowLength) ∧
        ∃ row, (shape.rowsOf array).head? = some row ∧ ElementsOf wanted row shape.type ∧
          shape.byteRows = row.data?.isSome := by
  constructor
  · intro h
    obtain ⟨hspine, hconforms⟩ := describe_eq_ok_iff.1 h
    obtain ⟨hextents, hlengths, last, hlast, helements, hbyteRows⟩ := ofSpine_eq_ok_iff.1 hspine
    have hne : shape.lengths ≠ [] := by
      rw [hlengths, Ne, List.map_eq_nil_iff]
      exact array.spine_ne_nil
    have hregular : shape.Regular := by
      refine ⟨?_, fun length hlength ↦ ?_⟩
      · rw [outerLengths, rowLength, List.getLastD_eq_getLast?, List.getLast?_eq_some_getLast hne]
        exact (List.dropLast_append_getLast hne).symm
      · obtain ⟨part, hpart, rfl⟩ := List.mem_map.1 (hlengths ▸ hlength)
        exact hextents part hpart
    have hdepth : shape.outerLengths.length = array.spine.length - 1 := by
      rw [outerLengths, List.length_dropLast, hlengths, List.length_map]
    rw [hregular.lengths_eq] at hconforms
    obtain ⟨hframed, hrows⟩ := hconforms.framed hregular.outer_pos
    refine ⟨hregular, hframed, hrows, last, ?_, helements, hbyteRows⟩
    rw [rowsOf, hdepth, Value.head?_rows_spine, hlast]
  · rintro ⟨hregular, hframed, hrows, row, hrow, helements, hbyteRows⟩
    have hinner := helements.isArray.2
    obtain ⟨hextents, hlast⟩ :=
      hframed.spine hregular.outer_pos (fun row hrow ↦ (hrows row hrow).1) hrow hinner
    rw [(hrows row (List.mem_of_head? hrow)).2, ← hregular.lengths_eq] at hextents
    have hconforms := hframed.conforms hrows
    rw [← hregular.lengths_eq] at hconforms
    refine describe_eq_ok_iff.2 ⟨ofSpine_eq_ok_iff.2 ⟨fun part hpart ↦ ?_, hextents.symm, row,
      hlast, helements, hbyteRows⟩, hconforms⟩
    exact hregular.positive _ (hextents ▸ List.mem_map_of_mem hpart)

theorem fits_of_describe {array : Value} (h : describe array wanted = .ok shape) :
    shape.Fits array := by
  obtain ⟨hregular, hframed, hrows, row, hrow, helements, hbyteRows⟩ := describe_eq_ok_iff_rows.1 h
  exact ⟨hregular, hframed, hrows, row, hrow, helements.fixedBy hbyteRows⟩

/-- A type that is wanted is the type of the elements. -/
theorem ElementsOf.eq_wanted {chosen : NumberType} (h : ElementsOf (some chosen) row type) :
    type = chosen := by
  cases h with
  | items _ _ hleaf =>
    cases hleaf with
    | int hwanted | float hwanted => exact hwanted.symm
  | data _ hwanted | packed _ hwanted => exact hwanted.symm

theorem type_of_describe {array : Value} (h : describe array (some type) = .ok shape) :
    shape.type = type := by
  obtain ⟨_, _, _, _, _, helements, _⟩ := describe_eq_ok_iff_rows.1 h
  exact helements.eq_wanted

end Shape

end Stowage
