import Stowage.Proofs.Array.Flattening
import Stowage.Proofs.Array.Structure

/-!
# Elements that cannot be stored

`Value.Replaced` says that two values are the same but for the part at a path of indexes. An array
that has a flat form has none with an element in it that its number type cannot store
(`Shape.flatten_of_replaced`). The refusal is a conversion fault, with one exception: a finite
floating point number beyond the 32-bit range is an overflow, and the overflow is passed on as it is
(`NumberType.Refuses`).
-/

set_option autoImplicit false

namespace Stowage

open Number (BinaryFormat)

/-! ### Values that a number type refuses -/

namespace NumberType

variable {type : NumberType} {v : Value} {cause fault : Fault}

/-- The value is a finite floating point number, and the type is the 32-bit one and too small for
it. -/
def Overflows (type : NumberType) (v : Value) : Prop :=
  type = .float32 ∧ ∃ word, v = .float word ∧ BinaryFormat.double.convert? .single word = none

/-- What comes of a value that cannot be stored: a conversion fault, unless it is the overflow that
no packer converts. -/
def Refuses (type : NumberType) (v : Value) (fault : Fault) : Prop :=
  (type.Overflows v ∧ fault = .overflow) ∨
    (¬type.Overflows v ∧ ∃ conversion, fault = .conversion conversion)

theorem store_eq_error (h : type.store v = .error cause) :
    (type.Overflows v ∧ cause = .overflow) ∨ (¬type.Overflows v ∧ cause = .storage) := by
  by_cases hfloat : type = .float32
  · subst hfloat
    rw [store] at h
    cases v with
    | float word =>
      dsimp only [floatOf?] at h
      rcases hconvert : BinaryFormat.double.convert? .single word with _ | single
      · rw [hconvert] at h
        exact .inl ⟨⟨rfl, word, rfl, hconvert⟩, (Except.error.inj h).symm⟩
      · rw [hconvert] at h
        exact absurd h (by simp)
    | _ =>
      refine .inr ⟨?_, ?_⟩
      · rintro ⟨_, _, hword, _⟩
        exact absurd hword (by simp)
      · split at h
        · split at h
          · exact absurd h (by simp)
          · exact (Except.error.inj h).symm
        · exact (Except.error.inj h).symm
  · refine .inr ⟨fun hoverflow ↦ hfloat hoverflow.1, ?_⟩
    cases type <;> simp only [store] at h
    case float32 => exact absurd rfl hfloat
    all_goals
      repeat' split at h
      all_goals first
        | exact (Except.error.inj h).symm
        | exact absurd h (by simp)

/-- The first value that is refused decides the fault of all. -/
theorem storeAll_of_refused {before : List Value} {bytes : Bytes}
    (hbefore : type.storeAll before = .ok bytes) (h : type.store v = .error cause)
    (after : List Value) : type.storeAll (before ++ v :: after) = .error cause := by
  rw [storeAll_append, hbefore, Outcome.ok_bind, storeAll, h, Outcome.error_bind]

theorem storeAll_append_eq_ok {before after : List Value} {bytes : Bytes}
    (h : type.storeAll (before ++ after) = .ok bytes) :
    ∃ first, type.storeAll before = .ok first := by
  rw [storeAll_append] at h
  obtain ⟨first, hfirst, _⟩ := Outcome.bind_eq_ok.1 h
  exact ⟨first, hfirst⟩

end NumberType

/-! ### The same value with another part -/

namespace Value

/-- The second value is the first with the part at the end of the path, through containers of the
same kinds whose other items are the same. -/
inductive Replaced (part : Value) : (path : List Nat) → Value → Value → Prop
  | here (v : Value) : Replaced part [] v part
  | within {path : List Nat} {v w item other : Value} {before after : List Value}
      (hkind : v.SameKind w) (hv : v.children = before ++ item :: after)
      (hw : w.children = before ++ other :: after) (hitem : Replaced part path item other) :
      Replaced part (before.length :: path) v w

variable {v w part : Value} {path : List Nat}

theorem Replaced.list (before : List Value) {item other : Value} (after : List Value)
    (h : Replaced part path item other) :
    Replaced part (before.length :: path) (.list (before ++ item :: after))
      (.list (before ++ other :: after)) :=
  .within trivial rfl rfl h

theorem Replaced.tuple (before : List Value) {item other : Value} (after : List Value)
    (h : Replaced part path item other) :
    Replaced part (before.length :: path) (.tuple (before ++ item :: after))
      (.tuple (before ++ other :: after)) :=
  .within trivial rfl rfl h

theorem elements?_of_isArray (h : v.isArray = true) : v.elements? = some v.children := by
  cases v with
  | list | tuple | bytes | buffer | packed => rfl
  | _ => exact absurd h Bool.false_ne_true

theorem isTruthy_of_children_ne_nil (h : v.isArray = true) (hne : v.children ≠ []) :
    v.isTruthy = true := by
  cases v with
  | list items | tuple items =>
    rw [isTruthy, Bool.not_eq_true', List.isEmpty_eq_false_iff]
    exact hne
  | bytes data | buffer data =>
    rw [isTruthy, Bool.not_eq_true', List.isEmpty_eq_false_iff]
    exact fun hempty ↦ hne (by rw [hempty]; rfl)
  | packed array =>
    rw [isTruthy, Bool.not_eq_true', List.isEmpty_eq_false_iff]
    exact fun hempty ↦ hne (by simp [children, isArray, elements?, PackedArray.items, hempty])
  | _ => exact absurd h Bool.false_ne_true

/-- What a replacement inside a container comes to: the elements but one are the same, and both
containers are there. -/
theorem Replaced.elements {i : Nat} (h : Replaced part (i :: path) v w) :
    ∃ before item other after, i = before.length ∧
      v.elements? = some (before ++ item :: after) ∧
      w.elements? = some (before ++ other :: after) ∧ Replaced part path item other := by
  cases h with
  | @within _ _ _ item other before after hkind hv hw hitem =>
    obtain ⟨harray, hother⟩ := hkind.isArray
    refine ⟨before, item, other, after, rfl, ?_, ?_, hitem⟩
    · rw [elements?_of_isArray harray, hv]
    · rw [elements?_of_isArray hother, hw]

theorem Replaced.isTruthy {i : Nat} (h : Replaced part (i :: path) v w) :
    v.isTruthy = true ∧ w.isTruthy = true := by
  cases h with
  | within hkind hv hw _ =>
    obtain ⟨harray, hother⟩ := hkind.isArray
    exact ⟨isTruthy_of_children_ne_nil harray (by simp [hv]),
      isTruthy_of_children_ne_nil hother (by simp [hw])⟩

/-- A replacement in a row leaves all other rows as they are. When the row is the first one, every
index that leads to it is zero. -/
theorem Replaced.rows {lengths : List Nat} {i : Nat} (h : Replaced part (path ++ [i]) v w)
    (hpath : path.length = lengths.length) (hframed : v.Framed lengths)
    (hpos : ∀ length ∈ lengths, 0 < length) :
    ∃ before row other after, v.rows lengths.length = before ++ row :: after ∧
      w.rows lengths.length = before ++ other :: after ∧ Replaced part [i] row other ∧
      v.at? path = some row ∧ (before = [] → ∀ index ∈ path, index = 0) := by
  induction lengths generalizing path v w with
  | nil =>
    obtain rfl := List.length_eq_zero_iff.1 hpath
    exact ⟨[], v, w, [], rfl, rfl, h, rfl, fun _ _ hindex ↦ absurd hindex List.not_mem_nil⟩
  | cons length rest ih =>
    obtain ⟨index, path, rfl⟩ := List.exists_cons_of_length_eq_add_one hpath
    obtain ⟨_, _, hframed⟩ := hframed
    obtain ⟨_, hpos⟩ := List.forall_mem_cons.1 hpos
    cases h with
    | @within _ _ _ item other first last hkind hv hw hitem =>
      have hmem {child : Value} (hchild : child ∈ first ++ item :: last) : child.Framed rest :=
        hframed child (hv ▸ hchild)
      obtain ⟨before, row, found, after, hrows, hrows', hrow, hat, hzero⟩ := ih hitem
        (Nat.succ.inj hpath) (hmem (List.mem_append_right _ List.mem_cons_self)) hpos
      refine ⟨first.flatMap (Value.rows rest.length) ++ before, row, found,
        after ++ last.flatMap (Value.rows rest.length), ?_, ?_, hrow, ?_, ?_⟩
      · rw [List.length_cons, Value.rows, hv, List.flatMap_append, List.flatMap_cons, hrows]
        simp only [List.append_assoc, List.cons_append]
      · rw [List.length_cons, Value.rows, hw, List.flatMap_append, List.flatMap_cons, hrows']
        simp only [List.append_assoc, List.cons_append]
      · rw [at?, hv, List.getElem?_append_right (Nat.le_refl _), Nat.sub_self]
        exact hat
      · intro hempty
        obtain ⟨hfirst, hbefore⟩ := List.append_eq_nil_iff.1 hempty
        have hnone : first = [] := by
          refine List.eq_nil_iff_forall_not_mem.2 fun child hchild ↦ ?_
          have hcount := (hmem (List.mem_append_left _ hchild)).length_rows
          rw [List.flatMap_eq_nil_iff.1 hfirst child hchild] at hcount
          exact absurd hcount (Nat.ne_of_lt (Shape.countOf_pos hpos))
        exact List.forall_mem_cons.2 ⟨by rw [hnone, List.length_nil], hzero hbefore⟩

/-- Assumes: lists and tuples down to rows that are arrays. The two arrays are alike. -/
theorem Replaced.alike {lengths : List Nat} {i : Nat} (h : Replaced part (path ++ [i]) v w)
    (hpath : path.length = lengths.length) (hframed : v.Framed lengths)
    (hrows : ∀ row ∈ v.rows lengths.length, row.isArray = true) : v.Alike lengths.length w := by
  induction lengths generalizing path v w with
  | nil =>
    obtain rfl := List.length_eq_zero_iff.1 hpath
    cases h with
    | within hkind hv hw _ =>
      obtain ⟨harray, hother⟩ := hkind.isArray
      refine ⟨hkind, ?_⟩
      rw [← length_children harray, ← length_children hother, hv, hw]
      simp only [List.length_append, List.length_cons]
  | cons length rest ih =>
    obtain ⟨index, path, rfl⟩ := List.exists_cons_of_length_eq_add_one hpath
    obtain ⟨_, _, hframed⟩ := hframed
    cases h with
    | @within _ _ _ item other first last hkind hv hw hitem =>
      have hchild {child : Value} (hmem : child ∈ v.children) :
          child.Framed rest ∧ ∀ row ∈ child.rows rest.length, row.isArray = true :=
        ⟨hframed child hmem, fun row hrow ↦ hrows row (List.mem_flatMap.2 ⟨child, hmem, hrow⟩)⟩
      have hsame {children : List Value} (hsub : ∀ child ∈ children, child ∈ v.children) :
          List.Forall₂ (Alike rest.length) children children :=
        List.forall₂_same.2 fun child hmem ↦
          Alike.refl (hchild (hsub child hmem)).1 (hchild (hsub child hmem)).2
      have hmiddle : item ∈ v.children := by simp [hv]
      refine ⟨hkind, ?_⟩
      rw [hw]
      nth_rewrite 1 [hv]
      refine List.rel_append (hsame fun child hmem ↦ by simp [hv, hmem]) (.cons ?_ ?_)
      · exact ih hitem (Nat.succ.inj hpath) (hchild hmiddle).1 (hchild hmiddle).2
      · exact hsame fun child hmem ↦ by simp [hv, hmem]

end Value

/-! ### Flat forms -/

namespace Shape

variable {shape : Shape} {wanted : Option NumberType} {array spoiled part : Value}
  {path : List Nat} {i : Nat}

/-- The first row that is refused decides the fault of all. -/
theorem encodeRows_of_refused {before : List Value} {row : Value} {cause : Fault}
    (hbefore : ∀ earlier ∈ before, ∃ bytes, shape.encodeRow earlier = .ok bytes)
    (h : shape.encodeRow row = .error cause) (number : Nat) (after : List Value) :
    shape.encodeRows number (before ++ row :: after) =
      .error (rowFault ((number + before.length) * shape.rowSize) cause) := by
  induction before generalizing number with
  | nil =>
    rw [List.nil_append, encodeRows, h]
    rfl
  | cons first rest ih =>
    obtain ⟨⟨bytes, hfirst⟩, hrest⟩ := List.forall_mem_cons.1 hbefore
    rw [List.cons_append, encodeRows, hfirst]
    dsimp only
    rw [ih hrest, List.length_cons, Nat.add_right_comm, Nat.add_assoc]
    rfl

/-- Assumes: an array that has a shape, and the same array with another element in a list or tuple.
Unless the element is the one that the shape is read from, or stands for the same number type, the
shape stays. -/
theorem describe_of_replaced (h : describe array wanted = .ok shape)
    (hreplaced : Value.Replaced part (path ++ [i]) array spoiled)
    (hpath : path.length = shape.outerLengths.length)
    (hrow : ∀ row, array.at? path = some row → row.isSequence = true)
    (hleaf : (∃ index ∈ path ++ [i], index ≠ 0) ∨ typeOfLeaf wanted part = .ok shape.type) :
    describe spoiled wanted = .ok shape := by
  obtain ⟨hregular, hframed, hrows, first, hfirst, helements, hbyteRows⟩ :=
    describe_eq_ok_iff_rows.1 h
  have halike := hreplaced.alike hpath hframed fun row hmem ↦ (hrows row hmem).1
  have hall : List.Forall₂ (Value.Alike 0) (shape.rowsOf array) (shape.rowsOf spoiled) :=
    halike.rows
  obtain ⟨before, row, other, after, hv, hw, hinner, hat, hzero⟩ :=
    hreplaced.rows hpath hframed hregular.outer_pos
  have hhead : ∃ found, (shape.rowsOf spoiled).head? = some found ∧
      ElementsOf wanted found shape.type ∧ shape.byteRows = found.data?.isSome := by
    rw [rowsOf, hv] at hfirst
    rw [rowsOf, hw]
    cases before with
    | cons earlier before => exact ⟨first, hfirst, helements, hbyteRows⟩
    | nil =>
      obtain rfl := Option.some.inj hfirst
      have hsequence := hrow _ hat
      cases hinner with
      | @within _ _ _ item leaf front back hkind hchildren hchildren' hitem =>
        have hsequence' : other.isSequence = true := hkind.isSequence_eq.trans hsequence
        refine ⟨other, rfl, ?_, hbyteRows.trans hkind.isSome_data?_eq.symm⟩
        cases hitem
        obtain ⟨number, hnumber, hleafOf⟩ := (elementsOf_iff_leafOf hsequence).1 helements
        rw [hchildren] at hnumber
        cases front with
        | cons number front => exact .items hsequence' (by rw [hchildren']; exact hnumber) hleafOf
        | nil =>
          refine .items hsequence' (by rw [hchildren']; rfl) (typeOfLeaf_eq_ok_iff.1 ?_)
          refine hleaf.resolve_left ?_
          rintro ⟨index, hmem, hne⟩
          refine hne ?_
          rcases List.mem_append.1 hmem with hmem | hmem
          · exact hzero rfl index hmem
          · exact List.mem_singleton.1 hmem
  obtain ⟨found, hfound, helements', hbyteRows'⟩ := hhead
  refine describe_eq_ok_iff_rows.2 ⟨hregular, halike.framed hframed, fun row hmem ↦ ?_, found,
    hfound, helements', hbyteRows'⟩
  obtain ⟨former, hformer, hkind, hextent⟩ := Outcome.exists_mem_of_forall₂ hall hmem
  exact ⟨hkind.isArray.2, hextent.symm.trans (hrows former hformer).2⟩

/-- A single row of bytes is its own flat form, but a list or tuple is not one. -/
theorem not_byteRow_of_isSequence {row : Value} (h : describe array wanted = .ok shape)
    (hpath : path.length = shape.outerLengths.length) (hat : array.at? path = some row)
    (hsequence : row.isSequence = true) : ¬(shape.rank = 1 ∧ shape.byteRows = true) := by
  rintro ⟨hrank, hbytes⟩
  obtain ⟨hregular, -, -, first, hfirst, -, hbyteRows⟩ := describe_eq_ok_iff_rows.1 h
  have houter : shape.outerLengths.length = 0 := by
    have := hregular.rank_eq
    omega
  rw [rowsOf, houter] at hfirst
  rw [houter, List.length_eq_zero_iff] at hpath
  subst hpath
  obtain rfl := Option.some.inj hat
  obtain rfl := Option.some.inj hfirst
  rw [hbyteRows, Value.data?_of_isSequence hsequence] at hbytes
  exact absurd hbytes Bool.false_ne_true

/-- Assumes: an array that has a flat form, and the same array with an element in a list or tuple
that its number type cannot store, and which is not the element that the shape is read from or
stands for the same number type. The array has no flat form. -/
theorem flatten_of_replaced {flat : Flat} (hflatten : flatten array wanted = .ok flat)
    (h : describe array wanted = .ok shape)
    (hreplaced : Value.Replaced part (path ++ [i]) array spoiled)
    (hpath : path.length = shape.outerLengths.length)
    (hrow : ∀ row, array.at? path = some row → row.isSequence = true)
    (hleaf : (∃ index ∈ path ++ [i], index ≠ 0) ∨ typeOfLeaf wanted part = .ok shape.type)
    (hstore : ¬shape.Storable part) :
    ∃ fault, flatten spoiled wanted = .error fault ∧ shape.type.Refuses part fault := by
  have hspoiled := describe_of_replaced h hreplaced hpath hrow hleaf
  obtain ⟨hregular, hframed, -⟩ := describe_eq_ok_iff_rows.1 h
  obtain ⟨before, row, other, after, hv, hw, hinner, hat, _⟩ :=
    hreplaced.rows hpath hframed hregular.outer_pos
  have hsequence := hrow _ hat
  have hfresh := not_byteRow_of_isSequence h hpath hat hsequence
  obtain ⟨cause, hcause⟩ : ∃ cause, shape.type.store part = .error cause := by
    rcases hstored : shape.type.store part with cause | bytes
    · exact ⟨cause, rfl⟩
    · exact absurd ⟨bytes, hstored⟩ hstore
  rw [flatten_eq h hfresh] at hflatten
  obtain ⟨data, hdata, _⟩ := Outcome.map_eq_ok.1 hflatten
  obtain ⟨parts, hparts, _⟩ := encodeRows_eq_ok_iff.1 hdata
  have hencoded := Outcome.exists_mapM_eq_ok_iff.1 ⟨parts, hparts⟩
  rw [rowsOf, hv] at hencoded
  cases hinner with
  | @within _ _ _ item leaf front back hkind hchildren hchildren' hitem =>
    cases hitem
    have hrefused : shape.encodeRow other = .error cause := by
      obtain ⟨bytes, hbytes⟩ := hencoded row (List.mem_append_right _ List.mem_cons_self)
      rw [encodeRow_of_isSequence hsequence, hchildren] at hbytes
      obtain ⟨stored, hstored⟩ := NumberType.storeAll_append_eq_ok hbytes
      rw [encodeRow_of_isSequence (hkind.isSequence_eq.trans hsequence), hchildren']
      exact NumberType.storeAll_of_refused hstored hcause back
    have hbefore : ∀ earlier ∈ before, ∃ bytes, shape.encodeRow earlier = .ok bytes :=
      fun earlier hmem ↦ hencoded earlier (List.mem_append_left _ hmem)
    have hfault : flatten spoiled wanted =
        .error (rowFault ((0 + before.length) * shape.rowSize) cause) := by
      rw [flatten_eq hspoiled hfresh, rowsOf, hw, encodeRows_of_refused hbefore hrefused]
      rfl
    rcases NumberType.store_eq_error hcause with ⟨hexceeds, rfl⟩ | ⟨hfits, rfl⟩
    · exact ⟨_, hfault, .inl ⟨hexceeds, rfl⟩⟩
    · exact ⟨_, hfault, .inr ⟨hfits, _, rfl⟩⟩

end Shape

end Stowage
