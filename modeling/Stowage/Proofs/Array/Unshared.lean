import Stowage.Proofs.Array.Identity
import Stowage.Proofs.Array.Refilling

/-!
# Filling arrays of objects

A row that is filled takes numbers, which have no identity (`Cells.Plain`). So one round of the loop
over the rows does to an array without shared objects what it does to the value that the array holds
(`Object.putFilled_standing`), and leaves nothing shared. By induction so does the whole loop: such
an array is filled as the value is (`Object.unflatten_refines`), and what holds of filling values
holds of it. Flattening and filling undo each other then (`Object.unflatten_flatten`,
`Object.flatten_unflatten`). Where a row is shared they do not, since all places where the row
stands show what was put into it last.
-/

set_option autoImplicit false

namespace Stowage

open Shape (digits length_digits)

/-! ### Elements without identities -/

/-- Whether no element could be changed in place. -/
def Cells.Plain (cells : Cells) : Prop := ∀ v ∈ cells.values, v.changeable = 0

namespace Cells

variable {cells : Cells} {row filled : Value}

theorem Plain.take (h : cells.Plain) (n : Nat) : (cells.take n).Plain := by
  intro v hv
  rw [values_take] at hv
  exact h v (List.mem_of_mem_take hv)

theorem Plain.drop (h : cells.Plain) (n : Nat) : (cells.drop n).Plain := by
  intro v hv
  rw [values_drop] at hv
  exact h v (List.mem_of_mem_drop hv)

/-- The elements of a flat form are numbers. -/
theorem plain_of_readFlat {shape : Shape} {data : Value} (h : readFlat shape data = .ok cells) :
    cells.Plain := by
  have hbytes (raw : Bytes) : (Cells.bytes raw).Plain := by
    intro v hv
    obtain ⟨b, _, rfl⟩ := List.mem_map.1 hv
    rfl
  have hnumbers (raw : Bytes) :
      (Cells.numbers (shape.type.loadAll shape.elementCount raw)).Plain := by
    intro v hv
    obtain ⟨bytes, rfl⟩ := NumberType.exists_load_of_mem_loadAll hv
    unfold NumberType.load
    split <;> rfl
  have hcells (h : cellsOf shape data = .ok cells) : cells.Plain := by
    unfold cellsOf at h
    split at h
    · obtain ⟨raw, _, rfl⟩ := Outcome.map_eq_ok.1 h
      exact hbytes raw
    · cases data with
      | bytes | buffer | packed =>
        obtain ⟨raw, _, hraw⟩ := Outcome.bind_eq_ok.1 h
        split at hraw
        · exact Except.ok.inj hraw ▸ hnumbers raw
        · exact absurd hraw (by simp)
      | _ => exact absurd h (by simp)
  unfold readFlat at h
  split at h
  · exact absurd h (by simp)
  · split at h
    · exact absurd h (by simp)
    · exact hcells h

theorem Plain.changeableIn_eq_zero {values : List Value} (h : (numbers values).Plain) :
    Value.changeableIn values = 0 := by
  induction values with
  | nil => rfl
  | cons v rest ih =>
    obtain ⟨hv, hrest⟩ := List.forall_mem_cons.1 h
    rw [Value.changeableIn, hv, ih hrest]

/-- A filled row can be changed like the former one, and nothing in it can. -/
theorem Plain.changeable_fillRow (h : cells.Plain) (hfill : fillRow row cells = .ok filled) :
    filled.isMutable = row.isMutable ∧
      filled.changeable = if row.isMutable then 1 else 0 := by
  have hnone : Value.changeableIn cells.values = 0 :=
    changeableIn_eq_zero (show (numbers cells.values).Plain from h)
  cases row with
  | list =>
    obtain rfl := Except.ok.inj hfill
    exact ⟨rfl, congrArg (1 + ·) hnone⟩
  | tuple =>
    obtain rfl := Except.ok.inj hfill
    exact ⟨rfl, hnone⟩
  | buffer | bytes | packed =>
    obtain ⟨contents, _, rfl⟩ := Outcome.map_eq_ok.1 hfill
    exact ⟨rfl, rfl⟩
  | _ => exact absurd hfill (by simp [fillRow])

end Cells

/-! ### Rows put in their places -/

/-- A part put into a list is put there by giving the list another item. -/
theorem Value.putAt_append {v row : Value} {path : List Nat} {items : List Value}
    (hat : v.at? path = some (.list items)) (i : Nat) :
    v.putAt (path ++ [i]) row = v.putAt path (.list (items.set i row)) := by
  induction path generalizing v with
  | nil =>
    obtain rfl := Option.some.inj hat
    exact congrArg Value.list (List.set_eq_modify ..).symm
  | cons j path ih =>
    obtain ⟨child, hchild, hinner⟩ := Option.bind_eq_some_iff.1 hat
    have hmodify : v.children.modify j (putAt (path ++ [i]) · row) =
        v.children.modify j (putAt path · (.list (items.set i row))) := by
      rw [List.modify_eq_set_getElem?, List.modify_eq_set_getElem?, hchild]
      exact congrArg (v.children.set j) (ih hinner)
    cases v with
    | list former => exact congrArg Value.list hmodify
    | tuple former => exact congrArg Value.tuple hmodify
    | _ => rfl

namespace Object

section Filling

variable {shape : Shape} {array template : Object} {row filled : Value} {cells : Cells}
  {path : List Nat}

/-- What becomes of an array of objects is what becomes of the value it holds, and nothing in it is
shared. -/
def Mirrors (shape : Shape) (path : List Nat) (expected : Except Fault Walk)
    (outcome : Except Fault Object) : Prop :=
  expected = outcome.map (fun after ↦ .standing shape after.value path) ∧
    ∀ after, outcome = .ok after → after.ids.Nodup

/-- A row that is no object of its own is replaced in an array of objects as in the value it
holds. -/
theorem replaceRow_standing (hshape : shape.Regular)
    (hpath : path.length = shape.outerLengths.length) (hnodup : array.ids.Nodup) {row : Object}
    (hrow : row.ids = []) :
    Mirrors shape path ((Walk.standing shape array.value path).replaceRow row.value)
      (array.replaceRow (.standing shape array.value path) row) := by
  have hrank : shape.rank = path.length + 1 := by rw [hshape.rank_eq, hpath]
  by_cases hne : path = []
  · subst hne
    have hreplace : array.replaceRow (.standing shape array.value []) row = .ok row := if_pos hrank
    rw [hreplace, Walk.replaceRow_standing hshape hpath fun h ↦ absurd rfl h]
    refine ⟨rfl, fun after hafter ↦ ?_⟩
    rw [← Except.ok.inj hafter, hrow]
    exact List.nodup_nil
  · have hpos := List.length_pos_iff.2 hne
    have hinside : shape.rank ≠ 1 := by omega
    have hpart : array.value.part path.dropLast =
        ((array.at? path.dropLast).map value).getD .null :=
      congrArg (Option.getD · Value.null) (value_at? _ array).symm
    rw [replaceRow, Walk.shape_standing, if_neg hinside]
    dsimp only
    rw [Walk.parent_standing hshape hpath, Walk.indexOf_standing hshape hpath hne]
    split
    · next id items hparent =>
      have hlist : array.value.at? path.dropLast = some (.list (values items)) := by
        rw [← value_at?, hparent]
        rfl
      have hvalue := value_assign (list id (items.set (path.getLast hne) row)) hnodup hparent rfl
      rw [value, values_eq_map, List.map_set, ← values_eq_map, ← Value.putAt_append hlist,
        List.dropLast_append_getLast] at hvalue
      rw [Walk.replaceRow_standing hshape hpath fun _ ↦ ⟨_, Value.part_eq_of_at? hlist⟩]
      refine ⟨congrArg (fun v ↦ Except.ok (Walk.standing shape v path)) hvalue.symm, ?_⟩
      rintro _ ⟨⟩
      refine (ids_assign_sublist hnodup hparent rfl ?_).nodup hnodup
      refine (idsOf_set_sublist fun item _ ↦ ?_).cons_cons id
      exact hrow ▸ List.nil_sublist _
    · next hother =>
      have hnone : ¬∃ items, array.value.part path.dropLast = .list items := by
        rintro ⟨items, hitems⟩
        rw [hpart] at hitems
        rcases hat : array.at? path.dropLast with _ | parent
        · rw [hat] at hitems
          exact absurd hitems (by simp)
        · rw [hat] at hitems
          obtain ⟨id, former, rfl⟩ := exists_list_of_value hitems
          exact hother id former hat
      rw [Walk.replaceRow_standing_refused hshape hpath hne hnone]
      exact ⟨rfl, fun after hafter ↦ absurd hafter (by simp)⟩

/-- A filled row is put into an array of objects as into the value it holds. -/
theorem putFilled_standing (hshape : shape.Regular)
    (hpath : path.length = shape.outerLengths.length) (hnodup : array.ids.Nodup)
    (hrow : array.value.at? path = some row) (hcells : cells.Plain)
    (hfill : fillRow row cells = .ok filled) :
    Mirrors shape path (Stowage.putFilled (.standing shape array.value path) row filled)
      (array.putFilled (.standing shape array.value path) filled) := by
  obtain ⟨part, hpart, rfl⟩ : ∃ part, array.at? path = some part ∧ part.value = row := by
    rw [← value_at?] at hrow
    exact Option.map_eq_some_iff.1 hrow
  obtain ⟨hmutable, hchangeable⟩ := hcells.changeable_fillRow hfill
  have hnew : (ofValue array.fresh filled).ids =
      List.range' array.fresh (if part.value.isMutable then 1 else 0) :=
    hchangeable ▸ ids_ofValue _ _
  rw [isMutable_value] at hmutable hnew
  unfold Stowage.putFilled putFilled
  dsimp only
  rw [Walk.shape_standing, Walk.place_standing hshape hpath, hpart, Option.bind_some,
    isMutable_value]
  rcases hid : part.id? with _ | id
  · rw [hid] at hnew
    have hreplace := replaceRow_standing hshape hpath hnodup hnew
    rwa [value_ofValue] at hreplace
  · rw [hid] at hnew hmutable
    have hvalue := value_assign ((ofValue array.fresh filled).withId id) hnodup hpart hid
    rw [value_withId, value_ofValue] at hvalue
    have hids : ((ofValue array.fresh filled).withId id).ids = [id] := by
      have hsome : (ofValue array.fresh filled).id?.isSome = true := by
        rw [← isMutable_value, value_ofValue, hmutable]
        rfl
      rw [ids_withId hsome, hnew]
      rfl
    dsimp only [Option.isSome_some]
    rw [if_pos rfl, Walk.putRow_standing hshape hpath]
    refine ⟨congrArg (fun v ↦ Except.ok (Walk.standing shape v path)) hvalue.symm, ?_⟩
    rintro _ ⟨⟩
    refine (ids_assign_sublist hnodup hpart hid ?_).nodup hnodup
    rw [hids]
    exact List.singleton_sublist.2 (mem_ids_of_id? hid)

/-- Assumes: a walk that stands at the last row of the first ones. The loop over the other rows does
to an array without shared objects what it does to the value the array holds. -/
theorem fillRows_refines (hshape : shape.Regular)
    (hframed : array.value.Framed shape.outerLengths) (hnodup : array.ids.Nodup)
    (hcells : cells.Plain) {first : Nat} {rest : List Value}
    (hrest : (shape.rowsOf array.value).drop first = rest) (hfirst : first ≤ shape.rowCount) :
    let walk : Walk := .standing shape array.value (digits shape.outerLengths (first - 1))
    let outcome := array.fillRows (rest.length + 1) walk (.ready (first * shape.rowSize)) cells
    let expected := Stowage.fillRows (rest.length + 1) walk (.ready (first * shape.rowSize)) cells
    outcome.1 = expected.1 ∧ outcome.2.value = expected.2.array := by
  intro walk outcome expected
  induction rest generalizing array first cells with
  | nil =>
    obtain rfl : first = shape.rowCount := by
      have hle := List.drop_eq_nil_iff.1 hrest
      rw [Shape.rowsOf, hframed.length_rows] at hle
      exact Nat.le_antisymm hfirst hle
    dsimp only [outcome, expected, walk, List.length_nil]
    rw [fillRows, Stowage.fillRows, Walk.pull_end hshape]
    exact ⟨rfl, rfl⟩
  | cons row rest ih =>
    have hrow : (shape.rowsOf array.value)[first]? = some row := by
      rw [← List.head?_drop, hrest]
      rfl
    have hlt : first < shape.rowCount := hframed.lt_of_getElem? hrow
    have hplace : array.value.at? (digits shape.outerLengths first) = some row :=
      (hframed.at?_digits hlt).trans hrow
    have hpath : (digits shape.outerLengths first).length = shape.outerLengths.length :=
      length_digits _ _
    dsimp only [outcome, expected, walk]
    rw [List.length_cons, fillRows, Stowage.fillRows,
      Walk.pull_row hshape hframed (length_digits _ _) hrow]
    dsimp only [Walk.shape_standing]
    rcases hfill : fillRow row (cells.take shape.rowLength) with fault | filled
    · exact ⟨rfl, rfl⟩
    · dsimp only [Except.bind]
      obtain ⟨hput, hkept⟩ := putFilled_standing hshape hpath hnodup hplace (hcells.take _) hfill
      rcases hafter : array.putFilled (.standing shape array.value _) filled with fault | after
      · rw [hput, hafter]
        exact ⟨rfl, rfl⟩
      · have hvalue : after.value =
            array.value.putAt (digits shape.outerLengths first) filled := by
          rw [hafter] at hput
          rcases putFilled_cases hshape hframed hrow hfill with hok | ⟨fault, herror, _⟩
          · exact congrArg Walk.array (Except.ok.inj (hput.symm.trans hok))
          · exact absurd (hput.symm.trans herror) (by simp [Except.map])
        have hrows : shape.rowsOf after.value = (shape.rowsOf array.value).set first filled :=
          hvalue ▸ hframed.rows_putAt hlt filled
        have hrestNext : (shape.rowsOf after.value).drop (first + 1) = rest := by
          rw [hrows, List.drop_set_of_lt (Nat.lt_succ_self first), List.drop_add_one_eq_tail_drop,
            hrest, List.tail_cons]
        rw [hput, hafter]
        exact ih (hvalue ▸ hframed.putAt hpath filled) (hkept after hafter) (hcells.drop _)
          hrestNext hlt

/-- An array of objects is filled by the loop over all its rows. -/
theorem unflatten_eq {data : Value} {wanted : Option NumberType}
    (h : Shape.describe template.value wanted = .ok shape)
    (hread : readFlat shape data = .ok cells) :
    let outcome := template.fillRows (shape.rowCount + 1)
      (.standing shape template.value (digits shape.outerLengths 0)) (.ready 0) cells
    unflatten data template wanted =
      ⟨outcome.1.map fun _ ↦ outcome.2,
        if shape.rank = 1 ∧ template.id? = none then template else outcome.2⟩ := by
  intro outcome
  rw [unflatten, Walk.ofArray_eq_ok h]
  dsimp only [Walk.shape_standing]
  rw [hread]
  rfl

/-- Where nothing is shared, an array of objects is filled as the value that it holds is. -/
theorem unflatten_refines (data : Value) (wanted : Option NumberType)
    (hnodup : template.ids.Nodup) :
    (unflatten data template wanted).result.map value =
        (Stowage.unflatten data template.value wanted).result ∧
      (unflatten data template wanted).template.value =
        (Stowage.unflatten data template.value wanted).template := by
  rcases h : Shape.describe template.value wanted with fault | shape
  · have hwalk : Walk.ofArray template.value wanted = .error fault := by
      rw [Walk.ofArray, h]
      rfl
    rw [unflatten, Stowage.unflatten, hwalk]
    exact ⟨rfl, rfl⟩
  rcases hread : readFlat shape data with fault | cells
  · have hwalk := Walk.ofArray_eq_ok h
    rw [unflatten, Stowage.unflatten, hwalk]
    dsimp only [Walk.shape_standing]
    rw [hread]
    exact ⟨rfl, rfl⟩
  have hfits := Shape.fits_of_describe h
  have hlength : (shape.rowsOf template.value).length = shape.rowCount :=
    hfits.framed.length_rows
  have hall : (shape.rowsOf template.value).drop 0 = shape.rowsOf template.value := List.drop_zero
  have hrank := congrArg Shape.rank (fillRows_progress cells hfits.toRegular hfits.framed hall
    (Nat.zero_le _)).shape_eq
  obtain ⟨hresult, harray⟩ := fillRows_refines hfits.toRegular hfits.framed hnodup
    (Cells.plain_of_readFlat hread) hall (Nat.zero_le _)
  rw [hlength, Nat.zero_sub, Nat.zero_mul] at hrank hresult harray
  have hfixed : template.id? = none ↔ (!template.value.isMutable) = true := by
    rw [isMutable_value]
    cases template.id? <;> simp
  rw [unflatten_eq h hread, Stowage.unflatten_eq h hread]
  refine ⟨?_, ?_⟩
  · rw [hresult, ← harray]
    cases (Stowage.fillRows _ _ _ cells).1 <;> rfl
  · rw [← harray]
    by_cases hkept : shape.rank = 1 ∧ template.id? = none
    · rw [if_pos hkept, if_pos ⟨hrank.trans hkept.1, hfixed.1 hkept.2⟩]
    · rw [if_neg hkept, if_neg fun h ↦ hkept ⟨hrank.symm.trans h.1, hfixed.2 h.2⟩]

/-- What comes of filling the value comes of filling the array of objects. -/
theorem exists_unflatten {data : Value} {wanted : Option NumberType} (hnodup : template.ids.Nodup)
    {found : Value} (h : (Stowage.unflatten data template.value wanted).result = .ok found) :
    ∃ result, (unflatten data template wanted).result = .ok result ∧ result.value = found :=
  Outcome.map_eq_ok.1 ((unflatten_refines data wanted hnodup).1.trans h)

end Filling

/-! ### Flat forms and back -/

section RoundTrip

variable {source data : Value} {target template : Object} {wanted : Option NumberType}
  {shape other : Shape}

/-- Unflattening undoes flattening. Assumes: two arrays of one shape, as it is found with the same
number type wanted, of which the first has rows of lists and tuples and the second has rows for
numbers of this type, or both have rows of bytes; rows of the second that cannot be changed in place
stand in lists, and nothing that can be is shared in it. When the first has a flat form, the second
can be filled from it. It is then made of the same containers as before and has the elements of the
first, position by position, as the number type keeps them: an integer type keeps integers, and
truth values as 0 and 1; a 64-bit floating point type keeps the word of a number, and a 32-bit one
what the number was rounded to; both keep integers as the numbers they are rounded to. -/
theorem unflatten_flatten {flat : Flat} (h : Shape.describe source wanted = .ok shape)
    (hto : Shape.describe target.value wanted = .ok other)
    (hlengths : other.lengths = shape.lengths) (htype : other.type = shape.type)
    (hrows : (∀ row ∈ shape.rowsOf source, row.isSequence = true) ∧
        (∀ row ∈ other.rowsOf target.value, row.Takes shape.type) ∨
      (∀ row ∈ shape.rowsOf source, ∃ data, row.data? = some data) ∧
        ∀ row ∈ other.rowsOf target.value, ∃ data, row.data? = some data)
    (hreplaceable : target.value.Replaceable other.outerLengths.length)
    (hnodup : target.ids.Nodup) (hflat : flatten source wanted = .ok flat) :
    ∃ result, (unflatten (flat.value source) target wanted).result = .ok result ∧
      target.value.Alike other.outerLengths.length result.value ∧
      other.leavesOf result.value = (shape.leavesOf source).map shape.type.kept := by
  obtain ⟨found, hfound, halike, hleaves⟩ :=
    unflatten_of_flatten h hto hlengths htype hrows hreplaceable hflat
  obtain ⟨result, hresult, rfl⟩ := exists_unflatten hnodup hfound
  exact ⟨result, hresult, halike, hleaves⟩

/-- Tuples in a list take the place of those that held zeros. -/
theorem unflatten_flatten_tuples :
    let source := Value.list [.list [.int 1, .bool true], .tuple [.int 300, .int (-2)]]
    let target := Value.list [.tuple [.int 0, .int 0], .tuple [.int 0, .int 0]]
    let shape : Shape := ⟨[2, 2], .int16, false⟩
    Shape.describe source (some .int16) = .ok shape ∧
      Shape.describe (ofValue 0 target).value (some .int16) = .ok shape ∧
      flatten source (some .int16) = .ok (.fresh [1, 0, 1, 0, 44, 1, 254, 255]) ∧
      ∃ result, (unflatten (.buffer [1, 0, 1, 0, 44, 1, 254, 255]) (ofValue 0 target)
          (some .int16)).result = .ok result ∧
        (ofValue 0 target).value.Alike 1 result.value ∧
        shape.leavesOf result.value = [.int 1, .int 1, .int 300, .int (-2)] := by
  intro source target shape
  have h : Shape.describe source (some .int16) = .ok shape := by rfl
  have hto : Shape.describe (ofValue 0 target).value (some .int16) = .ok shape := by
    rw [value_ofValue]
    rfl
  have hflat : flatten source (some .int16) = .ok (.fresh [1, 0, 1, 0, 44, 1, 254, 255]) := by
    dsimp only [source]
    rfl
  have hfrom : ∀ row ∈ shape.rowsOf source, row.isSequence = true := by decide
  have hinto : ∀ row ∈ shape.rowsOf (ofValue 0 target).value, row.Takes .int16 := by
    intro row hrow
    obtain rfl | rfl : row = .tuple [.int 0, .int 0] ∨ row = .tuple [.int 0, .int 0] := by
      simpa [target, shape, Shape.rowsOf, Shape.outerLengths, Value.rows, Value.children,
        Value.elements?, Value.isArray] using hrow
    all_goals trivial
  have hreplaceable : (ofValue 0 target).value.Replaceable shape.outerLengths.length := by
    rw [value_ofValue]
    intro parent hparent
    exact .inl ⟨_, List.mem_singleton.1 hparent⟩
  exact ⟨h, hto, hflat, unflatten_flatten h hto rfl rfl (.inl ⟨hfrom, hinto⟩) hreplaceable
    (nodup_ids_ofValue 0 target) hflat⟩

/-- Two kinds of arrays do not come back. A list that stands at two places of an array shows at both
what was put into it last; and an integer among numbers of a floating point type comes back as the
number it was rounded to, like another integer. -/
theorem unflatten_flatten_shared :
    let source := Value.list [.list [.int 1, .int 2], .list [.int 3, .int 4]]
    let zeros := list 1 [fixed (.int 0) rfl, fixed (.int 0) rfl]
    let rounded := Value.list [.float 0x3ff8000000000000, .int 9007199254740993]
    let raw : Bytes := [0, 0, 0, 0, 0, 0, 0xf8, 0x3f, 0, 0, 0, 0, 0, 0, 0x40, 0x43]
    (Shape.describe source (some .int8) = .ok ⟨[2, 2], .int8, false⟩ ∧
      Shape.describe (list 0 [zeros, zeros]).value (some .int8) = .ok ⟨[2, 2], .int8, false⟩ ∧
      flatten source (some .int8) = .ok (.fresh [1, 2, 3, 4]) ∧
      (unflatten (.buffer [1, 2, 3, 4]) (list 0 [zeros, zeros]) (some .int8)).result.map value =
        .ok (.list [.list [.int 3, .int 4], .list [.int 3, .int 4]])) ∧
    flatten rounded (some .float64) = .ok (.fresh raw) ∧
      (unflatten (.buffer raw) (ofValue 0 rounded) (some .float64)).result.map value =
        .ok (.list [.float 0x3ff8000000000000, .float 0x4340000000000000]) ∧
      NumberType.float64.kept (.int 9007199254740992) = .float 0x4340000000000000 := by
  intro source zeros rounded raw
  dsimp only [source, zeros, rounded, raw]
  exact ⟨⟨rfl, rfl, rfl, rfl⟩, rfl, rfl, rfl⟩

/-- Flattening undoes unflattening. Assumes: an array with a shape, whose rows are of one kind, in
which rows that cannot be changed in place stand in lists, and nothing that can be is shared; and a
buffer of single bytes that has the size of the array, in which no element of a floating point type
is a NaN. The array can be filled from these bytes, and the result has a flat form, with the same
number type wanted, which holds exactly these bytes. -/
theorem flatten_unflatten {raw : Bytes} (h : Shape.describe template.value wanted = .ok shape)
    (hrows : shape.Homogeneous template.value)
    (hreplaceable : template.value.Replaceable shape.outerLengths.length)
    (hnodup : template.ids.Nodup) (hdata : data.octets? = some raw)
    (hlength : raw.length = shape.byteCount)
    (hnan : ∀ k < shape.elementCount,
      shape.type.isNan (Bytes.cut raw (k * shape.type.size) shape.type.size) = false) :
    ∃ result, (unflatten data template wanted).result = .ok result ∧
      ∃ flat, flatten result.value wanted = .ok flat ∧
        (flat.value result.value).data? = some raw := by
  obtain ⟨found, hfound, hflat⟩ := flatten_of_unflatten h hrows hreplaceable hdata hlength hnan
  obtain ⟨result, hresult, rfl⟩ := exists_unflatten hnodup hfound
  exact ⟨result, hresult, hflat⟩

/-- Two rows of 32-bit numbers in a list, among them an infinity and the smallest number. -/
theorem flatten_unflatten_tuples :
    let zeros := Value.list [.tuple [.float 0, .float 0], .tuple [.float 0, .float 0]]
    let raw : Bytes := [0, 0, 128, 63, 0, 0, 32, 192, 0, 0, 128, 127, 1, 0, 0, 0]
    Shape.describe (ofValue 0 zeros).value (some .float32) = .ok ⟨[2, 2], .float32, false⟩ ∧
      ∃ result, (unflatten (.bytes raw) (ofValue 0 zeros) (some .float32)).result = .ok result ∧
        ∃ flat, flatten result.value (some .float32) = .ok flat ∧
          (flat.value result.value).data? = some raw := by
  intro zeros raw
  have hzeros : (ofValue 0 zeros).value = zeros := value_ofValue 0 zeros
  have h : Shape.describe (ofValue 0 zeros).value (some .float32) =
      .ok ⟨[2, 2], .float32, false⟩ := by
    rw [hzeros]
    rfl
  have hrows : Shape.Homogeneous ⟨[2, 2], .float32, false⟩ (ofValue 0 zeros).value :=
    .inl (hzeros ▸ by decide)
  have hreplaceable : (ofValue 0 zeros).value.Replaceable 1 := by
    rw [hzeros]
    exact fun parent hparent ↦ .inl ⟨_, List.mem_singleton.1 hparent⟩
  have hnan : ∀ k < 4, NumberType.float32.isNan (Bytes.cut raw (k * 4) 4) = false := by decide
  exact ⟨h, flatten_unflatten h hrows hreplaceable (nodup_ids_ofValue 0 zeros) rfl rfl hnan⟩

/-- Two kinds of buffers do not come back: those that an array with a shared list is filled from,
since both places of the list show what was put into it last; and those with items of more than one
byte, which are refused since their items are counted and not their bytes. -/
theorem flatten_unflatten_shared :
    let zeros := list 1 [fixed (.int 0) rfl, fixed (.int 0) rfl]
    let words : PackedArray := ⟨.signedInt, [1, 2, 3, 4]⟩
    let numbers := Value.list [.int 0, .int 0, .int 0, .int 0]
    (Shape.describe (list 0 [zeros, zeros]).value (some .int8) = .ok ⟨[2, 2], .int8, false⟩ ∧
      ∃ result, (unflatten (.buffer [1, 2, 3, 4]) (list 0 [zeros, zeros]) (some .int8)).result =
          .ok result ∧
        flatten result.value (some .int8) = .ok (.fresh [3, 4, 3, 4])) ∧
    Shape.describe numbers (some .int32) = .ok ⟨[4], .int32, false⟩ ∧
      words.toBytes.length = Shape.byteCount ⟨[4], .int32, false⟩ ∧
      (unflatten (.packed words) (ofValue 0 numbers) (some .int32)).result.map value =
        .error (.size (.arrayBuffer 4 16)) := by
  intro zeros words numbers
  dsimp only [zeros, words, numbers]
  exact ⟨⟨rfl, _, rfl, rfl⟩, rfl, rfl, rfl⟩

end RoundTrip

end Object

end Stowage
