import Stowage.Proofs.Array.Spine

/-!
# Walks visit the rows in order

What a walk remembers of the last row it visited is right: each level has the index and the place of
the part around this row (`Walk.standing`). Going to an offset keeps this, whichever parts are
looked up again and whichever are not (`Walk.descend_levelsAt`), and so does putting another row in
the place last visited. So the row pulled at the offset of a row is this row, as it has become
(`Walk.pull_row`), and the pull behind the last row ends the walk (`Walk.pull_end`).
-/

set_option autoImplicit false

namespace Stowage

namespace Value

theorem at?_append (path rest : List Nat) (v : Value) :
    v.at? (path ++ rest) = (v.at? path).bind (at? rest) := by
  induction path generalizing v with
  | nil => rfl
  | cons i path ih =>
    rw [List.cons_append, at?, at?]
    cases v.children[i]? with
    | none => rfl
    | some child => exact ih child

theorem part_eq_of_at? {v part : Value} {path : List Nat} (h : v.at? path = some part) :
    v.part path = part := by
  rw [Value.part, h]
  rfl

end Value

namespace Shape

/-- The indexes that dimensions with the given strides and lengths have at a byte offset. -/
def indexesAt (offset : Nat) (strides lengths : List Nat) : List Nat :=
  List.zipWith (fun stride length ↦ offset / stride % length) strides lengths

theorem stridesOf_eq_cons (size : Nat) (lengths : List Nat) :
    stridesOf size lengths = size * countOf lengths :: (stridesOf size lengths).drop 1 := by
  cases lengths with
  | nil => exact congrArg (· :: []) (Nat.mul_one size).symm
  | cons length rest => rfl

/-- The indexes at the offset of a row are the digits of its number. -/
theorem indexesAt_strides {size last : Nat} (hsize : 0 < size) (hlast : 0 < last)
    (outer : List Nat) (k : Nat) :
    indexesAt (k * (size * last)) ((stridesOf size (outer ++ [last])).drop 1) outer =
      digits outer (k % countOf outer) := by
  induction outer with
  | nil => rw [indexesAt, List.zipWith_nil_right, digits]
  | cons length rest ih =>
    have hcount : countOf (rest ++ [last]) = countOf rest * last :=
      (countOf_append rest [last]).trans (congrArg _ (Nat.mul_one last))
    have hstride : k * (size * last) / (size * countOf (rest ++ [last])) = k / countOf rest := by
      rw [hcount, Nat.mul_left_comm size]
      exact Nat.mul_div_mul_right _ _ (Nat.mul_pos hsize hlast)
    have hfirst : k % countOf (length :: rest) / countOf rest = k / countOf rest % length := by
      rw [countOf_cons, Nat.mod_mul_left_div_self]
    have hrest : k % countOf (length :: rest) % countOf rest = k % countOf rest := by
      rw [countOf_cons, Nat.mod_mul_left_mod]
    rw [List.cons_append, stridesOf, List.drop_succ_cons, List.drop_zero, stridesOf_eq_cons,
      indexesAt, List.zipWith_cons_cons, digits, hstride, hfirst, hrest]
    exact congrArg _ ih

theorem digits_zero (lengths : List Nat) : digits lengths 0 = lengths.map fun _ ↦ 0 := by
  induction lengths with
  | nil => rfl
  | cons length rest ih => rw [digits, Nat.zero_div, Nat.zero_mod, ih, List.map_cons]

/-- The last number has the last index of every dimension. -/
theorem digits_last {lengths : List Nat} (hpos : ∀ length ∈ lengths, 0 < length) :
    digits lengths (countOf lengths - 1) = lengths.map (· - 1) := by
  induction lengths with
  | nil => rfl
  | cons length rest ih =>
    obtain ⟨hlength, hrest⟩ := List.forall_mem_cons.1 hpos
    have hcount : 0 < countOf rest := countOf_pos hrest
    have hsplit : length * countOf rest - 1 = countOf rest - 1 + countOf rest * (length - 1) := by
      obtain ⟨n, rfl⟩ : ∃ n, length = n + 1 := ⟨length - 1, by omega⟩
      rw [Nat.add_sub_cancel, Nat.succ_mul, Nat.mul_comm]
      omega
    rw [digits, countOf_cons, hsplit, Nat.add_mul_div_left _ _ hcount, Nat.add_mul_mod_self_left,
      Nat.div_eq_of_lt (by omega), Nat.mod_eq_of_lt (by omega), ih hrest, Nat.zero_add,
      List.map_cons]

end Shape

namespace Walk

open Shape (digits digits_last indexesAt indexesAt_strides length_digits)

/-! ### What is remembered -/

theorem levelsAt_nil_lengths (place strides path : List Nat) :
    levelsAt place strides [] path = [] := by
  cases strides <;> rfl

/-- Assumes: levels that remember a path of indexes below a place, and an offset whose indexes lead
somewhere below a place; these places are the same unless the first has changed. Going down to the
offset leads there and leaves levels that remember it. -/
theorem descend_levelsAt {array : Value} {offset : Nat} {strides lengths path : List Nat}
    (hpath : path.length = lengths.length) (hstrides : lengths.length ≤ strides.length)
    (hpos : ∀ length ∈ lengths, 0 < length) {place remembered : List Nat} {changed : Bool}
    (hremembered : changed = false → remembered = place)
    (hleads : (array.at? (place ++ indexesAt offset strides lengths)).isSome) (number : Nat) :
    descend array offset number place changed (levelsAt remembered strides lengths path) =
      (.ok (place ++ indexesAt offset strides lengths),
        levelsAt place strides lengths (indexesAt offset strides lengths)) := by
  induction lengths generalizing strides path place remembered changed number with
  | nil =>
    rw [levelsAt_nil_lengths, levelsAt_nil_lengths, descend, indexesAt, List.zipWith_nil_right,
      List.append_nil]
  | cons length rest ih =>
    obtain ⟨i, path, rfl⟩ := List.exists_cons_of_length_eq_add_one hpath
    obtain ⟨stride, strides, rfl⟩ := List.exists_cons_of_length_pos (Nat.lt_of_lt_of_le
      (Nat.succ_pos rest.length) hstrides)
    obtain ⟨hlength, hrest⟩ := List.forall_mem_cons.1 hpos
    have hinner : path.length = rest.length := Nat.succ.inj hpath
    have henough : rest.length ≤ strides.length := Nat.le_of_succ_le_succ hstrides
    generalize hindex : offset / stride % length = index
    have hindexes : indexesAt offset (stride :: strides) (length :: rest) =
        index :: indexesAt offset strides rest := by
      rw [indexesAt, List.zipWith_cons_cons, hindex, indexesAt]
    have hplace : place ++ index :: indexesAt offset strides rest =
        place ++ [index] ++ indexesAt offset strides rest := by
      rw [List.append_assoc, List.singleton_append]
    rw [hindexes, hplace] at hleads
    rw [hindexes, hplace, levelsAt, levelsAt, descend]
    simp only [hindex]
    split
    · next hsame =>
      obtain ⟨rfl, hunchanged⟩ := hsame
      obtain rfl := hremembered (by simpa using hunchanged)
      rw [ih hinner henough hrest (fun _ ↦ rfl) hleads]
    · have hlt : index < length := hindex ▸ Nat.mod_lt _ hlength
      have hchild : ((array.part place).children[index]?).isSome := by
        rw [List.append_assoc, Value.at?_append] at hleads
        obtain ⟨v, hv⟩ := Option.isSome_iff_exists.1 (Option.isSome_of_isSome_bind hleads)
        rw [hv, Option.bind_some, List.singleton_append, Value.at?] at hleads
        rw [Value.part_eq_of_at? hv]
        exact Option.isSome_of_isSome_bind hleads
      obtain ⟨child, hchild⟩ := Option.isSome_iff_exists.1 hchild
      rw [if_neg (by omega), hchild]
      dsimp only
      rw [ih hinner henough hrest (fun h ↦ absurd h (by simp)) hleads]

theorem getElem?_levelsAt {strides lengths path : List Nat} (hpath : path.length = lengths.length)
    (hstrides : lengths.length ≤ strides.length) (place : List Nat) {i : Nat}
    (hi : i < path.length) :
    ∃ level, (levelsAt place strides lengths path)[i]? = some level ∧
      level.index = path[i] ∧ level.place = place ++ path.take (i + 1) := by
  induction path generalizing strides lengths place i with
  | nil => exact absurd hi (Nat.not_lt_zero i)
  | cons index path ih =>
    obtain ⟨length, rest, rfl⟩ := List.exists_cons_of_length_eq_add_one hpath.symm
    obtain ⟨stride, strides, rfl⟩ := List.exists_cons_of_length_pos (Nat.lt_of_lt_of_le
      (Nat.succ_pos rest.length) hstrides)
    cases i with
    | zero => exact ⟨_, rfl, rfl, rfl⟩
    | succ i =>
      obtain ⟨level, hlevel, hindex, hplace⟩ := ih (Nat.succ.inj hpath)
        (Nat.le_of_succ_le_succ hstrides) (place ++ [index]) (Nat.lt_of_succ_lt_succ hi)
      refine ⟨level, hlevel, hindex, hplace.trans ?_⟩
      rw [List.append_assoc, List.singleton_append, List.take_succ_cons]

theorem firstUnfinished_levelsAt {strides lengths : List Nat}
    (hpos : ∀ length ∈ lengths, 0 < length) (place : List Nat) (number : Nat) :
    firstUnfinished number (levelsAt place strides lengths (lengths.map (· - 1))) = none := by
  induction lengths generalizing strides place number with
  | nil => rw [levelsAt_nil_lengths, firstUnfinished]
  | cons length rest ih =>
    obtain ⟨hlength, hrest⟩ := List.forall_mem_cons.1 hpos
    cases strides with
    | nil => rfl
    | cons stride strides =>
      have hlast : length - 1 + 1 = length := Nat.sub_add_cancel hlength
      rw [List.map_cons, levelsAt, firstUnfinished, if_pos hlast]
      exact ih hrest _ _

/-! ### Standing at a row -/

/-- Assumes: the place of the last level is that of the part around it, one index further. Inside a
list, a row is replaced by putting the other one in the place last visited. -/
theorem replaceRow_of_list {walk : Walk} {row : Value} {items : List Value}
    (hrank : walk.shape.rank ≠ 1)
    (hparent : walk.array.part (walk.placeOf (walk.shape.rank - 2)) = .list items)
    (hplace : walk.placeOf (walk.shape.rank - 2) ++ [walk.indexOf (walk.shape.rank - 1)] =
      walk.placeOf (walk.shape.rank - 1)) :
    walk.replaceRow row = .ok (walk.putRow row) := by
  rw [replaceRow, if_neg hrank]
  simp only [hparent, hplace]
  rfl

section Standing

variable {shape : Shape} {array row : Value} {path : List Nat}

@[simp] theorem shape_standing (shape : Shape) (array : Value) (path : List Nat) :
    (standing shape array path).shape = shape := rfl

theorem length_outerLengths_le (shape : Shape) :
    shape.outerLengths.length ≤ (shape.strides.drop 1).length := by
  have hstrides (size : Nat) (lengths : List Nat) :
      (Shape.stridesOf size lengths).length = lengths.length + 1 := by
    induction lengths with
    | nil => rfl
    | cons length rest ih => rw [Shape.stridesOf, List.length_cons, ih, List.length_cons]
  rw [Shape.outerLengths, List.length_dropLast, Shape.strides, List.length_drop, hstrides]
  omega

theorem placeOf_standing (hpath : path.length = shape.outerLengths.length) {i : Nat}
    (hi : i ≤ path.length) : (standing shape array path).placeOf i = path.take i := by
  cases i with
  | zero => rfl
  | succ i =>
    obtain ⟨level, hlevel, _, hplace⟩ :=
      getElem?_levelsAt hpath (length_outerLengths_le shape) [] hi
    rw [placeOf, standing, List.getElem?_cons_succ, hlevel, Option.map_some, hplace]
    rfl

/-- The place of the row last visited. -/
theorem place_standing (hshape : shape.Regular)
    (hpath : path.length = shape.outerLengths.length) :
    (standing shape array path).placeOf (shape.rank - 1) = path := by
  have hlast : shape.rank - 1 = path.length := by rw [hshape.rank_eq, hpath, Nat.add_sub_cancel]
  rw [hlast, placeOf_standing hpath (Nat.le_refl _), List.take_length]

/-- Putting contents into the row last visited changes the array there. -/
theorem putRow_standing (hshape : shape.Regular)
    (hpath : path.length = shape.outerLengths.length) :
    (standing shape array path).putRow row = standing shape (array.putAt path row) path :=
  congrArg (fun place ↦ standing shape (array.putAt place row) path) (place_standing hshape hpath)

/-- The part around the row last visited. -/
theorem parent_standing (hshape : shape.Regular)
    (hpath : path.length = shape.outerLengths.length) :
    (standing shape array path).placeOf (shape.rank - 2) = path.dropLast := by
  rw [placeOf_standing hpath (by rw [hshape.rank_eq, hpath]; omega), hshape.rank_eq, ← hpath,
    List.dropLast_eq_take]
  rfl

/-- The index of the row last visited in the part around it. -/
theorem indexOf_standing (hshape : shape.Regular)
    (hpath : path.length = shape.outerLengths.length) (hne : path ≠ []) :
    (standing shape array path).indexOf (shape.rank - 1) = path.getLast hne := by
  have hrank : shape.rank = path.length + 1 := by rw [hshape.rank_eq, hpath]
  have hlength : path.length - 1 < path.length :=
    Nat.sub_one_lt (mt List.length_eq_zero_iff.1 hne)
  obtain ⟨level, hlevel, hindex, _⟩ :=
    getElem?_levelsAt hpath (length_outerLengths_le shape) [] hlength
  have hlast : shape.rank - 1 = path.length - 1 + 1 := by omega
  rw [indexOf, standing, hlast, List.getElem?_cons_succ, hlevel, Option.map_some, hindex,
    List.getLast_eq_getElem]
  rfl

/-- Assumes: the part around the row last visited is no list. No row can be put there. -/
theorem replaceRow_standing_refused (hshape : shape.Regular)
    (hpath : path.length = shape.outerLengths.length) (hne : path ≠ [])
    (hparent : ¬∃ items, array.part path.dropLast = .list items) :
    (standing shape array path).replaceRow row =
      .error (.conversion (.immutableParent (array.part path.dropLast).kindName)) := by
  have hinside : ¬(standing shape array path).shape.rank = 1 := by
    have hpos := List.length_pos_iff.2 hne
    rw [shape_standing, hshape.rank_eq, ← hpath]
    omega
  have hplace : (standing shape array path).array.part
      ((standing shape array path).placeOf ((standing shape array path).shape.rank - 2)) =
        array.part path.dropLast := congrArg array.part (parent_standing hshape hpath)
  rw [replaceRow, if_neg hinside]
  dsimp only
  rw [hplace]
  split
  · next items hitems => exact absurd ⟨items, hitems⟩ hparent
  · rfl

/-- Assumes: the part around the row last visited, if there is one, is a list. Putting another row
there changes the array. -/
theorem replaceRow_standing (hshape : shape.Regular)
    (hpath : path.length = shape.outerLengths.length)
    (hparent : path ≠ [] → ∃ items, array.part path.dropLast = .list items) :
    (standing shape array path).replaceRow row =
      .ok (standing shape (array.putAt path row) path) := by
  have hrank : shape.rank = path.length + 1 := by rw [hshape.rank_eq, hpath]
  by_cases hne : path = []
  · subst hne
    exact if_pos hrank
  · obtain ⟨items, hitems⟩ := hparent hne
    have hpos := List.length_pos_iff.2 hne
    have hinside : shape.rank ≠ 1 := by omega
    have hparentPlace : (standing shape array path).placeOf (shape.rank - 2) = path.dropLast :=
      parent_standing hshape hpath
    have hlist : array.part ((standing shape array path).placeOf (shape.rank - 2)) = .list items :=
      hparentPlace ▸ hitems
    rw [← putRow_standing hshape hpath]
    refine replaceRow_of_list hinside hlist ?_
    change _ ++ [(standing shape array path).indexOf (shape.rank - 1)] = _
    rw [indexOf_standing hshape hpath hne]
    change (standing shape array path).placeOf (shape.rank - 2) ++ _ =
      (standing shape array path).placeOf (shape.rank - 1)
    rw [hparentPlace, place_standing hshape hpath, List.dropLast_append_getLast]

/-- Going to the offset of a row, from whichever row, leads to this row. -/
theorem seek_standing (hshape : shape.Regular) (hframed : array.Framed shape.outerLengths)
    (hpath : path.length = shape.outerLengths.length) {k : Nat}
    (hrow : (shape.rowsOf array)[k]? = some row) :
    (standing shape array path).seek (k * shape.rowSize) =
      (.ok row, standing shape array (digits shape.outerLengths k)) := by
  have hk : k < shape.rowCount := hframed.lt_of_getElem? hrow
  have hplace : array.at? (digits shape.outerLengths k) = some row :=
    (hframed.at?_digits hk).trans hrow
  have hindexes : indexesAt (k * shape.rowSize) (shape.strides.drop 1) shape.outerLengths =
      digits shape.outerLengths k := by
    have h := indexesAt_strides shape.type.size_pos hshape.rowLength_pos shape.outerLengths k
    rwa [← hshape.lengths_eq, ← Shape.rowCount, Nat.mod_eq_of_lt hk] at h
  have hleads : (array.at? ([] ++ indexesAt (k * shape.rowSize) (shape.strides.drop 1)
      shape.outerLengths)).isSome := by
    rw [List.nil_append, hindexes, hplace]
    rfl
  have hdescend := descend_levelsAt hpath (length_outerLengths_le shape) hshape.outer_pos
    (fun _ ↦ rfl : false = false → [] = []) hleads 1
  rw [List.nil_append, hindexes] at hdescend
  rw [seek, standing, descend]
  simp only [Nat.mod_one, Bool.not_false, and_self, if_true, hdescend]
  rw [Except.map, Value.part_eq_of_at? hplace]
  rfl

/-- The pull at the offset of a row gives this row. -/
theorem pull_row (hshape : shape.Regular) (hframed : array.Framed shape.outerLengths)
    (hpath : path.length = shape.outerLengths.length) {k : Nat}
    (hrow : (shape.rowsOf array)[k]? = some row) :
    (standing shape array path).pull (.ready (k * shape.rowSize)) =
      (.ok (some (k * shape.rowSize, row)), .ready ((k + 1) * shape.rowSize),
        standing shape array (digits shape.outerLengths k)) := by
  have hk : k < shape.rowCount := hframed.lt_of_getElem? hrow
  have hinside : k * shape.rowSize < shape.byteCount := by
    rw [hshape.byteCount_eq]
    exact Nat.mul_lt_mul_of_pos_right hk hshape.rowSize_pos
  rw [pull, shape_standing, if_pos hinside, seek_standing hshape hframed hpath hrow, Nat.succ_mul]
  rfl

/-- The pull behind the last row ends a walk that stands there. -/
theorem pull_end (hshape : shape.Regular) :
    (standing shape array (digits shape.outerLengths (shape.rowCount - 1))).pull
        (.ready (shape.rowCount * shape.rowSize)) =
      (.ok none, .finished,
        standing shape array (digits shape.outerLengths (shape.rowCount - 1))) := by
  have hend : ¬shape.rowCount * shape.rowSize < shape.byteCount := by
    rw [hshape.byteCount_eq]
    exact Nat.lt_irrefl _
  have hcomplete : (standing shape array
      (digits shape.outerLengths (shape.rowCount - 1))).checkComplete
        (shape.rowCount * shape.rowSize : Nat) = .ok () := by
    have hlast := digits_last hshape.outer_pos
    rw [checkComplete, if_neg (by exact_mod_cast hend), standing, firstUnfinished, if_pos rfl,
      Shape.rowCount, hlast, firstUnfinished_levelsAt hshape.outer_pos]
  rw [pull, shape_standing, if_neg hend, hcomplete]

end Standing

theorem ofArray_eq_ok {array : Value} {wanted : Option NumberType} {shape : Shape}
    (h : Shape.describe array wanted = .ok shape) :
    ofArray array wanted = .ok (standing shape array (digits shape.outerLengths 0)) := by
  rw [ofArray, h, Outcome.ok_bind, Shape.digits_zero]

end Walk

end Stowage
