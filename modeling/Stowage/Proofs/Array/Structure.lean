import Stowage.Proofs.Array.Traversal

/-!
# Arrays that differ in their elements alone

Two arrays are alike down to a depth when they are made of containers of the same kinds and lengths
(`Value.Alike`). Putting a row of the same kind and length into an array leaves it like it was
(`Value.Alike.putAt`), and what holds of the containers of one array holds of those of the other:
it is made of lists and tuples down to its rows, and a row that cannot be changed in place stands in
a list. The two have the same shape when the elements are numbers of its type
(`Shape.describe_of_alike`).
-/

set_option autoImplicit false

namespace Stowage.Value

/-- Whether two values are containers of one kind. -/
def SameKind : Value → Value → Prop
  | .list _, .list _ | .tuple _, .tuple _ | .bytes _, .bytes _ | .buffer _, .buffer _ => True
  | .packed array, .packed other => array.code = other.code
  | _, _ => False

/-- Arrays with the same containers down to their rows, which are at a depth. -/
def Alike : (depth : Nat) → Value → Value → Prop
  | 0, v, w => v.SameKind w ∧ v.extent = w.extent
  | depth + 1, v, w => v.SameKind w ∧ List.Forall₂ (Alike depth) v.children w.children

/-- Every row, at a depth, that cannot be changed in place stands in a list, unless it is the whole
array. -/
def Replaceable : (depth : Nat) → Value → Prop
  | 0, _ => True
  | depth + 1, v => ∀ parent ∈ v.rows depth,
    (∃ items, parent = .list items) ∨ ∀ row ∈ parent.children, row.isMutable = true

variable {u v w row part : Value} {depth : Nat} {lengths path : List Nat}

namespace SameKind

theorem refl (h : v.isArray = true) : v.SameKind v := by
  cases v with
  | list | tuple | bytes | buffer => trivial
  | packed => rfl
  | _ => exact absurd h (by simp [isArray])

theorem isArray (h : v.SameKind w) : v.isArray = true ∧ w.isArray = true := by
  cases v <;> cases w <;> first | exact ⟨rfl, rfl⟩ | exact absurd h (by simp [SameKind])

theorem trans (h : u.SameKind v) (h' : v.SameKind w) : u.SameKind w := by
  cases u <;> cases v <;> simp only [SameKind] at h <;> cases w <;> simp only [SameKind] at h' ⊢
  exact h.trans h'

theorem symm (h : v.SameKind w) : w.SameKind v := by
  cases v <;> cases w <;> simp only [SameKind] at h ⊢
  exact h.symm

theorem isSequence_eq (h : v.SameKind w) : w.isSequence = v.isSequence := by
  cases v <;> cases w <;> first | rfl | exact absurd h (by simp [SameKind])

theorem isMutable_eq (h : v.SameKind w) : w.isMutable = v.isMutable := by
  cases v <;> cases w <;> first | rfl | exact absurd h (by simp [SameKind])

theorem exists_list {items : List Value} (h : SameKind (.list items) w) :
    ∃ others, w = .list others := by
  cases w with
  | list others => exact ⟨others, rfl⟩
  | _ => exact absurd h (by simp [SameKind])

theorem exists_packed {code : ItemCode} (h : v.SameKind w)
    (hpacked : ∃ words, v = .packed ⟨code, words⟩) : ∃ words, w = .packed ⟨code, words⟩ := by
  obtain ⟨words, rfl⟩ := hpacked
  cases w with
  | packed other =>
    obtain rfl : code = other.code := h
    exact ⟨other.words, rfl⟩
  | _ => exact absurd h (by simp [SameKind])

theorem exists_data (h : v.SameKind w) (hdata : ∃ data, v.data? = some data) :
    ∃ data, w.data? = some data := by
  obtain ⟨data, hdata⟩ := hdata
  cases v <;> cases w <;> simp only [SameKind] at h
  case bytes other | buffer other => exact ⟨other, rfl⟩
  all_goals exact absurd hdata (by simp [data?])

theorem isSome_data?_eq (h : v.SameKind w) : w.data?.isSome = v.data?.isSome := by
  cases v <;> cases w <;> first | rfl | exact absurd h (by simp [SameKind])

/-- Other items change no kind. -/
theorem putAt_cons (h : v.SameKind w) (i : Nat) (path : List Nat) (part : Value) :
    v.SameKind (w.putAt (i :: path) part) := by
  cases v <;> cases w <;> exact h

end SameKind

theorem putAt_cons_of_not_isSequence (h : ¬v.isSequence = true) (i : Nat) (path : List Nat)
    (part : Value) : v.putAt (i :: path) part = v := by
  cases v with
  | list | tuple => exact absurd rfl h
  | _ => rfl

theorem mem_rows_of_at? (h : v.at? path = some part) : part ∈ v.rows path.length := by
  induction path generalizing v with
  | nil => exact List.mem_singleton.2 (Option.some.inj h).symm
  | cons i path ih =>
    obtain ⟨child, hchild, hpart⟩ := Option.bind_eq_some_iff.1 h
    exact List.mem_flatMap.2 ⟨child, List.mem_of_getElem? hchild, ih hpart⟩

theorem forall₂_modify_right {R : Value → Value → Prop} {f : Value → Value} {xs ys : List Value}
    (h : List.Forall₂ R xs ys) {i : Nat} (hf : ∀ x y, ys[i]? = some y → R x y → R x (f y)) :
    List.Forall₂ R xs (ys.modify i f) := by
  induction h generalizing i with
  | nil => cases i <;> exact .nil
  | @cons x y xs ys hxy hrest ih =>
    cases i with
    | zero => exact .cons (hf x y rfl hxy) hrest
    | succ i => exact .cons hxy (ih hf)

theorem forall₂_trans {R : Value → Value → Prop} {xs ys zs : List Value}
    (hR : ∀ x y z, R x y → R y z → R x z) (h : List.Forall₂ R xs ys)
    (h' : List.Forall₂ R ys zs) : List.Forall₂ R xs zs := by
  induction h generalizing zs with
  | nil => exact h'
  | cons hhead _ ih =>
    obtain ⟨z, others, hz, hothers, rfl⟩ := List.forall₂_cons_left_iff.1 h'
    exact .cons (hR _ _ _ hhead hz) (ih hothers)

namespace Alike

theorem symm (h : Alike depth v w) : Alike depth w v := by
  induction depth generalizing v w with
  | zero => exact ⟨h.1.symm, h.2.symm⟩
  | succ depth ih => exact ⟨h.1.symm, (h.2.imp fun _ _ hchild ↦ ih hchild).flip⟩

theorem trans (h : Alike depth u v) (h' : Alike depth v w) : Alike depth u w := by
  induction depth generalizing u v w with
  | zero => exact ⟨h.1.trans h'.1, h.2.trans h'.2⟩
  | succ depth ih => exact ⟨h.1.trans h'.1, forall₂_trans (fun _ _ _ ↦ ih) h.2 h'.2⟩

/-- An array is like itself. -/
theorem refl (hframed : v.Framed lengths)
    (hrows : ∀ row ∈ v.rows lengths.length, row.isArray = true) : Alike lengths.length v v := by
  induction lengths generalizing v with
  | nil => exact ⟨.refl (hrows v List.mem_cons_self), rfl⟩
  | cons length rest ih =>
    obtain ⟨hsequence, _, hchildren⟩ := hframed
    have harray : v.isArray = true := by
      cases v with
      | list | tuple => rfl
      | _ => exact absurd hsequence (by simp [isSequence])
    refine ⟨.refl harray, List.forall₂_same.2 fun child hchild ↦ ih (hchildren child hchild) ?_⟩
    exact fun row hrow ↦ hrows row (List.mem_flatMap.2 ⟨child, hchild, hrow⟩)

/-- The parts of two arrays that are alike correspond. -/
theorem rows {inner : Nat} (h : Alike (depth + inner) v w) :
    List.Forall₂ (Alike inner) (v.rows depth) (w.rows depth) := by
  induction depth generalizing v w with
  | zero => exact .cons (Nat.zero_add inner ▸ h) .nil
  | succ depth ih =>
    rw [Nat.add_right_comm] at h
    exact List.rel_flatMap h.2 fun _ _ hchild ↦ ih hchild

theorem sameKind (h : Alike depth v w) : v.SameKind w := by
  cases depth with
  | zero => exact h.1
  | succ => exact h.1

theorem extent_eq (h : Alike depth v w) : w.extent = v.extent := by
  cases depth with
  | zero => exact h.2.symm
  | succ =>
    obtain ⟨harray, hother⟩ := h.1.isArray
    rw [← length_children harray, ← length_children hother, h.2.length_eq]

theorem exists_children {first : Value} {rest : List Value} (h : Alike depth v w)
    (hchildren : v.children = first :: rest) :
    ∃ other others, w.children = other :: others := by
  obtain ⟨harray, hother⟩ := h.sameKind.isArray
  refine List.exists_cons_of_length_pos ?_
  rw [length_children hother, h.extent_eq, ← length_children harray, hchildren, List.length_cons]
  exact Nat.succ_pos _

/-- What depends on the kinds of the rows alone holds of the rows of both arrays. -/
theorem forall_rows {P : Value → Prop} (h : Alike depth v w)
    (hkind : ∀ row other, row.SameKind other → P row → P other)
    (hrows : ∀ row ∈ v.rows depth, P row) : ∀ row ∈ w.rows depth, P row := by
  intro other hother
  have hall : List.Forall₂ (Alike 0) (v.rows depth) (w.rows depth) := rows h
  obtain ⟨row, hrow, halike⟩ := Outcome.exists_mem_of_forall₂ hall hother
  exact hkind row other halike.1 (hrows row hrow)

theorem framed (h : Alike lengths.length v w) (hframed : v.Framed lengths) : w.Framed lengths := by
  induction lengths generalizing v w with
  | nil => trivial
  | cons length rest ih =>
    obtain ⟨hkind, hall⟩ := h
    obtain ⟨hsequence, hlength, hchildren⟩ := hframed
    refine ⟨hkind.isSequence_eq.trans hsequence, hall.length_eq.symm.trans hlength, ?_⟩
    intro child hchild
    obtain ⟨other, hother, halike⟩ := Outcome.exists_mem_of_forall₂ hall hchild
    exact ih halike (hchildren other hother)

/-- A part of the same kind and length takes the place of a row. -/
theorem putAt (h : Alike path.length v w) (hrow : w.at? path = some row)
    (hpart : Alike 0 row part) : Alike path.length v (w.putAt path part) := by
  induction path generalizing v w with
  | nil =>
    obtain rfl := Option.some.inj hrow
    exact ⟨h.1.trans hpart.1, h.2.trans hpart.2⟩
  | cons i path ih =>
    obtain ⟨child, hchild, hrest⟩ := Option.bind_eq_some_iff.1 hrow
    by_cases hsequence : w.isSequence = true
    · refine ⟨h.1.putAt_cons i path part, ?_⟩
      rw [children_putAt hsequence]
      refine forall₂_modify_right h.2 fun _ other hother halike ↦ ih halike ?_
      obtain rfl := Option.some.inj (hchild.symm.trans hother)
      exact hrest
    · rw [putAt_cons_of_not_isSequence hsequence]
      exact h

theorem replaceable (h : Alike depth v w) (hreplaceable : v.Replaceable depth) :
    w.Replaceable depth := by
  cases depth with
  | zero => trivial
  | succ depth =>
    intro other hother
    obtain ⟨parent, hparent, hkind, hchildren⟩ := Outcome.exists_mem_of_forall₂ (rows h) hother
    rcases hreplaceable parent hparent with ⟨items, rfl⟩ | hrows
    · exact .inl hkind.exists_list
    · refine .inr fun row hrow ↦ ?_
      obtain ⟨former, hformer, halike⟩ := Outcome.exists_mem_of_forall₂ hchildren hrow
      exact halike.1.isMutable_eq.trans (hrows former hformer)

end Alike

/-- A row can be changed in place, or it is replaced in the list around it. -/
theorem Replaceable.of_at? (h : v.Replaceable path.length) (hrow : v.at? path = some row) :
    row.isMutable = true ∨ (path ≠ [] → ∃ items, v.part path.dropLast = .list items) := by
  by_cases hpath : path = []
  · exact .inr (absurd hpath)
  · have hsplit := List.dropLast_append_getLast hpath
    have hlength : path.length = path.dropLast.length + 1 := by
      rw [List.length_dropLast, Nat.sub_add_cancel (List.length_pos_iff.2 hpath)]
    rw [hlength] at h
    rw [← hsplit, at?_append] at hrow
    obtain ⟨parent, hparent, hlast⟩ := Option.bind_eq_some_iff.1 hrow
    obtain ⟨child, hchild, hchildRow⟩ := Option.bind_eq_some_iff.1 hlast
    obtain rfl := Option.some.inj hchildRow
    rcases h parent (mem_rows_of_at? hparent) with ⟨items, rfl⟩ | hmutable
    · exact .inr fun _ ↦ ⟨items, part_eq_of_at? hparent⟩
    · exact .inl (hmutable child (List.mem_of_getElem? hchild))

end Stowage.Value

/-! ### The shape of an array like one that has a shape -/

namespace Stowage.Shape

variable {wanted : Option NumberType} {v w : Value} {shape : Shape}

/-- What a number type reads is an element of this type. -/
theorem LeafOf.load {leaf : Value} {type : NumberType} (h : LeafOf wanted leaf type)
    (bytes : Bytes) : LeafOf wanted (type.load bytes) type := by
  cases h with
  | int hwanted htype =>
    cases type with
    | int8 | int16 | int32 | int64 => exact .int hwanted htype
    | float32 | float64 => exact absurd htype (by decide)
  | float hwanted htype =>
    cases type with
    | int8 | int16 | int32 | int64 => exact absurd htype (by decide)
    | float32 | float64 => exact .float hwanted htype

/-- Assumes: a row like one with elements of a type, which holds numbers read as this type if it is
a list or tuple. It has elements of this type. -/
theorem ElementsOf.of_alike {row other : Value} {type : NumberType}
    (h : ElementsOf wanted row type) (halike : row.Alike 0 other)
    (hleaves : other.isSequence = true →
      ∀ leaf ∈ other.children, ∃ bytes, leaf = type.load bytes) : ElementsOf wanted other type := by
  cases h with
  | items hrow hfirst hleaf =>
    have hsequence : other.isSequence = true := halike.1.isSequence_eq.trans hrow
    obtain ⟨rest, hchildren⟩ := List.head?_eq_some_iff.1 hfirst
    obtain ⟨first, others, hothers⟩ := halike.exists_children hchildren
    obtain ⟨bytes, rfl⟩ := hleaves hsequence first (hothers ▸ List.mem_cons_self)
    exact .items hsequence (hothers ▸ rfl) (hleaf.load bytes)
  | data hrow hwanted =>
    obtain ⟨data, hdata⟩ := halike.1.exists_data ⟨_, hrow⟩
    exact .data hdata hwanted
  | packed hfound hwanted =>
    obtain ⟨words, rfl⟩ := halike.1.exists_packed ⟨_, rfl⟩
    exact .packed hfound hwanted

/-- Assumes: an array like one that has a shape, and rows of lists and tuples that hold numbers
loaded as its type. It has the same shape, as it is found with the same number type wanted. -/
theorem describe_of_alike (h : describe v wanted = .ok shape)
    (halike : v.Alike shape.outerLengths.length w)
    (hleaves : ∀ row ∈ shape.rowsOf w, row.isSequence = true →
      ∀ leaf ∈ row.children, ∃ bytes, leaf = shape.type.load bytes) :
    describe w wanted = .ok shape := by
  obtain ⟨hregular, hframed, hrows, row, hrow, helements, hbyteRows⟩ := describe_eq_ok_iff_rows.1 h
  have hall : List.Forall₂ (Value.Alike 0) (shape.rowsOf v) (shape.rowsOf w) := halike.rows
  obtain ⟨rest, hv⟩ := List.head?_eq_some_iff.1 hrow
  obtain ⟨other, others, hlike, _, hw⟩ := List.forall₂_cons_left_iff.1 (hv ▸ hall)
  refine describe_eq_ok_iff_rows.2 ⟨hregular, halike.framed hframed, fun found hfound ↦ ?_, other,
    hw ▸ rfl, helements.of_alike hlike (hleaves other (hw ▸ List.mem_cons_self)), ?_⟩
  · obtain ⟨former, hformer, hkind, hextent⟩ := Outcome.exists_mem_of_forall₂ hall hfound
    exact ⟨hkind.isArray.2, hextent.symm.trans (hrows former hformer).2⟩
  · exact hbyteRows.trans hlike.1.isSome_data?_eq.symm

end Stowage.Shape
