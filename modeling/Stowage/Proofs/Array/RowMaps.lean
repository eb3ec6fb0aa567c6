import Stowage.Proofs.Array.Structure

/-!
# Arrays with other rows

`Value.mapRows` puts another row in the place of each row of an array, which stays made of the same
lists and tuples around them. An array is determined by its rows and by an array that is like it
(`Value.Alike.eq_of_rows`), so two ways to change the rows give one array exactly when they agree on
the rows (`Value.Framed.mapRows_eq_iff`).
-/

set_option autoImplicit false

namespace Stowage.Value

/-- The array with the rows at a depth changed by a function. -/
def mapRows (f : Value → Value) : (depth : Nat) → Value → Value
  | 0, v => f v
  | depth + 1, .list items => .list (items.map (mapRows f depth))
  | depth + 1, .tuple items => .tuple (items.map (mapRows f depth))
  | _ + 1, v => v

variable {f g : Value → Value} {v w : Value} {lengths : List Nat} {depth : Nat}

theorem sameKind_mapRows (h : v.isSequence = true) : v.SameKind (v.mapRows f (depth + 1)) := by
  cases v with
  | list | tuple => trivial
  | _ => exact absurd h Bool.false_ne_true

theorem children_mapRows (h : v.isSequence = true) :
    (v.mapRows f (depth + 1)).children = v.children.map (mapRows f depth) := by
  cases v with
  | list | tuple => rfl
  | _ => exact absurd h Bool.false_ne_true

namespace Framed

/-- The lists and tuples around the rows stay as they are. -/
theorem mapRows (h : v.Framed lengths) (f : Value → Value) :
    (v.mapRows f lengths.length).Framed lengths := by
  induction lengths generalizing v with
  | nil => trivial
  | cons length rest ih =>
    obtain ⟨hsequence, hlength, hchildren⟩ := h
    refine ⟨(sameKind_mapRows hsequence).isSequence_eq.trans hsequence, ?_, ?_⟩
    · rw [List.length_cons, children_mapRows hsequence, List.length_map, hlength]
    · rw [List.length_cons, children_mapRows hsequence]
      exact List.forall_mem_map.2 fun child hchild ↦ ih (hchildren child hchild)

theorem rows_mapRows (h : v.Framed lengths) (f : Value → Value) :
    (v.mapRows f lengths.length).rows lengths.length = (v.rows lengths.length).map f := by
  induction lengths generalizing v with
  | nil => rfl
  | cons length rest ih =>
    obtain ⟨hsequence, _, hchildren⟩ := h
    rw [List.length_cons, rows, rows, children_mapRows hsequence, List.flatMap_map,
      List.map_flatMap]
    exact List.flatMap_congr fun child hchild ↦ ih (hchildren child hchild)

/-- Rows of the same kinds and lengths leave the array like it was. -/
theorem alike_mapRows (h : v.Framed lengths) (hrows : ∀ row ∈ v.rows lengths.length,
    Alike 0 row (f row)) : Alike lengths.length v (v.mapRows f lengths.length) := by
  induction lengths generalizing v with
  | nil => exact hrows v List.mem_cons_self
  | cons length rest ih =>
    obtain ⟨hsequence, _, hchildren⟩ := h
    refine ⟨sameKind_mapRows hsequence, ?_⟩
    rw [List.length_cons, children_mapRows hsequence, List.forall₂_map_right_iff]
    refine List.forall₂_same.2 fun child hchild ↦ ih (hchildren child hchild) fun row hrow ↦ ?_
    exact hrows row (List.mem_flatMap.2 ⟨child, hchild, hrow⟩)

theorem mapRows_congr (h : v.Framed lengths)
    (hrows : ∀ row ∈ v.rows lengths.length, f row = g row) :
    v.mapRows f lengths.length = v.mapRows g lengths.length := by
  induction lengths generalizing v with
  | nil => exact hrows v List.mem_cons_self
  | cons length rest ih =>
    obtain ⟨hsequence, _, hchildren⟩ := h
    have hall : v.children.map (Value.mapRows f rest.length) =
        v.children.map (Value.mapRows g rest.length) :=
      List.map_congr_left fun child hchild ↦ ih (hchildren child hchild) fun row hrow ↦
        hrows row (List.mem_flatMap.2 ⟨child, hchild, hrow⟩)
    cases v with
    | list => exact congrArg Value.list hall
    | tuple => exact congrArg Value.tuple hall
    | _ => exact absurd hsequence Bool.false_ne_true

/-- Two ways to change the rows give the same array exactly when they agree on the rows. -/
theorem mapRows_eq_iff (h : v.Framed lengths) :
    v.mapRows f lengths.length = v.mapRows g lengths.length ↔
      ∀ row ∈ v.rows lengths.length, f row = g row := by
  refine ⟨fun heq ↦ ?_, h.mapRows_congr⟩
  have hrows := congrArg (Value.rows lengths.length) heq
  rw [h.rows_mapRows, h.rows_mapRows] at hrows
  exact List.map_inj_left.1 hrows

end Framed

/-- Arrays that are like each other have the same rows only if they are the same. -/
theorem Alike.eq_of_rows (h : Alike lengths.length v w) (hframed : v.Framed lengths)
    (hrows : v.rows lengths.length = w.rows lengths.length) : v = w := by
  induction lengths generalizing v w with
  | nil => exact List.singleton_inj.1 hrows
  | cons length rest ih =>
    obtain ⟨hkind, hall⟩ := h
    obtain ⟨hsequence, _, hchildren⟩ := hframed
    have hlength (x y : Value) (halike : Alike rest.length x y) :
        (x.rows rest.length).length = (y.rows rest.length).length := by
      have hrows : List.Forall₂ (Alike 0) (x.rows rest.length) (y.rows rest.length) := halike.rows
      exact hrows.length_eq
    have hparts := forall₂_of_flatMap_eq_flatMap hall hlength hrows
    have heq : v.children = w.children := by
      refine List.forall₂_eq_eq_eq ▸ ((List.forall₂_and_left _ _).2 ⟨hchildren, hparts⟩).imp ?_
      rintro x y ⟨hframed, halike, hrows⟩
      exact ih halike hframed hrows
    cases v <;> cases w <;> simp only [SameKind] at hkind
    case list => exact congrArg Value.list heq
    case tuple => exact congrArg Value.tuple heq
    all_goals exact absurd hsequence Bool.false_ne_true

end Stowage.Value
