import Stowage.Proofs.Array.Traversal

/-!
# Iterations and replaced rows

A caller starts iterations over the rows of an array, asks for pairs of an offset and a row,
abandons iterations, and puts other rows in the place of the row last visited, in any order. What
such a session has come to is told from the requests alone (`Position`): how often the iteration in
progress was asked, and which row was last visited. The walk stands at this row whatever happened
before (`Session.At.afterAll`), so every request is answered from the array as it has become
(`Session.At.pull_eq`, `Session.At.replaceRow_cases`).
-/

set_option autoImplicit false

namespace Stowage.Walk

open Shape (digits)

/-- What a caller asks of a walk. -/
inductive Request where
  /-- To start an iteration over the rows. -/
  | restart
  /-- The next pair of the iteration in progress. -/
  | next
  /-- To put a row in the place of the row last visited. -/
  | replace (row : Value)

/-- A walk with the iteration in progress. -/
structure Session where
  /-- The walk. -/
  walk : Walk
  /-- How far the iteration has come. -/
  cursor : Cursor

namespace Session

/-- What the iteration in progress gives next. -/
def outcome (session : Session) : Except Fault (Option (Nat × Value)) :=
  (session.walk.pull session.cursor).1

/-- The session after a request. A refused replacement changes nothing. -/
def after (session : Session) : Request → Session
  | .restart => ⟨session.walk, .ready 0⟩
  | .next =>
    let (_, cursor, walk) := session.walk.pull session.cursor
    ⟨walk, cursor⟩
  | .replace row =>
    match session.walk.replaceRow row with
    | .ok walk => ⟨walk, session.cursor⟩
    | .error _ => session

end Session

/-- What requests have led to, apart from the rows. -/
structure Position where
  /-- How often the iteration in progress was asked for a pair, if one was started. -/
  asked : Option Nat
  /-- The number of the row last visited. -/
  last : Nat

namespace Position

/-- The position in an array with so many rows after a request. -/
def after (rowCount : Nat) (position : Position) : Request → Position
  | .restart => ⟨some 0, position.last⟩
  | .next =>
    match position.asked with
    | none => position
    | some k => ⟨some (k + 1), if k < rowCount then k else position.last⟩
  | .replace _ => position

/-- How far the iteration in progress has come. -/
def cursor (shape : Shape) (position : Position) : Cursor :=
  match position.asked with
  | none => .finished
  | some k => if k ≤ shape.rowCount then .ready (k * shape.rowSize) else .finished

/-- The next pair of the iteration in progress, if there are more rows. -/
def pair? (shape : Shape) (array : Value) (position : Position) : Option (Nat × Value) :=
  position.asked.bind fun k ↦ (shape.rowsOf array)[k]?.map fun row ↦ (k * shape.rowSize, row)

end Position

namespace Session

variable {shape : Shape} {session : Session} {position : Position} {array row : Value}

/-- The session has come to the position in an array of the shape. -/
structure At (shape : Shape) (session : Session) (position : Position) : Prop where
  /-- The shape is that of some array. -/
  regular : shape.Regular
  /-- The array is made of lists and tuples down to its rows. -/
  framed : session.walk.array.Framed shape.outerLengths
  /-- The walk stands at the row last visited. -/
  walk_eq : session.walk =
    .standing shape session.walk.array (digits shape.outerLengths position.last)
  /-- There is such a row. -/
  last_lt : position.last < shape.rowCount
  /-- The iteration has come as far as it was asked. -/
  cursor_eq : session.cursor = position.cursor shape
  /-- An iteration last visited the row it was last asked for. -/
  last_eq : ∀ k, position.asked = some (k + 1) → k < shape.rowCount → position.last = k

namespace At

/-- A new walk, before any iteration. -/
theorem ofArray {wanted : Option NumberType} {walk : Walk} (h : ofArray array wanted = .ok walk) :
    walk.array = array ∧ At walk.shape ⟨walk, .finished⟩ ⟨none, 0⟩ := by
  obtain ⟨shape, hshape, _⟩ := Outcome.bind_eq_ok.1 h
  obtain rfl := Except.ok.inj ((ofArray_eq_ok hshape).symm.trans h)
  have hfits := Shape.fits_of_describe hshape
  exact ⟨rfl, hfits.toRegular, hfits.framed, rfl, Shape.countOf_pos hfits.outer_pos, rfl,
    fun _ hasked ↦ absurd hasked (by simp)⟩

/-- What a pull gives and leaves: the row with the number of the pulls before, as it has become,
until there are no more rows. -/
theorem pull_eq (h : At shape session position) :
    session.walk.pull session.cursor = (.ok (position.pair? shape session.walk.array),
      (position.after shape.rowCount .next).cursor shape,
      .standing shape session.walk.array
        (digits shape.outerLengths (position.after shape.rowCount .next).last)) := by
  obtain ⟨hregular, hframed, hwalk, _, hcursor, hlast⟩ := h
  have hcount : (shape.rowsOf session.walk.array).length = shape.rowCount := hframed.length_rows
  generalize session.walk.array = array at hframed hwalk hcount ⊢
  obtain ⟨asked, last⟩ := position
  rw [hwalk, hcursor, Position.cursor, Position.pair?, Position.cursor, Position.after]
  cases asked with
  | none => rfl
  | some k =>
    dsimp only [Option.bind_some]
    rcases Nat.lt_trichotomy k shape.rowCount with hlt | rfl | hgt
    · obtain ⟨row, hrow⟩ : ∃ row, (shape.rowsOf array)[k]? = some row :=
        ⟨_, List.getElem?_eq_getElem (hcount ▸ hlt)⟩
      rw [if_pos (Nat.le_of_lt hlt), if_pos hlt, if_pos (Nat.succ_le_of_lt hlt), hrow,
        pull_row hregular hframed (Shape.length_digits _ _) hrow]
      rfl
    · have hnone : (shape.rowsOf array)[shape.rowCount]? = none :=
        List.getElem?_eq_none (Nat.le_of_eq hcount)
      -- there is a row, so this iteration was asked before and last visited the last row
      have hpos : 0 < shape.rowCount := Shape.countOf_pos hregular.outer_pos
      have hstep : shape.rowCount - 1 + 1 = shape.rowCount := Nat.sub_add_cancel hpos
      obtain rfl : last = shape.rowCount - 1 :=
        hlast _ (congrArg some hstep.symm) (Nat.sub_one_lt_of_lt hpos)
      rw [if_pos (Nat.le_refl _), if_neg (Nat.lt_irrefl _), if_neg (Nat.not_succ_le_self _), hnone,
        pull_end hregular]
      rfl
    · have hnone : (shape.rowsOf array)[k]? = none :=
        List.getElem?_eq_none (by omega)
      rw [if_neg (by omega), if_neg (by omega), if_neg (by omega), hnone]
      rfl

/-- A row is replaced in the array at the place of the row last visited, unless it lies in a
tuple. -/
theorem replaceRow_cases (h : At shape session position) (row : Value) :
    session.walk.replaceRow row = .ok (.standing shape
        (session.walk.array.putAt (digits shape.outerLengths position.last) row)
        (digits shape.outerLengths position.last)) ∨
      ∃ kind, session.walk.replaceRow row = .error (.conversion (.immutableParent kind)) := by
  obtain ⟨hregular, _, hwalk, _, _, _⟩ := h
  generalize session.walk.array = array at hwalk ⊢
  rw [hwalk]
  generalize hpath : digits shape.outerLengths position.last = path
  have hlength : path.length = shape.outerLengths.length := hpath ▸ Shape.length_digits _ _
  by_cases hparent : path ≠ [] → ∃ items, array.part path.dropLast = .list items
  · exact .inl (replaceRow_standing hregular hlength hparent)
  · obtain ⟨hne, hparent⟩ := Classical.not_imp.1 hparent
    exact .inr ⟨_, replaceRow_standing_refused hregular hlength hne hparent⟩

/-- Another row in the place of the row last visited. -/
theorem putAt (h : At shape session position) (row : Value) :
    At shape ⟨.standing shape
      (session.walk.array.putAt (digits shape.outerLengths position.last) row)
      (digits shape.outerLengths position.last), session.cursor⟩ position :=
  ⟨h.regular, h.framed.putAt (Shape.length_digits _ _) row, rfl, h.last_lt, h.cursor_eq, h.last_eq⟩

/-- Every request leads from a position to the position after it. -/
theorem after (h : At shape session position) (request : Request) :
    At shape (session.after request) (position.after shape.rowCount request) := by
  cases request with
  | restart =>
    exact ⟨h.regular, h.framed, h.walk_eq, h.last_lt, by
      rw [Session.after, Position.after, Position.cursor]
      dsimp only
      rw [if_pos (Nat.zero_le _), Nat.zero_mul], fun _ hasked ↦ absurd hasked (by
        simp [Position.after])⟩
  | next =>
    have hpull := h.pull_eq
    rw [Session.after, hpull]
    refine ⟨h.regular, h.framed, rfl, ?_, rfl, fun k hasked hk ↦ ?_⟩
    · rw [Position.after]
      split
      · exact h.last_lt
      · dsimp only
        split
        · next hlt => exact hlt
        · exact h.last_lt
    · rw [Position.after] at hasked ⊢
      split at hasked
      · next hnone =>
        rw [hnone] at hasked
        exact absurd hasked (by simp)
      · obtain rfl := Nat.succ.inj (Option.some.inj hasked)
        exact if_pos hk
  | replace row =>
    rcases h.replaceRow_cases row with hreplaced | ⟨kind, hrefused⟩
    · rw [Session.after, hreplaced]
      exact h.putAt row
    · rw [Session.after, hrefused]
      exact h

end At

end Session

end Stowage.Walk
