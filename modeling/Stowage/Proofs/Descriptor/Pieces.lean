import Stowage.Descriptor.Token

/-!
# Pieces and the characters that continue them

The first character of a piece decides which characters continue it (`continuation`), and the piece
goes on as long as they come. So what starts at a character is said by the run of these characters
(`pieceAt_eq`), and by nothing behind it: a piece that ends inside a text is the same piece in front
of any other text that does not continue it.
-/

set_option autoImplicit false

namespace Stowage.Descriptor

open DecimalDigit (isDigit)

/-! ### Runs -/

section Runs

variable {α : Type} {p : α → Bool} {pre post : List α}

theorem any_head?_eq (as : List α) : as.head?.any p = !(as.takeWhile p).isEmpty := by
  cases as with
  | nil => rfl
  | cons a as => cases h : p a <;> simp [h]

/-- A run that ends within the first part is a run of the first part alone. -/
theorem takeWhile_eq_of_length_le (h : ((pre ++ post).takeWhile p).length ≤ pre.length) :
    (pre ++ post).takeWhile p = pre.takeWhile p := by
  rw [List.takeWhile_append] at h ⊢
  split
  · next hall =>
    rw [if_pos hall, List.length_append] at h
    have hnone : post.takeWhile p = [] := List.length_eq_zero_iff.1 (by omega)
    rw [hnone, List.append_nil]
    exact ((List.takeWhile_prefix p).eq_of_length hall).symm
  · rfl

/-- A run that ends where the first part does: all of it belongs to the run, and nothing behind. -/
theorem takeWhile_append_eq_left_iff :
    (pre ++ post).takeWhile p = pre ↔ (∀ a ∈ pre, p a = true) ∧ ∀ a ∈ post.head?, p a = false := by
  induction pre with
  | nil => cases post <;> simp [List.takeWhile_cons]
  | cons a pre ih =>
    rw [List.cons_append, List.takeWhile_cons, List.forall_mem_cons]
    cases h : p a <;> simp [ih]

/-- Everything begins with a run, and what is behind the run does not continue it. -/
theorem exists_run (p : α → Bool) (as : List α) :
    ∃ run rest, as = run ++ rest ∧ (∀ a ∈ run, p a = true) ∧ ∀ a ∈ rest.head?, p a = false :=
  ⟨as.takeWhile p, as.dropWhile p, List.takeWhile_append_dropWhile.symm,
    takeWhile_append_eq_left_iff.1 (by rw [List.takeWhile_append_dropWhile])⟩

end Runs

/-! ### Pieces -/

variable {c : Char} {rest other run : List Char} {more : Nat}

/-- How many more characters belong to a piece. -/
def Piece.more? : Piece → Option Nat
  | .skip more => some more
  | .token _ more => some more
  | .illegal => none

/-- The characters that continue the piece that a character starts. -/
def continuation (c : Char) : Char → Bool :=
  if isBlank c then fun _ ↦ false
  else if isDigit c || c == '-' then isDigit
  else if startsWord c then continuesWord
  else if c == '#' then (· != '\n')
  else fun _ ↦ false

/-- The piece of a character and the run that continues it. -/
def pieceOf (c : Char) (run : List Char) : Piece :=
  if isBlank c then .skip run.length
  else if isDigit c then .token (.integer (DecimalDigit.toNat (c :: run))) run.length
  else if c == '-' && !run.isEmpty then
    .token (.integer (-(DecimalDigit.toNat run : Int))) run.length
  else if startsWord c then .token (.ofWord (c :: run)) run.length
  else if c == '#' then .skip run.length
  else
    match Mark.ofChar? c with
    | some found => .token (.mark found) run.length
    | none => .illegal

/-- What starts at a character is the piece of the run that continues it. -/
theorem pieceAt_eq (c : Char) (rest : List Char) :
    pieceAt c rest = pieceOf c (rest.takeWhile (continuation c)) := by
  have hnone : rest.takeWhile (fun _ ↦ false) = [] := by cases rest <;> rfl
  by_cases hblank : isBlank c = true
  · have hrun : continuation c = fun _ ↦ false := if_pos hblank
    rw [hrun, hnone, pieceAt, pieceOf, if_pos hblank, if_pos hblank]
    rfl
  by_cases hdigit : isDigit c = true
  · have hrun : continuation c = isDigit := by simp [continuation, hblank, hdigit]
    rw [hrun, pieceAt, pieceOf, if_neg hblank, if_neg hblank, if_pos hdigit, if_pos hdigit]
  by_cases hminus : c = '-'
  · -- a sign is one only if a digit follows it
    subst hminus
    have hrun : continuation '-' = isDigit := by
      rw [continuation, if_neg hblank]
      exact if_pos (Bool.or_true _)
    rw [hrun, pieceAt, pieceOf, any_head?_eq, if_neg hblank, if_neg hblank, if_neg hdigit,
      if_neg hdigit]
    split <;> rfl
  have hsign : (c == '-') = false := beq_eq_false_iff_ne.2 hminus
  rw [pieceAt, pieceOf, if_neg hblank, if_neg hblank, if_neg hdigit, if_neg hdigit, hsign,
    Bool.false_and, Bool.false_and, if_neg Bool.false_ne_true, if_neg Bool.false_ne_true]
  by_cases hword : startsWord c = true
  · have hrun : continuation c = continuesWord := by
      simp [continuation, hblank, hdigit, hminus, hword]
    rw [hrun, if_pos hword, if_pos hword]
  rw [if_neg hword, if_neg hword]
  by_cases hcomment : (c == '#') = true
  · have hrun : continuation c = (· != '\n') := by
      simp only [continuation, hblank, hdigit, hsign, hword, hcomment]
      rfl
    rw [hrun, if_pos hcomment, if_pos hcomment]
  · have hrun : continuation c = fun _ ↦ false := by
      simp only [continuation, hblank, hdigit, hsign, hword, hcomment]
      rfl
    rw [hrun, hnone, if_neg hcomment, if_neg hcomment]
    cases Mark.ofChar? c <;> rfl

/-- The run is what belongs to the piece. -/
theorem length_of_more? (h : (pieceOf c run).more? = some more) : run.length = more := by
  unfold pieceOf at h
  repeat' split at h
  all_goals first | exact Option.some.inj h | exact absurd h (by simp [Piece.more?])

/-- A piece that ends within some characters is the piece that they have by themselves. -/
theorem pieceAt_of_le {pre post : List Char}
    (hmore : (pieceAt c (pre ++ post)).more? = some more) (hle : more ≤ pre.length) :
    pieceAt c pre = pieceAt c (pre ++ post) := by
  rw [pieceAt_eq] at hmore
  have hlength := length_of_more? hmore
  rw [pieceAt_eq, pieceAt_eq, takeWhile_eq_of_length_le (hlength ▸ hle)]

end Stowage.Descriptor
