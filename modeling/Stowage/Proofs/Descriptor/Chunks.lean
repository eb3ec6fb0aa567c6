import Mathlib.Data.List.Chain
import Stowage.Proofs.Descriptor.Pieces
import Stowage.Proofs.Descriptor.Spelling

/-!
# Texts as chunks

A chunk is the characters of one piece: of a token, of a blank or of a comment. A text that can be
scanned to its end is its chunks one after another (`spelled_chunksFrom`), and the tokens among them
say what the text says (`lexemesOf_chunksFrom`).

Chunks that stand one after another are read as themselves when each of them ends in front of the
next (`ReadsAs.of_isChain`). So to see that a text that was put together from parts of others is
still read as these parts, only the places where they meet have to be looked at.
-/

set_option autoImplicit false

namespace Stowage.Descriptor

/-- The characters of one piece: the first, and the run that continues it. -/
structure Chunk where
  /-- The first character. -/
  first : Char
  /-- The characters behind it. -/
  run : List Char
  /-- All of them continue the piece. -/
  continues : run.all (continuation first) = true
  /-- They are a piece. -/
  legal : (pieceOf first run).more?.isSome = true
  deriving DecidableEq

namespace Chunk

/-- The characters of a chunk. -/
def chars (chunk : Chunk) : List Char := chunk.first :: chunk.run

/-- What a chunk says, if it is a token. -/
def lexeme? (chunk : Chunk) : Option Lexeme :=
  match pieceOf chunk.first chunk.run with
  | .token lexeme _ => some lexeme
  | _ => none

/-- A chunk ends in front of another: the first character of that one does not continue it. -/
def EndsBefore (chunk next : Chunk) : Prop := continuation chunk.first next.first = false

end Chunk

/-- What the tokens among the chunks say. -/
def lexemesOf (chunks : List Chunk) : List Lexeme := chunks.filterMap (·.lexeme?)

/-- The characters of the chunks. -/
def spelled (chunks : List Chunk) : List Char := chunks.flatMap (·.chars)

/-- The chunks of characters up to one that starts none, passing over `skip` characters first. -/
def chunksFrom : (skip : Nat) → List Char → List Chunk
  | _, [] => []
  | skip + 1, _ :: rest => chunksFrom skip rest
  | 0, c :: rest =>
    let run := rest.takeWhile (continuation c)
    if h : (pieceOf c run).more?.isSome = true then
      ⟨c, run, List.all_takeWhile, h⟩ :: chunksFrom run.length rest
    else []

variable {chunk : Chunk} {chunks : List Chunk} {chars : List Char} {skip : Nat}

@[simp] theorem lexemesOf_nil : lexemesOf [] = [] := rfl

@[simp] theorem lexemesOf_append (before after : List Chunk) :
    lexemesOf (before ++ after) = lexemesOf before ++ lexemesOf after := List.filterMap_append

theorem lexemesOf_cons_of_some {lexeme : Lexeme} (h : chunk.lexeme? = some lexeme) :
    lexemesOf (chunk :: chunks) = lexeme :: lexemesOf chunks := List.filterMap_cons_some h

theorem lexemesOf_cons_of_none (h : chunk.lexeme? = none) :
    lexemesOf (chunk :: chunks) = lexemesOf chunks := List.filterMap_cons_none h

@[simp] theorem spelled_cons (chunk : Chunk) (chunks : List Chunk) :
    spelled (chunk :: chunks) = chunk.first :: (chunk.run ++ spelled chunks) := rfl

theorem head?_spelled (chunks : List Chunk) :
    (spelled chunks).head? = chunks.head?.map (·.first) := by
  cases chunks <;> rfl

/-! ### The chunks of a text -/

theorem run_append_drop (c : Char) (rest : List Char) :
    rest.takeWhile (continuation c) ++ rest.drop (rest.takeWhile (continuation c)).length = rest :=
  List.prefix_iff_eq_append.1 (List.takeWhile_prefix _)

/-- What stands first: a character that starts no piece, or a chunk, which is passed over or is a
token as the piece is. -/
theorem chunksFrom_cons_cases (c : Char) (rest : List Char) :
    (pieceAt c rest = .illegal ∧ chunksFrom 0 (c :: rest) = []) ∨
      ∃ chunk : Chunk, chunk.first = c ∧ chunk.run = rest.takeWhile (continuation c) ∧
        chunksFrom 0 (c :: rest) = chunk :: chunksFrom chunk.run.length rest ∧
        ((pieceAt c rest = .skip chunk.run.length ∧ chunk.lexeme? = none) ∨
          ∃ lexeme, pieceAt c rest = .token lexeme chunk.run.length ∧
            chunk.lexeme? = some lexeme) := by
  have hpiece := pieceAt_eq c rest
  rcases hfound : pieceOf c (rest.takeWhile (continuation c)) with more | ⟨lexeme, more⟩ | _
  · obtain rfl := length_of_more? (congrArg Piece.more? hfound)
    refine .inr ⟨⟨c, _, List.all_takeWhile, by rw [hfound]; rfl⟩, rfl, rfl, dif_pos _,
      .inl ⟨hpiece.trans hfound, ?_⟩⟩
    rw [Chunk.lexeme?, hfound]
  · obtain rfl := length_of_more? (congrArg Piece.more? hfound)
    refine .inr ⟨⟨c, _, List.all_takeWhile, by rw [hfound]; rfl⟩, rfl, rfl, dif_pos _,
      .inr ⟨lexeme, hpiece.trans hfound, ?_⟩⟩
    rw [Chunk.lexeme?, hfound]
  · refine .inl ⟨hpiece.trans hfound, dif_neg ?_⟩
    rw [hfound]
    exact Bool.false_ne_true

/-- The tokens among the chunks are those of the scan. -/
theorem lexemesOf_chunksFrom (skip : Nat) (position : Position) (chars : List Char) :
    lexemesOf (chunksFrom skip chars) = lexemes (scanFrom skip position chars).tokens := by
  induction chars generalizing skip position with
  | nil => cases skip <;> rfl
  | cons c rest ih =>
    cases skip with
    | succ skip => exact ih skip _
    | zero =>
      rw [scanFrom]
      rcases chunksFrom_cons_cases c rest with ⟨hpiece, hnone⟩ |
        ⟨chunk, -, -, hchunk, ⟨hpiece, hlexeme⟩ | ⟨lexeme, hpiece, hlexeme⟩⟩
      · rw [hnone, hpiece]
        rfl
      · rw [hchunk, hpiece, lexemesOf_cons_of_none hlexeme]
        exact ih _ _
      · rw [hchunk, hpiece, lexemesOf_cons_of_some hlexeme]
        exact congrArg _ (ih _ _)

/-- The chunks of characters that can be scanned to their end are these characters. -/
theorem spelled_chunksFrom {position : Position}
    (h : (scanFrom skip position chars).stop = none) :
    spelled (chunksFrom skip chars) = chars.drop skip := by
  induction chars generalizing skip position with
  | nil => cases skip <;> rfl
  | cons c rest ih =>
    cases skip with
    | succ skip => exact ih h
    | zero =>
      rw [scanFrom] at h
      rcases chunksFrom_cons_cases c rest with ⟨hpiece, -⟩ |
        ⟨chunk, rfl, hrun, hchunk, ⟨hpiece, -⟩ | ⟨lexeme, hpiece, -⟩⟩
      · rw [hpiece] at h
        exact absurd h (by simp)
      all_goals
        rw [hpiece] at h
        rw [hchunk, spelled_cons, ih h, hrun, run_append_drop]
        rfl

theorem head?_chunksFrom {next : Chunk} (h : next ∈ (chunksFrom skip chars).head?) :
    (chars.drop skip).head? = some next.first := by
  induction chars generalizing skip with
  | nil => cases skip <;> exact absurd h (by simp [chunksFrom])
  | cons c rest ih =>
    cases skip with
    | succ skip => exact ih h
    | zero =>
      rcases chunksFrom_cons_cases c rest with ⟨-, hnone⟩ | ⟨chunk, rfl, -, hchunk, -⟩
      · rw [hnone] at h
        exact absurd h (by simp)
      · rw [hchunk] at h
        obtain rfl := Option.some.inj h
        rfl

/-- Each chunk of a text ends in front of the next. -/
theorem isChain_chunksFrom (skip : Nat) (chars : List Char) :
    (chunksFrom skip chars).IsChain Chunk.EndsBefore := by
  induction chars generalizing skip with
  | nil => cases skip <;> exact .nil
  | cons c rest ih =>
    cases skip with
    | succ skip => exact ih skip
    | zero =>
      rcases chunksFrom_cons_cases c rest with ⟨-, hnone⟩ | ⟨chunk, rfl, hrun, hchunk, -⟩
      · rw [hnone]
        exact .nil
      · rw [hchunk]
        refine (ih _).cons fun next hnext ↦ ?_
        have hmaximal := congrArg (List.takeWhile (continuation chunk.first))
          (run_append_drop chunk.first rest)
        rw [← hrun] at hmaximal
        exact (takeWhile_append_eq_left_iff.1 hmaximal).2 _ (head?_chunksFrom hnext)

/-! ### Reading chunks -/

/-- Chunks that end in front of one another are read as themselves. -/
theorem ReadsAs.of_isChain (h : chunks.IsChain Chunk.EndsBefore) :
    ReadsAs (spelled chunks) (lexemesOf chunks) := by
  induction chunks with
  | nil => exact .nil
  | cons chunk chunks ih =>
    obtain ⟨hends, hchunks⟩ := List.isChain_cons.1 h
    have hrun : (chunk.run ++ spelled chunks).takeWhile (continuation chunk.first) = chunk.run := by
      refine takeWhile_append_eq_left_iff.2 ⟨List.all_eq_true.1 chunk.continues, fun c hc ↦ ?_⟩
      rw [head?_spelled] at hc
      obtain ⟨next, hnext, rfl⟩ := Option.map_eq_some_iff.1 hc
      exact hends next hnext
    have hpiece : pieceAt chunk.first (chunk.run ++ spelled chunks) =
        pieceOf chunk.first chunk.run := by rw [pieceAt_eq, hrun]
    rw [spelled_cons]
    rcases hkind : pieceOf chunk.first chunk.run with more | ⟨lexeme, more⟩ | _
    · obtain rfl := length_of_more? (congrArg Piece.more? hkind)
      rw [lexemesOf_cons_of_none (by rw [Chunk.lexeme?, hkind])]
      exact .skip chunk.run (hpiece.trans hkind) (ih hchunks)
    · obtain rfl := length_of_more? (congrArg Piece.more? hkind)
      rw [lexemesOf_cons_of_some (by rw [Chunk.lexeme?, hkind])]
      exact .token chunk.run (hpiece.trans hkind) (ih hchunks)
    · exact absurd chunk.legal (by rw [hkind]; decide)

end Stowage.Descriptor
