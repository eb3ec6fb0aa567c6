import Mathlib.Data.List.Induction
import Stowage.Proofs.Descriptor.Pieces

/-!
# Where tokens stand

The scan walks over blanks, comments and the tails of longer pieces one character at a time, and
counts lines and columns on the way. So a token stands behind the characters that come before it in
the text (`Token.StandsIn`): these by themselves are scanned as the tokens before it, its own
characters follow them, and its position is the place that they lead to (`placeAfter`).
-/

set_option autoImplicit false

namespace Stowage.Descriptor

/-! ### Lines and columns -/

/-- The place after some characters: lines are counted by the newlines among them, columns by the
characters behind the last newline, and both from one. -/
def placeAfter (chars : List Char) : Position :=
  ⟨1 + chars.count '\n', 1 + (chars.reverse.takeWhile (· != '\n')).length⟩

theorem advance_placeAfter (chars : List Char) (c : Char) :
    advance (placeAfter chars) c = placeAfter (chars ++ [c]) := by
  rw [advance, placeAfter, placeAfter, List.count_append, List.reverse_append]
  by_cases h : c = '\n'
  · subst h
    rfl
  · have hcount : [c].count '\n' = 0 := List.count_eq_zero.2 (by simpa using Ne.symm h)
    have hrun : ([c].reverse ++ chars.reverse).takeWhile (· != '\n') =
        c :: chars.reverse.takeWhile (· != '\n') := by
      rw [List.reverse_singleton, List.singleton_append]
      exact List.takeWhile_cons_of_pos (by simpa using h)
    rw [if_neg h, hcount, hrun, List.length_cons]
    rfl

/-- Stepping over characters one at a time leads to the place after them. -/
theorem foldl_advance (chars : List Char) : chars.foldl advance ⟨1, 1⟩ = placeAfter chars := by
  induction chars using List.reverseRecOn with
  | nil => rfl
  | append_singleton chars c ih =>
    rw [List.foldl_append, List.foldl_cons, List.foldl_nil, ih, advance_placeAfter]

theorem foldl_advance_placeAfter (before chars : List Char) :
    chars.foldl advance (placeAfter before) = placeAfter (before ++ chars) := by
  rw [← foldl_advance, ← foldl_advance, List.foldl_append]

/-! ### Tokens -/

/-- A scanned token has its characters behind those that are scanned as the tokens before it. -/
theorem exists_piece {skip : Nat} {position : Position} {chars : List Char}
    {before after : List Token} {token : Token}
    (h : (scanFrom skip position chars).tokens = before ++ token :: after) :
    ∃ pre c rest more, chars = pre ++ c :: rest ∧ skip ≤ pre.length ∧
      scanFrom skip position pre = ⟨before, none⟩ ∧ pieceAt c rest = .token token.lexeme more ∧
      token.position = pre.foldl advance position := by
  induction chars generalizing skip position before with
  | nil => exact absurd h (by simp [scanFrom])
  | cons d chars ih =>
    cases skip with
    | succ skip =>
      obtain ⟨pre, c, rest, more, rfl, hskip, hscan, hpiece, hposition⟩ := ih h
      exact ⟨d :: pre, c, rest, more, rfl, Nat.succ_le_succ hskip, hscan, hpiece, hposition⟩
    | zero =>
      rw [scanFrom] at h
      rcases hd : pieceAt d chars with skipped | ⟨lexeme, tail⟩ | _ <;>
        simp only [hd] at h
      · -- a piece without meaning
        obtain ⟨pre, c, rest, more, rfl, hskip, hscan, hpiece, hposition⟩ := ih h
        have hpre : pieceAt d pre = .skip skipped :=
          (pieceAt_of_le (by rw [hd]; rfl) hskip).trans hd
        refine ⟨d :: pre, c, rest, more, rfl, Nat.zero_le _, ?_, hpiece, hposition⟩
        rw [scanFrom, hpre]
        exact hscan
      · cases before with
        | nil =>
          -- the token itself
          obtain ⟨rfl, rfl⟩ := List.cons.inj h
          exact ⟨[], d, chars, tail, rfl, Nat.le_refl 0, rfl, hd, rfl⟩
        | cons first before =>
          -- a token before it
          obtain ⟨rfl, htokens⟩ := List.cons.inj h
          obtain ⟨pre, c, rest, more, rfl, hskip, hscan, hpiece, hposition⟩ := ih htokens
          have hpre : pieceAt d pre = .token lexeme tail :=
            (pieceAt_of_le (by rw [hd]; rfl) hskip).trans hd
          refine ⟨d :: pre, c, rest, more, rfl, Nat.zero_le _, ?_, hpiece, hposition⟩
          rw [scanFrom, hpre]
          dsimp only
          rw [hscan]
      · exact absurd h (by simp)

/-- A scan is stopped by a character that starts nothing. -/
theorem exists_illegalCharacter {skip : Nat} {position : Position} {chars : List Char}
    {fault : Fault} (h : (scanFrom skip position chars).stop = some fault) :
    ∃ c place, fault = .grammar (.illegalCharacter c place) := by
  induction chars generalizing skip position with
  | nil => exact absurd h (by simp [scanFrom])
  | cons c chars ih =>
    cases skip with
    | succ skip => exact ih h
    | zero =>
      rw [scanFrom] at h
      split at h
      · exact ih h
      · exact ih h
      · exact ⟨c, position, (Option.some.inj h).symm⟩

/-- A token stands in a text behind others: the characters before it are those of the others, its
own follow, and its position is the place that they lead to. -/
def Token.StandsIn (token : Token) (before : List Token) (text : String) : Prop :=
  ∃ pre c rest more, text.toList = pre ++ c :: rest ∧
    scanFrom 0 ⟨1, 1⟩ pre = ⟨before, none⟩ ∧
    pieceAt c rest = .token token.lexeme more ∧
    token.position = placeAfter pre

/-- Every token of a text stands in it behind the tokens before it. -/
theorem standsIn_of_tokens {text : String} {before after : List Token} {token : Token}
    (h : (Scan.ofText text).tokens = before ++ token :: after) : token.StandsIn before text := by
  obtain ⟨pre, c, rest, more, htext, -, hscan, hpiece, hposition⟩ := exists_piece h
  exact ⟨pre, c, rest, more, htext, hscan, hpiece, hposition.trans (foldl_advance pre)⟩

end Stowage.Descriptor
