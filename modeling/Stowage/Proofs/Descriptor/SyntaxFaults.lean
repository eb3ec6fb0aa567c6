import Stowage.Fault.Message
import Stowage.Proofs.Descriptor.Explanation
import Stowage.Proofs.Descriptor.Soundness
import Stowage.Proofs.Descriptor.Standing

/-!
# Syntax faults blame the first impossible token

The first token of a document says whether definitions or a type have to be read, and the goals of
either explain what its reader does. So a fault of grammar is that of the first token that fits no
goal, and since all goals can be met, the tokens before it begin some document, and no document has
it behind them (`exists_impossible`).

With the position of every token in the text (`standsIn_of_tokens`), a syntax fault points at the
first token that no document has there, or at an end that comes too early.
-/

set_option autoImplicit false

namespace Stowage.Descriptor

open Outcome (ok_bind)
open TokenKind (identifier integer keyword mark)

variable {stop : Option Fault} {more : Bool} {goals left : List Goal} {token : Token}
  {tokens rest : List Token} {α β : Type}

/-! ### Documents -/

/-- A fault of grammar is that of the goals. -/
def Blames (stop : Option Fault) (more : Bool) (goals : List Goal) (tokens : List Token)
    (x : Except Fault α) : Prop :=
  ∀ cause, x = .error (.grammar cause) → syntaxFault? stop more goals tokens = some (.grammar cause)

namespace Blames

theorem ok (a : α) : Blames stop more goals tokens (.ok a) := fun _ h ↦ absurd h (by simp)

theorem refused (h : syntaxFault? stop more goals tokens = some (refusal stop tokens)) :
    Blames stop more goals tokens (.error (refusal stop tokens) : Except Fault α) :=
  fun _ hcause ↦ h.trans (congrArg _ (Except.error.inj hcause))

theorem of_notGrammar {x : Except Fault α} (hx : NotGrammar x) :
    Blames stop more goals tokens x := fun cause h ↦ absurd h (hx cause)

theorem bind {x : Except Fault α} {f : α → Except Fault β} (hx : Blames stop more goals tokens x)
    (hf : ∀ a, Blames stop more goals tokens (f a)) : Blames stop more goals tokens (x >>= f) := by
  rcases x with fault | a
  · exact fun cause h ↦ hx cause (congrArg _ (Except.error.inj h))
  · exact hf a

/-- A reader whose outcome the goals explain goes first. -/
theorem bind_reader {after : α → List Goal} {x : Except Fault (α × List Token)}
    {f : α × List Token → Except Fault β} (hx : Explains stop more goals tokens after x)
    (hf : ∀ a rest, x = .ok (a, rest) → rest.length ≤ tokens.length →
      Blames stop more (after a) rest (f (a, rest))) :
    Blames stop more goals tokens (x >>= f) := by
  intro cause h
  rcases x with fault | ⟨a, rest⟩
  · exact (hx cause (Except.error.inj h)).trans (congrArg _ (Except.error.inj h))
  · exact hx.2.trans (hf a rest rfl hx.1 cause h)

/-- A token that fits the goals has been taken. -/
theorem of_step {x : Except Fault α} (h : Descriptor.step more goals token.lexeme.kind = some left)
    (hx : Blames stop more goals (token :: rest) x) : Blames stop more left rest x :=
  fun cause hcause ↦ (syntaxFault?_of_step h).symm.trans (hx cause hcause)

/-- Nothing but the end or another definition stands behind a definition. -/
theorem closeDefinition {x : Except Fault α}
    (hx : (∀ token ∈ tokens.head?, token.lexeme.kind = keyword .define) →
      Blames stop true [] tokens x) :
    Blames stop true [] tokens (Descriptor.closeDefinition stop tokens >>= fun _ ↦ x) := by
  cases tokens with
  | nil =>
    cases stop with
    | none => exact hx fun _ h ↦ absurd h (by simp)
    | some fault =>
      exact .refused (if_neg fun hend ↦ absurd hend.1 (by simp))
  | cons token rest =>
    unfold Descriptor.closeDefinition
    dsimp only
    split
    · next hdefine =>
      refine hx fun first hfirst ↦ ?_
      obtain rfl := Option.some.inj hfirst
      exact Lexeme.kind_eq_keyword_iff.2 hdefine
    · next hdefine =>
      refine .refused (syntaxFault?_of_step_eq_none (if_neg fun h ↦ hdefine ?_))
      exact Lexeme.kind_eq_keyword_iff.1 h.2

end Blames

/-- The first word of a definition, where one comes. -/
theorem explains_define (hne : tokens ≠ [])
    (hdefine : ∀ token ∈ tokens.head?, token.lexeme.kind = keyword .define) :
    Explains stop true [] tokens (fun _ ↦ definitionGoals) (takeKeyword stop .define tokens) := by
  obtain ⟨token, rest, rfl⟩ := List.exists_cons_of_ne_nil hne
  have htakes : Takes stop (keyword .define) (token :: rest)
      (takeKeyword stop .define (token :: rest)) := takes_keyword .define
  generalize takeKeyword stop .define (token :: rest) = x at htakes ⊢
  cases htakes with
  | taken hkind => exact .step (hkind ▸ rfl) (.ok _ rfl)
  | refused hkind => exact absurd (hdefine token rfl) (hkind token rfl)

theorem blames_definitionList {definitions : Definitions} {bound : Nat}
    (hbound : tokens.length ≤ bound) (hne : tokens ≠ [])
    (hdefine : ∀ token ∈ tokens.head?, token.lexeme.kind = keyword .define) :
    Blames stop true [] tokens (definitionList stop bound definitions tokens) := by
  induction bound generalizing definitions tokens with
  | zero => exact absurd (List.length_eq_zero_iff.1 (Nat.le_zero.1 hbound)) hne
  | succ bound ih =>
    rw [definitionList]
    refine .bind_reader (explains_define hne hdefine) fun _ tokens₁ hword _ ↦ ?_
    have h₁ := (takes_keyword .define).length_lt hword
    refine .bind_reader takes_identifier.explains_kind fun name tokens₂ _ h₂ ↦ ?_
    refine .bind_reader (takes_keyword .as).explains_kind fun _ tokens₃ _ h₃ ↦ ?_
    refine .bind_reader ((explainsWithin bound).type (closing_nil true) (by omega))
      fun type tokens₄ _ h₄ ↦ ?_
    refine .closeDefinition fun hnext ↦ ?_
    refine .bind (.of_notGrammar (notGrammar_define _ _)) fun found ↦ ?_
    split
    · exact .ok found
    · exact ih (by omega) (List.cons_ne_nil _ _) hnext

/-- What a document has to be is known from its first token: behind the word that begins a
definition, the goals of a definition, and else a type. -/
theorem exists_goals (stop : Option Fault) (tokens : List Token) :
    ∃ opening rest more goals, tokens = opening ++ rest ∧
      Blames stop more goals rest (document ⟨tokens, stop⟩) ∧
      (∀ w, accepts more goals w = true → isDocument (kinds opening ++ w) = true) ∧
      ∀ w, w.head? = (kinds rest).head? →
        isDocument (kinds opening ++ w) = accepts more goals w := by
  by_cases hdefine : ∃ token rest, tokens = token :: rest ∧ token.lexeme = .keyword .define
  · obtain ⟨⟨lexeme, position⟩, rest, rfl, rfl⟩ := hdefine
    have hdocument (w : List TokenKind) :
        isDocument (keyword .define :: w) = accepts true definitionGoals w := rfl
    refine ⟨[⟨.keyword .define, position⟩], rest, true, definitionGoals, rfl, ?_,
      fun w hw ↦ (hdocument w).trans hw, fun w _ ↦ hdocument w⟩
    have hstep : step true [] (Token.mk (.keyword .define) position).lexeme.kind =
        some definitionGoals := rfl
    refine .of_step hstep ?_
    exact .bind (blames_definitionList (Nat.le_refl _) (List.cons_ne_nil _ _)
      fun token htoken ↦ Option.some.inj htoken ▸ rfl) fun found ↦ .ok _
  · have hkind : (kinds tokens).head? ≠ some (keyword .define) := by
      intro hhead
      cases tokens with
      | nil => exact absurd hhead (by simp)
      | cons token rest =>
        exact hdefine ⟨token, rest, rfl, Lexeme.kind_eq_keyword_iff.1 (Option.some.inj hhead)⟩
    have hdocument {w : List TokenKind} (hw : w.head? ≠ some (keyword .define)) :
        isDocument w = accepts false [.type] w := if_neg hw
    refine ⟨[], tokens, false, [.type], rfl, ?_, fun w hw ↦ ?_, fun w hw ↦ hdocument (hw ▸ hkind)⟩
    · unfold document
      split
      · next position rest htokens => exact absurd ⟨_, rest, htokens, rfl⟩ hdefine
      · refine .bind_reader ((explainsWithin _).type (closing_nil false) (Nat.le_succ _))
          fun type rest _ _ ↦ ?_
        cases rest with
        | nil => exact .ok _
        | cons token rest =>
          exact .refused (syntaxFault?_of_step_eq_none (if_neg fun h ↦ absurd h.1 (by simp)))
    · refine (hdocument fun hhead ↦ ?_).trans hw
      obtain ⟨rest, rfl⟩ := List.head?_eq_some_iff.1 hhead
      exact absurd hw (by simp [accepts, step, Goal.next, typeGoals, Goal.isOptional])

/-- What the goals blame: a token in front of which they were met so far and which does not fit what
is left of them, or the end of the tokens. -/
theorem exists_of_syntaxFault? {fault : Fault}
    (h : syntaxFault? stop more goals tokens = some fault) :
    (∃ before token after left, tokens = before ++ token :: after ∧
      (∀ w, accepts more goals (kinds before ++ w) = accepts more left w) ∧
      step more left token.lexeme.kind = none ∧
      fault = .grammar (.unexpectedToken token.lexeme.text token.position)) ∨
    (fault = refusal stop [] ∧ (stop = none → accepts more goals (kinds tokens) = false) ∧
      ∃ left, ∀ w, accepts more goals (kinds tokens ++ w) = accepts more left w) := by
  induction tokens generalizing goals with
  | nil =>
    obtain ⟨hend, hfault⟩ := Option.ite_none_left_eq_some.1 h
    refine .inr ⟨(Option.some.inj hfault).symm, fun hstop ↦ ?_, goals, fun w ↦ rfl⟩
    exact Bool.eq_false_iff.2 fun haccepts ↦ hend ⟨hstop, haccepts⟩
  | cons token rest ih =>
    rw [syntaxFault?] at h
    split at h
    · next left hleft =>
      have haccepts (w : List TokenKind) :
          accepts more goals (token.lexeme.kind :: w) = accepts more left w :=
        accepts_cons_of_step hleft
      rcases ih h with ⟨before, blamed, after, behind, rfl, hbehind, hstep, hfault⟩ |
        ⟨hfault, hnone, behind, hbehind⟩
      · exact .inl ⟨token :: before, blamed, after, behind, rfl,
          fun w ↦ (haccepts _).trans (hbehind w), hstep, hfault⟩
      · exact .inr ⟨hfault, fun hstop ↦ (haccepts _).trans (hnone hstop), behind,
          fun w ↦ (haccepts _).trans (hbehind w)⟩
    · next hnone =>
      exact .inl ⟨[], token, rest, goals, rfl, fun _ ↦ rfl, hnone, (Option.some.inj h).symm⟩

/-! ### Texts -/

variable {text : String} {cause : GrammarFault}

/-- A fault of grammar that is reported for a text is that of its document, unless it is that the
document is none of definitions. -/
theorem document_eq_error (hcause : cause ≠ .noDefinitions)
    (h : parse text = .error (.grammar cause) ∨ parseDefinitions text = .error (.grammar cause)) :
    document (Scan.ofText text) = .error (.grammar cause) := by
  rcases hfound : document (Scan.ofText text) with fault | found
  · rw [parse, parseDefinitions, hfound] at h
    exact h.elim (fun h ↦ congrArg _ (Except.error.inj h)) fun h ↦ congrArg _ (Except.error.inj h)
  · rcases h with h | h
    · obtain ⟨type, htype⟩ := (derives_of_document hfound).1.exists_type?
      have hparse : parse text = .ok type := parse_eq_ok_iff.2 ⟨found, hfound, htype⟩
      exact absurd (h.symm.trans hparse) (by simp)
    · rw [parseDefinitions, hfound, ok_bind] at h
      cases found with
      | type => exact absurd (Fault.grammar.inj (Except.error.inj h)).symm hcause
      | definitions => exact absurd h (by simp)

/-- A document that is refused by its grammar is refused at the first token that no document of the
grammar has behind the tokens before it, or at the end. -/
theorem exists_impossible {scan : Scan} (h : document scan = .error (.grammar cause)) :
    (∃ before token after, scan.tokens = before ++ token :: after ∧
      (∃ w, kinds before ++ w ∈ grammar.language) ∧
      (∀ w, kinds before ++ token.lexeme.kind :: w ∉ grammar.language) ∧
      cause = .unexpectedToken token.lexeme.text token.position) ∨
    (Fault.grammar cause = refusal scan.stop [] ∧
      (scan.stop = none → kinds scan.tokens ∉ grammar.language) ∧
      ∃ w, kinds scan.tokens ++ w ∈ grammar.language) := by
  simp only [mem_language_iff]
  obtain ⟨opening, rest, more, goals, htokens, hblames, hbegins, hdocument⟩ :=
    exists_goals scan.stop scan.tokens
  rw [htokens]
  rcases exists_of_syntaxFault? (hblames cause h) with
    ⟨before, token, after, left, rfl, hleft, hstep, hcause⟩ | ⟨hcause, hend, left, hleft⟩
  · left
    obtain ⟨w, hw⟩ := exists_accepts more left
    refine ⟨opening ++ before, token, after, (List.append_assoc _ _ _).symm, ⟨w, ?_⟩, fun w ↦ ?_,
      Fault.grammar.inj hcause⟩
    · rw [kinds_append, List.append_assoc]
      exact hbegins _ ((hleft w).trans hw)
    · rw [kinds_append, List.append_assoc, hdocument, hleft, accepts_cons_of_step_eq_none hstep]
      · exact Bool.false_ne_true
      · cases before <;> rfl
  · right
    obtain ⟨w, hw⟩ := exists_accepts more left
    refine ⟨hcause, fun hstop ↦ ?_, w, ?_⟩
    · rw [kinds_append, hdocument _ rfl, hend hstop]
      exact Bool.false_ne_true
    · rw [kinds_append, List.append_assoc]
      exact hbegins _ ((hleft w).trans hw)

/-- What is refused at the end of the tokens: the end of the text, or a character that starts no
token. -/
theorem end_cases (h : Fault.grammar cause = refusal (Scan.ofText text).stop []) :
    (cause = .unexpectedEnd ∧ (Scan.ofText text).stop = none) ∨
      ∃ c place, cause = .illegalCharacter c place := by
  rcases hstop : (Scan.ofText text).stop with _ | stopped
  · rw [hstop] at h
    exact .inl ⟨Fault.grammar.inj h, rfl⟩
  · obtain ⟨c, place, rfl⟩ := exists_illegalCharacter hstop
    rw [hstop] at h
    exact .inr ⟨c, place, Fault.grammar.inj h⟩

/-- Where a text is refused for its syntax, the fault is that of the first token that cannot follow:
the tokens before it begin some document of the grammar, no document has it behind them, and the
fault has its value and its place in the text. Where a text is refused at its end, it can be scanned
to its end, its tokens are no document, and with more tokens they would be one. -/
theorem first_impossible_of_error {fault : Fault}
    (h : parse text = .error fault ∨ parseDefinitions text = .error fault) :
    (∀ value position, fault = .grammar (.unexpectedToken value position) →
      fault.message? = some ("Syntax error at " ++ quoted value ++
        s!" (line {position.line}, column {position.column})") ∧
      ∃ before token after, (Scan.ofText text).tokens = before ++ token :: after ∧
        (∃ w, kinds before ++ w ∈ grammar.language) ∧
        (∀ w, kinds before ++ token.lexeme.kind :: w ∉ grammar.language) ∧
        value = token.lexeme.text ∧ position = token.position ∧ token.StandsIn before text) ∧
    (fault = .grammar .unexpectedEnd →
      fault.message? = some "Syntax error at end of input" ∧
      ∃ tokens, tokenize text = .ok tokens ∧ kinds tokens ∉ grammar.language ∧
        ∃ w, w ≠ [] ∧ kinds tokens ++ w ∈ grammar.language) := by
  constructor
  · rintro value position rfl
    refine ⟨rfl, ?_⟩
    rcases exists_impossible (document_eq_error (by simp) h) with
      ⟨before, token, after, htokens, hbegins, himpossible, hcause⟩ | ⟨hcause, _⟩
    · obtain ⟨rfl, rfl⟩ := GrammarFault.unexpectedToken.inj hcause
      exact ⟨before, token, after, htokens, hbegins, himpossible, rfl, rfl,
        standsIn_of_tokens htokens⟩
    · rcases end_cases hcause with ⟨hend, _⟩ | ⟨_, _, hillegal⟩
      · exact absurd hend (by simp)
      · exact absurd hillegal (by simp)
  · rintro rfl
    refine ⟨rfl, ?_⟩
    rcases exists_impossible (document_eq_error (by simp) h) with
      ⟨_, _, _, _, _, _, hcause⟩ | ⟨hcause, hnone, w, hw⟩
    · exact absurd hcause (by simp)
    · rcases end_cases hcause with ⟨_, hstop⟩ | ⟨_, _, hillegal⟩
      · refine ⟨_, tokenize_eq_ok_iff.2 ⟨hstop, rfl⟩, hnone hstop, w, ?_, hw⟩
        rintro rfl
        rw [List.append_nil] at hw
        exact hnone hstop hw
      · exact absurd hillegal (by simp)

/-- A member whose colon is missing, behind a comment and a line, and a definition without its
type. -/
theorem first_impossible_of_error_member :
    parse "# units\ncompound \x7b id int32 \x7d" =
        .error (.grammar (.unexpectedToken "int32" ⟨2, 15⟩)) ∧
      (∃ before token after,
        (Scan.ofText "# units\ncompound \x7b id int32 \x7d").tokens = before ++ token :: after ∧
          (∃ w, kinds before ++ w ∈ grammar.language) ∧
          (∀ w, kinds before ++ token.lexeme.kind :: w ∉ grammar.language) ∧
          "int32" = token.lexeme.text ∧ ⟨2, 15⟩ = token.position ∧
          token.StandsIn before "# units\ncompound \x7b id int32 \x7d") ∧
      parseDefinitions "define row as" = .error (.grammar .unexpectedEnd) ∧
      ∃ tokens, tokenize "define row as" = .ok tokens ∧ kinds tokens ∉ grammar.language ∧
        ∃ w, w ≠ [] ∧ kinds tokens ++ w ∈ grammar.language := by
  have hcolon : parse "# units\ncompound \x7b id int32 \x7d" =
      .error (.grammar (.unexpectedToken "int32" ⟨2, 15⟩)) := by decide +kernel
  have htype : parseDefinitions "define row as" = .error (.grammar .unexpectedEnd) := by
    decide +kernel
  exact ⟨hcolon, ((first_impossible_of_error (.inl hcolon)).1 _ _ rfl).2, htype,
    ((first_impossible_of_error (.inr htype)).2 rfl).2⟩

end Stowage.Descriptor
