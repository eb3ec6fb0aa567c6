import Mathlib.Computability.ContextFreeGrammar
import Stowage.Descriptor.Token

/-!
# The context-free grammar of descriptor text

What a token says does not matter to its syntax, only what kind of token it is (`TokenKind`).
`grammar` has the productions of descriptor text over these kinds, with lists that grow by an item
at the end and may have a last comma. A text may be in its language and still have no meaning.

The words of the symbols that a nonterminal becomes are derived from it (`mem_derived`), and its
words are contained in every reading of the nonterminals that is closed under the productions
(`mem_of_mem_language`).
-/

set_option autoImplicit false

namespace Stowage.Descriptor

/-- The kind of a token. -/
inductive TokenKind where
  | identifier
  | integer
  | keyword (word : Keyword)
  | mark (mark : Mark)
  deriving DecidableEq, Repr

/-- What kind of token says this. -/
def Lexeme.kind : Lexeme → TokenKind
  | .identifier _ => .identifier
  | .integer _ => .integer
  | .keyword word => .keyword word
  | .mark found => .mark found

section Kinds

variable {lexeme : Lexeme}

theorem Lexeme.kind_eq_identifier_iff :
    lexeme.kind = .identifier ↔ ∃ name, lexeme = .identifier name := by
  cases lexeme <;> simp [kind]

theorem Lexeme.kind_eq_integer_iff :
    lexeme.kind = .integer ↔ ∃ value, lexeme = .integer value := by
  cases lexeme <;> simp [kind]

theorem Lexeme.kind_eq_keyword_iff {word : Keyword} :
    lexeme.kind = .keyword word ↔ lexeme = .keyword word := by
  cases lexeme <;> simp [kind]

theorem Lexeme.kind_eq_mark_iff {mark : Mark} :
    lexeme.kind = .mark mark ↔ lexeme = .mark mark := by
  cases lexeme <;> simp [kind]

end Kinds

/-- The kinds of tokens in order. -/
def kinds (tokens : List Token) : List TokenKind := tokens.map fun token ↦ token.lexeme.kind

@[simp] theorem kinds_nil : kinds [] = [] := rfl

@[simp] theorem kinds_cons (token : Token) (rest : List Token) :
    kinds (token :: rest) = token.lexeme.kind :: kinds rest := rfl

@[simp] theorem kinds_append (before after : List Token) :
    kinds (before ++ after) = kinds before ++ kinds after := List.map_append

/-! ### Grammars -/

section Grammars

variable {T N : Type} {g : ContextFreeGrammar T}

/-- The words that a string of symbols stands for when every nonterminal stands for a language. -/
def words (meaning : N → Language T) : List (Symbol T N) → Language T
  | [] => 1
  | .terminal t :: rest => {[t]} * words meaning rest
  | .nonterminal A :: rest => meaning A * words meaning rest

variable {meaning : N → Language T} {rest : List (Symbol T N)} {w : List T}

@[simp] theorem mem_words_nil : w ∈ words meaning [] ↔ w = [] := Language.mem_one w

@[simp] theorem mem_words_terminal {t : T} :
    w ∈ words meaning (.terminal t :: rest) ↔ ∃ v ∈ words meaning rest, t :: v = w := by
  rw [words, Language.mem_mul]
  constructor
  · rintro ⟨_, rfl, v, hv, rfl⟩
    exact ⟨v, hv, rfl⟩
  · rintro ⟨v, hv, rfl⟩
    exact ⟨[t], rfl, v, hv, rfl⟩

@[simp] theorem mem_words_nonterminal {A : N} :
    w ∈ words meaning (.nonterminal A :: rest) ↔
      ∃ u ∈ meaning A, ∃ v ∈ words meaning rest, u ++ v = w := Language.mem_mul

theorem words_append (first second : List (Symbol T N)) :
    words meaning (first ++ second) = words meaning first * words meaning second := by
  induction first with
  | nil => exact (one_mul _).symm
  | cons symbol first ih =>
    cases symbol <;> rw [List.cons_append, words, words, ih, mul_assoc]

/-- Terminals stand for themselves. -/
theorem mem_words_map_terminal (w : List T) : w ∈ words meaning (w.map .terminal) := by
  induction w with
  | nil => exact mem_words_nil.2 rfl
  | cons t w ih => exact mem_words_terminal.2 ⟨w, ih, rfl⟩

/-- Assumes: a reading of the nonterminals that is closed under the rules. What a string of symbols
derives is among its words. -/
theorem mem_words_of_derives {meaning : g.NT → Language T}
    (hclosed : ∀ rule ∈ g.rules, ∀ w ∈ words meaning rule.output, w ∈ meaning rule.input)
    {symbols : List (Symbol T g.NT)} (h : g.Derives symbols (w.map .terminal)) :
    w ∈ words meaning symbols := by
  induction h using Relation.ReflTransGen.head_induction_on with
  | refl => exact mem_words_map_terminal w
  | head hproduces _ ih =>
    obtain ⟨rule, hrule, hrewrites⟩ := hproduces
    obtain ⟨before, after, rfl, rfl⟩ := hrewrites.exists_parts
    rw [words_append, words_append] at ih ⊢
    have hone : words meaning [.nonterminal rule.input] = meaning rule.input := mul_one _
    have hle : words meaning rule.output ≤ words meaning [.nonterminal rule.input] :=
      hone ▸ hclosed rule hrule
    exact mul_le_mul_left (mul_le_mul_right hle _) _ ih

/-- The words that a nonterminal derives. -/
def languageOf (g : ContextFreeGrammar T) (A : g.NT) : Language T :=
  {w | g.Derives [.nonterminal A] (w.map .terminal)}

/-- Words of the symbols are derived from them. -/
theorem derives_of_mem_words {symbols : List (Symbol T g.NT)}
    (h : w ∈ words (languageOf g) symbols) : g.Derives symbols (w.map .terminal) := by
  induction symbols generalizing w with
  | nil =>
    obtain rfl := mem_words_nil.1 h
    exact .refl _
  | cons symbol rest ih =>
    cases symbol with
    | terminal t =>
      obtain ⟨v, hv, rfl⟩ := mem_words_terminal.1 h
      exact (ih hv).append_left [.terminal t]
    | nonterminal A =>
      obtain ⟨u, hu, v, hv, rfl⟩ := mem_words_nonterminal.1 h
      rw [List.map_append]
      exact (ContextFreeGrammar.Derives.append_right hu rest).trans ((ih hv).append_left _)

/-- What the output of a rule stands for is derived from its input. -/
theorem mem_languageOf {rule : ContextFreeRule T g.NT} (hrule : rule ∈ g.rules)
    (h : w ∈ words (languageOf g) rule.output) : w ∈ languageOf g rule.input :=
  ContextFreeGrammar.Produces.trans_derives ⟨rule, hrule, .input_output⟩ (derives_of_mem_words h)

end Grammars

/-! ### Descriptor text -/

/-- What a list in braces consists of: constants of an enumeration, or members of a compound. -/
inductive Body where
  | constants
  | members
  deriving DecidableEq, Repr

/-- The nonterminals of descriptor text. -/
inductive Nonterminal where
  | document
  | definitions
  | definition
  | type
  | list (body : Body)
  | item (body : Body)
  deriving DecidableEq, Repr

/-- Every nonterminal. -/
def Nonterminal.all : List Nonterminal :=
  [document, definitions, definition, type, list .constants, list .members, item .constants,
    item .members]

theorem Nonterminal.mem_all (A : Nonterminal) : A ∈ all := by
  rcases A with _ | _ | _ | _ | body | body <;> first | decide | (cases body <;> decide)

open Symbol (terminal nonterminal)
open TokenKind (identifier integer keyword mark)

/-- What a nonterminal of descriptor text may become. -/
def alternatives : Nonterminal → List (List (Symbol TokenKind Nonterminal))
  | .document => [[nonterminal .type], [nonterminal .definitions]]
  | .definitions =>
    [[nonterminal .definition], [nonterminal .definitions, nonterminal .definition]]
  | .definition =>
    [[terminal (keyword .define), terminal identifier, terminal (keyword .as), nonterminal .type]]
  | .type =>
    [[terminal identifier],
      [terminal identifier, terminal (mark .openParen), terminal integer,
        terminal (mark .closeParen)],
      [terminal (keyword .vlen), terminal (mark .less), nonterminal .type,
        terminal (mark .greater)],
      [terminal (keyword .array), terminal (mark .less), nonterminal .type, terminal (mark .comma),
        terminal integer, terminal (mark .greater)],
      [terminal (keyword .enum), terminal (mark .less), terminal identifier,
        terminal (mark .greater), terminal (mark .openBrace), nonterminal (.list .constants),
        terminal (mark .closeBrace)],
      [terminal (keyword .enum), terminal (mark .less), terminal identifier,
        terminal (mark .greater), terminal (mark .openBrace), nonterminal (.list .constants),
        terminal (mark .comma), terminal (mark .closeBrace)],
      [terminal (keyword .compound), terminal (mark .openBrace), nonterminal (.list .members),
        terminal (mark .closeBrace)],
      [terminal (keyword .compound), terminal (mark .openBrace), nonterminal (.list .members),
        terminal (mark .comma), terminal (mark .closeBrace)]]
  | .list body =>
    [[nonterminal (.item body)],
      [nonterminal (.list body), terminal (mark .comma), nonterminal (.item body)]]
  | .item .constants =>
    [[terminal identifier], [terminal identifier, terminal (mark .equals), terminal integer]]
  | .item .members =>
    [[terminal identifier, terminal (mark .colon), nonterminal .type],
      [terminal identifier, terminal (mark .colon), nonterminal .type, terminal (mark .atSign),
        terminal integer]]

/-- The productions of descriptor text. -/
def productions : List (ContextFreeRule TokenKind Nonterminal) :=
  Nonterminal.all.flatMap fun A ↦ (alternatives A).map fun output ↦ ⟨A, output⟩

theorem mem_productions {rule : ContextFreeRule TokenKind Nonterminal} :
    rule ∈ productions ↔ rule.output ∈ alternatives rule.input := by
  simp only [productions, List.mem_flatMap, List.mem_map]
  constructor
  · rintro ⟨A, _, output, houtput, rfl⟩
    exact houtput
  · exact fun houtput ↦ ⟨rule.input, rule.input.mem_all, rule.output, houtput, rfl⟩

/-- The grammar of descriptor text. -/
def grammar : ContextFreeGrammar TokenKind where
  NT := Nonterminal
  initial := .document
  rules := productions.toFinset

theorem mem_rules {rule : ContextFreeRule TokenKind Nonterminal} :
    rule ∈ grammar.rules ↔ rule.output ∈ alternatives rule.input :=
  (show rule ∈ productions.toFinset ↔ _ from List.mem_toFinset).trans mem_productions

/-- The words of kinds that a nonterminal of descriptor text derives. -/
def derived (A : Nonterminal) : Language TokenKind := languageOf grammar A

theorem language_eq : grammar.language = derived .document := rfl

variable {w : List TokenKind}

/-- The words of what a nonterminal may become are derived from it. -/
theorem mem_derived {A : Nonterminal} {output : List (Symbol TokenKind Nonterminal)}
    (houtput : output ∈ alternatives A) (h : w ∈ words derived output) : w ∈ derived A :=
  @mem_languageOf _ grammar w ⟨A, output⟩ (mem_rules.2 houtput) h

/-- Assumes: a reading of the nonterminals that is closed under the productions. Every document is
among the words of the initial nonterminal. -/
theorem mem_of_mem_language {meaning : Nonterminal → Language TokenKind}
    (hclosed : ∀ A, ∀ output ∈ alternatives A, ∀ w ∈ words meaning output, w ∈ meaning A)
    (h : w ∈ grammar.language) : w ∈ meaning .document := by
  have hwords : w ∈ words meaning [nonterminal .document] :=
    @mem_words_of_derives _ grammar w meaning
      (fun rule hrule ↦ hclosed rule.input rule.output (mem_rules.1 hrule)) _ h
  have hone : words meaning [nonterminal .document] = meaning .document := mul_one _
  exact hone ▸ hwords

end Stowage.Descriptor
