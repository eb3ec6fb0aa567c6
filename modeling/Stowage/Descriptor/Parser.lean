import Stowage.Descriptor.Meaning
import Stowage.Descriptor.Token

/-!
# Reading descriptor text

A document is one type expression or a list of definitions:

    type    = NAME | NAME ( INTEGER ) | vlen < type > | array < type , INTEGER >
            | enum < NAME > { constants } | compound { members }
    constants, members: one or more, separated by commas, with an optional last comma
    constant = NAME [ = INTEGER ]
    member   = NAME : type [ @ INTEGER ]
    definition = define NAME as type

The reader goes through the tokens once. It refuses a document at the first token that cannot
follow, or where the scan stopped. A phrase is given its meaning when it is complete, and it is
complete only when the token after it may follow a type (`closesType`) or, for a definition, is
the end or another `define`: so a fault of meaning is reported before any later token is looked
at, and after the one behind the phrase.

The first argument of the recursive readers bounds their nesting. Every nested call is made after
at least one token was taken, so the number of tokens is bound enough.
-/

set_option autoImplicit false

namespace Stowage.Descriptor

/-- The fault of a reader that cannot go on at the given tokens. -/
def refusal (stop : Option Fault) : List Token → Fault
  | [] => stop.getD (.grammar .unexpectedEnd)
  | token :: _ => .grammar (.unexpectedToken token.lexeme.text token.position)

/-- Takes one mark. -/
def takeMark (stop : Option Fault) (mark : Mark) (tokens : List Token) :
    Except Fault (Unit × List Token) :=
  match tokens with
  | ⟨.mark found, _⟩ :: rest =>
    if found = mark then .ok ((), rest) else .error (refusal stop tokens)
  | _ => .error (refusal stop tokens)

/-- Takes one identifier. -/
def takeIdentifier (stop : Option Fault) (tokens : List Token) :
    Except Fault (String × List Token) :=
  match tokens with
  | ⟨.identifier name, _⟩ :: rest => .ok (name, rest)
  | _ => .error (refusal stop tokens)

/-- Takes one integer. -/
def takeInteger (stop : Option Fault) (tokens : List Token) :
    Except Fault (Int × List Token) :=
  match tokens with
  | ⟨.integer value, _⟩ :: rest => .ok (value, rest)
  | _ => .error (refusal stop tokens)

/-- Takes one keyword. -/
def takeKeyword (stop : Option Fault) (word : Keyword) (tokens : List Token) :
    Except Fault (Unit × List Token) :=
  match tokens with
  | ⟨.keyword found, _⟩ :: rest =>
    if found = word then .ok ((), rest) else .error (refusal stop tokens)
  | _ => .error (refusal stop tokens)

/-- Tokens that may stand behind a type. -/
def Lexeme.closesType : Lexeme → Bool
  | .keyword .define => true
  | .mark .greater | .mark .comma | .mark .atSign | .mark .closeBrace => true
  | _ => false

/-- Requires that a type ends in front of the given tokens. -/
def closeType (stop : Option Fault) (tokens : List Token) : Except Fault Unit :=
  match tokens with
  | [] => match stop with
    | none => .ok ()
    | some fault => .error fault
  | token :: _ => if token.lexeme.closesType then .ok () else .error (refusal stop tokens)

/-- Takes an integer after a mark, when the mark is there. -/
def takeOptional (stop : Option Fault) (mark : Mark) (tokens : List Token) :
    Except Fault (Option Int × List Token) :=
  match tokens with
  | ⟨.mark found, _⟩ :: rest =>
    if found = mark then do
      let (value, rest) ← takeInteger stop rest
      .ok (some value, rest)
    else .ok (none, tokens)
  | _ => .ok (none, tokens)

/-- Takes what stands behind one item of a list in braces, and says whether another item
follows. -/
def takeSeparator (stop : Option Fault) (tokens : List Token) : Except Fault (Bool × List Token) :=
  match tokens with
  | ⟨.mark .closeBrace, _⟩ :: rest => .ok (false, rest)
  | ⟨.mark .comma, _⟩ :: ⟨.mark .closeBrace, _⟩ :: rest => .ok (false, rest)
  | ⟨.mark .comma, _⟩ :: rest => .ok (true, rest)
  | _ => .error (refusal stop tokens)

/-- The constants of an enumeration up to its closing brace. -/
def constants (stop : Option Fault) :
    (bound : Nat) → List Token → Except Fault (List ConstantSpec × List Token)
  | 0, tokens => .error (refusal stop tokens)
  | bound + 1, tokens => do
    let (name, tokens) ← takeIdentifier stop tokens
    let (value?, tokens) ← takeOptional stop .equals tokens
    let (again, tokens) ← takeSeparator stop tokens
    if again then
      let (others, tokens) ← constants stop bound tokens
      .ok (⟨name, value?⟩ :: others, tokens)
    else .ok ([⟨name, value?⟩], tokens)

mutual

/-- One type expression. -/
def typeExpr (stop : Option Fault) (definitions : Definitions) :
    (bound : Nat) → List Token → Except Fault (ElementType × List Token)
  | 0, tokens => .error (refusal stop tokens)
  | bound + 1, tokens =>
    match tokens with
    | ⟨.identifier name, _⟩ :: ⟨.mark .openParen, _⟩ :: rest => do
      let (width, rest) ← takeInteger stop rest
      let (_, rest) ← takeMark stop .closeParen rest
      closeType stop rest
      let type ← sized name width
      .ok (type, rest)
    | ⟨.identifier name, _⟩ :: rest => do
      closeType stop rest
      let type ← typeNamed definitions name
      .ok (type, rest)
    | ⟨.keyword .vlen, _⟩ :: rest => do
      let (_, rest) ← takeMark stop .less rest
      let (element, rest) ← typeExpr stop definitions bound rest
      let (_, rest) ← takeMark stop .greater rest
      closeType stop rest
      .ok (.vlen element, rest)
    | ⟨.keyword .array, _⟩ :: rest => do
      let (_, rest) ← takeMark stop .less rest
      let (element, rest) ← typeExpr stop definitions bound rest
      let (_, rest) ← takeMark stop .comma rest
      let (length, rest) ← takeInteger stop rest
      let (_, rest) ← takeMark stop .greater rest
      closeType stop rest
      let type ← arrayOf element length
      .ok (type, rest)
    | ⟨.keyword .enum, _⟩ :: rest => do
      let (_, rest) ← takeMark stop .less rest
      let (backing, rest) ← takeIdentifier stop rest
      let (_, rest) ← takeMark stop .greater rest
      let (_, rest) ← takeMark stop .openBrace rest
      let (specs, rest) ← constants stop bound rest
      closeType stop rest
      let type ← enumOf backing specs
      .ok (type, rest)
    | ⟨.keyword .compound, _⟩ :: rest => do
      let (_, rest) ← takeMark stop .openBrace rest
      let (specs, rest) ← members stop definitions bound rest
      closeType stop rest
      let type ← compoundOf specs
      .ok (type, rest)
    | _ => .error (refusal stop tokens)

/-- The members of a compound up to its closing brace. -/
def members (stop : Option Fault) (definitions : Definitions) :
    (bound : Nat) → List Token → Except Fault (List MemberSpec × List Token)
  | 0, tokens => .error (refusal stop tokens)
  | bound + 1, tokens => do
    let (name, tokens) ← takeIdentifier stop tokens
    let (_, tokens) ← takeMark stop .colon tokens
    let (type, tokens) ← typeExpr stop definitions bound tokens
    let (offset?, tokens) ← takeOptional stop .atSign tokens
    let (again, tokens) ← takeSeparator stop tokens
    if again then
      let (others, tokens) ← members stop definitions bound tokens
      .ok (⟨name, type, offset?⟩ :: others, tokens)
    else .ok ([⟨name, type, offset?⟩], tokens)

end

/-- Requires that a definition ends in front of the given tokens. -/
def closeDefinition (stop : Option Fault) (tokens : List Token) : Except Fault Unit :=
  match tokens with
  | [] => closeType stop []
  | token :: _ =>
    if token.lexeme = .keyword .define then .ok () else .error (refusal stop tokens)

/-- One or more definitions up to the end, after those already made. -/
def definitionList (stop : Option Fault) :
    (bound : Nat) → Definitions → List Token → Except Fault Definitions
  | 0, _, tokens => .error (refusal stop tokens)
  | bound + 1, definitions, tokens => do
    let (_, tokens) ← takeKeyword stop .define tokens
    let (name, tokens) ← takeIdentifier stop tokens
    let (_, tokens) ← takeKeyword stop .as tokens
    let (type, tokens) ← typeExpr stop definitions bound tokens
    closeDefinition stop tokens
    let definitions ← define definitions name type
    match tokens with
    | [] => .ok definitions
    | _ :: _ => definitionList stop bound definitions tokens

/-- What a text describes. -/
inductive Document where
  | type (type : ElementType)
  | definitions (definitions : Definitions)
  deriving DecidableEq

/-- The document of a scanned text. -/
def document (scan : Scan) : Except Fault Document :=
  match scan.tokens with
  | ⟨.keyword .define, _⟩ :: _ => do
    let definitions ← definitionList scan.stop scan.tokens.length [] scan.tokens
    .ok (.definitions definitions)
  | _ => do
    let (type, rest) ← typeExpr scan.stop [] (scan.tokens.length + 1) scan.tokens
    match rest with
    | [] => .ok (.type type)
    | _ :: _ => .error (refusal scan.stop rest)

/-- The type that a text describes; of several definitions, the last. -/
def parse (text : String) : Except Fault ElementType := do
  match ← document (Scan.ofText text) with
  | .type type => .ok type
  | .definitions definitions =>
    match definitions.getLast? with
    | some (_, type) => .ok type
    | none => .error (.grammar .unexpectedEnd)

/-- The definitions that a text consists of. -/
def parseDefinitions (text : String) : Except Fault Definitions := do
  match ← document (Scan.ofText text) with
  | .type _ => .error (.grammar .noDefinitions)
  | .definitions definitions => .ok definitions

end Stowage.Descriptor
