import Stowage.Action
import Stowage.Descriptor.Parser

/-!
# Readers

One reader reads many texts. It keeps a table of the types that have been defined, in which the
names of later definitions are looked up; reading a text clears the table first, and a text that is
refused leaves the definitions before the refusal in it. Each text is scanned from its first line.

`Reader.parse` and `Reader.parseDefinitions` are the answers of a reader, which collect the
definitions beside the table.
-/

set_option autoImplicit false

namespace Stowage.Descriptor

/-- What a reader keeps from one text to the next. -/
structure Reader where
  /-- The types defined so far in the text that was read last. -/
  definitions : Definitions
  deriving DecidableEq

namespace Reader

/-- A reader that has read nothing. -/
def fresh : Reader := ⟨[]⟩

/-- Makes a definition. -/
def define (name : String) (type : ElementType) : Action Reader Unit := do
  let definitions ← Action.reading fun reader ↦ Descriptor.define reader.definitions name type
  Action.update fun _ ↦ ⟨definitions⟩

/-- A type expression, its names looked up in the table. -/
def typeExpr (stop : Option Fault) (bound : Nat) (tokens : List Token) :
    Action Reader (ElementType × List Token) :=
  Action.reading fun reader ↦ Descriptor.typeExpr stop reader.definitions bound tokens

/-- One or more definitions up to the end, each of them made before the next is read. -/
def definitionList (stop : Option Fault) : (bound : Nat) → List Token → Action Reader Definitions
  | 0, tokens => Action.refuse (refusal stop tokens)
  | bound + 1, tokens => do
    let (_, tokens) ← Action.ofExcept (takeKeyword stop .define tokens)
    let (name, tokens) ← Action.ofExcept (takeIdentifier stop tokens)
    let (_, tokens) ← Action.ofExcept (takeKeyword stop .as tokens)
    let (type, tokens) ← typeExpr stop bound tokens
    Action.ofExcept (closeDefinition stop tokens)
    define name type
    match tokens with
    | [] => pure [(name, type)]
    | _ :: _ => do
      let others ← definitionList stop bound tokens
      pure ((name, type) :: others)

/-- The document of a scanned text. -/
def document (scan : Scan) : Action Reader Document :=
  match scan.tokens with
  | ⟨.keyword .define, _⟩ :: _ => do
    let definitions ← definitionList scan.stop scan.tokens.length scan.tokens
    pure (.definitions definitions)
  | _ => do
    let (type, rest) ← typeExpr scan.stop (scan.tokens.length + 1) scan.tokens
    match rest with
    | [] => pure (.type type)
    | _ :: _ => Action.refuse (refusal scan.stop rest)

/-- The document of a text, read with a table that is cleared first. -/
def read (text : String) : Action Reader Document := do
  Action.update fun _ ↦ ⟨[]⟩
  document (Scan.ofText text)

/-- The type that a text describes; of several definitions, the last. -/
def parse (text : String) : Action Reader ElementType := do
  match ← read text with
  | .type type => pure type
  | .definitions definitions =>
    match definitions.getLast? with
    | some (_, type) => pure type
    | none => Action.refuse (.grammar .unexpectedEnd)

/-- The definitions that a text consists of. -/
def parseDefinitions (text : String) : Action Reader Definitions := do
  match ← read text with
  | .type _ => Action.refuse (.grammar .noDefinitions)
  | .definitions definitions => pure definitions

end Reader

end Stowage.Descriptor
