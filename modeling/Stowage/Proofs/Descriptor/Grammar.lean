import Stowage.Descriptor.Parser
import Stowage.Proofs.ElementType.WellFormed

/-!
# The grammar of descriptor text

The grammar relates a phrase, a sequence of lexemes, to what it means:

    document   = type | definition { definition }
    definition = define NAME as type
    type       = NAME | NAME ( INTEGER ) | vlen < type > | array < type , INTEGER >
               | enum < NAME > { constant { , constant } [ , ] }
               | compound { member { , member } [ , ] }
    constant   = NAME [ = INTEGER ]
    member     = NAME : type [ @ INTEGER ]

Every production is one rule, and the conditions on the meaning of a phrase stand in its rule: a
name is resolved against the types that need no definition and the definitions to the left of it,
constants count on, members lie back to back unless told otherwise, and widths, lengths, offsets
and names are checked. What is meant is said by relations and not computed, so that the readers of
phrases can be compared with it.
-/

set_option autoImplicit false

namespace Stowage.Descriptor

/-- What tokens say, without where they stand. -/
def lexemes (tokens : List Token) : List Lexeme := tokens.map (·.lexeme)

@[simp] theorem lexemes_nil : lexemes [] = [] := rfl

@[simp] theorem lexemes_cons (token : Token) (rest : List Token) :
    lexemes (token :: rest) = token.lexeme :: lexemes rest := rfl

@[simp] theorem length_lexemes (tokens : List Token) : (lexemes tokens).length = tokens.length :=
  List.length_map _

/-! ### Meanings -/

/-- The type that a name has before any definition. -/
inductive Builtin : String → ElementType → Prop
  | number (type : NumberType) : Builtin type.name (.number type)
  | string : Builtin "string" .string
  | reference : Builtin "reference" (.reference referenceSize)

/-- The type of a name after the given definitions. -/
inductive Named (definitions : Definitions) : String → ElementType → Prop
  | builtin {name : String} {type : ElementType} (h : Builtin name type) :
      Named definitions name type
  | defined {name : String} {type : ElementType} (h : (name, type) ∈ definitions) :
      Named definitions name type

/-- A name that has no type yet. -/
def Free (definitions : Definitions) (name : String) : Prop :=
  ∀ type, ¬ Named definitions name type

/-- The type of a name with a width. -/
inductive Sized (width : Int) : String → ElementType → Prop
  | string (h : 0 < width) : Sized width "string" (.fixedString width)
  | reference (h : 0 < width) : Sized width "reference" (.reference width)

/-- Constants with their values: the value that is given or else one more than the value before,
which is `next` for the first. -/
inductive Numbered : (next : Int) → List ConstantSpec → List (String × Int) → Prop
  | nil (next : Int) : Numbered next [] []
  | given {next : Int} {name : String} {value : Int} {specs : List ConstantSpec}
      {constants : List (String × Int)} (h : Numbered (value + 1) specs constants) :
      Numbered next (⟨name, some value⟩ :: specs) ((name, value) :: constants)
  | counted {next : Int} {name : String} {specs : List ConstantSpec}
      {constants : List (String × Int)} (h : Numbered (next + 1) specs constants) :
      Numbered next (⟨name, none⟩ :: specs) ((name, next) :: constants)

/-- Members at their offsets: the offset that is given or else the end of the member listed before,
which is `next` for the first. -/
inductive LaidOut : (next : Int) → List MemberSpec → List Member → Prop
  | nil (next : Int) : LaidOut next [] []
  | given {next : Int} {name : String} {type : ElementType} {offset : Int}
      {specs : List MemberSpec} {members : List Member}
      (h : LaidOut (offset + type.size) specs members) :
      LaidOut next (⟨name, type, some offset⟩ :: specs) (⟨name, offset, type⟩ :: members)
  | following {next : Int} {name : String} {type : ElementType}
      {specs : List MemberSpec} {members : List Member}
      (h : LaidOut (next + type.size) specs members) :
      LaidOut next (⟨name, type, none⟩ :: specs) (⟨name, next, type⟩ :: members)

/-- Members that make up a compound of a size. -/
structure Compound (members : List Member) (size : Int) : Prop where
  /-- Members differ in their names. -/
  names : (members.map (·.name)).Nodup
  /-- No member starts before the compound. -/
  offset_nonneg : ∀ m ∈ members, 0 ≤ m.offset
  /-- Members lie beside each other. -/
  apart : members.Pairwise Member.Apart
  /-- No member ends behind the compound. -/
  stop_le : ∀ m ∈ members, m.stop ≤ size
  /-- Some member ends with the compound. -/
  exists_stop_eq : ∃ m ∈ members, m.stop = size

/-! ### Phrases -/

/-- An integer after a mark, or nothing. -/
inductive OptionalInteger (mark : Mark) : List Lexeme → Option Int → Prop
  | absent : OptionalInteger mark [] none
  | present (value : Int) : OptionalInteger mark [.mark mark, .integer value] (some value)

/-- A comma, or nothing. -/
inductive OptionalComma : List Lexeme → Prop
  | absent : OptionalComma []
  | present : OptionalComma [.mark .comma]

/-- One constant of an enumeration. -/
inductive ConstantPhrase : List Lexeme → ConstantSpec → Prop
  | mk {name : String} {phrase : List Lexeme} {value? : Option Int}
      (hvalue : OptionalInteger .equals phrase value?) :
      ConstantPhrase (.identifier name :: phrase) ⟨name, value?⟩

/-- One or more constants, separated by commas. -/
inductive ConstantList : List Lexeme → List ConstantSpec → Prop
  | single {phrase : List Lexeme} {spec : ConstantSpec} (h : ConstantPhrase phrase spec) :
      ConstantList phrase [spec]
  | cons {phrase rest : List Lexeme} {spec : ConstantSpec} {specs : List ConstantSpec}
      (hhead : ConstantPhrase phrase spec) (htail : ConstantList rest specs) :
      ConstantList (phrase ++ .mark .comma :: rest) (spec :: specs)

mutual

/-- A type expression after the given definitions. -/
inductive TypePhrase (definitions : Definitions) : List Lexeme → ElementType → Prop
  | name {name : String} {type : ElementType} (h : Named definitions name type) :
      TypePhrase definitions [.identifier name] type
  | sized {name : String} {width : Int} {type : ElementType} (h : Sized width name type) :
      TypePhrase definitions
        [.identifier name, .mark .openParen, .integer width, .mark .closeParen] type
  | vlen {phrase : List Lexeme} {element : ElementType}
      (helement : TypePhrase definitions phrase element) :
      TypePhrase definitions (.keyword .vlen :: .mark .less :: (phrase ++ [.mark .greater]))
        (.vlen element)
  | array {phrase : List Lexeme} {element : ElementType} {length : Int}
      (helement : TypePhrase definitions phrase element) (hlength : 0 < length)
      (hflat : isArrayType element = false) :
      TypePhrase definitions
        (.keyword .array :: .mark .less ::
          (phrase ++ [.mark .comma, .integer length, .mark .greater]))
        (.array element length)
  | enum {backing : NumberType} {phrase comma : List Lexeme} {specs : List ConstantSpec}
      {constants : List (String × Int)} (hbacking : backing.isInteger = true)
      (hspecs : ConstantList phrase specs) (hcomma : OptionalComma comma)
      (hnumbered : Numbered 0 specs constants) (hnames : (constants.map (·.1)).Nodup) :
      TypePhrase definitions
        (.keyword .enum :: .mark .less :: .identifier backing.name :: .mark .greater ::
          .mark .openBrace :: (phrase ++ comma ++ [.mark .closeBrace]))
        (.enum backing constants)
  | compound {phrase comma : List Lexeme} {specs : List MemberSpec} {members : List Member}
      {size : Int} (hspecs : MemberList definitions phrase specs) (hcomma : OptionalComma comma)
      (hlaidOut : LaidOut 0 specs members) (hcompound : Compound members size) :
      TypePhrase definitions
        (.keyword .compound :: .mark .openBrace :: (phrase ++ comma ++ [.mark .closeBrace]))
        (.compound (.ofList members) size)

/-- One member of a compound. -/
inductive MemberPhrase (definitions : Definitions) : List Lexeme → MemberSpec → Prop
  | mk {name : String} {phrase offset : List Lexeme} {type : ElementType} {offset? : Option Int}
      (htype : TypePhrase definitions phrase type)
      (hoffset : OptionalInteger .atSign offset offset?) :
      MemberPhrase definitions (.identifier name :: .mark .colon :: (phrase ++ offset))
        ⟨name, type, offset?⟩

/-- One or more members, separated by commas. -/
inductive MemberList (definitions : Definitions) : List Lexeme → List MemberSpec → Prop
  | single {phrase : List Lexeme} {spec : MemberSpec} (h : MemberPhrase definitions phrase spec) :
      MemberList definitions phrase [spec]
  | cons {phrase rest : List Lexeme} {spec : MemberSpec} {specs : List MemberSpec}
      (hhead : MemberPhrase definitions phrase spec) (htail : MemberList definitions rest specs) :
      MemberList definitions (phrase ++ .mark .comma :: rest) (spec :: specs)

end

/-- One definition after the given ones, with all definitions up to it. -/
inductive DefinitionPhrase (definitions : Definitions) : List Lexeme → Definitions → Prop
  | mk {name : String} {phrase : List Lexeme} {type : ElementType}
      (htype : TypePhrase definitions phrase type) (hfree : Free definitions name) :
      DefinitionPhrase definitions
        (.keyword .define :: .identifier name :: .keyword .as :: phrase)
        (definitions ++ [(name, type)])

/-- One or more definitions after the given ones, with all definitions up to the last. -/
inductive DefinitionList : Definitions → List Lexeme → Definitions → Prop
  | single {definitions found : Definitions} {phrase : List Lexeme}
      (h : DefinitionPhrase definitions phrase found) : DefinitionList definitions phrase found
  | cons {definitions more found : Definitions} {phrase rest : List Lexeme}
      (hhead : DefinitionPhrase definitions phrase more)
      (htail : DefinitionList more rest found) :
      DefinitionList definitions (phrase ++ rest) found

/-- The sequence of lexemes is a document that holds what is given. -/
inductive Derives : List Lexeme → Document → Prop
  | type {phrase : List Lexeme} {type : ElementType} (h : TypePhrase [] phrase type) :
      Derives phrase (.type type)
  | definitions {phrase : List Lexeme} {definitions : Definitions}
      (h : DefinitionList [] phrase definitions) : Derives phrase (.definitions definitions)

/-- The type that a document describes: of several definitions, the last. -/
def Document.type? : Document → Option ElementType
  | .type described => some described
  | .definitions defined => defined.getLast?.map (·.2)

end Stowage.Descriptor
