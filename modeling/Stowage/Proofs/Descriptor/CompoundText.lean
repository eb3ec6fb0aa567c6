import Stowage.Proofs.Descriptor.Completeness

/-!
# Text that describes a compound

`CompoundText text members` says that a text is written like the description of a compound: its
members have different names and types that can be resolved, and the offsets assigned to them are
not negative. Where the members overlap it does not say, and the offset of a member that has none
of its own is the end of the member listed before it, also when that one was placed further back.

Such a text is read up to the check for overlaps, with definitions in front of the compound or
without, so what is read is what the check makes of the members (`CompoundText.parse_eq`).
-/

set_option autoImplicit false

namespace Stowage.Descriptor

open Outcome (ok_bind)

variable {definitions : Definitions} {tokens : List Token} {phrase comma following : List Lexeme}
  {specs : List MemberSpec}

/-- What stands in front of the type that a text describes: nothing, or the definitions before it
and the name that it is given. -/
inductive Opening : List Lexeme → Definitions → Prop
  | bare : Opening [] []
  | first {name : String} (hfree : Free [] name) :
      Opening [.keyword .define, .identifier name, .keyword .as] []
  | later {name : String} {phrase : List Lexeme} {definitions : Definitions}
      (hlist : DefinitionList [] phrase definitions) (hfree : Free definitions name) :
      Opening (phrase ++ [.keyword .define, .identifier name, .keyword .as]) definitions

/-- A compound around its members. -/
def compoundPhrase (phrase comma : List Lexeme) : List Lexeme :=
  .keyword .compound :: .mark .openBrace :: (phrase ++ comma ++ [.mark .closeBrace])

/-- The text describes a compound of the given members, wherever these overlap. -/
inductive CompoundText (text : String) (members : List Member) : Prop
  | mk {tokens : List Token} {opening phrase comma : List Lexeme} {definitions : Definitions}
      {specs : List MemberSpec} (htokens : tokenize text = .ok tokens)
      (hopening : Opening opening definitions) (hspecs : MemberList definitions phrase specs)
      (hcomma : OptionalComma comma)
      (hlexemes : lexemes tokens = opening ++ compoundPhrase phrase comma)
      (hlaidOut : LaidOut 0 specs members) (hnames : (members.map (·.name)).Nodup)
      (hoffset : ∀ m ∈ members, 0 ≤ m.offset)

/-! ### The compound -/

/-- Assumes: the definitions made before are well-formed and give no name two types. A compound is
read as what the check for overlaps makes of its members. -/
theorem exists_typeExpr_compound (stop : Option Fault) (hdefinitions : AllWellFormed definitions)
    (hnames : Unambiguous definitions) (hspecs : MemberList definitions phrase specs)
    (hcomma : OptionalComma comma) {bound : Nat}
    (hbound : (compoundPhrase phrase comma).length < bound)
    (h : lexemes tokens = compoundPhrase phrase comma ++ following)
    (hclose : Closes stop following) :
    ∃ rest, lexemes rest = following ∧ typeExpr stop definitions bound tokens =
      (compoundOf specs).map fun type ↦ (type, rest) := by
  obtain ⟨bound, rfl⟩ := Nat.exists_eq_add_one.2 (Nat.zero_lt_of_lt hbound)
  simp only [compoundPhrase, List.cons_append, List.append_assoc, List.nil_append] at h
  obtain ⟨_, tokens₁, rfl, h₁⟩ := exists_of_lexemes_cons h
  obtain ⟨tokens₂, hopen, h₂⟩ := exists_takeMark stop h₁
  have hshorter : phrase.length < bound := by
    simp only [compoundPhrase, List.length_cons, List.length_append] at hbound
    omega
  rw [← List.append_assoc] at h₂
  obtain ⟨rest, hlist, hrest⟩ := exists_members stop hdefinitions hnames hspecs hcomma hshorter h₂
  subst hrest
  refine ⟨rest, rfl, ?_⟩
  simp only [typeExpr, hopen, hlist, closeType_eq_ok hclose, ok_bind]
  cases compoundOf specs with
  | error fault => rfl
  | ok type => rfl

/-! ### Definitions in front of it -/

theorem DefinitionList.unambiguous {found : Definitions} (hnames : Unambiguous definitions)
    (h : DefinitionList definitions phrase found) : Unambiguous found := by
  induction h with
  | single h => exact h.unambiguous hnames
  | cons hhead _ ih => exact ih (hhead.unambiguous hnames)

/-- Assumes: the definitions made before are well-formed and give no name two types. Definitions
are read one after the other as long as another one follows. -/
theorem exists_definitionList (stop : Option Fault) (hdefinitions : AllWellFormed definitions)
    (hnames : Unambiguous definitions) {found : Definitions}
    (hlist : DefinitionList definitions phrase found)
    (hfollowing : ∃ rest, following = .keyword .define :: rest) {bound : Nat}
    (hbound : (phrase ++ following).length ≤ bound) (h : lexemes tokens = phrase ++ following) :
    ∃ left rest, following.length ≤ left ∧ lexemes rest = following ∧
      definitionList stop bound definitions tokens = definitionList stop left found rest := by
  obtain ⟨next, rfl⟩ := hfollowing
  have hne : ∀ {rest : List Token} {next : List Lexeme},
      lexemes rest = .keyword .define :: next → rest ≠ [] := by
    rintro rest next hrest rfl
    exact List.cons_ne_nil _ _ hrest.symm
  induction hlist generalizing bound tokens with
  | @single definitions found phrase hphrase =>
    have hpos := hphrase.length_pos
    rw [List.length_append] at hbound
    obtain ⟨bound, rfl⟩ : ∃ less, bound = less + 1 := Nat.exists_eq_add_one.2 (by omega)
    have hfirst : phrase.length ≤ bound + 1 := by omega
    obtain ⟨rest, hrest, _, hread⟩ :=
      exists_definition stop hdefinitions hnames hphrase hfirst h rfl
    exact ⟨bound, rest, by omega, hrest, hread (hne hrest)⟩
  | @cons definitions more found phrase list hhead htail ih =>
    have hpos := hhead.length_pos
    rw [List.append_assoc] at h hbound
    rw [List.length_append] at hbound
    obtain ⟨bound, rfl⟩ : ∃ less, bound = less + 1 := Nat.exists_eq_add_one.2 (by omega)
    have hfirst : phrase.length ≤ bound + 1 := by omega
    obtain ⟨_, rfl⟩ := htail.starts
    obtain ⟨rest, hrest, _, hread⟩ :=
      exists_definition stop hdefinitions hnames hhead hfirst h rfl
    rw [hread (hne hrest)]
    exact ih (hhead.wellFormed hdefinitions) (hhead.unambiguous hnames) (by omega) hrest

/-- Assumes: the definitions made before are well-formed and give no name two types. When the last
definition is that of a compound, the definitions are those before it and what the check for
overlaps makes of the members. -/
theorem definitionList_compound (hdefinitions : AllWellFormed definitions)
    (hnames : Unambiguous definitions) {name : String} (hfree : Free definitions name)
    (hspecs : MemberList definitions phrase specs) (hcomma : OptionalComma comma) {bound : Nat}
    (h : lexemes tokens = .keyword .define :: .identifier name :: .keyword .as ::
      compoundPhrase phrase comma) (hbound : (lexemes tokens).length ≤ bound) :
    definitionList none bound definitions tokens =
      (compoundOf specs).map fun type ↦ definitions ++ [(name, type)] := by
  rw [h] at hbound
  simp only [List.length_cons] at hbound
  obtain ⟨bound, rfl⟩ : ∃ less, bound = less + 1 := Nat.exists_eq_add_one.2 (by omega)
  obtain ⟨tokens₁, htake, h₁⟩ := exists_takeKeyword none h
  obtain ⟨tokens₂, hname, h₂⟩ := exists_takeIdentifier none h₁
  obtain ⟨tokens₃, has, h₃⟩ := exists_takeKeyword none h₂
  rw [← List.append_nil (compoundPhrase phrase comma)] at h₃
  obtain ⟨rest, hrest, hread⟩ := exists_typeExpr_compound none hdefinitions hnames hspecs hcomma
    (by omega : _ < bound) h₃ rfl
  obtain rfl : rest = [] := List.map_eq_nil_iff.1 hrest
  simp only [definitionList, htake, hname, has, hread, ok_bind]
  cases compoundOf specs with
  | error fault => rfl
  | ok type =>
    have hmore : define definitions name type = .ok (definitions ++ [(name, type)]) :=
      define_eq_ok_iff.2 ⟨hfree, rfl⟩
    have hclose : closeDefinition none [] = .ok () := rfl
    simp only [Except.map, hclose, hmore, ok_bind]

/-! ### Documents -/

theorem Opening.wellFormed {opening : List Lexeme} (h : Opening opening definitions) :
    AllWellFormed definitions := by
  cases h with
  | bare | first => exact allWellFormed_nil
  | later hlist => exact hlist.wellFormed allWellFormed_nil

/-- The document is the compound or ends with its definition. -/
theorem document_compound {opening : List Lexeme} (hopening : Opening opening definitions)
    (hspecs : MemberList definitions phrase specs) (hcomma : OptionalComma comma)
    (h : lexemes tokens = opening ++ compoundPhrase phrase comma) :
    ∃ found : ElementType → Document, (∀ type, (found type).type? = some type) ∧
      document ⟨tokens, none⟩ = (compoundOf specs).map found := by
  have hlength := length_lexemes tokens
  cases hopening with
  | bare =>
    have hbound : (compoundPhrase phrase comma).length < tokens.length + 1 := by
      rw [← hlength, h]
      exact Nat.lt_succ_self _
    obtain ⟨rest, hrest, hread⟩ := exists_typeExpr_compound none allWellFormed_nil unambiguous_nil
      hspecs hcomma hbound (h.trans (List.append_nil _).symm) rfl
    obtain rfl : rest = [] := List.map_eq_nil_iff.1 hrest
    obtain ⟨_, _, rfl, _⟩ := exists_of_lexemes_cons h
    refine ⟨.type, fun _ ↦ rfl, ?_⟩
    unfold document
    dsimp only at hread ⊢
    rw [hread]
    cases compoundOf specs with
    | error fault => rfl
    | ok type => rfl
  | @first name hfree =>
    have hread := definitionList_compound allWellFormed_nil unambiguous_nil hfree hspecs hcomma h
      (Nat.le_of_eq hlength)
    obtain ⟨_, _, rfl, _⟩ := exists_of_lexemes_cons h
    refine ⟨fun type ↦ .definitions [(name, type)], fun _ ↦ rfl, ?_⟩
    unfold document
    dsimp only at hread ⊢
    rw [hread]
    cases compoundOf specs with
    | error fault => rfl
    | ok type => rfl
  | @later name defined _ hlist hfree =>
    rw [List.append_assoc] at h
    obtain ⟨left, rest, hleft, hrest, hskip⟩ := exists_definitionList none allWellFormed_nil
      unambiguous_nil hlist ⟨_, rfl⟩ (Nat.le_of_eq (h ▸ hlength)) h
    have hread := definitionList_compound (hlist.wellFormed allWellFormed_nil)
      (hlist.unambiguous unambiguous_nil) hfree hspecs hcomma hrest (hrest ▸ hleft)
    obtain ⟨_, rfl⟩ := hlist.starts
    obtain ⟨_, _, rfl, _⟩ := exists_of_lexemes_cons h
    refine ⟨fun type ↦ .definitions (definitions ++ [(name, type)]), fun type ↦ ?_, ?_⟩
    · simp [Document.type?]
    · unfold document
      dsimp only at hskip ⊢
      rw [hskip, hread]
      cases compoundOf specs with
      | error fault => rfl
      | ok type => rfl

/-- The members are what the text lists, and what is read is what the check for overlaps makes of
them. -/
theorem CompoundText.parse_eq {text : String} {members : List Member}
    (h : CompoundText text members) :
    ∃ specs, (∀ m ∈ members, m.type.WellFormed) ∧ placed 0 [] specs = .ok members ∧
      parse text = compoundOf specs := by
  obtain @⟨tokens, opening, phrase, comma, definitions, specs, htokens, hopening, hspecs, hcomma,
    hlexemes, hlaidOut, hnames, hoffset⟩ := h
  obtain ⟨hstop, htokens⟩ := tokenize_eq_ok_iff.1 htokens
  obtain ⟨found, htype, hread⟩ := document_compound hopening hspecs hcomma hlexemes
  have hscan : Scan.ofText text = ⟨tokens, none⟩ := by
    rw [← htokens, ← hstop]
  refine ⟨specs, hlaidOut.wellFormed (hspecs.wellFormed hopening.wellFormed),
    placed_eq_ok_iff.2 ⟨hlaidOut, fresh_nil_iff.2 hnames, hoffset⟩, ?_⟩
  cases hcompound : compoundOf specs with
  | error fault =>
    rw [parse, hscan, hread, hcompound]
    rfl
  | ok type =>
    refine parse_eq_ok_iff.2 ⟨found type, ?_, htype type⟩
    rw [hscan, hread, hcompound]
    rfl

end Stowage.Descriptor
