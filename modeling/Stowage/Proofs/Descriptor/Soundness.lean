import Stowage.Proofs.Descriptor.WellFormed
import Stowage.Proofs.Outcome

/-!
# What is read is in the grammar

A reader takes a phrase off the front of the tokens and leaves the rest. Whatever a reader of
descriptor text returns, the phrase that it took means that in the grammar: the readers of single
tokens by their definitions, the others by induction on their bound. So the type of a text, and
every type that a text defines, is well-formed (`wellFormed_of_parse`,
`wellFormed_of_parseDefinitions`).
-/

set_option autoImplicit false

namespace Stowage.Descriptor

open Outcome (bind_eq_ok)

variable {stop : Option Fault} {definitions : Definitions} {tokens rest : List Token}

/-! ### Single tokens -/

theorem lexemes_of_takeMark {mark : Mark} {u : Unit}
    (h : takeMark stop mark tokens = .ok (u, rest)) :
    lexemes tokens = .mark mark :: lexemes rest := by
  unfold takeMark at h
  split at h
  · split at h
    · next hmark =>
      obtain ⟨_, rfl⟩ := Prod.mk.inj (Except.ok.inj h)
      rw [lexemes_cons, hmark]
    · exact absurd h (by simp)
  · exact absurd h (by simp)

theorem lexemes_of_takeIdentifier {name : String}
    (h : takeIdentifier stop tokens = .ok (name, rest)) :
    lexemes tokens = .identifier name :: lexemes rest := by
  unfold takeIdentifier at h
  split at h
  · obtain ⟨rfl, rfl⟩ := Prod.mk.inj (Except.ok.inj h)
    rfl
  · exact absurd h (by simp)

theorem lexemes_of_takeInteger {value : Int} (h : takeInteger stop tokens = .ok (value, rest)) :
    lexemes tokens = .integer value :: lexemes rest := by
  unfold takeInteger at h
  split at h
  · obtain ⟨rfl, rfl⟩ := Prod.mk.inj (Except.ok.inj h)
    rfl
  · exact absurd h (by simp)

theorem lexemes_of_takeKeyword {word : Keyword} {u : Unit}
    (h : takeKeyword stop word tokens = .ok (u, rest)) :
    lexemes tokens = .keyword word :: lexemes rest := by
  unfold takeKeyword at h
  split at h
  · split at h
    · next hword =>
      obtain ⟨_, rfl⟩ := Prod.mk.inj (Except.ok.inj h)
      rw [lexemes_cons, hword]
    · exact absurd h (by simp)
  · exact absurd h (by simp)

theorem lexemes_of_takeOptional {mark : Mark} {value? : Option Int}
    (h : takeOptional stop mark tokens = .ok (value?, rest)) :
    ∃ phrase, lexemes tokens = phrase ++ lexemes rest ∧ OptionalInteger mark phrase value? := by
  unfold takeOptional at h
  split at h
  · split at h
    · next hmark =>
      obtain ⟨⟨value, tokens⟩, hvalue, h⟩ := bind_eq_ok.1 h
      obtain ⟨rfl, rfl⟩ := Prod.mk.inj (Except.ok.inj h)
      refine ⟨_, ?_, .present value⟩
      rw [lexemes_cons, lexemes_of_takeInteger hvalue, hmark]
      rfl
    · obtain ⟨rfl, rfl⟩ := Prod.mk.inj (Except.ok.inj h)
      exact ⟨[], rfl, .absent⟩
  · obtain ⟨rfl, rfl⟩ := Prod.mk.inj (Except.ok.inj h)
    exact ⟨[], rfl, .absent⟩

theorem lexemes_of_takeSeparator {again : Bool}
    (h : takeSeparator stop tokens = .ok (again, rest)) :
    if again then lexemes tokens = .mark .comma :: lexemes rest
    else ∃ comma, lexemes tokens = comma ++ .mark .closeBrace :: lexemes rest ∧
      OptionalComma comma := by
  unfold takeSeparator at h
  split at h
  · obtain ⟨rfl, rfl⟩ := Prod.mk.inj (Except.ok.inj h)
    exact ⟨[], rfl, .absent⟩
  · obtain ⟨rfl, rfl⟩ := Prod.mk.inj (Except.ok.inj h)
    exact ⟨[.mark .comma], rfl, .present⟩
  · obtain ⟨rfl, rfl⟩ := Prod.mk.inj (Except.ok.inj h)
    rfl
  · exact absurd h (by simp)

theorem eq_none_of_closeType (h : closeType stop [] = .ok ()) : stop = none := by
  cases stop with
  | none => rfl
  | some => exact absurd h (by simp [closeType])

/-! ### Lists in braces and type expressions -/

/-- The list that was read up to its closing brace. -/
theorem derives_of_constants {bound : Nat} {specs : List ConstantSpec}
    (h : constants stop bound tokens = .ok (specs, rest)) :
    ∃ phrase comma, lexemes tokens = phrase ++ comma ++ .mark .closeBrace :: lexemes rest ∧
      ConstantList phrase specs ∧ OptionalComma comma := by
  induction bound generalizing tokens specs with
  | zero => exact absurd h (by simp [constants])
  | succ bound ih =>
    rw [constants] at h
    obtain ⟨⟨name, tokens₁⟩, hname, h⟩ := bind_eq_ok.1 h
    obtain ⟨⟨value?, tokens₂⟩, hvalue, h⟩ := bind_eq_ok.1 h
    obtain ⟨⟨again, tokens₃⟩, hagain, h⟩ := bind_eq_ok.1 h
    obtain ⟨value, hvalue, hoptional⟩ := lexemes_of_takeOptional hvalue
    have hseparator := lexemes_of_takeSeparator hagain
    dsimp only at h
    split at h
    · next hmore =>
      rw [if_pos hmore] at hseparator
      obtain ⟨⟨others, tokens₄⟩, hothers, h⟩ := bind_eq_ok.1 h
      obtain ⟨rfl, rfl⟩ := Prod.mk.inj (Except.ok.inj h)
      obtain ⟨phrase, comma, hphrase, hlist, hcomma⟩ := ih hothers
      refine ⟨_, comma, ?_, .cons (.mk hoptional) hlist, hcomma⟩
      rw [lexemes_of_takeIdentifier hname, hvalue, hseparator, hphrase]
      simp
    · next hlast =>
      rw [if_neg hlast] at hseparator
      obtain ⟨comma, hclose, hcomma⟩ := hseparator
      obtain ⟨rfl, rfl⟩ := Prod.mk.inj (Except.ok.inj h)
      refine ⟨_, comma, ?_, .single (.mk hoptional), hcomma⟩
      rw [lexemes_of_takeIdentifier hname, hvalue, hclose]
      simp

/-- What is read within a bound is in the grammar. -/
structure ReadsGrammar (stop : Option Fault) (definitions : Definitions) (bound : Nat) : Prop where
  /-- A type expression, which ends in front of the rest. -/
  type : ∀ {tokens rest : List Token} {type : ElementType},
    typeExpr stop definitions bound tokens = .ok (type, rest) →
      ∃ phrase, lexemes tokens = phrase ++ lexemes rest ∧ TypePhrase definitions phrase type ∧
        closeType stop rest = .ok ()
  /-- A list of members up to its closing brace. -/
  members : ∀ {tokens rest : List Token} {specs : List MemberSpec},
    members stop definitions bound tokens = .ok (specs, rest) →
      ∃ phrase comma, lexemes tokens = phrase ++ comma ++ .mark .closeBrace :: lexemes rest ∧
        MemberList definitions phrase specs ∧ OptionalComma comma

/-- One more step into a type expression. -/
theorem ReadsGrammar.type_succ {bound : Nat} {type : ElementType}
    (ih : ReadsGrammar stop definitions bound) (hdefinitions : AllWellFormed definitions)
    (h : typeExpr stop definitions (bound + 1) tokens = .ok (type, rest)) :
    ∃ phrase, lexemes tokens = phrase ++ lexemes rest ∧ TypePhrase definitions phrase type ∧
      closeType stop rest = .ok () := by
  rw [typeExpr.eq_def] at h
  dsimp only at h
  split at h
  · -- a name with a width
    obtain ⟨⟨width, tokens₁⟩, hwidth, h⟩ := bind_eq_ok.1 h
    obtain ⟨⟨_, tokens₂⟩, hparen, h⟩ := bind_eq_ok.1 h
    obtain ⟨_, hclose, h⟩ := bind_eq_ok.1 h
    obtain ⟨type, htype, h⟩ := bind_eq_ok.1 h
    obtain ⟨rfl, rfl⟩ := Prod.mk.inj (Except.ok.inj h)
    refine ⟨_, ?_, .sized (sized_eq_ok_iff.1 htype), hclose⟩
    rw [lexemes_cons, lexemes_cons, lexemes_of_takeInteger hwidth, lexemes_of_takeMark hparen]
    rfl
  · -- a name alone
    obtain ⟨_, hclose, h⟩ := bind_eq_ok.1 h
    obtain ⟨type, htype, h⟩ := bind_eq_ok.1 h
    obtain ⟨rfl, rfl⟩ := Prod.mk.inj (Except.ok.inj h)
    exact ⟨_, rfl, .name (named_of_typeNamed htype), hclose⟩
  · -- a sequence
    obtain ⟨⟨_, tokens₁⟩, hless, h⟩ := bind_eq_ok.1 h
    obtain ⟨⟨element, tokens₂⟩, helement, h⟩ := bind_eq_ok.1 h
    obtain ⟨⟨_, tokens₃⟩, hgreater, h⟩ := bind_eq_ok.1 h
    obtain ⟨_, hclose, h⟩ := bind_eq_ok.1 h
    obtain ⟨rfl, rfl⟩ := Prod.mk.inj (Except.ok.inj h)
    obtain ⟨phrase, hphrase, hderives, _⟩ := ih.type helement
    refine ⟨_, ?_, .vlen hderives, hclose⟩
    rw [lexemes_cons, lexemes_of_takeMark hless, hphrase, lexemes_of_takeMark hgreater]
    simp
  · -- an array
    obtain ⟨⟨_, tokens₁⟩, hless, h⟩ := bind_eq_ok.1 h
    obtain ⟨⟨element, tokens₂⟩, helement, h⟩ := bind_eq_ok.1 h
    obtain ⟨⟨_, tokens₃⟩, hcomma, h⟩ := bind_eq_ok.1 h
    obtain ⟨⟨length, tokens₄⟩, hlength, h⟩ := bind_eq_ok.1 h
    obtain ⟨⟨_, tokens₅⟩, hgreater, h⟩ := bind_eq_ok.1 h
    obtain ⟨_, hclose, h⟩ := bind_eq_ok.1 h
    obtain ⟨type, htype, h⟩ := bind_eq_ok.1 h
    obtain ⟨rfl, rfl⟩ := Prod.mk.inj (Except.ok.inj h)
    obtain ⟨hpos, hflat, rfl⟩ := arrayOf_eq_ok_iff.1 htype
    obtain ⟨phrase, hphrase, hderives, _⟩ := ih.type helement
    refine ⟨_, ?_, .array hderives hpos hflat, hclose⟩
    rw [lexemes_cons, lexemes_of_takeMark hless, hphrase, lexemes_of_takeMark hcomma,
      lexemes_of_takeInteger hlength, lexemes_of_takeMark hgreater]
    simp
  · -- an enumeration
    obtain ⟨⟨_, tokens₁⟩, hless, h⟩ := bind_eq_ok.1 h
    obtain ⟨⟨backing, tokens₂⟩, hbacking, h⟩ := bind_eq_ok.1 h
    obtain ⟨⟨_, tokens₃⟩, hgreater, h⟩ := bind_eq_ok.1 h
    obtain ⟨⟨_, tokens₄⟩, hopen, h⟩ := bind_eq_ok.1 h
    obtain ⟨⟨specs, tokens₅⟩, hspecs, h⟩ := bind_eq_ok.1 h
    obtain ⟨_, hclose, h⟩ := bind_eq_ok.1 h
    obtain ⟨type, htype, h⟩ := bind_eq_ok.1 h
    obtain ⟨rfl, rfl⟩ := Prod.mk.inj (Except.ok.inj h)
    obtain ⟨number, constants, rfl, hinteger, hnumbered, hnames, rfl⟩ :=
      enumOf_eq_ok_iff.1 htype
    obtain ⟨phrase, comma, hphrase, hlist, hcomma⟩ := derives_of_constants hspecs
    refine ⟨_, ?_, .enum hinteger hlist hcomma hnumbered hnames, hclose⟩
    rw [lexemes_cons, lexemes_of_takeMark hless, lexemes_of_takeIdentifier hbacking,
      lexemes_of_takeMark hgreater, lexemes_of_takeMark hopen, hphrase]
    simp
  · -- a compound
    obtain ⟨⟨_, tokens₁⟩, hopen, h⟩ := bind_eq_ok.1 h
    obtain ⟨⟨specs, tokens₂⟩, hspecs, h⟩ := bind_eq_ok.1 h
    obtain ⟨_, hclose, h⟩ := bind_eq_ok.1 h
    obtain ⟨type, htype, h⟩ := bind_eq_ok.1 h
    obtain ⟨rfl, rfl⟩ := Prod.mk.inj (Except.ok.inj h)
    obtain ⟨phrase, comma, hphrase, hlist, hcomma⟩ := ih.members hspecs
    obtain ⟨members, size, hlaidOut, hcompound, rfl⟩ :=
      (compoundOf_eq_ok_iff hlist.ne_nil (hlist.wellFormed hdefinitions)).1 htype
    refine ⟨_, ?_, .compound hlist hcomma hlaidOut hcompound, hclose⟩
    rw [lexemes_cons, lexemes_of_takeMark hopen, hphrase]
    simp
  · exact absurd h (by simp)

/-- One more step into a list of members. -/
theorem ReadsGrammar.members_succ {bound : Nat} {specs : List MemberSpec}
    (ih : ReadsGrammar stop definitions bound)
    (h : Descriptor.members stop definitions (bound + 1) tokens = .ok (specs, rest)) :
    ∃ phrase comma, lexemes tokens = phrase ++ comma ++ .mark .closeBrace :: lexemes rest ∧
      MemberList definitions phrase specs ∧ OptionalComma comma := by
  rw [Descriptor.members] at h
  obtain ⟨⟨name, tokens₁⟩, hname, h⟩ := bind_eq_ok.1 h
  obtain ⟨⟨_, tokens₂⟩, hcolon, h⟩ := bind_eq_ok.1 h
  obtain ⟨⟨type, tokens₃⟩, htype, h⟩ := bind_eq_ok.1 h
  obtain ⟨⟨offset?, tokens₄⟩, hoffset, h⟩ := bind_eq_ok.1 h
  obtain ⟨⟨again, tokens₅⟩, hagain, h⟩ := bind_eq_ok.1 h
  obtain ⟨phrase, hphrase, hderives, _⟩ := ih.type htype
  obtain ⟨offset, hoffset, hoptional⟩ := lexemes_of_takeOptional hoffset
  have hseparator := lexemes_of_takeSeparator hagain
  dsimp only at h
  split at h
  · next hmore =>
    rw [if_pos hmore] at hseparator
    obtain ⟨⟨others, tokens₆⟩, hothers, h⟩ := bind_eq_ok.1 h
    obtain ⟨rfl, rfl⟩ := Prod.mk.inj (Except.ok.inj h)
    obtain ⟨list, comma, hlist, hderivesList, hcomma⟩ := ih.members hothers
    refine ⟨_, comma, ?_, .cons (.mk hderives hoptional) hderivesList, hcomma⟩
    rw [lexemes_of_takeIdentifier hname, lexemes_of_takeMark hcolon, hphrase, hoffset,
      hseparator, hlist]
    simp
  · next hlast =>
    rw [if_neg hlast] at hseparator
    obtain ⟨comma, hbrace, hcomma⟩ := hseparator
    obtain ⟨rfl, rfl⟩ := Prod.mk.inj (Except.ok.inj h)
    refine ⟨_, comma, ?_, .single (.mk hderives hoptional), hcomma⟩
    rw [lexemes_of_takeIdentifier hname, lexemes_of_takeMark hcolon, hphrase, hoffset, hbrace]
    simp

/-- Assumes: the definitions made before are well-formed. Whatever is read is in the grammar. -/
theorem readsGrammar (hdefinitions : AllWellFormed definitions) (bound : Nat) :
    ReadsGrammar stop definitions bound := by
  induction bound with
  | zero =>
    refine ⟨fun h ↦ ?_, fun h ↦ ?_⟩
    · exact absurd h (by simp [typeExpr])
    · exact absurd h (by simp [members])
  | succ bound ih => exact ⟨ih.type_succ hdefinitions, ih.members_succ⟩

/-! ### Documents -/

/-- Assumes: the definitions made before are well-formed. Definitions that were read up to the end
are in the grammar, and nothing stopped the scan. -/
theorem derives_of_definitionList {bound : Nat} {found : Definitions}
    (hdefinitions : AllWellFormed definitions)
    (h : definitionList stop bound definitions tokens = .ok found) :
    DefinitionList definitions (lexemes tokens) found ∧ stop = none := by
  induction bound generalizing definitions tokens with
  | zero => exact absurd h (by simp [definitionList])
  | succ bound ih =>
    rw [definitionList] at h
    obtain ⟨⟨_, tokens₁⟩, hdefine, h⟩ := bind_eq_ok.1 h
    obtain ⟨⟨name, tokens₂⟩, hname, h⟩ := bind_eq_ok.1 h
    obtain ⟨⟨_, tokens₃⟩, has, h⟩ := bind_eq_ok.1 h
    obtain ⟨⟨type, tokens₄⟩, htype, h⟩ := bind_eq_ok.1 h
    obtain ⟨_, hclose, h⟩ := bind_eq_ok.1 h
    obtain ⟨more, hmore, h⟩ := bind_eq_ok.1 h
    obtain ⟨phrase, hphrase, hderives, hend⟩ := (readsGrammar hdefinitions bound).type htype
    obtain ⟨hfree, rfl⟩ := define_eq_ok_iff.1 hmore
    have hdefinition := DefinitionPhrase.mk hderives hfree
    rw [lexemes_of_takeKeyword hdefine, lexemes_of_takeIdentifier hname,
      lexemes_of_takeKeyword has, hphrase]
    split at h
    · obtain rfl := Except.ok.inj h
      rw [lexemes_nil, List.append_nil]
      exact ⟨.single hdefinition, eq_none_of_closeType hend⟩
    · obtain ⟨hlist, hstop⟩ := ih (hdefinition.wellFormed hdefinitions) h
      exact ⟨.cons hdefinition hlist, hstop⟩

/-- A document that was read is in the grammar, and nothing stopped the scan. -/
theorem derives_of_document {scan : Scan} {found : Document} (h : document scan = .ok found) :
    Derives (lexemes scan.tokens) found ∧ scan.stop = none := by
  unfold document at h
  split at h
  · obtain ⟨defined, hdefined, h⟩ := bind_eq_ok.1 h
    obtain rfl := Except.ok.inj h
    obtain ⟨hlist, hstop⟩ := derives_of_definitionList allWellFormed_nil hdefined
    exact ⟨.definitions hlist, hstop⟩
  · obtain ⟨⟨type, rest⟩, htype, h⟩ := bind_eq_ok.1 h
    obtain ⟨phrase, hphrase, hderives, hend⟩ := (readsGrammar allWellFormed_nil _).type htype
    dsimp only at h
    split at h
    · obtain rfl := Except.ok.inj h
      rw [hphrase, lexemes_nil, List.append_nil]
      exact ⟨.type hderives, eq_none_of_closeType hend⟩
    · exact absurd h (by simp)

theorem DefinitionList.ne_nil {phrase : List Lexeme} {found : Definitions}
    (h : DefinitionList definitions phrase found) : found ≠ [] := by
  induction h with
  | single h => exact h.casesOn fun _ _ ↦ by simp
  | cons _ _ ih => exact ih

/-- A document describes a type. -/
theorem Derives.exists_type? {phrase : List Lexeme} {found : Document} (h : Derives phrase found) :
    ∃ type, found.type? = some type := by
  cases h with
  | type => exact ⟨_, rfl⟩
  | definitions h =>
    obtain ⟨last, hlast⟩ := Option.isSome_iff_exists.1 (List.getLast?_isSome.2 h.ne_nil)
    exact ⟨last.2, Option.map_eq_some_iff.2 ⟨last, hlast, rfl⟩⟩

theorem tokenize_eq_ok_iff {text : String} {tokens : List Token} :
    tokenize text = .ok tokens ↔
      (Scan.ofText text).stop = none ∧ (Scan.ofText text).tokens = tokens := by
  unfold tokenize
  dsimp only
  split
  · next hstop => simp [hstop]
  · next hstop => simp [hstop]

theorem parse_eq_ok_iff {text : String} {type : ElementType} :
    parse text = .ok type ↔
      ∃ found, document (Scan.ofText text) = .ok found ∧ found.type? = some type := by
  unfold parse
  rw [bind_eq_ok]
  refine exists_congr fun found ↦ and_congr_right fun _ ↦ ?_
  cases found with
  | type described => simp [Document.type?]
  | definitions defined =>
    dsimp only
    split <;> simp [Document.type?, *]

theorem parseDefinitions_eq_ok_iff {text : String} :
    parseDefinitions text = .ok definitions ↔
      document (Scan.ofText text) = .ok (.definitions definitions) := by
  unfold parseDefinitions
  rw [bind_eq_ok]
  constructor
  · rintro ⟨described | defined, hfound, h⟩
    · exact absurd h (by simp)
    · obtain rfl := Except.ok.inj h
      exact hfound
  · exact fun hfound ↦ ⟨_, hfound, rfl⟩

/-- The type that a text describes is well-formed. -/
theorem wellFormed_of_parse {text : String} {type : ElementType} (h : parse text = .ok type) :
    type.WellFormed := by
  obtain ⟨found, hfound, htype⟩ := parse_eq_ok_iff.1 h
  exact (derives_of_document hfound).1.wellFormed.of_type? htype

/-- Every type that a text defines is well-formed. -/
theorem wellFormed_of_parseDefinitions {text : String}
    (h : parseDefinitions text = .ok definitions) : AllWellFormed definitions :=
  (derives_of_document (parseDefinitions_eq_ok_iff.1 h)).1.wellFormed

end Stowage.Descriptor
